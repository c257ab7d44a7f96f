import Mathlib.Data.List.Basic
import Mathlib.Data.List.Nodup

/-!
# Rounds of reports

Reports about one thing arrive one after another, and every `n` of them make a
round.  A counter that starts again at `n` sees the open round only; this file
says how the open round and the closed ones change with one more report, and
what a loop does that treats each key of a list by itself.
-/

namespace LeanVllm.Collections

universe u v w

variable {α : Type u}

/-- The `k`-th round. -/
def roundAt (n k : Nat) (entries : List α) : List α :=
  (entries.drop (k * n)).take n

/-- The entries after the last full round. -/
def openRound (n : Nat) (entries : List α) : List α :=
  entries.drop (entries.length / n * n)

/-- Round `k` is full. -/
def Closed (n k : Nat) (entries : List α) : Prop :=
  (k + 1) * n ≤ entries.length

variable {n k : Nat} {entries more : List α} {entry : α}

theorem length_openRound (n : Nat) (entries : List α) :
    (openRound n entries).length = entries.length % n := by
  rw [openRound, List.length_drop, Nat.mod_eq_sub_div_mul]

@[simp]
theorem openRound_nil (n : Nat) : openRound n ([] : List α) = [] :=
  List.drop_nil

theorem closed_iff (positive : 0 < n) : Closed n k entries ↔ k < entries.length / n := by
  rw [Closed, ← Nat.le_div_iff_mul_le positive, Nat.succ_le_iff]

theorem Closed.length_roundAt (closed : Closed n k entries) : (roundAt n k entries).length = n := by
  rw [roundAt, List.length_take, List.length_drop]
  have : (k + 1) * n = k * n + n := Nat.succ_mul k n
  rw [Closed] at closed
  omega

theorem Closed.append (closed : Closed n k entries) (more : List α) :
    Closed n k (entries ++ more) := by
  rw [Closed, List.length_append]
  exact Nat.le_add_right_of_le closed

/-- Later entries leave a full round alone. -/
theorem Closed.roundAt_append (closed : Closed n k entries) (more : List α) :
    roundAt n k (entries ++ more) = roundAt n k entries := by
  have total : (k + 1) * n = k * n + n := Nat.succ_mul k n
  rw [Closed] at closed
  rw [roundAt, roundAt, List.drop_append_of_le_length (by omega),
    List.take_append_of_le_length (by rw [List.length_drop]; omega)]

/-- With later entries a round can only grow. -/
theorem roundAt_prefix (n k : Nat) (entries more : List α) :
    roundAt n k entries <+: roundAt n k (entries ++ more) := by
  rw [roundAt, roundAt, List.drop_append, List.take_append]
  exact List.prefix_append _ _

theorem succ_length_div (positive : 0 < n) (entries : List α) :
    (entries.length + 1) / n =
      if (openRound n entries).length + 1 = n then entries.length / n + 1
      else entries.length / n := by
  rw [length_openRound]
  have parts := Nat.div_add_mod' entries.length n
  have below := Nat.mod_lt entries.length positive
  split
  · apply Nat.div_eq_of_lt_le
    · rw [Nat.add_mul]
      omega
    · rw [Nat.add_mul, Nat.add_mul]
      omega
  · apply Nat.div_eq_of_lt_le
    · omega
    · rw [Nat.add_mul]
      omega

/-- An entry that does not fill the open round joins it, and no round closes. -/
theorem openRound_snoc_of_ne (positive : 0 < n)
    (short : (openRound n entries).length + 1 ≠ n) (entry : α) :
    openRound n (entries ++ [entry]) = openRound n entries ++ [entry] ∧
      ∀ k, Closed n k (entries ++ [entry]) ↔ Closed n k entries := by
  have same := succ_length_div positive entries
  rw [if_neg short] at same
  constructor
  · rw [openRound, openRound, List.length_append, List.length_singleton, same,
      List.drop_append_of_le_length (Nat.div_mul_le_self _ _)]
  · intro k
    rw [closed_iff positive, closed_iff positive, List.length_append, List.length_singleton, same]

/-- An entry that fills the open round closes it. -/
theorem openRound_snoc_of_eq (positive : 0 < n)
    (full : (openRound n entries).length + 1 = n) (entry : α) :
    openRound n (entries ++ [entry]) = [] ∧
      roundAt n (entries.length / n) (entries ++ [entry]) = openRound n entries ++ [entry] ∧
      ∀ k, Closed n k (entries ++ [entry]) ↔ Closed n k entries ∨ k = entries.length / n := by
  have next := succ_length_div positive entries
  rw [if_pos full] at next
  have parts := Nat.div_add_mod' entries.length n
  have sized := length_openRound n entries
  refine ⟨?_, ?_, ?_⟩
  · rw [openRound, List.length_append, List.length_singleton, next, Nat.add_mul]
    apply List.drop_eq_nil_of_le
    rw [List.length_append, List.length_singleton]
    omega
  · rw [roundAt, List.drop_append_of_le_length (Nat.div_mul_le_self _ _)]
    apply List.take_of_length_le
    rw [List.length_append, List.length_singleton]
    exact Nat.le_of_eq full
  · intro k
    rw [closed_iff positive, closed_iff positive, List.length_append, List.length_singleton, next]
    omega

/-! ## Loops over distinct keys -/

section Loops

variable {σ : Type v} {ι κ : Type w} {ω : Type u} {step : σ → ι → σ} {items : List ι}
  (view : σ → κ → ω) (keyOf : ι → κ) (treat : ι → ω → ω)

/-- A loop leaves alone what belongs to no item of its list. -/
theorem foldl_view_of_notMem
    (others : ∀ state item key, key ≠ keyOf item → view (step state item) key = view state key)
    {key : κ} (absent : key ∉ items.map keyOf) (state : σ) :
    view (items.foldl step state) key = view state key := by
  induction items generalizing state with
  | nil => rfl
  | cons first items ih =>
      rw [List.map_cons, List.mem_cons, not_or] at absent
      rw [List.foldl_cons, ih absent.2, others state first key absent.1]

/-- A loop that treats each item by itself treats an item of its list once. -/
theorem foldl_view_of_mem
    (own : ∀ state item, view (step state item) (keyOf item) = treat item (view state (keyOf item)))
    (others : ∀ state item key, key ≠ keyOf item → view (step state item) key = view state key)
    (distinct : (items.map keyOf).Nodup) {item : ι} (member : item ∈ items) (state : σ) :
    view (items.foldl step state) (keyOf item) = treat item (view state (keyOf item)) := by
  induction items generalizing state with
  | nil => exact absurd member List.not_mem_nil
  | cons first items ih =>
      rw [List.map_cons, List.nodup_cons] at distinct
      rw [List.foldl_cons]
      rcases List.mem_cons.mp member with rfl | later
      · rw [foldl_view_of_notMem view keyOf others distinct.1, own]
      · have other : keyOf item ≠ keyOf first := by
          intro same
          exact distinct.1 (same ▸ List.mem_map_of_mem later)
        rw [ih distinct.2 later, others state first _ other]

end Loops

end LeanVllm.Collections
