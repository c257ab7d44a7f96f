import Mathlib.Data.List.GetD
import Mathlib.Data.List.MinMax
import Mathlib.Data.List.Perm.Subperm
import Mathlib.Order.BoundedOrder.Basic

/-!
# The highest lanes

A row of lanes is a function; a lane that is out counts `⊥`.  Taking the first largest
lane and counting it out, `k` times, picks `k` lanes that no other exceeds.  Any two such
picks are the same lanes when the lanes that count are distinct.
-/

namespace LeanVllm.Collections

variable {α : Type*} [LinearOrder α]

/-- `argmax` over the first `n` lanes: the first of the largest. -/
def laneArgmax (n : Nat) (f : Nat → α) : Nat :=
  ((List.range n).argmax f).getD 0

theorem laneArgmax_spec {n : Nat} (some : 0 < n) (f : Nat → α) :
    laneArgmax n f < n ∧ ∀ j < n, f j ≤ f (laneArgmax n f) := by
  have nonempty : List.range n ≠ [] := by
    rw [Ne, List.range_eq_nil]
    omega
  cases found : (List.range n).argmax f with
  | none => exact absurd (List.argmax_eq_none.mp found) nonempty
  | some i =>
      rw [laneArgmax, found, Option.getD_some]
      have member : i ∈ (List.range n).argmax f := found
      refine ⟨List.mem_range.mp (List.argmax_mem member), fun j inside => ?_⟩
      exact List.le_of_mem_argmax (List.mem_range.mpr inside) member

variable [OrderBot α]

/-- Lanes counted out. -/
def without (f : Nat → α) (picks : List Nat) (i : Nat) : α :=
  if i ∈ picks then ⊥ else f i

/-- The first largest of the lanes left, time after time. -/
def picksOf (n : Nat) (f : Nat → α) : Nat → List Nat
  | 0 => []
  | k + 1 => picksOf n f k ++ [laneArgmax n (without f (picksOf n f k))]

theorem length_picksOf (n : Nat) (f : Nat → α) (k : Nat) : (picksOf n f k).length = k := by
  induction k with
  | zero => rfl
  | succ k ih => rw [picksOf, List.length_append, ih, List.length_singleton]

@[simp]
theorem without_nil (f : Nat → α) : without f [] = f := by
  funext i
  exact if_neg List.not_mem_nil

theorem picksOf_one (n : Nat) (f : Nat → α) : picksOf n f 1 = [laneArgmax n f] := by
  simp [picksOf]

theorem picksOf_two (n : Nat) (f : Nat → α) : picksOf n f 2 =
    [laneArgmax n f, laneArgmax n (without f [laneArgmax n f])] := by
  simp [picksOf]

theorem without_concat (f : Nat → α) (picks : List Nat) (i : Nat) :
    without f (picks ++ [i]) = Function.update (without f picks) i ⊥ := by
  funext j
  by_cases same : j = i
  · rw [same, Function.update_self, without, if_pos (by simp)]
  · rw [Function.update_of_ne same, without, without]
    simp [same]

/-- `k` lanes that count, none exceeded by a lane left. -/
structure Top (f : Nat → α) (k : Nat) (picks : List Nat) : Prop where
  length : picks.length = k
  nodup : picks.Nodup
  counts : ∀ i ∈ picks, f i ≠ ⊥
  highest : ∀ i ∈ picks, ∀ j, j ∉ picks → f j ≤ f i

section Picks

variable {n k : Nat} {f : Nat → α} {members : List Nat}

/-- Some lane that counts is left. -/
theorem exists_not_mem {picks : List Nat} (nodup : members.Nodup)
    (more : picks.length < members.length) : ∃ i ∈ members, i ∉ picks := by
  by_contra all
  simp only [not_exists, not_and, not_not] at all
  exact absurd (List.subperm_of_subset nodup all).length_le (by omega)

/-- Of picks with one that is no member, some member is left. -/
theorem exists_not_mem_of_other {picks : List Nat} {i : Nat} (nodup : members.Nodup)
    (own : i ∈ picks) (other : i ∉ members) (enough : picks.length ≤ members.length) :
    ∃ m ∈ members, m ∉ picks := by
  have some := List.length_pos_of_mem own
  obtain ⟨m, member, gone⟩ := exists_not_mem nodup
    (show (picks.erase i).length < members.length by
      rw [List.length_erase_of_mem own]
      omega)
  refine ⟨m, member, fun ours => gone ((List.mem_erase_of_ne ?_).mpr ours)⟩
  rintro rfl
  exact other member

theorem picksOf_top (outside : ∀ i, n ≤ i → f i = ⊥) (nodup : members.Nodup)
    (count : ∀ i ∈ members, f i ≠ ⊥) (enough : k ≤ members.length) : Top f k (picksOf n f k) := by
  induction k with
  | zero => exact ⟨rfl, List.nodup_nil, fun _ absurdly => absurd absurdly List.not_mem_nil,
      fun _ absurdly => absurd absurdly List.not_mem_nil⟩
  | succ k ih =>
      have before := ih (by omega)
      obtain ⟨m, member, left⟩ := exists_not_mem nodup
        (show (picksOf n f k).length < members.length by rw [length_picksOf]; omega)
      have inside : m < n := by
        by_contra past
        exact count m member (outside m (Nat.le_of_not_lt past))
      rw [picksOf]
      obtain ⟨small, largest⟩ := laneArgmax_spec (Nat.zero_lt_of_lt inside)
        (without f (picksOf n f k))
      generalize laneArgmax n (without f (picksOf n f k)) = i at small largest
      have counted : without f (picksOf n f k) i ≠ ⊥ := by
        intro out
        have le := largest m inside
        rw [out, without, if_neg left, le_bot_iff] at le
        exact count m member le
      have fresh : i ∉ picksOf n f k := by
        intro earlier
        exact counted (if_pos earlier)
      rw [without, if_neg fresh] at counted
      constructor
      · rw [List.length_append, length_picksOf, List.length_singleton]
      · exact List.nodup_append.mpr ⟨before.nodup, List.pairwise_singleton _ i, fun a early b own => by
          rw [List.mem_singleton.mp own]
          exact fun same => fresh (same ▸ early)⟩
      · intro j among
        rcases List.mem_append.mp among with early | own
        · exact before.counts j early
        · rw [List.mem_singleton.mp own]
          exact counted
      · intro j among other absent
        rw [List.mem_append, not_or] at absent
        rcases List.mem_append.mp among with early | own
        · exact before.highest j early other absent.1
        · rw [List.mem_singleton.mp own]
          by_cases past : n ≤ other
          · rw [outside other past]
            exact bot_le
          · have le := largest other (Nat.lt_of_not_le past)
            rwa [without, if_neg absent.1, without, if_neg fresh] at le

/-- Distinct lanes have one top. -/
theorem Top.perm {first second : List Nat} (top : Top f k first) (other : Top f k second)
    (distinct : ∀ i j, f i ≠ ⊥ → f i = f j → i = j) : first.Perm second := by
  have same : first.length = second.length := by rw [top.length, other.length]
  refine (List.subperm_of_subset top.nodup fun i own => ?_).perm_of_length_le same.ge
  by_contra missing
  -- as many lanes are picked only by the second
  obtain ⟨j, theirs, left⟩ := exists_not_mem_of_other other.nodup own missing same.le
  have equal := le_antisymm (top.highest i own j left) (other.highest j theirs i missing)
  exact missing (distinct j i (other.counts j theirs) equal ▸ theirs)

/-- `k` of the listed values, by position, none exceeded by a value left. -/
structure Selects (values : List α) (k : Nat) (picks : List Nat) : Prop where
  length : picks.length = k
  nodup : picks.Nodup
  inside : ∀ i ∈ picks, i < values.length
  highest : ∀ i ∈ picks, ∀ j < values.length, j ∉ picks → values.getD j ⊥ ≤ values.getD i ⊥

/-- Values selected from a list that has enough that count. -/
theorem Selects.top {values : List α} {picks : List Nat} (selects : Selects values k picks)
    (nodup : members.Nodup) (count : ∀ i ∈ members, values.getD i ⊥ ≠ ⊥)
    (enough : k ≤ members.length) : Top (fun i => values.getD i ⊥) k picks := by
  refine ⟨selects.length, selects.nodup, fun i own out => ?_, fun i own j absent => ?_⟩
  · obtain ⟨m, member, left⟩ := exists_not_mem_of_other nodup own
      (fun member => count i member out) (by rw [selects.length]; exact enough)
    have counted := count m member
    have inside : m < values.length := by
      by_contra past
      exact counted (List.getD_eq_default _ _ (Nat.le_of_not_lt past))
    have le := selects.highest i own m inside left
    rw [out, le_bot_iff] at le
    exact counted le
  · by_cases inside : j < values.length
    · exact selects.highest i own j inside absent
    · rw [List.getD_eq_default _ _ (Nat.le_of_not_lt inside)]
      exact bot_le

/-- The positions of the `k` first values in descending order. -/
def sortedPicks (k : Nat) (values : List α) : List Nat :=
  ((List.range values.length).mergeSort fun i j =>
    decide (values.getD j ⊥ ≤ values.getD i ⊥)).take k

theorem sortedPicks_selects {values : List α} (short : k ≤ values.length) :
    Selects values k (sortedPicks k values) := by
  have perm := List.mergeSort_perm (List.range values.length) fun i j =>
    decide (values.getD j ⊥ ≤ values.getD i ⊥)
  have sorted := @List.pairwise_mergeSort _ (fun i j => decide (values.getD j ⊥ ≤ values.getD i ⊥))
    (fun i j l first second => decide_eq_true
      (le_trans (of_decide_eq_true second) (of_decide_eq_true first)))
    (fun i j => by
      rw [Bool.or_eq_true, decide_eq_true_iff, decide_eq_true_iff]
      exact le_total _ _) (List.range values.length)
  rw [sortedPicks]
  generalize (List.range values.length).mergeSort (fun i j =>
    decide (values.getD j ⊥ ≤ values.getD i ⊥)) = order at perm sorted
  have nodup := perm.nodup_iff.mpr List.nodup_range
  rw [← List.take_append_drop k order] at nodup sorted
  constructor
  · rw [List.length_take, perm.length_eq, List.length_range, Nat.min_eq_left short]
  · exact (List.nodup_append.mp nodup).1
  · intro i own
    exact List.mem_range.mp (perm.mem_iff.mp (List.mem_of_mem_take own))
  · intro i own j inside absent
    have among := perm.mem_iff.mpr (List.mem_range.mpr inside)
    rw [← List.take_append_drop k order, List.mem_append] at among
    have later := among.resolve_left absent
    exact of_decide_eq_true ((List.pairwise_append.mp sorted).2.2 i own j later)

end Picks

end LeanVllm.Collections
