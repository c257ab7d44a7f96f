import LeanVllm.Collections.KeyRuns
import Mathlib.Data.List.Sort

/-!
# A stable sort by key

The positions of a list sorted by their keys, equal keys in the order of their
positions.  A position's place after the sort is the number of smaller keys and of
earlier equal ones.
-/

namespace LeanVllm.Collections

/-- The keys with their positions, sorted by key; equal keys keep their order. -/
def stableSort (keys : List Nat) : List (Nat × Nat) :=
  keys.zipIdx.insertionSort fun a b => a.1 ≤ b.1

/-- `torch.searchsorted` in a sorted list, before the equal entries. -/
def searchsorted (sorted : List Nat) (value : Nat) : Nat :=
  sorted.countP fun entry => entry < value

/-- `torch.searchsorted(.., right=True)`, after the equal entries. -/
def searchsortedRight (sorted : List Nat) (value : Nat) : Nat :=
  sorted.countP fun entry => entry ≤ value

/-- The order of the sort: by key, then by position. -/
def Earlier (a b : Nat × Nat) : Prop :=
  a.1 < b.1 ∨ a.1 = b.1 ∧ a.2 < b.2

instance (a b : Nat × Nat) : Decidable (Earlier a b) :=
  inferInstanceAs (Decidable (_ ∨ _))

theorem stableSort_perm (keys : List Nat) : (stableSort keys).Perm keys.zipIdx :=
  List.perm_insertionSort _ _

theorem map_fst_stableSort_perm (keys : List Nat) : ((stableSort keys).map Prod.fst).Perm keys := by
  have mapped := (stableSort_perm keys).map Prod.fst
  rwa [List.zipIdx_map_fst] at mapped

theorem length_stableSort (keys : List Nat) : (stableSort keys).length = keys.length := by
  rw [(stableSort_perm keys).length_eq, List.length_zipIdx]

/-- An entry put in front of later positions lands before its equals. -/
theorem orderedInsert_earlier {entry : Nat × Nat} {sorted : List (Nat × Nat)}
    (ordered : sorted.Pairwise Earlier) (first : ∀ other ∈ sorted, entry.2 < other.2) :
    (sorted.orderedInsert (fun a b => a.1 ≤ b.1) entry).Pairwise Earlier := by
  induction sorted with
  | nil => exact List.pairwise_singleton _ _
  | cons head rest ih =>
      rw [List.orderedInsert]
      obtain ⟨before, ordered'⟩ := List.pairwise_cons.mp ordered
      have headLater := first head List.mem_cons_self
      split
      · rename_i le
        refine List.pairwise_cons.mpr ⟨fun other among => ?_, ordered⟩
        have position := first other among
        rcases List.mem_cons.mp among with rfl | later
        · rw [Earlier]
          omega
        · have less := before other later
          rw [Earlier] at less ⊢
          omega
      · rename_i gt
        refine List.pairwise_cons.mpr ⟨fun other among => ?_,
          ih ordered' fun other among => first other (List.mem_cons_of_mem _ among)⟩
        rcases (List.mem_orderedInsert _).mp among with rfl | later
        · rw [Earlier]
          omega
        · exact before other later

theorem stableSort_earlier (keys : List Nat) : (stableSort keys).Pairwise Earlier := by
  rw [stableSort]
  generalize 0 = start
  induction keys generalizing start with
  | nil => exact List.Pairwise.nil
  | cons key keys ih =>
      rw [List.zipIdx_cons, List.insertionSort_cons]
      refine orderedInsert_earlier (ih (start + 1)) fun other among => ?_
      rw [List.mem_insertionSort] at among
      exact (List.mem_zipIdx among).1

/-- In a strictly ordered list an entry's place is the number of entries before it. -/
theorem eq_countP_of_pairwise {α : Type*} (before : α → α → Prop) [DecidableRel before]
    (irrefl : ∀ a, ¬ before a a) (asymm : ∀ a b, before a b → ¬ before b a) {values : List α}
    (ordered : values.Pairwise before) {j : Nat} {value : α} (found : values[j]? = some value) :
    values.countP (before · value) = j := by
  obtain ⟨inside, read⟩ := List.getElem?_eq_some_iff.mp found
  have split : values.take j ++ value :: values.drop (j + 1) = values := by
    rw [← read, List.getElem_cons_drop, List.take_append_drop]
  rw [← split] at ordered
  obtain ⟨_, ordered, earlier⟩ := List.pairwise_append.mp ordered
  have later := (List.pairwise_cons.mp ordered).1
  rw [← split, List.countP_append, List.countP_cons,
    List.countP_eq_length.mpr fun other among =>
      decide_eq_true (earlier other among value List.mem_cons_self),
    List.countP_eq_zero.mpr fun other among => by
      simpa using asymm _ _ (later other among), List.length_take, Nat.min_eq_left (by omega)]
  simp [irrefl]

/-- Entries of two kinds that no entry has both of. -/
theorem countP_or {α : Type*} (values : List α) (first second : α → Prop) [DecidablePred first]
    [DecidablePred second] (apart : ∀ value ∈ values, first value → ¬ second value) :
    values.countP (fun value => first value ∨ second value) =
      values.countP first + values.countP second := by
  induction values with
  | nil => rfl
  | cons value values ih =>
      have rest := ih fun other among => apart other (List.mem_cons_of_mem _ among)
      have here := apart value List.mem_cons_self
      rw [List.countP_cons, List.countP_cons, List.countP_cons, rest]
      by_cases one : first value
      · simp [one, here one]
        omega
      · by_cases two : second value
        · simp [one, two]
          omega
        · simp [one, two]

theorem countP_zipIdx_before (keys : List Nat) (key p : Nat) :
    keys.zipIdx.countP (fun entry => entry.1 = key ∧ entry.2 < p) = before keys key p := by
  have split : keys.zipIdx = (keys.take p).zipIdx ++ (keys.drop p).zipIdx (keys.take p).length := by
    conv_lhs => rw [← List.take_append_drop p keys, List.zipIdx_append, Nat.zero_add]
  have short : (keys.take p).length ≤ p := List.length_take_le _ _
  have head : (keys.take p).zipIdx.countP (fun entry => entry.1 = key ∧ entry.2 < p) =
      (keys.take p).count key := by
    have mapped := List.countP_map (p := fun k => k == key) (f := Prod.fst)
      (l := (keys.take p).zipIdx)
    rw [List.zipIdx_map_fst] at mapped
    rw [List.count, mapped]
    refine List.countP_congr fun entry among => ?_
    have position := (List.mem_zipIdx among).2.1
    simp only [Function.comp_apply, decide_eq_true_eq, beq_iff_eq]
    omega
  have tail : ((keys.drop p).zipIdx (keys.take p).length).countP
      (fun entry => entry.1 = key ∧ entry.2 < p) = 0 := by
    refine List.countP_eq_zero.mpr fun entry among => ?_
    have position := (List.mem_zipIdx among).1
    have inside := (List.mem_zipIdx among).2.1
    rw [List.length_take] at position inside
    rw [List.length_drop] at inside
    simp only [decide_eq_true_eq]
    omega
  rw [split, List.countP_append, head, tail, Nat.add_zero, before]

/-- A position's place after the sort. -/
theorem stableSort_place {keys : List Nat} {j key p : Nat}
    (found : (stableSort keys)[j]? = some (key, p)) :
    j = searchsorted keys key + before keys key p := by
  have place := eq_countP_of_pairwise Earlier (fun a => by rw [Earlier]; omega)
    (fun a b => by rw [Earlier, Earlier]; omega) (stableSort_earlier keys) found
  have smaller : keys.zipIdx.countP (fun entry => entry.1 < key) = searchsorted keys key := by
    have mapped := List.countP_map (p := fun k => decide (k < key)) (f := Prod.fst)
      (l := keys.zipIdx)
    rw [List.zipIdx_map_fst] at mapped
    exact mapped.symm
  have both := countP_or keys.zipIdx (fun entry => entry.1 < key)
    (fun entry => entry.1 = key ∧ entry.2 < p) fun entry _ less => by omega
  rw [smaller, countP_zipIdx_before] at both
  rw [← both, ← place, (stableSort_perm keys).countP_eq]
  rfl

/-- Every position is in the sort. -/
theorem exists_place {keys : List Nat} {key p : Nat} (found : keys[p]? = some key) :
    ∃ j : Nat, (stableSort keys)[j]? = some (key, p) := by
  have among : (key, p) ∈ stableSort keys := by
    rw [(stableSort_perm keys).mem_iff]
    exact List.mem_zipIdx_iff_getElem?.mpr found
  exact List.mem_iff_getElem?.mp among

theorem getElem?_of_stableSort {keys : List Nat} {j key p : Nat}
    (found : (stableSort keys)[j]? = some (key, p)) : keys[p]? = some key := by
  have among := (stableSort_perm keys).mem_iff.mp (List.mem_of_getElem? found)
  exact List.mem_zipIdx_iff_getElem?.mp among

/-- The sorted keys, searched as the keys themselves. -/
theorem searchsorted_sorted (keys : List Nat) (value : Nat) :
    searchsorted ((stableSort keys).map Prod.fst) value = searchsorted keys value :=
  (map_fst_stableSort_perm keys).countP_eq _

theorem searchsortedRight_sorted (keys : List Nat) (value : Nat) :
    searchsortedRight ((stableSort keys).map Prod.fst) value =
      searchsorted keys value + keys.count value := by
  have both := countP_or keys (· < value) (· = value) fun entry _ less => by omega
  rw [searchsortedRight, (map_fst_stableSort_perm keys).countP_eq]
  rw [searchsorted, List.count]
  refine Eq.trans (List.countP_congr fun entry _ => ?_) (both.trans ?_)
  · simp only [decide_eq_true_eq]
    omega
  · congr 1

end LeanVllm.Collections
