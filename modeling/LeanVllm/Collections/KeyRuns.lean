import LeanVllm.Collections.Ranges
import Mathlib.Algebra.BigOperators.Group.List.Basic
import Mathlib.Algebra.Order.BigOperators.Group.List
import Mathlib.Algebra.Order.Ring.Nat

/-!
# Runs of equal keys

A stable sort by key lays the positions of a list out in runs, one for each key, with
room in each run for its positions and perhaps more.  A position's slot is its run's
start and the number of earlier positions with its key.
-/

namespace LeanVllm.Collections

/-! ## The runs -/

section Runs

variable {size : Nat → Nat} {key other r : Nat}

/-- Where a key's run starts, with room for `size` of each key. -/
def runStart (size : Nat → Nat) (key : Nat) : Nat :=
  ((List.range key).map size).sum

@[simp]
theorem runStart_zero (size : Nat → Nat) : runStart size 0 = 0 :=
  rfl

theorem runStart_succ (size : Nat → Nat) (key : Nat) :
    runStart size (key + 1) = runStart size key + size key := by
  simp [runStart, List.range_succ]

theorem runStart_mono (size : Nat → Nat) (le : key ≤ other) :
    runStart size key ≤ runStart size other := by
  induction other, le using Nat.le_induction with
  | base => exact Nat.le_refl _
  | succ other _ ih =>
      rw [runStart_succ]
      exact Nat.le_trans ih (Nat.le_add_right _ _)

/-- Keys without room start where the last run ends. -/
theorem runStart_eq_of_le (le : key ≤ other) (none : ∀ k, key ≤ k → size k = 0) :
    runStart size other = runStart size key := by
  induction other, le using Nat.le_induction with
  | base => rfl
  | succ other above ih => rw [runStart_succ, ih, none other above, Nat.add_zero]

theorem dvd_runStart {unit : Nat} (whole : ∀ k, unit ∣ size k) (key : Nat) :
    unit ∣ runStart size key := by
  induction key with
  | zero => exact Nat.dvd_zero _
  | succ key ih =>
      rw [runStart_succ]
      exact Nat.dvd_add ih (whole key)

/-- A row is in a run. -/
structure InRun (size : Nat → Nat) (key r : Nat) : Prop where
  first : runStart size key ≤ r
  last : r < runStart size (key + 1)

theorem exists_inRun (inside : r < runStart size key) : ∃ k < key, InRun size k r := by
  induction key with
  | zero => exact absurd inside (Nat.not_lt_zero r)
  | succ key ih =>
      by_cases earlier : r < runStart size key
      · obtain ⟨k, small, run⟩ := ih earlier
        exact ⟨k, Nat.lt_succ_of_lt small, run⟩
      · exact ⟨key, Nat.lt_succ_self key, Nat.le_of_not_lt earlier, inside⟩

/-- The runs that have started at a row are those up to its own. -/
theorem InRun.started_iff (run : InRun size key r) : runStart size other ≤ r ↔ other ≤ key := by
  constructor
  · intro started
    by_contra later
    have next := runStart_mono size (show key + 1 ≤ other by omega)
    have last := run.last
    omega
  · intro le
    exact Nat.le_trans (runStart_mono size le) run.first

theorem InRun.unique (run : InRun size key r) (run' : InRun size other r) : key = other :=
  Nat.le_antisymm (run'.started_iff.mp run.first) (run.started_iff.mp run'.first)

end Runs

/-! ## The positions of a key -/

section Positions

variable {keys : List Nat} {key n m p : Nat}

/-- How many of the first positions have a key. -/
def before (keys : List Nat) (key n : Nat) : Nat :=
  (keys.take n).count key

@[simp]
theorem before_zero (keys : List Nat) (key : Nat) : before keys key 0 = 0 :=
  rfl

theorem before_add (keys : List Nat) (key n m : Nat) :
    before keys key (n + m) = before keys key n + ((keys.drop n).take m).count key := by
  rw [before, before, List.take_add, List.count_append]

theorem before_of_length_le (long : keys.length ≤ n) : before keys key n = keys.count key := by
  rw [before, List.take_of_length_le long]

theorem before_le_count (keys : List Nat) (key n : Nat) :
    before keys key n ≤ keys.count key :=
  List.Sublist.count_le key (List.take_sublist n keys)

theorem before_mono (keys : List Nat) (key : Nat) (le : n ≤ m) :
    before keys key n ≤ before keys key m := by
  obtain ⟨more, rfl⟩ := Nat.exists_eq_add_of_le le
  rw [before_add]
  exact Nat.le_add_right _ _

theorem before_succ (found : keys[p]? = some key) (k : Nat) :
    before keys k (p + 1) = before keys k p + if k = key then 1 else 0 := by
  obtain ⟨inside, read⟩ := List.getElem?_eq_some_iff.mp found
  rw [before_add, List.drop_eq_getElem_cons inside, read]
  by_cases own : k = key
  · simp [own]
  · simp [own, Ne.symm own]

/-- A position's slot. -/
def slot (size : Nat → Nat) (keys : List Nat) (p : Nat) : Nat :=
  runStart size (keys.getD p 0) + before keys (keys.getD p 0) p

theorem slot_eq {size : Nat → Nat} (found : keys[p]? = some key) :
    slot size keys p = runStart size key + before keys key p := by
  rw [slot, List.getD_eq_getElem?_getD, found, Option.getD_some]

/-- Each position of a key takes another of the first places of its run. -/
theorem before_lt_count (found : keys[p]? = some key) : before keys key p < keys.count key := by
  have upTo := before_le_count keys key (p + 1)
  rw [before_succ found, if_pos rfl] at upTo
  exact upTo

theorem before_inj (found : keys[p]? = some key) (found' : keys[m]? = some key)
    (same : before keys key p = before keys key m) : p = m := by
  obtain lt | equal | lt := Nat.lt_trichotomy p m
  · have upTo := before_mono keys key (Nat.succ_le_of_lt lt)
    rw [before_succ found, if_pos rfl] at upTo
    omega
  · exact equal
  · have upTo := before_mono keys key (Nat.succ_le_of_lt lt)
    rw [before_succ found', if_pos rfl] at upTo
    omega

/-- The first places of a run are all taken. -/
theorem exists_before (passed : n < before keys key m) :
    ∃ p, keys[p]? = some key ∧ before keys key p = n := by
  induction m with
  | zero => exact absurd passed (Nat.not_lt_zero n)
  | succ m ih =>
      by_cases earlier : n < before keys key m
      · exact ih earlier
      -- the count passes `n` at this position
      · cases found : keys[m]? with
        | none =>
            have long := List.getElem?_eq_none_iff.mp found
            rw [before_of_length_le (Nat.le_succ_of_le long), ← before_of_length_le long] at passed
            exact absurd passed earlier
        | some k =>
            rw [before_succ found] at passed
            by_cases own : key = k
            · subst own
              rw [if_pos rfl] at passed
              exact ⟨m, found, by omega⟩
            · rw [if_neg own] at passed
              exact absurd passed earlier

section Slots

variable {size : Nat → Nat}

/-- A row of a run is a position's slot, or room that is left. -/
theorem slot_or_room (keys : List Nat) {r : Nat} (run : InRun size key r) :
    (∃ p, keys[p]? = some key ∧ r = slot size keys p) ∨
      runStart size key + keys.count key ≤ r := by
  by_cases left : runStart size key + keys.count key ≤ r
  · exact Or.inr left
  · have first := run.first
    have taken : r - runStart size key < before keys key keys.length := by
      rw [before_of_length_le (Nat.le_refl _)]
      omega
    obtain ⟨p, found, place⟩ := exists_before taken
    refine Or.inl ⟨p, found, ?_⟩
    rw [slot_eq found, place]
    omega

variable (room : ∀ k, keys.count k ≤ size k)
include room

/-- A position's slot is in its key's run. -/
theorem slot_inRun (found : keys[p]? = some key) : InRun size key (slot size keys p) := by
  have own := before_lt_count found
  have fits := room key
  rw [slot_eq found]
  refine ⟨Nat.le_add_right _ _, ?_⟩
  rw [runStart_succ]
  omega

/-- No two positions share a slot. -/
theorem slot_inj (inside : p < keys.length) (inside' : m < keys.length)
    (same : slot size keys p = slot size keys m) : p = m := by
  have found := List.getElem?_eq_getElem inside
  have found' := List.getElem?_eq_getElem inside'
  have run := slot_inRun room found
  rw [same] at run
  have key := run.unique (slot_inRun room found')
  rw [← key] at found'
  rw [slot_eq found, slot_eq found'] at same
  exact before_inj found found' (Nat.add_left_cancel same)

end Slots

/-- The counts of all keys add up. -/
theorem sum_count {bound : Nat} (small : ∀ k ∈ keys, k < bound) :
    ((List.range bound).map keys.count).sum = keys.length := by
  induction keys with
  | nil => simp
  | cons first keys ih =>
      have own : ((List.range bound).map fun k => if first = k then 1 else 0).sum = 1 := by
        have among := List.mem_range.mpr (small first List.mem_cons_self)
        rw [sum_map_ite, ← List.count_eq_one_of_mem List.nodup_range among, List.count]
        refine List.countP_congr fun k _ => ?_
        rw [decide_eq_true_eq, beq_iff_eq, eq_comm]
      have step : (List.range bound).map (first :: keys).count =
          (List.range bound).map fun k => keys.count k + if first = k then 1 else 0 := by
        refine List.map_congr_left fun k _ => ?_
        rw [List.count_cons]
        by_cases equal : first = k <;> simp [equal]
      rw [step, List.sum_map_add, own, ih fun k among => small k (List.mem_cons_of_mem _ among),
        List.length_cons]

/-- Rooms under a unit more than their counts. -/
theorem runStart_le {size : Nat → Nat} {unit bound : Nat} (small : ∀ k ∈ keys, k < bound)
    (close : ∀ k, size k ≤ keys.count k + unit) :
    runStart size bound ≤ keys.length + bound * unit := by
  calc runStart size bound
      ≤ ((List.range bound).map fun k => keys.count k + unit).sum :=
        List.sum_le_sum fun k _ => close k
    _ = keys.length + bound * unit := by
        rw [List.sum_map_add, sum_count small]
        simp

end Positions

end LeanVllm.Collections
