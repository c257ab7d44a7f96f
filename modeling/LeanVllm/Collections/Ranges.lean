import Mathlib

/-!
# Ranges of integers

`Int.range` is the half-open interval in order.  Intervals that meet join up, so a
monotone sequence of cuts tiles the interval between its ends.  What only one part of
a list can have is counted in that part.
-/

namespace LeanVllm.Collections

theorem range_eq_nil {first last : Int} (empty : last ≤ first) : Int.range first last = [] := by
  rw [Int.range, Int.toNat_of_nonpos (by omega)]
  rfl

theorem length_range (first last : Int) : (Int.range first last).length = (last - first).toNat := by
  simp [Int.range]

theorem nodup_range (first last : Int) : (Int.range first last).Nodup := by
  refine List.Nodup.map (fun x y equal => ?_) List.nodup_range
  simpa using equal

theorem range_succ {first last : Int} (le : first ≤ last) :
    Int.range first (last + 1) = Int.range first last ++ [last] := by
  have steps : (last + 1 - first).toNat = (last - first).toNat + 1 := by omega
  rw [Int.range, steps, List.range_succ, List.map_append, List.map_singleton]
  congr 2
  omega

theorem range_append {first middle last : Int} (le : first ≤ middle) (le' : middle ≤ last) :
    Int.range first middle ++ Int.range middle last = Int.range first last := by
  induction last, le' using Int.leInduction with
  | base => rw [range_eq_nil (Int.le_refl middle), List.append_nil]
  | succ last middle_le ih =>
      rw [range_succ middle_le, range_succ (le.trans middle_le), ← List.append_assoc, ih]

/-- The intervals between consecutive cuts tile the interval between the ends. -/
theorem flatMap_range {cut : Int → Int} (mono : Monotone cut) {first last : Int}
    (le : first ≤ last) :
    ((Int.range first last).flatMap fun k => Int.range (cut k) (cut (k + 1))) =
      Int.range (cut first) (cut last) := by
  induction last, le using Int.leInduction with
  | base =>
      rw [range_eq_nil (Int.le_refl first), range_eq_nil (Int.le_refl _)]
      rfl
  | succ last first_le ih =>
      rw [range_succ first_le, List.flatMap_append, ih, List.flatMap_singleton,
        range_append (mono first_le) (mono (by omega))]

/-- Shifting an interval. -/
theorem map_add_range (d first last : Int) :
    (Int.range first last).map (d + ·) = Int.range (d + first) (d + last) := by
  have width : (d + last - (d + first)).toNat = (last - first).toNat := by congr 1; omega
  rw [Int.range, Int.range, width, List.map_map]
  refine List.map_congr_left fun k _ => ?_
  simp only [Function.comp_apply]
  omega

section Count

variable {α β : Type*}

/-- What no other part has is counted in one part. -/
theorem countP_flatMap_eq {parts : List α} {part : α → List β} {holds : β → Bool} {one : α}
    (distinct : parts.Nodup) (member : one ∈ parts)
    (others : ∀ other ∈ parts, other ≠ one → (part other).countP holds = 0) :
    (parts.flatMap part).countP holds = (part one).countP holds := by
  induction parts with
  | nil => exact absurd member List.not_mem_nil
  | cons first rest ih =>
      obtain ⟨absent, distinct⟩ := List.nodup_cons.mp distinct
      rw [List.flatMap_cons, List.countP_append]
      rcases List.mem_cons.mp member with rfl | later
      · have none : (rest.flatMap part).countP holds = 0 := by
          rw [List.countP_eq_zero]
          intro value among
          obtain ⟨other, otherMember, within⟩ := List.mem_flatMap.mp among
          have apart : other ≠ one := by
            rintro rfl
            exact absent otherMember
          exact List.countP_eq_zero.mp
            (others other (List.mem_cons_of_mem _ otherMember) apart) value within
        rw [none, Nat.add_zero]
      · have apart : first ≠ one := by
          rintro rfl
          exact absent later
        rw [others first List.mem_cons_self apart, Nat.zero_add]
        exact ih distinct later fun other among => others other (List.mem_cons_of_mem _ among)

theorem sum_map_ite (values : List α) (holds : α → Prop) [DecidablePred holds] :
    (values.map fun value => if holds value then 1 else 0).sum = values.countP holds := by
  induction values with
  | nil => rfl
  | cons value rest ih =>
      rw [List.map_cons, List.sum_cons, ih, List.countP_cons, Nat.add_comm]
      simp

/-- Among distinct values, what holds of one value only, if at all, holds once. -/
theorem countP_eq_of_unique [DecidableEq α] {values : List α} (distinct : values.Nodup) {one : α}
    (member : one ∈ values) {holds : α → Bool} {fits : Prop} [Decidable fits]
    (unique : ∀ value ∈ values, holds value = true ↔ value = one ∧ fits) :
    values.countP holds = if fits then 1 else 0 := by
  by_cases fit : fits
  · rw [if_pos fit, ← List.count_eq_one_of_mem distinct member, List.count]
    refine List.countP_congr fun value among => ?_
    rw [unique value among, beq_iff_eq]
    exact and_iff_left fit
  · rw [if_neg fit, List.countP_eq_zero]
    exact fun value among holding => fit ((unique value among).mp holding).2

/-- What holds at one place only holds once. -/
theorem countP_eq_one {values : List α} {holds : α → Bool} {j : Nat} {value : α}
    (found : values[j]? = some value) (own : holds value = true)
    (only : ∀ (k : Nat) other, values[k]? = some other → holds other = true → k = j) :
    values.countP holds = 1 := by
  induction values generalizing j with
  | nil => simp at found
  | cons first rest ih =>
      cases j with
      | zero =>
          obtain rfl := Option.some.inj found
          have none : rest.countP holds = 0 := by
            refine List.countP_eq_zero.mpr fun other among holding => ?_
            obtain ⟨k, read⟩ := List.mem_iff_getElem?.mp among
            exact Nat.succ_ne_zero k (only (k + 1) other read holding)
          rw [List.countP_cons, none, own]
          rfl
      | succ j =>
          have head : ¬ holds first = true := fun holding =>
            Nat.succ_ne_zero j (only 0 first rfl holding).symm
          rw [List.countP_cons_of_neg head]
          exact ih found fun k other read holding =>
            Nat.succ.inj (only (k + 1) other read holding)

end Count

end LeanVllm.Collections
