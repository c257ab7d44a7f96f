import Mathlib.Data.List.Infix

/-!
# Occurrences of words in a text

The index a word first occurs at, and the earliest index any of several words
occurs at.  A text that grows keeps its occurrences, and the new ones end in what
was added, so a window of the longest word's length finds them.
-/

namespace LeanVllm.Collections

universe u

variable {α : Type u} [DecidableEq α]

/-- `word` occurs in `text` at index `p`. -/
def OccursAt (word text : List α) (p : Nat) : Prop :=
  word <+: text.drop p

/-- The first index `word` occurs at. -/
def indexOf (word text : List α) : Option Nat :=
  (List.range (text.length + 1)).find? fun p => word.isPrefixOf (text.drop p)

/-- Some word occurs at index `p`. -/
def HitsAt (words : List (List α)) (text : List α) (p : Nat) : Prop :=
  ∃ word ∈ words, OccursAt word text p

/-- The earliest index one of the words occurs at. -/
def earliest (words : List (List α)) (text : List α) : Option Nat :=
  (words.filterMap fun word => indexOf word text).min?

omit [DecidableEq α] in
theorem OccursAt.end_le {word text : List α} {p : Nat} (occurs : OccursAt word text p)
    (nonempty : word ≠ []) : p + word.length ≤ text.length := by
  have fits := occurs.length_le
  have positive := List.length_pos_iff.mpr nonempty
  rw [List.length_drop] at fits
  omega

omit [DecidableEq α] in
theorem OccursAt.append {word text : List α} {p : Nat} (occurs : OccursAt word text p)
    (nonempty : word ≠ []) (more : List α) : OccursAt word (text ++ more) p := by
  have fits := occurs.end_le nonempty
  unfold OccursAt
  rw [List.drop_append_of_le_length (by omega)]
  exact List.IsPrefix.trans occurs (List.prefix_append _ _)

omit [DecidableEq α] in
/-- An occurrence that ends in `text` is one of `text`. -/
theorem OccursAt.of_append {word text more : List α} {p : Nat}
    (occurs : OccursAt word (text ++ more) p) (within : p + word.length ≤ text.length) :
    OccursAt word text p := by
  unfold OccursAt at occurs ⊢
  rw [List.drop_append_of_le_length (by omega)] at occurs
  exact List.prefix_of_prefix_length_le occurs (List.prefix_append _ _)
    (by rw [List.length_drop]; omega)

omit [DecidableEq α] in
theorem occursAt_drop_iff {word text : List α} {d p : Nat} :
    OccursAt word (text.drop d) p ↔ OccursAt word text (d + p) := by
  unfold OccursAt
  rw [List.drop_drop]

theorem indexOf_eq_some_iff {word text : List α} {p : Nat} :
    indexOf word text = some p ↔
      p ≤ text.length ∧ OccursAt word text p ∧ ∀ q < p, ¬ OccursAt word text q := by
  unfold indexOf OccursAt
  rw [List.find?_range_eq_some]
  simp only [List.isPrefixOf_iff_prefix, List.mem_range, Nat.lt_succ_iff, Bool.not_eq_true',
    ← Bool.not_eq_true]
  tauto

theorem indexOf_isSome {word text : List α} {p : Nat} (occurs : OccursAt word text p)
    (nonempty : word ≠ []) : ∃ q ≤ p, indexOf word text = some q := by
  have fits := occurs.end_le nonempty
  cases found : indexOf word text with
  | none =>
      unfold indexOf at found
      rw [List.find?_range_eq_none] at found
      have missed := found p (by omega)
      rw [Bool.not_eq_true', ← Bool.not_eq_true, List.isPrefixOf_iff_prefix] at missed
      exact absurd occurs missed
  | some q =>
      refine ⟨q, ?_, rfl⟩
      by_contra later
      exact (indexOf_eq_some_iff.mp found).2.2 p (by omega) occurs

section Earliest

variable {words : List (List α)} (nonempty : [] ∉ words)

include nonempty

theorem earliest_eq_none_iff {text : List α} :
    earliest words text = none ↔ ∀ p, ¬ HitsAt words text p := by
  unfold earliest
  rw [List.min?_eq_none_iff, List.filterMap_eq_nil_iff]
  constructor
  · rintro none p ⟨word, member, occurs⟩
    obtain ⟨q, _, found⟩ := indexOf_isSome occurs fun empty => nonempty (empty ▸ member)
    exact absurd (found.symm.trans (none word member)) (by simp)
  · intro none word member
    rw [Option.eq_none_iff_forall_ne_some]
    intro p found
    exact none p ⟨word, member, (indexOf_eq_some_iff.mp found).2.1⟩

theorem earliest_eq_some_iff {text : List α} {p : Nat} :
    earliest words text = some p ↔
      HitsAt words text p ∧ ∀ q, HitsAt words text q → p ≤ q := by
  unfold earliest
  rw [List.min?_eq_some_iff]
  simp only [List.mem_filterMap]
  have least : ∀ q, HitsAt words text q → ∃ r ≤ q, ∃ word ∈ words, indexOf word text = some r := by
    rintro q ⟨word, member, occurs⟩
    obtain ⟨r, le, found⟩ := indexOf_isSome occurs fun empty => nonempty (empty ▸ member)
    exact ⟨r, le, word, member, found⟩
  constructor
  · rintro ⟨⟨word, member, found⟩, first⟩
    refine ⟨⟨word, member, (indexOf_eq_some_iff.mp found).2.1⟩, ?_⟩
    intro q hits
    obtain ⟨r, le, some⟩ := least q hits
    exact (first r some).trans le
  · rintro ⟨hits, first⟩
    obtain ⟨r, le, word, member, found⟩ := least p hits
    have same : r = p :=
      Nat.le_antisymm le (first r ⟨word, member, (indexOf_eq_some_iff.mp found).2.1⟩)
    refine ⟨⟨word, member, same ▸ found⟩, ?_⟩
    rintro q ⟨other, otherMember, otherFound⟩
    exact first q ⟨other, otherMember, (indexOf_eq_some_iff.mp otherFound).2.1⟩

theorem lt_length_of_earliest {text : List α} {p : Nat} (found : earliest words text = some p) :
    p < text.length := by
  obtain ⟨word, member, occurs⟩ := ((earliest_eq_some_iff nonempty).mp found).1
  have real : word ≠ [] := fun empty => nonempty (empty ▸ member)
  have fits := occurs.end_le real
  have positive := List.length_pos_iff.mpr real
  omega

/-- A longer text has an earliest occurrence too, and not a later one. -/
theorem earliest_append_le {text : List α} {p : Nat} (found : earliest words text = some p)
    (more : List α) : ∃ q ≤ p, earliest words (text ++ more) = some q := by
  obtain ⟨word, member, occurs⟩ := ((earliest_eq_some_iff nonempty).mp found).1
  have real : word ≠ [] := fun empty => nonempty (empty ▸ member)
  have hits : HitsAt words (text ++ more) p := ⟨word, member, occurs.append real more⟩
  cases longer : earliest words (text ++ more) with
  | none => exact absurd hits ((earliest_eq_none_iff nonempty).mp longer p)
  | some q => exact ⟨q, ((earliest_eq_some_iff nonempty).mp longer).2 p hits, rfl⟩

/-- What is added to a text without occurrences is searched together with a tail
of the text that a word could still start in. -/
theorem earliest_append_of_none {text : List α} {hold : Nat}
    (short : ∀ word ∈ words, word.length ≤ hold + 1) (none : earliest words text = none)
    (more : List α) :
    earliest words (text ++ more) =
      (earliest words ((text ++ more).drop (text.length - hold))).map
        (text.length - hold + ·) := by
  have late : ∀ p, HitsAt words (text ++ more) p → text.length - hold ≤ p := by
    rintro p ⟨word, member, occurs⟩
    have bound := short word member
    by_contra early
    refine (earliest_eq_none_iff nonempty).mp none p ⟨word, member, occurs.of_append ?_⟩
    omega
  cases found : earliest words ((text ++ more).drop (text.length - hold)) with
  | none =>
      rw [Option.map_none, earliest_eq_none_iff nonempty]
      rintro p hits
      have after := late p hits
      obtain ⟨word, member, occurs⟩ := hits
      refine (earliest_eq_none_iff nonempty).mp found (p - (text.length - hold)) ⟨word, member, ?_⟩
      rwa [occursAt_drop_iff, Nat.add_sub_cancel' after]
  | some p =>
      rw [Option.map_some, earliest_eq_some_iff nonempty]
      obtain ⟨⟨word, member, occurs⟩, first⟩ := (earliest_eq_some_iff nonempty).mp found
      refine ⟨⟨word, member, occursAt_drop_iff.mp occurs⟩, ?_⟩
      intro q hits
      have after := late q hits
      obtain ⟨other, otherMember, otherOccurs⟩ := hits
      have := first (q - (text.length - hold)) ⟨other, otherMember, by
        rwa [occursAt_drop_iff, Nat.add_sub_cancel' after]⟩
      omega

end Earliest

end LeanVllm.Collections
