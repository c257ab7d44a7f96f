import LeanVllm.Collections.Segments

/-!
# Arrays in pages

An array kept in pages of one size: a read and a write by page and offset, and the
same array end to end.  Reads that may fail are collected with `mapM`; where each of
them succeeds, so does the collection.
-/

namespace LeanVllm.Collections

universe u v

variable {α : Type u} {β : Type v}

/-- Reads that all succeed. -/
theorem mapM_eq_some {values : List α} {read : α → Option β} {value : α → β}
    (each : ∀ x ∈ values, read x = some (value x)) :
    values.mapM read = some (values.map value) := by
  induction values with
  | nil => rfl
  | cons x values ih =>
      rw [List.mapM_cons, each x List.mem_cons_self,
        ih fun y member => each y (List.mem_cons_of_mem _ member)]
      rfl

/-- Entries read one by one. -/
theorem mapM_range_eq {read : Nat → Option β} {target : List β} {n : Nat}
    (length : target.length = n) (each : ∀ k < n, read k = target[k]?) :
    (List.range n).mapM read = some target := by
  subst length
  induction target generalizing read with
  | nil => rfl
  | cons value target ih =>
      have rest := @ih (fun k => read (k + 1)) fun k inside => by
        rw [each (k + 1) (by simpa using inside), List.getElem?_cons_succ]
      rw [List.length_cons, List.range_succ_eq_map, List.mapM_cons, each 0 (by simp),
        List.mapM_map]
      exact congrArg (fun values => values.bind fun values => some (value :: values)) rest

/-- An array in pages of one size. -/
structure Pages (α : Type u) where
  blockSize : Nat
  blocks : List (List α)
  uniform : ∀ page ∈ blocks, page.length = blockSize

namespace Pages

variable (pages : Pages α) {block offset block' offset' : Nat} {value : α}

def read (block offset : Nat) : Option α :=
  pages.blocks[block]?.bind fun page => page[offset]?

/-- The pages with one entry written; a place outside them is an error. -/
def write (block offset : Nat) (value : α) : Option (Pages α) :=
  if block < pages.blocks.length ∧ offset < pages.blockSize then
    some
      { blockSize := pages.blockSize
        blocks := pages.blocks.modify block fun page => page.set offset value
        uniform := by
          intro page member
          obtain ⟨k, found⟩ := List.mem_iff_getElem?.mp member
          rw [List.getElem?_modify, Option.map_eq_map, Option.map_eq_some_iff] at found
          obtain ⟨old, there, rfl⟩ := found
          have len := pages.uniform old (List.mem_of_getElem? there)
          split <;> simp [len] }
  else none

theorem read_isSome (inBlocks : block < pages.blocks.length) (inPage : offset < pages.blockSize) :
    (pages.read block offset).isSome := by
  have len := pages.uniform _ (List.getElem_mem inBlocks)
  simp [read, List.getElem?_eq_getElem inBlocks, len, inPage]

/-- A write keeps the shape of the pages. -/
theorem write_shape {after : Pages α} (written : pages.write block offset value = some after) :
    after.blockSize = pages.blockSize ∧ after.blocks.length = pages.blocks.length := by
  unfold write at written
  split at written
  · obtain rfl := Option.some.inj written
    simp
  · contradiction

/-- What is read after a write. -/
theorem read_write {after : Pages α} (written : pages.write block offset value = some after)
    (block' offset' : Nat) :
    after.read block' offset' =
      if block = block' ∧ offset = offset' then some value else pages.read block' offset' := by
  unfold write at written
  split at written
  · rename_i inside
    obtain rfl := Option.some.inj written
    have len := pages.uniform _ (List.getElem_mem inside.1)
    simp only [read, List.getElem?_modify, Option.map_eq_map]
    by_cases same : block = block'
    · subst same
      simp only [List.getElem?_eq_getElem inside.1, Option.map_some, Option.bind_some, if_true,
        List.getElem?_set, len, inside.2, true_and]
    · simp [same]
  · contradiction

/-- The pages with some entries written, in turn. -/
def writeAll (pages : Pages α) (writes : List ((Nat × Nat) × α)) : Option (Pages α) :=
  writes.foldlM (fun pages entry => pages.write entry.1.1 entry.1.2 entry.2) pages

/-- Writes inside the pages succeed, keep the shape and what they do not write, and leave
their values where no other write is. -/
theorem writeAll_spec {writes : List ((Nat × Nat) × α)}
    (inside : ∀ entry ∈ writes, entry.1.1 < pages.blocks.length ∧ entry.1.2 < pages.blockSize) :
    ∃ after, pages.writeAll writes = some after ∧
      (after.blockSize = pages.blockSize ∧ after.blocks.length = pages.blocks.length) ∧
      (∀ place ∉ writes.map Prod.fst,
        after.read place.1 place.2 = pages.read place.1 place.2) ∧
      ((writes.map Prod.fst).Nodup →
        ∀ entry ∈ writes, after.read entry.1.1 entry.1.2 = some entry.2) := by
  induction writes generalizing pages with
  | nil => exact ⟨pages, rfl, ⟨rfl, rfl⟩, by simp, by simp⟩
  | cons first writes ih =>
      have here := inside first List.mem_cons_self
      obtain ⟨next, written⟩ : ∃ next, pages.write first.1.1 first.1.2 first.2 = some next :=
        ⟨_, if_pos here⟩
      have shape := pages.write_shape written
      obtain ⟨after, rest, shape', kept, stored⟩ := ih next (by
        intro entry member
        rw [shape.1, shape.2]
        exact inside entry (List.mem_cons_of_mem _ member))
      refine ⟨after, ?_, ⟨shape'.1.trans shape.1, shape'.2.trans shape.2⟩, ?_, ?_⟩
      · rw [writeAll, List.foldlM_cons, written]
        exact rest
      · intro place absent
        rw [List.map_cons, List.mem_cons, not_or] at absent
        rw [kept place absent.2, pages.read_write written, if_neg]
        rintro ⟨block, offset⟩
        exact absent.1 (Prod.ext block.symm offset.symm)
      · intro distinct entry member
        rw [List.map_cons, List.nodup_cons] at distinct
        rcases List.mem_cons.mp member with rfl | later
        · rw [kept entry.1 distinct.1, pages.read_write written, if_pos ⟨rfl, rfl⟩]
        · exact stored distinct.2 entry later

/-- The array end to end. -/
theorem getElem?_flatten (inPage : offset < pages.blockSize) :
    pages.blocks.flatten[block * pages.blockSize + offset]? = pages.read block offset :=
  getElem?_flatten_uniform pages.uniform block inPage

end Pages

end LeanVllm.Collections
