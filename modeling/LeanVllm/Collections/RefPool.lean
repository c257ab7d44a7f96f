import Mathlib.Data.Finset.Card
import Mathlib.Data.List.Nodup
import Mathlib.Data.List.Perm.Basic

/-!
# Reference-counted pools

A pool hands out items of a fixed universe.  It keeps three redundant views of
who holds what: a queue of free items, a set of used items and a reference
count per item.  `Accounts` says once what the three views mean: they are all
determined by the list of items held, with one entry per reference.  Each
operation of a pool is then a statement about how that list changes.
-/

namespace LeanVllm.Collections

universe u

/-- The free queue, the used set and the reference counts of a pool. -/
structure RefPool (β : Type u) where
  free : List β
  used : Finset β
  count : β → Nat

namespace RefPool

variable {β : Type u} [DecidableEq β]

/-- The three views of `pool` all describe the list `held`, which has one entry
for each reference. -/
structure Accounts (pool : RefPool β) (all : Finset β) (held : List β) : Prop where
  free_nodup : pool.free.Nodup
  mem_free : ∀ item, item ∈ pool.free ↔ item ∈ all ∧ item ∉ held
  mem_used : ∀ item, item ∈ pool.used ↔ item ∈ held
  held_mem : ∀ item ∈ held, item ∈ all
  count_eq : ∀ item, pool.count item = held.count item

/-- Reserve a free item for one new holder. -/
def take (pool : RefPool β) (item : β) : RefPool β where
  free := pool.free.erase item
  used := insert item pool.used
  count := Function.update pool.count item 1

/-- Give a held item one more holder. -/
def share (pool : RefPool β) (item : β) : RefPool β :=
  { pool with count := Function.update pool.count item (pool.count item + 1) }

/-- One holder lets go; the last one returns the item to the back of the
queue. -/
def release (pool : RefPool β) (item : β) : RefPool β :=
  if pool.count item = 1 then
    { free := pool.free ++ [item]
      used := pool.used.erase item
      count := Function.update pool.count item 0 }
  else
    { pool with count := Function.update pool.count item (pool.count item - 1) }

variable {pool : RefPool β} {all : Finset β} {held : List β} {item : β}

theorem Accounts.perm {other : List β} (accounts : pool.Accounts all held)
    (reordered : held.Perm other) : pool.Accounts all other where
  free_nodup := accounts.free_nodup
  mem_free item := by rw [accounts.mem_free, reordered.mem_iff]
  mem_used item := by rw [accounts.mem_used, reordered.mem_iff]
  held_mem item member := accounts.held_mem item (reordered.mem_iff.mpr member)
  count_eq item := by rw [accounts.count_eq, reordered.count_eq]

/-- A pool nobody holds anything of accounts for the empty list. -/
theorem accounts_nil {free : List β} (free_nodup : free.Nodup)
    (mem_free : ∀ item, item ∈ free ↔ item ∈ all) :
    (⟨free, ∅, fun _ => 0⟩ : RefPool β).Accounts all [] where
  free_nodup := free_nodup
  mem_free item := by simp [mem_free]
  mem_used item := by simp
  held_mem item := by simp
  count_eq item := by simp

theorem Accounts.disjoint (accounts : pool.Accounts all held)
    (free : item ∈ pool.free) : item ∉ pool.used := by
  rw [accounts.mem_used]
  exact ((accounts.mem_free item).mp free).2

theorem Accounts.mem_free_or_mem_used (accounts : pool.Accounts all held) :
    item ∈ all ↔ item ∈ pool.free ∨ item ∈ pool.used := by
  rw [accounts.mem_free, accounts.mem_used]
  constructor
  · intro member
    by_cases holds : item ∈ held
    · exact Or.inr holds
    · exact Or.inl ⟨member, holds⟩
  · rintro (⟨member, _⟩ | holds)
    · exact member
    · exact accounts.held_mem item holds

theorem Accounts.count_eq_zero_of_mem_free (accounts : pool.Accounts all held)
    (free : item ∈ pool.free) : pool.count item = 0 := by
  rw [accounts.count_eq]
  exact List.count_eq_zero.mpr ((accounts.mem_free item).mp free).2

theorem Accounts.take (accounts : pool.Accounts all held) (free : item ∈ pool.free) :
    (pool.take item).Accounts all (item :: held) := by
  obtain ⟨member, fresh⟩ := (accounts.mem_free item).mp free
  refine ⟨accounts.free_nodup.erase item, ?_, ?_, ?_, ?_⟩
  · intro other
    simp only [RefPool.take, accounts.free_nodup.mem_erase_iff, accounts.mem_free,
      List.mem_cons, not_or]
    tauto
  · intro other
    simp [RefPool.take, accounts.mem_used]
  · intro other holds
    rcases List.mem_cons.mp holds with rfl | holds
    · exact member
    · exact accounts.held_mem other holds
  · intro other
    by_cases same : other = item
    · subst other
      simp [RefPool.take, List.count_eq_zero.mpr fresh]
    · simp [RefPool.take, same, Ne.symm same, accounts.count_eq]

theorem Accounts.share (accounts : pool.Accounts all held) (holds : item ∈ held) :
    (pool.share item).Accounts all (item :: held) := by
  refine ⟨accounts.free_nodup, ?_, ?_, ?_, ?_⟩
  · intro other
    rw [RefPool.share, accounts.mem_free, List.mem_cons, not_or]
    constructor
    · rintro ⟨member, fresh⟩
      exact ⟨member, fun same => fresh (same ▸ holds), fresh⟩
    · rintro ⟨member, _, fresh⟩
      exact ⟨member, fresh⟩
  · intro other
    rw [RefPool.share, accounts.mem_used, List.mem_cons]
    constructor
    · exact Or.inr
    · rintro (rfl | other)
      · exact holds
      · exact other
  · intro other member
    rcases List.mem_cons.mp member with rfl | member
    · exact accounts.held_mem other holds
    · exact accounts.held_mem other member
  · intro other
    by_cases same : other = item
    · subst other
      simp [RefPool.share, accounts.count_eq]
    · simp [RefPool.share, same, Ne.symm same, accounts.count_eq]

theorem Accounts.release (accounts : pool.Accounts all (item :: held)) :
    (pool.release item).Accounts all held := by
  have counted : pool.count item = held.count item + 1 := by
    simpa using accounts.count_eq item
  have inAll : item ∈ all := accounts.held_mem item List.mem_cons_self
  by_cases last : pool.count item = 1
  · have fresh : item ∉ held := List.count_eq_zero.mp (by omega)
    have notFree : item ∉ pool.free := fun free =>
      ((accounts.mem_free item).mp free).2 List.mem_cons_self
    rw [RefPool.release, if_pos last]
    refine ⟨?_, ?_, ?_, ?_, ?_⟩
    · exact List.nodup_append.mpr ⟨accounts.free_nodup, List.nodup_singleton item, by
        rintro first firstFree second secondMem rfl
        exact notFree (List.mem_singleton.mp secondMem ▸ firstFree)⟩
    · intro other
      rw [List.mem_append, List.mem_singleton, accounts.mem_free, List.mem_cons, not_or]
      constructor
      · rintro (⟨member, _, absent⟩ | rfl)
        · exact ⟨member, absent⟩
        · exact ⟨inAll, fresh⟩
      · rintro ⟨member, absent⟩
        by_cases same : other = item
        · exact Or.inr same
        · exact Or.inl ⟨member, same, absent⟩
    · intro other
      rw [Finset.mem_erase, accounts.mem_used, List.mem_cons]
      constructor
      · rintro ⟨different, same | holds⟩
        · exact absurd same different
        · exact holds
      · intro holds
        exact ⟨fun same => fresh (same ▸ holds), Or.inr holds⟩
    · intro other holds
      exact accounts.held_mem other (List.mem_cons_of_mem item holds)
    · intro other
      by_cases same : other = item
      · subst other
        simp [List.count_eq_zero.mpr fresh]
      · simp [same, Ne.symm same, accounts.count_eq]
  · have again : item ∈ held := List.count_pos_iff.mp (by omega)
    have sameMem : ∀ other, other ∈ item :: held ↔ other ∈ held := by
      intro other
      rw [List.mem_cons]
      constructor
      · rintro (rfl | holds)
        · exact again
        · exact holds
      · exact Or.inr
    rw [RefPool.release, if_neg last]
    refine ⟨accounts.free_nodup, ?_, ?_, ?_, ?_⟩
    · intro other
      rw [accounts.mem_free, sameMem]
    · intro other
      rw [accounts.mem_used, sameMem]
    · intro other holds
      exact accounts.held_mem other (List.mem_cons_of_mem item holds)
    · intro other
      by_cases same : other = item
      · subst other
        simp [counted]
      · simp [same, Ne.symm same, accounts.count_eq]

/-- What is not free is held. -/
theorem Accounts.length_free_add_card (accounts : pool.Accounts all held) :
    pool.free.length + held.toFinset.card = all.card := by
  rw [← List.toFinset_card_of_nodup accounts.free_nodup]
  have disjoint : Disjoint pool.free.toFinset held.toFinset := by
    rw [Finset.disjoint_left]
    intro item free holds
    exact ((accounts.mem_free item).mp (List.mem_toFinset.mp free)).2 (List.mem_toFinset.mp holds)
  rw [← Finset.card_union_of_disjoint disjoint]
  congr 1
  ext item
  rw [Finset.mem_union, List.mem_toFinset, List.mem_toFinset, accounts.mem_free]
  constructor
  · rintro (⟨member, _⟩ | holds)
    · exact member
    · exact accounts.held_mem item holds
  · intro member
    by_cases holds : item ∈ held
    · exact Or.inr holds
    · exact Or.inl ⟨member, holds⟩

/-- With nothing held, the whole universe is free. -/
theorem Accounts.length_free_of_nil (accounts : pool.Accounts all []) :
    pool.free.length = all.card := by
  simpa using accounts.length_free_add_card

theorem Accounts.card_le (accounts : pool.Accounts all held) :
    all.card ≤ pool.free.length + held.length := by
  rw [← accounts.length_free_add_card]
  exact Nat.add_le_add_left (List.toFinset_card_le _) _

/-- New references to distinct items cost one free item for each that nobody
held. -/
theorem Accounts.length_free_append {after : RefPool β} {more : List β}
    (accounts : pool.Accounts all held) (grown : after.Accounts all (more ++ held))
    (distinct : more.Nodup) :
    pool.free.length = after.free.length + more.countP fun item => item ∉ held := by
  have before := accounts.length_free_add_card
  have later := grown.length_free_add_card
  have added : (more ++ held).toFinset.card =
      held.toFinset.card + (more.countP fun item => item ∉ held) := by
    have split : (more ++ held).toFinset =
        held.toFinset ∪ (more.filter fun item => item ∉ held).toFinset := by
      ext item
      by_cases holds : item ∈ held <;> simp [holds]
    have disjoint : Disjoint held.toFinset (more.filter fun item => item ∉ held).toFinset := by
      rw [Finset.disjoint_left]
      intro item holds
      simp [List.mem_toFinset.mp holds]
    rw [split, Finset.card_union_of_disjoint disjoint,
      List.toFinset_card_of_nodup (distinct.filter _), List.countP_eq_length_filter]
  omega

end RefPool

end LeanVllm.Collections
