import LeanVllm.Collections.Pages

/-!
# Device memory and launches

A buffer has a set of places, each unwritten until something is stored there.  A load
or a store outside of them, and a load of an unwritten place, is an error.  The
programs of a launch each give the writes they make, and do not read them; where they
agree on what a place holds, the order in which they run does not matter.
-/

namespace LeanVllm.Kernels

open Collections

variable {ι α π : Type}

structure Buffer (ι α : Type) where
  inside : ι → Bool
  data : ι → Option α

namespace Buffer

/-- `torch.empty`. -/
def empty (inside : ι → Bool) : Buffer ι α where
  inside := inside
  data _ := none

/-- A tensor that holds values everywhere. -/
def filled (inside : ι → Bool) (value : ι → α) : Buffer ι α where
  inside := inside
  data i := some (value i)

def load (buffer : Buffer ι α) (i : ι) : Option α :=
  if buffer.inside i then buffer.data i else none

/-- The places under one name. -/
def under {ν : Type} (buffer : Buffer (ν × ι) α) (name : ν) : Buffer ι α where
  inside i := buffer.inside (name, i)
  data i := buffer.data (name, i)

@[simp]
theorem load_under {ν : Type} (buffer : Buffer (ν × ι) α) (name : ν) (i : ι) :
    (buffer.under name).load i = buffer.load (name, i) :=
  rfl

/-- `tl.load` of one lane, with a mask. -/
def loadMasked (buffer : Buffer ι α) (mask : Bool) (other : α) (i : ι) : Option α :=
  if mask then buffer.load i else some other

theorem load_filled {inside : ι → Bool} {value : ι → α} {i : ι} (there : inside i = true) :
    (filled inside value).load i = some (value i) := by
  rw [load, filled, if_pos there]

theorem loadMasked_eq {buffer : Buffer ι α} {mask : Bool} {other value : α} {i : ι}
    (there : mask = true → buffer.load i = some value) :
    buffer.loadMasked mask other i = some (if mask then value else other) := by
  unfold loadMasked
  split
  · rename_i on
    exact there on
  · rfl

variable [DecidableEq ι]

def store (buffer : Buffer ι α) (i : ι) (value : α) : Option (Buffer ι α) :=
  if buffer.inside i then
    some { buffer with data := Function.update buffer.data i (some value) }
  else none

/-- A store inside the buffer changes one place. -/
theorem store_spec {buffer : Buffer ι α} {i : ι} (there : buffer.inside i = true) (value : α) :
    ∃ after, buffer.store i value = some after ∧ after.inside = buffer.inside ∧
      ∀ j, after.load j = if j = i then some value else buffer.load j := by
  refine ⟨_, if_pos there, rfl, fun j => ?_⟩
  simp only [load]
  by_cases same : j = i
  · subst same
    rw [if_pos there, Function.update_self, if_pos rfl]
  · rw [Function.update_of_ne same, if_neg same]

/-- Stores one after another. -/
def storeAll (buffer : Buffer ι α) (writes : List (ι × α)) : Option (Buffer ι α) :=
  writes.foldlM (fun buffer entry => buffer.store entry.1 entry.2) buffer

/-- The programs of a launch, each by the writes it makes. -/
def launch (buffer : Buffer ι α) (programs : List π) (program : π → Option (List (ι × α))) :
    Option (Buffer ι α) := do
  let writes ← programs.mapM program
  buffer.storeAll writes.flatten

/-- What a buffer holds after some writes: a place they agree on holds that value, and a
place without writes what it held. -/
structure Written (before after : Buffer ι α) (writes : ι → α → Prop) : Prop where
  inside : after.inside = before.inside
  stored : ∀ {i : ι} {value : α}, writes i value →
    (∀ other, writes i other → other = value) → after.load i = some value
  kept : ∀ {i : ι}, (∀ value, ¬ writes i value) → after.load i = before.load i

theorem storeAll_written {buffer : Buffer ι α} {writes : List (ι × α)}
    (fits : ∀ entry ∈ writes, buffer.inside entry.1 = true) :
    ∃ after, buffer.storeAll writes = some after ∧
      Written buffer after fun i value => (i, value) ∈ writes := by
  induction writes generalizing buffer with
  | nil => exact ⟨buffer, rfl, rfl, fun member => absurd member List.not_mem_nil, fun _ => rfl⟩
  | cons first writes ih =>
      have here := fits first List.mem_cons_self
      obtain ⟨next, stored, inside, loads⟩ := store_spec here first.2
      obtain ⟨after, rest, written⟩ := @ih next fun entry member =>
        inside ▸ fits entry (List.mem_cons_of_mem _ member)
      refine ⟨after, ?_, written.inside.trans inside, ?_, ?_⟩
      · rw [storeAll, List.foldlM_cons, stored]
        exact rest
      · intro i value member agree
        by_cases later : ∃ other, (i, other) ∈ writes
        · obtain ⟨other, again⟩ := later
          have same := agree other (List.mem_cons_of_mem _ again)
          subst same
          exact written.stored again fun next among => agree next (List.mem_cons_of_mem _ among)
        · rw [not_exists] at later
          obtain rfl | again := List.mem_cons.mp member
          · rw [written.kept later, loads, if_pos rfl]
          · exact absurd again (later value)
      · intro i absent
        have other : i ≠ first.1 := by
          rintro rfl
          exact absent first.2 List.mem_cons_self
        rw [written.kept fun value member => absent value (List.mem_cons_of_mem _ member), loads,
          if_neg other]

/-- What a launch leaves, once each program's writes are known. -/
theorem launch_written {buffer : Buffer ι α} {programs : List π}
    {program : π → Option (List (ι × α))} {writes : π → List (ι × α)}
    (ran : ∀ p ∈ programs, program p = some (writes p))
    (fits : ∀ p ∈ programs, ∀ entry ∈ writes p, buffer.inside entry.1 = true) :
    ∃ after, buffer.launch programs program = some after ∧
      Written buffer after fun i value => ∃ p ∈ programs, (i, value) ∈ writes p := by
  have all : ∀ {entry : ι × α}, entry ∈ (programs.map writes).flatten ↔
      ∃ p ∈ programs, entry ∈ writes p := by
    intro entry
    simp
  obtain ⟨after, stored, written⟩ := @storeAll_written _ _ _ buffer (programs.map writes).flatten
    (by
      intro entry member
      obtain ⟨p, among, own⟩ := all.mp member
      exact fits p among entry own)
  refine ⟨after, ?_, written.inside, ?_, ?_⟩
  · rw [launch, mapM_eq_some ran]
    exact stored
  · intro i value member agree
    exact written.stored (all.mpr member) fun other among => agree other (all.mp among)
  · intro i absent
    exact written.kept fun value among => absent value (all.mp among)

/-- A launch whose writes all agree with one target. -/
theorem launch_agrees {buffer : Buffer ι α} {programs : List π}
    {program : π → Option (List (ι × α))} {writes : π → List (ι × α)} {target : ι → α}
    (ran : ∀ p ∈ programs, program p = some (writes p))
    (fits : ∀ p ∈ programs, ∀ entry ∈ writes p, buffer.inside entry.1 = true)
    (agree : ∀ p ∈ programs, ∀ entry ∈ writes p, entry.2 = target entry.1) :
    ∃ after, buffer.launch programs program = some after ∧
      ∀ p ∈ programs, ∀ entry ∈ writes p, after.load entry.1 = some (target entry.1) := by
  obtain ⟨after, launched, written⟩ := launch_written ran fits
  refine ⟨after, launched, fun p among entry own => written.stored ?_ ?_⟩
  · refine ⟨p, among, ?_⟩
    rw [← agree p among entry own]
    exact own
  · rintro other ⟨q, theirs, again⟩
    exact agree q theirs _ again

end Buffer

end LeanVllm.Kernels
