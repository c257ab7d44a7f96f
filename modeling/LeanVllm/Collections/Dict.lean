import Mathlib.Data.List.AList

/-!
# Dictionaries with unique keys

A Python `dict` whose iteration order is never read is an association list
with unique keys.  This file adds to `AList` the two views its clients need:
one equation for a lookup after an update, and the list of stored values up to
reordering.
-/

namespace LeanVllm.Collections

universe u v

/-- A dictionary from `κ` to `ν`. -/
abbrev Dict (κ : Type u) (ν : Type v) := AList (fun _ : κ => ν)

namespace Dict

variable {κ : Type u} {ν : Type v}

/-- The stored values, one per key. -/
def values (dict : Dict κ ν) : List ν :=
  dict.entries.map Sigma.snd

@[simp]
theorem values_empty : values (∅ : Dict κ ν) = [] :=
  rfl

/-- `len(dict)`. -/
def size (dict : Dict κ ν) : Nat :=
  dict.entries.length

@[simp]
theorem size_empty : size (∅ : Dict κ ν) = 0 :=
  rfl

variable [DecidableEq κ]

theorem lookup_insert_eq (key other : κ) (value : ν) (dict : Dict κ ν) :
    (dict.insert key value).lookup other =
      if other = key then some value else dict.lookup other := by
  by_cases same : other = key
  · subst other
    simp
  · rw [AList.lookup_insert_ne same, if_neg same]

theorem lookup_erase_eq (key other : κ) (dict : Dict κ ν) :
    (dict.erase key).lookup other =
      if other = key then none else dict.lookup other := by
  by_cases same : other = key
  · subst other
    simp
  · rw [AList.lookup_erase_ne same, if_neg same]

theorem mem_values_iff {dict : Dict κ ν} {value : ν} :
    value ∈ dict.values ↔ ∃ key, dict.lookup key = some value := by
  constructor
  · intro member
    rcases List.mem_map.mp member with ⟨⟨key, stored⟩, entry, rfl⟩
    exact ⟨key, AList.mem_lookup_iff.mpr entry⟩
  · rintro ⟨key, found⟩
    exact List.mem_map.mpr ⟨⟨key, value⟩, AList.mem_lookup_iff.mp found, rfl⟩

/-- A dictionary that stores nothing is empty. -/
theorem eq_empty_of_lookup_eq_none {dict : Dict κ ν} (none : ∀ key, dict.lookup key = none) :
    dict = ∅ := by
  apply AList.ext
  apply List.eq_nil_iff_forall_not_mem.mpr
  rintro ⟨key, value⟩ entry
  rw [← AList.mem_lookup_iff, none key] at entry
  contradiction

/-- Removing a stored key leaves every other entry in place. -/
theorem entries_perm_erase {dict : Dict κ ν} {key : κ} {value : ν}
    (found : dict.lookup key = some value) :
    dict.entries.Perm (⟨key, value⟩ :: (dict.erase key).entries) := by
  have entry : (⟨key, value⟩ : Sigma fun _ : κ => ν) ∈ dict.entries :=
    AList.mem_lookup_iff.mp found
  obtain ⟨stored, before, after, _, entriesEq, erasedEq⟩ :=
    List.exists_of_kerase (List.mem_keys_of_mem entry)
  have storedEntry : (⟨key, stored⟩ : Sigma fun _ : κ => ν) ∈ dict.entries := by
    rw [entriesEq]
    simp
  have storedEq : stored = value :=
    Option.some.inj ((AList.mem_lookup_iff.mpr storedEntry).symm.trans found)
  subst stored
  have eraseEq : (dict.erase key).entries = before ++ after := erasedEq
  rw [eraseEq, entriesEq]
  exact List.perm_middle

theorem values_perm_erase {dict : Dict κ ν} {key : κ} {value : ν}
    (found : dict.lookup key = some value) :
    dict.values.Perm (value :: values (dict.erase key)) := by
  simpa only [values, List.map_cons] using
    (entries_perm_erase found).map (Sigma.snd (β := fun _ : κ => ν))

theorem values_insert (dict : Dict κ ν) (key : κ) (value : ν) :
    values (dict.insert key value) = value :: values (dict.erase key) :=
  rfl

theorem mem_of_mem_values_erase {dict : Dict κ ν} {key : κ} {value : ν}
    (member : value ∈ values (dict.erase key)) : value ∈ dict.values := by
  obtain ⟨other, found⟩ := mem_values_iff.mp member
  rw [lookup_erase_eq] at found
  split at found
  · contradiction
  · exact mem_values_iff.mpr ⟨other, found⟩

theorem values_insert_of_lookup_eq_none {dict : Dict κ ν} {key : κ} (value : ν)
    (fresh : dict.lookup key = none) :
    values (dict.insert key value) = value :: dict.values := by
  simp [values, AList.insert_of_notMem (AList.lookup_eq_none.mp fresh)]

theorem size_erase_of_lookup_eq_some {dict : Dict κ ν} {key : κ} {value : ν}
    (found : dict.lookup key = some value) :
    dict.size = size (dict.erase key) + 1 := by
  simpa [size] using (entries_perm_erase found).length_eq

theorem size_insert_of_lookup_eq_none {dict : Dict κ ν} {key : κ} (value : ν)
    (fresh : dict.lookup key = none) :
    size (dict.insert key value) = dict.size + 1 := by
  simp [size, AList.insert_of_notMem (AList.lookup_eq_none.mp fresh)]

/-- When each value records its own key, a dictionary never stores a value
twice. -/
theorem values_nodup {dict : Dict κ ν} (keyOf : ν → κ)
    (keyed : ∀ key value, dict.lookup key = some value → keyOf value = key) :
    dict.values.Nodup := by
  have keysEq : dict.values.map keyOf = dict.keys := by
    rw [values, List.map_map, AList.keys, List.keys]
    apply List.map_congr_left
    rintro ⟨key, value⟩ entry
    exact keyed key value (AList.mem_lookup_iff.mpr entry)
  exact List.Nodup.of_map keyOf (keysEq ▸ dict.keys_nodup)

end Dict

end LeanVllm.Collections
