import Mathlib.Logic.Function.Basic

/-!
# Batches of writes

A store maps addresses to values, and a batch of writes is applied in order.
An address no write names keeps its value; an address whose writes agree ends
with their value, whatever the order.
-/

namespace LeanVllm.Collections

universe u v

variable {κ : Type u} {β : Type v} [DecidableEq κ]

/-- The store after a batch of writes. -/
def writeAll (store : κ → β) : List (κ × β) → κ → β
  | [] => store
  | write :: writes => writeAll (Function.update store write.1 write.2) writes

theorem writeAll_of_not_mem {store : κ → β} {writes : List (κ × β)} {key : κ}
    (absent : ∀ value, (key, value) ∉ writes) : writeAll store writes key = store key := by
  induction writes generalizing store with
  | nil => rfl
  | cons write writes ih =>
      have other : key ≠ write.1 := by
        rintro rfl
        exact absent write.2 List.mem_cons_self
      rw [writeAll, ih fun value member => absent value (List.mem_cons_of_mem _ member),
        Function.update_of_ne other]

/-- What a batch leaves at an address all of whose writes agree. -/
theorem writeAll_of_agree {store : κ → β} {writes : List (κ × β)} {key : κ} {value : β}
    (member : (key, value) ∈ writes) (agree : ∀ other, (key, other) ∈ writes → other = value) :
    writeAll store writes key = value := by
  induction writes generalizing store with
  | nil => exact absurd member List.not_mem_nil
  | cons write writes ih =>
      by_cases later : (key, value) ∈ writes
      · exact ih later fun other among => agree other (List.mem_cons_of_mem _ among)
      · obtain rfl := (List.mem_cons.mp member).resolve_right later
        rw [writeAll, writeAll_of_not_mem, Function.update_self]
        intro other among
        exact later (agree other (List.mem_cons_of_mem _ among) ▸ among)

end LeanVllm.Collections
