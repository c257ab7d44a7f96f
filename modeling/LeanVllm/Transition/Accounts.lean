import Mathlib
import LeanVllm.Transition.Runs

/-!
# Neither lost nor doubled

A thing moves between places, each of which has it or has it not.  Over all the places it is
counted as often as it came in, as long as it came in once.  If it comes in again, a place
that has it already has it no more often than before.
-/

namespace LeanVllm.Transition

universe u v

/-- A count that grew by `num`, unless a place took in what it had. -/
structure Grows (num before after : Nat) : Prop where
  le : after ≤ before + num
  eq : before + num ≤ 1 → after = before + num

variable {num more before middle after : Nat}

theorem Grows.of_eq (same : after = before + num) : Grows num before after :=
  ⟨same.le, fun _ => same⟩

theorem Grows.refl (count : Nat) : Grows 0 count count :=
  .of_eq rfl

theorem Grows.trans (head : Grows num before middle) (tail : Grows more middle after) :
    Grows (num + more) before after := by
  have headLe := head.le
  have tailLe := tail.le
  refine ⟨by omega, fun few => ?_⟩
  have headEq := head.eq (by omega)
  have tailEq := tail.eq (by omega)
  omega

/-- Other places that count the same. -/
theorem Grows.add_left (others : Nat) (grows : Grows num before after) :
    Grows num (others + before) (others + after) := by
  have le := grows.le
  refine ⟨by omega, fun few => ?_⟩
  have eq := grows.eq (by omega)
  omega

/-- What moves from one place to another. -/
theorem Grows.of_moved (le : after ≤ before) (has : 0 < after) : Grows 0 before after :=
  ⟨le, fun few => by omega⟩

variable {σ : Type u} {α : Type v} {next : σ → α → σ → Prop} {start last : σ} {actions : List α}

/-- Over a run a count grows by what each action brings in. -/
theorem Run.grows (count : σ → Nat) (brings : α → Nat)
    (each : ∀ actions state action after, Run next start actions state →
      next state action after → Grows (brings action) (count state) (count after))
    (run : Run next start actions last) :
    Grows (actions.map brings).sum (count start) (count last) := by
  induction run with
  | nil => exact .refl _
  | snoc before final ih =>
      rw [List.map_append, List.sum_append, List.map_singleton, List.sum_singleton]
      exact ih.trans (each _ _ _ _ before final)

end LeanVllm.Transition
