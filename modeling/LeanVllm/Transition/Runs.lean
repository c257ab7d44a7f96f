import Mathlib.Order.WellFounded

/-!
# Runs of a labelled transition system

A run records the actions taken, so a property of a run may speak of its whole
history.  What one action preserves holds along every run.
-/

namespace LeanVllm.Transition

universe u v

variable {σ : Type u} {α : Type v}

/-- `Run next start actions last`: from `start`, the actions lead to `last`. -/
inductive Run (next : σ → α → σ → Prop) (start : σ) : List α → σ → Prop
  | nil : Run next start [] start
  | snoc {actions : List α} {middle last : σ} {action : α}
      (before : Run next start actions middle) (final : next middle action last) :
      Run next start (actions ++ [action]) last

variable {next : σ → α → σ → Prop} {start : σ}

theorem Run.append {actions more : List α} {middle last : σ} (run : Run next start actions middle)
    (later : Run next middle more last) : Run next start (actions ++ more) last := by
  induction later with
  | nil => simpa using run
  | snoc before final ih =>
      rw [← List.append_assoc]
      exact .snoc ih final

/-- A property of histories that each action preserves holds of every run. -/
theorem Run.invariant (holds : List α → σ → Prop) (initially : holds [] start)
    (preserved : ∀ actions middle action last, holds actions middle → next middle action last →
      holds (actions ++ [action]) last)
    {actions : List α} {last : σ} (run : Run next start actions last) : holds actions last := by
  induction run with
  | nil => exact initially
  | snoc before final ih => exact preserved _ _ _ _ ih final

/-- The invariant rule for runs whose actions are all of one kind. -/
theorem Run.invariant_of_forall (allowed : α → Prop) (holds : List α → σ → Prop)
    (initially : holds [] start)
    (preserved : ∀ actions middle action last, holds actions middle → allowed action →
      next middle action last → holds (actions ++ [action]) last)
    {actions : List α} {last : σ} (run : Run next start actions last)
    (kind : ∀ action ∈ actions, allowed action) : holds actions last := by
  induction run with
  | nil => exact initially
  | snoc before final ih =>
      refine preserved _ _ _ _ (ih fun action member => kind action ?_) (kind _ ?_) final
      · exact List.mem_append_left _ member
      · simp

end LeanVllm.Transition
