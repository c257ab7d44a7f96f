import Mathlib.Algebra.GroupWithZero.Nat
import Mathlib.Data.List.Forall2

/-!
# Rations

A budget and a number of seats are handed out to a line of demands, in order:
each demand takes what it asks for, as far as the budget reaches, and a seat if
it asks for anything.  The rations suffice if nobody who asks for something
finds the budget or the seats used up.
-/

namespace LeanVllm.Collections

/-- The number of demands that ask for something. -/
def numAsking (demands : List Nat) : Nat :=
  demands.countP (0 < ·)

@[simp]
theorem numAsking_nil : numAsking [] = 0 :=
  rfl

@[simp]
theorem numAsking_cons (demand : Nat) (demands : List Nat) :
    numAsking (demand :: demands) = (if 0 < demand then 1 else 0) + numAsking demands := by
  simp only [numAsking, List.countP_cons, decide_eq_true_eq]
  exact Nat.add_comm _ _

/-- Nobody who asks for something finds the budget or the seats used up. -/
def Suffices : Nat → Nat → List Nat → Prop
  | _, _, [] => True
  | budget, seats, demand :: demands =>
      (0 < demand → 0 < budget ∧ 0 < seats) ∧
        Suffices (budget - demand) (seats - if 0 < demand then 1 else 0) demands

theorem Suffices.mono {budget budget' seats seats' : Nat} {demands : List Nat}
    (enough : Suffices budget seats demands) (budgetLe : budget ≤ budget')
    (seatsLe : seats ≤ seats') : Suffices budget' seats' demands := by
  induction demands generalizing budget budget' seats seats' with
  | nil => trivial
  | cons demand demands ih =>
      obtain ⟨first, rest⟩ := enough
      constructor
      · intro asks
        obtain ⟨some, free⟩ := first asks
        exact ⟨Nat.lt_of_lt_of_le some budgetLe, Nat.lt_of_lt_of_le free seatsLe⟩
      · exact ih rest (Nat.sub_le_sub_right budgetLe _) (Nat.sub_le_sub_right seatsLe _)

/-- Who leaves the line leaves more for the others. -/
theorem Suffices.sublist {budget seats : Nat} {demands fewer : List Nat}
    (enough : Suffices budget seats demands) (sublist : fewer.Sublist demands) :
    Suffices budget seats fewer := by
  induction sublist generalizing budget seats with
  | slnil => exact enough
  | cons demand _ ih => exact ih (enough.2.mono (Nat.sub_le _ _) (Nat.sub_le _ _))
  | cons_cons demand _ ih => exact ⟨enough.1, ih enough.2⟩

/-- Who asks for less leaves more for the others. -/
theorem Suffices.lower {budget seats : Nat} {demands lower : List Nat}
    (enough : Suffices budget seats demands) (lowers : List.Forall₂ (· ≤ ·) lower demands) :
    Suffices budget seats lower := by
  induction lowers generalizing budget seats with
  | nil => trivial
  | @cons less demand _ _ le _ ih =>
      obtain ⟨first, rest⟩ := enough
      refine ⟨fun asks => first (Nat.lt_of_lt_of_le asks le), ih (rest.mono (Nat.sub_le_sub_left le _) ?_)⟩
      split <;> split <;> omega

/-- What a first group leaves has to suffice for the second. -/
theorem suffices_append {budget seats : Nat} {first second : List Nat} :
    Suffices budget seats (first ++ second) ↔
      Suffices budget seats first ∧
        Suffices (budget - first.sum) (seats - numAsking first) second := by
  induction first generalizing budget seats with
  | nil => simp [Suffices]
  | cons demand first ih =>
      simp only [List.cons_append, Suffices, ih, List.sum_cons, numAsking_cons, Nat.sub_add_eq,
        and_assoc]

end LeanVllm.Collections
