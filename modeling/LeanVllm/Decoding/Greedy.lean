import Mathlib.Data.List.Basic

/-!
# Greedy decoding

A deterministic model is an oracle from a token list to its next token.
Generation appends one token at a time until a stop token or a limit;
verification of drafts keeps the leading ones the oracle agrees with.
-/

namespace LeanVllm.Decoding

universe u

variable {τ : Type u} (next : List τ → τ)

/-- `more` is what the oracle appends to `tokens`, token by token. -/
def Continues : List τ → List τ → Prop
  | _, [] => True
  | tokens, token :: more => token = next tokens ∧ Continues (tokens ++ [token]) more

@[simp]
theorem continues_nil (tokens : List τ) : Continues next tokens [] :=
  trivial

theorem continues_append {tokens first second : List τ} :
    Continues next tokens (first ++ second) ↔
      Continues next tokens first ∧ Continues next (tokens ++ first) second := by
  induction first generalizing tokens with
  | nil => simp
  | cons token first ih =>
      rw [List.cons_append, Continues, Continues, ih, List.append_assoc, List.singleton_append,
        and_assoc]

section Generate

variable (stops : τ → Prop) [DecidablePred stops]

/-- Generation of at most `limit` tokens, and whether a stop token ended it.  A
stop token at the limit still counts as a stop. -/
def generate : Nat → List τ → List τ × Bool
  | 0, _ => ([], false)
  | limit + 1, tokens =>
      if stops (next tokens) then ([next tokens], true)
      else
        let rest := generate limit (tokens ++ [next tokens])
        (next tokens :: rest.1, rest.2)

variable {next stops}

/-- Generation goes through every continuation that does not stop. -/
theorem generate_of_continues {limit : Nat} {tokens more : List τ}
    (continues : Continues next tokens more) (clean : ∀ token ∈ more, ¬ stops token)
    (within : more.length ≤ limit) :
    generate next stops limit tokens =
      (more ++ (generate next stops (limit - more.length) (tokens ++ more)).1,
        (generate next stops (limit - more.length) (tokens ++ more)).2) := by
  induction more generalizing limit tokens with
  | nil => simp
  | cons token more ih =>
      obtain ⟨rfl, continues⟩ := continues
      cases limit with
      | zero => exact absurd within (Nat.not_succ_le_zero _)
      | succ limit =>
          rw [generate, if_neg (clean _ List.mem_cons_self),
            ih continues (fun token member => clean token (List.mem_cons_of_mem _ member))
              (Nat.le_of_succ_le_succ within)]
          simp [List.append_assoc]

theorem prefix_generate {limit : Nat} {tokens more : List τ}
    (continues : Continues next tokens more) (clean : ∀ token ∈ more, ¬ stops token)
    (within : more.length ≤ limit) : more <+: (generate next stops limit tokens).1 := by
  rw [generate_of_continues continues clean within]
  exact List.prefix_append _ _

/-- Generation ends at a first stop token, or at the limit. -/
theorem generate_eq {limit : Nat} {tokens more : List τ} {final : τ}
    (continues : Continues next tokens (more ++ [final]))
    (clean : ∀ token ∈ more, ¬ stops token) (below : more.length < limit)
    (ends : stops final ∨ more.length + 1 = limit) :
    generate next stops limit tokens = (more ++ [final], decide (stops final)) := by
  obtain ⟨before, last, _⟩ := (continues_append next).mp continues
  rw [generate_of_continues before clean (Nat.le_of_lt below)]
  obtain ⟨left, leftEq⟩ : ∃ left, limit - more.length = left + 1 :=
    ⟨limit - more.length - 1, by omega⟩
  rw [leftEq, generate, ← last]
  by_cases stop : stops final
  · simp [stop]
  · have reached : left = 0 := by
      have := ends.resolve_left stop
      omega
    simp [stop, reached, generate]

end Generate

section Verify

variable [DecidableEq τ]

/-- Verification: the leading drafts the oracle agrees with, and its own token
after them. -/
def verify : List τ → List τ → List τ
  | tokens, [] => [next tokens]
  | tokens, draft :: drafts =>
      if draft = next tokens then draft :: verify (tokens ++ [draft]) drafts
      else [next tokens]

theorem verify_continues (tokens drafts : List τ) :
    Continues next tokens (verify next tokens drafts) := by
  induction drafts generalizing tokens with
  | nil => exact ⟨rfl, trivial⟩
  | cons draft drafts ih =>
      rw [verify]
      split
      · rename_i agrees
        exact ⟨agrees, ih _⟩
      · exact ⟨rfl, trivial⟩

end Verify

end LeanVllm.Decoding
