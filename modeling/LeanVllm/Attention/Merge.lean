import LeanVllm.Numeric.Softmax

/-!
# Merging attention over two key sets

Attention over two disjoint key sets, from each one's output and log-sum-exp:
`merge_attention` by the sigmoid of the difference, the kernel
`merge_attn_states` by the shares of both sides.  Two log-sum-exps of `-inf` have
no shares: both give NaN there, which here is `none`, and a NaN stays one.
-/

namespace LeanVllm

open Numeric

variable {E : Type*} [AddCommGroup E] [Module ℝ E]

/-- A result of attention for one query and head: the output and its log-sum-exp. -/
abbrev AttentionState (E : Type*) : Type _ :=
  E × WithBot ℝ

/-- `sigmoid(lse_b - lse_a)`: the difference of two `-inf` is NaN. -/
noncomputable def weightB : WithBot ℝ → WithBot ℝ → Option ℝ
  | ⊥, ⊥ => none
  | ⊥, (_ : ℝ) => some 1
  | (_ : ℝ), ⊥ => some 0
  | (lseA : ℝ), (lseB : ℝ) => some (Real.sigmoid (lseB - lseA))

noncomputable def logaddexp : WithBot ℝ → WithBot ℝ → WithBot ℝ
  | ⊥, lseB => lseB
  | (lseA : ℝ), ⊥ => (lseA : ℝ)
  | (lseA : ℝ), (lseB : ℝ) => (Real.log (Real.exp lseA + Real.exp lseB) : ℝ)

/-- `merge_attention`, for one query and head. -/
noncomputable def mergeAttention (a b : AttentionState E) : Option (AttentionState E) :=
  (weightB a.2 b.2).map fun weight => (a.1 + weight • (b.1 - a.1), logaddexp a.2 b.2)

/-- The exponential of a log-sum-exp less a maximum, `0` for `-inf`. -/
noncomputable def shifted (lse : WithBot ℝ) (most : ℝ) : ℝ :=
  match lse with
  | ⊥ => 0
  | (lse : ℝ) => Real.exp (lse - most)

/-- `merge_attn_states_kernel`: each side weighted by its share of the summed
`exp(lse)`. -/
noncomputable def mergeAttnStates (a b : AttentionState E) : Option (AttentionState E) :=
  match max a.2 b.2 with
  | ⊥ => none
  | (lseMax : ℝ) =>
      let weightA := shifted a.2 lseMax
      let weightB := shifted b.2 lseMax
      let total := weightA + weightB
      some (total⁻¹ • (weightA • a.1 + weightB • b.1), (lseMax + Real.log total : ℝ))

/-- `merge_attention_`: one Triton launch where there is one. -/
noncomputable def mergeInto (triton : Bool) (a b : Option (AttentionState E)) :
    Option (AttentionState E) :=
  a.bind fun a => b.bind fun b => if triton then mergeAttnStates a b else mergeAttention a b

/-- Exact attention over scored values. -/
noncomputable def attentionOf (keys : List (ℝ × E)) : AttentionState E :=
  (average keys, logSumExp keys)

/-! ## Both merges are one -/

theorem sigmoid_sub (lseA lseB : ℝ) :
    Real.sigmoid (lseB - lseA) = Real.exp lseB / (Real.exp lseA + Real.exp lseB) := by
  have positive := Real.exp_pos lseB
  have sum := add_pos (Real.exp_pos lseA) positive
  rw [Real.sigmoid_def, neg_sub, Real.exp_sub]
  field_simp
  ring

/-- The kernel's shares, times the exponential of the maximum. -/
theorem exp_sub_eq (lse most : ℝ) : Real.exp (lse - most) = (Real.exp most)⁻¹ * Real.exp lse := by
  rw [Real.exp_sub, div_eq_inv_mul]

theorem mergeAttnStates_eq (a b : AttentionState E) : mergeAttnStates a b = mergeAttention a b := by
  obtain ⟨oA, lseA⟩ := a
  obtain ⟨oB, lseB⟩ := b
  induction lseA using WithBot.recBotCoe with
  | bot =>
      induction lseB using WithBot.recBotCoe with
      | bot => rfl
      | coe lseB => simp [mergeAttnStates, mergeAttention, weightB, logaddexp, shifted]
  | coe lseA =>
      induction lseB using WithBot.recBotCoe with
      | bot => simp [mergeAttnStates, mergeAttention, weightB, logaddexp, shifted]
      | coe lseB =>
          have most : max (lseA : WithBot ℝ) (lseB : WithBot ℝ) = ((max lseA lseB : ℝ) : WithBot ℝ) :=
            (WithBot.coe_max lseA lseB).symm
          have positive := Real.exp_pos (max lseA lseB)
          have sum : 0 < Real.exp lseA + Real.exp lseB :=
            add_pos (Real.exp_pos lseA) (Real.exp_pos lseB)
          have total : Real.exp (lseA - max lseA lseB) + Real.exp (lseB - max lseA lseB) =
              (Real.exp (max lseA lseB))⁻¹ * (Real.exp lseA + Real.exp lseB) := by
            rw [exp_sub_eq, exp_sub_eq, mul_add]
          have log : max lseA lseB + Real.log ((Real.exp (max lseA lseB))⁻¹ *
              (Real.exp lseA + Real.exp lseB)) = Real.log (Real.exp lseA + Real.exp lseB) := by
            rw [Real.log_mul (inv_ne_zero positive.ne') sum.ne', Real.log_inv, Real.log_exp]
            ring
          have share : ∀ lse : ℝ, ((Real.exp (max lseA lseB))⁻¹ *
              (Real.exp lseA + Real.exp lseB))⁻¹ * Real.exp (lse - max lseA lseB) =
              Real.exp lse / (Real.exp lseA + Real.exp lseB) := by
            intro lse
            rw [exp_sub_eq]
            field_simp
          have rest : Real.exp lseA / (Real.exp lseA + Real.exp lseB) =
              1 - Real.exp lseB / (Real.exp lseA + Real.exp lseB) := by
            field_simp
            ring
          simp only [mergeAttnStates, most, shifted, mergeAttention, weightB, logaddexp,
            Option.map_some, total, log, sigmoid_sub, smul_add, smul_smul, share, rest]
          congr 2
          module

/-- A merge is NaN where an operand is, or where both log-sum-exps are `-inf`. -/
theorem mergeInto_eq_none_iff (triton : Bool) (a b : Option (AttentionState E)) :
    mergeInto triton a b = none ↔
      a = none ∨ b = none ∨ ∃ o o' : E, a = some (o, ⊥) ∧ b = some (o', ⊥) := by
  cases a with
  | none => simp [mergeInto]
  | some a =>
      cases b with
      | none => simp [mergeInto]
      | some b =>
          obtain ⟨oA, lseA⟩ := a
          obtain ⟨oB, lseB⟩ := b
          simp only [mergeInto, Option.bind_some, mergeAttnStates_eq, ite_self, mergeAttention,
            Option.map_eq_none_iff]
          induction lseA using WithBot.recBotCoe <;> induction lseB using WithBot.recBotCoe <;>
            simp [weightB]

/-- Merging two exact results gives the exact result over both key sets. -/
theorem mergeAttention_attentionOf {keys others : List (ℝ × E)}
    (some : keys ≠ [] ∨ others ≠ []) :
    mergeAttention (attentionOf keys) (attentionOf others) =
      Option.some (attentionOf (keys ++ others)) := by
  by_cases first : keys = []
  · subst first
    have other := some.resolve_left (fun some => some rfl)
    simp [mergeAttention, attentionOf, logSumExp_of_ne_nil other, weightB, logaddexp]
  · by_cases second : others = []
    · subst second
      simp [mergeAttention, attentionOf, logSumExp_of_ne_nil first, weightB, logaddexp]
    · have whole : keys ++ others ≠ [] := by simp [first]
      have positive := mass_pos first
      have positive' := mass_pos second
      have rest : mass keys / (mass keys + mass others) =
          1 - mass others / (mass keys + mass others) := by
        field_simp
        ring
      simp only [mergeAttention, attentionOf, logSumExp_of_ne_nil first,
        logSumExp_of_ne_nil second, logSumExp_of_ne_nil whole, weightB, logaddexp, Option.map_some,
        sigmoid_sub, Real.exp_log positive, Real.exp_log positive', mass_append,
        average_append first second, rest]
      congr 2
      module

/-- `merge_attention_` of exact results, by either path. -/
theorem mergeInto_attentionOf (triton : Bool) {keys others : List (ℝ × E)}
    (some : keys ≠ [] ∨ others ≠ []) :
    mergeInto triton (Option.some (attentionOf keys)) (Option.some (attentionOf others)) =
      Option.some (attentionOf (keys ++ others)) := by
  simp only [mergeInto, Option.bind_some, mergeAttnStates_eq, ite_self]
  exact mergeAttention_attentionOf some

end LeanVllm
