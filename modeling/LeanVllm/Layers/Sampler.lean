import Mathlib.Algebra.BigOperators.Field
import Mathlib.Analysis.Convex.StdSimplex
import Mathlib.Analysis.SpecialFunctions.Exp
import Mathlib.Data.Fin.Tuple.Sort
import Mathlib.Data.List.MinMax

/-!
# Logits, filters and target probabilities

A row of logits becomes probabilities in exact arithmetic: divided by the
temperature, filtered by top-k and then by top-p, and normalized.  A masked
logit is `⊥`, which weighs nothing.
-/

namespace LeanVllm

/-- `torch.sort` of a row, ascending: the indices it returns put the row in order.
Which of two equal logits comes first is left open. -/
structure RowSort (vocab : Nat) where
  order : (Fin vocab → ℝ) → Equiv.Perm (Fin vocab)
  sorted : ∀ logits, Monotone (logits ∘ order logits)

/-- The stable sort. -/
noncomputable def RowSort.stable (vocab : Nat) : RowSort vocab where
  order := Tuple.sort
  sorted := Tuple.monotone_sort

namespace Sampler

variable {vocab : Nat}

/-- `logits.argmax(dim=-1)`: the first of the largest. -/
noncomputable def argmax [NeZero vocab] (logits : Fin vocab → ℝ) : Fin vocab :=
  ((List.finRange vocab).argmax logits).getD 0

noncomputable def weight : WithBot ℝ → ℝ
  | ⊥ => 0
  | (logit : ℝ) => Real.exp logit

noncomputable def softmax (logits : Fin vocab → WithBot ℝ) (token : Fin vocab) : ℝ :=
  weight (logits token) / ∑ other, weight (logits other)

/-- The top-k filter of sorted logits.  The k-th largest value is the cutoff; ties
with it stay in. -/
noncomputable def maskTopK [NeZero vocab] (sorted : Fin vocab → WithBot ℝ) (k : Int) :
    Fin vocab → WithBot ℝ :=
  let k := min (if 0 < k then k.toNat else vocab) vocab
  let cutoff := sorted (Fin.ofNat vocab (vocab - k))
  fun i => if sorted i < cutoff then ⊥ else sorted i

/-- The top-p filter of sorted logits: remove the least likely tokens whose
cumulative probability is at most 1 - p, but never the most likely token. -/
noncomputable def maskTopP (sorted : Fin vocab → WithBot ℝ) (p : ℝ) : Fin vocab → WithBot ℝ :=
  fun i =>
    if (i : Nat) + 1 < vocab ∧ ∑ j with j ≤ i, softmax sorted j ≤ 1 - p then ⊥ else sorted i

/-- `apply_top_k_top_p` for one row. -/
noncomputable def applyTopKTopP [NeZero vocab] (sort : RowSort vocab) (logits : Fin vocab → ℝ)
    (k : Option Int) (p : Option ℝ) : Fin vocab → WithBot ℝ :=
  if k = none ∧ p = none then fun token => logits token
  else
    let order := sort.order logits
    let sorted : Fin vocab → WithBot ℝ := fun i => logits (order i)
    let sorted := k.elim sorted (maskTopK sorted)
    let sorted := p.elim sorted (maskTopP sorted)
    fun token => sorted (order.symm token)

/-- The probabilities a row is sampled from: its logits divided by the temperature,
filtered, and normalized. -/
noncomputable def probs [NeZero vocab] (sort : RowSort vocab) (logits : Fin vocab → ℝ)
    (temperature : ℝ) (k : Option Int) (p : Option ℝ) : Fin vocab → ℝ :=
  softmax (applyTopKTopP sort (fun token => logits token / max temperature (1 / 10 ^ 10)) k p)

theorem weight_nonneg (logit : WithBot ℝ) : 0 ≤ weight logit := by
  cases logit with
  | bot => exact le_refl _
  | coe logit => exact (Real.exp_pos logit).le

theorem weight_pos {logit : WithBot ℝ} (kept : logit ≠ ⊥) : 0 < weight logit := by
  cases logit with
  | bot => exact absurd rfl kept
  | coe logit => exact Real.exp_pos logit

/-- Logits that are not all masked make a probability vector. -/
theorem softmax_mem {logits : Fin vocab → WithBot ℝ} {token : Fin vocab}
    (kept : logits token ≠ ⊥) : softmax logits ∈ stdSimplex ℝ (Fin vocab) := by
  have positive : 0 < ∑ other, weight (logits other) :=
    Finset.sum_pos' (fun other _ => weight_nonneg _) ⟨token, Finset.mem_univ _, weight_pos kept⟩
  constructor
  · intro other
    exact div_nonneg (weight_nonneg _) positive.le
  · simp only [softmax]
    rw [← Finset.sum_div, div_self positive.ne']

/-- The filters leave the most likely token. -/
theorem applyTopKTopP_kept [NeZero vocab] (sort : RowSort vocab) (logits : Fin vocab → ℝ)
    (k : Option Int) (p : Option ℝ) : ∃ token, applyTopKTopP sort logits k p token ≠ ⊥ := by
  unfold applyTopKTopP
  split
  · exact ⟨0, WithBot.coe_ne_bot⟩
  · let last : Fin vocab := ⟨vocab - 1, Nat.sub_lt (NeZero.pos vocab) Nat.one_pos⟩
    refine ⟨sort.order logits last, ?_⟩
    simp only [Equiv.symm_apply_apply]
    -- nothing is above the last of the sorted logits
    have inK : k.elim (fun i => (logits (sort.order logits i) : WithBot ℝ))
        (maskTopK fun i => logits (sort.order logits i)) last ≠ ⊥ := by
      cases k with
      | none => exact WithBot.coe_ne_bot
      | some k =>
          simp only [Option.elim_some, maskTopK]
          rw [if_neg]
          · exact WithBot.coe_ne_bot
          · rw [not_lt, WithBot.coe_le_coe]
            apply sort.sorted logits
            rw [Fin.le_def]
            exact Nat.le_sub_one_of_lt (Fin.isLt _)
    cases p with
    | none => exact inK
    | some p =>
        simp only [Option.elim_some, maskTopP]
        rw [if_neg]
        · exact inK
        · rintro ⟨before, _⟩
          have := NeZero.pos vocab
          simp only [last] at before
          omega

/-- The target of a row. -/
noncomputable def target [NeZero vocab] (sort : RowSort vocab) (logits : Fin vocab → ℝ)
    (temperature : ℝ) (k : Option Int) (p : Option ℝ) : stdSimplex ℝ (Fin vocab) :=
  ⟨probs sort logits temperature k p, by
    obtain ⟨token, kept⟩ := applyTopKTopP_kept sort
      (fun token => logits token / max temperature (1 / 10 ^ 10)) k p
    exact softmax_mem kept⟩

end Sampler

end LeanVllm
