import LeanVllm.Attention.TorchBackend
import Mathlib.Data.Fin.Tuple.Basic
import Mathlib.LinearAlgebra.Matrix.ToLin

/-!
# Keys and values from latents

`DeepseekV2Attention` caches one latent per token: a compressed part, and a rope key
that all heads share.  `expand` gives a latent's keys and values by `kv_b_proj`;
`latent_projections` gives the same weight head by head, for attention that stays in
latent space.
-/

namespace LeanVllm

namespace DeepseekV2Attention

variable {numHeads nope rope vDim rank : Nat}

/-- The weight of `kv_b_proj`: for each head the rows of its key without rope, then those
of its value. -/
abbrev KvBProj (numHeads nope vDim rank : Nat) : Type :=
  Matrix (Fin (numHeads * (nope + vDim))) (Fin rank) ℝ

/-- `expand`, for one latent. -/
noncomputable def expand (weight : KvBProj numHeads nope vDim rank)
    (latent : Fin (rank + rope) → ℝ) : Heads numHeads (nope + rope) × Heads numHeads vDim :=
  let kvCNormed : Fin rank → ℝ := fun d => latent (Fin.castAdd rope d)
  let kPe : Fin rope → ℝ := fun d => latent (Fin.natAdd rank d)
  -- `view(-1, num_local_heads, qk_nope_head_dim + v_head_dim)`
  let kvNope : Heads numHeads (nope + vDim) := fun head x =>
    weight.mulVec kvCNormed (finProdFinEquiv (head, x))
  let kNope : Heads numHeads nope := fun head x => kvNope head (Fin.castAdd vDim x)
  let v : Heads numHeads vDim := fun head x => kvNope head (Fin.natAdd nope x)
  -- the shared rope key goes to every head
  (fun head => Fin.append (kNope head) kPe, v)

/-- `latent_projections`: `W_UK_T` and `W_UV`. -/
def latentProjections (weight : KvBProj numHeads nope vDim rank) :
    (Fin numHeads → Matrix (Fin nope) (Fin rank) ℝ) ×
      (Fin numHeads → Matrix (Fin rank) (Fin vDim) ℝ) :=
  -- `weight.T.view(kv_lora_rank, num_local_heads, qk_nope_head_dim + v_head_dim)`
  let kvBProjWeight : Fin rank → Heads numHeads (nope + vDim) := fun l head x =>
    weight.transpose l (finProdFinEquiv (head, x))
  let wUK : Fin rank → Heads numHeads nope := fun l head x =>
    kvBProjWeight l head (Fin.castAdd vDim x)
  let wUV : Fin rank → Heads numHeads vDim := fun l head x =>
    kvBProjWeight l head (Fin.natAdd nope x)
  -- `W_UK.permute(1, 2, 0)` and `W_UV.transpose(0, 1)`
  (fun head => Matrix.of fun x l => wUK l head x, fun head => Matrix.of fun l x => wUV l head x)

/-- A dot product of two parts. -/
theorem dotProduct_append {m n : Nat} (a b : Fin m → ℝ) (c d : Fin n → ℝ) :
    dotProduct (Fin.append a c) (Fin.append b d) = dotProduct a b + dotProduct c d := by
  simp [dotProduct, Fin.sum_univ_add]

theorem append_parts {m n : Nat} (x : Fin (m + n) → ℝ) :
    Fin.append (fun d => x (Fin.castAdd n d)) (fun d => x (Fin.natAdd m d)) = x :=
  Fin.append_castAdd_natAdd

/-- A query's score at a key is the score of the projected query at the latent. -/
theorem dotProduct_expand (weight : KvBProj numHeads nope vDim rank)
    (query : Fin (nope + rope) → ℝ) (latent : Fin (rank + rope) → ℝ) (head : Fin numHeads) :
    dotProduct (Fin.append
        (Matrix.vecMul (fun d => query (Fin.castAdd rope d)) ((latentProjections weight).1 head))
        fun d => query (Fin.natAdd nope d)) latent =
      dotProduct query ((expand weight latent).1 head) := by
  conv_lhs => rw [← append_parts latent]
  conv_rhs => rw [← append_parts query]
  rw [expand, dotProduct_append, dotProduct_append, ← Matrix.dotProduct_mulVec]
  rfl

/-- A latent's value is the projection of its compressed part. -/
theorem vecMul_expand (weight : KvBProj numHeads nope vDim rank)
    (latent : Fin (rank + rope) → ℝ) (head : Fin numHeads) :
    Matrix.vecMul (fun d => latent (Fin.castAdd rope d)) ((latentProjections weight).2 head) =
      (expand weight latent).2 head := by
  funext x
  simp only [Matrix.vecMul, latentProjections, expand, Matrix.mulVec, Matrix.of_apply]
  exact dotProduct_comm _ _

end DeepseekV2Attention

end LeanVllm
