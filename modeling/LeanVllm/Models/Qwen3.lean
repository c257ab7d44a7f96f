import LeanVllm.Layers.Moe

/-!
# The dense models' layers

The gated MLP and the fused query, key and value projection of one rank.
-/

namespace LeanVllm

open Collections Kernels FusedMoe

variable {R : Type}

/-- `Qwen3MLP` on one rank. -/
structure Qwen3MLP where
  gateUpProj : LinearBase
  downProj : LinearBase

namespace Qwen3MLP

/-- The biases are for other models' MLPs; `Qwen3MLP` has none. -/
def init (hiddenSize intermediateSize : Nat) (gateUpBias downBias : Bool) (tpRank tpSize : Nat) :
    Option Qwen3MLP := do
  let gateUpProj ← MergedColumnParallelLinear.init hiddenSize [intermediateSize, intermediateSize]
    gateUpBias tpRank tpSize
  let downProj ← RowParallelLinear.init intermediateSize hiddenSize downBias tpRank tpSize
  some ⟨gateUpProj, downProj⟩

/-- One rank's part of the output, before the all-reduce. -/
def partialForward [CommSemiring R] (mlp : Qwen3MLP) (sigmoid : R → R)
    (gateUpParams downParams : Buffer (ParamName × Nat × Nat) R) (x : List (List R)) :
    Option (List (List R)) := do
  let gateUp ← mlp.gateUpProj.linear gateUpParams mlp.gateUpProj.hasBias x
  let x := gateUp.map (siluAndMulRow sigmoid (mlp.gateUpProj.outputSize / 2))
  RowParallelLinear.partialForward mlp.downProj downParams x

end Qwen3MLP

/-- `qkv.split([q_size, kv_size, kv_size])`, one row, as heads. -/
def QkvHeads.split (heads : QkvHeads) (qkv : List R) : List (List R) × List (List R) × List (List R) :=
  let qSize := heads.numHeads * heads.headSize
  let kvSize := heads.numKvHeads * heads.headSize
  let view := fun (count : Nat) (part : List R) => (List.range count).map fun h =>
    (part.drop (h * heads.headSize)).take heads.headSize
  (view heads.numHeads (qkv.take qSize), view heads.numKvHeads ((qkv.drop qSize).take kvSize),
    view heads.numKvHeads ((qkv.drop (qSize + kvSize)).take kvSize))

end LeanVllm
