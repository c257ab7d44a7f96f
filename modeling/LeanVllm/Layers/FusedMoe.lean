import LeanVllm.Layers.AlignSpec
import Mathlib.Algebra.Ring.Defs

/-!
# The fused experts

`fused_experts` lays the token-expert pairs out in blocks, multiplies each block with its
expert's weights, applies the activation and multiplies again.  Its intermediate buffers
are not initialised: a program writes the rows of the pairs in its block and nothing
else.
-/

namespace LeanVllm

open Collections Kernels

namespace FusedMoe

/-- The tile sizes of a launch config. -/
structure Launch where
  blockSizeM : Nat
  blockSizeN : Nat
  blockSizeK : Nat
  groupSizeM : Nat

/-- The places of a matrix. -/
def rect (rows columns : Nat) (i : Nat × Nat) : Bool :=
  i.1 < rows ∧ i.2 < columns

/-- The places of stacked matrices. -/
def stack (count rows columns : Nat) (i : Nat × Nat × Nat) : Bool :=
  i.1 < count ∧ i.2.1 < rows ∧ i.2.2 < columns

/-- A tensor of two dimensions. -/
structure Tensor (R : Type) where
  rows : Nat
  columns : Nat
  data : Buffer (Nat × Nat) R

variable {R : Type} [CommSemiring R]

/-- A tile, loaded lane by lane. -/
def loadTile (rows columns : Nat) (read : Nat → Nat → Option R) : Option (List (List R)) :=
  (List.range rows).mapM fun row => (List.range columns).mapM (read row)

/-- `tl.dot`, one lane. -/
def dot (a b : List (List R)) (width row column : Nat) : R :=
  ((List.range width).map fun lane =>
    (a.getD row []).getD lane 0 * (b.getD lane []).getD column 0).sum

/-- The lanes of a tile a mask keeps, as stores to `c`. -/
def storeTile (launch : Launch) (pairs : List Nat) (numValidPairs n pidN : Nat)
    (value : Nat → Nat → R) : List ((Nat × Nat) × R) :=
  (List.range launch.blockSizeM).flatMap fun row =>
    ((List.range launch.blockSizeN).filter fun column =>
      pairs.getD row 0 < numValidPairs ∧ pidN * launch.blockSizeN + column < n).map fun column =>
        ((pairs.getD row 0, pidN * launch.blockSizeN + column), value row column)

/-- One turn of the loop of `fused_moe_kernel`: one tile of `k`. -/
def accumulateTurn (a : Buffer (Nat × Nat) R) (b : Buffer (Nat × Nat × Nat) R) (launch : Launch)
    (pairs : List Nat) (expert numValidPairs n k topK pidN : Nat) (acc : Nat → Nat → R)
    (turn : Nat) : Option (Nat → Nat → R) := do
  let kMask := fun lane => decide (lane < k - turn * launch.blockSizeK)
  let aTile ← loadTile launch.blockSizeM launch.blockSizeK fun row lane =>
    a.loadMasked (decide (pairs.getD row 0 < numValidPairs) && kMask lane) 0
      (pairs.getD row 0 / topK, turn * launch.blockSizeK + lane)
  -- the columns are wrapped, so only the store masks `n`
  let bTile ← loadTile launch.blockSizeK launch.blockSizeN fun lane column =>
    b.loadMasked (kMask lane) 0
      (expert, (pidN * launch.blockSizeN + column) % n, turn * launch.blockSizeK + lane)
  some fun row column => acc row column + dot aTile bTile launch.blockSizeK row column

/-- The loop over the tiles of `k`. -/
def accumulate (a : Buffer (Nat × Nat) R) (b : Buffer (Nat × Nat × Nat) R) (launch : Launch)
    (pairs : List Nat) (expert numValidPairs n k topK pidN : Nat) : Option (Nat → Nat → R) :=
  (List.range (Kernels.cdiv k launch.blockSizeK)).foldlM
    (accumulateTurn a b launch pairs expert numValidPairs n k topK pidN) fun _ _ => 0

/-- `fused_moe_kernel`: one block of padded rows against one expert. -/
def fusedMoeKernel (a : Buffer (Nat × Nat) R) (b : Buffer (Nat × Nat × Nat) R)
    (layout : Alignment) (topkWeights : Buffer Nat R) (n k numValidPairs topK : Nat)
    (mulRoutedWeight : Bool) (launch : Launch) (pid : Nat) :
    Option (List ((Nat × Nat) × R)) :=
  let tile := programTile layout.numBlocks (Kernels.cdiv n launch.blockSizeN) launch.groupSizeM pid
  -- a block the padding left empty
  if tile.1 * launch.blockSizeM ≥ layout.numRows then some []
  else do
    let pairs ← (List.range launch.blockSizeM).mapM fun lane =>
      layout.sortedPairs.load (tile.1 * launch.blockSizeM + lane)
    let expert ← layout.blockExperts.load tile.1
    -- another rank's expert: its pairs add zero here
    if expert = -1 then some (storeTile launch pairs numValidPairs n tile.2 fun _ _ => 0)
    else do
      let acc ← accumulate a b launch pairs expert.toNat numValidPairs n k topK tile.2
      if mulRoutedWeight then do
        let weights ← (List.range launch.blockSizeM).mapM fun row =>
          topkWeights.loadMasked (pairs.getD row 0 < numValidPairs) 0 (pairs.getD row 0)
        some (storeTile launch pairs numValidPairs n tile.2 fun row column =>
          acc row column * weights.getD row 0)
      else some (storeTile launch pairs numValidPairs n tile.2 acc)

/-- `silu_and_mul_kernel`: one row and `block` columns. -/
def siluAndMulKernel (sigmoid : R → R) (x : Buffer (Nat × Nat) R) (d block : Nat)
    (pid : Nat × Nat) : Option (List ((Nat × Nat) × R)) := do
  let mask := fun lane => decide (pid.2 * block + lane < d)
  let gate ← (List.range block).mapM fun lane =>
    x.loadMasked (mask lane) 0 (pid.1, pid.2 * block + lane)
  let up ← (List.range block).mapM fun lane =>
    x.loadMasked (mask lane) 0 (pid.1, d + (pid.2 * block + lane))
  some (((List.range block).filter mask).map fun lane =>
    ((pid.1, pid.2 * block + lane),
      gate.getD lane 0 * sigmoid (gate.getD lane 0) * up.getD lane 0))

/-- `silu_and_mul`. -/
def siluAndMul (sigmoid : R → R) (x : Tensor R) : Option (Tensor R) := do
  let d := x.columns / 2
  let block := min (nextPowerOf2 d) 1024
  let out ← (Buffer.empty (rect x.rows d)).launch
    ((List.range x.rows).flatMap fun row =>
      (List.range (Kernels.cdiv d block)).map fun tile => (row, tile))
    (siluAndMulKernel sigmoid x.data d block)
  some ⟨x.rows, d, out⟩

/-! ## The layer -/

/-- A rank's stacked parameters: `[E, 2I, D]` and `[E, D, I]`. -/
structure Experts (R : Type) where
  numExperts : Nat
  hiddenSize : Nat
  intermediateSize : Nat
  gateUpProj : Buffer (Nat × Nat × Nat) R
  downProj : Buffer (Nat × Nat × Nat) R

/-- The routing of a batch: each token's experts and weights, token after token. -/
structure Routing (R : Type) where
  numTokens : Nat
  topK : Nat
  ids : List Nat
  weights : Nat → R
  pairs : ids.length = numTokens * topK

/-- One of the two products of `fused_experts`, into an uninitialised buffer. -/
def gemm (a : Tensor R) (b : Buffer (Nat × Nat × Nat) R) (layout : Alignment)
    (topkWeights : Buffer Nat R) (n numPairs pairsPerRow : Nat) (mulRoutedWeight : Bool)
    (launch : Launch) : Option (Tensor R) := do
  let c ← (Buffer.empty (rect numPairs n)).launch
    (List.range (layout.numBlocks * Kernels.cdiv n launch.blockSizeN))
    (fusedMoeKernel a.data b layout topkWeights n a.columns numPairs pairsPerRow mulRoutedWeight
      launch)
  some ⟨numPairs, n, c⟩

/-- `fused_experts`. -/
def fusedExperts (x : Nat → Nat → R) (experts : Experts R) (routing : Routing R)
    (actFn : Tensor R → Option (Tensor R)) (expertMap : Option (List Int)) (launch : Launch) :
    Option (List (List R)) := do
  -- blocked by global id
  let numExperts := expertMap.elim experts.numExperts List.length
  let numPairs := routing.numTokens * routing.topK
  let layout ← alignBlocksTriton routing.ids numExperts launch.blockSizeM expertMap
  let topkWeights := Buffer.filled (flat numPairs) routing.weights
  let x := Tensor.mk routing.numTokens experts.hiddenSize
    (Buffer.filled (rect routing.numTokens experts.hiddenSize) fun i => x i.1 i.2)
  let h ← gemm x experts.gateUpProj layout topkWeights (2 * experts.intermediateSize) numPairs
    routing.topK false launch
  let h ← actFn h
  let out ← gemm h experts.downProj layout topkWeights experts.hiddenSize numPairs 1 true launch
  -- `out.view(num_tokens, top_k, hidden_size).sum(dim=1)`
  (List.range routing.numTokens).mapM fun token => (List.range experts.hiddenSize).mapM fun d => do
    let parts ← (List.range routing.topK).mapM fun k => out.data.load (token * routing.topK + k, d)
    some parts.sum

end FusedMoe

end LeanVllm
