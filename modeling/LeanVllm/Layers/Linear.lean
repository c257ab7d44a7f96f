import LeanVllm.Kernels.Buffer
import LeanVllm.Kernels.TileOrder

/-!
# Linear layers over ranks

A linear layer's parameters on one rank, and what its `weight_loader` copies of a
checkpoint's tensor into them.  A loader cuts the tensor along the dimension the layer is
sharded on and copies the piece into a run of the parameter's rows.
-/

namespace LeanVllm

open Collections Kernels

/-- A tensor of a checkpoint; one of a single dimension has one column. -/
structure LoadedWeight (R : Type) where
  rows : Nat
  columns : Nat
  value : Nat → Nat → R

namespace LoadedWeight

variable {R : Type}

/-- `narrow(0, start, length)`. -/
def narrowRows (loaded : LoadedWeight R) (start length : Nat) : Option (LoadedWeight R) :=
  if start + length ≤ loaded.rows then
    some ⟨length, loaded.columns, fun r c => loaded.value (start + r) c⟩
  else none

/-- `narrow(1, start, length)`. -/
def narrowColumns (loaded : LoadedWeight R) (start length : Nat) : Option (LoadedWeight R) :=
  if start + length ≤ loaded.columns then
    some ⟨loaded.rows, length, fun r c => loaded.value r (start + c)⟩
  else none

/-- Where piece `index` of `chunk(chunks)` starts and how long it is, when there is one. -/
def piece (size chunks index : Nat) : Option (Nat × Nat) :=
  let step := Kernels.cdiv size chunks
  -- a dimension of size 0 splits into as many empty pieces as asked for
  let pieces := if size = 0 then chunks else Kernels.cdiv size step
  if index < pieces then some (index * step, min step (size - index * step)) else none

/-- `chunk(chunks, 0)[index]`. -/
def chunkRows (loaded : LoadedWeight R) (chunks index : Nat) : Option (LoadedWeight R) := do
  let (start, length) ← piece loaded.rows chunks index
  loaded.narrowRows start length

/-- `chunk(chunks, 1)[index]`. -/
def chunkColumns (loaded : LoadedWeight R) (chunks index : Nat) : Option (LoadedWeight R) := do
  let (start, length) ← piece loaded.columns chunks index
  loaded.narrowColumns start length

/-- `param.narrow(0, offset, rows).copy_(loaded)`: what it stores, where the sizes agree. -/
def copies (loaded : LoadedWeight R) (offset rows columns : Nat) : Option (List ((Nat × Nat) × R)) :=
  if loaded.rows = rows ∧ loaded.columns = columns then
    some ((List.range rows).flatMap fun r => (List.range columns).map fun c =>
      ((offset + r, c), loaded.value r c))
  else none

end LoadedWeight

/-! ## The layers -/

inductive ParamName
  | weight
  | bias
  deriving DecidableEq, Repr

/-- `LinearBase`: a layer's sizes on one rank. -/
structure LinearBase where
  inputSize : Nat
  outputSize : Nat
  hasBias : Bool
  tpRank : Nat
  tpSize : Nat

/-- What a loader stores: a place of a parameter and the element that goes there. -/
abbrev Stores (R : Type) := List ((ParamName × Nat × Nat) × R)

namespace LinearBase

variable {R : Type}

/-- A bias is one column. -/
def columns (layer : LinearBase) : ParamName → Nat
  | .weight => layer.inputSize
  | .bias => 1

/-- `torch.empty(output_size, input_size)`, and `torch.empty(output_size)` of a bias. -/
def inside (layer : LinearBase) (i : ParamName × Nat × Nat) : Bool :=
  (i.1 = .bias → layer.hasBias) ∧ i.2.1 < layer.outputSize ∧ i.2.2 < layer.columns i.1

/-- A copy into some rows of a parameter. -/
def copyRows (layer : LinearBase) (name : ParamName) (offset rows : Nat)
    (loaded : LoadedWeight R) : Option (Stores R) :=
  (loaded.copies offset rows (layer.columns name)).map fun stores =>
    stores.map fun entry => ((name, entry.1), entry.2)

variable [CommSemiring R]

/-- An element of the bias, if there is one to add. -/
def biasAt (params : Buffer (ParamName × Nat × Nat) R) (withBias : Bool) (o : Nat) : Option R :=
  if withBias then params.load (.bias, o, 0) else some 0

/-- `F.linear`, row by row. -/
def linear (layer : LinearBase) (params : Buffer (ParamName × Nat × Nat) R) (withBias : Bool)
    (x : List (List R)) : Option (List (List R)) :=
  x.mapM fun row =>
    if row.length = layer.inputSize then
      (List.range layer.outputSize).mapM fun o => do
        let weights ← (List.range layer.inputSize).mapM fun j => params.load (.weight, o, j)
        let bias ← biasAt params withBias o
        some
          (((List.range layer.inputSize).map fun j => row.getD j 0 * weights.getD j 0).sum + bias)
    else none

end LinearBase

/-- `divide`, with its assertion. -/
def divide (numerator denominator : Nat) : Option Nat :=
  if numerator % denominator = 0 then some (numerator / denominator) else none

/-- `ReplicatedLinear.weight_loader`. -/
def ReplicatedLinear.weightLoader {R : Type} (layer : LinearBase) (name : ParamName)
    (loaded : LoadedWeight R) : Option (Stores R) :=
  layer.copyRows name 0 layer.outputSize loaded

/-- `MergedReplicatedLinear.weight_loader`. -/
def MergedReplicatedLinear.weightLoader {R : Type} (outputSizes : List Nat) (layer : LinearBase)
    (name : ParamName) (loaded : LoadedWeight R) (loadedShardId : Nat) : Option (Stores R) := do
  let shardOffset := (outputSizes.take loadedShardId).sum
  let shardSize ← outputSizes[loadedShardId]?
  layer.copyRows name shardOffset shardSize loaded

namespace ColumnParallelLinear

def init (inputSize outputSize : Nat) (hasBias : Bool) (tpRank tpSize : Nat) :
    Option LinearBase := do
  let outputSize ← divide outputSize tpSize
  some ⟨inputSize, outputSize, hasBias, tpRank, tpSize⟩

def weightLoader {R : Type} (layer : LinearBase) (name : ParamName) (loaded : LoadedWeight R) :
    Option (Stores R) := do
  let shardSize := layer.outputSize
  let loaded ← loaded.narrowRows (layer.tpRank * shardSize) shardSize
  layer.copyRows name 0 shardSize loaded

end ColumnParallelLinear

namespace MergedColumnParallelLinear

def init (inputSize : Nat) (outputSizes : List Nat) (hasBias : Bool) (tpRank tpSize : Nat) :
    Option LinearBase :=
  ColumnParallelLinear.init inputSize outputSizes.sum hasBias tpRank tpSize

def weightLoader {R : Type} (outputSizes : List Nat) (layer : LinearBase) (name : ParamName)
    (loaded : LoadedWeight R) (loadedShardId : Nat) : Option (Stores R) := do
  let shardOffset := (outputSizes.take loadedShardId).sum / layer.tpSize
  let outputSize ← outputSizes[loadedShardId]?
  let shardSize := outputSize / layer.tpSize
  let loaded ← loaded.chunkRows layer.tpSize layer.tpRank
  layer.copyRows name shardOffset shardSize loaded

end MergedColumnParallelLinear

inductive QkvShard
  | q
  | k
  | v
  deriving DecidableEq, Repr

/-- The heads of a `QKVParallelLinear` on one rank. -/
structure QkvHeads where
  headSize : Nat
  numHeads : Nat
  numKvHeads : Nat

namespace QKVParallelLinear

/-- `total_num_kv_heads or total_num_heads`. -/
def kvHeads (totalNumHeads : Nat) (totalNumKvHeads : Option Nat) : Nat :=
  match totalNumKvHeads with
  | none | some 0 => totalNumHeads
  | some total => total

def init (hiddenSize headSize totalNumHeads : Nat) (totalNumKvHeads : Option Nat) (hasBias : Bool)
    (tpRank tpSize : Nat) : Option (QkvHeads × LinearBase) := do
  let totalNumKvHeads := kvHeads totalNumHeads totalNumKvHeads
  let numHeads ← divide totalNumHeads tpSize
  let numKvHeads ← divide totalNumKvHeads tpSize
  let outputSize := (totalNumHeads + 2 * totalNumKvHeads) * headSize
  let layer ← ColumnParallelLinear.init hiddenSize outputSize hasBias tpRank tpSize
  some (⟨headSize, numHeads, numKvHeads⟩, layer)

/-- Where a shard goes in the fused parameter, and its size. -/
def shardAt (heads : QkvHeads) : QkvShard → Nat × Nat
  | .q => (0, heads.numHeads * heads.headSize)
  | .k => (heads.numHeads * heads.headSize, heads.numKvHeads * heads.headSize)
  | .v => (heads.numHeads * heads.headSize + heads.numKvHeads * heads.headSize,
      heads.numKvHeads * heads.headSize)

def weightLoader {R : Type} (heads : QkvHeads) (layer : LinearBase) (name : ParamName)
    (loaded : LoadedWeight R) (loadedShardId : QkvShard) : Option (Stores R) := do
  let (shardOffset, shardSize) := shardAt heads loadedShardId
  let loaded ← loaded.chunkRows layer.tpSize layer.tpRank
  layer.copyRows name shardOffset shardSize loaded

end QKVParallelLinear

namespace RowParallelLinear

def init (inputSize outputSize : Nat) (hasBias : Bool) (tpRank tpSize : Nat) :
    Option LinearBase := do
  let inputSize ← divide inputSize tpSize
  some ⟨inputSize, outputSize, hasBias, tpRank, tpSize⟩

/-- A bias is whole on every rank. -/
def weightLoader {R : Type} (layer : LinearBase) (name : ParamName) (loaded : LoadedWeight R) :
    Option (Stores R) :=
  match name with
  | .bias => layer.copyRows .bias 0 layer.outputSize loaded
  | .weight => do
      let shardSize := layer.inputSize
      let loaded ← loaded.narrowColumns (layer.tpRank * shardSize) shardSize
      layer.copyRows .weight 0 layer.outputSize loaded

/-- One rank's part of the output, before the all-reduce. -/
def partialForward {R : Type} [CommSemiring R] (layer : LinearBase)
    (params : Buffer (ParamName × Nat × Nat) R) (x : List (List R)) : Option (List (List R)) :=
  -- only rank 0 adds the bias
  layer.linear params (layer.hasBias && layer.tpRank = 0) x

end RowParallelLinear

end LeanVllm
