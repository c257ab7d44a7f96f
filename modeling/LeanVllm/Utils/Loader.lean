import LeanVllm.Layers.Moe
import Mathlib.Data.List.Infix

/-!
# Loading a checkpoint

`load_model` resolves each tensor's name to a parameter and hands the tensor to the
parameter's `weight_loader`: a projection of a routed expert to the stacked parameter, a
packed projection with its shard, any other to the parameter of its name.  `check_loaded`
then rejects parameters that no tensor was named for.
-/

namespace LeanVllm

open Collections Kernels FusedMoe

abbrev WeightName := List Char

/-! ## Names -/

/-- `name.replace(old, new)`, past `skip` characters of an occurrence. -/
def replaceIn (old new : WeightName) : Nat → WeightName → WeightName
  | _, [] => []
  | 0, c :: rest =>
      if old.isPrefixOf (c :: rest) then new ++ replaceIn old new (old.length - 1) rest
      else c :: replaceIn old new 0 rest
  | skip + 1, _ :: rest => replaceIn old new skip rest

/-- `\d+`, as a number. -/
def decimal (digits : WeightName) : Option Nat :=
  if digits ≠ [] ∧ digits.all Char.isDigit then
    some (digits.foldl (fun n c => 10 * n + (c.toNat - '0'.toNat)) 0)
  else none

def projection (name : WeightName) : Option Proj :=
  if name = "gate_proj".toList then some .gateProj
  else if name = "up_proj".toList then some .upProj
  else if name = "down_proj".toList then some .downProj
  else none

/-- `EXPERT_WEIGHT.fullmatch`: `(.+\.experts)\.(\d+)\.(gate_proj|up_proj|down_proj)\.weight`. -/
def expertWeight (name : WeightName) : Option (WeightName × Nat × Proj) :=
  match (name.splitOn '.').reverse with
  | weight :: proj :: id :: experts :: before =>
      let before := ['.'].intercalate before.reverse
      if weight = "weight".toList ∧ experts = "experts".toList ∧ before ≠ [] ∧ '\n' ∉ before then do
        let expertId ← decimal id
        let proj ← projection proj
        some (before ++ ".experts".toList, expertId, proj)
      else none
  | _ => none

/-- `STACKED_EXPERT_PARAMS`. -/
def stackedParam : Proj → StackedParam
  | .gateProj | .upProj => .gateUpProj
  | .downProj => .downProj

def stackedName : StackedParam → WeightName
  | .gateUpProj => "gate_up_proj".toList
  | .downProj => "down_proj".toList

/-! ## Parameters -/

/-- What a loader is told of a tensor besides its parameter. -/
inductive ShardId
  | index (loadedShardId : Nat)
  | qkv (loadedShardId : QkvShard)
  | expert (expertId : Nat) (proj : Proj)
  deriving DecidableEq, Repr

/-- `VocabParallelEmbedding`'s sizes on one rank. -/
structure VocabParallelEmbedding where
  numEmbeddingsPerPartition : Nat
  embeddingDim : Nat
  tpRank : Nat

/-- An element of a parameter: its matrix where several are stacked, its row and column. -/
abbrev Place := Nat × Nat × Nat

variable {R : Type}

/-- The stores of a matrix that is not one of a stack. -/
def unstacked (stores : List ((Nat × Nat) × R)) : List (Place × R) :=
  stores.map fun entry => ((0, entry.1), entry.2)

def ofLayer (stores : Stores R) : List (Place × R) :=
  stores.map fun entry => ((0, entry.1.2), entry.2)

def VocabParallelEmbedding.weightLoader (embedding : VocabParallelEmbedding)
    (loaded : LoadedWeight R) : Option (List ((Nat × Nat) × R)) := do
  let shardSize := embedding.numEmbeddingsPerPartition
  let loaded ← loaded.narrowRows (embedding.tpRank * shardSize) shardSize
  loaded.copies 0 shardSize embedding.embeddingDim

/-- A parameter's `weight_loader`, with the layer that has it. -/
inductive WeightLoader
  | default (rows columns : Nat)
  | replicated (layer : LinearBase) (name : ParamName)
  | mergedReplicated (outputSizes : List Nat) (layer : LinearBase) (name : ParamName)
  | columnParallel (layer : LinearBase) (name : ParamName)
  | mergedColumnParallel (outputSizes : List Nat) (layer : LinearBase) (name : ParamName)
  | qkvParallel (heads : QkvHeads) (layer : LinearBase) (name : ParamName)
  | rowParallel (layer : LinearBase) (name : ParamName)
  | vocabParallel (embedding : VocabParallelEmbedding)
  | stacked (layer : Layer) (param : StackedParam)

namespace WeightLoader

/-- The places of the parameter. -/
def inside : WeightLoader → Place → Bool
  | .default rows columns, i => i.1 = 0 ∧ i.2.1 < rows ∧ i.2.2 < columns
  | .replicated layer name, i | .mergedReplicated _ layer name, i
  | .columnParallel layer name, i | .mergedColumnParallel _ layer name, i
  | .qkvParallel _ layer name, i | .rowParallel layer name, i => i.1 = 0 ∧ layer.inside (name, i.2)
  | .vocabParallel embedding, i => i.1 = 0 ∧ i.2.1 < embedding.numEmbeddingsPerPartition ∧
      i.2.2 < embedding.embeddingDim
  | .stacked layer param, i => layer.inside (param, i)

/-- `param.weight_loader(param, loaded_weight)`, with a shard where there is one: what it
stores, or that it raises. -/
def load (loader : WeightLoader) (loaded : LoadedWeight R) (shard : Option ShardId) :
    Option (List (Place × R)) :=
  match loader, shard with
  | .default rows columns, none => (loaded.copies 0 rows columns).map unstacked
  | .replicated layer name, none =>
      (ReplicatedLinear.weightLoader layer name loaded).map ofLayer
  | .mergedReplicated outputSizes layer name, some (.index id) =>
      (MergedReplicatedLinear.weightLoader outputSizes layer name loaded id).map ofLayer
  | .columnParallel layer name, none =>
      (ColumnParallelLinear.weightLoader layer name loaded).map ofLayer
  | .mergedColumnParallel outputSizes layer name, some (.index id) =>
      (MergedColumnParallelLinear.weightLoader outputSizes layer name loaded id).map ofLayer
  | .qkvParallel heads layer name, some (.qkv id) =>
      (QKVParallelLinear.weightLoader heads layer name loaded id).map ofLayer
  | .rowParallel layer name, none =>
      (RowParallelLinear.weightLoader layer name loaded).map ofLayer
  | .vocabParallel embedding, none => (embedding.weightLoader loaded).map unstacked
  | .stacked layer param, some (.expert expertId proj) =>
      -- the name of a projection resolves to the parameter it is stacked in
      if stackedParam proj = param then
        (layer.weightLoader loaded expertId proj).map fun stores =>
          stores.map fun entry => (entry.1.2, entry.2)
      else none
  -- a shard for a loader that takes none, or none for one that does
  | _, _ => none

end WeightLoader

/-- A named parameter; tied ones have one `data_ptr`. -/
structure Parameter where
  name : WeightName
  dataPtr : Nat
  loader : WeightLoader

/-- A model, as far as `load_model` looks at it. -/
structure Model where
  parameters : List Parameter
  packedModulesMapping : List (WeightName × WeightName × ShardId)
  skippedWeightPrefixes : List WeightName
  remapWeightName : Option (WeightName → Option WeightName)

namespace Model

def getParameter (model : Model) (name : WeightName) : Option Parameter :=
  model.parameters.find? fun param => param.name = name

/-- The parameter that a tensor's name resolves to, and the shard. -/
def resolve (model : Model) (weightName : WeightName) : WeightName × Option ShardId :=
  match expertWeight weightName with
  | some (before, expertId, proj) =>
      (before ++ '.' :: stackedName (stackedParam proj), some (.expert expertId proj))
  | none =>
      match model.packedModulesMapping.find? fun entry => entry.1 <:+: weightName with
      | some (k, v, shardId) => (replaceIn k v 0 weightName, some shardId)
      | none => (weightName, none)

/-- Where a tensor of the checkpoint goes; `none` where it is left out. -/
def target (model : Model) (checkpointName : WeightName) : Option (WeightName × Option ShardId) :=
  if model.skippedWeightPrefixes.any (·.isPrefixOf checkpointName) then none
  else
    (model.remapWeightName.elim (some checkpointName) fun remap => remap checkpointName).map
      model.resolve

end Model

/-! ## Loading -/

/-- The elements written so far, by storage, and the names in `loaded`. -/
structure Loading (R : Type) where
  written : Buffer (Nat × Place) R
  loaded : List WeightName

/-- The model's storages, nothing written yet. -/
def Model.uninitialized (model : Model) : Buffer (Nat × Place) R :=
  Buffer.empty fun i => model.parameters.any fun param =>
    param.dataPtr = i.1 && param.loader.inside i.2

/-- `check_loaded`'s missing parameters. -/
def missing (model : Model) (loaded : List WeightName) : List Parameter :=
  let loadedStorage := loaded.filterMap fun name =>
    (model.getParameter name).map Parameter.dataPtr
  model.parameters.filter fun param => param.name ∉ loaded ∧ param.dataPtr ∉ loadedStorage

end LeanVllm
