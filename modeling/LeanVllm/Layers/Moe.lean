import LeanVllm.Layers.FusedMoe
import LeanVllm.Layers.Linear

/-!
# The routed experts

`FusedMoE` stacks its experts per projection; under expert parallelism a rank holds a
contiguous run of them and a map from global ids to its own.  `torch_experts` is the
portable path: one row per token-expert pair, sorted by expert, two grouped products,
and the rows added back to their tokens.
-/

namespace LeanVllm

open Collections Kernels

namespace FusedMoe

variable {R : Type} [CommSemiring R]

/-- `determine_expert_map`: a rank's number of experts, and the map from a global expert id
to its local one, or -1 for another rank's. -/
def determineExpertMap (epSize epRank numExperts : Nat) : Nat × Option (List Int) :=
  if epSize = 1 then (numExperts, none)
  else
    let base := numExperts / epSize
    let remainder := numExperts % epSize
    let localNumExperts := if epRank < remainder then base + 1 else base
    let start := epRank * base + min epRank remainder
    (localNumExperts, some (indexCopy (List.replicate numExperts (-1))
      ((List.range localNumExperts).map (start + ·)) ((List.range localNumExperts).map Int.ofNat)))

/-! ## The portable path -/

/-- `F.grouped_mm`: the rows before each offset, from the offset before it, times that
group's weight; rows past the last offset are undefined. -/
def groupedMm (rows : List (Option (List R))) (n k : Nat) (weight : Buffer (Nat × Nat × Nat) R)
    (offsets : List Nat) : List (Option (List R)) :=
  rows.mapIdx fun r row => do
    let group ← offsets.findIdx? fun last => r < last
    let row ← row
    (List.range n).mapM fun column => do
      let weights ← (List.range k).mapM fun j => weight.load (group, column, j)
      some ((List.range k).map fun j => row.getD j 0 * weights.getD j 0).sum

/-- `SiluAndMul`, one row: `x, y = x.chunk(2, -1)`. -/
def siluAndMulRow (sigmoid : R → R) (d : Nat) (row : List R) : List R :=
  (List.range d).map fun i => row.getD i 0 * sigmoid (row.getD i 0) * row.getD (d + i) 0

/-- `index_add_` along the first dimension. -/
def indexAdd (base : Nat → Nat → R) (ids : List Nat) (rows : List (List R)) : Nat → Nat → R :=
  (ids.zip rows).foldl (fun out entry =>
    Function.update out entry.1 fun d => out entry.1 d + entry.2.getD d 0) base

/-- The pairs' experts by this rank's numbers, another rank's past them all. -/
def localIds (ids : List Nat) (numExperts : Nat) (expertMap : Option (List Int)) : List Int :=
  match expertMap with
  | none => ids.map Int.ofNat
  | some map => (ids.map fun id => map.getD id (-1)).map fun id =>
      if id < 0 then numExperts else id

/-- `torch_experts`; `sort` gives the sorted keys and where each was. -/
def torchExperts (sort : List Int → List Int × List Nat) (sigmoid : R → R) (x : Nat → Nat → R)
    (experts : Experts R) (routing : Routing R) (expertMap : Option (List Int)) :
    Option (List (List R)) := do
  let (expertIds, order) := sort (localIds routing.ids experts.numExperts expertMap)
  let tokenIds := order.map (· / routing.topK)
  -- where each expert's run of sorted rows ends
  let offsets := (List.range experts.numExperts).map fun (expert : Nat) =>
    expertIds.countP fun id => id ≤ (expert : Int)
  let h := groupedMm (tokenIds.map fun t => some ((List.range experts.hiddenSize).map (x t)))
    (2 * experts.intermediateSize) experts.hiddenSize experts.gateUpProj offsets
  let h := groupedMm (h.map fun row => row.map (siluAndMulRow sigmoid experts.intermediateSize))
    experts.hiddenSize experts.intermediateSize experts.downProj offsets
  let h := List.zipWith (fun (row : Option (List R)) pair =>
    row.map fun row => row.map fun value => value * routing.weights pair) h order
  -- `grouped_mm` leaves rows past the last offset undefined
  let h := if expertMap.isSome then List.zipWith (fun (id : Int) row =>
      if id < experts.numExperts then row else some (List.replicate experts.hiddenSize 0))
    expertIds h else h
  let rows ← h.mapM id
  let out := indexAdd (fun _ _ => 0) tokenIds rows
  some ((List.range routing.numTokens).map fun t =>
    (List.range experts.hiddenSize).map (out t))

/-! ## Loading -/

/-- `FusedMoE`'s sizes on one rank. -/
structure Layer where
  tpRank : Nat
  tpSize : Nat
  hiddenSize : Nat
  intermediateSize : Nat
  localNumExperts : Nat
  expertMap : Option (List Int)

/-- `FusedMoE.__init__`. -/
def Layer.init (numExperts hiddenSize intermediateSize : Nat) (enableExpertParallel : Bool)
    (rank worldSize : Nat) : Option Layer := do
  let useEp := enableExpertParallel && 1 < worldSize
  let (tpRank, tpSize) := if useEp then (0, 1) else (rank, worldSize)
  let (epRank, epSize) := if useEp then (rank, worldSize) else (0, 1)
  let intermediateSize ← divide intermediateSize tpSize
  let (localNumExperts, expertMap) := determineExpertMap epSize epRank numExperts
  some ⟨tpRank, tpSize, hiddenSize, intermediateSize, localNumExperts, expertMap⟩

inductive StackedParam
  | gateUpProj
  | downProj
  deriving DecidableEq, Repr

/-- `torch.empty` of both stacked parameters. -/
def Layer.inside (layer : Layer) (i : StackedParam × Nat × Nat × Nat) : Bool :=
  match i.1 with
  | .gateUpProj => stack layer.localNumExperts (2 * layer.intermediateSize) layer.hiddenSize i.2
  | .downProj => stack layer.localNumExperts layer.hiddenSize layer.intermediateSize i.2

/-- A rank's parameters. -/
def Layer.experts {R : Type} (layer : Layer)
    (params : Buffer (StackedParam × Nat × Nat × Nat) R) : Experts R where
  numExperts := layer.localNumExperts
  hiddenSize := layer.hiddenSize
  intermediateSize := layer.intermediateSize
  gateUpProj := params.under .gateUpProj
  downProj := params.under .downProj

inductive Proj
  | gateProj
  | upProj
  | downProj
  deriving DecidableEq, Repr

/-- `local_expert_ids[expert_id]`, where a rank does not hold every expert. -/
def Layer.localId (layer : Layer) (expertId : Nat) : Option Int :=
  match layer.expertMap with
  | none => some expertId
  | some localExpertIds => localExpertIds[expertId]?

/-- `FusedMoE.weight_loader`: what it copies of one projection of one expert. -/
def Layer.weightLoader {R : Type} (layer : Layer) (loaded : LoadedWeight R) (expertId : Nat)
    (proj : Proj) : Option (List ((StackedParam × Nat × Nat × Nat) × R)) := do
  let id ← layer.localId expertId
  let into := fun (param : StackedParam) (stores : List ((Nat × Nat) × R)) =>
    stores.map fun entry => ((param, id.toNat, entry.1), entry.2)
  -- another rank's expert
  if id = -1 then some []
  else if layer.localNumExperts ≤ id.toNat then none
  else match proj with
  | .downProj => do
      let shard ← loaded.chunkColumns layer.tpSize layer.tpRank
      (shard.copies 0 layer.hiddenSize layer.intermediateSize).map (into .downProj)
  | .gateProj => do
      let shard ← loaded.chunkRows layer.tpSize layer.tpRank
      (shard.copies 0 layer.intermediateSize layer.hiddenSize).map (into .gateUpProj)
  | .upProj => do
      let shard ← loaded.chunkRows layer.tpSize layer.tpRank
      (shard.copies layer.intermediateSize layer.intermediateSize layer.hiddenSize).map
        (into .gateUpProj)

/-! ## The definition -/

/-- One expert's weights, unsharded: `[2I, D]` and `[D, I]`. -/
structure ExpertWeights (R : Type) where
  gateUp : Nat → Nat → R
  down : Nat → Nat → R

/-- `gate_up_proj(x)` of one expert. -/
def ExpertWeights.hidden (weights : ExpertWeights R) (hiddenSize : Nat) (x : Nat → R) (i : Nat) :
    R :=
  ((List.range hiddenSize).map fun j => x j * weights.gateUp i j).sum

/-- `down_proj(silu_and_mul(gate_up_proj(x)))` of one expert. -/
def ExpertWeights.output (sigmoid : R → R) (weights : ExpertWeights R)
    (hiddenSize intermediateSize : Nat) (x : Nat → R) (d : Nat) : R :=
  ((List.range intermediateSize).map fun i =>
    weights.hidden hiddenSize x i * sigmoid (weights.hidden hiddenSize x i) *
      weights.hidden hiddenSize x (intermediateSize + i) * weights.down d i).sum

/-- The sum over a token's pairs of their weighted expert outputs, for the pairs whose
expert this rank holds. -/
def routedSum (sigmoid : R → R) (x : Nat → Nat → R) (weights : Nat → ExpertWeights R)
    (routing : Routing R) (expertMap : Option (List Int)) (hiddenSize intermediateSize : Nat)
    (t d : Nat) : R :=
  ((List.range routing.topK).map fun k =>
    let pair := t * routing.topK + k
    let expert := routing.ids.getD pair 0
    if localExpert expertMap expert = -1 then 0
    else (weights expert).output sigmoid hiddenSize intermediateSize (x t) d *
      routing.weights pair).sum

/-- A table of a function's values. -/
def tabulate (rows columns : Nat) (value : Nat → Nat → R) : List (List R) :=
  (List.range rows).map fun r => (List.range columns).map (value r)

end FusedMoe

end LeanVllm
