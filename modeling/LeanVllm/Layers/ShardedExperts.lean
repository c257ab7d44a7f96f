import LeanVllm.Layers.ShardedHeads
import Mathlib.Algebra.BigOperators.Ring.List

/-!
# Shards of routed experts

Under tensor parallelism a rank's stacked parameter holds, for each expert, its piece of
the gate projection over its piece of the up projection.  The ranks' partial sums add up to
the sum over the unsharded experts.
-/

namespace LeanVllm

open Collections Kernels FusedMoe

variable {R : Type}

namespace FusedMoe

/-- One expert's tensors in the checkpoint. -/
def ExpertWeights.tensor (weights : ExpertWeights R) (hiddenSize intermediateSize : Nat) :
    Proj → LoadedWeight R
  | .gateProj => ⟨intermediateSize, hiddenSize, weights.gateUp⟩
  | .upProj => ⟨intermediateSize, hiddenSize, fun r c => weights.gateUp (intermediateSize + r) c⟩
  | .downProj => ⟨hiddenSize, intermediateSize, weights.down⟩

/-- A rank's piece of an expert, the gate's rows before the up projection's. -/
def ExpertWeights.shard (weights : ExpertWeights R) (intermediateSize m rank : Nat) :
    ExpertWeights R where
  gateUp i j := if i < m then weights.gateUp (rank * m + i) j
    else weights.gateUp (intermediateSize + (rank * m + (i - m))) j
  down d i := weights.down d (rank * m + i)

/-- What each place of a rank's stacked parameters is to hold. -/
def shardAt (weights : Nat → ExpertWeights R) (i : StackedParam × Nat × Nat × Nat) : R :=
  match i.1 with
  | .gateUpProj => (weights i.2.1).gateUp i.2.2.1 i.2.2.2
  | .downProj => (weights i.2.1).down i.2.2.1 i.2.2.2

section Loading

variable {weights : Nat → ExpertWeights R} {numExperts hiddenSize m tpSize rank : Nat}

theorem Layer.init_eq (inside : rank < tpSize) :
    Layer.init numExperts hiddenSize (tpSize * m) false rank tpSize =
      some ⟨rank, tpSize, hiddenSize, m, numExperts, none⟩ := by
  have positive := Nat.zero_lt_of_lt inside
  simp [Layer.init, divide, Nat.mul_div_cancel_left m positive, determineExpertMap]

/-- The stores of one tensor, by the parameter and the rows they go to. -/
def stackedStores (param : StackedParam) (e offset rows columns : Nat) (value : Nat → Nat → R) :
    List ((StackedParam × Nat × Nat × Nat) × R) :=
  (List.range rows).flatMap fun r => (List.range columns).map fun c =>
    ((param, e, offset + r, c), value r c)

theorem mem_stackedStores {param : StackedParam} {e offset rows columns : Nat}
    {value : Nat → Nat → R} {entry : (StackedParam × Nat × Nat × Nat) × R} :
    entry ∈ stackedStores param e offset rows columns value ↔
      ∃ r < rows, ∃ c < columns, entry = ((param, e, offset + r, c), value r c) := by
  simp only [stackedStores, List.mem_flatMap, List.mem_map, List.mem_range]
  constructor
  · rintro ⟨r, inside, c, small, rfl⟩
    exact ⟨r, inside, c, small, rfl⟩
  · rintro ⟨r, inside, c, small, rfl⟩
    exact ⟨r, inside, c, small, rfl⟩

theorem copies_into (param : StackedParam) (e offset rows columns : Nat) (value : Nat → Nat → R) :
    ((LoadedWeight.mk rows columns value).copies offset rows columns).map
        (List.map fun entry => ((param, e, entry.1), entry.2)) =
      some (stackedStores param e offset rows columns value) := by
  rw [LoadedWeight.copies, if_pos ⟨rfl, rfl⟩, Option.map_some, List.map_flatMap, stackedStores]
  simp only [List.map_map]
  rfl

/-- What a rank stores of one expert's projection. -/
def shardStores (weights : Nat → ExpertWeights R) (hiddenSize m tpSize rank : Nat)
    (load : Nat × Proj) : List ((StackedParam × Nat × Nat × Nat) × R) :=
  match load.2 with
  | .gateProj => stackedStores .gateUpProj load.1 0 m hiddenSize fun r c =>
      (weights load.1).gateUp (rank * m + r) c
  | .upProj => stackedStores .gateUpProj load.1 m m hiddenSize fun r c =>
      (weights load.1).gateUp (tpSize * m + (rank * m + r)) c
  | .downProj => stackedStores .downProj load.1 0 hiddenSize m fun r c =>
      (weights load.1).down r (rank * m + c)

theorem weightLoader_eq (inside : rank < tpSize) (load : Nat × Proj)
    (known : load.1 < numExperts) :
    (Layer.mk rank tpSize hiddenSize m numExperts none).weightLoader
        ((weights load.1).tensor hiddenSize (tpSize * m) load.2) load.1 load.2 =
      some (shardStores weights hiddenSize m tpSize rank load) := by
  obtain ⟨e, proj⟩ := load
  have own : ¬ (e : Int) = -1 := by omega
  have held : ¬ numExperts ≤ (e : Int).toNat := Nat.not_le.mpr known
  rw [Layer.weightLoader]
  dsimp only [Layer.localId, Option.bind_eq_bind, Option.bind_some]
  rw [if_neg own, if_neg held]
  cases proj with
  | gateProj =>
      simp only [ExpertWeights.tensor, LoadedWeight.chunkRows_eq inside, Option.bind_some]
      exact copies_into .gateUpProj e 0 m hiddenSize _
  | upProj =>
      simp only [ExpertWeights.tensor, LoadedWeight.chunkRows_eq inside, Option.bind_some]
      exact copies_into .gateUpProj e m m hiddenSize _
  | downProj =>
      simp only [ExpertWeights.tensor, LoadedWeight.chunkColumns_eq inside, Option.bind_some]
      exact copies_into .downProj e 0 hiddenSize m _

/-- A rank's experts, each projection of each expert loaded, in any order. -/
theorem load_shards (inside : rank < tpSize) {loads : List (Nat × Proj)}
    (all : ∀ e proj, (e, proj) ∈ loads ↔ e < numExperts) :
    ∃ params, (Buffer.empty (Layer.mk rank tpSize hiddenSize m numExperts none).inside).launch loads
        (fun load => (Layer.mk rank tpSize hiddenSize m numExperts none).weightLoader
          ((weights load.1).tensor hiddenSize (tpSize * m) load.2) load.1 load.2) = some params ∧
      ((Layer.mk rank tpSize hiddenSize m numExperts none).experts params).Holds none numExperts
        fun e => (weights e).shard (tpSize * m) m rank := by
  obtain ⟨params, launched, loaded⟩ := @Buffer.launch_agrees _ _ _ _
    (Buffer.empty (Layer.mk rank tpSize hiddenSize m numExperts none).inside) loads _
    (shardStores weights hiddenSize m tpSize rank)
    (shardAt fun e => (weights e).shard (tpSize * m) m rank)
    (fun load among => weightLoader_eq inside load ((all load.1 load.2).mp among))
    (by
      rintro ⟨e, proj⟩ among entry own
      have known := (all e proj).mp among
      cases proj with
      | gateProj =>
          obtain ⟨r, row, c, column, rfl⟩ := mem_stackedStores.mp own
          exact decide_eq_true ⟨known, by dsimp only; omega, column⟩
      | upProj =>
          obtain ⟨r, row, c, column, rfl⟩ := mem_stackedStores.mp own
          exact decide_eq_true ⟨known, by dsimp only; omega, column⟩
      | downProj =>
          obtain ⟨r, row, c, column, rfl⟩ := mem_stackedStores.mp own
          exact decide_eq_true ⟨known, by dsimp only; omega, column⟩)
    (by
      rintro ⟨e, proj⟩ among entry own
      cases proj with
      | gateProj =>
          obtain ⟨r, row, c, column, rfl⟩ := mem_stackedStores.mp own
          simp [shardAt, ExpertWeights.shard, row]
      | upProj =>
          obtain ⟨r, row, c, column, rfl⟩ := mem_stackedStores.mp own
          simp [shardAt, ExpertWeights.shard]
      | downProj =>
          obtain ⟨r, row, c, column, rfl⟩ := mem_stackedStores.mp own
          simp [shardAt, ExpertWeights.shard])
  refine ⟨params, launched, ?_, ?_⟩
  · intro e known _ i row j column
    by_cases gate : i < m
    · have held := loaded (e, .gateProj) ((all e .gateProj).mpr known) _
        (mem_stackedStores.mpr ⟨i, gate, j, column, rfl⟩)
      rw [Nat.zero_add] at held
      exact held
    · have held := loaded (e, .upProj) ((all e .upProj).mpr known) _
        (mem_stackedStores.mpr ⟨i - m, by change i < 2 * m at row; omega, j, column, rfl⟩)
      rw [Nat.add_sub_cancel' (Nat.le_of_not_lt gate)] at held
      exact held
  · intro e known _ i row j column
    have held := loaded (e, .downProj) ((all e .downProj).mpr known) _
      (mem_stackedStores.mpr ⟨i, row, j, column, rfl⟩)
    rw [Nat.zero_add] at held
    exact held

end Loading

section Sum

variable [CommSemiring R] {sigmoid : R → R} {weights : Nat → ExpertWeights R}
  {numExperts hiddenSize m tpSize : Nat}

theorem ExpertWeights.shard_output (w : ExpertWeights R) (intermediateSize rank : Nat)
    (x : Nat → R) (d : Nat) :
    (w.shard intermediateSize m rank).output sigmoid hiddenSize m x d =
      ((List.range m).map fun i => w.hidden hiddenSize x (rank * m + i) *
        sigmoid (w.hidden hiddenSize x (rank * m + i)) *
          w.hidden hiddenSize x (intermediateSize + (rank * m + i)) *
            w.down d (rank * m + i)).sum := by
  refine congrArg List.sum (List.map_congr_left fun i among => ?_)
  rw [List.mem_range] at among
  have gate : (w.shard intermediateSize m rank).hidden hiddenSize x i =
      w.hidden hiddenSize x (rank * m + i) := by
    simp only [hidden, shard, if_pos among]
  have up : (w.shard intermediateSize m rank).hidden hiddenSize x (m + i) =
      w.hidden hiddenSize x (intermediateSize + (rank * m + i)) := by
    have past : ¬ m + i < m := by omega
    simp only [hidden, shard, if_neg past, Nat.add_sub_cancel_left]
  rw [gate, up]
  rfl

/-- The pieces of an expert add up to the expert. -/
theorem ExpertWeights.sum_shards (w : ExpertWeights R) (x : Nat → R) (d : Nat) :
    ((List.range tpSize).map fun rank =>
      (w.shard (tpSize * m) m rank).output sigmoid hiddenSize m x d).sum =
      w.output sigmoid hiddenSize (tpSize * m) x d := by
  simp only [shard_output]
  exact sum_runs_mul (fun i => w.hidden hiddenSize x i * sigmoid (w.hidden hiddenSize x i) *
    w.hidden hiddenSize x (tpSize * m + i) * w.down d i) tpSize m

/-- The ranks' sums over a token's pairs add up. -/
theorem sum_routedSum_shards (x : Nat → Nat → R) (routing : Routing R) (t d : Nat) :
    ((List.range tpSize).map fun rank => routedSum sigmoid x
      (fun e => (weights e).shard (tpSize * m) m rank) routing none hiddenSize m t d).sum =
      weightedSum sigmoid x weights routing hiddenSize (tpSize * m) t d := by
  refine (sum_map_range_comm _ _ _).trans
    (congrArg List.sum (List.map_congr_left fun k _ => ?_))
  dsimp only
  generalize routing.ids.getD (t * routing.topK + k) 0 = e
  have own : localExpert none e ≠ -1 := by
    rw [localExpert]
    omega
  simp only [if_neg own]
  rw [List.sum_map_mul_right, ExpertWeights.sum_shards, mul_comm]

omit [CommSemiring R] in
theorem numbers_of_count {experts : Experts R} (count : experts.numExperts = numExperts) :
    experts.Numbers none numExperts where
  maps := nofun
  all _ := count
  bounds e known _ := by
    rw [localExpert]
    omega

/-- One rank's part: its experts loaded, and the routed sum over them. -/
def expertsPart (forward : Experts R → Option (List Int) → Option (List (List R)))
    (weights : Nat → ExpertWeights R) (numExperts hiddenSize intermediateSize : Nat)
    (loads : List (Nat × Proj)) (worldSize rank : Nat) : Option (List (List R)) := do
  let layer ← Layer.init numExperts hiddenSize intermediateSize false rank worldSize
  let params ← (Buffer.empty layer.inside).launch loads fun load =>
    layer.weightLoader ((weights load.1).tensor hiddenSize intermediateSize load.2) load.1 load.2
  forward (layer.experts params) layer.expertMap

/-- The ranks' parts add up to the sum over the unsharded experts. -/
theorem expertsParts_sum {forward : Experts R → Option (List Int) → Option (List (List R))}
    {x : Nat → Nat → R} {routing : Routing R} {intermediateSize : Nat}
    (divides : tpSize ∣ intermediateSize)
    (sums : ∀ (experts : Experts R) (held : Nat → ExpertWeights R),
      experts.numExperts = numExperts → experts.Holds none numExperts held →
        forward experts none = some (tabulate routing.numTokens experts.hiddenSize
          (routedSum sigmoid x held routing none experts.hiddenSize experts.intermediateSize)))
    {loads : Nat → List (Nat × Proj)}
    (all : ∀ rank < tpSize, ∀ e proj, (e, proj) ∈ loads rank ↔ e < numExperts) :
    ((List.range tpSize).mapM fun rank => expertsPart forward weights numExperts hiddenSize
        intermediateSize (loads rank) tpSize rank).map (allReduce routing.numTokens hiddenSize) =
      some (tabulate routing.numTokens hiddenSize
        (weightedSum sigmoid x weights routing hiddenSize intermediateSize)) := by
  obtain ⟨m, rfl⟩ := divides
  refine mapM_allReduce (fun rank inside => ?_) fun t _ d => sum_routedSum_shards x routing t d
  obtain ⟨params, launched, holds⟩ := @load_shards R weights numExperts hiddenSize m tpSize rank
    inside (loads rank) (all rank inside)
  rw [expertsPart, Layer.init_eq inside]
  simp only [Option.bind_eq_bind, Option.bind_some]
  rw [launched]
  exact sums _ _ rfl holds

end Sum

end FusedMoe

variable [CommSemiring R]

/-- Layers sharded over tensor-parallel ranks are the unsharded ones: the gated MLP, the
heads of the fused projection, and the routed experts by either path. -/
theorem shards_preserve_layers {tpSize : Nat} (positive : 0 < tpSize) (sigmoid : R → R)
    (hiddenSize numTokens : Nat) (x : Nat → Nat → R) :
    (∀ (gate up down : Projection R) (gateUpBias downBias : Bool) (intermediateSize : Nat)
        (loads : Nat → List (ParamName × Nat)) (downLoads : Nat → List ParamName),
      tpSize ∣ intermediateSize →
      (∀ rank < tpSize, ∀ name s, (name, s) ∈ loads rank ↔ s < 2 ∧ (name = .bias → gateUpBias = true)) →
      (∀ rank < tpSize, ∀ name, name ∈ downLoads rank ↔ (name = .bias → downBias = true)) →
      ((List.range tpSize).mapM fun rank => mlpPart sigmoid gate up down hiddenSize
          intermediateSize gateUpBias downBias (loads rank) (downLoads rank)
          (tabulate numTokens hiddenSize x) tpSize rank).map (allReduce numTokens hiddenSize) =
        some (tabulate numTokens hiddenSize fun t => down.apply downBias intermediateSize
          (gated sigmoid gate up gateUpBias hiddenSize (x t)))) ∧
    (∀ (full : QkvShard → Projection R) (headSize heads kvHeads : Nat)
        (totalNumKvHeads : Option Nat) (hasBias : Bool)
        (loads : Nat → List (ParamName × QkvShard)),
      tpSize ∣ heads → tpSize ∣ kvHeads → kvHeads ∣ heads →
      QKVParallelLinear.kvHeads heads totalNumKvHeads = kvHeads →
      (∀ rank < tpSize, ∀ name s, (name, s) ∈ loads rank ↔ (name = .bias → hasBias = true)) →
      (∀ rank < tpSize, qkvPart full hiddenSize headSize heads totalNumKvHeads hasBias
          (loads rank) (tabulate numTokens hiddenSize x) tpSize rank =
        some ((List.range numTokens).map fun t => headsRow full hasBias hiddenSize headSize
          (heads / tpSize) (kvHeads / tpSize) (x t) rank) ∧
        ∀ t, QkvHeads.split ⟨headSize, heads / tpSize, kvHeads / tpSize⟩
            (headsRow full hasBias hiddenSize headSize (heads / tpSize) (kvHeads / tpSize) (x t)
              rank) =
          (headsOf (full .q) hasBias hiddenSize headSize (x t) (rank * (heads / tpSize))
              (heads / tpSize),
            headsOf (full .k) hasBias hiddenSize headSize (x t) (rank * (kvHeads / tpSize))
              (kvHeads / tpSize),
            headsOf (full .v) hasBias hiddenSize headSize (x t) (rank * (kvHeads / tpSize))
              (kvHeads / tpSize))) ∧
      (∀ h < heads, ∃! rank, rank < tpSize ∧ rank * (heads / tpSize) ≤ h ∧
        h < rank * (heads / tpSize) + heads / tpSize) ∧
      (∀ h < kvHeads, ∃! rank, rank < tpSize ∧ rank * (kvHeads / tpSize) ≤ h ∧
        h < rank * (kvHeads / tpSize) + kvHeads / tpSize) ∧
      ∀ rank < tpSize, ∀ h < heads / tpSize,
        (rank * (heads / tpSize) + h) / (heads / kvHeads) =
          rank * (kvHeads / tpSize) + h / ((heads / tpSize) / (kvHeads / tpSize)) ∧
        h / ((heads / tpSize) / (kvHeads / tpSize)) < kvHeads / tpSize) ∧
    ∀ (weights : Nat → ExpertWeights R) (routing : Routing R) (numExperts intermediateSize : Nat)
        (loads : Nat → List (Nat × Proj)) (sort : List Int → List Int × List Nat)
        (launch : Launch),
      tpSize ∣ intermediateSize → 0 < numExperts → (∀ e ∈ routing.ids, e < numExperts) →
      (∀ rank < tpSize, ∀ e proj, (e, proj) ∈ loads rank ↔ e < numExperts) → Sorts sort →
      0 < launch.blockSizeM → 0 < launch.blockSizeN → 0 < launch.blockSizeK →
      0 < launch.groupSizeM →
      ((List.range tpSize).mapM fun rank => expertsPart (fun experts expertMap =>
          fusedExperts x experts routing (siluAndMul sigmoid) expertMap launch) weights numExperts
          hiddenSize intermediateSize (loads rank) tpSize rank).map
            (allReduce routing.numTokens hiddenSize) =
        some (tabulate routing.numTokens hiddenSize
          (weightedSum sigmoid x weights routing hiddenSize intermediateSize)) ∧
      ((List.range tpSize).mapM fun rank => expertsPart (fun experts expertMap =>
          torchExperts sort sigmoid x experts routing expertMap) weights numExperts hiddenSize
          intermediateSize (loads rank) tpSize rank).map
            (allReduce routing.numTokens hiddenSize) =
        some (tabulate routing.numTokens hiddenSize
          (weightedSum sigmoid x weights routing hiddenSize intermediateSize)) := by
  refine ⟨?_, ?_, ?_⟩
  · intro gate up down gateUpBias downBias intermediateSize loads downLoads divides all downAll
    exact mlpParts_sum positive divides all downAll numTokens x
  · rintro full headSize _ _ totalNumKvHeads hasBias loads ⟨nq, rfl⟩ ⟨nk, rfl⟩ groups kv all
    rw [Nat.mul_div_cancel_left nq positive, Nat.mul_div_cancel_left nk positive]
    refine ⟨fun rank inside => ⟨qkvPart_eq inside kv (all rank inside) numTokens x, fun t =>
      split_headsRow full (x t)⟩, fun h small => existsUnique_rank rfl small,
        fun h small => existsUnique_rank rfl small, fun rank _ h small =>
          group_on_rank positive rfl rfl groups small⟩
  · intro weights routing numExperts intermediateSize loads sort launch divides someExpert small
      all sorts someM someN someK someG
    refine ⟨expertsParts_sum divides (fun experts held count holds => ?_) all,
      expertsParts_sum divides (fun experts held count holds => ?_) all⟩
    · exact fusedExperts_eq someExpert nofun (fun _ => count) holds small someM someN someK someG
    · exact torchExperts_eq sorts (numbers_of_count count) holds small

/-- A small projection. -/
def smallProjection (shift : Nat) : Projection Int where
  weight i j := (shift + i + 2 * j : Nat)
  bias i := (shift * i : Nat)

/-- Two ranks: the second loads the up projection first, the fused projection has a bias,
and the routed experts come last to first. -/
theorem shards_preserve_layers_twoRanks :
    ((List.range 2).mapM fun rank => mlpPart (fun value => value) (smallProjection 1)
        (smallProjection 2) (smallProjection 3) 2 4 false true
        (if rank = 0 then [(.weight, 0), (.weight, 1)] else [(.weight, 1), (.weight, 0)])
        [.weight, .bias] (tabulate 1 2 fun t j => ((t + j : Nat) : Int)) 2 rank).map
          (allReduce 1 2) =
      some (tabulate 1 2 fun t => (smallProjection 3).apply true 4
        (gated (fun value => value) (smallProjection 1) (smallProjection 2) false 2
          fun j => ((t + j : Nat) : Int))) ∧
    qkvPart (fun _ => smallProjection 1) 2 1 4 (some 2) true
        [(.weight, .k), (.bias, .q), (.weight, .v), (.bias, .v), (.weight, .q), (.bias, .k)]
        (tabulate 1 2 fun t j => ((t + j : Nat) : Int)) 2 1 =
      some ((List.range 1).map fun t => headsRow (fun _ => smallProjection 1) true 2 1 (4 / 2) (2 / 2)
        (fun j => ((t + j : Nat) : Int)) 1) ∧
    ((List.range 2).mapM fun rank => expertsPart (fun experts expertMap =>
        fusedExperts (fun t j => ((t + j : Nat) : Int)) experts twoTokens
          (siluAndMul fun value => value) expertMap ⟨16, 2, 2, 1⟩) fullLayer 5 2 4
        ((List.range 5).reverse.flatMap fun e =>
          [(e, .upProj), (e, .downProj), (e, .gateProj)]) 2 rank).map
          (allReduce twoTokens.numTokens 2) =
      some (tabulate twoTokens.numTokens 2 (weightedSum (fun value => value)
        (fun t j => ((t + j : Nat) : Int)) fullLayer twoTokens 2 4)) := by
  obtain ⟨mlp, heads, experts⟩ := @shards_preserve_layers Int _ 2 (by decide) (fun value => value)
    2 1 fun t j => ((t + j : Nat) : Int)
  refine ⟨?_, ?_, ?_⟩
  · refine mlp _ _ _ false true 4 (fun rank => if rank = 0 then [(.weight, 0), (.weight, 1)]
      else [(.weight, 1), (.weight, 0)]) (fun _ => [.weight, .bias]) (by decide) ?_ ?_
    · intro rank _ name s
      cases name with
      | weight => by_cases first : rank = 0 <;> simp [first] <;> omega
      | bias => by_cases first : rank = 0 <;> simp [first]
    · intro rank _ name
      cases name <;> simp
  · refine ((heads (fun _ => smallProjection 1) 1 4 2 (some 2) true (fun _ => [(.weight, .k),
      (.bias, .q), (.weight, .v), (.bias, .v), (.weight, .q), (.bias, .k)]) (by decide) (by decide)
        (by decide) rfl ?_).1 1 (by decide)).1
    intro rank _ name s
    cases name <;> cases s <;> simp
  · refine (experts fullLayer twoTokens 5 4 (fun _ => (List.range 5).reverse.flatMap fun e =>
      [(e, .upProj), (e, .downProj), (e, .gateProj)]) stableSort ⟨16, 2, 2, 1⟩ (by decide)
        (by decide) (by decide) ?_ stableSort_sorts (by decide) (by decide) (by decide)
          (by decide)).1
    intro rank _ e proj
    cases proj <;> simp

end LeanVllm
