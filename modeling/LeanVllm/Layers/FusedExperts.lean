import LeanVllm.Layers.BlockedProducts
import LeanVllm.Layers.Moe

/-!
# The fused experts are the weighted sum

Both products write every pair's row, zeros for an expert of another rank, so what
`fused_experts` adds up for a token is the sum over its pairs.
-/

namespace LeanVllm

open Collections Kernels

namespace FusedMoe

variable {R : Type} [CommSemiring R]

/-- A rank's parameters hold, under its own numbers, the weights of its experts. -/
structure Experts.Holds (experts : Experts R) (expertMap : Option (List Int)) (numExperts : Nat)
    (weights : Nat → ExpertWeights R) : Prop where
  gateUp : ∀ e < numExperts, localExpert expertMap e ≠ -1 → ∀ i < 2 * experts.intermediateSize,
    ∀ j < experts.hiddenSize, experts.gateUpProj.load ((localExpert expertMap e).toNat, i, j) =
      some ((weights e).gateUp i j)
  down : ∀ e < numExperts, localExpert expertMap e ≠ -1 → ∀ i < experts.hiddenSize,
    ∀ j < experts.intermediateSize,
      experts.downProj.load ((localExpert expertMap e).toNat, i, j) =
        some ((weights e).down i j)

theorem alignBlocksTriton_laid {ids : List Nat} {numExperts blockM : Nat}
    {expertMap : Option (List Int)} (someExpert : 0 < numExperts) (positive : 0 < blockM)
    (small : ∀ e ∈ ids, e < numExperts) (maps : MapsAll expertMap numExperts) :
    ∃ layout, alignBlocksTriton ids numExperts blockM expertMap = some layout ∧
      Laid ids numExperts blockM expertMap layout := by
  have someTile : 0 < max 16 (8192 / nextPowerOf2 numExperts) := by omega
  obtain ⟨run, ran, _, laid⟩ := alignLaunches_spec someExpert (le_nextPowerOf2 numExperts) positive
    someTile (le_cdiv_mul ids.length someTile) small maps
  exact ⟨run.layout, by rw [alignBlocksTriton, ran]; rfl, laid⟩

section Fused

variable {x : Nat → Nat → R} {experts : Experts R} {routing : Routing R} {numExperts : Nat}
  {expertMap : Option (List Int)} {launch : Launch} {weights : Nat → ExpertWeights R}
  {sigmoid : R → R}

omit [CommSemiring R] in
/-- Each pair's token. -/
theorem Routing.token_lt (routing : Routing R) {p : Nat} (inside : p < routing.ids.length) :
    p / routing.topK < routing.numTokens := by
  rw [routing.pairs, Nat.mul_comm] at inside
  exact Nat.div_lt_of_lt_mul inside

theorem fusedExperts_eq (someExpert : 0 < numExperts) (maps : MapsAll expertMap numExperts)
    (all : expertMap = none → experts.numExperts = numExperts)
    (holds : experts.Holds expertMap numExperts weights)
    (small : ∀ e ∈ routing.ids, e < numExperts) (someM : 0 < launch.blockSizeM)
    (someN : 0 < launch.blockSizeN) (someK : 0 < launch.blockSizeK)
    (someG : 0 < launch.groupSizeM) :
    fusedExperts x experts routing (siluAndMul sigmoid) expertMap launch =
      some (tabulate routing.numTokens experts.hiddenSize
        (routedSum sigmoid x weights routing expertMap experts.hiddenSize
          experts.intermediateSize)) := by
  have count : expertMap.elim experts.numExperts List.length = numExperts := by
    cases expertMap with
    | none => exact all rfl
    | some map => exact maps map rfl
  obtain ⟨layout, aligned, laid⟩ := alignBlocksTriton_laid someExpert someM small maps
  have first : Operands routing.ids numExperts expertMap
      (Buffer.filled (rect routing.numTokens experts.hiddenSize) fun i => x i.1 i.2)
      experts.gateUpProj (Buffer.filled (flat routing.ids.length) routing.weights)
      (2 * experts.intermediateSize) experts.hiddenSize routing.topK
      (fun p j => x (p / routing.topK) j) (fun e i j => (weights e).gateUp i j)
      routing.weights :=
    ⟨fun p inside j here => Buffer.load_filled (decide_eq_true ⟨routing.token_lt inside, here⟩),
      fun e known mine i inside j here => holds.gateUp e known mine i inside j here,
      fun p inside => Buffer.load_filled (decide_eq_true inside)⟩
  obtain ⟨h, firstRan, firstHolds⟩ := @gemm_spec R _ _ _ _ _ _ _ _ _ _ _ _ false _ _ _ laid first
    small someM someK someN someG routing.numTokens
  obtain ⟨act, actRan, actHolds⟩ := @siluAndMul_spec R _ sigmoid h _ routing.ids.length
    experts.intermediateSize firstHolds
  have second : Operands routing.ids numExperts expertMap act experts.downProj
      (Buffer.filled (flat routing.ids.length) routing.weights) experts.hiddenSize
      experts.intermediateSize 1 _ (fun e i j => (weights e).down i j) routing.weights :=
    ⟨fun p inside j here => by
      rw [Nat.div_one]
      exact actHolds p inside j here,
      fun e known mine i inside j here => holds.down e known mine i inside j here,
      fun p inside => Buffer.load_filled (decide_eq_true inside)⟩
  obtain ⟨out, secondRan, secondHolds⟩ := @gemm_spec R _ _ _ _ _ _ _ _ _ _ _ _ true _ _ _ laid
    second small someM someK someN someG routing.ids.length
  simp only [fusedExperts, count, aligned, ← routing.pairs, firstRan, actRan, secondRan,
    Option.bind_eq_bind, Option.bind_some]
  refine mapM_eq_some fun t inside => mapM_eq_some fun d small => ?_
  rw [List.mem_range] at inside small
  have parts := mapM_eq_some fun k (among : k ∈ List.range routing.topK) =>
    secondHolds (t * routing.topK + k)
      (routing.pairs.symm ▸ cell_lt inside (List.mem_range.mp among)) d small
  rw [parts, Option.bind_some, routedSum]
  refine congrArg some (congrArg List.sum (List.map_congr_left fun k among => ?_))
  rw [List.mem_range] at among
  have token : (t * routing.topK + k) / routing.topK = t := by
    rw [Nat.mul_comm, Nat.mul_add_div (Nat.zero_lt_of_lt among), Nat.div_eq_of_lt among,
      Nat.add_zero]
  simp only [product, token, ExpertWeights.output, ExpertWeights.hidden]
  by_cases elsewhere :
      localExpert expertMap (routing.ids.getD (t * routing.topK + k) 0) = -1
  · rw [if_pos elsewhere, if_pos elsewhere]
  · simp only [elsewhere, if_false, if_true, Bool.false_eq_true]

end Fused

end FusedMoe

end LeanVllm
