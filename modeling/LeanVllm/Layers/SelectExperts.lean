import LeanVllm.Collections.TopPicks
import LeanVllm.Layers.FusedMoe
import LeanVllm.Layers.Sampler

/-!
# Routing

A router scores the experts of a token and picks `top_k` of them, where there are groups
only from the best groups.  A correction bias steers which are picked and not their
weights.  `topk_softmax_kernel` picks by repeated argmax over padded columns;
`torch_select_experts` is the portable path.
-/

namespace LeanVllm

open Collections Kernels FusedMoe Sampler

/-- A router: the sizes and the scoring of `select_experts`. -/
structure Router where
  numExperts : Nat
  topK : Nat
  renormalize : Bool
  scaling : ℝ
  numGroups : Nat
  topkGroup : Nat
  sigmoid : Bool
  correctionBias : Option (Nat → ℝ)

/-- `tl.sum` over the first `n` lanes. -/
def laneSum (n : Nat) (f : Nat → ℝ) : ℝ :=
  ((List.range n).map f).sum

namespace Router

/-- The experts of a group. -/
def groupSize (router : Router) : Nat :=
  router.numExperts / router.numGroups

noncomputable section

/-! ## The kernel -/

/-- A padding column, `-inf`. -/
def padded (router : Router) (values : Nat → ℝ) (col : Nat) : WithBot ℝ :=
  if col < router.numExperts then (values col : WithBot ℝ) else ⊥

/-- The scores of a row in `topk_softmax_kernel`, over all columns. -/
def kernelScores (router : Router) (columns : Nat) (logits : Nat → ℝ) : Nat → ℝ :=
  if router.sigmoid then fun col => 1 / (1 + Real.exp (-logits col))
  else
    let logits := router.padded logits
    let peak := (logits (laneArgmax columns logits)).unbotD 0
    let scores := fun col => weight ((logits col).map (· - peak))
    fun col => scores col / laneSum columns scores

/-- What the picks go by. -/
def kernelChoice (router : Router) (scores : Nat → ℝ) (bias : Option (Nat → ℝ)) :
    Nat → WithBot ℝ :=
  router.padded (bias.elim scores fun bias col => scores col + bias col)

/-- A group's best expert, or its best two with a bias. -/
def kernelGroupScore (router : Router) (columns : Nat) (choice : Nat → WithBot ℝ) (g : Nat) :
    WithBot ℝ :=
  let inGroup := fun col => if col / router.groupSize = g then choice col else ⊥
  let bestCol := laneArgmax columns inGroup
  let best := inGroup bestCol
  if router.correctionBias.isSome then
    let others := fun col => if col = bestCol then ⊥ else inGroup col
    best + others (laneArgmax columns others)
  else best

/-- One pick of the group loop: which columns are eligible, and the scores left. -/
def groupTurn (router : Router) (groupsPow2 : Nat) (s : (Nat → Nat) × (Nat → WithBot ℝ))
    (_ : Nat) : (Nat → Nat) × (Nat → WithBot ℝ) :=
  let picked := laneArgmax groupsPow2 s.2
  (fun col => if col / router.groupSize = picked then 1 else s.1 col,
    Function.update s.2 picked ⊥)

/-- The columns of the best groups. -/
def kernelEligible (router : Router) (columns : Nat) (choice : Nat → WithBot ℝ) :
    Nat → WithBot ℝ :=
  if 1 < router.numGroups then
    let groupScores := (List.range router.numGroups).foldl
      (fun scores g => Function.update scores g (router.kernelGroupScore columns choice g))
      fun _ => ⊥
    let s := (List.range router.topkGroup).foldl
      (router.groupTurn (nextPowerOf2 router.numGroups)) (fun _ => 0, groupScores)
    fun col => if s.1 col ≠ 0 then choice col else ⊥
  else choice

/-- The registers of the top-k loop. -/
structure Picking where
  weights : Nat → ℝ
  ids : Nat → Nat
  choice : Nat → WithBot ℝ

/-- One pick of the top-k loop. -/
def pickTurn (columns : Nat) (scores : Nat → ℝ) (s : Picking) (k : Nat) : Picking :=
  let expert := laneArgmax columns s.choice
  { weights := Function.update s.weights k
      (laneSum columns fun col => if col = expert then scores col else 0)
    ids := Function.update s.ids k expert
    choice := Function.update s.choice expert ⊥ }

/-- One row of `topk_softmax_kernel`: its weights and its expert ids, by lane. -/
def kernelRow (router : Router) (columns : Nat) (logits : Nat → ℝ) (bias : Option (Nat → ℝ)) :
    (Nat → ℝ) × (Nat → Nat) :=
  let scores := router.kernelScores columns logits
  let choice := router.kernelEligible columns (router.kernelChoice scores bias)
  let s := (List.range router.topK).foldl (pickTurn columns scores)
    ⟨fun _ => 0, fun _ => 0, choice⟩
  let weights := if router.renormalize then
      fun k => s.weights k / laneSum (nextPowerOf2 router.topK) s.weights
    else s.weights
  (fun k => weights k * router.scaling, s.ids)

/-- The places of `topk_softmax_kernel`'s output that a lane of a program has. -/
def outLanes (router : Router) (numTokens row : Nat) : List Nat :=
  (List.range (nextPowerOf2 router.topK)).filter fun k => row < numTokens ∧ k < router.topK

/-- `topk_softmax_kernel`: what a program stores of weights and of ids. -/
def topkSoftmaxKernel (router : Router) (logits : Buffer (Nat × Nat) ℝ)
    (bias : Option (Buffer Nat ℝ)) (numTokens expertsPow2 blockT pid : Nat) :
    Option (List (Nat × ℝ) × List (Nat × Nat)) := do
  let tile ← loadTile blockT expertsPow2 fun lane col =>
    logits.loadMasked (decide (pid * blockT + lane < numTokens) && decide (col < router.numExperts))
      0 (pid * blockT + lane, col)
  let bias ← match bias with
    | none => some none
    | some bias => do
        let lanes ← (List.range expertsPow2).mapM fun col =>
          bias.loadMasked (decide (col < router.numExperts)) 0 col
        some (some fun col => lanes.getD col 0)
  let row := fun lane => router.kernelRow expertsPow2 (fun col => (tile.getD lane []).getD col 0) bias
  let stores := (List.range blockT).flatMap fun lane =>
    (router.outLanes numTokens (pid * blockT + lane)).map fun k => (lane, k)
  some
    (stores.map fun at_ => ((pid * blockT + at_.1) * router.topK + at_.2, (row at_.1).1 at_.2),
      stores.map fun at_ => ((pid * blockT + at_.1) * router.topK + at_.2, (row at_.1).2 at_.2))

/-- `topk_softmax`: weights and ids, `[T, top_k]` each. -/
def topkSoftmax (router : Router) (logits : Nat → Nat → ℝ) (numTokens : Nat) :
    Option (Buffer Nat ℝ × Buffer Nat Nat) := do
  -- the experts split into the groups
  if router.numExperts % router.numGroups ≠ 0 then none
  let expertsPow2 := nextPowerOf2 router.numExperts
  let blockT := max 1 (4096 / expertsPow2)
  let kernel := topkSoftmaxKernel router
    (Buffer.filled (rect numTokens router.numExperts) fun i => logits i.1 i.2)
    (router.correctionBias.map fun bias => Buffer.filled (flat router.numExperts) bias)
    numTokens expertsPow2 blockT
  let weights ← (Buffer.empty (flat (numTokens * router.topK))).launch
    (List.range (Kernels.cdiv numTokens blockT)) fun pid => (kernel pid).map Prod.fst
  let ids ← (Buffer.empty (flat (numTokens * router.topK))).launch
    (List.range (Kernels.cdiv numTokens blockT)) fun pid => (kernel pid).map Prod.snd
  some (weights, ids)

/-! ## The portable path -/

/-- `router_logits.softmax(-1)` or `.sigmoid()`. -/
def scores (router : Router) (logits : Nat → ℝ) (e : Nat) : ℝ :=
  if router.sigmoid then 1 / (1 + Real.exp (-logits e))
  else Real.exp (logits e) / laneSum router.numExperts fun other => Real.exp (logits other)

/-- What the picks go by: the scores, steered by the bias. -/
def choice (router : Router) (logits : Nat → ℝ) (e : Nat) : ℝ :=
  router.correctionBias.elim (router.scores logits e) fun bias => router.scores logits e + bias e

/-- `torch_select_experts` for one token: its experts with their weights, in the order
`topk` gives them. -/
def torchSelectExperts (topk : Nat → List (WithBot ℝ) → List Nat) (router : Router)
    (logits : Nat → ℝ) : List (Nat × ℝ) :=
  let choice := (List.range router.numExperts).map fun e => (router.choice logits e : WithBot ℝ)
  let choice := if 1 < router.numGroups then
      -- only experts in the topk_group best groups stay eligible
      let grouped := (List.range router.numGroups).map fun g =>
        (choice.drop (g * router.groupSize)).take router.groupSize
      let groupScores := grouped.map fun group =>
        if router.correctionBias.isSome then ((topk 2 group).map fun i => group.getD i ⊥).sum
        else group.foldr max ⊥
      let groupIdx := topk router.topkGroup groupScores
      let groupMask := (List.range router.numGroups).map fun g => if g ∈ groupIdx then 1 else 0
      choice.mapIdx fun e value => if groupMask.getD (e / router.groupSize) 0 = 0 then ⊥ else value
    else choice
  let topkIds := topk router.topK choice
  let weights := topkIds.map (router.scores logits)
  let weights := if router.renormalize then weights.map (· / weights.sum) else weights
  let weights := if router.scaling ≠ 1 then weights.map (· * router.scaling) else weights
  topkIds.zip weights

end

end Router

end LeanVllm
