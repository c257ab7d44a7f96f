import LeanVllm.Engine.BatchSpec
import LeanVllm.Engine.TokenIds
import Mathlib.Data.List.Rotate

/-!
# The drafter's inputs

`MTPProposer.propose` drafts tokens for the rows a step sampled.  Its first pass
runs over the target's whole batch, each token beside the one after it: the input
ids are rolled by one, and two scatters mend what the roll brings across the end
of a row.  Every further pass is one token a row, the draft before it, at the next
position.

How many drafts of a row the target kept is known on the device only, so rejected
drafts stay in the batch as padding, and the passes find a row's last kept token
by the count.  The MTP layers are a parameter.
-/

namespace LeanVllm

open Collections

namespace MTPProposer

/-- The context of one of the later passes, with the positions it runs at.  Without
a cache there are no slots. -/
structure StepContext where
  positions : List Nat
  cuSeqlensQ : List Nat
  cuSeqlensK : List Nat
  maxSeqlenK : Nat
  slotMapping : Option (List Int)
  contextLens : Option (List Nat)
  blockTables : Option (List (List Int))
  deriving DecidableEq, Repr

/-- The MTP layers: the first pass over token ids, positions and the target's hidden
states, the later passes by their number, and the greedy draft of a hidden state. -/
structure Drafter (H : Type) where
  firstPass : BatchContext → List Token → List Nat → List H → List H
  pass : StepContext → Nat → List Token → List H → List H
  draft : H → Token
  length_firstPass : ∀ context ids positions hidden,
    (firstPass context ids positions hidden).length = ids.length

/-- Torch's index into `n` entries: a negative one counts from the end. -/
def indexInto (n : Nat) (k : Int) : Nat :=
  if k < 0 then (k + n).toNat else k.toNat

/-- Torch's indexing of a tensor by a tensor of indices. -/
def select {α : Type} (values : List α) : List Nat → Except Fault (List α)
  | [] => .ok []
  | k :: indices =>
      match values[k]? with
      | none => .error .indexError
      | some value => do
          let rest ← select values indices
          .ok (value :: rest)

/-- `_step_context`: one token per sampling row, `step` positions past its last kept
one. -/
def stepContext (cfg : Config) (samplePositions : List Nat) (table : Option (List (List Int)))
    (cuSeqlensQ : List Nat) (maxPosition step : Nat) : Except Fault StepContext :=
  -- past `max_model_len` only for drafts no step would schedule
  let positions := samplePositions.map fun p => min (p + step) (cfg.maxModelLen - 1)
  match table with
  | none =>
      .ok
        { positions := positions
          cuSeqlensQ := cuSeqlensQ
          cuSeqlensK := cuSeqlensQ
          maxSeqlenK := 1
          slotMapping := none
          contextLens := none
          blockTables := none }
  | some table => do
      let lens := positions.map (· + 1)
      let slots ← RankBatch.slotsOf cfg table ((List.range positions.length).zip positions)
      .ok
        { positions := positions
          cuSeqlensQ := cuSeqlensQ
          cuSeqlensK := cumsum lens
          maxSeqlenK := min (maxPosition + step) (cfg.maxModelLen - 1) + 1
          slotMapping := some slots
          contextLens := some lens
          blockTables := some table }

/-- The contexts of the later passes. -/
def stepContexts (cfg : Config) (samplePositions : List Nat) (table : Option (List (List Int)))
    (cuSeqlensQ : List Nat) (maxPosition : Nat) : List Nat → Except Fault (List StepContext)
  | [] => .ok []
  | step :: steps => do
      let here ← stepContext cfg samplePositions table cuSeqlensQ maxPosition step
      let rest ← stepContexts cfg samplePositions table cuSeqlensQ maxPosition steps
      .ok (here :: rest)

/-- The drafts of the later passes, pass by pass. -/
def laterDrafts {H : Type} (drafter : Drafter H) :
    Nat → List Token → List H → List StepContext → List (List Token)
  | _, _, _, [] => []
  | step, drafts, hidden, context :: contexts =>
      let hidden := drafter.pass context step drafts hidden
      let drafts := hidden.map drafter.draft
      drafts :: laterDrafts drafter (step + 1) drafts hidden contexts

/-- What `propose` computes: the input ids of the first pass, where it reads each
sampling row's hidden state and the state it reads, the contexts of the later
passes, and the drafts by row. -/
structure Proposal (H : Type) where
  inputIds : List Token
  sampleIndex : List Nat
  hidden : List H
  steps : List StepContext
  drafts : List (List Token)

/-- `propose`.  `numAccepted` and `nextTokenIds` are by sampling row. -/
def propose {H : Type} (cfg : Config) (drafter : Drafter H) (inputs : DraftInputs)
    (context : BatchContext) (targetHidden : List H) (numAccepted : List Nat)
    (nextTokenIds : List Token) : Except Fault (Proposal H) := do
  let n := inputs.inputIds.length
  let numRows := numAccepted.length
  let notSampling := (List.range inputs.nextTokenIds.length).filter fun r =>
    0 ≤ inputs.nextTokenIds.getD r (-1)
  let fixedIndex := (ModelRunner.gather inputs.lastIndex 0 notSampling).map (indexInto n)
  let fixedTokenIds := ModelRunner.gather inputs.nextTokenIds (-1) notSampling
  let firstDraftIndex := List.zipWith (fun last (drafts : Nat) => last - (drafts : Int))
    (ModelRunner.gather inputs.lastIndex 0 inputs.samplingRows) inputs.numDraftTokens
  let cuSeqlensQ := List.range (numRows + 1)
  let table := inputs.blockTable.map fun table =>
    ModelRunner.gather table [] inputs.samplingRows
  -- each token beside the one after it
  let inputIds := indexCopy (inputs.inputIds.rotate 1) fixedIndex fixedTokenIds
  let sampleIndex := (List.zipWith (fun first (kept : Nat) => first + (kept : Int)) firstDraftIndex
    numAccepted).map (indexInto n)
  let inputIds := indexCopy inputIds sampleIndex nextTokenIds
  let states := drafter.firstPass { context with logitsIndices := none } inputIds
    inputs.positions targetHidden
  let hidden ← select states sampleIndex
  let first := hidden.map drafter.draft
  if numRows = 0 then
    .ok
      { inputIds := inputIds
        sampleIndex := sampleIndex
        hidden := hidden
        steps := []
        drafts := [] }
  else
    let samplePositions ← select inputs.positions sampleIndex
    let steps ← stepContexts cfg samplePositions table cuSeqlensQ inputs.maxPosition
      (List.range' 1 (cfg.numSpeculativeTokens - 1))
    let passes := first :: laterDrafts drafter 1 first hidden steps
    .ok
      { inputIds := inputIds
        sampleIndex := sampleIndex
        hidden := hidden
        steps := steps
        drafts := (List.range numRows).map fun r =>
          passes.map fun drafts => drafts.getD r placeholderTokenId }

end MTPProposer

end LeanVllm
