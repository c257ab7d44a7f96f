import LeanVllm.Engine.Scheduler

/-!
# The model runner, row by row

`prepare_batch` lays a batch out as flat arrays; what it decides for each row
is where the row's input starts, which token ids it feeds and whether the row
samples.  Those decisions are modelled here, with the device-side state the
next launch reads: the rows of the last launch, their tokens and drafts, and
how many drafts each of them rejected.  The forward pass and the sampler are a
parameter.
-/

namespace LeanVllm

/-- `InFlightDrafts`, indexed by sampling row. -/
structure InFlightDrafts where
  draftTokenIds : List (List Token)
  numRejected : List Nat
  deriving DecidableEq, Repr

/-- What a launch leaves for the next one.  `prevTokens` holds, per sampling
row, its kept drafts and its next token. -/
structure ModelRunner where
  prevRows : List SeqId := []
  prevTokens : List (List Token) := []
  inFlightDrafts : Option InFlightDrafts := none
  deriving DecidableEq, Repr

/-- One row of a batch: the cache position of its first input, the tokens it
feeds, and the tokens at the positions before, whose keys it attends to. -/
structure RowInput where
  seq : SeqId
  start : Nat
  context : List Token
  inputIds : List Token
  numDrafts : Nat
  samples : Bool
  deriving DecidableEq, Repr

namespace RowInput

/-- The drafts a sampling row verifies are the last of its inputs. -/
def drafts (row : RowInput) : List Token :=
  row.inputIds.drop (row.inputIds.length - row.numDrafts)

end RowInput

/-- What a sampling row returns: its kept drafts and one more token, and the
drafts for its next step. -/
structure RowSample where
  tokens : List Token
  drafts : List Token
  deriving DecidableEq, Repr

namespace ModelRunner

/-- `_max_num_blocks`: the block-table width needed for `max_model_len` plus
speculative token slots. -/
def maxNumBlocks (cfg : Config) : Nat :=
  (cfg.maxModelLen + cfg.numSpeculativeTokens + cfg.blockSize - 1) / cfg.blockSize

/-- `_prev_row`: this sequence's sampling row in the previous step. -/
def prevRow (runner : ModelRunner) (i : SeqId) : Except Fault Nat :=
  match runner.prevRows.idxOf? i with
  | some row => .ok row
  | none => .error (.assertion "a pending token but no row in the launched step")

/-- `prepare_batch` for one row.  A pending row takes its token and drafts from
the previous launch and moves back by the drafts that launch rejected. -/
def prepareRow (runner : ModelRunner) (i : SeqId) (seq : Sequence) : Except Fault RowInput := do
  let samples := decide (seq.numPlannedTokens ≤ seq.numCachedTokens + seq.numScheduledTokens)
  let numDrafts := if seq.isPrefill then 0 else seq.numScheduledTokens - 1
  if seq.isPrefill then
    if seq.numPendingTokens ≠ 0 then
      .error (.assertion "a prefill row carries a pending token")
    else
      .ok
        { seq := i
          start := seq.numCachedTokens
          context := seq.tokenIds.take seq.numCachedTokens
          inputIds := (seq.tokenIds.drop seq.numCachedTokens).take seq.numScheduledTokens
          numDrafts := numDrafts
          samples := samples }
  else if seq.numPendingTokens ≠ 0 then
    let src ← runner.prevRow i
    let tokens := seq.tokenIds ++ runner.prevTokens.getD src []
    let (rejected, drafts) :=
      match runner.inFlightDrafts with
      | some inFlight =>
          (inFlight.numRejected.getD src 0,
            (inFlight.draftTokenIds.getD src []).take seq.specTokenIds.length)
      | none => (0, seq.specTokenIds)
    .ok
      { seq := i
        start := seq.numCachedTokens - rejected
        context := tokens.dropLast
        inputIds := tokens.getLast?.getD placeholderTokenId :: drafts
        numDrafts := numDrafts
        samples := samples }
  else
    .ok
      { seq := i
        start := seq.numCachedTokens
        context := seq.tokenIds.dropLast
        inputIds := seq.lastToken :: seq.specTokenIds
        numDrafts := numDrafts
        samples := samples }

def prepareRows (runner : ModelRunner) (heap : SeqId → Sequence) :
    List SeqId → Except Fault (List RowInput)
  | [] => .ok []
  | i :: rest => do
      let row ← runner.prepareRow i (heap i)
      let rows ← prepareRows runner heap rest
      .ok (row :: rows)

/-- A speculative step's columns: the verified tokens padded with -1 to
`num_speculative_tokens + 1`, then the drafts. -/
def columns (cfg : Config) (sample : RowSample) : List Token :=
  sample.tokens ++
    List.replicate (cfg.numSpeculativeTokens + 1 - sample.tokens.length) placeholderTokenId ++
    sample.drafts

/-- The sampling rows of a launch with what each returned. -/
def sampleRows (forward : RowInput → RowSample) (rows : List RowInput) :
    List (RowInput × RowSample) :=
  (rows.filter RowInput.samples).map fun row => (row, forward row)

/-- `run`: prepare inputs, run the model, and sample.  Returns the tokens for
the engine to fetch later, one list per sampling row. -/
def run (cfg : Config) (runner : ModelRunner) (heap : SeqId → Sequence)
    (forward : RowInput → RowSample) (seqs : List SeqId) :
    Except Fault (ModelRunner × List (List Token)) := do
  let rows ← runner.prepareRows heap seqs
  let sampled := sampleRows forward rows
  let prevRows := sampled.map fun row => row.1.seq
  let prevTokens := sampled.map fun row => row.2.tokens
  if cfg.numSpeculativeTokens = 0 then
    .ok ({ prevRows := prevRows, prevTokens := prevTokens }, prevTokens)
  else
    .ok
      ({ prevRows := prevRows
         prevTokens := prevTokens
         inFlightDrafts := some
          { draftTokenIds := sampled.map fun row => row.2.drafts
            numRejected := sampled.map fun row =>
              row.1.numDrafts - (row.2.tokens.length - 1) } },
        sampled.map fun row => columns cfg row.2)

/-- `split_sampled`: each row's new tokens and its drafts for the next step. -/
def splitSampled (rows : List (List Token)) (numSpeculativeTokens : Nat) :
    List (List Token) × List (List Token) :=
  let width := numSpeculativeTokens + 1
  (rows.map fun row => (row.take width).filter (0 ≤ ·), rows.map fun row => row.drop width)

end ModelRunner

end LeanVllm
