import Mathlib.Data.Rat.Defs
import LeanVllm.Engine.BatchLayout

/-!
# A batch on every tensor-parallel rank

Rank 0 prepares a batch from the engine's own sequences.  The other ranks get
the call through a broadcast that pickles its arguments, so they prepare it
from what `__setstate__` made of what `__getstate__` sent: a sequence with
fourteen attributes, and for a decode row no token but the last.

`prepare_batch` is modelled here in full, over sequences that have these
attributes and no other.
-/

namespace LeanVllm

open Collections

/-- What the sampler reads of a request's parameters. -/
structure SamplerSettings where
  temperature : Rat
  topK : Int
  topP : Rat
  deriving DecidableEq, Repr

/-- A sequence as `prepare_batch` may read it on any rank: the attributes
`__setstate__` sets. -/
structure BatchSequence where
  seqId : SeqId
  temperature : Rat
  topK : Int
  topP : Rat
  numTokens : Nat
  numPromptTokens : Nat
  numCachedTokens : Nat
  numScheduledTokens : Nat
  numPendingTokens : Nat
  isPrefill : Bool
  blockTable : List BlockId
  specTokenIds : List Token
  tokenIds : List Token
  lastToken : Token
  deriving DecidableEq, Repr, Inhabited

/-- The tuple a pickled sequence is.  Its last entry is the last token of a decode
row, and all the token ids of a prefill row. -/
structure SequenceState where
  seqId : SeqId
  temperature : Rat
  topK : Int
  topP : Rat
  numTokens : Nat
  numPromptTokens : Nat
  numCachedTokens : Nat
  numScheduledTokens : Nat
  numPendingTokens : Nat
  isPrefill : Bool
  blockTable : List BlockId
  specTokenIds : List Token
  lastState : Token ⊕ List Token
  deriving DecidableEq, Repr

/-- The attributes of a sequence of the engine. -/
def Sequence.attributes (settings : SamplerSettings) (i : SeqId) (seq : Sequence) :
    BatchSequence where
  seqId := i
  temperature := settings.temperature
  topK := settings.topK
  topP := settings.topP
  numTokens := seq.numTokens
  numPromptTokens := seq.numPromptTokens
  numCachedTokens := seq.numCachedTokens
  numScheduledTokens := seq.numScheduledTokens
  numPendingTokens := seq.numPendingTokens
  isPrefill := seq.isPrefill
  blockTable := seq.blockTable
  specTokenIds := seq.specTokenIds
  tokenIds := seq.tokenIds
  lastToken := seq.lastToken

namespace BatchSequence

def numPlannedTokens (seq : BatchSequence) : Nat :=
  seq.numTokens + seq.numPendingTokens

/-- `__getstate__`. -/
def getstate (seq : BatchSequence) : SequenceState where
  seqId := seq.seqId
  temperature := seq.temperature
  topK := seq.topK
  topP := seq.topP
  numTokens := seq.numTokens
  numPromptTokens := seq.numPromptTokens
  numCachedTokens := seq.numCachedTokens
  numScheduledTokens := seq.numScheduledTokens
  numPendingTokens := seq.numPendingTokens
  isPrefill := seq.isPrefill
  blockTable := seq.blockTable
  specTokenIds := seq.specTokenIds
  lastState := if seq.isPrefill then .inr seq.tokenIds else .inl seq.lastToken

/-- `__setstate__`, with the token ids and the last token it recovers. -/
def restored (state : SequenceState) (tokenIds : List Token) (lastToken : Token) :
    BatchSequence where
  seqId := state.seqId
  temperature := state.temperature
  topK := state.topK
  topP := state.topP
  numTokens := state.numTokens
  numPromptTokens := state.numPromptTokens
  numCachedTokens := state.numCachedTokens
  numScheduledTokens := state.numScheduledTokens
  numPendingTokens := state.numPendingTokens
  isPrefill := state.isPrefill
  blockTable := state.blockTable
  specTokenIds := state.specTokenIds
  tokenIds := tokenIds
  lastToken := lastToken

/-- `__setstate__`.  `self.token_ids[-1]` fails on an empty list. -/
def setstate (state : SequenceState) : Except Fault BatchSequence :=
  match state.lastState with
  | .inr tokenIds =>
      match tokenIds.getLast? with
      | none => .error .indexError
      | some lastToken => .ok (restored state tokenIds lastToken)
  | .inl lastToken => .ok (restored state [] lastToken)

/-- The sequences of a call, as the other ranks get them. -/
def received : List BatchSequence → Except Fault (List BatchSequence)
  | [] => .ok []
  | seq :: seqs => do
      let here ← setstate seq.getstate
      let rest ← received seqs
      .ok (here :: rest)

end BatchSequence

/-- The attention context of a batch. -/
structure BatchContext where
  isPrefill : Bool
  cuSeqlensQ : List Nat
  cuSeqlensK : List Nat
  maxSeqlenQ : Nat
  maxSeqlenK : Nat
  cuSeqlensQHost : List Nat
  cuSeqlensKHost : List Nat
  slotMapping : List Int
  contextLens : List Nat
  blockTables : Option (List (List Int))
  logitsIndices : Option (List Nat)
  decodeQueryLen : Nat
  deriving DecidableEq, Repr

/-- `DraftInputs`. -/
structure DraftInputs where
  inputIds : List Token
  positions : List Nat
  maxPosition : Nat
  lastIndex : List Int
  nextTokenIds : List Token
  samplingRows : List Nat
  numDraftTokens : List Nat
  blockTable : Option (List (List Int))
  deriving DecidableEq, Repr

/-- What `prepare_batch` returns, and what it leaves on the runner for the rest of
`run`: the sampling rows by their `seq_id`, top-k and top-p, and with speculation
the drafts to verify and the drafter's inputs. -/
structure BatchInputs where
  inputIds : List Token
  positions : List Nat
  temperatures : Option (List Rat)
  context : BatchContext
  topK : Option (List Int)
  topP : Option (List Rat)
  samplingRows : List SeqId
  numDraftTokens : List Nat
  specInputs : Option (List Token × List Nat)
  draftInputs : Option DraftInputs
  deriving DecidableEq, Repr

namespace RankBatch

open ModelRunner

/-- The first part of `prepare_batch`, up to the rows that sample. -/
def batchRows (cfg : Config) (decodesLatents : Bool) (seqs : List BatchSequence) : BatchRows :=
  let lens := seqs.map BatchSequence.numScheduledTokens
  let starts := seqs.map BatchSequence.numCachedTokens
  let planned := seqs.map BatchSequence.numPlannedTokens
  let numDrafts := seqs.map fun seq => if seq.isPrefill then 0 else seq.numScheduledTokens - 1
  let queryLen := LeanVllm.decodeQueryLen lens cfg.numSpeculativeTokens
  let order := rowOrder lens queryLen
  let rowOf := inverseOrder order
  let lens := gather lens 0 order
  let starts := gather starts 0 order
  let sampling := (List.range seqs.length).filter fun k =>
    planned.getD k 0 ≤ starts.getD (rowOf.getD k 0) 0 + lens.getD (rowOf.getD k 0) 0
  let hasPrompt := seqs.any BatchSequence.isPrefill
  let uniform := !hasPrompt && decodesLatents && lens.all (· = queryLen)
  { queryLen := queryLen
    order := order
    batch := gather (seqs.map BatchSequence.seqId) 0 order
    rowOf := rowOf
    lens := lens
    starts := starts
    sampling := sampling
    samplingDrafts := gather numDrafts 0 sampling
    isPrefill := hasPrompt || (numDrafts.any (· ≠ 0) && !uniform) }

/-- The pending rows of a batch, when the last step left drafts. -/
def movedRows (runner : ModelRunner) (batch : List BatchSequence) : List Nat :=
  if runner.inFlightDrafts.isSome then
    (List.range batch.length).filter fun r => (batch.getD r default).numPendingTokens ≠ 0
  else []

/-- How far each batch row moves back for drafts the last step rejected. -/
def movesBack (runner : ModelRunner) (batch : List BatchSequence) : Except Fault (List Nat) := do
  let moved := movedRows runner batch
  let movedSrc ← runner.prevRowsOf ((gather batch default moved).map BatchSequence.seqId)
  let rejected :=
    match runner.inFlightDrafts with
    | none => []
    | some inFlight => gather inFlight.numRejected 0 movedSrc
  .ok (indexCopy (List.replicate batch.length 0) moved rejected)

/-- The token loop of `prepare_batch` for one row. -/
def collectRow (cfg : Config) (runner : ModelRunner) (columns : TokenColumns)
    (seq : BatchSequence) (start stop : Nat) : Except Fault TokenColumns :=
  if seq.isPrefill then
    if seq.numPendingTokens ≠ 0 then
      .error (.assertion "a prefill row carries a pending token")
    else .ok { columns with tokenIds := columns.tokenIds ++ (seq.tokenIds.take stop).drop start }
  else do
    let here := columns.tokenIds.length
    let columns ←
      if seq.numPendingTokens ≠ 0 then do
        let src ← runner.prevRow seq.seqId
        let columns := { columns with
          pendingDst := columns.pendingDst ++ [here]
          pendingSrc := columns.pendingSrc ++ [src] }
        if runner.inFlightDrafts.isSome then
          let n := seq.specTokenIds.length
          .ok { columns with
            draftDst := columns.draftDst ++ List.range' (here + 1) n
            draftSrc := columns.draftSrc ++ List.range' (src * cfg.numSpeculativeTokens) n }
        else .ok columns
      else .ok columns
    .ok { columns with tokenIds := columns.tokenIds ++ seq.lastToken :: seq.specTokenIds }

/-- The token loop of `prepare_batch`. -/
def collectTokens (cfg : Config) (runner : ModelRunner) :
    TokenColumns → List (BatchSequence × Nat × Nat) → Except Fault TokenColumns
  | columns, [] => .ok columns
  | columns, (seq, start, stop) :: rows => do
      let columns ← collectRow cfg runner columns seq start stop
      collectTokens cfg runner columns rows

/-- The block tables of a batch, padded with -1 to the longest; none if no row has
blocks. -/
def paddedTables (tables : List (List BlockId)) : Option (List (List Int)) :=
  if tables.any (· ≠ []) then
    let width := (tables.map List.length).foldl max 0
    some (tables.map fun row =>
      row.map Int.ofNat ++ List.replicate (width - row.length) (-1))
  else none

/-- The cache slots of some tokens, each given by its batch row and its position:
its block's starting slot plus its offset within that block. -/
def slotsOf (cfg : Config) (table : List (List Int)) :
    List (Nat × Nat) → Except Fault (List Int)
  | [] => .ok []
  | (r, p) :: tokens =>
      match (table.getD r [])[p / cfg.blockSize]? with
      | none => .error .indexError
      | some block => do
          let rest ← slotsOf cfg table tokens
          .ok ((block * cfg.blockSize + (p % cfg.blockSize : Nat)) :: rest)

/-- `slot_mapping` of the host, which skips rows without blocks. -/
def slotMapping (cfg : Config) (tables : List (List BlockId)) (tokenRows positions : List Nat) :
    Except Fault (List Int) :=
  match paddedTables tables with
  | none => .ok []
  | some table =>
      slotsOf cfg table ((tokenRows.zip positions).filter fun token => tables.getD token.1 [] ≠ [])

/-- The slots `_move_back` writes over those of the host, from positions it
corrected.  `copy_` refuses another shape. -/
def movedSlots (cfg : Config) (tables : List (List BlockId)) (tokenRows positions : List Nat)
    (slots : List Int) : Except Fault (List Int) :=
  match paddedTables tables with
  | none => .error (.assertion "block_tables is not None")
  | some table => do
      let moved ← slotsOf cfg table (tokenRows.zip positions)
      if moved.length = slots.length then .ok moved else .error .valueError

/-- The token after the chunk of each row that does not sample, read as
`seq[end]`, and -1 for the others. -/
def nextTokens : List (BatchSequence × Nat × Bool) → Except Fault (List Token)
  | [] => .ok []
  | (seq, stop, samples) :: rows =>
      if samples then do
        let rest ← nextTokens rows
        .ok (-1 :: rest)
      else
        match seq.tokenIds[stop]? with
        | none => .error .indexError
        | some token => do
            let rest ← nextTokens rows
            .ok (token :: rest)

/-- Temperatures of the sampling rows; none if all of them are greedy. -/
def temperaturesOf (temperatures : List Rat) : Option (List Rat) :=
  if temperatures.all (· = 0) then none else some temperatures

/-- Whether some row needs `top_k` or `top_p`: both are passed, or neither. -/
def truncates (topK : List Int) (topP : List Rat) : Bool :=
  (topK.zip topP).any fun row => 0 < row.1 || row.2 < 1

/-- Where the rows of a batch lie: on the host, and how far the device moves each
back. -/
structure Placement where
  exact : Bool
  moved : List Nat
  starts : List Nat
  ends : List Nat
  back : List Nat
  tokenRows : List Nat
  hostPositions : List Nat
  deriving DecidableEq, Repr

/-- The positions of a batch whose rows move back by `back`.  Latent expansion needs
exact key lengths on the host; otherwise the device corrects them. -/
def placement (decodesLatents : Bool) (rows : BatchRows) (moved back : List Nat) : Placement :=
  let exact := needsExactLengths decodesLatents rows moved
  let starts := if exact then List.zipWith (· - ·) rows.starts back else rows.starts
  let cuQ := cumsum rows.lens
  let tokenRows := repeatEach (List.range rows.batch.length) rows.lens
  { exact := exact
    moved := if exact then [] else moved
    starts := starts
    ends := List.zipWith (· + ·) starts rows.lens
    back := if exact then List.replicate rows.batch.length 0 else back
    tokenRows := tokenRows
    hostPositions := List.zipWith (fun r p => starts.getD r 0 + p - cuQ.getD r 0) tokenRows
      (List.range rows.lens.sum) }

namespace Placement

/-- The positions `_move_back` leaves. -/
def positions (place : Placement) : List Nat :=
  List.zipWith (fun p r => p - place.back.getD r 0) place.hostPositions place.tokenRows

def contextLens (place : Placement) : List Nat :=
  List.zipWith (· - ·) place.ends place.back

end Placement

/-- Whether each batch row samples. -/
def rowSamples (rows : BatchRows) : List Bool :=
  (List.range rows.batch.length).map fun r => decide (r ∈ gather rows.rowOf 0 rows.sampling)

/-- The tokens after the chunks of a batch, which only a drafter reads. -/
def draftNextTokens (cfg : Config) (rows : BatchRows) (place : Placement)
    (batch : List BatchSequence) : Except Fault (List Token) :=
  if cfg.numSpeculativeTokens = 0 then .ok []
  else nextTokens (batch.zip (place.ends.zip (rowSamples rows)))

/-- `slot_mapping`, once `_move_back` has run if some row moved. -/
def deviceSlots (cfg : Config) (tables : List (List BlockId)) (place : Placement)
    (hostSlots : List Int) : Except Fault (List Int) :=
  if place.moved = [] then .ok hostSlots
  else movedSlots cfg tables place.tokenRows place.positions hostSlots

/-- What the drafter gets. -/
def draftInputs (rows : BatchRows) (place : Placement) (inputIds nextTokenIds : List Token)
    (table : Option (List (List Int))) : DraftInputs :=
  let ends := (cumsum rows.lens).tail
  let samplingRows := gather rows.rowOf 0 rows.sampling
  { inputIds := inputIds
    positions := place.positions
    -- a sampling row has at least one input
    maxPosition := (gather place.hostPositions 0
      (gather (ends.map (· - 1)) 0 samplingRows)).foldl max 0
    lastIndex := ends.map fun stop : Nat => (stop : Int) - 1
    nextTokenIds := nextTokenIds
    samplingRows := samplingRows
    numDraftTokens := rows.samplingDrafts
    blockTable := table }

/-- The attention context of a batch, with the key lengths `_move_back` leaves. -/
def context (rows : BatchRows) (place : Placement) (slots : List Int)
    (table : Option (List (List Int))) : BatchContext where
  isPrefill := rows.isPrefill
  cuSeqlensQ := cumsum rows.lens
  cuSeqlensK := cumsum place.contextLens
  maxSeqlenQ := rows.lens.foldl max 0
  maxSeqlenK := place.ends.foldl max 0
  cuSeqlensQHost := cumsum rows.lens
  cuSeqlensKHost := cumsum place.ends
  slotMapping := slots
  contextLens := place.contextLens
  blockTables := table
  -- a pure-decode batch uses every token row for sampling
  logitsIndices := if rows.isPrefill then some (logitsIndices rows) else none
  decodeQueryLen := rows.queryLen

/-- `prepare_batch`, from the order of the rows on.  `batch` holds the sequences in
batch order, `sampled` those that sample, in scheduler order. -/
def prepareRows (cfg : Config) (decodesLatents : Bool) (runner : ModelRunner) (rows : BatchRows)
    (batch sampled : List BatchSequence) : Except Fault BatchInputs := do
  let back ← movesBack runner batch
  let place := placement decodesLatents rows (movedRows runner batch) back
  let columns ← collectTokens cfg runner {} (batch.zip (place.starts.zip place.ends))
  let tables := batch.map BatchSequence.blockTable
  let hostSlots ← slotMapping cfg tables place.tokenRows place.hostPositions
  let ids ← runner.copyPending columns
  let inputIds ← runner.copyDrafts columns ids
  let nextTokenIds ← draftNextTokens cfg rows place batch
  let slots ← deviceSlots cfg tables place hostSlots
  let topK := sampled.map BatchSequence.topK
  let topP := sampled.map BatchSequence.topP
  .ok
    { inputIds := inputIds
      positions := place.positions
      temperatures := temperaturesOf (sampled.map BatchSequence.temperature)
      context := context rows place slots (paddedTables tables)
      topK := if truncates topK topP then some topK else none
      topP := if truncates topK topP then some topP else none
      samplingRows := sampled.map BatchSequence.seqId
      numDraftTokens := rows.samplingDrafts
      specInputs :=
        if cfg.numSpeculativeTokens = 0 then none
        else some (gather inputIds placeholderTokenId (draftIndices rows), rows.samplingDrafts)
      draftInputs :=
        if cfg.numSpeculativeTokens = 0 then none
        else some (draftInputs rows place inputIds nextTokenIds (paddedTables tables)) }

/-- `prepare_batch`.  `np.max` of no rows fails. -/
def prepareBatch (cfg : Config) (decodesLatents : Bool) (runner : ModelRunner)
    (seqs : List BatchSequence) : Except Fault BatchInputs :=
  if seqs = [] then .error .valueError
  else
    let rows := batchRows cfg decodesLatents seqs
    prepareRows cfg decodesLatents runner rows (gather seqs default rows.order)
      (gather seqs default rows.sampling)

/-- What `run` leaves for the next step once the sampling rows are sampled. -/
def kept (cfg : Config) (inputs : BatchInputs) (samples : List RowSample) : ModelRunner where
  prevRows := inputs.samplingRows
  prevTokens := samples.map RowSample.tokens
  inFlightDrafts :=
    if cfg.numSpeculativeTokens = 0 then none
    else some
      { draftTokenIds := samples.map RowSample.drafts
        numRejected := List.zipWith (fun numDrafts sample => numDrafts - (sample.tokens.length - 1))
          inputs.numDraftTokens samples }

/-- `loop` and `call` on another rank, for one launch: unpickle the sequences,
prepare the batch and run it.  Every rank samples from the same logits and seed. -/
def follow (cfg : Config) (decodesLatents : Bool) (worker : ModelRunner)
    (seqs : List BatchSequence) (samples : List RowSample) :
    Except Fault (ModelRunner × BatchInputs) := do
  let seqs ← BatchSequence.received seqs
  let inputs ← prepareBatch cfg decodesLatents worker seqs
  .ok (kept cfg inputs samples, inputs)

end RankBatch

end LeanVllm
