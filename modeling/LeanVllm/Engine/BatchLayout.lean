import LeanVllm.Collections.Segments
import LeanVllm.Engine.Stepping

/-!
# The layout of a batch

`prepare_batch` in the form the source has it: arrays over the whole batch,
with rows permuted by query length, token ids laid end to end, and the tokens
and drafts that are still on the device scattered over their placeholders.
The block tables and slots of a batch, its temperatures and the reusable host
buffers are left out, and so are the inputs of the drafter.
-/

namespace LeanVllm

open Collections

/-- `decode_query_len`: the most common length at or below
`1 + num_speculative_tokens`, the shorter on ties, or 1 if no length
qualifies. -/
def decodeQueryLen (lens : List Nat) (numSpeculativeTokens : Nat) : Nat :=
  let short := lens.filter (· ≤ 1 + numSpeculativeTokens)
  if short = [] then 1
  else
    -- `bincount`, then the first index of the largest count
    let counts := (List.range (short.foldl max 0 + 1)).map fun len => short.count len
    counts.idxOf (counts.foldl max 0)

/-- What the token loop of `prepare_batch` has collected: the token ids the host
knows, and where to copy the previous step's tokens and drafts from and to. -/
structure TokenColumns where
  tokenIds : List Token := []
  pendingDst : List Nat := []
  pendingSrc : List Nat := []
  draftDst : List Nat := []
  draftSrc : List Nat := []
  deriving DecidableEq, Repr

/-- What `prepare_batch` returns and keeps: rows in batch order, sampling rows in
scheduler order, flat positions for everything else. -/
structure BatchLayout where
  batch : List SeqId
  rowOf : List Nat
  lens : List Nat
  columns : TokenColumns
  inputIds : List Token
  positions : List Nat
  contextLens : List Nat
  isPrefill : Bool
  logitsIndices : Option (List Nat)
  samplingRows : List SeqId
  numDraftTokens : List Nat
  draftTokenIds : List Token
  deriving DecidableEq, Repr

namespace BatchLayout

/-- The batch row of a sequence. -/
def row (layout : BatchLayout) (i : SeqId) : Nat :=
  layout.batch.idxOf i

/-- The token ids a sequence's row feeds. -/
def inputsOf (layout : BatchLayout) (i : SeqId) : List Token :=
  segment layout.inputIds layout.lens (layout.row i)

/-- The token ids the host collected for a sequence's row. -/
def hostInputsOf (layout : BatchLayout) (i : SeqId) : List Token :=
  segment layout.columns.tokenIds layout.lens (layout.row i)

/-- The cache positions of a sequence's row. -/
def positionsOf (layout : BatchLayout) (i : SeqId) : List Nat :=
  segment layout.positions layout.lens (layout.row i)

/-- The flat positions of the last `n` inputs of a sequence's row. -/
def lastPositions (layout : BatchLayout) (i : SeqId) (n : Nat) : List Nat :=
  (List.range n).map fun o =>
    (cumsum layout.lens).getD (layout.row i) 0 + (layout.lens.getD (layout.row i) 0 - n) + o

/-- The flat positions whose logits the sampler reads, row after row: the gathered
ones, or all of them on the decode path. -/
def logitsRead (layout : BatchLayout) : List Nat :=
  layout.logitsIndices.getD (List.range layout.inputIds.length)

end BatchLayout

namespace ModelRunner

/-- NumPy's indexing of an array by an array of indices. -/
def gather {α : Type} (values : List α) (default : α) (indices : List Nat) : List α :=
  indices.map fun k => values.getD k default

/-- Torch's `index_select`. -/
def indexSelect (values : List Token) : List Nat → Except Fault (List Token)
  | [] => .ok []
  | k :: indices =>
      match values[k]? with
      | none => .error .indexError
      | some value => do
          let rest ← indexSelect values indices
          .ok (value :: rest)

/-- `np.argsort(lens != query_len, kind="stable")`: a stable sort on a flag is a
partition. -/
def rowOrder (lens : List Nat) (queryLen : Nat) : List Nat :=
  (List.range lens.length).filter (fun k => lens.getD k 0 = queryLen) ++
    (List.range lens.length).filter (fun k => ¬ lens.getD k 0 = queryLen)

/-- The previous step's rows of some sequences. -/
def prevRowsOf (runner : ModelRunner) : List SeqId → Except Fault (List Nat)
  | [] => .ok []
  | i :: rest => do
      let row ← runner.prevRow i
      let rows ← prevRowsOf runner rest
      .ok (row :: rows)

/-- The token loop of `prepare_batch` for one row. -/
def collectRow (cfg : Config) (runner : ModelRunner) (columns : TokenColumns) (i : SeqId)
    (seq : Sequence) (start stop : Nat) : Except Fault TokenColumns :=
  if seq.isPrefill then
    if seq.numPendingTokens ≠ 0 then
      .error (.assertion "a prefill row carries a pending token")
    else .ok { columns with tokenIds := columns.tokenIds ++ (seq.tokenIds.take stop).drop start }
  else do
    let here := columns.tokenIds.length
    let columns ←
      if seq.numPendingTokens ≠ 0 then do
        -- the host's token and drafts may be stale; both are replaced on the device
        let src ← runner.prevRow i
        let columns := { columns with
          pendingDst := columns.pendingDst ++ [here]
          pendingSrc := columns.pendingSrc ++ [src] }
        if runner.inFlightDrafts.isSome then
          let n := seq.specTokenIds.length
          .ok { columns with
            draftDst := columns.draftDst ++ List.range' (here + 1) n
            draftSrc := columns.draftSrc ++ List.range' (src * cfg.numSpeculativeTokens) n }
        else .ok columns
      else .ok columns
    .ok { columns with tokenIds := columns.tokenIds ++ seq.lastToken :: seq.specTokenIds }

/-- The token loop of `prepare_batch`, over rows with their starts and ends. -/
def collectTokens (cfg : Config) (runner : ModelRunner) (heap : SeqId → Sequence) :
    TokenColumns → List (SeqId × Nat × Nat) → Except Fault TokenColumns
  | columns, [] => .ok columns
  | columns, (i, start, stop) :: rows => do
      let columns ← runner.collectRow cfg columns i (heap i) start stop
      collectTokens cfg runner heap columns rows

/-- `in_flight.next_token_ids`, or the previous step's tokens without
speculation: each row's token after the drafts it kept. -/
def nextTokenIds (runner : ModelRunner) : List Token :=
  runner.prevTokens.map fun tokens => tokens.getLast?.getD placeholderTokenId

/-- The previous step's tokens, copied into `input_ids`. -/
def copyPending (runner : ModelRunner) (columns : TokenColumns) : Except Fault (List Token) :=
  let numPending := columns.pendingDst.length
  if columns.pendingDst = List.range numPending ∧ columns.pendingSrc = List.range numPending then
    -- the previous tensor may have extra rows, for requests that have since finished
    .ok (runner.nextTokenIds.take numPending ++ columns.tokenIds.drop numPending)
  else do
    let tokens ← indexSelect runner.nextTokenIds columns.pendingSrc
    .ok (indexCopy columns.tokenIds columns.pendingDst tokens)

/-- The previous step's drafts, copied into `input_ids`. -/
def copyDrafts (runner : ModelRunner) (columns : TokenColumns) (ids : List Token) :
    Except Fault (List Token) :=
  match runner.inFlightDrafts with
  | none => .ok ids
  | some inFlight => do
      let drafts ← indexSelect inFlight.draftTokenIds.flatten columns.draftSrc
      .ok (indexCopy ids columns.draftDst drafts)

/-- The rows of a batch before any token is collected. -/
structure BatchRows where
  queryLen : Nat
  order : List Nat
  batch : List SeqId
  rowOf : List Nat
  lens : List Nat
  starts : List Nat
  sampling : List Nat
  samplingDrafts : List Nat
  isPrefill : Bool
  deriving DecidableEq, Repr

/-- The first part of `prepare_batch`: rows of length `query_len` come first, in
scheduler order within each group, and rows whose scheduled chunk reaches the end
of their planned tokens sample. -/
def batchRows (cfg : Config) (decodesLatents : Bool) (heap : SeqId → Sequence)
    (seqs : List SeqId) : BatchRows :=
  let lens := seqs.map fun i => (heap i).numScheduledTokens
  let starts := seqs.map fun i => (heap i).numCachedTokens
  let planned := seqs.map fun i => (heap i).numPlannedTokens
  let numDrafts := seqs.map fun i =>
    if (heap i).isPrefill then 0 else (heap i).numScheduledTokens - 1
  let queryLen := decodeQueryLen lens cfg.numSpeculativeTokens
  let order := rowOrder lens queryLen
  let rowOf := inverseOrder order
  let lens := gather lens 0 order
  let starts := gather starts 0 order
  let sampling := (List.range seqs.length).filter fun k =>
    planned.getD k 0 ≤ starts.getD (rowOf.getD k 0) 0 + lens.getD (rowOf.getD k 0) 0
  let hasPrompt := seqs.any fun i => (heap i).isPrefill
  let uniform := !hasPrompt && decodesLatents && lens.all (· = queryLen)
  { queryLen := queryLen
    order := order
    batch := gather seqs 0 order
    rowOf := rowOf
    lens := lens
    starts := starts
    sampling := sampling
    samplingDrafts := gather numDrafts 0 sampling
    isPrefill := hasPrompt || (numDrafts.any (· ≠ 0) && !uniform) }

/-- The batch rows that move back for drafts the previous step rejected. -/
def movedRows (runner : ModelRunner) (heap : SeqId → Sequence) (rows : BatchRows) : List Nat :=
  if runner.inFlightDrafts.isSome then
    (List.range rows.batch.length).filter fun r =>
      (heap (rows.batch.getD r 0)).numPendingTokens ≠ 0
  else []

/-- How far each batch row moves back. -/
def movesBack (runner : ModelRunner) (heap : SeqId → Sequence) (rows : BatchRows) :
    Except Fault (List Nat) := do
  let moved := runner.movedRows heap rows
  let movedSrc ← runner.prevRowsOf (gather rows.batch 0 moved)
  let rejected :=
    match runner.inFlightDrafts with
    | none => []
    | some inFlight => gather inFlight.numRejected 0 movedSrc
  .ok (indexCopy (List.replicate rows.batch.length 0) moved rejected)

/-- Whether attention planning needs the moved rows' exact lengths on the host.
Otherwise the device corrects them. -/
def needsExactLengths (decodesLatents : Bool) (rows : BatchRows) (moved : List Nat) : Bool :=
  !moved.isEmpty && (!decodesLatents ||
    (rows.isPrefill && moved.any fun r => rows.lens.getD r 0 ≠ rows.queryLen))

/-- The flat positions whose logits the sampling rows need: for each its drafts and
one next token. -/
def logitsIndices (rows : BatchRows) : List Nat :=
  let lastIndex := (cumsum rows.lens).tail.map (· - 1)
  let numLogits := rows.samplingDrafts.map (· + 1)
  List.zipWith (· + ·)
    (repeatEach
      (List.zipWith (· - ·) (gather lastIndex 0 (gather rows.rowOf 0 rows.sampling))
        rows.samplingDrafts)
      numLogits)
    (offsetsWithin numLogits)

/-- The flat positions of the drafts to verify: each follows the position whose
logits verify it. -/
def draftIndices (rows : BatchRows) : List Nat :=
  let numLogits := rows.samplingDrafts.map (· + 1)
  let isDraft := List.zipWith (fun offset drafts => decide (offset < drafts))
    (offsetsWithin numLogits) (repeatEach rows.samplingDrafts numLogits)
  (((logitsIndices rows).zip isDraft).filter Prod.snd).map fun entry => entry.1 + 1

/-- `prepare_batch`. -/
def prepareBatch (cfg : Config) (decodesLatents : Bool) (runner : ModelRunner)
    (heap : SeqId → Sequence) (seqs : List SeqId) : Except Fault BatchLayout := do
  let rows := batchRows cfg decodesLatents heap seqs
  let back ← runner.movesBack heap rows
  let exact := needsExactLengths decodesLatents rows (runner.movedRows heap rows)
  let starts := if exact then List.zipWith (· - ·) rows.starts back else rows.starts
  let back := if exact then List.replicate rows.batch.length 0 else back
  let ends := List.zipWith (· + ·) starts rows.lens
  let cuQ := cumsum rows.lens
  let tokenRows := repeatEach (List.range rows.batch.length) rows.lens
  let positions := List.zipWith (fun r p => starts.getD r 0 + p - cuQ.getD r 0) tokenRows
    (List.range rows.lens.sum)
  let columns ← runner.collectTokens cfg heap {} (rows.batch.zip (starts.zip ends))
  let ids ← runner.copyPending columns
  let inputIds ← runner.copyDrafts columns ids
  .ok
    { batch := rows.batch
      rowOf := rows.rowOf
      lens := rows.lens
      columns := columns
      inputIds := inputIds
      -- `_move_back`
      positions := List.zipWith (fun p r => p - back.getD r 0) positions tokenRows
      contextLens := List.zipWith (· - ·) ends back
      isPrefill := rows.isPrefill
      logitsIndices := if rows.isPrefill then some (logitsIndices rows) else none
      samplingRows := gather seqs 0 rows.sampling
      numDraftTokens := rows.samplingDrafts
      draftTokenIds := gather inputIds placeholderTokenId (draftIndices rows) }

end ModelRunner

end LeanVllm
