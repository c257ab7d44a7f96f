import LeanVllm.Engine.BlockManager
import LeanVllm.Engine.Policy
import LeanVllm.KvTransfer.Base

/-!
# The scheduler

A faithful transcription of `Scheduler`.  The `Sequence` objects live in
`heap`, and `waiting`, `running`, `seqs`, `recving` and `sending` hold their
ids.  The `while` loops take a fuel argument that counts their turns; running
out is a fault, so every theorem that a call returns includes that its loops
end.
-/

namespace LeanVllm

open Collections

/-- What one step should run.  A sequence carries its own
`num_scheduled_tokens`. -/
structure SchedulerOutput where
  scheduled : List SeqId := []
  preempted : List SeqId := []
  dropped : List SeqId := []
  numPrefillTokens : Nat := 0
  numDecodeTokens : Nat := 0
  numQueriedBlocks : Nat := 0
  numCachedBlocks : Nat := 0
  kvConnectorMetadata : Option KVConnectorMetadata := none

/-- One sampling row of a launched step.  A requeue after launch voids its
token. -/
structure LaunchedRow where
  seq : SeqId
  numPreemptions : Nat
  numDraftTokens : Nat
  deriving DecidableEq, Repr

/-- `heap` and `counter` are the `Sequence` objects built so far and
`Sequence.counter`.  `connector` is read only when `kv_transfer` is set. -/
structure Scheduler where
  heap : SeqId → Sequence
  counter : SeqId
  blockManager : BlockManager
  waiting : List SeqId
  running : List SeqId
  seqs : Dict RequestId SeqId
  connector : NixlConnectorScheduler
  recving : Dict RequestId SeqId
  sending : Dict RequestId SeqId

namespace Scheduler

/-- Write one `Sequence` object. -/
def setSeq (s : Scheduler) (i : SeqId) (seq : Sequence) : Scheduler :=
  { s with heap := Function.update s.heap i seq }

def create (cfg : Config) : Scheduler where
  heap := fun _ => default
  counter := 0
  blockManager := BlockManager.create cfg
  waiting := []
  running := []
  seqs := ∅
  connector := {}
  recving := ∅
  sending := ∅

def isFinished (s : Scheduler) : Bool :=
  s.waiting.isEmpty && s.running.isEmpty && s.recving.entries.isEmpty &&
    s.sending.entries.isEmpty

/-- An aborted load or a held send still owns blocks under its id. -/
def add (cfg : Config) (s : Scheduler) (i : SeqId) : Except Fault Scheduler :=
  let requestId := (s.heap i).requestId
  if requestId ∈ s.seqs ∨ requestId ∈ s.recving ∨ requestId ∈ s.sending then
    .error (.duplicateRequestId requestId)
  else
    .ok { s with
      seqs := s.seqs.insert requestId i
      waiting := cfg.schedulingPolicy.add s.heap s.waiting i }

/-! ## Finishing, dropping, freeing -/

/-- `_finish`. -/
def finish (s : Scheduler) (i : SeqId) (reason : FinishReason) : Scheduler :=
  s.setSeq i { s.heap i with status := .finished, finishReason := some reason }

/-- `block_manager.deallocate(seq)`. -/
def deallocate (s : Scheduler) (i : SeqId) : Except Fault Scheduler := do
  let (bm, seq) ← s.blockManager.deallocate (s.heap i)
  .ok { s.setSeq i seq with blockManager := bm }

/-- `_drop`, less the append to `output.dropped`, which only some callers
ask for. -/
def drop (s : Scheduler) (i : SeqId) (reason : FinishReason) : Except Fault Scheduler :=
  let s := s.finish i reason
  let s := s.setSeq i (s.heap i).dropPending
  let requestId := (s.heap i).requestId
  if requestId ∈ s.seqs then .ok { s with seqs := s.seqs.erase requestId }
  else .error .keyError

/-- `_free`: release a finished request's blocks, unless the connector holds
them for a decode instance to read. -/
def free (cfg : Config) (s : Scheduler) (i : SeqId) : Except Fault Scheduler :=
  match cfg.kvTransfer with
  | none => s.deallocate i
  | some kv =>
      let (connector, hold, result) := s.connector.requestFinished cfg kv (s.heap i)
      let s := { s.setSeq i { s.heap i with kvTransferResult := result } with
        connector := connector }
      if hold then .ok { s with sending := s.sending.insert (s.heap i).requestId i }
      else s.deallocate i

/-- Drop a request between steps.  Returns false if it already finished. -/
def abort (cfg : Config) (s : Scheduler) (requestId : RequestId) (reason : FinishReason) :
    Except Fault (Scheduler × Bool) :=
  match s.seqs.lookup requestId with
  | none => .ok (s, false)
  | some i =>
      let s := { s with seqs := s.seqs.erase requestId }
      if (s.heap i).status = .waitingForRemoteKvs then
        .ok (s.finish i reason, true)
      else do
        let s ←
          if (s.heap i).status = .waiting then do
            let waiting ← SchedulingPolicy.remove s.waiting i
            .ok { s with waiting := waiting }
          else do
            let running ← SchedulingPolicy.remove s.running i
            .ok { s with running := running }
        let s := s.setSeq i (s.heap i).dropPending
        let s := s.finish i reason
        let s ← s.free cfg i
        .ok (s, true)

/-! ## Scheduling -/

/-- `_preempt`.  The in-flight token is discarded and recomputed. -/
def preempt (cfg : Config) (s : Scheduler) (i : SeqId) (output : SchedulerOutput) :
    Except Fault (Scheduler × SchedulerOutput) := do
  let seq := s.heap i
  let s := s.setSeq i
    { seq.dropPending with
      status := .waiting
      isPrefill := true
      numPreemptions := seq.numPreemptions + 1
      specTokenIds := [] }
  let s ← s.deallocate i
  .ok ({ s with waiting := cfg.schedulingPolicy.requeue s.heap s.waiting i },
    { output with preempted := output.preempted ++ [i] })

/-- `_schedule`: a prefill chunk, or the last generated token plus any drafts
to verify.  Returns the number of tokens. -/
def scheduleSeq (cfg : Config) (s : Scheduler) (i : SeqId) (budget : Nat)
    (output : SchedulerOutput) : Scheduler × SchedulerOutput × Nat :=
  let seq := s.heap i
  let numTokens :=
    if seq.isPrefill then min (seq.numTokens - seq.numCachedTokens) budget
    else 1 + seq.specTokenIds.length
  let numTokens :=
    if seq.isPrefill ∧ cfg.enableChunkedPrefill ∧ cfg.longPrefillTokenThreshold ≠ 0 then
      min numTokens cfg.longPrefillTokenThreshold
    else numTokens
  let s := s.setSeq i { seq with numScheduledTokens := numTokens }
  let output := { output with scheduled := output.scheduled ++ [i] }
  let output :=
    if seq.isPrefill then
      { output with numPrefillTokens := output.numPrefillTokens + numTokens }
    else { output with numDecodeTokens := output.numDecodeTokens + numTokens }
  (s, output, numTokens)

/-- What `_make_room` leaves behind: whether the sequence may grow, and the
caller's scheduler, `still_running` and output. -/
structure Room where
  granted : Bool
  sched : Scheduler
  stillRunning : List SeqId
  output : SchedulerOutput

/-- `_make_room`: free blocks for one more decoded token and `numLookahead`
slots past it.  Not granted if the sequence itself gave way. -/
def makeRoom (cfg : Config) (i : SeqId) (numLookahead : Nat) :
    Nat → Scheduler → List SeqId → SchedulerOutput → Except Fault Room
  | 0, _, _, _ => .error .outOfFuel
  | fuel + 1, s, stillRunning, output =>
      if s.blockManager.canAppend cfg (s.heap i) numLookahead then
        .ok ⟨true, s, stillRunning, output⟩
      else
        match cfg.schedulingPolicy.victim s.heap s.running with
        | some victim => do
            let running ← SchedulingPolicy.remove s.running victim
            let (s, output) ← preempt cfg { s with running := running } victim output
            makeRoom cfg i numLookahead fuel s stillRunning output
        | none =>
            if stillRunning ≠ [] ∨ output.scheduled ≠ [] then do
              let (s, output) ← preempt cfg s i output
              .ok ⟨false, s, stillRunning, output⟩
            else if (s.heap i).numPendingTokens ≠ 0 then
              -- the pending token may finish this request
              .ok ⟨false, s, stillRunning ++ [i], output⟩
            else if s.recving.entries ≠ [] ∨ s.sending.entries ≠ [] then
              -- KV transfers hold blocks outside running
              .ok ⟨false, s, stillRunning ++ [i], output⟩
            else do
              let s ← s.deallocate i
              let s ← s.drop i .capacity
              .ok ⟨false, s, stillRunning, { output with dropped := output.dropped ++ [i] }⟩

/-- `_never_fits`: the sequence, including lookahead slots, exceeds total
KV-cache capacity. -/
def neverFits (cfg : Config) (s : Scheduler) (i : SeqId) : Bool :=
  decide (cfg.numKvcacheBlocks <
    BlockManager.numBlocks cfg (s.heap i) cfg.numLookaheadTokens)

/-- `_loads_remotely`. -/
def loadsRemotely (cfg : Config) (s : Scheduler) (i : SeqId) : Bool :=
  cfg.kvTransfer.isSome && (s.heap i).wantsRemotePrefill

/-- `_admit`: move the head of the waiting queue into the running set, or to
wait for its blocks from elsewhere. -/
def admitHead (cfg : Config) (s : Scheduler) (i : SeqId) (numCachedBlocks budget : Nat)
    (output : SchedulerOutput) : Except Fault (Scheduler × SchedulerOutput × Nat) := do
  let s := { s with waiting := s.waiting.tail }
  let (bm, seq) ←
    s.blockManager.allocate cfg (s.heap i) numCachedBlocks cfg.numLookaheadTokens
  let s := { s.setSeq i seq with blockManager := bm }
  let output := { output with
    numQueriedBlocks := output.numQueriedBlocks + seq.numBlocks cfg
    numCachedBlocks := output.numCachedBlocks + numCachedBlocks }
  let (seq, numExternalTokens, loadAsync) :=
    if cfg.kvTransfer.isSome then
      NixlConnectorScheduler.getNumNewMatchedTokens cfg seq seq.numCachedTokens
    else (seq, 0, false)
  if numExternalTokens ≠ 0 then
    if loadAsync then
      let (connector, seq) := s.connector.updateStateAfterAlloc cfg seq
      let s := s.setSeq i { seq with status := .waitingForRemoteKvs }
      .ok ({ s with
          connector := connector
          recving := s.recving.insert seq.requestId i }, output, 0)
    else .error (.assertion "only asynchronous loads are implemented")
  else
    let s := s.setSeq i { seq with status := .running }
    let (s, output, numTokens) := s.scheduleSeq cfg i budget output
    .ok ({ s with running := s.running ++ [i] }, output, numTokens)

/-- The local variables of `schedule`'s loops. -/
structure Pass where
  sched : Scheduler
  stillRunning : List SeqId
  output : SchedulerOutput
  budget : Nat

/-- `_schedule_whole_prompts`: whole prompts only, and never mixed with
decode. -/
def wholePromptsLoop (cfg : Config) : Nat → Scheduler → SchedulerOutput → Nat →
    Except Fault (Scheduler × SchedulerOutput)
  | 0, _, _, _ => .error .outOfFuel
  | fuel + 1, s, output, budget =>
      match s.waiting with
      | [] => .ok (s, output)
      | i :: rest =>
          if output.scheduled.length < cfg.maxNumSeqs then
            if s.neverFits cfg i then do
              let s ← { s with waiting := rest }.drop i .capacity
              wholePromptsLoop cfg fuel s { output with dropped := output.dropped ++ [i] } budget
            else do
              let cached ← s.blockManager.canAllocate cfg (s.heap i) cfg.numLookaheadTokens
              match cached with
              | none => .ok (s, output)
              | some numCachedBlocks =>
                  let numTokens :=
                    if s.loadsRemotely cfg i then 0
                    else (s.heap i).numTokens - numCachedBlocks * cfg.blockSize
                  if cfg.maxNumBatchedTokens < numTokens then do
                    -- will never fit in one step, and splitting is off
                    let s ← { s with waiting := rest }.drop i .capacity
                    wholePromptsLoop cfg fuel s
                      { output with dropped := output.dropped ++ [i] } budget
                  else if budget < numTokens then .ok (s, output)
                  else do
                    let (s, output, used) ← s.admitHead cfg i numCachedBlocks budget output
                    wholePromptsLoop cfg fuel s output (budget - used)
          else .ok (s, output)

def scheduleWholePrompts (cfg : Config) (s : Scheduler) :
    Except Fault (Scheduler × SchedulerOutput) :=
  wholePromptsLoop cfg (s.waiting.length + 1) s {} cfg.maxNumBatchedTokens

/-- One turn of `schedule`'s first loop, for the sequence `i` just popped from
`running`. -/
def serve (cfg : Config) (p : Pass) (i : SeqId) : Except Fault Pass :=
  let seq := p.sched.heap i
  if p.budget = 0 ∨ cfg.maxNumSeqs ≤ p.output.scheduled.length then
    .ok { p with stillRunning := p.stillRunning ++ [i] }  -- left untouched this step
  else if seq.maxTokens ≤ seq.numPlannedTokens - seq.numPromptTokens then
    -- its reserved tokens already reach the limit
    .ok { p with stillRunning := p.stillRunning ++ [i] }
  else do
    let room ←
      if seq.isPrefill then .ok ⟨true, p.sched, p.stillRunning, p.output⟩
      else do
        let numLeft := seq.maxTokens - (seq.numPlannedTokens - seq.numPromptTokens)
        let draftsToKeep := min p.budget numLeft - 1
        let seq := { seq with specTokenIds := seq.specTokenIds.take draftsToKeep }
        let s := p.sched.setSeq i seq
        let numLookahead := seq.specTokenIds.length + cfg.numLookaheadTokens
        let room ← makeRoom cfg i numLookahead (s.running.length + 1) s p.stillRunning p.output
        if room.granted then do
          let (bm, seq) ← room.sched.blockManager.mayAppend cfg (room.sched.heap i) numLookahead
          .ok { room with sched := { room.sched.setSeq i seq with blockManager := bm } }
        else .ok room
    if room.granted then
      let (s, output, used) := room.sched.scheduleSeq cfg i p.budget room.output
      .ok ⟨s, room.stillRunning ++ [i], output, p.budget - used⟩
    else .ok ⟨room.sched, room.stillRunning, room.output, p.budget⟩

/-- `schedule`'s first loop: running sequences, so decode is never starved. -/
def serveRunning (cfg : Config) : Nat → Pass → Except Fault Pass
  | 0, _ => .error .outOfFuel
  | fuel + 1, p =>
      match p.sched.running with
      | [] => .ok p
      | i :: rest => do
          let p ← serve cfg { p with sched := { p.sched with running := rest } } i
          serveRunning cfg fuel p

/-- `schedule`'s second loop: admit waiting requests while budget lasts. -/
def admitWaiting (cfg : Config) : Nat → Scheduler → SchedulerOutput → Nat →
    Except Fault (Scheduler × SchedulerOutput)
  | 0, _, _, _ => .error .outOfFuel
  | fuel + 1, s, output, budget =>
      match s.waiting with
      | [] => .ok (s, output)
      | i :: rest =>
          if output.scheduled.length < cfg.maxNumSeqs ∧ 0 < budget then
            if s.neverFits cfg i then do
              let s ← { s with waiting := rest }.drop i .capacity
              admitWaiting cfg fuel s { output with dropped := output.dropped ++ [i] } budget
            else do
              let cached ← s.blockManager.canAllocate cfg (s.heap i) cfg.numLookaheadTokens
              match cached with
              | none => .ok (s, output)
              | some numCachedBlocks => do
                  let (s, output, used) ← s.admitHead cfg i numCachedBlocks budget output
                  admitWaiting cfg fuel s output (budget - used)
          else .ok (s, output)

/-- `_with_connector_meta`. -/
def withConnectorMeta (cfg : Config) (s : Scheduler) (output : SchedulerOutput) :
    Scheduler × SchedulerOutput :=
  if cfg.kvTransfer.isSome then
    let (metadata, connector) := s.connector.buildConnectorMeta
    ({ s with connector := connector }, { output with kvConnectorMetadata := some metadata })
  else (s, output)

/-- The part of `schedule` after the whole-prompt pass, which hands on the
requests it dropped. -/
def scheduleMixed (cfg : Config) (s : Scheduler) (dropped : List SeqId) :
    Except Fault (Scheduler × SchedulerOutput) := do
  let running := cfg.schedulingPolicy.byUrgency s.heap s.running
  let p ← serveRunning cfg (running.length + 1)
    ⟨{ s with running := running }, [], { dropped := dropped }, cfg.maxNumBatchedTokens⟩
  let s := { p.sched with running := p.stillRunning }
  let (s, output) ←
    if cfg.enableChunkedPrefill ∧ p.output.preempted = [] then
      admitWaiting cfg (s.waiting.length + 1) s p.output p.budget
    else .ok (s, p.output)
  .ok (s.withConnectorMeta cfg output)

/-- One token budget per step, running sequences first so decode is never
starved. -/
def schedule (cfg : Config) (s : Scheduler) : Except Fault (Scheduler × SchedulerOutput) :=
  if cfg.enableChunkedPrefill then scheduleMixed cfg s []
  else do
    let (s, output) ← scheduleWholePrompts cfg s
    if output.scheduled ≠ [] then .ok (s.withConnectorMeta cfg output)
    else scheduleMixed cfg s output.dropped

/-! ## After a launch -/

/-- One turn of `advance`'s loop: the updated scheduler, and the row if the
sequence samples. -/
def advanceSeq (cfg : Config) (s : Scheduler) (i : SeqId) :
    Except Fault (Scheduler × Option LaunchedRow) := do
  let seq := s.heap i
  let numDraftTokens := seq.specTokenIds.length
  -- optimistic: reconcile takes back the slots of rejected drafts
  let seq := { seq with
    numCachedTokens := seq.numCachedTokens + seq.numScheduledTokens
    numScheduledTokens := 0
    specTokenIds := [] }
  let (bm, seq) ← s.blockManager.hashBlocks cfg seq seq.numCachedTokens
  let s := { s with blockManager := bm }
  if seq.numCachedTokens < seq.numPlannedTokens then
    .ok (s.setSeq i seq, none)  -- prefill or recomputation unfinished
  else
    let seq := { seq with isPrefill := false }.reserveToken (1 + numDraftTokens)
    let seq := { seq with
      specTokenIds := List.replicate cfg.numSpeculativeTokens placeholderTokenId }
    .ok (s.setSeq i seq, some ⟨i, seq.numPreemptions, numDraftTokens⟩)

/-- Update token counts before sampled values reach the host.  Returns sampling
rows in the sampler's order. -/
def advance (cfg : Config) : Scheduler → List SeqId → Except Fault (Scheduler × List LaunchedRow)
  | s, [] => .ok (s, [])
  | s, i :: rest => do
      let (s, row) ← s.advanceSeq cfg i
      let (s, rows) ← advance cfg s rest
      .ok (s, row.toList ++ rows)

/-- The stop checks `reconcile` makes after committing a token. -/
def stopReason (cfg : Config) (seq : Sequence) (tokenId : Token) : Option FinishReason :=
  if (tokenId = cfg.eos ∧ ¬ seq.ignoreEos) ∨ tokenId ∈ seq.stopTokenIds then some .stop
  else if seq.numCompletionTokens = seq.maxTokens then some .length
  else none

/-- `reconcile`'s loop over one row's tokens, up to the first stop. -/
def commitTokens (cfg : Config) : List Token → Sequence →
    Except Fault (Sequence × Option FinishReason)
  | [], seq => .ok (seq, none)
  | tokenId :: rest, seq => do
      let seq ← seq.commitToken cfg tokenId
      let seq := { seq with numNewTokens := seq.numNewTokens + 1 }
      match stopReason cfg seq tokenId with
      | some reason => .ok (seq, some reason)
      | none => commitTokens cfg rest seq

/-- One turn of `reconcile`'s loop, with the drafts from this row on.  Returns
whether the row's result was processed.  Rejected draft slots contain keys for
the wrong tokens, so their reservations are released. -/
def reconcileRow (cfg : Config) (s : Scheduler) (row : LaunchedRow)
    (newTokenIds : List Token) (draftTokenIds : Option (List (List Token))) :
    Except Fault (Scheduler × Bool) :=
  let i := row.seq
  let seq := s.heap i
  if seq.isFinished ∨ seq.numPreemptions ≠ row.numPreemptions then
    .ok (s, false)  -- aborted, finished or requeued since the launch; the token is void
  else do
    let numRejected := row.numDraftTokens - (newTokenIds.length - 1)
    let (seq, reason) ← commitTokens cfg newTokenIds
      { seq with
        numCachedTokens := seq.numCachedTokens - numRejected
        numPendingTokens := seq.numPendingTokens - numRejected
        numNewTokens := 0 }
    match reason with
    | none =>
        -- save these drafts only if no in-flight step is already verifying them
        match draftTokenIds with
        | none => .ok (s.setSeq i seq, true)
        | some drafts =>
            if seq.numPendingTokens ≠ 0 then .ok (s.setSeq i seq, true)
            else
              match drafts with
              | [] => .error .indexError
              | own :: _ => .ok (s.setSeq i { seq with specTokenIds := own }, true)
    | some reason => do
        let s := s.setSeq i seq.dropPending  -- a later step may already have reserved one
        let running ← SchedulingPolicy.remove s.running i
        let s ← { s with running := running }.drop i reason
        let s ← s.free cfg i
        .ok (s, true)

/-- Commit sampled tokens and run stop checks.  Returns sequences whose results
were processed. -/
def reconcile (cfg : Config) : Scheduler → List LaunchedRow → List (List Token) →
    Option (List (List Token)) → Except Fault (Scheduler × List SeqId)
  | s, row :: rows, newTokenIds :: tokenIds, draftTokenIds => do
      let (s, processed) ← s.reconcileRow cfg row newTokenIds draftTokenIds
      let (s, stepped) ← reconcile cfg s rows tokenIds (draftTokenIds.map List.tail)
      .ok (s, if processed then row.seq :: stepped else stepped)
  | s, _, _, _ => .ok (s, [])

/-! ## Reports of the connector -/

/-- Release sent blocks. -/
def releaseSent : Scheduler → List RequestId → Except Fault Scheduler
  | s, [] => .ok s
  | s, requestId :: rest =>
      match s.sending.lookup requestId with
      | none => releaseSent s rest
      | some i => do
          let s ← { s with sending := s.sending.erase requestId }.deallocate i
          releaseSent s rest

/-- One turn of the loop over `finished_recving | failed_recving`. -/
def receive (cfg : Config) (s : Scheduler) (finishedRecving : List RequestId)
    (requestId : RequestId) : Except Fault Scheduler :=
  match s.recving.lookup requestId with
  | none => .error .keyError
  | some i =>
      let s := { s with recving := s.recving.erase requestId }
      if (s.heap i).isFinished then s.deallocate i  -- aborted while its blocks loaded
      else do
        let s ←
          if requestId ∈ finishedRecving then do
            -- the last prompt token is recomputed, so this engine samples the first token itself
            let seq := { s.heap i with numCachedTokens := (s.heap i).numPromptTokens - 1 }
            let (bm, seq) ← s.blockManager.hashBlocks cfg seq seq.numCachedTokens
            .ok { s.setSeq i seq with blockManager := bm }
          else .ok s
        .ok { s.setSeq i { s.heap i with status := .running } with
          running := s.running ++ [i] }

def receiveAll (cfg : Config) (finishedRecving : List RequestId) :
    Scheduler → List RequestId → Except Fault Scheduler
  | s, [] => .ok s
  | s, requestId :: rest => do
      let s ← receive cfg s finishedRecving requestId
      receiveAll cfg finishedRecving s rest

/-- Release sent blocks and resume requests after KV loads.  Failed loads
prefill from the local cached prefix.  `recvOrder` is the order in which Python
iterates over the set `finished_recving | failed_recving`. -/
def updateFromKvConnectorOutput (cfg : Config) (s : Scheduler) (kvOutput : KVConnectorOutput)
    (recvOrder : List RequestId) : Except Fault Scheduler := do
  let s ← s.releaseSent kvOutput.finishedSending
  receiveAll cfg kvOutput.finishedRecving s recvOrder

end Scheduler

end LeanVllm
