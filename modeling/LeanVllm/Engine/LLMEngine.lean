import LeanVllm.Engine.ModelRunner

/-!
# The engine

`LLMEngine` with `detokenize=False`.  One `step` reconciles the previous launch
and makes the next one; `async_scheduling` makes the next one first.  Clients
add and abort requests between steps.
-/

namespace LeanVllm

open Collections

/-- What one request produced in one step. -/
structure RequestOutput where
  requestId : RequestId
  tokenIds : List Token
  finished : Bool
  finishReason : Option FinishReason
  kvTransferParams : Option KVTransferParams
  deriving DecidableEq, Repr

/-- The request counters of `Metrics`, `requests_finished` by its label. -/
structure Metrics where
  requestsReceived : Nat := 0
  requestsAborted : Nat := 0
  requestsFinished : Dict (Option FinishReason) Nat := ∅

namespace Metrics

def recordReceived (metrics : Metrics) : Metrics :=
  { metrics with requestsReceived := metrics.requestsReceived + 1 }

/-- `_record_finished`: increment the counter under the reason's label. -/
def recordFinished (metrics : Metrics) (output : RequestOutput) : Metrics :=
  { metrics with
    requestsFinished := metrics.requestsFinished.insert output.finishReason
      ((metrics.requestsFinished.lookup output.finishReason).getD 0 + 1) }

/-- An abort on a stop string is a completion, not a cancel. -/
def recordAborted (metrics : Metrics) (output : RequestOutput) : Metrics :=
  if output.finishReason = some .abort then
    { metrics with requestsAborted := metrics.requestsAborted + 1 }
  else metrics.recordFinished output

/-- The part of `record_step` that counts requests. -/
def recordStep (metrics : Metrics) (outputs : List RequestOutput) : Metrics :=
  outputs.foldl
    (fun metrics output => if output.finished then metrics.recordFinished output else metrics)
    metrics

end Metrics

/-- `_InFlight`: a launched step, waiting for its tokens. -/
structure InFlight where
  rows : List LaunchedRow
  pending : List (List Token)
  deriving DecidableEq, Repr

structure LLMEngine where
  scheduler : Scheduler
  runner : ModelRunner
  metrics : Metrics
  inFlight : Option InFlight

/-- What a step takes from outside the engine: the model's answer for each row,
and the connector's report with the order its loads are visited in. -/
structure StepEnv where
  forward : RowInput → RowSample
  kvOutput : KVConnectorOutput := {}
  recvOrder : List RequestId := []

/-- `check_kv_transfer_params`: why this engine cannot honour a request's
`kv_transfer_params`. -/
def checkKvTransferParams (params : KVTransferParams) (kvTransfer : Option KVTransferConfig) :
    Option String :=
  match kvTransfer with
  | none => some "kv_transfer_params needs an engine started with kv_transfer_config"
  | some kv =>
      if params.doRemoteDecode ∧ ¬ kv.kvRole.isProducer then
        some ("do_remote_decode needs kv_role kv_producer or kv_both, not " ++ kv.kvRole.name)
      else if params.doRemotePrefill ∧ ¬ kv.kvRole.isConsumer then
        some ("do_remote_prefill needs kv_role kv_consumer or kv_both, not " ++ kv.kvRole.name)
      else none

/-- `validate_request`: reject empty prompts, invalid token IDs, excessive
context lengths, and incompatible KV-transfer settings. -/
def validateRequest (cfg : Config) (prompt : List Token) (params : SamplingParams) :
    Except Fault Unit :=
  if prompt = [] then .error (.invalidRequest "the prompt is empty")
  else
    match prompt.find? fun tokenId : Token => ¬ (0 ≤ tokenId ∧ tokenId < cfg.vocabSize) with
    | some bad =>
        .error (.invalidRequest
          s!"token id {bad} is outside the {cfg.vocabSize}-token vocabulary")
    | none =>
        if cfg.maxModelLen ≤ prompt.length then
          .error (.invalidRequest
            s!"prompt is {prompt.length} tokens, leaving no room in the {cfg.maxModelLen}-token context")
        else if cfg.maxModelLen < prompt.length + params.maxTokens then
          .error (.invalidRequest
            s!"prompt ({prompt.length}) plus max_tokens ({params.maxTokens}) is over the {cfg.maxModelLen}-token context")
        else
          match params.kvTransferParams with
          | none => .ok ()
          | some kvParams =>
              match checkKvTransferParams kvParams cfg.kvTransfer with
              | some problem => .error (.invalidRequest problem)
              | none => .ok ()

namespace LLMEngine

def create (cfg : Config) : LLMEngine where
  scheduler := Scheduler.create cfg
  runner := {}
  metrics := {}
  inFlight := none

/-- `add_request`.  A refused request leaves the engine as it was, except that
a `Sequence` built for it has used up a `seq_id`. -/
def addRequest (cfg : Config) (engine : LLMEngine) (prompt : List Token)
    (params : SamplingParams) (requestId : Option RequestId) (arrivalTime : Nat) :
    LLMEngine × Except Fault RequestId :=
  match validateRequest cfg prompt params with
  | .error fault => (engine, .error fault)
  | .ok () =>
      let i := engine.scheduler.counter
      let requestId := requestId.getD s!"req-{i}"
      match Sequence.create cfg prompt params requestId arrivalTime with
      | .error fault => (engine, .error fault)
      | .ok seq =>
          let s := { engine.scheduler.setSeq i seq with counter := i + 1 }
          match s.add cfg i with
          | .error fault => ({ engine with scheduler := s }, .error fault)
          | .ok s =>
              ({ engine with scheduler := s, metrics := engine.metrics.recordReceived },
                .ok requestId)

/-- `_output`. -/
def output (s : Scheduler) (i : SeqId) : RequestOutput :=
  let seq := s.heap i
  { requestId := seq.requestId
    tokenIds := seq.tokenIds.drop (seq.tokenIds.length - seq.numNewTokens)
    finished := seq.isFinished
    finishReason := seq.finishReason
    kvTransferParams := seq.kvTransferResult }

/-- `_dropped`: final output for a dropped or aborted request, with no new
tokens. -/
def dropped (s : Scheduler) (i : SeqId) : RequestOutput :=
  let seq := s.heap i
  { requestId := seq.requestId
    tokenIds := []
    finished := true
    finishReason := seq.finishReason
    kvTransferParams := none }

/-- `abort_request`.  The reason is "stop" when the server ends it on a stop
string, which counts as a finish. -/
def abortRequest (cfg : Config) (engine : LLMEngine) (requestId : RequestId)
    (reason : FinishReason) : Except Fault (LLMEngine × Bool) := do
  let seq := engine.scheduler.seqs.lookup requestId
  let (s, aborted) ← engine.scheduler.abort cfg requestId reason
  let engine := { engine with scheduler := s }
  if aborted then
    match seq with
    | none => .error (.assertion "seq is not None")
    | some i =>
        .ok ({ engine with metrics := engine.metrics.recordAborted (dropped s i) }, true)
  else .ok (engine, false)

/-- `_launch`: schedule, take the connector's report, and run what was
scheduled. -/
def launch (cfg : Config) (engine : LLMEngine) (env : StepEnv) :
    Except Fault (LLMEngine × SchedulerOutput) := do
  let (s, output) ← engine.scheduler.schedule cfg
  let s ←
    if output.kvConnectorMetadata.isSome then
      s.updateFromKvConnectorOutput cfg env.kvOutput env.recvOrder
    else .ok s
  if output.scheduled = [] then .ok ({ engine with scheduler := s }, output)
  else
    let (runner, pending) ← engine.runner.run cfg s.heap env.forward output.scheduled
    let (s, rows) ← s.advance cfg output.scheduled
    .ok ({ engine with scheduler := s, runner := runner, inFlight := some ⟨rows, pending⟩ },
      output)

/-- `_reconcile`. -/
def reconcile (cfg : Config) (engine : LLMEngine) (draining : Option InFlight) :
    Except Fault (LLMEngine × List SeqId) :=
  match draining with
  | none => .ok (engine, [])
  | some step => do
      let (tokenIds, draftTokenIds) :=
        if cfg.numSpeculativeTokens = 0 then (step.pending, none)
        else
          let (tokenIds, drafts) :=
            ModelRunner.splitSampled step.pending cfg.numSpeculativeTokens
          (tokenIds, some drafts)
      let (s, stepped) ← engine.scheduler.reconcile cfg step.rows tokenIds draftTokenIds
      .ok ({ engine with scheduler := s }, stepped)

/-- `step`: process the previous step's results and start the next;
`async_scheduling` starts first to overlap them.  Each output is paired with
the sequence it is about. -/
def step (cfg : Config) (engine : LLMEngine) (env : StepEnv) :
    Except Fault (LLMEngine × List (SeqId × RequestOutput)) := do
  let draining := engine.inFlight
  let engine := { engine with inFlight := none }
  let (engine, launched, stepped) ←
    if cfg.asyncScheduling then do
      let (engine, launched) ← engine.launch cfg env
      let (engine, stepped) ← engine.reconcile cfg draining
      .ok (engine, launched, stepped)
    else do
      let (engine, stepped) ← engine.reconcile cfg draining
      let (engine, launched) ← engine.launch cfg env
      .ok (engine, launched, stepped)
  -- a request dropped right after reconcile already has its final output
  let outputs :=
    (stepped.map fun i => (i, output engine.scheduler i)) ++
      (launched.dropped.filter (· ∉ stepped)).map fun i => (i, dropped engine.scheduler i)
  .ok ({ engine with metrics := engine.metrics.recordStep (outputs.map Prod.snd) }, outputs)

def isFinished (engine : LLMEngine) : Bool :=
  engine.inFlight.isNone && engine.scheduler.isFinished

end LLMEngine

end LeanVllm
