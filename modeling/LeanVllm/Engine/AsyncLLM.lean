import LeanVllm.Engine.EngineCore
import LeanVllm.Engine.EngineRuns

/-!
# The server's engine

`AsyncLLM` is the front end of an engine core.  Its coroutines share one event
loop, so an event is what runs between two suspensions: a call of `add_request` up
to its `await`, the resumption of a task, the handling of one message.  The core
moves on its own.
-/

namespace LeanVllm

open Collections Transition

/-- Where a task that awaits `add_request` stands. -/
inductive AddTask where
  | waiting (cancelled : Bool)
  | returned
  | refused (fault : Fault)
  | dead (error : EngineDeadError)
  | cancelled
  deriving DecidableEq, Repr

/-- Where the generator a call returned stands. -/
inductive GeneratorState where
  | created
  | started
  | closed
  deriving DecidableEq, Repr

/-- One call of `add_request` that made a stream, and its reader. -/
structure AddCall where
  requestId : RequestId
  task : AddTask
  generator : GeneratorState
  numRead : Nat
  deriving DecidableEq, Repr

structure AsyncLLM (δ : Type) where
  engineCore : AsyncMPClient := {}
  outputProcessor : OutputProcessor δ := {}
  error : Option String := none
  death : String := ""
  stopped : Bool := false
  -- the output handler runs, and the streams are not shut down
  handling : Bool := true
  shutDown : Bool := false
  -- the streams: every item put in one, and the calls that made them
  puts : List (CallId × StreamItem) := []
  calls : CallId → AddCall := fun _ => ⟨"", .cancelled, .closed, 0⟩
  numCalls : Nat := 0

namespace AsyncLLM

variable {δ : Type}

/-- Everything ever put in a stream. -/
def items (llm : AsyncLLM δ) (call : CallId) : List StreamItem :=
  tagged call llm.puts

def setCall (llm : AsyncLLM δ) (call : CallId) (value : AddCall) : AsyncLLM δ :=
  { llm with calls := Function.update llm.calls call value }

/-- The output processor's turn, with the items it puts in streams. -/
def apply (llm : AsyncLLM δ) (effect : OutputProcessor δ × List (CallId × StreamItem)) :
    AsyncLLM δ :=
  { llm with outputProcessor := effect.1, puts := llm.puts ++ effect.2 }

/-- `_dead_error`. -/
def deadError (llm : AsyncLLM δ) : EngineDeadError where
  message := llm.death
  cause := llm.error

/-- `abort`. -/
def abort (llm : AsyncLLM δ) (requestId : RequestId) (reason : FinishReason) : AsyncLLM δ :=
  let llm := llm.apply (llm.outputProcessor.abortRequest requestId)
  if llm.error.isSome ∨ llm.stopped then llm
  else { llm with engineCore := llm.engineCore.abortRequest requestId reason }

/-- What `add_request` raises before it makes a stream. -/
def checkAdd (llm : AsyncLLM δ) (requestId : RequestId) : Option (Fault ⊕ EngineDeadError) :=
  if requestId ∈ llm.outputProcessor.requestStates then
    -- the scheduler would refuse it too, but only after this stream replaced the live one
    some (.inl (.duplicateRequestId requestId))
  else if llm.stopped then some (.inr .shuttingDown)
  else if llm.error.isSome then some (.inr llm.deadError)
  else none

/-- `add_request` from where its `await` resumes. -/
def resumeAdd (llm : AsyncLLM δ) (call : CallId) : Option (AsyncLLM δ) :=
  let record := llm.calls call
  match record.task with
  | .waiting cancelled =>
      if cancelled then
        -- the core may have taken it before the cancel
        let llm := { llm with engineCore := llm.engineCore.forgetAdding record.requestId }
        some ((llm.abort record.requestId .abort).setCall call { record with task := .cancelled })
      else
        match llm.engineCore.futures call with
        | some (.verdict none _) => some (llm.setCall call { record with task := .returned })
        | some (.verdict (some fault) _) =>
            some ((llm.apply (llm.outputProcessor.abortRequest record.requestId)).setCall call
              { record with task := .refused fault })
        | some (.exception error) =>
            let llm := { llm with engineCore := llm.engineCore.forgetAdding record.requestId }
            some ((llm.apply (llm.outputProcessor.abortRequest record.requestId)).setCall call
              { record with task := .dead error })
        | _ => none
  | _ => none

/-- `add_request` up to its `await`, with the stream ready before the add is sent. -/
def sendAdd (tokenizer : Option (Tokenizer δ)) (llm : AsyncLLM δ) (requestId : RequestId)
    (tokenIds : List Token) (params : SamplingParams) (skipSpecialTokens : Bool) : AsyncLLM δ :=
  { llm with
    outputProcessor := llm.outputProcessor.addRequest tokenizer requestId tokenIds
      skipSpecialTokens (some llm.numCalls)
    engineCore := llm.engineCore.addRequestAsync llm.numCalls requestId tokenIds params
    calls := Function.update llm.calls llm.numCalls
      ⟨requestId, .waiting false, .created, 0⟩
    numCalls := llm.numCalls + 1 }

/-- `add_request` up to where it suspends: a future that is done does not suspend it. -/
def addRequest (tokenizer : Option (Tokenizer δ)) (llm : AsyncLLM δ) (requestId : RequestId)
    (tokenIds : List Token) (params : SamplingParams) (skipSpecialTokens : Bool) : AsyncLLM δ :=
  match llm.checkAdd requestId with
  | some _ => llm
  | none =>
      let sent := llm.sendAdd tokenizer requestId tokenIds params skipSpecialTokens
      (sent.resumeAdd llm.numCalls).getD sent

/-- A cancel of the task: it cancels the future awaited, or the resumption of a task
whose future is done. -/
def cancelAdd (llm : AsyncLLM δ) (call : CallId) : Option (AsyncLLM δ) :=
  let record := llm.calls call
  match record.task with
  | .waiting _ =>
      let llm := llm.setCall call { record with task := .waiting true }
      if llm.engineCore.futures call = some .pending then
        some { llm with engineCore := llm.engineCore.setFuture call .cancelled }
      else some llm
  | _ => none

/-- The `finally` of `_generate`: a finished request's id may already belong to a
newer stream. -/
def cleanUp (llm : AsyncLLM δ) (call : CallId) : AsyncLLM δ :=
  let requestId := (llm.calls call).requestId
  match llm.outputProcessor.requestStates.lookup requestId with
  | none => llm
  | some state => if state.stream = some call then llm.abort requestId .abort else llm

/-- The first iteration of a generator. -/
def startGenerator (llm : AsyncLLM δ) (call : CallId) : Option (AsyncLLM δ) :=
  let record := llm.calls call
  if record.task = .returned ∧ record.generator = .created then
    some (llm.setCall call { record with generator := .started })
  else none

/-- The reader takes the next item of its stream. -/
def readItem (llm : AsyncLLM δ) (call : CallId) : Option (AsyncLLM δ) :=
  let record := llm.calls call
  if record.task = .returned ∧ record.generator = .started then
    match (llm.items call)[record.numRead]? with
    | none => none
    | some item =>
        if item.terminal then
          some ((llm.setCall call
            { record with numRead := record.numRead + 1, generator := .closed }).cleanUp call)
        else some (llm.setCall call { record with numRead := record.numRead + 1 })
  else none

/-- The generator is closed, or the task that iterates it cancelled.  A generator that
never started runs no `finally`. -/
def closeGenerator (llm : AsyncLLM δ) (call : CallId) : Option (AsyncLLM δ) :=
  let record := llm.calls call
  if record.task = .returned then
    match record.generator with
    | .created => some (llm.setCall call { record with generator := .closed })
    | .started => some ((llm.setCall call { record with generator := .closed }).cleanUp call)
    | .closed => none
  else none

/-- `_die`: live streams get the error. -/
def die (llm : AsyncLLM δ) (dead : EngineDeadError) : AsyncLLM δ :=
  if llm.error.isSome ∨ llm.stopped then llm
  else
    let llm := { llm with error := some (dead.cause.getD dead.message), death := dead.message }
    llm.apply (llm.outputProcessor.failAll llm.deadError)

/-- One turn of `_handle_outputs`. -/
def handleOutputs (tokenizer : Option (Tokenizer δ)) (llm : AsyncLLM δ) : Option (AsyncLLM δ) :=
  if llm.handling then
    match llm.engineCore.outputs with
    | [] => none
    | item :: rest =>
        let llm := { llm with engineCore := { llm.engineCore with outputs := rest } }
        match item with
        | .ok outputs =>
            let processed := llm.outputProcessor.processOutputs tokenizer outputs
            some (llm.apply (processed.1, processed.2.1))
        | .error dead => some { llm.die dead with handling := false }
  else none

/-- `stop` up to the wait for the core's process. -/
def beginStop (llm : AsyncLLM δ) : Option (AsyncLLM δ) :=
  if llm.stopped then none
  else some { llm with stopped := true, engineCore := llm.engineCore.beginShutdown }

/-- `_shut_down_streams`. -/
def shutDownStreams (llm : AsyncLLM δ) : AsyncLLM δ :=
  { llm.apply (llm.outputProcessor.failAll .shuttingDown) with handling := false, shutDown := true }

end AsyncLLM

/-- The server's engine and its core. -/
structure Service (δ : Type) where
  llm : AsyncLLM δ := {}
  core : EngineCore

namespace Service

variable {δ : Type}

/-- What the clients, the event loop, the core and its process do.  `endShutdown` and
`shutDownStreams` are the rest of a `stop`, which another thread may have called. -/
inductive Event where
  | addRequest (requestId : RequestId) (tokenIds : List Token) (params : SamplingParams)
      (skipSpecialTokens : Bool)
  | cancelAdd (call : CallId)
  | resumeAdd (call : CallId)
  | startGenerator (call : CallId)
  | readItem (call : CallId)
  | closeGenerator (call : CallId)
  | abort (requestId : RequestId) (reason : FinishReason)
  | receive
  | handleOutputs
  | readerFails (error : String)
  | processExit (exitcode : Int)
  | disconnect
  | stop
  | endShutdown
  | shutDownStreams
  | coreHandle (arrivalTime : Nat)
  | coreStep (env : StepEnv)
  | coreRaises (error : String)
  | coreExits

def create (cfg : Config) : Service δ where
  core := { engine := .create cfg }

def withLlm (service : Service δ) (llm : AsyncLLM δ) : Service δ :=
  { service with llm := llm }

def withClient (service : Service δ) (client : AsyncMPClient) : Service δ :=
  { service with llm := { service.llm with engineCore := client } }

/-- What an event leads to, if it can happen. -/
def next (cfg : Config) (tokenizer : Option (Tokenizer δ)) (service : Service δ) :
    Event → Option (Service δ)
  | .addRequest requestId tokenIds params skipSpecialTokens =>
      some (service.withLlm
        (service.llm.addRequest tokenizer requestId tokenIds params skipSpecialTokens))
  | .cancelAdd call => (service.llm.cancelAdd call).map service.withLlm
  | .resumeAdd call => (service.llm.resumeAdd call).map service.withLlm
  | .startGenerator call => (service.llm.startGenerator call).map service.withLlm
  | .readItem call => (service.llm.readItem call).map service.withLlm
  | .closeGenerator call => (service.llm.closeGenerator call).map service.withLlm
  | .abort requestId reason => some (service.withLlm (service.llm.abort requestId reason))
  | .receive =>
      match service.core.output.pending with
      | [] => none
      | message :: _ =>
          if service.llm.engineCore.reading then
            some { service.withClient (service.llm.engineCore.handle message) with
              core := { service.core with output := service.core.output.take } }
          else none
  | .handleOutputs => (service.llm.handleOutputs tokenizer).map service.withLlm
  | .readerFails error =>
      if service.llm.engineCore.reading then
        some (service.withClient (service.llm.engineCore.readerFails error))
      else none
  | .processExit exitcode =>
      if service.llm.engineCore.watching ∧ service.core.alive = false then
        some (service.withClient (service.llm.engineCore.onProcessExit exitcode))
      else none
  | .disconnect =>
      if service.core.alive then none
      else some (service.withClient { service.llm.engineCore with connected := false })
  | .stop => service.llm.beginStop.map service.withLlm
  | .endShutdown =>
      if service.llm.engineCore.stopped ∧ service.core.alive = false then
        some (service.withClient service.llm.engineCore.endShutdown)
      else none
  | .shutDownStreams =>
      if service.llm.engineCore.shutDown then
        some (service.withLlm service.llm.shutDownStreams)
      else none
  | .coreHandle arrivalTime =>
      match service.llm.engineCore.input.pending with
      | [] => none
      | message :: _ =>
          if service.core.alive ∧ service.core.running then
            some { service.withClient { service.llm.engineCore with
                input := service.llm.engineCore.input.take } with
              core := service.core.handle cfg arrivalTime message }
          else none
  | .coreStep env =>
      if service.core.alive ∧ service.core.running ∧ ¬ service.core.engine.isFinished then
        some { service with core := service.core.step cfg env }
      else none
  | .coreRaises error =>
      if service.core.alive then some { service with core := service.core.raised error }
      else none
  | .coreExits =>
      if service.core.alive then some { service with core := { service.core with alive := false } }
      else none

end Service

end LeanVllm
