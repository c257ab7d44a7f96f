import LeanVllm.Engine.OutputProcessor

/-!
# The transport between the client and the engine core

`AsyncMPClient` moves requests in and outputs out over two channels, and resolves
the futures of requests waiting for admission.  Messages carry request ids only:
the call a message is about is recorded beside it and nothing reads it.
-/

namespace LeanVllm

open Collections Transition

/-- What the client sends. -/
inductive CoreInput where
  | add (call : CallId) (requestId : RequestId) (prompt : List Token) (params : SamplingParams)
  | abort (requestId : RequestId) (reason : FinishReason)
  | shutdown

/-- What the core sends. -/
inductive CoreOutput where
  | added (call : CallId) (requestId : RequestId) (error : Option Fault)
  | outputs (outputs : List (CallId × RequestOutput))
  | dead (error : String)
  deriving DecidableEq, Repr

/-- The future of an admission.  A verdict records the call it is about. -/
inductive AddFuture where
  | pending
  | verdict (error : Option Fault) (judged : CallId)
  | exception (error : EngineDeadError)
  | cancelled
  deriving DecidableEq, Repr

/-- `_dead_error`. -/
def EngineDeadError.coreDied (error : String) : EngineDeadError where
  message := "the engine core died: " ++ error
  cause := some error

def EngineDeadError.shuttingDown : EngineDeadError where
  message := "the server is shutting down"
  cause := none

structure AsyncMPClient where
  error : Option String := none
  stopped : Bool := false
  shutDown : Bool := false
  adding : Dict RequestId CallId := ∅
  futures : CallId → Option AddFuture := fun _ => none
  outputs : List (Except EngineDeadError (List (CallId × RequestOutput))) := []
  -- the output reader runs, and the sentinel of the core's process is watched
  reading : Bool := true
  watching : Bool := true
  -- a send finds a peer to queue for
  connected : Bool := true
  input : Channel CoreInput := {}

namespace AsyncMPClient

def setFuture (client : AsyncMPClient) (call : CallId) (future : AddFuture) : AsyncMPClient :=
  { client with futures := Function.update client.futures call (some future) }

/-- `_fail_pending`. -/
def failPending (client : AsyncMPClient) (error : EngineDeadError) : AsyncMPClient :=
  { client with
    futures := fun call =>
      if call ∈ client.adding.values ∧ client.futures call = some .pending then
        some (.exception error)
      else client.futures call
    adding := ∅ }

/-- `_die`. -/
def die (client : AsyncMPClient) (error : String) : AsyncMPClient :=
  if client.error.isSome then client
  else
    let client := { client with error := some error }.failPending (.coreDied error)
    { client with outputs := client.outputs ++ [.error (.coreDied error)] }

theorem die_of_alive {client : AsyncMPClient} (alive : client.error = none) (error : String) :
    client.die error =
      { client.failPending (.coreDied error) with
        error := some error
        outputs := client.outputs ++ [.error (.coreDied error)] } := by
  simp [die, alive, failPending]

/-- The error of a send that finds no peer. -/
def notConnected : String :=
  "RuntimeError('the engine core is not connected')"

/-- `_send`: with no peer to queue for, the core is gone. -/
def send (client : AsyncMPClient) (message : CoreInput) : AsyncMPClient :=
  if client.connected then { client with input := client.input.send message }
  else client.die notConnected

/-- `add_request_async` up to its `await`.  An error raised before that stands in the
future, where it is raised at once. -/
def addRequestAsync (client : AsyncMPClient) (call : CallId) (requestId : RequestId)
    (prompt : List Token) (params : SamplingParams) : AsyncMPClient :=
  if client.stopped then client.setFuture call (.exception .shuttingDown)
  else
    match client.error with
    | some error => client.setFuture call (.exception (.coreDied error))
    | none =>
        let client := { client with adding := client.adding.insert requestId call }
        (client.setFuture call .pending).send (.add call requestId prompt params)

/-- `abort_request`: after a death the blocks went with the engine. -/
def abortRequest (client : AsyncMPClient) (requestId : RequestId) (reason : FinishReason) :
    AsyncMPClient :=
  if client.error.isSome ∨ client.stopped then client
  else client.send (.abort requestId reason)

/-- `_adding.pop`. -/
def forgetAdding (client : AsyncMPClient) (requestId : RequestId) : AsyncMPClient :=
  { client with adding := client.adding.erase requestId }

/-- What `_handle` does with an admission: a future that is done has a caller that
gave up, and sent an abort. -/
def handleAdded (client : AsyncMPClient) (judged : CallId) (requestId : RequestId)
    (error : Option Fault) : AsyncMPClient :=
  match client.adding.lookup requestId with
  | none => client
  | some call =>
      if client.futures call = some .pending then
        (client.forgetAdding requestId).setFuture call (.verdict error judged)
      else client.forgetAdding requestId

/-- `_handle`, with the death notification ending the reader. -/
def handle (client : AsyncMPClient) : CoreOutput → AsyncMPClient
  | .outputs outputs => { client with outputs := client.outputs ++ [.ok outputs] }
  | .added judged requestId error => client.handleAdded judged requestId error
  | .dead error => { client.die error with reading := false }

/-- The end of `_read_outputs` on an exception of its own. -/
def readerFails (client : AsyncMPClient) (error : String) : AsyncMPClient :=
  let client := { client with reading := false }
  if client.stopped then client else client.die error

/-- `_on_process_exit`. -/
def onProcessExit (client : AsyncMPClient) (exitcode : Int) : AsyncMPClient :=
  let client := { client with watching := false }
  if client.stopped then client
  else client.die s!"RuntimeError('the engine core process exited with code {exitcode}')"

/-- `shutdown` up to the wait for the core's process. -/
def beginShutdown (client : AsyncMPClient) : AsyncMPClient :=
  { client with
    stopped := true
    watching := false
    input := client.input.send .shutdown }

/-- The rest of `shutdown`. -/
def endShutdown (client : AsyncMPClient) : AsyncMPClient :=
  { client with reading := false, shutDown := true }.failPending .shuttingDown

end AsyncMPClient

end LeanVllm
