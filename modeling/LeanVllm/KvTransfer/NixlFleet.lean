import LeanVllm.KvTransfer.NixlWorker
import LeanVllm.Transition.Runs

/-!
# Workers and their agents

All the workers of all the engines, with the reads they posted and the notifications under
way.  A read is one-sided: it ends by itself, and only then is its notification delivered.
Engine threads, transfer threads and the network take turns in any order.
-/

namespace LeanVllm

open Collections Transition

/-- Where a read stands.  One that broke may still notify; one that was refused, or that
notified after it broke, is spent. -/
inductive ReadStatus where
  | running
  | done
  | broken
  | spent
  deriving DecidableEq, Repr

/-- A read that was posted. -/
structure Read where
  reader : WorkerId
  requestId : RequestId
  target : WorkerId
  notice : Notice
  rows : List Desc
  remoteRows : List Desc
  status : ReadStatus
  deriving DecidableEq, Repr

/-- The workers and what is under way between them.  A read's handle is its place in
`reads`.  `notices` and `reports` record every notification that was delivered, with its
sender, and every answer of `get_finished`; nothing reads them. -/
structure Fleet where
  workers : WorkerId → NixlConnectorWorker := fun _ => {}
  reads : List Read := []
  inbox : WorkerId → List (WorkerId × Notice) := fun _ => []
  notices : List (WorkerId × WorkerId × Notice) := []
  reports : List (WorkerId × KVConnectorOutput) := []

namespace Fleet

variable (elementSize : String → Nat) (setups : WorkerId → RankSetup)

def setWorker (fleet : Fleet) (self : WorkerId) (worker : NixlConnectorWorker) : Fleet :=
  { fleet with workers := Function.update fleet.workers self worker }

/-- A notification arrives. -/
def deliver (fleet : Fleet) (sender target : WorkerId) (notice : Notice) : Fleet :=
  { fleet with
    inbox := Function.update fleet.inbox target (fleet.inbox target ++ [(sender, notice)])
    notices := fleet.notices ++ [(sender, target, notice)] }

/-- What a worker asked of its agent, for a request it loads. -/
def call (self : WorkerId) (requestId : RequestId) (fleet : Fleet) : AgentCall → Fleet
  | .notify target notice => fleet.deliver self target notice
  | .read target notice rows remoteRows accepted =>
      { fleet with
        reads := fleet.reads ++ [⟨self, requestId, target, notice, rows, remoteRows,
          if accepted then .running else .spent⟩] }

/-- A worker's turn on its transfer thread. -/
def turn (fleet : Fleet) (self : WorkerId) (requestId : RequestId)
    (result : NixlConnectorWorker × List AgentCall) : Fleet :=
  result.2.foldl (call self requestId) (fleet.setWorker self result.1)

def setRead (fleet : Fleet) (handle : Nat) (read : Read) : Fleet :=
  { fleet with reads := fleet.reads.set handle read }

/-- What engine threads, transfer threads and the network do.  `delivered` tells which
substitute notifications of a failing load go out. -/
inductive Event where
  | startLoadKv (self : WorkerId) (metadata : KVConnectorMetadata) (deadline : Rat)
  | getFinished (self : WorkerId) (now timeout : Rat)
  | beginLoad (self : WorkerId) (started : Rat) (ready : Bool) (delivered : Int → Bool)
  | startShare (self : WorkerId) (peer : Option WorkerId) (notifies initializes accepts : Bool)
      (delivered : Int → Bool)
  | poll (self : WorkerId) (requestId : RequestId) (seen : Nat → XferState) (now : Rat)
      (delivered : Int → Bool)
  | takeNotification (self : WorkerId) (index : Nat) (now : Rat)
  | complete (handle : Nat)
  | breaks (handle : Nat)
  | notifiesLate (handle : Nat)

/-- What an event leads to, if it can happen.  The transfer thread polls between loads. -/
def next (fleet : Fleet) : Event → Option Fleet
  | .startLoadKv self metadata deadline =>
      some (fleet.setWorker self ((fleet.workers self).startLoadKv metadata deadline))
  | .getFinished self now timeout =>
      let reported := (fleet.workers self).getFinished now timeout
      some { fleet.setWorker self reported.1 with
        reports := fleet.reports ++ [(self, reported.2)] }
  | .beginLoad self started ready delivered =>
      let worker := fleet.workers self
      match worker.starting, worker.queue with
      | none, (requestId, req) :: rest =>
          ({ worker with queue := rest }.beginLoad (setups self) self requestId req started ready
            delivered).toOption.map (fleet.turn self requestId)
      | _, _ => none
  | .startShare self peer notifies initializes accepts delivered =>
      let worker := fleet.workers self
      let reply := peer.map fun peer => (setups peer).serve elementSize peer
      match worker.starting with
      | none => none
      | some starting =>
          (worker.nextShare elementSize (setups self)
            ⟨reply, fleet.reads.length, notifies, initializes, accepts⟩
            delivered).toOption.join.map (fleet.turn self starting.requestId)
  | .poll self requestId seen now delivered =>
      let worker := fleet.workers self
      match worker.starting, worker.loads.lookup requestId with
      | none, some load =>
          (worker.pollLoad (setups self) requestId load seen now
            delivered).toOption.map (fleet.turn self requestId)
      | _, _ => none
  | .takeNotification self index now =>
      match (fleet.inbox self)[index]? with
      | none => none
      | some (_, notice) =>
          some { fleet.setWorker self ((fleet.workers self).takeNotification notice now) with
            inbox := Function.update fleet.inbox self ((fleet.inbox self).eraseIdx index) }
  | .complete handle =>
      match fleet.reads[handle]? with
      | none => none
      | some read =>
          if read.status = .running then
            some ((fleet.setRead handle { read with status := .done }).deliver read.reader
              read.target read.notice)
          else none
  | .breaks handle =>
      match fleet.reads[handle]? with
      | none => none
      | some read =>
          if read.status = .running then
            some (fleet.setRead handle { read with status := .broken })
          else none
  | .notifiesLate handle =>
      match fleet.reads[handle]? with
      | none => none
      | some read =>
          if read.status = .broken then
            some ((fleet.setRead handle { read with status := .spent }).deliver read.reader
              read.target read.notice)
          else none

/-- A read may be seen in progress after it ended, and is otherwise seen as it is. -/
def Seen (fleet : Fleet) (seen : Nat → XferState) : Prop :=
  ∀ (handle : Nat) (read : Read), fleet.reads[handle]? = some read →
    (seen handle = .done → read.status = .done) ∧
      (seen handle = .err → read.status = .broken ∨ read.status = .spent)

/-- A handshake is answered by a worker that listens at the address it dials. -/
def Dials (fleet : Fleet) (self peer : WorkerId) : Prop :=
  ∀ (requestId : RequestId) (share : Share) (i : Nat) (rest : List (Share × Nat)) (load : NixlLoad),
    (fleet.workers self).starting = some ⟨requestId, (share, i) :: rest⟩ →
      (fleet.workers self).loads.lookup requestId = some load →
        (setups peer).isProducer = true ∧ (setups peer).kvIp = load.req.remoteHost ∧
          (setups peer).kvPort + peer.rank = load.req.remotePort + share.remoteRank

/-- What the agents and the network promise. -/
def Event.Valid (fleet : Fleet) : Event → Prop
  | .startShare self peer _ _ _ _ => ∀ answering ∈ peer, fleet.Dials setups self answering
  | .poll _ _ seen _ _ => fleet.Seen seen
  | _ => True

/-- One event of a run. -/
structure Next (before : Fleet) (event : Event) (after : Fleet) : Prop where
  valid : event.Valid setups before
  next : before.next elementSize setups event = some after

end Fleet

end LeanVllm
