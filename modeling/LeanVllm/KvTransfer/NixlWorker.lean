import LeanVllm.KvTransfer.BlockDescs

/-!
# The worker half of the NIXL connector

One rank's worker.  Its transfer thread starts the loads that were queued, share by share,
and polls their reads; as a producer it answers handshakes and counts the notifications
that end each request's reads.  What the agent and the network answer is given from
outside, and what the worker asks of the agent is returned.
-/

namespace LeanVllm

open Collections

/-- A worker, and its NIXL agent. -/
structure WorkerId where
  engineId : String
  rank : Nat
  deriving DecidableEq, Repr

/-- What a peer must match: every rank's heads together. -/
structure CacheLayout where
  blockSize : Nat
  layers : List LayerLayout
  deriving DecidableEq, Repr

/-- What `register_kv_caches` registers, and where a producer rank listens. -/
structure RankSetup where
  tpSize : Nat
  blockSize : Nat
  caches : List KVCache
  numBlocks : Nat
  device : Nat
  kvIp : String
  kvPort : Int
  isProducer : Bool

/-- The text of a notification: the producer's request, and its number of readers. -/
structure Notice where
  requestId : RequestId
  readers : Nat
  deriving DecidableEq, Repr

/-- A producer rank, as its handshake described it. -/
structure Remote where
  engineId : String
  agent : WorkerId
  regions : List Region
  numBlocks : Nat
  device : Nat
  deriving DecidableEq, Repr

/-- The answer to a handshake, with the agent it introduces. -/
structure HandshakeReply where
  engineId : String
  tpSize : Nat
  layout : CacheLayout
  regions : List Region
  numBlocks : Nat
  device : Nat
  agent : WorkerId

/-- One request's reads.  `unnotified` lists the producer ranks that no read or
notification has reached. -/
structure NixlLoad where
  req : ReqToRecv
  started : Rat
  handles : List Nat := []
  unnotified : List Int := []
  numBytes : Nat := 0
  failed : Bool := false

/-- Where the loop of `_start` stands: the shares that are left, with their places. -/
structure Starting where
  requestId : RequestId
  shares : List (Share × Nat)

/-- An entry of `_notified`. -/
structure Notified where
  notifications : Nat
  readers : Nat
  seen : Rat

/-- What a read is seen to be. -/
inductive XferState where
  | proc
  | done
  | err
  deriving DecidableEq, Repr

/-- What the worker asks of its agent. -/
inductive AgentCall where
  | notify (target : WorkerId) (notice : Notice)
  | read (target : WorkerId) (notice : Notice) (rows remoteRows : List Desc) (accepted : Bool)

structure NixlConnectorWorker where
  reqsToSend : Dict RequestId Rat := ∅
  notified : Dict RequestId Notified := ∅
  finished : KVConnectorOutput := {}
  queue : List (RequestId × ReqToRecv) := []
  remotes : Dict (String × Int) Remote := ∅
  loads : Dict RequestId NixlLoad := ∅
  starting : Option Starting := none

namespace RankSetup

variable (elementSize : String → Nat)

def layout (setup : RankSetup) : CacheLayout :=
  ⟨setup.blockSize, setup.caches.map (KVCache.layer setup.tpSize)⟩

def regions (setup : RankSetup) : List Region :=
  registered elementSize setup.caches

/-- `_heads`. -/
def heads (setup : RankSetup) (req : ReqToRecv) : Int :=
  splitHeads (totalHeads setup.tpSize setup.caches) setup.tpSize req.remoteTpSize

/-- How many consumer ranks read a producer rank: its shares, seen from its side. -/
def readers (setup : RankSetup) (req : ReqToRecv) (remoteRank : Int) : Except LoadError Nat :=
  (headShares remoteRank req.remoteTpSize setup.tpSize (setup.heads req)).map List.length

/-- The reply of `_serve`. -/
def serve (setup : RankSetup) (self : WorkerId) : HandshakeReply where
  engineId := self.engineId
  tpSize := setup.tpSize
  layout := setup.layout
  regions := setup.regions elementSize
  numBlocks := setup.numBlocks
  device := setup.device
  agent := self

end RankSetup

namespace NixlConnectorWorker

/-! ## The producer's side -/

/-- `_release`. -/
def release (worker : NixlConnectorWorker) (requestId : RequestId) : NixlConnectorWorker :=
  if requestId ∈ worker.reqsToSend then
    { worker with
      reqsToSend := worker.reqsToSend.erase requestId
      notified := worker.notified.erase requestId
      finished := { worker.finished with
        finishedSending := worker.finished.finishedSending.insert requestId } }
  else worker

/-- `_release_if_read`. -/
def releaseIfRead (worker : NixlConnectorWorker) (requestId : RequestId) : NixlConnectorWorker :=
  match worker.notified.lookup requestId with
  | none => worker
  | some entry =>
      if entry.readers ≤ entry.notifications then worker.release requestId else worker

/-- One turn of the loop of `start_load_kv` over the requests to send. -/
def expose (deadline : Rat) (worker : NixlConnectorWorker) (requestId : RequestId) :
    NixlConnectorWorker :=
  { worker with
    reqsToSend := worker.reqsToSend.insert requestId deadline }.releaseIfRead requestId

/-- `start_load_kv`. -/
def startLoadKv (worker : NixlConnectorWorker) (metadata : KVConnectorMetadata) (deadline : Rat) :
    NixlConnectorWorker :=
  let worker := metadata.reqsToSend.keys.foldl (expose deadline) worker
  { worker with
    queue := worker.queue ++ metadata.reqsToRecv.entries.map fun item => (item.1, item.2) }

/-- A request that nobody read in time is given up. -/
def expire (worker : NixlConnectorWorker) (requestId : RequestId) : NixlConnectorWorker :=
  let worker := worker.release requestId
  { worker with
    finished := { worker.finished with
      expiredSending := worker.finished.expiredSending.insert requestId } }

/-- One turn of the loop of `get_finished` over the notifications: those of a request that
was never handed over are dropped. -/
def forgetNotified (now timeout : Rat) (worker : NixlConnectorWorker)
    (item : Sigma fun _ : RequestId => Notified) : NixlConnectorWorker :=
  if item.1 ∉ worker.reqsToSend ∧ item.2.seen + timeout < now then
    { worker with notified := worker.notified.erase item.1 }
  else worker

/-- `get_finished`. -/
def getFinished (worker : NixlConnectorWorker) (now timeout : Rat) :
    NixlConnectorWorker × KVConnectorOutput :=
  let overdue := worker.reqsToSend.entries.filter fun item => item.2 < now
  let worker := (overdue.map Sigma.fst).foldl expire worker
  let worker := worker.notified.entries.foldl (forgetNotified now timeout) worker
  ({ worker with finished := {} }, worker.finished)

/-- The turn of `_take_notifications` for one message. -/
def takeNotification (worker : NixlConnectorWorker) (notice : Notice) (now : Rat) :
    NixlConnectorWorker :=
  let entry := (worker.notified.lookup notice.requestId).getD ⟨0, notice.readers, now⟩
  { worker with
    notified := worker.notified.insert notice.requestId
      { entry with notifications := entry.notifications + 1 } }.releaseIfRead notice.requestId

/-! ## The consumer's side -/

section Consumer

variable (elementSize : String → Nat) (setup : RankSetup)

/-- `_handshake` with a rank that is not known.  No reply stands for one that does not come
or reports an error. -/
def dial (worker : NixlConnectorWorker) (req : ReqToRecv) (remoteRank : Int) :
    Option HandshakeReply → NixlConnectorWorker × Option Remote
  | none => (worker, none)
  | some reply =>
      if reply.engineId = req.remoteEngineId ∧ (reply.tpSize : Int) = req.remoteTpSize ∧
          reply.layout = setup.layout then
        let remote : Remote :=
          ⟨reply.engineId, reply.agent, reply.regions, reply.numBlocks, reply.device⟩
        ({ worker with
          remotes := worker.remotes.insert (req.remoteHost, req.remotePort + remoteRank) remote },
          some remote)
      else (worker, none)

/-- `_handshake`. -/
def handshake (worker : NixlConnectorWorker) (req : ReqToRecv) (remoteRank : Int)
    (reply : Option HandshakeReply) : NixlConnectorWorker × Option Remote :=
  let key := (req.remoteHost, req.remotePort + remoteRank)
  match worker.remotes.lookup key with
  | none => worker.dial setup req remoteRank reply
  | some remote =>
      if remote.engineId = req.remoteEngineId then (worker, some remote)
      -- restarted since, so ask afresh
      else { worker with remotes := worker.remotes.erase key }.dial setup req remoteRank reply

/-- The notifications of `_fail`, to the ranks no read reached. -/
def substitutes (worker : NixlConnectorWorker) (req : ReqToRecv) (delivered : Int → Bool) :
    List Int → Except LoadError (List AgentCall)
  | [] => .ok []
  | remoteRank :: rest =>
      match worker.remotes.lookup (req.remoteHost, req.remotePort + remoteRank) with
      | none => worker.substitutes req delivered rest
      | some remote =>
          if remote.engineId = req.remoteEngineId then do
            let readers ← setup.readers req remoteRank
            let later ← worker.substitutes req delivered rest
            .ok (if delivered remoteRank then
              .notify remote.agent ⟨req.remoteRequestId, readers⟩ :: later else later)
          else worker.substitutes req delivered rest

/-- `_fail`. -/
def failLoad (worker : NixlConnectorWorker) (load : NixlLoad) (delivered : Int → Bool) :
    Except LoadError (NixlLoad × List AgentCall) := do
  let calls ← worker.substitutes setup load.req delivered load.unnotified
  .ok ({ load with failed := true, unnotified := [] }, calls)

/-- `_fail` on the load of a request, which ends the loop of `_start`. -/
def abandon (worker : NixlConnectorWorker) (requestId : RequestId) (load : NixlLoad)
    (delivered : Int → Bool) : Except LoadError (NixlConnectorWorker × List AgentCall) := do
  let failed ← worker.failLoad setup load delivered
  .ok ({ worker with
    loads := worker.loads.insert requestId failed.1
    starting := none }, failed.2)

/-- `_start` up to its loop, for the load that is next in line. -/
def beginLoad (self : WorkerId) (worker : NixlConnectorWorker) (requestId : RequestId)
    (req : ReqToRecv) (started : Rat) (ready : Bool) (delivered : Int → Bool) :
    Except LoadError (NixlConnectorWorker × List AgentCall) :=
  let load : NixlLoad := { req := req, started := started }
  match headShares self.rank setup.tpSize req.remoteTpSize (setup.heads req) with
  | .error _ => worker.abandon setup requestId load delivered
  | .ok shares =>
      let load := { load with unnotified := shares.map Share.remoteRank }
      if ready then
        .ok ({ worker with
          loads := worker.loads.insert requestId load
          starting := some ⟨requestId, shares.zipIdx⟩ }, [])
      else worker.abandon setup requestId load delivered

/-- What the agent answers while a share is started: whether a notification goes out, and
whether a read can be made and is accepted. -/
structure ShareAnswers where
  reply : Option HandshakeReply
  handle : Nat
  notifies : Bool
  initializes : Bool
  accepts : Bool

/-- What one turn of the loop of `_start` leaves. -/
structure ShareTurn where
  worker : NixlConnectorWorker
  load : NixlLoad
  calls : List AgentCall
  raised : Bool

/-- The body of the loop of `_start`. -/
def startShare (worker : NixlConnectorWorker) (load : NixlLoad) (planned : Share × Nat)
    (answers : ShareAnswers) : ShareTurn :=
  let (share, i) := planned
  let req := load.req
  let (worker, shaken) := worker.handshake setup req share.remoteRank answers.reply
  let raises : ShareTurn := ⟨worker, load, [], true⟩
  let reached := load.unnotified.erase share.remoteRank
  match shaken with
  | none => raises
  | some remote =>
      if req.remoteBlockIds.any fun block => (remote.numBlocks : Int) ≤ block then raises
      else
        match setup.readers req share.remoteRank,
            blockDescs (setup.regions elementSize) (req.localBlockIds.map Int.ofNat)
              share.localHead share.numHeads (i = 0) setup.device with
        | .ok readers, .ok rows =>
            let notice : Notice := ⟨req.remoteRequestId, readers⟩
            if rows = [] then
              if answers.notifies then
                ⟨worker, { load with unnotified := reached }, [.notify remote.agent notice], false⟩
              else raises
            else
              match blockDescs remote.regions req.remoteBlockIds share.remoteHead
                  share.numHeads (i = 0) remote.device with
              | .error _ => raises
              | .ok remoteRows =>
                  if answers.initializes then
                    let load := { load with handles := load.handles ++ [answers.handle] }
                    let call := .read remote.agent notice rows remoteRows answers.accepts
                    if answers.accepts then
                      ⟨worker, { load with
                        numBytes := load.numBytes + (rows.map Desc.length).sum.toNat
                        unnotified := reached }, [call], false⟩
                    else ⟨worker, load, [call], true⟩
                  else raises
        | _, _ => raises

/-- One turn of the loop of `_start`, which goes on with the shares left or fails. -/
def nextShare (worker : NixlConnectorWorker) (answers : ShareAnswers)
    (delivered : Int → Bool) : Except LoadError (Option (NixlConnectorWorker × List AgentCall)) :=
  match worker.starting with
  | none => .ok none
  | some ⟨requestId, []⟩ => .ok (some ({ worker with starting := none }, []))
  | some ⟨requestId, planned :: rest⟩ =>
      match worker.loads.lookup requestId with
      | none => .ok none
      | some load =>
          let turn := worker.startShare elementSize setup load planned answers
          if turn.raised then do
            let failed ← turn.worker.abandon setup requestId turn.load delivered
            .ok (some (failed.1, turn.calls ++ failed.2))
          else
            .ok (some ({ turn.worker with
              loads := turn.worker.loads.insert requestId turn.load
              starting := some ⟨requestId, rest⟩ }, turn.calls))

/-- The loop of `_poll` over the reads of a load, which fails if one of them did. -/
def pollReads (worker : NixlConnectorWorker) (load : NixlLoad) (seen : Nat → XferState)
    (delivered : Int → Bool) : Except LoadError (NixlLoad × List AgentCall) :=
  let pending := load.handles.filter fun handle => seen handle = .proc
  if load.handles.any fun handle => seen handle = .err then
    (worker.failLoad setup load delivered).map fun failed =>
      ({ failed.1 with handles := pending }, failed.2)
  else .ok ({ load with handles := pending }, [])

/-- The report of a load whose reads have all ended. -/
def landed (finished : KVConnectorOutput) (requestId : RequestId) (load : NixlLoad) (now : Rat) :
    KVConnectorOutput :=
  if load.failed then
    { finished with failedRecving := finished.failedRecving.insert requestId }
  else
    { finished with
      finishedRecving := finished.finishedRecving.insert requestId
      recvStats := finished.recvStats.insert requestId ⟨now - load.started, load.numBytes⟩ }

/-- The turn of `_poll` for one load: even a failed one waits for its reads, which write
into blocks the engine would reuse. -/
def pollLoad (worker : NixlConnectorWorker) (requestId : RequestId) (load : NixlLoad)
    (seen : Nat → XferState) (now : Rat) (delivered : Int → Bool) :
    Except LoadError (NixlConnectorWorker × List AgentCall) :=
  (worker.pollReads setup load seen delivered).map fun polled =>
    if polled.1.handles ≠ [] then
      ({ worker with loads := worker.loads.insert requestId polled.1 }, polled.2)
    else
      ({ worker with
        loads := worker.loads.erase requestId
        finished := landed worker.finished requestId polled.1 now }, polled.2)

end Consumer

end NixlConnectorWorker

end LeanVllm
