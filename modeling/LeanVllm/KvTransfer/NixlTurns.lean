import LeanVllm.KvTransfer.NixlFleet

/-!
# Turns of a transfer thread

What each turn of a consumer's transfer thread does, said once.  Every read and every
notification goes to a producer rank that told the consumer who it is, and takes its rank
off the list of those that nothing reached.
-/

namespace LeanVllm

open Collections Transition

section Targets

variable (elementSize : String → Nat) (setups : WorkerId → RankSetup)

/-- What a worker remembers of a producer rank is what that rank answered. -/
structure Remote.Genuine (reader : WorkerId) (key : String × Int) (remote : Remote) : Prop where
  engine : remote.engineId = remote.agent.engineId
  ip : (setups remote.agent).kvIp = key.1
  port : (setups remote.agent).kvPort + remote.agent.rank = key.2
  layout : (setups remote.agent).layout = (setups reader).layout
  regions : remote.regions = (setups remote.agent).regions elementSize
  numBlocks : remote.numBlocks = (setups remote.agent).numBlocks
  device : remote.device = (setups remote.agent).device

/-- A notification of a load goes to a producer rank it reads from, and tells it how many
readers it has. -/
structure Reaches (reader : WorkerId) (req : ReqToRecv) (remoteRank : Int) (target : WorkerId)
    (notice : Notice) : Prop where
  engine : target.engineId = req.remoteEngineId
  ip : (setups target).kvIp = req.remoteHost
  port : (setups target).kvPort + target.rank = req.remotePort + remoteRank
  layout : (setups target).layout = (setups reader).layout
  request : notice.requestId = req.remoteRequestId
  readers : (setups reader).readers req remoteRank = .ok notice.readers

/-- The rows a share is read into. -/
def localRows (reader : WorkerId) (req : ReqToRecv) (planned : Share × Nat) :
    Except LoadError (List Desc) :=
  blockDescs ((setups reader).regions elementSize) (req.localBlockIds.map Int.ofNat)
    planned.1.localHead planned.1.numHeads (planned.2 = 0) (setups reader).device

/-- The rows of the producer rank a share is read from. -/
def remoteRowsOf (target : WorkerId) (req : ReqToRecv) (planned : Share × Nat) :
    Except LoadError (List Desc) :=
  blockDescs ((setups target).regions elementSize) req.remoteBlockIds planned.1.remoteHead
    planned.1.numHeads (planned.2 = 0) (setups target).device

/-- A share is read from a producer rank. -/
structure ReadsShare (reader : WorkerId) (req : ReqToRecv) (planned : Share × Nat)
    (target : WorkerId) (notice : Notice) (rows remoteRows : List Desc) : Prop where
  reaches : Reaches setups reader req planned.1.remoteRank target notice
  inside : ∀ block ∈ req.remoteBlockIds, block < (setups target).numBlocks
  rows : localRows elementSize setups reader req planned = .ok rows
  remoteRows : remoteRowsOf elementSize setups target req planned = .ok remoteRows

/-- One turn of the loop of `_start`. -/
inductive StartsShare (self : WorkerId) (load : NixlLoad) (planned : Share × Nat) (handle : Nat) :
    NixlLoad → List AgentCall → Bool → Prop
  | raises : StartsShare self load planned handle load [] true
  | refused {target : WorkerId} {notice : Notice} {rows remoteRows : List Desc}
      (reads : ReadsShare elementSize setups self load.req planned target notice rows remoteRows) :
      StartsShare self load planned handle { load with handles := load.handles ++ [handle] }
        [.read target notice rows remoteRows false] true
  | notifies {target : WorkerId} {notice : Notice}
      (reaches : Reaches setups self load.req planned.1.remoteRank target notice)
      (none : localRows elementSize setups self load.req planned = .ok []) :
      StartsShare self load planned handle
        { load with unnotified := load.unnotified.erase planned.1.remoteRank }
        [.notify target notice] false
  | reads {target : WorkerId} {notice : Notice} {rows remoteRows : List Desc}
      (reads : ReadsShare elementSize setups self load.req planned target notice rows remoteRows) :
      StartsShare self load planned handle
        { load with
          handles := load.handles ++ [handle]
          numBytes := load.numBytes + (rows.map Desc.length).sum.toNat
          unnotified := load.unnotified.erase planned.1.remoteRank }
        [.read target notice rows remoteRows true] false

end Targets

namespace AgentCall

def target : AgentCall → WorkerId
  | .notify target _ => target
  | .read target _ _ _ _ => target

def notice : AgentCall → Notice
  | .notify _ notice => notice
  | .read _ notice _ _ _ => notice

/-- The call notifies, now or once its read ends. -/
def live : AgentCall → Bool
  | .notify _ _ => true
  | .read _ _ _ _ accepted => accepted

end AgentCall

namespace NixlConnectorWorker

variable {elementSize : String → Nat} {setups : WorkerId → RankSetup} {self : WorkerId}
  {worker before after : NixlConnectorWorker} {req : ReqToRecv} {load : NixlLoad}

variable (elementSize setups self) in
/-- Everything the worker remembers is genuine. -/
def Known (worker : NixlConnectorWorker) : Prop :=
  ∀ key remote, worker.remotes.lookup key = some remote →
    remote.Genuine elementSize setups self key

/-- Only what the worker remembers changes. -/
structure Learns (before after : NixlConnectorWorker) : Prop where
  reqsToSend : after.reqsToSend = before.reqsToSend
  notified : after.notified = before.notified
  finished : after.finished = before.finished
  queue : after.queue = before.queue
  loads : after.loads = before.loads
  starting : after.starting = before.starting

/-- What a handshake gives: the producer rank at the address it dials, if it gives one. -/
structure Shakes (elementSize : String → Nat) (setups : WorkerId → RankSetup) (reader : WorkerId)
    (before : NixlConnectorWorker) (req : ReqToRecv) (remoteRank : Int)
    (result : NixlConnectorWorker × Option Remote) : Prop where
  learns : Learns before result.1
  known : result.1.Known elementSize setups reader
  genuine : ∀ remote ∈ result.2, remote.engineId = req.remoteEngineId ∧
    remote.Genuine elementSize setups reader (req.remoteHost, req.remotePort + remoteRank)

theorem dial_spec (known : worker.Known elementSize setups self) {remoteRank : Int}
    {peer : Option WorkerId}
    (dials : ∀ answering ∈ peer, (setups answering).kvIp = req.remoteHost ∧
      (setups answering).kvPort + answering.rank = req.remotePort + remoteRank) :
    Shakes elementSize setups self worker req remoteRank (worker.dial (setups self) req remoteRank
      (peer.map fun peer => (setups peer).serve elementSize peer)) := by
  have refl : Learns worker worker := ⟨rfl, rfl, rfl, rfl, rfl, rfl⟩
  cases peer with
  | none => exact ⟨refl, known, nofun⟩
  | some answering =>
      simp only [Option.map_some, dial]
      split
      · rename_i agrees
        obtain ⟨ip, port⟩ := dials answering rfl
        have genuine : Remote.Genuine elementSize setups self
            (req.remoteHost, req.remotePort + remoteRank)
            ⟨answering.engineId, answering, (setups answering).regions elementSize,
              (setups answering).numBlocks, (setups answering).device⟩ :=
          ⟨rfl, ip, port, agrees.2.2, rfl, rfl, rfl⟩
        refine ⟨⟨rfl, rfl, rfl, rfl, rfl, rfl⟩, fun other remote found => ?_, ?_⟩
        · simp only [Dict.lookup_insert_eq] at found
          split at found
          · rename_i same
            obtain rfl := Option.some.inj found
            rw [same]
            exact genuine
          · exact known other remote found
        · rintro remote ⟨⟩
          exact ⟨agrees.1, genuine⟩
      · exact ⟨refl, known, nofun⟩

theorem handshake_spec (known : worker.Known elementSize setups self) {remoteRank : Int}
    {peer : Option WorkerId}
    (dials : ∀ answering ∈ peer, (setups answering).kvIp = req.remoteHost ∧
      (setups answering).kvPort + answering.rank = req.remotePort + remoteRank) :
    Shakes elementSize setups self worker req remoteRank (worker.handshake (setups self) req
      remoteRank (peer.map fun peer => (setups peer).serve elementSize peer)) := by
  simp only [handshake]
  split
  · exact dial_spec known dials
  · rename_i remote found
    split
    · rename_i same
      refine ⟨⟨rfl, rfl, rfl, rfl, rfl, rfl⟩, known, ?_⟩
      rintro other ⟨⟩
      exact ⟨same, known _ _ found⟩
    · have asked : Known elementSize setups self { worker with
          remotes := worker.remotes.erase (req.remoteHost, req.remotePort + remoteRank) } := by
        intro other remote' found'
        simp only [Dict.lookup_erase_eq] at found'
        split at found'
        · cases found'
        · exact known other remote' found'
      have dialed := dial_spec asked dials
      exact ⟨⟨dialed.learns.reqsToSend, dialed.learns.notified, dialed.learns.finished,
        dialed.learns.queue, dialed.learns.loads, dialed.learns.starting⟩, dialed.known,
        dialed.genuine⟩

theorem startShare_spec (known : worker.Known elementSize setups self) {planned : Share × Nat}
    {peer : Option WorkerId} {handle : Nat} {notifies initializes accepts : Bool}
    (dials : ∀ answering ∈ peer, (setups answering).kvIp = load.req.remoteHost ∧
      (setups answering).kvPort + answering.rank =
        load.req.remotePort + planned.1.remoteRank) :
    ∃ next nextLoad calls raised,
      worker.startShare elementSize (setups self) load planned
        ⟨peer.map fun peer => (setups peer).serve elementSize peer, handle, notifies, initializes,
          accepts⟩ = ⟨next, nextLoad, calls, raised⟩ ∧
      Learns worker next ∧ next.Known elementSize setups self ∧
      StartsShare elementSize setups self load planned handle nextLoad calls raised := by
  obtain ⟨share, i⟩ := planned
  have shakes := handshake_spec known dials
  obtain ⟨⟨next, shaken⟩, handshakeEq⟩ : ∃ result, worker.handshake (setups self) load.req
    share.remoteRank (peer.map fun peer => (setups peer).serve elementSize peer) = result :=
    ⟨_, rfl⟩
  simp only [handshakeEq] at shakes
  obtain ⟨learns, nextKnown, genuine⟩ := shakes
  simp only [startShare, handshakeEq]
  cases shaken with
  | none => exact ⟨_, _, _, _, rfl, learns, nextKnown, .raises⟩
  | some remote =>
      obtain ⟨engine, isGenuine⟩ := genuine remote rfl
      simp only
      split
      · exact ⟨_, _, _, _, rfl, learns, nextKnown, .raises⟩
      · rename_i inside
        have blocks : ∀ block ∈ load.req.remoteBlockIds,
            block < (setups remote.agent).numBlocks := by
          intro block member
          simp only [Bool.not_eq_true, List.any_eq_false, decide_eq_true_eq] at inside
          have below := inside block member
          rw [← isGenuine.numBlocks]
          omega
        split
        · rename_i readers rows readersEq rowsEq
          have reaches : Reaches setups self load.req share.remoteRank remote.agent
              ⟨load.req.remoteRequestId, readers⟩ :=
            ⟨isGenuine.engine.symm.trans engine, isGenuine.ip, isGenuine.port, isGenuine.layout,
              rfl, readersEq⟩
          split
          · rename_i empty
            subst empty
            split
            · exact ⟨_, _, _, _, rfl, learns, nextKnown, .notifies reaches rowsEq⟩
            · exact ⟨_, _, _, _, rfl, learns, nextKnown, .raises⟩
          · split
            · exact ⟨_, _, _, _, rfl, learns, nextKnown, .raises⟩
            · rename_i remoteRows remoteEq
              rw [isGenuine.regions, isGenuine.device] at remoteEq
              have reads : ReadsShare elementSize setups self load.req (share, i) remote.agent
                  ⟨load.req.remoteRequestId, readers⟩ rows remoteRows :=
                ⟨reaches, blocks, rowsEq, remoteEq⟩
              split
              · split
                · rename_i accepted
                  subst accepted
                  exact ⟨_, _, _, _, rfl, learns, nextKnown, .reads reads⟩
                · rename_i accepted
                  obtain rfl := eq_false_of_ne_true accepted
                  exact ⟨_, _, _, _, rfl, learns, nextKnown, .refused reads⟩
              · exact ⟨_, _, _, _, rfl, learns, nextKnown, .raises⟩
        · exact ⟨_, _, _, _, rfl, learns, nextKnown, .raises⟩

variable (setups self) in
/-- Some of the ranks are notified, each once. -/
def Notifies (req : ReqToRecv) (ranks : List Int) (calls : List AgentCall) : Prop :=
  ∃ chosen : List Int, chosen.Sublist ranks ∧
    List.Forall₂ (fun remoteRank call => ∃ target notice, call = AgentCall.notify target notice ∧
      Reaches setups self req remoteRank target notice) chosen calls

theorem substitutes_spec (known : worker.Known elementSize setups self) {delivered : Int → Bool}
    {ranks : List Int} {calls : List AgentCall}
    (sent : worker.substitutes (setups self) req delivered ranks = .ok calls) :
    Notifies setups self req ranks calls := by
  induction ranks generalizing calls with
  | nil =>
      obtain rfl := Except.ok.inj sent
      exact ⟨[], .slnil, .nil⟩
  | cons remoteRank rest ih =>
      have skip : ∀ {later : List AgentCall},
          worker.substitutes (setups self) req delivered rest = .ok later →
            Notifies setups self req (remoteRank :: rest) later := by
        intro later sent
        obtain ⟨chosen, among, matched⟩ := ih sent
        exact ⟨chosen, among.cons _, matched⟩
      simp only [substitutes] at sent
      split at sent
      · exact skip sent
      · rename_i remote found
        split at sent
        · rename_i engine
          simp only [bind, Except.bind] at sent
          split at sent
          · cases sent
          · rename_i readers readersEq
            split at sent
            · cases sent
            · rename_i later laterEq
              obtain rfl := Except.ok.inj sent
              split
              · obtain ⟨chosen, among, matched⟩ := ih laterEq
                have genuine := known _ _ found
                refine ⟨remoteRank :: chosen, among.cons_cons _, .cons ⟨_, _, rfl, ?_⟩ matched⟩
                exact ⟨genuine.engine.symm.trans engine, genuine.ip, genuine.port,
                  genuine.layout, rfl, readersEq⟩
              · exact skip laterEq
        · exact skip sent

theorem failLoad_spec (known : worker.Known elementSize setups self) {delivered : Int → Bool}
    {failed : NixlLoad} {calls : List AgentCall}
    (fails : worker.failLoad (setups self) load delivered = .ok (failed, calls)) :
    failed = { load with failed := true, unnotified := [] } ∧
      Notifies setups self load.req load.unnotified calls := by
  simp only [failLoad, bind, Except.bind] at fails
  split at fails
  · cases fails
  · rename_i sent
    obtain ⟨rfl, rfl⟩ := Prod.mk.inj (Except.ok.inj fails)
    exact ⟨rfl, substitutes_spec known sent⟩

theorem abandon_spec (known : worker.Known elementSize setups self) {requestId : RequestId}
    {delivered : Int → Bool} {calls : List AgentCall}
    (abandoned : worker.abandon (setups self) requestId load delivered = .ok (after, calls)) :
    after = { worker with
        loads := worker.loads.insert requestId { load with failed := true, unnotified := [] }
        starting := none } ∧
      Notifies setups self load.req load.unnotified calls := by
  simp only [abandon, bind, Except.bind] at abandoned
  split at abandoned
  · cases abandoned
  · rename_i fails
    obtain ⟨rfl, rfl⟩ := Prod.mk.inj (Except.ok.inj abandoned)
    obtain ⟨failedEq, notifies⟩ := failLoad_spec known fails
    rw [failedEq]
    exact ⟨rfl, notifies⟩

/-- What polling leaves of a load: it fails if one of its reads did. -/
inductive Polls (elementSize : String → Nat) (setups : WorkerId → RankSetup) (self : WorkerId)
    (load : NixlLoad) (seen : Nat → XferState) : NixlLoad → List AgentCall → Prop
  | goesOn (sound : ∀ handle ∈ load.handles, seen handle ≠ .err) :
      Polls elementSize setups self load seen
        { load with handles := load.handles.filter fun handle => seen handle = .proc } []
  | fails {calls : List AgentCall} {handle : Nat} (among : handle ∈ load.handles)
      (broken : seen handle = .err)
      (notifies : Notifies setups self load.req load.unnotified calls) :
      Polls elementSize setups self load seen
        { load with
          failed := true
          unnotified := []
          handles := load.handles.filter fun handle => seen handle = .proc } calls

/-- The plan of a load on this rank. -/
def planOf (setups : WorkerId → RankSetup) (self : WorkerId) (req : ReqToRecv) :
    Except LoadError (List Share) :=
  headShares self.rank (setups self).tpSize req.remoteTpSize ((setups self).heads req)

/-- What a turn of the transfer thread does for a request. -/
inductive TransferTurn (elementSize : String → Nat) (setups : WorkerId → RankSetup)
    (self : WorkerId) (handle : Nat) (seen : Nat → XferState) (before : NixlConnectorWorker) :
    RequestId → NixlConnectorWorker → List AgentCall → Prop
  | starts {requestId : RequestId} {req : ReqToRecv} {rest : List (RequestId × ReqToRecv)}
      {shares : List Share} {started : Rat} (idle : before.starting = none)
      (queued : before.queue = (requestId, req) :: rest)
      (plan : planOf setups self req = .ok shares) :
      TransferTurn elementSize setups self handle seen before requestId
        { before with
          queue := rest
          loads := before.loads.insert requestId
            { req := req, started := started, unnotified := shares.map Share.remoteRank }
          starting := some ⟨requestId, shares.zipIdx⟩ } []
  | stillborn {requestId : RequestId} {req : ReqToRecv} {rest : List (RequestId × ReqToRecv)}
      {ranks : List Int} {started : Rat} {calls : List AgentCall} (idle : before.starting = none)
      (queued : before.queue = (requestId, req) :: rest)
      (plan : ranks = [] ∨ ∃ shares, planOf setups self req = .ok shares ∧
        ranks = shares.map Share.remoteRank)
      (notifies : Notifies setups self req ranks calls) :
      TransferTurn elementSize setups self handle seen before requestId
        { before with
          queue := rest
          loads := before.loads.insert requestId { req := req, started := started, failed := true }
          starting := none } calls
  | ends {requestId : RequestId} (starting : before.starting = some ⟨requestId, []⟩) :
      TransferTurn elementSize setups self handle seen before requestId
        { before with starting := none } []
  | shares {requestId : RequestId} {planned : Share × Nat} {rest : List (Share × Nat)}
      {load nextLoad : NixlLoad} {middle : NixlConnectorWorker} {calls : List AgentCall}
      (starting : before.starting = some ⟨requestId, planned :: rest⟩)
      (found : before.loads.lookup requestId = some load) (learns : Learns before middle)
      (known : middle.Known elementSize setups self)
      (share : StartsShare elementSize setups self load planned handle nextLoad calls false) :
      TransferTurn elementSize setups self handle seen before requestId
        { middle with
          loads := before.loads.insert requestId nextLoad
          starting := some ⟨requestId, rest⟩ } calls
  | stops {requestId : RequestId} {planned : Share × Nat} {rest : List (Share × Nat)}
      {load nextLoad : NixlLoad} {middle : NixlConnectorWorker} {calls more : List AgentCall}
      (starting : before.starting = some ⟨requestId, planned :: rest⟩)
      (found : before.loads.lookup requestId = some load) (learns : Learns before middle)
      (known : middle.Known elementSize setups self)
      (share : StartsShare elementSize setups self load planned handle nextLoad calls true)
      (notifies : Notifies setups self nextLoad.req nextLoad.unnotified more) :
      TransferTurn elementSize setups self handle seen before requestId
        { middle with
          loads := before.loads.insert requestId
            { nextLoad with failed := true, unnotified := [] }
          starting := none } (calls ++ more)
  | waits {requestId : RequestId} {load polled : NixlLoad} {calls : List AgentCall}
      (idle : before.starting = none) (found : before.loads.lookup requestId = some load)
      (polls : Polls elementSize setups self load seen polled calls)
      (pending : polled.handles ≠ []) :
      TransferTurn elementSize setups self handle seen before requestId
        { before with loads := before.loads.insert requestId polled } calls
  | lands {requestId : RequestId} {load polled : NixlLoad} {calls : List AgentCall} {now : Rat}
      (idle : before.starting = none) (found : before.loads.lookup requestId = some load)
      (polls : Polls elementSize setups self load seen polled calls)
      (none : polled.handles = []) :
      TransferTurn elementSize setups self handle seen before requestId
        { before with
          loads := before.loads.erase requestId
          finished := landed before.finished requestId polled now } calls

theorem beginLoad_spec (known : worker.Known elementSize setups self) {requestId : RequestId}
    {rest : List (RequestId × ReqToRecv)} (idle : worker.starting = none)
    (queued : worker.queue = (requestId, req) :: rest) {started : Rat} {ready : Bool}
    {delivered : Int → Bool} {calls : List AgentCall} {handle : Nat} {seen : Nat → XferState}
    (begins : { worker with queue := rest }.beginLoad (setups self) self requestId req started
      ready delivered = .ok (after, calls)) :
    TransferTurn elementSize setups self handle seen worker requestId after calls := by
  have known' : Known elementSize setups self { worker with queue := rest } := known
  simp only [beginLoad] at begins
  split at begins
  · obtain ⟨rfl, notifies⟩ := abandon_spec known' begins
    exact .stillborn idle queued (Or.inl rfl) notifies
  · rename_i shares plan
    split at begins
    · obtain ⟨rfl, rfl⟩ := Prod.mk.inj (Except.ok.inj begins)
      exact .starts idle queued plan
    · obtain ⟨rfl, notifies⟩ := abandon_spec known' begins
      exact .stillborn idle queued (Or.inr ⟨shares, plan, rfl⟩) notifies

theorem nextShare_spec (known : worker.Known elementSize setups self) {starting : Starting}
    (started : worker.starting = some starting) {peer : Option WorkerId} {handle : Nat}
    {notifies initializes accepts : Bool} {delivered : Int → Bool} {calls : List AgentCall}
    {seen : Nat → XferState}
    (dials : ∀ answering ∈ peer, ∀ planned rest load, starting.shares = planned :: rest →
      worker.loads.lookup starting.requestId = some load →
        (setups answering).kvIp = load.req.remoteHost ∧
          (setups answering).kvPort + answering.rank =
            load.req.remotePort + planned.1.remoteRank)
    (turns : worker.nextShare elementSize (setups self)
      ⟨peer.map fun peer => (setups peer).serve elementSize peer, handle, notifies, initializes,
        accepts⟩ delivered = .ok (some (after, calls))) :
    TransferTurn elementSize setups self handle seen worker starting.requestId after calls := by
  obtain ⟨requestId, shares⟩ := starting
  simp only [nextShare, started] at turns
  cases shares with
  | nil =>
      obtain ⟨rfl, rfl⟩ := Prod.mk.inj (Option.some.inj (Except.ok.inj turns))
      exact .ends started
  | cons planned rest =>
      simp only at turns
      split at turns
      · cases Except.ok.inj turns
      · rename_i load found
        have answered := fun answering member => dials answering member planned rest load rfl found
        obtain ⟨middle, nextLoad, called, raised, turnEq, learns, middleKnown, share⟩ :=
          startShare_spec known answered
        rw [turnEq] at turns
        cases raised with
        | true =>
            simp only [if_true, bind, Except.bind] at turns
            split at turns
            · cases turns
            · rename_i result abandoned
              obtain ⟨rfl, rfl⟩ := Prod.mk.inj (Option.some.inj (Except.ok.inj turns))
              obtain ⟨failedEq, sent⟩ := abandon_spec middleKnown abandoned
              rw [failedEq, learns.loads]
              exact .stops started found learns middleKnown share sent
        | false =>
            obtain ⟨rfl, rfl⟩ := Prod.mk.inj (Option.some.inj (Except.ok.inj turns))
            simp only [learns.loads]
            exact .shares started found learns middleKnown share

theorem pollReads_spec (known : worker.Known elementSize setups self) {seen : Nat → XferState}
    {delivered : Int → Bool} {outcome : NixlLoad × List AgentCall}
    (polled : worker.pollReads (setups self) load seen delivered = .ok outcome) :
    Polls elementSize setups self load seen outcome.1 outcome.2 := by
  simp only [pollReads] at polled
  split at polled
  · rename_i broken
    obtain ⟨handle, among, err⟩ := List.any_eq_true.mp broken
    cases fails : worker.failLoad (setups self) load delivered with
    | error fault => simp [fails, Except.map] at polled
    | ok failed =>
        obtain ⟨next, calls⟩ := failed
        obtain ⟨rfl, notifies⟩ := failLoad_spec known fails
        rw [fails] at polled
        obtain rfl := Except.ok.inj polled
        exact .fails among (of_decide_eq_true err) notifies
  · rename_i sound
    obtain rfl := Except.ok.inj polled
    refine .goesOn fun handle among err => sound ?_
    exact List.any_eq_true.mpr ⟨handle, among, decide_eq_true err⟩

theorem pollLoad_spec (known : worker.Known elementSize setups self) {requestId : RequestId}
    (idle : worker.starting = none) (found : worker.loads.lookup requestId = some load)
    {seen : Nat → XferState} {now : Rat} {delivered : Int → Bool} {calls : List AgentCall}
    {handle : Nat}
    (polled : worker.pollLoad (setups self) requestId load seen now delivered =
      .ok (after, calls)) :
    TransferTurn elementSize setups self handle seen worker requestId after calls := by
  simp only [pollLoad] at polled
  cases readsEq : worker.pollReads (setups self) load seen delivered with
  | error fault => simp [readsEq, Except.map] at polled
  | ok outcome =>
      have polls := pollReads_spec known readsEq
      rw [readsEq] at polled
      simp only [Except.map] at polled
      split at polled
      · rename_i pending
        obtain ⟨rfl, rfl⟩ := Prod.mk.inj (Except.ok.inj polled)
        exact .waits idle found polls pending
      · rename_i pending
        obtain ⟨rfl, rfl⟩ := Prod.mk.inj (Except.ok.inj polled)
        exact .lands idle found polls (not_not.mp pending)

end NixlConnectorWorker

end LeanVllm
