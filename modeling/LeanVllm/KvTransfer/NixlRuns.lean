import LeanVllm.KvTransfer.NixlTurns

/-!
# Runs of the workers

An event is a turn of an engine thread, of a transfer thread or of the network.  Through
all of them, reads and notifications go only where a load that was asked for sends them.
-/

namespace LeanVllm

open Collections Transition NixlConnectorWorker

namespace AgentCall

/-- The read a call posts. -/
def reads (self : WorkerId) (requestId : RequestId) : AgentCall → List Read
  | .notify _ _ => []
  | .read target notice rows remoteRows accepted =>
      [⟨self, requestId, target, notice, rows, remoteRows, if accepted then .running else .spent⟩]

/-- The notification a call sends. -/
def notices (self : WorkerId) : AgentCall → List (WorkerId × WorkerId × Notice)
  | .notify target notice => [(self, target, notice)]
  | .read _ _ _ _ _ => []

end AgentCall

/-- The loads an event asks for. -/
def Fleet.Event.asks : Fleet.Event → List (WorkerId × RequestId × ReqToRecv)
  | .startLoadKv self metadata _ =>
      metadata.reqsToRecv.entries.map fun item => (self, item.1, item.2)
  | _ => []

/-- The requests an event hands over. -/
def Fleet.Event.handOvers : Fleet.Event → List (WorkerId × RequestId)
  | .startLoadKv self metadata _ => metadata.reqsToSend.keys.map fun requestId => (self, requestId)
  | _ => []

theorem ok_of_toOption {ε α : Type} {result : Except ε α} {value : α}
    (found : result.toOption = some value) : result = .ok value := by
  cases result with
  | error fault => cases found
  | ok other => exact congrArg Except.ok (Option.some.inj found)

namespace Fleet

variable {elementSize : String → Nat} {setups : WorkerId → RankSetup}
  {fleet before after : Fleet} {self : WorkerId} {requestId : RequestId}

@[simp]
theorem setWorker_workers (fleet : Fleet) (self : WorkerId) (worker : NixlConnectorWorker) :
    (fleet.setWorker self worker).workers = Function.update fleet.workers self worker :=
  rfl

/-- What a turn of a transfer thread leaves of the fleet. -/
structure Turned (reader : WorkerId) (requestId : RequestId) (worker : NixlConnectorWorker)
    (calls : List AgentCall) (before after : Fleet) : Prop where
  workers : after.workers = Function.update before.workers reader worker
  reads : after.reads = before.reads ++ calls.flatMap (AgentCall.reads reader requestId)
  notices : after.notices = before.notices ++ calls.flatMap (AgentCall.notices reader)
  inbox : ∀ target, after.inbox target = before.inbox target ++
    ((calls.flatMap (AgentCall.notices reader)).filter fun sent => sent.2.1 = target).map
      fun sent => (sent.1, sent.2.2)
  reports : after.reports = before.reports

theorem turn_turned (fleet : Fleet) (self : WorkerId) (requestId : RequestId)
    (worker : NixlConnectorWorker) (calls : List AgentCall) :
    Turned self requestId worker calls fleet (fleet.turn self requestId (worker, calls)) := by
  have called : ∀ start : Fleet, Turned self requestId (start.workers self) calls start
      (calls.foldl (call self requestId) start) := by
    intro start
    induction calls generalizing start with
    | nil => exact ⟨by simp, by simp, by simp, by simp, rfl⟩
    | cons first rest ih =>
        have later := ih (start.call self requestId first)
        rw [List.foldl_cons]
        cases first with
        | notify target notice =>
            refine ⟨later.workers, later.reads, ?_, fun other => ?_, later.reports⟩
            · rw [later.notices]
              simp [call, deliver, AgentCall.notices]
            · rw [later.inbox]
              by_cases same : target = other
              · subst same
                simp [call, deliver, AgentCall.notices]
              · simp [call, deliver, AgentCall.notices, same, Ne.symm same]
        | read target notice rows remoteRows accepted =>
            refine ⟨later.workers, ?_, later.notices, later.inbox, later.reports⟩
            rw [later.reads]
            simp [call, AgentCall.reads]
  have placed := called (fleet.setWorker self worker)
  refine ⟨?_, placed.reads, placed.notices, placed.inbox, placed.reports⟩
  have workers := placed.workers
  simp only [setWorker_workers, Function.update_self, Function.update_idem] at workers
  exact workers

/-- What an event does. -/
inductive Effect (elementSize : String → Nat) (setups : WorkerId → RankSetup)
    (before after : Fleet) : Event → Prop
  | queues {self : WorkerId} {metadata : KVConnectorMetadata} {deadline : Rat}
      (queued : after =
        before.setWorker self ((before.workers self).startLoadKv metadata deadline)) :
      Effect elementSize setups before after (.startLoadKv self metadata deadline)
  | reports {self : WorkerId} {now timeout : Rat}
      (reported : after =
        { before.setWorker self ((before.workers self).getFinished now timeout).1 with
          reports := before.reports ++
            [(self, ((before.workers self).getFinished now timeout).2)] }) :
      Effect elementSize setups before after (.getFinished self now timeout)
  | turns {event : Event} {self : WorkerId} {requestId : RequestId} {seen : Nat → XferState}
      {worker : NixlConnectorWorker} {calls : List AgentCall} (silent : event.asks = [] ∧ event.handOvers = [])
      (honest : before.Seen seen)
      (turn : TransferTurn elementSize setups self before.reads.length seen
        (before.workers self) requestId worker calls)
      (turned : Turned self requestId worker calls before after) :
      Effect elementSize setups before after event
  | takes {self sender : WorkerId} {index : Nat} {now : Rat} {notice : Notice}
      (found : (before.inbox self)[index]? = some (sender, notice))
      (taken : after =
        { before.setWorker self ((before.workers self).takeNotification notice now) with
          inbox := Function.update before.inbox self ((before.inbox self).eraseIdx index) }) :
      Effect elementSize setups before after (.takeNotification self index now)
  | delivers {event : Event} {handle : Nat} {read : Read} {status : ReadStatus}
      (silent : event.asks = [] ∧ event.handOvers = []) (found : before.reads[handle]? = some read)
      (moves : read.status = .running ∧ status = .done ∨ read.status = .broken ∧ status = .spent)
      (delivered : after = (before.setRead handle { read with status := status }).deliver
        read.reader read.target read.notice) :
      Effect elementSize setups before after event
  | breaks {handle : Nat} {read : Read} (found : before.reads[handle]? = some read)
      (running : read.status = .running)
      (broken : after = before.setRead handle { read with status := .broken }) :
      Effect elementSize setups before after (.breaks handle)

theorem Next.effect {event : Event} (known : ∀ self, (before.workers self).Known elementSize setups self)
    (taken : Next elementSize setups before event after) :
    Effect elementSize setups before after event := by
  obtain ⟨valid, next⟩ := taken
  have blind : before.Seen fun _ => .proc := fun _ _ _ => ⟨nofun, nofun⟩
  cases event with
  | startLoadKv self metadata deadline => exact .queues (Option.some.inj next).symm
  | getFinished self now timeout => exact .reports (Option.some.inj next).symm
  | beginLoad self started ready delivered =>
      simp only [Fleet.next] at next
      split at next
      · rename_i requestId req rest idle queued
        obtain ⟨⟨worker, calls⟩, begun, rfl⟩ := Option.map_eq_some_iff.mp next
        have begins := ok_of_toOption begun
        exact .turns ⟨rfl, rfl⟩ blind (beginLoad_spec (known self) idle queued begins)
          (turn_turned _ _ _ _ _)
      · cases next
  | startShare self peer notifies initializes accepts delivered =>
      simp only [Fleet.next] at next
      split at next
      · cases next
      · rename_i starting started
        obtain ⟨⟨worker, calls⟩, joined, rfl⟩ := Option.map_eq_some_iff.mp next
        have turns := ok_of_toOption (Option.join_eq_some_iff.mp joined)
        refine .turns ⟨rfl, rfl⟩ blind (nextShare_spec (known self) started ?_ turns)
          (turn_turned _ _ _ _ _)
        obtain ⟨starts, shares⟩ := starting
        rintro answering member ⟨share, i⟩ rest load sharesEq found
        simp only at sharesEq
        subst sharesEq
        exact (valid answering member starts share i rest load started found).2
  | poll self requestId seen now delivered =>
      simp only [Fleet.next] at next
      split at next
      · rename_i load idle found
        obtain ⟨⟨worker, calls⟩, polled, rfl⟩ := Option.map_eq_some_iff.mp next
        exact .turns ⟨rfl, rfl⟩ valid (pollLoad_spec (known self) idle found
          (ok_of_toOption polled)) (turn_turned _ _ _ _ _)
      · cases next
  | takeNotification self index now =>
      simp only [Fleet.next] at next
      split at next
      · cases next
      · rename_i sender notice found
        exact .takes found (Option.some.inj next).symm
  | complete handle =>
      simp only [Fleet.next] at next
      split at next
      · cases next
      · rename_i read found
        split at next
        · rename_i running
          exact .delivers ⟨rfl, rfl⟩ found (Or.inl ⟨running, rfl⟩) (Option.some.inj next).symm
        · cases next
  | breaks handle =>
      simp only [Fleet.next] at next
      split at next
      · cases next
      · rename_i read found
        split at next
        · rename_i running
          exact .breaks found running (Option.some.inj next).symm
        · cases next
  | notifiesLate handle =>
      simp only [Fleet.next] at next
      split at next
      · cases next
      · rename_i read found
        split at next
        · rename_i broken
          exact .delivers ⟨rfl, rfl⟩ found (Or.inr ⟨broken, rfl⟩) (Option.some.inj next).symm
        · cases next

end Fleet

/-! ## Where reads and notifications go -/

section Sent

variable {elementSize : String → Nat} {setups : WorkerId → RankSetup} {self : WorkerId}
  {asks later : List (WorkerId × RequestId × ReqToRecv)}

variable (setups) in
/-- The plan of a load has the rank. -/
def Planned (self : WorkerId) (req : ReqToRecv) (remoteRank : Int) : Prop :=
  ∃ shares, planOf setups self req = .ok shares ∧ remoteRank ∈ shares.map Share.remoteRank

variable (setups) in
/-- A load that was asked for sends a notification there. -/
def SentBy (asks : List (WorkerId × RequestId × ReqToRecv)) (self : WorkerId)
    (requestId : RequestId) (target : WorkerId) (notice : Notice) : Prop :=
  ∃ req remoteRank, (self, requestId, req) ∈ asks ∧ Planned setups self req remoteRank ∧
    Reaches setups self req remoteRank target notice

theorem SentBy.more {requestId : RequestId} {target : WorkerId} {notice : Notice}
    (sent : SentBy setups asks self requestId target notice) :
    SentBy setups (asks ++ later) self requestId target notice := by
  obtain ⟨req, remoteRank, asked, planned, reaches⟩ := sent
  exact ⟨req, remoteRank, List.mem_append_left _ asked, planned, reaches⟩

variable (elementSize setups) in
/-- What a worker is about was asked of it. -/
structure Minded (asks : List (WorkerId × RequestId × ReqToRecv)) (reader : WorkerId)
    (worker : NixlConnectorWorker) : Prop where
  known : worker.Known elementSize setups reader
  queued : ∀ item ∈ worker.queue, (reader, item.1, item.2) ∈ asks
  loads : ∀ requestId load, worker.loads.lookup requestId = some load →
    (reader, requestId, load.req) ∈ asks ∧
      ∀ remoteRank ∈ load.unnotified, Planned setups reader load.req remoteRank
  starting : ∀ requestId shares, worker.starting = some ⟨requestId, shares⟩ →
    ∃ load, worker.loads.lookup requestId = some load ∧
      load.unnotified = shares.map fun planned => planned.1.remoteRank

variable {before after : NixlConnectorWorker}

theorem Minded.more (minded : Minded elementSize setups asks self before) :
    Minded elementSize setups (asks ++ later) self before :=
  ⟨minded.known, fun item member => List.mem_append_left _ (minded.queued item member),
    fun requestId load found =>
      ⟨List.mem_append_left _ (minded.loads requestId load found).1,
        (minded.loads requestId load found).2⟩,
    minded.starting⟩

/-- The calls of a failing load go where the load sends them. -/
theorem sent_of_notifies {req : ReqToRecv} {requestId : RequestId} {ranks : List Int}
    {calls : List AgentCall} (asked : (self, requestId, req) ∈ asks)
    (planned : ∀ remoteRank ∈ ranks, Planned setups self req remoteRank)
    (notifies : Notifies setups self req ranks calls) {call : AgentCall} (member : call ∈ calls) :
    SentBy setups asks self requestId call.target call.notice := by
  obtain ⟨chosen, among, matched⟩ := notifies
  have chosenPlanned : ∀ remoteRank ∈ chosen, Planned setups self req remoteRank :=
    fun remoteRank chosenMem => planned remoteRank (among.subset chosenMem)
  clear among
  induction matched with
  | nil => exact absurd member List.not_mem_nil
  | cons paired rest ih =>
      rcases List.mem_cons.mp member with rfl | inRest
      · obtain ⟨target, notice, rfl, reaches⟩ := paired
        exact ⟨req, _, asked, chosenPlanned _ List.mem_cons_self, reaches⟩
      · exact ih inRest fun remoteRank chosenMem =>
          chosenPlanned remoteRank (List.mem_cons_of_mem _ chosenMem)

/-- The call of a share goes where its load sends it. -/
theorem sent_of_startsShare {load nextLoad : NixlLoad} {requestId : RequestId}
    {planned : Share × Nat} {handle : Nat} {calls : List AgentCall} {raised : Bool}
    (asked : (self, requestId, load.req) ∈ asks)
    (inPlan : Planned setups self load.req planned.1.remoteRank)
    (share : StartsShare elementSize setups self load planned handle nextLoad calls raised)
    {call : AgentCall} (member : call ∈ calls) :
    SentBy setups asks self requestId call.target call.notice := by
  cases share with
  | raises => exact absurd member List.not_mem_nil
  | refused reads =>
      obtain rfl := List.mem_singleton.mp member
      exact ⟨load.req, _, asked, inPlan, reads.reaches⟩
  | notifies reaches none =>
      obtain rfl := List.mem_singleton.mp member
      exact ⟨load.req, _, asked, inPlan, reaches⟩
  | reads reads =>
      obtain rfl := List.mem_singleton.mp member
      exact ⟨load.req, _, asked, inPlan, reads.reaches⟩

/-- A turn on a share changes neither the request nor, if it raises, the ranks that
nothing reached. -/
theorem StartsShare.frame {load nextLoad : NixlLoad} {planned : Share × Nat} {handle : Nat}
    {calls : List AgentCall} {raised : Bool}
    (share : StartsShare elementSize setups self load planned handle nextLoad calls raised) :
    nextLoad.req = load.req ∧ nextLoad.failed = load.failed ∧ nextLoad.unnotified =
      if raised then load.unnotified else load.unnotified.erase planned.1.remoteRank := by
  cases share <;> exact ⟨rfl, rfl, rfl⟩

theorem NixlConnectorWorker.Polls.frame {load polled : NixlLoad} {seen : Nat → XferState} {calls : List AgentCall}
    (polls : Polls elementSize setups self load seen polled calls) :
    polled.req = load.req ∧ (polled.unnotified = load.unnotified ∧ calls = [] ∨
      polled.unnotified = [] ∧ Notifies setups self load.req load.unnotified calls) := by
  cases polls with
  | goesOn sound => exact ⟨rfl, Or.inl ⟨rfl, rfl⟩⟩
  | fails among broken notifies => exact ⟨rfl, Or.inr ⟨rfl, notifies⟩⟩

/-- A turn minds what it was asked, and calls only where that sends it. -/
theorem NixlConnectorWorker.TransferTurn.minded {requestId : RequestId} {handle : Nat} {seen : Nat → XferState}
    {calls : List AgentCall}
    (turn : TransferTurn elementSize setups self handle seen before requestId after calls)
    (minded : Minded elementSize setups asks self before) :
    Minded elementSize setups asks self after ∧
      ∀ call ∈ calls, SentBy setups asks self requestId call.target call.notice := by
  -- the loads after one of them was renewed
  have renewed : ∀ {load : NixlLoad}, (self, requestId, load.req) ∈ asks →
      (∀ remoteRank ∈ load.unnotified, Planned setups self load.req remoteRank) →
      ∀ other otherLoad, (before.loads.insert requestId load).lookup other = some otherLoad →
        (self, other, otherLoad.req) ∈ asks ∧
          ∀ remoteRank ∈ otherLoad.unnotified, Planned setups self otherLoad.req remoteRank := by
    intro load asked planned other otherLoad found
    rw [Dict.lookup_insert_eq] at found
    split at found
    · rename_i same
      obtain rfl := Option.some.inj found
      exact same ▸ ⟨asked, planned⟩
    · exact minded.loads other otherLoad found
  have emptied : ∀ req : ReqToRecv, ∀ remoteRank ∈ ([] : List Int),
      Planned setups self req remoteRank :=
    fun _ _ absurdly => absurd absurdly List.not_mem_nil
  cases turn with
  | @starts req rest shares started idle queued plan =>
      have asked := minded.queued (requestId, req) (by rw [queued]; exact List.mem_cons_self)
      refine ⟨⟨minded.known, fun item member => minded.queued item ?_,
        renewed asked fun remoteRank member => ⟨shares, plan, member⟩, ?_⟩,
        fun _ absurdly => absurd absurdly List.not_mem_nil⟩
      · rw [queued]
        exact List.mem_cons_of_mem _ member
      · intro other left starting
        obtain ⟨rfl, rfl⟩ := Starting.mk.inj (Option.some.inj starting)
        refine ⟨_, AList.lookup_insert _, ?_⟩
        have ranks := congrArg (List.map Share.remoteRank) (List.zipIdx_map_fst 0 shares)
        rw [List.map_map] at ranks
        exact ranks.symm
  | @stillborn req rest ranks started _ idle queued plan notifies =>
      have asked := minded.queued (requestId, req) (by rw [queued]; exact List.mem_cons_self)
      refine ⟨⟨minded.known, fun item member => minded.queued item ?_,
        renewed asked (emptied _), nofun⟩, fun call => sent_of_notifies asked ?_ notifies⟩
      · rw [queued]
        exact List.mem_cons_of_mem _ member
      · rcases plan with rfl | ⟨shares, plan, rfl⟩
        · exact emptied _
        · exact fun remoteRank member => ⟨shares, plan, member⟩
  | ends starting =>
      exact ⟨⟨minded.known, minded.queued, minded.loads, nofun⟩,
        fun _ absurdly => absurd absurdly List.not_mem_nil⟩
  | @shares planned rest load nextLoad middle _ starting found learns known share =>
      obtain ⟨reqEq, _, unnotifiedEq⟩ := share.frame
      obtain ⟨asked, inPlan⟩ := minded.loads _ _ found
      obtain ⟨own, ownFound, left⟩ := minded.starting _ _ starting
      obtain rfl := Option.some.inj (found.symm.trans ownFound)
      rw [left, List.map_cons, if_neg Bool.false_ne_true, List.erase_cons_head] at unnotifiedEq
      have head : planned.1.remoteRank ∈ load.unnotified := by
        rw [left]
        exact List.mem_cons_self
      refine ⟨⟨known, learns.queue ▸ minded.queued, renewed (reqEq ▸ asked) ?_, ?_⟩,
        fun call => sent_of_startsShare asked (inPlan _ head) share⟩
      · intro remoteRank member
        rw [reqEq]
        refine inPlan remoteRank ?_
        rw [left]
        exact List.mem_cons_of_mem _ (unnotifiedEq ▸ member)
      · intro other shares starting'
        obtain ⟨rfl, rfl⟩ := Starting.mk.inj (Option.some.inj starting')
        exact ⟨nextLoad, AList.lookup_insert _, unnotifiedEq⟩
  | @stops planned rest load nextLoad middle called more starting found learns known share
      notifies =>
      obtain ⟨reqEq, _, unnotifiedEq⟩ := share.frame
      obtain ⟨asked, inPlan⟩ := minded.loads _ _ found
      obtain ⟨own, ownFound, left⟩ := minded.starting _ _ starting
      obtain rfl := Option.some.inj (found.symm.trans ownFound)
      have head : planned.1.remoteRank ∈ load.unnotified := by
        rw [left]
        exact List.mem_cons_self
      refine ⟨⟨known, learns.queue ▸ minded.queued, renewed (reqEq ▸ asked) (emptied _), nofun⟩,
        fun call member => ?_⟩
      rcases List.mem_append.mp member with first | later
      · exact sent_of_startsShare asked (inPlan _ head) share first
      · refine sent_of_notifies (reqEq ▸ asked) ?_ notifies later
        rw [reqEq, unnotifiedEq]
        exact inPlan
  | @waits load polled _ idle found polls pending =>
      obtain ⟨reqEq, outcome⟩ := polls.frame
      obtain ⟨asked, inPlan⟩ := minded.loads _ _ found
      refine ⟨⟨minded.known, minded.queued, renewed (reqEq ▸ asked) ?_, ?_⟩, fun call member => ?_⟩
      · rw [reqEq]
        rcases outcome with ⟨same, _⟩ | ⟨none, _⟩
        · rw [same]
          exact inPlan
        · rw [none]
          exact emptied _
      · intro other shares starting
        cases idle.symm.trans starting
      · rcases outcome with ⟨_, none⟩ | ⟨_, notifies⟩
        · rw [none] at member
          exact absurd member List.not_mem_nil
        · exact sent_of_notifies asked inPlan notifies member
  | @lands load polled _ now idle found polls none =>
      obtain ⟨reqEq, outcome⟩ := polls.frame
      obtain ⟨asked, inPlan⟩ := minded.loads _ _ found
      refine ⟨⟨minded.known, minded.queued, fun other otherLoad kept => ?_, ?_⟩,
        fun call member => ?_⟩
      · rw [Dict.lookup_erase_eq] at kept
        split at kept
        · cases kept
        · exact minded.loads other otherLoad kept
      · intro other shares starting
        cases idle.symm.trans starting
      · rcases outcome with ⟨_, none⟩ | ⟨_, notifies⟩
        · rw [none] at member
          exact absurd member List.not_mem_nil
        · exact sent_of_notifies asked inPlan notifies member

end Sent

namespace NixlConnectorWorker

/-! ## What the engine threads leave alone -/

/-- A producer's turn leaves the consumer's side as it is. -/
structure Serves (before after : NixlConnectorWorker) : Prop where
  queue : after.queue = before.queue
  remotes : after.remotes = before.remotes
  loads : after.loads = before.loads
  starting : after.starting = before.starting
  finishedRecving : after.finished.finishedRecving = before.finished.finishedRecving
  failedRecving : after.finished.failedRecving = before.finished.failedRecving

theorem Serves.trans {first second third : NixlConnectorWorker} (head : Serves first second)
    (tail : Serves second third) : Serves first third :=
  ⟨tail.queue.trans head.queue, tail.remotes.trans head.remotes, tail.loads.trans head.loads,
    tail.starting.trans head.starting, tail.finishedRecving.trans head.finishedRecving,
    tail.failedRecving.trans head.failedRecving⟩

theorem Serves.refl (worker : NixlConnectorWorker) : Serves worker worker :=
  ⟨rfl, rfl, rfl, rfl, rfl, rfl⟩

theorem serves_of_foldl {α : Type} {step : NixlConnectorWorker → α → NixlConnectorWorker}
    (each : ∀ worker item, Serves worker (step worker item)) (items : List α)
    (worker : NixlConnectorWorker) : Serves worker (items.foldl step worker) := by
  induction items generalizing worker with
  | nil => exact .refl worker
  | cons item rest ih => exact (each worker item).trans (ih _)

variable (worker : NixlConnectorWorker) (requestId : RequestId)

theorem release_serves : Serves worker (worker.release requestId) := by
  unfold release
  split <;> exact ⟨rfl, rfl, rfl, rfl, rfl, rfl⟩

theorem releaseIfRead_serves : Serves worker (worker.releaseIfRead requestId) := by
  unfold releaseIfRead
  split
  · exact .refl worker
  · split
    · exact release_serves _ _
    · exact .refl worker

theorem expose_serves (deadline : Rat) : Serves worker (expose deadline worker requestId) := by
  have exposed : Serves worker
      { worker with reqsToSend := worker.reqsToSend.insert requestId deadline } :=
    ⟨rfl, rfl, rfl, rfl, rfl, rfl⟩
  exact exposed.trans (releaseIfRead_serves _ _)

theorem expire_serves : Serves worker (worker.expire requestId) := by
  have released := release_serves worker requestId
  exact ⟨released.queue, released.remotes, released.loads, released.starting,
    released.finishedRecving, released.failedRecving⟩

theorem forgetNotified_serves (now timeout : Rat) (item : Sigma fun _ : RequestId => Notified) :
    Serves worker (forgetNotified now timeout worker item) := by
  unfold forgetNotified
  split <;> exact ⟨rfl, rfl, rfl, rfl, rfl, rfl⟩

/-- What is reported is taken from a worker that served. -/
theorem getFinished_serves (now timeout : Rat) :
    ∃ served, Serves worker served ∧
      worker.getFinished now timeout = ({ served with finished := {} }, served.finished) := by
  let overdue := worker.reqsToSend.entries.filter fun item => item.2 < now
  let expired := (overdue.map Sigma.fst).foldl expire worker
  have gaveUp : Serves worker expired := serves_of_foldl expire_serves _ worker
  have forgot : Serves expired (expired.notified.entries.foldl (forgetNotified now timeout) expired) :=
    serves_of_foldl (fun worker => forgetNotified_serves worker now timeout) _ expired
  exact ⟨_, gaveUp.trans forgot, rfl⟩

theorem takeNotification_serves (notice : Notice) (now : Rat) :
    Serves worker (worker.takeNotification notice now) := by
  refine Serves.trans ?_ (releaseIfRead_serves _ _)
  exact ⟨rfl, rfl, rfl, rfl, rfl, rfl⟩

theorem startLoadKv_serves (metadata : KVConnectorMetadata) (deadline : Rat) :
    Serves { worker with
      queue := worker.queue ++ metadata.reqsToRecv.entries.map fun item => (item.1, item.2) }
      (worker.startLoadKv metadata deadline) := by
  have exposed := serves_of_foldl (fun worker requestId => expose_serves worker requestId deadline)
    metadata.reqsToSend.keys worker
  exact ⟨congrArg (· ++ _) exposed.queue, exposed.remotes, exposed.loads, exposed.starting,
    exposed.finishedRecving, exposed.failedRecving⟩

end NixlConnectorWorker

theorem Minded.of_serves {elementSize : String → Nat} {setups : WorkerId → RankSetup}
    {self : WorkerId} {asks : List (WorkerId × RequestId × ReqToRecv)}
    {before after : NixlConnectorWorker} (minded : Minded elementSize setups asks self before)
    (serves : Serves before after) : Minded elementSize setups asks self after where
  known := by
    unfold Known
    rw [serves.remotes]
    exact minded.known
  queued := serves.queue ▸ minded.queued
  loads := serves.loads ▸ minded.loads
  starting := serves.starting ▸ serves.loads ▸ minded.starting

namespace Fleet

variable {elementSize : String → Nat} {setups : WorkerId → RankSetup}
  {before after fleet : Fleet} {event : Event}

/-- Every worker minds what it was asked, and so do reads and notifications. -/
structure Sound (elementSize : String → Nat) (setups : WorkerId → RankSetup)
    (asks : List (WorkerId × RequestId × ReqToRecv)) (fleet : Fleet) : Prop where
  minded : ∀ self, Minded elementSize setups asks self (fleet.workers self)
  reads : ∀ read ∈ fleet.reads,
    SentBy setups asks read.reader read.requestId read.target read.notice
  notices : ∀ sent ∈ fleet.notices, ∃ requestId,
    SentBy setups asks sent.1 requestId sent.2.1 sent.2.2

/-- A worker that changed, and reads and notifications that were added. -/
theorem Sound.update {asks later : List (WorkerId × RequestId × ReqToRecv)} {self : WorkerId}
    {worker : NixlConnectorWorker} (sound : Sound elementSize setups asks before)
    (minded : Minded elementSize setups (asks ++ later) self worker)
    (workers : after.workers = Function.update before.workers self worker)
    (reads : ∀ read ∈ after.reads, read ∈ before.reads ∨
      SentBy setups (asks ++ later) read.reader read.requestId read.target read.notice)
    (notices : ∀ sent ∈ after.notices, sent ∈ before.notices ∨ ∃ requestId,
      SentBy setups (asks ++ later) sent.1 requestId sent.2.1 sent.2.2) :
    Sound elementSize setups (asks ++ later) after := by
  refine ⟨fun other => ?_, fun read member => ?_, fun sent member => ?_⟩
  · rw [workers]
    by_cases same : other = self
    · subst same
      rw [Function.update_self]
      exact minded
    · rw [Function.update_of_ne same]
      exact (sound.minded other).more
  · rcases reads read member with old | new
    · exact (sound.reads read old).more
    · exact new
  · rcases notices sent member with old | new
    · obtain ⟨requestId, sentBy⟩ := sound.notices sent old
      exact ⟨requestId, sentBy.more⟩
    · exact new

theorem Effect.sound {asks : List (WorkerId × RequestId × ReqToRecv)}
    (effect : Effect elementSize setups before after event)
    (sound : Sound elementSize setups asks before) :
    Sound elementSize setups (asks ++ event.asks) after := by
  cases effect with
  | @queues self metadata deadline queued =>
      subst queued
      refine sound.update ?_ rfl (fun _ old => Or.inl old) fun _ old => Or.inl old
      have mine : Minded elementSize setups
          (asks ++ (Event.startLoadKv self metadata deadline).asks) self (before.workers self) :=
        (sound.minded self).more
      have serves := startLoadKv_serves (before.workers self) metadata deadline
      refine Minded.of_serves ?_ serves
      refine ⟨mine.known, fun item member => ?_, mine.loads, mine.starting⟩
      rcases List.mem_append.mp member with old | new
      · exact mine.queued item old
      · obtain ⟨entry, among, rfl⟩ := List.mem_map.mp new
        exact List.mem_append_right _ (List.mem_map.mpr ⟨entry, among, rfl⟩)
  | @reports self now timeout reported =>
      subst reported
      refine sound.update ?_ rfl (fun _ old => Or.inl old) fun _ old => Or.inl old
      obtain ⟨served, serves, reportedEq⟩ := getFinished_serves (before.workers self) now timeout
      have minded : Minded elementSize setups (asks ++ (Event.getFinished self now timeout).asks)
          self served := (sound.minded self).more.of_serves serves
      rw [reportedEq]
      exact ⟨minded.known, minded.queued, minded.loads, minded.starting⟩
  | @turns _ self requestId seen worker calls silent honest turn turned =>
      rw [silent.1]
      have result := turn.minded (sound.minded self)
      refine sound.update result.1.more turned.workers (fun read member => ?_) fun sent member => ?_
      · rw [turned.reads] at member
        refine (List.mem_append.mp member).imp_right fun new => ?_
        obtain ⟨call, among, posted⟩ := List.mem_flatMap.mp new
        have sentBy : SentBy setups (asks ++ []) self requestId call.target call.notice :=
          (result.2 call among).more
        cases call with
        | notify target notice => exact absurd posted List.not_mem_nil
        | read target notice rows remoteRows accepted =>
            obtain rfl := List.mem_singleton.mp posted
            exact sentBy
      · rw [turned.notices] at member
        refine (List.mem_append.mp member).imp_right fun new => ?_
        obtain ⟨call, among, posted⟩ := List.mem_flatMap.mp new
        have sentBy : SentBy setups (asks ++ []) self requestId call.target call.notice :=
          (result.2 call among).more
        cases call with
        | notify target notice =>
            obtain rfl := List.mem_singleton.mp posted
            exact ⟨requestId, sentBy⟩
        | read target notice rows remoteRows accepted => exact absurd posted List.not_mem_nil
  | @takes self sender index now notice found taken =>
      subst taken
      refine sound.update ?_ rfl (fun _ old => Or.inl old) fun _ old => Or.inl old
      exact (sound.minded self).more.of_serves (takeNotification_serves _ notice now)
  | @delivers _ handle read status silent found moves delivered =>
      rw [silent.1]
      subst delivered
      have sentBy := sound.reads read (List.mem_of_getElem? found)
      refine ⟨fun self => (sound.minded self).more, fun other member => ?_, fun sent member => ?_⟩
      · rcases List.mem_or_eq_of_mem_set member with old | rfl
        · exact (sound.reads other old).more
        · exact sentBy.more
      · rcases List.mem_append.mp member with old | new
        · obtain ⟨requestId, sentBy⟩ := sound.notices sent old
          exact ⟨requestId, sentBy.more⟩
        · obtain rfl := List.mem_singleton.mp new
          exact ⟨read.requestId, sentBy.more⟩
  | @breaks handle read found running broken =>
      subst broken
      have sentBy := sound.reads read (List.mem_of_getElem? found)
      refine ⟨fun self => (sound.minded self).more, fun other member => ?_, fun sent member => ?_⟩
      · rcases List.mem_or_eq_of_mem_set member with old | rfl
        · exact (sound.reads other old).more
        · exact sentBy.more
      · obtain ⟨requestId, sentBy⟩ := sound.notices sent member
        exact ⟨requestId, sentBy.more⟩

theorem run_sound {events : List Event}
    (run : Run (Next elementSize setups) {} events fleet) :
    Sound elementSize setups (events.flatMap Event.asks) fleet := by
  refine run.invariant (fun events fleet => Sound elementSize setups (events.flatMap Event.asks) fleet)
    ?_ ?_
  · refine ⟨fun self => ⟨?_, fun _ absurdly => absurd absurdly List.not_mem_nil, ?_, nofun⟩,
      fun _ absurdly => absurd absurdly List.not_mem_nil,
      fun _ absurdly => absurd absurdly List.not_mem_nil⟩
    · intro key remote found
      simp at found
    · intro requestId load found
      simp at found
  · intro events before event after sound taken
    rw [List.flatMap_append, List.flatMap_singleton]
    exact (taken.effect fun self => (sound.minded self).known).sound sound

/-! ## One rank on each side -/

end Fleet

/-- Ranks of one layer with three heads.  The engine that produces is called "p". -/
def RankSetup.sample (self : WorkerId) : RankSetup :=
  ⟨1, 2, [⟨"bfloat16", 4096, 8, .kv 3 2 1⟩], 8, 0, "h", 5000, self.engineId = "p"⟩

/-- Block 2 is loaded from block 5 of request "a". -/
def ReqToRecv.sample : ReqToRecv :=
  ⟨[2], [5], "a", "p", "h", 5000, 1⟩

namespace Fleet

/-- An event that can happen. -/
def sampleStep (fleet : Fleet) (event : Event) : Fleet :=
  (fleet.next (fun _ => 2) RankSetup.sample event).getD fleet

theorem next_sampleStep (fleet : Fleet) (event : Event)
    (valid : event.Valid RankSetup.sample fleet)
    (possible : (fleet.next (fun _ => 2) RankSetup.sample event).isSome = true) :
    Next (fun _ => 2) RankSetup.sample fleet event (fleet.sampleStep event) := by
  refine ⟨valid, ?_⟩
  obtain ⟨after, taken⟩ := Option.isSome_iff_exists.mp possible
  rw [sampleStep, taken]
  rfl

def sampleExposes : Event :=
  .startLoadKv ⟨"p", 0⟩ { reqsToSend := AList.insert "a" [5] ∅ } 10

def sampleQueues : Event :=
  .startLoadKv ⟨"c", 0⟩ { reqsToRecv := AList.insert "b" .sample ∅ } 10

def sampleBegins : Event :=
  .beginLoad ⟨"c", 0⟩ 0 true fun _ => true

def sampleStarts : Event :=
  .startShare ⟨"c", 0⟩ (some ⟨"p", 0⟩) true true true fun _ => true

def samplePlanned : Fleet :=
  ((({} : Fleet).sampleStep sampleExposes).sampleStep sampleQueues).sampleStep sampleBegins

def sampleReading : Fleet :=
  samplePlanned.sampleStep sampleStarts

def sampleReported : Fleet :=
  ((sampleReading.sampleStep (.complete 0)).sampleStep (.takeNotification ⟨"p", 0⟩ 0 1)).sampleStep
    (.getFinished ⟨"p", 0⟩ 2 5)

theorem samplePlanned_dials : samplePlanned.Dials RankSetup.sample ⟨"c", 0⟩ ⟨"p", 0⟩ := by
  intro requestId share i rest load starting found
  have planned : (samplePlanned.workers ⟨"c", 0⟩).starting =
      some ⟨"b", [(⟨0, 0, 0, 3⟩, 0)]⟩ := rfl
  have loading : (samplePlanned.workers ⟨"c", 0⟩).loads.lookup "b" =
      some ⟨.sample, 0, [], [0], 0, false⟩ := rfl
  obtain ⟨rfl, sharesEq⟩ := Starting.mk.inj (Option.some.inj (starting.symm.trans planned))
  obtain rfl := Option.some.inj (found.symm.trans loading)
  obtain ⟨rfl, rfl⟩ := Prod.mk.inj (List.cons.inj sharesEq).1
  exact ⟨rfl, rfl, rfl⟩

theorem sampleReading_run :
    Run (Next (fun _ => 2) RankSetup.sample) {}
      [sampleExposes, sampleQueues, sampleBegins, sampleStarts] sampleReading := by
  have exposed := Run.nil.snoc (next_sampleStep {} sampleExposes trivial rfl)
  have queued := exposed.snoc (next_sampleStep _ sampleQueues trivial rfl)
  have begun := queued.snoc (next_sampleStep _ sampleBegins trivial (by decide +kernel))
  refine begun.snoc (next_sampleStep _ sampleStarts ?_ (by decide +kernel))
  rintro answering ⟨⟩
  exact samplePlanned_dials

theorem sampleReported_run :
    Run (Next (fun _ => 2) RankSetup.sample) {}
      [sampleExposes, sampleQueues, sampleBegins, sampleStarts, .complete 0,
        .takeNotification ⟨"p", 0⟩ 0 1, .getFinished ⟨"p", 0⟩ 2 5] sampleReported := by
  have done := sampleReading_run.snoc
    (next_sampleStep _ (.complete 0) trivial (by decide +kernel))
  have taken := done.snoc
    (next_sampleStep _ (.takeNotification ⟨"p", 0⟩ 0 1) trivial (by decide +kernel))
  exact taken.snoc (next_sampleStep _ (.getFinished ⟨"p", 0⟩ 2 5) trivial (by decide +kernel))

end Fleet

end LeanVllm
