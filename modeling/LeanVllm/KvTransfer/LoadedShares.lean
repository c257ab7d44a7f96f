import LeanVllm.KvTransfer.LoadReports
import LeanVllm.KvTransfer.ReadPlans

/-!
# Shares that were loaded

While a load is under way its running reads are among its handles, and each share that was
started was read or is being read.  So when a load is reported none of its reads is running,
and one that is reported finished had every share of its plan read.
-/

namespace LeanVllm

open Collections Transition NixlConnectorWorker

section Shares

variable (elementSize : String → Nat) (setups : WorkerId → RankSetup)

/-- A share has nothing to read on this rank, or there is a read of it that is so. -/
def Fetched (reads : List Read) (self : WorkerId) (requestId : RequestId) (req : ReqToRecv)
    (planned : Share × Nat) (is : Nat → Read → Prop) : Prop :=
  localRows elementSize setups self req planned = .ok [] ∨
    ∃ handle read, reads[handle]? = some read ∧ read.reader = self ∧ read.requestId = requestId ∧
      ReadsShare elementSize setups self req planned read.target read.notice read.rows
        read.remoteRows ∧ is handle read

/-- The shares of a load that are not started. -/
def Remaining (worker : NixlConnectorWorker) (requestId : RequestId) (rest : List (Share × Nat)) :
    Prop :=
  worker.starting = some ⟨requestId, rest⟩ ∨
    rest = [] ∧ ∀ shares, worker.starting ≠ some ⟨requestId, shares⟩

/-- Each share of a load that was started was read or is being read. -/
def Underway (reads : List Read) (self : WorkerId) (worker : NixlConnectorWorker)
    (requestId : RequestId) (load : NixlLoad) : Prop :=
  ∃ shares started rest, planOf setups self load.req = .ok shares ∧
    shares.zipIdx = started ++ rest ∧ Remaining worker requestId rest ∧
    ∀ planned ∈ started, Fetched elementSize setups reads self requestId load.req planned
      fun handle read => handle ∈ load.handles ∨ read.status = .done

/-- A load that was asked for had every share of its plan read. -/
def Loaded (reads : List Read) (asks : List (WorkerId × RequestId × ReqToRecv)) (self : WorkerId)
    (requestId : RequestId) : Prop :=
  ∃ req shares, (self, requestId, req) ∈ asks ∧ planOf setups self req = .ok shares ∧
    ∀ planned ∈ shares.zipIdx, Fetched elementSize setups reads self requestId req planned
      fun _ read => read.status = .done

/-- Reads are kept, and those that are done stay so. -/
def GoesOn (before after : List Read) : Prop :=
  ∀ (handle : Nat) (read : Read), before[handle]? = some read → ∃ status : ReadStatus,
    after[handle]? = some { read with status := status } ∧ (read.status = .done → status = .done)

end Shares

section Keeping

variable {elementSize : String → Nat} {setups : WorkerId → RankSetup} {self : WorkerId}
  {requestId : RequestId} {req : ReqToRecv} {planned : Share × Nat}
  {before after posted : List Read} {is still : Nat → Read → Prop}
  {asks later : List (WorkerId × RequestId × ReqToRecv)}

theorem goesOn_append : GoesOn before (before ++ posted) := by
  intro handle read found
  refine ⟨read.status, ?_, id⟩
  rw [List.getElem?_append_left (List.getElem?_eq_some_iff.mp found).1]
  exact found

theorem goesOn_set {handle : Nat} {read : Read} {status : ReadStatus}
    (found : before[handle]? = some read) (going : read.status ≠ .done) :
    GoesOn before (before.set handle { read with status := status }) := by
  intro other otherRead otherFound
  by_cases same : handle = other
  · subst same
    obtain rfl := Option.some.inj (found.symm.trans otherFound)
    obtain ⟨inside, _⟩ := List.getElem?_eq_some_iff.mp found
    refine ⟨status, ?_, fun done => absurd done going⟩
    rw [List.getElem?_set_self inside]
  · refine ⟨otherRead.status, ?_, id⟩
    rw [List.getElem?_set_ne same]
    exact otherFound

theorem Fetched.mono (kept : GoesOn before after)
    (fetched : Fetched elementSize setups before self requestId req planned is)
    (goes : ∀ handle read status, before[handle]? = some read → is handle read →
      (read.status = .done → status = .done) → still handle { read with status := status }) :
    Fetched elementSize setups after self requestId req planned still := by
  refine fetched.imp_right ?_
  rintro ⟨handle, read, found, reader, request, reads, was⟩
  obtain ⟨status, found', done⟩ := kept handle read found
  exact ⟨handle, _, found', reader, request, reads, goes handle read status found was done⟩

theorem Loaded.mono (kept : GoesOn before after)
    (loaded : Loaded elementSize setups before asks self requestId) :
    Loaded elementSize setups after asks self requestId := by
  obtain ⟨req, shares, asked, plan, fetched⟩ := loaded
  exact ⟨req, shares, asked, plan, fun planned member =>
    (fetched planned member).mono kept fun _ _ _ _ was done => done was⟩

theorem Loaded.more (loaded : Loaded elementSize setups before asks self requestId) :
    Loaded elementSize setups before (asks ++ later) self requestId := by
  obtain ⟨req, shares, asked, plan, fetched⟩ := loaded
  exact ⟨req, shares, List.mem_append_left _ asked, plan, fetched⟩

/-- A load that is left alone. -/
theorem Underway.mono {worker next : NixlConnectorWorker} {load : NixlLoad}
    (kept : GoesOn before after)
    (remaining : ∀ rest, Remaining worker requestId rest → Remaining next requestId rest)
    (underway : Underway elementSize setups before self worker requestId load) :
    Underway elementSize setups after self next requestId load := by
  obtain ⟨shares, started, rest, plan, split, left, fetched⟩ := underway
  exact ⟨shares, started, rest, plan, split, remaining rest left, fun planned member =>
    (fetched planned member).mono kept fun _ _ _ _ was done => was.imp_right done⟩

end Keeping

namespace Fleet

variable {elementSize : String → Nat} {setups : WorkerId → RankSetup}
  {before after fleet : Fleet} {event : Event} {self : WorkerId} {requestId : RequestId}
  {asks : List (WorkerId × RequestId × ReqToRecv)}

/-- Running reads belong to loads that are under way, and loads that were reported finished
were read. -/
structure Tracked (elementSize : String → Nat) (setups : WorkerId → RankSetup)
    (asks : List (WorkerId × RequestId × ReqToRecv)) (fleet : Fleet) : Prop where
  running : ∀ handle read, fleet.reads[handle]? = some read → read.status = .running →
    ∃ load, (fleet.workers read.reader).loads.lookup read.requestId = some load ∧
      handle ∈ load.handles
  underway : ∀ self requestId load, (fleet.workers self).loads.lookup requestId = some load →
    load.failed = false →
      Underway elementSize setups fleet.reads self (fleet.workers self) requestId load
  finished : ∀ self, ∀ requestId ∈ (fleet.workers self).finished.finishedRecving,
    Loaded elementSize setups fleet.reads asks self requestId
  reported : ∀ self report, (self, report) ∈ fleet.reports →
    ∀ requestId ∈ report.finishedRecving,
      Loaded elementSize setups fleet.reads asks self requestId

/-- A worker that serves, and reads that go on. -/
theorem Tracked.serves {worker : NixlConnectorWorker} {later : List (WorkerId × RequestId × ReqToRecv)}
    (tracked : Tracked elementSize setups asks before)
    (workers : after.workers = Function.update before.workers self worker)
    (loads : worker.loads = (before.workers self).loads)
    (starting : worker.starting = (before.workers self).starting)
    (finished : ∀ requestId ∈ worker.finished.finishedRecving,
      requestId ∈ (before.workers self).finished.finishedRecving)
    (reads : after.reads = before.reads)
    (reports : ∀ other report, (other, report) ∈ after.reports →
      (other, report) ∈ before.reports ∨ ∀ requestId ∈ report.finishedRecving,
        requestId ∈ (before.workers other).finished.finishedRecving) :
    Tracked elementSize setups (asks ++ later) after := by
  have kept : GoesOn before.reads after.reads := by
    rw [reads]
    exact fun handle read found => ⟨read.status, found, id⟩
  have sameLoads : ∀ other, (after.workers other).loads = (before.workers other).loads ∧
      (after.workers other).starting = (before.workers other).starting := by
    intro other
    rw [workers]
    by_cases same : other = self
    · subst same
      rw [Function.update_self]
      exact ⟨loads, starting⟩
    · rw [Function.update_of_ne same]
      exact ⟨rfl, rfl⟩
  refine ⟨fun handle read found running => ?_, fun other requestId load found unfailed => ?_,
    fun other requestId member => ?_, fun other report member requestId among => ?_⟩
  · rw [(sameLoads read.reader).1]
    exact tracked.running handle read (reads ▸ found) running
  · rw [(sameLoads other).1] at found
    refine (tracked.underway other requestId load found unfailed).mono kept fun rest left => ?_
    rw [Remaining, (sameLoads other).2]
    exact left
  · rw [workers] at member
    by_cases same : other = self
    · subst same
      rw [Function.update_self] at member
      exact ((tracked.finished _ _ (finished _ member)).mono kept).more
    · rw [Function.update_of_ne same] at member
      exact ((tracked.finished other _ member).mono kept).more
  · rcases reports other report member with old | new
    · exact ((tracked.reported other report old _ among).mono kept).more
    · exact ((tracked.finished other _ (new _ among)).mono kept).more

end Fleet

section Turns

variable {elementSize : String → Nat} {setups : WorkerId → RankSetup} {self : WorkerId}
  {handle : Nat} {seen : Nat → XferState} {requestId other : RequestId}
  {before after : NixlConnectorWorker} {calls : List AgentCall} {load nextLoad : NixlLoad}
  {planned : Share × Nat} {raised : Bool}

/-- A failing load posts no read. -/
theorem NixlConnectorWorker.Notifies.reads_eq {req : ReqToRecv} {ranks : List Int}
    (notifies : Notifies setups self req ranks calls) :
    calls.flatMap (AgentCall.reads self requestId) = [] := by
  obtain ⟨chosen, among, matched⟩ := notifies
  clear among
  induction matched with
  | nil => rfl
  | cons paired rest ih =>
      obtain ⟨target, notice, rfl, _⟩ := paired
      exact ih

/-- A share adds its handle, and loses none. -/
theorem StartsShare.handles
    (share : StartsShare elementSize setups self load planned handle nextLoad calls raised)
    {old : Nat} (member : old ∈ load.handles) : old ∈ nextLoad.handles := by
  cases share with
  | raises => exact member
  | refused reads => exact List.mem_append_left _ member
  | notifies reaches none => exact member
  | reads reads => exact List.mem_append_left _ member

/-- A read that a share posts and that runs is among the handles. -/
theorem StartsShare.running
    (share : StartsShare elementSize setups self load planned handle nextLoad calls raised)
    {place : Nat} {read : Read}
    (found : (calls.flatMap (AgentCall.reads self requestId))[place]? = some read)
    (running : read.status = .running) :
    place = 0 ∧ read.reader = self ∧ read.requestId = requestId ∧ handle ∈ nextLoad.handles := by
  cases share with
  | raises => cases found
  | @refused target notice rows remoteRows reads =>
      obtain rfl := List.mem_singleton.mp (List.mem_of_getElem? found)
      cases running
  | notifies reaches none => cases found
  | @reads target notice rows remoteRows reads =>
      have inside : place < 1 := (List.getElem?_eq_some_iff.mp found).1
      obtain rfl := List.mem_singleton.mp (List.mem_of_getElem? found)
      exact ⟨by omega, rfl, rfl, List.mem_append_right _ (List.mem_singleton.mpr rfl)⟩

theorem NixlConnectorWorker.Polls.handles
    (polls : Polls elementSize setups self load seen nextLoad calls) :
    nextLoad.handles = load.handles.filter fun handle => seen handle = .proc := by
  cases polls <;> rfl

theorem NixlConnectorWorker.Polls.reads_eq
    (polls : Polls elementSize setups self load seen nextLoad calls) :
    calls.flatMap (AgentCall.reads self requestId) = [] := by
  obtain ⟨_, ⟨_, rfl⟩ | ⟨_, notifies⟩⟩ := polls.frame
  · rfl
  · exact notifies.reads_eq

/-- A turn for one load leaves the others. -/
theorem NixlConnectorWorker.TransferTurn.lookup_of_ne
    (turn : TransferTurn elementSize setups self handle seen before requestId after calls)
    (different : other ≠ requestId) : after.loads.lookup other = before.loads.lookup other := by
  cases turn with
  | ends => rfl
  | lands => exact AList.lookup_erase_ne different
  | starts | stillborn | shares | stops | waits => exact AList.lookup_insert_ne different

theorem NixlConnectorWorker.TransferTurn.starting_ne
    (turn : TransferTurn elementSize setups self handle seen before requestId after calls)
    (different : other ≠ requestId) (shares : List (Share × Nat)) :
    before.starting ≠ some ⟨other, shares⟩ ∧ after.starting ≠ some ⟨other, shares⟩ := by
  have apart : ∀ rest : List (Share × Nat), some (⟨requestId, rest⟩ : Starting) ≠
      some ⟨other, shares⟩ := by
    intro rest same
    exact different (Starting.mk.inj (Option.some.inj same)).1.symm
  cases turn with
  | starts idle queued plan => exact ⟨by rw [idle]; nofun, apart _⟩
  | stillborn idle queued plan notifies => exact ⟨by rw [idle]; nofun, nofun⟩
  | ends starting => exact ⟨by rw [starting]; exact apart _, nofun⟩
  | shares starting found learns known share => exact ⟨by rw [starting]; exact apart _, apart _⟩
  | stops starting found learns known share notifies =>
      exact ⟨by rw [starting]; exact apart _, nofun⟩
  | waits idle found polls pending => exact ⟨by rw [idle]; nofun, by rw [idle]; nofun⟩
  | lands idle found polls none => exact ⟨by rw [idle]; nofun, by rw [idle]; nofun⟩

theorem NixlConnectorWorker.TransferTurn.remaining
    (turn : TransferTurn elementSize setups self handle seen before requestId after calls)
    (different : other ≠ requestId) (rest : List (Share × Nat))
    (remaining : Remaining before other rest) : Remaining after other rest := by
  rcases remaining with starting | ⟨none, _⟩
  · exact absurd starting (turn.starting_ne different rest).1
  · exact Or.inr ⟨none, fun shares => (turn.starting_ne different shares).2⟩

/-- A read that still runs is not dropped by its load. -/
theorem NixlConnectorWorker.TransferTurn.keeps_handle
    (turn : TransferTurn elementSize setups self handle seen before requestId after calls)
    (fresh : ∀ req rest, before.queue = (requestId, req) :: rest →
      before.loads.lookup requestId = none)
    (found : before.loads.lookup requestId = some load) {old : Nat} (member : old ∈ load.handles)
    (runs : seen old = .proc) :
    ∃ next, after.loads.lookup requestId = some next ∧ old ∈ next.handles := by
  cases turn with
  | starts idle queued plan => cases (fresh _ _ queued).symm.trans found
  | stillborn idle queued plan notifies => cases (fresh _ _ queued).symm.trans found
  | ends starting => exact ⟨load, found, member⟩
  | shares starting ownFound learns known share =>
      obtain rfl := Option.some.inj (ownFound.symm.trans found)
      exact ⟨_, AList.lookup_insert _, share.handles member⟩
  | stops starting ownFound learns known share notifies =>
      obtain rfl := Option.some.inj (ownFound.symm.trans found)
      exact ⟨_, AList.lookup_insert _, share.handles member⟩
  | waits idle ownFound polls pending =>
      obtain rfl := Option.some.inj (ownFound.symm.trans found)
      refine ⟨_, AList.lookup_insert _, ?_⟩
      rw [polls.handles]
      exact List.mem_filter.mpr ⟨member, decide_eq_true runs⟩
  | lands idle ownFound polls none =>
      obtain rfl := Option.some.inj (ownFound.symm.trans found)
      have kept : old ∈ ([] : List Nat) := by
        rw [← none, polls.handles]
        exact List.mem_filter.mpr ⟨member, decide_eq_true runs⟩
      exact absurd kept List.not_mem_nil

/-- A read that a turn posts and that runs is among the handles of its load. -/
theorem NixlConnectorWorker.TransferTurn.posts_running
    (turn : TransferTurn elementSize setups self handle seen before requestId after calls)
    {place : Nat} {read : Read}
    (found : (calls.flatMap (AgentCall.reads self requestId))[place]? = some read)
    (running : read.status = .running) :
    place = 0 ∧ read.reader = self ∧ read.requestId = requestId ∧
      ∃ next, after.loads.lookup requestId = some next ∧ handle ∈ next.handles := by
  cases turn with
  | starts | ends => cases found
  | stillborn idle queued plan notifies =>
      rw [notifies.reads_eq] at found
      cases found
  | shares starting ownFound learns known share =>
      obtain ⟨first, reader, request, member⟩ := share.running found running
      exact ⟨first, reader, request, _, AList.lookup_insert _, member⟩
  | stops starting ownFound learns known share notifies =>
      rw [List.flatMap_append, notifies.reads_eq, List.append_nil] at found
      obtain ⟨first, reader, request, member⟩ := share.running found running
      exact ⟨first, reader, request, _, AList.lookup_insert _, member⟩
  | waits idle ownFound polls pending =>
      rw [polls.reads_eq] at found
      cases found
  | lands idle ownFound polls none =>
      rw [polls.reads_eq] at found
      cases found

variable {reads : List Read}

/-- A share that is started without failing was read or has nothing to read. -/
theorem StartsShare.fetched
    (share : StartsShare elementSize setups self load planned reads.length nextLoad calls false) :
    Fetched elementSize setups (reads ++ calls.flatMap (AgentCall.reads self requestId)) self
      requestId load.req planned fun handle read =>
        handle ∈ nextLoad.handles ∨ read.status = .done := by
  cases share with
  | notifies reaches none => exact Or.inl none
  | @reads target notice rows remoteRows shareReads =>
      refine Or.inr ⟨reads.length, ⟨self, requestId, target, notice, rows, remoteRows, .running⟩,
        ?_, rfl, rfl, shareReads, Or.inl (List.mem_append_right _ (List.mem_singleton.mpr rfl))⟩
      simp [AgentCall.reads]

/-- What is polled of a load that goes on was seen done or is still a handle. -/
theorem NixlConnectorWorker.Polls.underway
    (polls : Polls elementSize setups self load seen nextLoad calls)
    (unfailed : nextLoad.failed = false) (honest : ∀ (handle : Nat) (read : Read),
      reads[handle]? = some read → seen handle = .done → read.status = .done)
    (underway : load.failed = false → Underway elementSize setups reads self before requestId load) :
    Underway elementSize setups reads self before requestId nextLoad := by
  cases polls with
  | fails among broken notifies => cases unfailed
  | goesOn sound =>
      obtain ⟨shares, started, rest, plan, split, left, fetched⟩ := underway unfailed
      refine ⟨shares, started, rest, plan, split, left, fun planned member => ?_⟩
      refine (fetched planned member).imp_right ?_
      rintro ⟨handle, read, found, reader, request, shareReads, going⟩
      refine ⟨handle, read, found, reader, request, shareReads, ?_⟩
      rcases going with member | done
      · cases seenEq : seen handle with
        | proc => exact Or.inl (List.mem_filter.mpr ⟨member, decide_eq_true seenEq⟩)
        | done => exact Or.inr (honest handle read found seenEq)
        | err => exact absurd seenEq (sound handle member)
      · exact Or.inr done

theorem NixlConnectorWorker.TransferTurn.underway
    (turn : TransferTurn elementSize setups self reads.length seen before requestId after calls)
    (honest : ∀ (handle : Nat) (read : Read),
      reads[handle]? = some read → seen handle = .done → read.status = .done)
    (underway : ∀ load, before.loads.lookup requestId = some load → load.failed = false →
      Underway elementSize setups reads self before requestId load)
    (found : after.loads.lookup requestId = some nextLoad) (unfailed : nextLoad.failed = false) :
    Underway elementSize setups (reads ++ calls.flatMap (AgentCall.reads self requestId)) self
      after requestId nextLoad := by
  cases turn with
  | @starts req rest shares started idle queued plan =>
      obtain rfl := Option.some.inj ((AList.lookup_insert _).symm.trans found)
      exact ⟨shares, [], shares.zipIdx, plan, rfl, Or.inl rfl,
        fun _ absurdly => absurd absurdly List.not_mem_nil⟩
  | stillborn idle queued plan notifies =>
      obtain rfl := Option.some.inj ((AList.lookup_insert _).symm.trans found)
      cases unfailed
  | ends starting =>
      refine (underway nextLoad found unfailed).mono goesOn_append fun rest left => ?_
      rcases left with same | ⟨none, different⟩
      · obtain ⟨_, rfl⟩ := Starting.mk.inj (Option.some.inj (same.symm.trans starting))
        exact Or.inr ⟨rfl, nofun⟩
      · exact absurd starting (different _)
  | @shares planned rest load newLoad middle _ starting ownFound learns known share =>
      obtain rfl := Option.some.inj ((AList.lookup_insert _).symm.trans found)
      obtain ⟨reqEq, failedEq, _⟩ := share.frame
      obtain ⟨shares, started, left, plan, split, remaining, fetched⟩ :=
        underway load ownFound (failedEq.symm.trans unfailed)
      obtain rfl : left = planned :: rest := by
        rcases remaining with same | ⟨_, different⟩
        · exact (Starting.mk.inj (Option.some.inj (same.symm.trans starting))).2
        · exact absurd starting (different _)
      refine ⟨shares, started ++ [planned], rest, reqEq ▸ plan, by simp [split], Or.inl rfl,
        fun other member => ?_⟩
      rw [reqEq]
      rcases List.mem_append.mp member with old | new
      · refine (fetched other old).mono goesOn_append fun handle read status _ going done => ?_
        exact going.imp share.handles done
      · obtain rfl := List.mem_singleton.mp new
        exact share.fetched
  | stops starting ownFound learns known share notifies =>
      obtain rfl := Option.some.inj ((AList.lookup_insert _).symm.trans found)
      cases unfailed
  | waits idle ownFound polls pending =>
      obtain rfl := Option.some.inj ((AList.lookup_insert _).symm.trans found)
      rw [polls.reads_eq, List.append_nil]
      exact polls.underway unfailed honest (underway _ ownFound)
  | lands idle ownFound polls none =>
      cases (AList.lookup_erase requestId before.loads).symm.trans found

/-- A load that a turn reports finished was read. -/
theorem NixlConnectorWorker.TransferTurn.finished
    (turn : TransferTurn elementSize setups self reads.length seen before requestId after calls)
    (honest : ∀ (handle : Nat) (read : Read),
      reads[handle]? = some read → seen handle = .done → read.status = .done)
    (underway : ∀ load, before.loads.lookup requestId = some load → load.failed = false →
      Underway elementSize setups reads self before requestId load)
    {asks : List (WorkerId × RequestId × ReqToRecv)}
    (asked : ∀ load, before.loads.lookup requestId = some load →
      (self, requestId, load.req) ∈ asks)
    (member : other ∈ after.finished.finishedRecving) :
    other ∈ before.finished.finishedRecving ∨
      other = requestId ∧ Loaded elementSize setups reads asks self requestId := by
  cases turn with
  | starts | stillborn | ends | waits => exact Or.inl member
  | shares starting found learns known share | stops starting found learns known share notifies =>
      exact Or.inl (learns.finished ▸ member)
  | @lands load polled _ now idle found polls none =>
      simp only [landed] at member
      split at member
      · exact Or.inl member
      · rename_i unfailed
        rcases List.mem_insert_iff.mp member with rfl | old
        · obtain ⟨shares, started, rest, plan, split, remaining, fetched⟩ :=
            polls.underway (eq_false_of_ne_true unfailed) honest (underway load found)
          have ended : rest = [] := by
            rcases remaining with starting | ⟨none, _⟩
            · cases idle.symm.trans starting
            · exact none
          rw [ended, List.append_nil] at split
          rw [polls.frame.1] at plan fetched
          refine Or.inr ⟨rfl, load.req, shares, asked load found, plan, fun planned member => ?_⟩
          refine (fetched planned (split ▸ member)).imp_right ?_
          rintro ⟨handle, read, readFound, reader, request, shareReads, going⟩
          refine ⟨handle, read, readFound, reader, request, shareReads, going.resolve_left ?_⟩
          rw [none]
          exact List.not_mem_nil
        · exact Or.inl old

end Turns

namespace Fleet

variable {elementSize : String → Nat} {setups : WorkerId → RankSetup}
  {before after fleet : Fleet} {event : Event} {self : WorkerId} {requestId : RequestId}
  {asks : List (WorkerId × RequestId × ReqToRecv)}

/-- A load that is queued is not under way. -/
def Fresh (fleet : Fleet) : Prop :=
  ∀ self requestId req rest, (fleet.workers self).queue = (requestId, req) :: rest →
    (fleet.workers self).loads.lookup requestId = none

theorem Tracked.turn {seen : Nat → XferState} {worker : NixlConnectorWorker}
    {calls : List AgentCall} (tracked : Tracked elementSize setups asks before)
    (sound : Sound elementSize setups asks before) (fresh : before.Fresh)
    (honest : before.Seen seen)
    (turn : TransferTurn elementSize setups self before.reads.length seen (before.workers self)
      requestId worker calls)
    (turned : Turned self requestId worker calls before after) :
    Tracked elementSize setups asks after := by
  have done : ∀ (handle : Nat) (read : Read), before.reads[handle]? = some read →
      seen handle = .done → read.status = .done := fun handle read found =>
    (honest handle read found).1
  have own := tracked.underway self requestId
  have readsEq := turned.reads
  have kept : GoesOn before.reads after.reads := by
    rw [readsEq]
    exact goesOn_append
  have others : ∀ other, other ≠ self → after.workers other = before.workers other := by
    intro other different
    rw [turned.workers, Function.update_of_ne different]
  have mine : after.workers self = worker := by
    rw [turned.workers, Function.update_self]
  refine ⟨fun handle read found running => ?_, fun other load nextLoad found unfailed => ?_,
    fun other load member => ?_, fun other report member load among => ?_⟩
  · rw [readsEq] at found
    by_cases old : handle < before.reads.length
    · rw [List.getElem?_append_left old] at found
      obtain ⟨load, loading, member⟩ := tracked.running handle read found running
      by_cases reader : read.reader = self
      · rw [reader] at loading ⊢
        rw [mine]
        by_cases request : read.requestId = requestId
        · rw [request] at loading ⊢
          refine turn.keeps_handle (fresh self requestId) loading member ?_
          cases seenEq : seen handle with
          | proc => rfl
          | done => cases running.symm.trans ((honest handle read found).1 seenEq)
          | err =>
              rcases (honest handle read found).2 seenEq with broken | spent
              · cases running.symm.trans broken
              · cases running.symm.trans spent
        · rw [turn.lookup_of_ne request]
          exact ⟨load, loading, member⟩
      · rw [others _ reader]
        exact ⟨load, loading, member⟩
    · rw [List.getElem?_append_right (Nat.le_of_not_lt old)] at found
      obtain ⟨first, reader, request, next, loading, member⟩ := turn.posts_running found running
      obtain rfl : handle = before.reads.length := by omega
      rw [reader, request, mine]
      exact ⟨next, loading, member⟩
  · by_cases same : other = self
    · subst same
      rw [mine] at found ⊢
      by_cases request : load = requestId
      · subst request
        rw [readsEq]
        exact turn.underway done own found unfailed
      · rw [turn.lookup_of_ne request] at found
        exact (tracked.underway other load nextLoad found unfailed).mono kept
          (turn.remaining request)
    · rw [others other same] at found ⊢
      exact (tracked.underway other load nextLoad found unfailed).mono kept fun _ => id
  · by_cases same : other = self
    · subst same
      rw [mine] at member
      have asked := fun load found => ((sound.minded other).loads requestId load found).1
      rcases turn.finished done own asked member with old | ⟨rfl, loaded⟩
      · exact (tracked.finished other load old).mono kept
      · exact loaded.mono kept
    · rw [others other same] at member
      exact (tracked.finished other load member).mono kept
  · rw [turned.reports] at member
    exact (tracked.reported other report member load among).mono kept

/-- A read that ends or breaks. -/
theorem Tracked.set {handle : Nat} {read : Read} {status : ReadStatus}
    (tracked : Tracked elementSize setups asks before)
    (found : before.reads[handle]? = some read) (going : read.status ≠ .done)
    (ended : status ≠ .running) (workers : after.workers = before.workers)
    (reads : after.reads = before.reads.set handle { read with status := status })
    (reports : after.reports = before.reports) : Tracked elementSize setups asks after := by
  have kept : GoesOn before.reads after.reads := by
    rw [reads]
    exact goesOn_set found going
  refine ⟨fun other otherRead otherFound running => ?_, fun self load nextLoad loading unfailed => ?_,
    fun self load member => ?_, fun self report member load among => ?_⟩
  · rw [reads] at otherFound
    rw [workers]
    by_cases same : handle = other
    · subst same
      rw [List.getElem?_set_self (List.getElem?_eq_some_iff.mp found).1] at otherFound
      obtain rfl := Option.some.inj otherFound
      exact absurd running ended
    · rw [List.getElem?_set_ne same] at otherFound
      exact tracked.running other otherRead otherFound running
  · rw [workers] at loading ⊢
    exact (tracked.underway self load nextLoad loading unfailed).mono kept fun _ => id
  · rw [workers] at member
    exact (tracked.finished self load member).mono kept
  · rw [reports] at member
    exact (tracked.reported self report member load among).mono kept

theorem Effect.tracked (effect : Effect elementSize setups before after event)
    (sound : Sound elementSize setups asks before) (fresh : before.Fresh)
    (tracked : Tracked elementSize setups asks before) :
    Tracked elementSize setups (asks ++ event.asks) after := by
  cases effect with
  | @queues worker metadata deadline queued =>
      subst queued
      have serves := startLoadKv_serves (before.workers worker) metadata deadline
      refine tracked.serves rfl serves.loads serves.starting (fun load member => ?_) rfl
        fun _ _ old => Or.inl old
      rw [serves.finishedRecving] at member
      exact member
  | @reports worker now timeout reported =>
      subst reported
      obtain ⟨served, serves, reportedEq⟩ := getFinished_serves (before.workers worker) now timeout
      rw [reportedEq]
      refine tracked.serves rfl serves.loads serves.starting
        (fun _ absurdly => absurd absurdly List.not_mem_nil) rfl fun other report member => ?_
      rcases List.mem_append.mp member with old | new
      · exact Or.inl old
      · obtain ⟨rfl, rfl⟩ := Prod.mk.inj (List.mem_singleton.mp new)
        rw [serves.finishedRecving]
        exact Or.inr fun _ => id
  | @turns _ worker load seen next called silent honest turn turned =>
      rw [silent.1, List.append_nil]
      exact tracked.turn sound fresh honest turn turned
  | @takes worker sender index now notice found taken =>
      subst taken
      have serves := takeNotification_serves (before.workers worker) notice now
      refine tracked.serves rfl serves.loads serves.starting (fun load member => ?_) rfl
        fun _ _ old => Or.inl old
      rw [serves.finishedRecving] at member
      exact member
  | @delivers _ handle read status silent found moves delivered =>
      subst delivered
      rw [silent.1, List.append_nil]
      rcases moves with ⟨running, rfl⟩ | ⟨broken, rfl⟩
      · exact tracked.set found (by rw [running]; decide) (by decide) rfl rfl rfl
      · exact tracked.set found (by rw [broken]; decide) (by decide) rfl rfl rfl
  | @breaks handle read found running broken =>
      subst broken
      have none : (Event.breaks handle).asks = [] := rfl
      rw [none, List.append_nil]
      exact tracked.set found (by rw [running]; decide) (by decide) rfl rfl rfl

/-- Each load is asked for once. -/
def AskedOnce (asks : List (WorkerId × RequestId × ReqToRecv)) : Prop :=
  ∀ self requestId, (asks.countP fun ask => ask.1 = self ∧ ask.2.1 = requestId) ≤ 1

theorem AskedOnce.of_append {later : List (WorkerId × RequestId × ReqToRecv)}
    (once : AskedOnce (asks ++ later)) : AskedOnce asks := by
  intro self requestId
  have few := once self requestId
  rw [List.countP_append] at few
  omega

/-- A load asked for once is in one place at most. -/
theorem fresh_of_run {events : List Event} (run : Run (Next elementSize setups) {} events fleet)
    (once : AskedOnce (events.flatMap Event.asks)) : fleet.Fresh := by
  intro self requestId req rest queued
  have grows := (run_loads_grow run self requestId).le
  have few := once self requestId
  by_contra loading
  have under : requestId ∈ (fleet.workers self).loads :=
    AList.lookup_isSome.mp (Option.isSome_iff_ne_none.mpr loading)
  have stocked : 2 ≤ (fleet.workers self).loadStock requestId := by
    simp only [loadStock, queued, List.countP_cons, decide_true, if_true, if_pos under]
    omega
  rw [accounted] at grows
  omega

theorem run_tracked {events : List Event} (run : Run (Next elementSize setups) {} events fleet)
    (once : AskedOnce (events.flatMap Event.asks)) :
    Tracked elementSize setups (events.flatMap Event.asks) fleet := by
  induction run with
  | nil =>
      refine ⟨fun handle read found => ?_, fun self requestId load found => ?_,
        fun _ _ absurdly => absurd absurdly List.not_mem_nil,
        fun _ _ absurdly => absurd absurdly List.not_mem_nil⟩
      · cases found
      · simp at found
  | @snoc events middle last event before final ih =>
      rw [List.flatMap_append, List.flatMap_singleton] at once ⊢
      have earlier := once.of_append
      have sound := run_sound before
      exact (final.effect fun self => (sound.minded self).known).tracked sound
        (fresh_of_run before earlier) (ih earlier)

/-- A load that is not under way has no read running. -/
theorem Tracked.not_running (tracked : Tracked elementSize setups asks fleet)
    (left : requestId ∉ (fleet.workers self).loads) :
    ∀ read ∈ fleet.reads, read.reader = self → read.requestId = requestId →
      read.status ≠ .running := by
  intro read member reader request running
  apply left
  obtain ⟨handle, found⟩ := List.mem_iff_getElem?.mp member
  obtain ⟨load, loading, _⟩ := tracked.running handle read found running
  rw [reader, request] at loading
  exact mem_loads_of_lookup loading

/-- A load that was asked for once is queued, or under way, or about to be reported, or was
reported: one of these.  Unless it is under way none of its reads is running, and none is
posted any more once it was reported. -/
theorem loads_accounted {events : List Event}
    (run : Run (Next elementSize setups) {} events fleet)
    (once : AskedOnce (events.flatMap Event.asks)) {req : ReqToRecv}
    (asked : (self, requestId, req) ∈ events.flatMap Event.asks) :
    ((fleet.workers self).queue.countP fun item => item.1 = requestId) +
        (if requestId ∈ (fleet.workers self).loads then 1 else 0) +
        (if ends requestId (fleet.workers self).finished then 1 else 0) +
        (fleet.reports.countP fun report => report.1 = self ∧ ends requestId report.2) = 1 ∧
      (requestId ∉ (fleet.workers self).loads → ∀ read ∈ fleet.reads, read.reader = self →
        read.requestId = requestId → read.status ≠ .running) := by
  have grows := run_loads_grow run self requestId
  have few := once self requestId
  have some : 0 < (events.flatMap Event.asks).countP
      fun ask => ask.1 = self ∧ ask.2.1 = requestId :=
    List.countP_pos_iff.mpr ⟨_, asked, decide_eq_true ⟨rfl, rfl⟩⟩
  have eq := grows.eq (by omega)
  constructor
  · simp only [accounted, loadStock] at eq
    omega
  · exact (run_tracked run once).not_running

/-- The load of the sample run, from its read to its report. -/
def samplePolled : Fleet :=
  (sampleReading.sampleStep (.complete 0)).sampleStep
    (.startShare ⟨"c", 0⟩ none false false false fun _ => false)

def sampleLoaded : Fleet :=
  (samplePolled.sampleStep (.poll ⟨"c", 0⟩ "b" (fun _ => .done) 2 fun _ => false)).sampleStep
    (.getFinished ⟨"c", 0⟩ 3 5)

theorem sampleLoaded_run :
    Run (Next (fun _ => 2) RankSetup.sample) {}
      [sampleExposes, sampleQueues, sampleBegins, sampleStarts, .complete 0,
        .startShare ⟨"c", 0⟩ none false false false fun _ => false,
        .poll ⟨"c", 0⟩ "b" (fun _ => .done) 2 fun _ => false, .getFinished ⟨"c", 0⟩ 3 5]
      sampleLoaded := by
  have done := sampleReading_run.snoc
    (next_sampleStep _ (.complete 0) trivial (by decide +kernel))
  have ended := done.snoc (next_sampleStep _
    (.startShare ⟨"c", 0⟩ none false false false fun _ => false) nofun (by decide +kernel))
  have seen : samplePolled.Seen fun _ => .done := by
    have all : ∀ read ∈ samplePolled.reads, read.status = .done := by decide +kernel
    exact fun handle read found => ⟨fun _ => all read (List.mem_of_getElem? found), nofun⟩
  have polled := ended.snoc (next_sampleStep _
    (.poll ⟨"c", 0⟩ "b" (fun _ => .done) 2 fun _ => false) seen (by decide +kernel))
  exact polled.snoc (next_sampleStep _ (.getFinished ⟨"c", 0⟩ 3 5) trivial (by decide +kernel))

theorem sampleLoaded_askedOnce : AskedOnce [(⟨"c", 0⟩, "b", .sample)] :=
  fun _ _ => List.countP_le_length

theorem loads_accounted_sample :
    (sampleLoaded.reports.countP fun report => report.1 = ⟨"c", 0⟩ ∧ ends "b" report.2) = 1 ∧
      (∃ read ∈ sampleLoaded.reads, read.reader = ⟨"c", 0⟩ ∧ read.requestId = "b") ∧
      ∀ read ∈ sampleLoaded.reads, read.reader = ⟨"c", 0⟩ → read.requestId = "b" →
        read.status ≠ .running := by
  obtain ⟨accounted, idle⟩ := loads_accounted sampleLoaded_run sampleLoaded_askedOnce
    (List.mem_singleton.mpr rfl)
  have left : "b" ∉ (sampleLoaded.workers ⟨"c", 0⟩).loads := by decide +kernel
  have queued : ((sampleLoaded.workers ⟨"c", 0⟩).queue.countP fun item => item.1 = "b") = 0 := by
    decide +kernel
  have pending : ends "b" (sampleLoaded.workers ⟨"c", 0⟩).finished = false := by decide +kernel
  rw [queued, if_neg left, pending, if_neg Bool.false_ne_true] at accounted
  exact ⟨by simpa using accounted, by decide +kernel, idle left⟩

/-- The reads of a load that was read cover each head of each of its blocks. -/
theorem covers_of_fetched {reads : List Read} {req : ReqToRecv} {shares : List Share}
    {numBlocks remoteTpSize : Nat} (plan : planOf setups self req = .ok shares)
    (fetched : ∀ planned ∈ shares.zipIdx, Fetched elementSize setups reads self requestId req
      planned fun _ read => read.status = .done)
    (isCaches : Caches elementSize (setups self).tpSize numBlocks (setups self).caches)
    (positive : 0 < (setups self).tpSize) (remotePositive : 0 < remoteTpSize)
    (remote : req.remoteTpSize = remoteTpSize)
    (even : totalHeads (setups self).tpSize (setups self).caches ≠ 0 →
      (setups self).tpSize ∣ totalHeads (setups self).tpSize (setups self).caches ∧
        remoteTpSize ∣ totalHeads (setups self).tpSize (setups self).caches)
    (inside : ∀ block ∈ req.localBlockIds, block < numBlocks) (distinct : req.localBlockIds.Nodup) :
    ∃ share : Nat, (setups self).heads req = (setups self).tpSize * share ∧
      ∀ region ∈ (setups self).regions elementSize, ∀ blockId ∈ req.localBlockIds,
        ∀ head : Int, 0 ≤ head → head < share → ∃ read ∈ reads, read.reader = self ∧
          read.requestId = requestId ∧ read.status = .done ∧
            ∃ row ∈ read.rows, Desc.covers (region.piece blockId head) row := by
  obtain ⟨share, remoteShare, sharePos, remotePos, headsEq, total⟩ :=
    splitHeads_even positive remotePositive even
  have shareLt : (0 : Int) < share := by omega
  have remoteLt : (0 : Int) < remoteShare := by omega
  have heads : (setups self).heads req = (setups self).tpSize * share := by
    rw [RankSetup.heads, remote, headsEq]
  have planEq : shares = sharePlan self.rank share remoteShare := by
    rw [planOf, heads, remote, headShares_eq (by omega) (by omega) remoteLt total] at plan
    exact (Except.ok.inj plan).symm
  have listed : ∀ block ∈ req.localBlockIds.map Int.ofNat, 0 ≤ block ∧ block < numBlocks := by
    intro block member
    obtain ⟨blockId, among, rfl⟩ := List.mem_map.mp member
    have below : (blockId : Nat) < numBlocks := inside blockId among
    exact ⟨Int.natCast_nonneg _, Int.ofNat_lt.mpr below⟩
  have split : totalHeads (setups self).tpSize (setups self).caches ≠ 0 →
      (setups self).tpSize * share = totalHeads (setups self).tpSize (setups self).caches := by
    intro some
    rw [splitHeads, if_neg some] at headsEq
    exact_mod_cast headsEq.symm
  have holds := fun region (member : region ∈ registered elementSize (setups self).caches) =>
    isCaches.holds positive split member
  refine ⟨share, heads, fun region member blockId among head nonneg below => ?_⟩
  have some : 0 < numBlocks := Nat.lt_of_le_of_lt (Nat.zero_le _) (inside blockId among)
  have once : ((sharePlan self.rank share remoteShare).zipIdx.flatMap
      (shareRows (registered elementSize (setups self).caches) (req.localBlockIds.map Int.ofNat)
        (setups self).device)).countP (Desc.covers (region.piece blockId head)) = 1 :=
    countP_plan_eq_one shareLt remoteLt (isCaches.nodup_registered some)
      (fun first firstMem second secondMem different =>
        isCaches.apart_registered.forall firstMem secondMem different)
      holds (distinct.map fun _ _ same => Int.ofNat.inj same) listed member
      (List.mem_map_of_mem among) nonneg below
  obtain ⟨row, rowMem, covers⟩ := List.countP_pos_iff.mp (once ▸ Nat.zero_lt_one)
  obtain ⟨planned, plannedMem, inRows⟩ := List.mem_flatMap.mp rowMem
  have rowsEq : localRows elementSize setups self req planned =
      .ok (shareRows (registered elementSize (setups self).caches)
        (req.localBlockIds.map Int.ofNat) (setups self).device planned) :=
    isCaches.blockDescs_eq listed _ _ _ _
  rcases fetched planned (planEq ▸ plannedMem) with none | ⟨_, read, found, reader, request, reads, done⟩
  · rw [Except.ok.inj (rowsEq.symm.trans none)] at inRows
    exact absurd inRows List.not_mem_nil
  · refine ⟨read, List.mem_of_getElem? found, reader, request, done, row, ?_, covers⟩
    rw [← Except.ok.inj (rowsEq.symm.trans reads.rows)]
    exact inRows

/-- A load that is reported finished had every share of its plan read, from the rank of its
producer that the plan names, or it had nothing to read. -/
theorem finished_loads_read {events : List Event}
    (run : Run (Next elementSize setups) {} events fleet)
    (once : AskedOnce (events.flatMap Event.asks)) {report : KVConnectorOutput}
    (reported : (self, report) ∈ fleet.reports) (finished : requestId ∈ report.finishedRecving) :
    ∃ req shares, (self, requestId, req) ∈ events.flatMap Event.asks ∧
      planOf setups self req = .ok shares ∧
      (∀ planned ∈ shares.zipIdx, localRows elementSize setups self req planned = .ok [] ∨
        ∃ read ∈ fleet.reads, read.reader = self ∧ read.requestId = requestId ∧
          read.status = .done ∧ ReadsShare elementSize setups self req planned read.target
            read.notice read.rows read.remoteRows) ∧
      ∀ numBlocks remoteTpSize : Nat,
        Caches elementSize (setups self).tpSize numBlocks (setups self).caches →
        0 < (setups self).tpSize → 0 < remoteTpSize → req.remoteTpSize = remoteTpSize →
        (totalHeads (setups self).tpSize (setups self).caches ≠ 0 →
          (setups self).tpSize ∣ totalHeads (setups self).tpSize (setups self).caches ∧
            remoteTpSize ∣ totalHeads (setups self).tpSize (setups self).caches) →
        (∀ block ∈ req.localBlockIds, block < numBlocks) → req.localBlockIds.Nodup →
        ∃ share : Nat, (setups self).heads req = (setups self).tpSize * share ∧
          ∀ region ∈ (setups self).regions elementSize, ∀ blockId ∈ req.localBlockIds,
            ∀ head : Int, 0 ≤ head → head < share → ∃ read ∈ fleet.reads, read.reader = self ∧
              read.requestId = requestId ∧ read.status = .done ∧
                ∃ row ∈ read.rows, Desc.covers (region.piece blockId head) row := by
  obtain ⟨req, shares, asked, plan, fetched⟩ :=
    (run_tracked run once).reported self report reported requestId finished
  refine ⟨req, shares, asked, plan, fun planned member => ?_,
    fun numBlocks remoteTpSize isCaches positive remotePositive remote even inside distinct =>
      covers_of_fetched plan fetched isCaches positive remotePositive remote even inside distinct⟩
  refine (fetched planned member).imp_right ?_
  rintro ⟨handle, read, found, reader, request, reads, done⟩
  exact ⟨read, List.mem_of_getElem? found, reader, request, done, reads⟩

theorem finished_loads_read_sample :
    (∃ item ∈ sampleLoaded.reports, item.1 = ⟨"c", 0⟩ ∧ "b" ∈ item.2.finishedRecving) ∧
      ∃ share : Nat, (RankSetup.sample ⟨"c", 0⟩).heads .sample = (1 : Nat) * share ∧
        ∀ region ∈ (RankSetup.sample ⟨"c", 0⟩).regions fun _ => 2,
          ∀ blockId ∈ ReqToRecv.sample.localBlockIds, ∀ head : Int, 0 ≤ head → head < share →
            ∃ read ∈ sampleLoaded.reads, read.reader = ⟨"c", 0⟩ ∧ read.requestId = "b" ∧
              read.status = .done ∧
                ∃ row ∈ read.rows, Desc.covers (region.piece blockId head) row := by
  have reported : ∃ item ∈ sampleLoaded.reports,
      item.1 = ⟨"c", 0⟩ ∧ "b" ∈ item.2.finishedRecving := by decide +kernel
  have isCaches : Caches (fun _ => 2) 1 8 (RankSetup.sample ⟨"c", 0⟩).caches := by
    constructor
    · simp [RankSetup.sample]
    · rintro cache member heads tokens dim shape
      obtain rfl := List.mem_singleton.mp member
      obtain ⟨rfl, _⟩ := CacheShape.kv.inj shape
      rfl
    · rintro cache member
      obtain rfl := List.mem_singleton.mp member
      rfl
    · rintro cache member
      obtain rfl := List.mem_singleton.mp member
      decide
    · rintro cache member
      obtain rfl := List.mem_singleton.mp member
      decide
    · exact List.pairwise_singleton _ _
  refine ⟨reported, ?_⟩
  obtain ⟨⟨_, report⟩, member, rfl, finished⟩ := reported
  obtain ⟨req, shares, asked, plan, read, covered⟩ :=
    finished_loads_read sampleLoaded_run sampleLoaded_askedOnce member finished
  obtain ⟨_, sameReq⟩ := Prod.mk.inj (List.mem_singleton.mp asked)
  obtain ⟨_, rfl⟩ := Prod.mk.inj sameReq
  exact covered 8 1 isCaches (by decide) (by decide) rfl (fun _ => by decide) (by decide)
    (by decide)

end Fleet

end LeanVllm
