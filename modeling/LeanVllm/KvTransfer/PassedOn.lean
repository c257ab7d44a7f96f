import LeanVllm.KvTransfer.Aggregation
import LeanVllm.KvTransfer.HeldBlocks
import LeanVllm.KvTransfer.LoadedShares

/-!
# From the ranks' reports to the engine's

Each rank makes well-formed reports, and reports a transfer once.  The aggregator that is
given the reports of all the ranks of an engine therefore passes a transfer on once, when
each rank has reported it: by then nobody reads into the blocks of a load on any rank.
-/

namespace LeanVllm

open Collections Transition

theorem KVConnectorOutput.reported_empty : ({} : KVConnectorOutput).Reported :=
  ⟨List.nodup_nil, List.nodup_nil, List.nodup_nil,
    fun _ absurdly => absurd absurdly List.not_mem_nil,
    fun _ absurdly => absurd absurdly List.not_mem_nil,
    fun _ => iff_of_false (AList.notMem_empty _) List.not_mem_nil⟩

namespace NixlConnectorWorker

variable {requestId : RequestId} {worker before after : NixlConnectorWorker}

/-! ## Every report is well formed -/

theorem release_reported (reported : worker.finished.Reported) (requestId : RequestId) :
    (worker.release requestId).finished.Reported := by
  unfold release
  split
  · rcases reported with ⟨sending, recving, failing, expired, apart, stats⟩
    exact ⟨sending.insert, recving, failing,
      fun late member => List.mem_insert_of_mem (expired late member), apart, stats⟩
  · exact reported

theorem releaseIfRead_reported (reported : worker.finished.Reported) (requestId : RequestId) :
    (worker.releaseIfRead requestId).finished.Reported := by
  unfold releaseIfRead
  split
  · exact reported
  · split
    · exact release_reported reported requestId
    · exact reported

/-- A request that is given up was held, so it is released too. -/
theorem expire_reported (reported : worker.finished.Reported)
    (held : requestId ∈ worker.reqsToSend) : (worker.expire requestId).finished.Reported := by
  have sent : requestId ∈ (worker.release requestId).finished.finishedSending := by
    simp [release, held]
  rcases release_reported reported requestId with
    ⟨sending, recving, failing, expired, apart, stats⟩
  refine ⟨sending, recving, failing, fun late member => ?_, apart, stats⟩
  rcases List.mem_insert_iff.mp member with rfl | old
  · exact sent
  · exact expired late old

theorem foldl_expire_reported {overdue : List RequestId} (distinct : overdue.Nodup)
    (held : ∀ requestId ∈ overdue, requestId ∈ worker.reqsToSend)
    (reported : worker.finished.Reported) : (overdue.foldl expire worker).finished.Reported := by
  induction overdue generalizing worker with
  | nil => exact reported
  | cons requestId rest ih =>
      rcases List.nodup_cons.mp distinct with ⟨absent, distinct⟩
      have own := held requestId List.mem_cons_self
      apply ih distinct
      · intro other member
        have still := held other (List.mem_cons_of_mem _ member)
        have different : other ≠ requestId := fun same => absent (same ▸ member)
        simp [expire, release, own, AList.mem_erase, different, still]
      · exact expire_reported reported own

theorem foldl_forgetNotified_finished (now timeout : Rat)
    (items : List (Sigma fun _ : RequestId => Notified)) (worker : NixlConnectorWorker) :
    (items.foldl (forgetNotified now timeout) worker).finished = worker.finished := by
  induction items generalizing worker with
  | nil => rfl
  | cons item rest ih =>
      rw [List.foldl_cons, ih]
      unfold forgetNotified
      split <;> rfl

theorem getFinished_reported (reported : worker.finished.Reported) (now timeout : Rat) :
    (worker.getFinished now timeout).2.Reported := by
  let overdue := worker.reqsToSend.entries.filter fun item => item.2 < now
  let expired := (overdue.map Sigma.fst).foldl expire worker
  have keys : (worker.reqsToSend.entries.map Sigma.fst).Nodup := worker.reqsToSend.nodupKeys
  have distinct : (overdue.map Sigma.fst).Nodup := keys.sublist (List.filter_sublist.map _)
  have gaveUp : expired.finished.Reported := by
    refine foldl_expire_reported distinct (fun requestId member => ?_) reported
    exact (List.filter_sublist.map Sigma.fst).subset member
  have forgot : (worker.getFinished now timeout).2 = expired.finished :=
    foldl_forgetNotified_finished now timeout _ expired
  rw [forgot]
  exact gaveUp

theorem expose_reported (reported : worker.finished.Reported) (deadline : Rat)
    (requestId : RequestId) : (expose deadline worker requestId).finished.Reported := by
  apply releaseIfRead_reported
  exact reported

theorem startLoadKv_reported (reported : worker.finished.Reported)
    (metadata : KVConnectorMetadata) (deadline : Rat) :
    (worker.startLoadKv metadata deadline).finished.Reported := by
  have exposed : ∀ (others : List RequestId) (worker : NixlConnectorWorker),
      worker.finished.Reported → (others.foldl (expose deadline) worker).finished.Reported := by
    intro others
    induction others with
    | nil => exact fun worker reported => reported
    | cons other rest ih =>
        intro worker reported
        exact ih _ (expose_reported reported deadline other)
  exact exposed metadata.reqsToSend.keys worker reported

theorem takeNotification_reported (reported : worker.finished.Reported) (notice : Notice)
    (now : Rat) : (worker.takeNotification notice now).finished.Reported := by
  apply releaseIfRead_reported
  exact reported

/-- A load that ends now did not end before. -/
theorem landed_reported {finished : KVConnectorOutput} (reported : finished.Reported)
    (first : ends requestId finished = false) (load : NixlLoad) (now : Rat) :
    (landed finished requestId load now).Reported := by
  rcases reported with ⟨sending, recving, failing, expired, apart, stats⟩
  rcases not_or.mp (of_decide_eq_false first) with ⟨unfinished, unfailed⟩
  unfold landed
  split
  · refine ⟨sending, recving, failing.insert, expired, fun other member failed => ?_, stats⟩
    rcases List.mem_insert_iff.mp failed with rfl | old
    · exact unfinished member
    · exact apart other member old
  · refine ⟨sending, recving.insert, failing, expired, fun other member failed => ?_,
      fun other => ?_⟩
    · rcases List.mem_insert_iff.mp member with rfl | old
      · exact unfailed failed
      · exact apart other old failed
    · rw [AList.mem_insert, List.mem_insert_iff, stats]

theorem TransferTurn.reported {elementSize : String → Nat} {setups : WorkerId → RankSetup}
    {self : WorkerId} {handle : Nat} {seen : Nat → XferState} {calls : List AgentCall}
    (turn : TransferTurn elementSize setups self handle seen before requestId after calls)
    (first : requestId ∈ before.loads → NixlConnectorWorker.ends requestId before.finished = false)
    (reported : before.finished.Reported) : after.finished.Reported := by
  cases turn with
  | starts | stillborn | ends | waits => exact reported
  | shares starting found learns known share | stops starting found learns known share notifies =>
      exact learns.finished.symm ▸ reported
  | lands idle found polls none =>
      exact landed_reported reported (first (mem_loads_of_lookup found)) _ _

end NixlConnectorWorker

namespace Fleet

open NixlConnectorWorker

variable {elementSize : String → Nat} {setups : WorkerId → RankSetup}
  {before after fleet : Fleet} {event : Event} {self other : WorkerId} {requestId : RequestId}

/-- What each worker is about to report, and what was reported, is well formed. -/
structure Reporting (fleet : Fleet) : Prop where
  pending : ∀ self, (fleet.workers self).finished.Reported
  made : ∀ report ∈ fleet.reports, report.2.Reported

/-- A worker that changed with no report. -/
theorem Reporting.update {worker : NixlConnectorWorker} (reporting : before.Reporting)
    (workers : after.workers = Function.update before.workers other worker)
    (reports : after.reports = before.reports) (reported : worker.finished.Reported) :
    after.Reporting := by
  constructor
  · intro self
    rw [workers]
    by_cases same : self = other
    · subst same
      rw [Function.update_self]
      exact reported
    · rw [Function.update_of_ne same]
      exact reporting.pending self
  · rw [reports]
    exact reporting.made

theorem Effect.reporting (effect : Effect elementSize setups before after event)
    (first : ∀ self requestId, requestId ∈ (before.workers self).loads →
      ends requestId (before.workers self).finished = false)
    (reporting : before.Reporting) : after.Reporting := by
  cases effect with
  | @queues worker metadata deadline queued =>
      subst queued
      exact reporting.update rfl rfl
        (startLoadKv_reported (reporting.pending worker) metadata deadline)
  | @reports worker now timeout reported =>
      subst reported
      have silent : (before.setWorker worker
          ((before.workers worker).getFinished now timeout).1).Reporting :=
        reporting.update rfl rfl KVConnectorOutput.reported_empty
      constructor
      · exact silent.pending
      · intro report member
        rcases List.mem_append.mp member with old | new
        · exact reporting.made report old
        · obtain rfl := List.mem_singleton.mp new
          exact getFinished_reported (reporting.pending worker) now timeout
  | @turns _ worker load seen next called silent honest turn turned =>
      exact reporting.update turned.workers turned.reports
        (turn.reported (first worker load) (reporting.pending worker))
  | @takes worker sender index now notice found taken =>
      subst taken
      exact reporting.update rfl rfl
        (takeNotification_reported (reporting.pending worker) notice now)
  | @delivers _ handle read status silent found moves delivered =>
      subst delivered
      exact ⟨reporting.pending, reporting.made⟩
  | @breaks handle read found running broken =>
      subst broken
      exact ⟨reporting.pending, reporting.made⟩

/-- A load that is under way did not end. -/
theorem ends_of_mem_loads {events : List Event}
    (run : Run (Next elementSize setups) {} events fleet)
    (once : AskedOnce (events.flatMap Event.asks))
    (under : requestId ∈ (fleet.workers self).loads) :
    ends requestId (fleet.workers self).finished = false := by
  have grows := (run_loads_grow run self requestId).le
  have few := once self requestId
  by_contra ended
  have stocked : 2 ≤ (fleet.workers self).loadStock requestId := by
    simp only [loadStock, if_pos under, Bool.not_eq_false] at ended ⊢
    rw [if_pos ended]
    omega
  rw [accounted] at grows
  omega

theorem run_reporting {events : List Event}
    (run : Run (Next elementSize setups) {} events fleet)
    (once : AskedOnce (events.flatMap Event.asks)) : fleet.Reporting := by
  induction run with
  | nil =>
      constructor
      · exact fun _ => KVConnectorOutput.reported_empty
      · exact fun _ absurdly => absurd absurdly List.not_mem_nil
  | @snoc events middle last event before final ih =>
      rw [List.flatMap_append] at once
      have earlier := once.of_append
      exact (final.effect fun self => ((run_sound before).minded self).known).reporting
        (fun _ _ => ends_of_mem_loads before earlier) (ih earlier)

end Fleet

/-! ## A transfer that each rank reports once -/

namespace RankReport

variable {n c : Nat} {entries : List RankReport} {property : List RankReport → Prop}

/-- The reports of such a transfer are one round, which closes with the last of them. -/
theorem closesWith_iff (positive : 0 < n) (few : entries.length ≤ n) :
    ClosesWith n c entries property ↔
      entries.length = n ∧ entries.getLast?.map call = some c ∧ property entries := by
  have whole : roundAt n 0 entries = entries := by
    rw [roundAt, Nat.zero_mul, List.drop_zero, List.take_of_length_le few]
  constructor
  · rintro ⟨k, closed, last, holds⟩
    rw [Closed] at closed
    have only : k = 0 := by
      by_contra later
      have twice : 2 * n ≤ (k + 1) * n := Nat.mul_le_mul_right n (by omega)
      omega
    subst only
    rw [whole] at last holds
    exact ⟨by omega, last, holds⟩
  · rintro ⟨full, last, holds⟩
    refine ⟨0, ?_, ?_, ?_⟩
    · rw [Closed, full, Nat.zero_add, Nat.one_mul]
    · rw [whole]
      exact last
    · rw [whole]
      exact holds

theorem length_le_of_nodup (once : (entries.map rank).Nodup)
    (ranked : ∀ report ∈ entries, report.rank < n) : entries.length ≤ n := by
  have among : entries.map rank ⊆ List.range n := by
    intro r member
    obtain ⟨report, found, rfl⟩ := List.mem_map.mp member
    exact List.mem_range.mpr (ranked report found)
  simpa using (List.subperm_of_subset once among).length_le

/-- The round is full when each rank has reported. -/
theorem length_eq_iff (once : (entries.map rank).Nodup)
    (ranked : ∀ report ∈ entries, report.rank < n) :
    entries.length = n ↔ ∀ r < n, ∃ report ∈ entries, report.rank = r := by
  have few := length_le_of_nodup once ranked
  constructor
  · intro full r inside
    have closed : Closed n 0 entries := by
      rw [Closed, full, Nat.zero_add, Nat.one_mul]
    have all := (rounds_of_length_le few once).ranks ranked closed
    rw [roundAt, Nat.zero_mul, List.drop_zero, List.take_of_length_le few] at all
    exact List.mem_map.mp (all.mem_iff.mpr (List.mem_range.mpr inside))
  · intro all
    have among : List.range n ⊆ entries.map rank := by
      intro r member
      exact List.mem_map.mpr (all r (List.mem_range.mp member))
    have enough := (List.subperm_of_subset List.nodup_range among).length_le
    rw [List.length_range, List.length_map] at enough
    exact le_antisymm few enough

theorem history_call_lt {calls : List (List (Nat × KVConnectorOutput))} {c : Nat} :
    ∀ report ∈ history c calls, report.call < c + calls.length := by
  induction calls generalizing c with
  | nil => exact fun _ absurdly => absurd absurdly List.not_mem_nil
  | cons call calls ih =>
      intro report member
      rw [List.length_cons]
      rcases List.mem_append.mp member with own | later
      · obtain ⟨entry, _, rfl⟩ := List.mem_map.mp own
        exact Nat.lt_add_of_pos_right (Nat.succ_pos _)
      · have before := ih report later
        omega

end RankReport

namespace Fleet

open NixlConnectorWorker RankReport

variable {elementSize : String → Nat} {setups : WorkerId → RankSetup} {fleet : Fleet}
  {engineId : String} {worldSize : Nat} {calls : List (List (Nat × KVConnectorOutput))}
  {requestId : RequestId}

/-- The calls of `aggregate` are given what the ranks of an engine reported: of each rank its
reports in order, each once. -/
structure Feeds (fleet : Fleet) (engineId : String) (worldSize : Nat)
    (calls : List (List (Nat × KVConnectorOutput))) : Prop where
  ranked : ∀ report ∈ history 0 calls, report.rank < worldSize
  made : ∀ r < worldSize,
    (((history 0 calls).filter fun report => report.rank = r).map output).Sublist
      ((fleet.reports.filter fun report => report.1 = ⟨engineId, r⟩).map Prod.snd)

theorem Feeds.mem_reports (feeds : fleet.Feeds engineId worldSize calls) {report : RankReport}
    (member : report ∈ history 0 calls) :
    (⟨engineId, report.rank⟩, report.output) ∈ fleet.reports := by
  have own : report ∈ (history 0 calls).filter fun other => other.rank = report.rank :=
    List.mem_filter.mpr ⟨member, decide_eq_true rfl⟩
  have given := (feeds.made report.rank (feeds.ranked report member)).subset
    (List.mem_map_of_mem own)
  rcases List.mem_map.mp given with ⟨⟨worker, output⟩, found, rfl⟩
  rcases List.mem_filter.mp found with ⟨among, same⟩
  exact of_decide_eq_true same ▸ among

/-- What a rank reports once is given once. -/
theorem Feeds.nodup_ranks (feeds : fleet.Feeds engineId worldSize calls)
    (shows : KVConnectorOutput → Bool)
    (once : ∀ worker, (fleet.reports.countP fun report => report.1 = worker ∧ shows report.2) ≤ 1) :
    (((history 0 calls).filter fun report => shows report.output).map rank).Nodup := by
  rw [List.nodup_iff_count_le_one]
  intro r
  by_cases inside : r < worldSize
  · have given := (feeds.made r inside).countP_le (p := shows)
    rw [List.countP_map, List.countP_map, List.countP_filter, List.countP_filter] at given
    rw [List.count, List.countP_map, List.countP_filter]
    refine (List.countP_mono_left ?_).trans
      (given.trans ((List.countP_mono_left ?_).trans (once ⟨engineId, r⟩)))
    · intro report _ shown
      simpa [and_comm] using shown
    · intro report _ shown
      simpa [and_comm] using shown
  · rw [List.count_eq_zero.mpr]
    · exact Nat.zero_le _
    · intro member
      obtain ⟨report, found, rfl⟩ := List.mem_map.mp member
      exact inside (feeds.ranked report (List.mem_filter.mp found).1)

/-- A transfer that each rank reports once closes when the last of them does. -/
theorem Feeds.closesWith_iff (feeds : fleet.Feeds engineId worldSize calls)
    (positive : 0 < worldSize) (shows : KVConnectorOutput → Bool)
    (once : ∀ worker, (fleet.reports.countP fun report => report.1 = worker ∧ shows report.2) ≤ 1)
    {entries : List RankReport}
    (entriesEq : entries = (history 0 calls).filter fun report => shows report.output) {c : Nat}
    {property : List RankReport → Prop} :
    ClosesWith worldSize c entries property ↔
      (∀ r < worldSize, ∃ report ∈ entries, report.rank = r) ∧
        entries.getLast?.map RankReport.call = some c ∧ property entries := by
  subst entriesEq
  have ranked : ∀ report ∈ (history 0 calls).filter fun report => shows report.output,
      report.rank < worldSize := fun report member =>
    feeds.ranked report (List.mem_of_mem_filter member)
  have distinct := feeds.nodup_ranks shows once
  rw [RankReport.closesWith_iff positive (length_le_of_nodup distinct ranked),
    length_eq_iff distinct ranked]

theorem Feeds.exchanges (feeds : fleet.Feeds engineId worldSize calls)
    (reporting : fleet.Reporting)
    (sentOnce : ∀ requestId worker, (fleet.reports.countP fun report =>
      report.1 = worker ∧ requestId ∈ report.2.finishedSending) ≤ 1)
    (endedOnce : ∀ requestId worker, (fleet.reports.countP fun report =>
      report.1 = worker ∧ ends requestId report.2) ≤ 1) :
    Exchanges worldSize (history 0 calls) := by
  have rounds : ∀ shows : KVConnectorOutput → Bool,
      (∀ worker, (fleet.reports.countP fun report => report.1 = worker ∧ shows report.2) ≤ 1) →
        Rounds worldSize ((history 0 calls).filter fun report => shows report.output) := by
    intro shows once
    have distinct := feeds.nodup_ranks shows once
    refine rounds_of_length_le (length_le_of_nodup distinct fun report member => ?_) distinct
    exact feeds.ranked report (List.mem_of_mem_filter member)
  refine ⟨fun report member => reporting.made _ (feeds.mem_reports member), feeds.ranked,
    fun requestId => ?_, fun requestId => ?_⟩
  · refine rounds (fun report => requestId ∈ report.finishedSending) fun worker => ?_
    simpa using sentOnce requestId worker
  · exact rounds (ends requestId) (endedOnce requestId)

/-- One rank alone, in one call. -/
theorem feeds_of_single (alone : ∀ report ∈ fleet.reports, report.1 = ⟨engineId, 0⟩) :
    fleet.Feeds engineId 1 [fleet.reports.map fun report => (report.1.rank, report.2)] := by
  have given : history 0 [fleet.reports.map fun report => (report.1.rank, report.2)] =
      fleet.reports.map fun report => ⟨0, report.1.rank, report.2⟩ := by
    simp [history]
  constructor
  · rw [given]
    intro report member
    obtain ⟨item, among, rfl⟩ := List.mem_map.mp member
    simp [alone item among]
  · intro r inside
    obtain rfl : r = 0 := by omega
    have own : fleet.reports.filter (fun report => report.1 = ⟨engineId, 0⟩) = fleet.reports :=
      List.filter_eq_self.mpr fun item among => decide_eq_true (alone item among)
    rw [given, own, List.filter_eq_self.mpr, List.map_map]
    · exact List.Sublist.refl _
    · intro report member
      obtain ⟨item, among, rfl⟩ := List.mem_map.mp member
      simp [alone item among]

theorem ends_once {events : List Event} (run : Run (Next elementSize setups) {} events fleet)
    (once : AskedOnce (events.flatMap Event.asks)) (requestId : RequestId) (worker : WorkerId) :
    (fleet.reports.countP fun report => report.1 = worker ∧ ends requestId report.2) ≤ 1 := by
  have grows := (run_loads_grow run worker requestId).le
  have few := once worker requestId
  rw [accounted] at grows
  omega

theorem sends_once {events : List Event} (run : Run (Next elementSize setups) {} events fleet)
    (once : (events.flatMap Event.handOvers).Nodup) (requestId : RequestId) (worker : WorkerId) :
    (fleet.reports.countP fun report =>
      report.1 = worker ∧ requestId ∈ report.2.finishedSending) ≤ 1 := by
  have grows := (run_sends_grow run worker requestId).le
  have few := List.nodup_iff_count_le_one.mp once (worker, requestId)
  simp only [accountedSends, accounted, decide_eq_true_eq] at grows
  omega

/-- A load that was reported has no read running. -/
theorem not_running_of_reported {events : List Event} {self : WorkerId}
    {report : KVConnectorOutput} (run : Run (Next elementSize setups) {} events fleet)
    (once : AskedOnce (events.flatMap Event.asks)) (reported : (self, report) ∈ fleet.reports)
    (ended : ends requestId report) :
    ∀ read ∈ fleet.reads, read.reader = self → read.requestId = requestId →
      read.status ≠ .running := by
  apply (run_tracked run once).not_running
  intro under
  have grows := (run_loads_grow run self requestId).le
  have few := once self requestId
  have shown : 0 < fleet.reports.countP fun report =>
      report.1 = self ∧ ends requestId report.2 :=
    List.countP_pos_iff.mpr ⟨_, reported, decide_eq_true ⟨rfl, ended⟩⟩
  have stocked : 0 < (fleet.workers self).loadStock requestId := by
    rw [loadStock, if_pos under]
    omega
  rw [accounted] at grows
  omega

/-- A load that ends in a call closes in it. -/
theorem closesWith_of_ends {reports : List RankReport} {result : KVConnectorOutput} {c : Nat}
    (announces : KVOutputAggregator.Announces worldSize c reports result)
    (ended : ends requestId result) :
    ClosesWith worldSize c (loadsOf reports requestId) fun _ => True := by
  rcases of_decide_eq_true ended with finished | failed
  · exact ((announces.finishedRecving requestId).mp finished).mono fun _ _ => trivial
  · exact ((announces.failedRecving requestId).mp failed).mono fun _ _ => trivial

/-- A load closes when the last rank reports it. -/
theorem Feeds.closesWith_loadsOf {events : List Event}
    (feeds : fleet.Feeds engineId worldSize calls)
    (run : Run (Next elementSize setups) {} events fleet)
    (once : AskedOnce (events.flatMap Event.asks)) (positive : 1 ≤ worldSize) {c : Nat}
    {property : List RankReport → Prop} :
    ClosesWith worldSize c (loadsOf (history 0 calls) requestId) property ↔
      (∀ r < worldSize, ∃ report ∈ loadsOf (history 0 calls) requestId, report.rank = r) ∧
        (loadsOf (history 0 calls) requestId).getLast?.map RankReport.call = some c ∧
          property (loadsOf (history 0 calls) requestId) :=
  feeds.closesWith_iff positive (ends requestId) (ends_once run once requestId) rfl

/-- A send closes when the last rank reports it. -/
theorem Feeds.closesWith_sendsOf {events : List Event}
    (feeds : fleet.Feeds engineId worldSize calls)
    (run : Run (Next elementSize setups) {} events fleet)
    (once : (events.flatMap Event.handOvers).Nodup) (positive : 1 ≤ worldSize) {c : Nat}
    {property : List RankReport → Prop} :
    ClosesWith worldSize c (sendsOf (history 0 calls) requestId) property ↔
      (∀ r < worldSize, ∃ report ∈ sendsOf (history 0 calls) requestId, report.rank = r) ∧
        (sendsOf (history 0 calls) requestId).getLast?.map RankReport.call = some c ∧
          property (sendsOf (history 0 calls) requestId) :=
  feeds.closesWith_iff positive (fun report => requestId ∈ report.finishedSending)
    (by simpa using sends_once run once requestId) rfl

/-- What the aggregator returns announces what the ranks' reports close. -/
theorem Feeds.announced {events : List Event} (feeds : fleet.Feeds engineId worldSize calls)
    (run : Run (Next elementSize setups) {} events fleet)
    (askedOnce : AskedOnce (events.flatMap Event.asks))
    (handedOnce : (events.flatMap Event.handOvers).Nodup) (positive : 1 ≤ worldSize) :
    ∃ last results,
      ({ worldSize := worldSize } : KVOutputAggregator).aggregateAll
        (calls.map fun call => call.map Prod.snd) = (last, results) ∧
      results.length = calls.length ∧
      ∀ (c : Nat) (result : KVConnectorOutput), results[c]? = some result →
        KVOutputAggregator.Announces worldSize c (history 0 calls) result := by
  have exchanges : Exchanges worldSize ([] ++ history 0 calls) :=
    feeds.exchanges (run_reporting run askedOnce) (sends_once run handedOnce)
      (ends_once run askedOnce)
  obtain ⟨last, results, looped, length, announced, _⟩ :=
    KVOutputAggregator.aggregateAll_spec positive (KVOutputAggregator.tracks_create worldSize)
      (by simp) exchanges
  refine ⟨last, results, looped, length, fun c result found => ?_⟩
  have announces := announced c result found
  rwa [Nat.zero_add, List.nil_append] at announces

/-- The aggregator passes a load on once.  By then no rank reads into its blocks, and a load
that is passed on as finished was read on every rank. -/
theorem loads_passed_on {events : List Event}
    (run : Run (Next elementSize setups) {} events fleet)
    (askedOnce : AskedOnce (events.flatMap Event.asks))
    (handedOnce : (events.flatMap Event.handOvers).Nodup) (positive : 1 ≤ worldSize)
    (feeds : fleet.Feeds engineId worldSize calls) :
    ∃ last results,
      ({ worldSize := worldSize } : KVOutputAggregator).aggregateAll
        (calls.map fun call => call.map Prod.snd) = (last, results) ∧
      (∀ (requestId : RequestId) (c d : Nat) (first second : KVConnectorOutput),
        results[c]? = some first → results[d]? = some second → ends requestId first →
          ends requestId second → c = d) ∧
      ∀ result ∈ results, ∀ requestId,
        (ends requestId result → ∀ rank < worldSize, ∀ read ∈ fleet.reads,
          read.reader = ⟨engineId, rank⟩ → read.requestId = requestId →
            read.status ≠ .running) ∧
        (requestId ∈ result.finishedRecving → ∀ rank < worldSize,
          Loaded elementSize setups fleet.reads (events.flatMap Event.asks) ⟨engineId, rank⟩
            requestId) ∧
        (requestId ∈ result.failedRecving → ∃ rank < worldSize, ∃ report,
          (⟨engineId, rank⟩, report) ∈ fleet.reports ∧ requestId ∈ report.failedRecving) := by
  obtain ⟨last, results, looped, _, announced⟩ :=
    feeds.announced run askedOnce handedOnce positive
  refine ⟨last, results, looped, ?_, ?_⟩
  · intro requestId c d first second atC atD endsFirst endsSecond
    have closes := (feeds.closesWith_loadsOf run askedOnce positive).mp
      (closesWith_of_ends (announced c first atC) endsFirst)
    have again := (feeds.closesWith_loadsOf run askedOnce positive).mp
      (closesWith_of_ends (announced d second atD) endsSecond)
    exact Option.some.inj (closes.2.1.symm.trans again.2.1)
  · intro result member requestId
    obtain ⟨c, found⟩ := List.mem_iff_getElem?.mp member
    have announces := announced c result found
    refine ⟨fun ended rank inside => ?_, fun finished rank inside => ?_, fun failed => ?_⟩
    · have closes := (feeds.closesWith_loadsOf run askedOnce positive).mp
        (closesWith_of_ends announces ended)
      rcases closes.1 rank inside with ⟨report, among, rfl⟩
      rcases List.mem_filter.mp among with ⟨given, shown⟩
      exact not_running_of_reported run askedOnce (feeds.mem_reports given) shown
    · rcases (feeds.closesWith_loadsOf run askedOnce positive).mp
        ((announces.finishedRecving requestId).mp finished) with
        ⟨all, _, unfailed, _⟩
      rcases all rank inside with ⟨report, among, rfl⟩
      rcases List.mem_filter.mp among with ⟨given, shown⟩
      have loaded := (of_decide_eq_true shown).resolve_right (unfailed report among)
      exact (run_tracked run askedOnce).reported _ _ (feeds.mem_reports given) requestId loaded
    · rcases (feeds.closesWith_loadsOf run askedOnce positive).mp
        ((announces.failedRecving requestId).mp failed) with
        ⟨_, _, report, among, own⟩
      have given := (List.mem_filter.mp among).1
      exact ⟨report.rank, feeds.ranked report given, report.output, feeds.mem_reports given, own⟩

theorem sample_handedOnce : ([(⟨"p", 0⟩, "a")] : List (WorkerId × RequestId)).Nodup :=
  List.nodup_singleton _

theorem loads_passed_on_sample :
    ∃ last results,
      ({ worldSize := 1 } : KVOutputAggregator).aggregateAll
        [sampleLoaded.reports.map Prod.snd] = (last, results) ∧
      (∃ result ∈ results, "b" ∈ result.finishedRecving) ∧
      Loaded (fun _ => 2) RankSetup.sample sampleLoaded.reads [(⟨"c", 0⟩, "b", .sample)]
        ⟨"c", 0⟩ "b" := by
  have alone : ∀ report ∈ sampleLoaded.reports, report.1 = ⟨"c", 0⟩ := by decide +kernel
  have passed : ∃ result ∈ (({ worldSize := 1 } : KVOutputAggregator).aggregateAll
      [sampleLoaded.reports.map Prod.snd]).2, "b" ∈ result.finishedRecving := by decide +kernel
  obtain ⟨last, results, looped, _, read⟩ :=
    loads_passed_on sampleLoaded_run sampleLoaded_askedOnce sample_handedOnce le_rfl
      (feeds_of_single alone)
  rw [List.map_singleton, List.map_map] at looped
  have looped : ({ worldSize := 1 } : KVOutputAggregator).aggregateAll
      [sampleLoaded.reports.map Prod.snd] = (last, results) := looped
  rw [looped] at passed
  refine ⟨last, results, looped, passed, ?_⟩
  rcases passed with ⟨result, member, finished⟩
  exact (read result member "b").2.1 finished 0 Nat.zero_lt_one

/-- The aggregator passes a send on once, when each rank has reported it, and as expired if a
rank gave it up. -/
theorem sends_passed_on {events : List Event}
    (run : Run (Next elementSize setups) {} events fleet)
    (askedOnce : AskedOnce (events.flatMap Event.asks))
    (handedOnce : (events.flatMap Event.handOvers).Nodup) (positive : 1 ≤ worldSize)
    (feeds : fleet.Feeds engineId worldSize calls) :
    ∃ last results,
      ({ worldSize := worldSize } : KVOutputAggregator).aggregateAll
        (calls.map fun call => call.map Prod.snd) = (last, results) ∧
      (∀ (requestId : RequestId) (c d : Nat) (first second : KVConnectorOutput),
        results[c]? = some first → results[d]? = some second →
          requestId ∈ first.finishedSending → requestId ∈ second.finishedSending → c = d) ∧
      (∀ requestId, (∃ result ∈ results, requestId ∈ result.finishedSending) ↔
        ∀ rank < worldSize, ∃ report ∈ history 0 calls, report.rank = rank ∧
          requestId ∈ report.output.finishedSending) ∧
      ∀ result ∈ results, ∀ requestId ∈ result.finishedSending,
        requestId ∉ result.expiredSending → ∀ rank < worldSize, ∃ report,
          (⟨engineId, rank⟩, report) ∈ fleet.reports ∧ requestId ∈ report.finishedSending ∧
            requestId ∉ report.expiredSending := by
  obtain ⟨last, results, looped, length, announced⟩ :=
    feeds.announced run askedOnce handedOnce positive
  refine ⟨last, results, looped, ?_, ?_, ?_⟩
  · intro requestId c d first second atC atD sentFirst sentSecond
    have closes := (feeds.closesWith_sendsOf run handedOnce positive).mp
      (((announced c first atC).finishedSending _).mp sentFirst)
    have again := (feeds.closesWith_sendsOf run handedOnce positive).mp
      (((announced d second atD).finishedSending _).mp sentSecond)
    exact Option.some.inj (closes.2.1.symm.trans again.2.1)
  · intro requestId
    constructor
    · rintro ⟨result, member, sent⟩ rank inside
      obtain ⟨c, found⟩ := List.mem_iff_getElem?.mp member
      have closes := (feeds.closesWith_sendsOf run handedOnce positive).mp
        (((announced c result found).finishedSending _).mp sent)
      rcases closes.1 rank inside with ⟨report, among, own⟩
      rcases List.mem_filter.mp among with ⟨given, shown⟩
      exact ⟨report, given, own, of_decide_eq_true shown⟩
    · intro all
      have entries : ∀ rank < worldSize, ∃ report ∈ sendsOf (history 0 calls) requestId,
          report.rank = rank := by
        intro rank inside
        rcases all rank inside with ⟨report, given, own, shown⟩
        exact ⟨report, List.mem_filter.mpr ⟨given, decide_eq_true shown⟩, own⟩
      obtain ⟨report, among, _⟩ := entries 0 positive
      have final := List.getLast?_eq_some_getLast (List.ne_nil_of_mem among)
      have closingCall := history_call_lt _ (List.mem_of_mem_filter (List.mem_of_getLast? final))
      rw [Nat.zero_add, ← length] at closingCall
      have found := List.getElem?_eq_getElem closingCall
      refine ⟨_, List.mem_of_getElem? found, ?_⟩
      apply ((announced _ _ found).finishedSending requestId).mpr
      exact (feeds.closesWith_sendsOf run handedOnce positive).mpr
        ⟨entries, Option.map_eq_some_iff.mpr ⟨_, final, rfl⟩, trivial⟩
  · intro result member requestId sent timely rank inside
    obtain ⟨c, found⟩ := List.mem_iff_getElem?.mp member
    have announces := announced c result found
    rcases (feeds.closesWith_sendsOf run handedOnce positive).mp
      ((announces.finishedSending requestId).mp sent) with
      ⟨all, lastCall, _⟩
    rcases all rank inside with ⟨report, among, rfl⟩
    rcases List.mem_filter.mp among with ⟨given, shown⟩
    refine ⟨report.output, feeds.mem_reports given, of_decide_eq_true shown, fun late => timely ?_⟩
    apply (announces.expiredSending requestId).mpr
    exact (feeds.closesWith_sendsOf run handedOnce positive).mpr ⟨all, lastCall, report, among, late⟩

end Fleet

namespace Offer

open RankReport

variable {elementSize : String → Nat} {setups : WorkerId → RankSetup} {fleet : Fleet}
  {events : List Fleet.Event} {offer : Offer} {calls : List (List (Nat × KVConnectorOutput))}

/-- The scheduler of a producer frees the blocks it handed over when the aggregator passes
them on as sent.  This happens once, when each rank has reported them.  If no rank gave them
up, nobody reads them on any rank then or later. -/
theorem freed_blocks_unread (run : Run (Fleet.Next elementSize setups) {} events fleet)
    (askedOnce : Fleet.AskedOnce (events.flatMap Fleet.Event.asks))
    (handedOnce : (events.flatMap Fleet.Event.handOvers).Nodup)
    (stands : offer.Stands setups) (genuine : offer.Genuine (events.flatMap Fleet.Event.asks))
    (once : ∀ reader < offer.consumerTpSize,
      offer.numAsks (offer.reader reader) (events.flatMap Fleet.Event.asks) ≤ 1)
    (feeds : fleet.Feeds offer.producer offer.tpSize calls) :
    ∃ last results,
      ({ worldSize := offer.tpSize } : KVOutputAggregator).aggregateAll
        (calls.map fun call => call.map Prod.snd) = (last, results) ∧
      (∀ (c d : Nat) (first second : KVConnectorOutput), results[c]? = some first →
        results[d]? = some second → offer.requestId ∈ first.finishedSending →
          offer.requestId ∈ second.finishedSending → c = d) ∧
      ((∃ result ∈ results, offer.requestId ∈ result.finishedSending) ↔
        ∀ rank < offer.tpSize, ∃ report ∈ history 0 calls, report.rank = rank ∧
          offer.requestId ∈ report.output.finishedSending) ∧
      ∀ result ∈ results, offer.requestId ∈ result.finishedSending →
        offer.requestId ∉ result.expiredSending → ∀ rank < offer.tpSize,
          (∀ read ∈ fleet.reads, read.target = offer.holder rank →
            read.notice.requestId = offer.requestId →
              read.status = .done ∨ read.status = .spent) ∧
          ∀ reader : Nat, (reader : Int) ∈ offer.readers rank →
            fleet.notices.countP (offer.tells (offer.reader reader) rank) = 1 ∧
              offer.owes rank (fleet.workers (offer.reader reader)) = 0 := by
  obtain ⟨last, results, looped, apart, whole, timely⟩ :=
    Fleet.sends_passed_on run askedOnce handedOnce stands.positive feeds
  refine ⟨last, results, looped, apart offer.requestId, whole offer.requestId, ?_⟩
  intro result member sent unexpired rank inside
  rcases timely result member offer.requestId sent unexpired rank inside with
    ⟨report, reported, released, held⟩
  exact released_blocks_unread run stands genuine once reported released held

/-- Request "a" of the sample run. -/
def sample : Offer :=
  ⟨"p", "a", "h", 5000, 1, "c", 1, 3⟩

theorem freed_blocks_unread_sample :
    ∃ last results,
      ({ worldSize := 1 } : KVOutputAggregator).aggregateAll
        [Fleet.sampleReported.reports.map Prod.snd] = (last, results) ∧
      (∃ result ∈ results, "a" ∈ result.finishedSending ∧ "a" ∉ result.expiredSending) ∧
      (∃ read ∈ Fleet.sampleReported.reads, read.target = Offer.sample.holder 0) ∧
      ∀ read ∈ Fleet.sampleReported.reads, read.target = Offer.sample.holder 0 →
        read.notice.requestId = "a" → read.status = .done ∨ read.status = .spent := by
  have alone : ∀ report ∈ Fleet.sampleReported.reports, report.1 = ⟨"p", 0⟩ := by
    decide +kernel
  have passed : ∃ result ∈ (({ worldSize := 1 } : KVOutputAggregator).aggregateAll
      [Fleet.sampleReported.reports.map Prod.snd]).2,
      "a" ∈ result.finishedSending ∧ "a" ∉ result.expiredSending := by decide +kernel
  have stands : Offer.sample.Stands RankSetup.sample :=
    ⟨by decide, by decide, fun _ => rfl, fun _ _ => rfl, fun _ _ => rfl, fun _ => by decide⟩
  have genuine : Offer.sample.Genuine [(⟨"c", 0⟩, "b", .sample)] := by
    intro ask member _
    obtain rfl := List.mem_singleton.mp member
    exact ⟨rfl, Nat.zero_lt_one, rfl, rfl⟩
  have once : ∀ reader < Offer.sample.consumerTpSize,
      Offer.sample.numAsks (Offer.sample.reader reader) [(⟨"c", 0⟩, "b", .sample)] ≤ 1 :=
    fun reader _ => List.countP_le_length
  obtain ⟨last, results, looped, _, _, unread⟩ :=
    freed_blocks_unread Fleet.sampleReported_run Fleet.sampleLoaded_askedOnce
      Fleet.sample_handedOnce stands genuine once (Fleet.feeds_of_single alone)
  rw [List.map_singleton, List.map_map] at looped
  have looped : ({ worldSize := 1 } : KVOutputAggregator).aggregateAll
      [Fleet.sampleReported.reports.map Prod.snd] = (last, results) := looped
  rw [looped] at passed
  refine ⟨last, results, looped, passed, by decide +kernel, ?_⟩
  rcases passed with ⟨result, member, sent, unexpired⟩
  exact (unread result member sent unexpired 0 Nat.zero_lt_one).1

end Offer

end LeanVllm
