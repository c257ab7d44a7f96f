import LeanVllm.KvTransfer.NixlRuns
import LeanVllm.KvTransfer.ReadPlans

/-!
# Notifications that are due

A consumer rank owes a producer rank one notification for a load that reads it.  The
notification is due while the load is queued, while its share is not started, and while its
read runs; then it is delivered.  No turn adds to what is due.
-/

namespace LeanVllm

open Collections Transition NixlConnectorWorker

namespace Collections.Dict

variable {κ ν : Type} [DecidableEq κ]

/-- A sum over the values, with the one of a stored key set apart. -/
theorem sum_values_of_lookup_eq_some {dict : Dict κ ν} {key : κ} {value : ν} (weight : ν → Nat)
    (found : dict.lookup key = some value) :
    (dict.values.map weight).sum =
      weight value + ((values (dict.erase key)).map weight).sum := by
  simpa using ((values_perm_erase found).map weight).sum_nat

theorem sum_values_erase_le (dict : Dict κ ν) (key : κ) (weight : ν → Nat) :
    ((values (dict.erase key)).map weight).sum ≤ (dict.values.map weight).sum := by
  cases found : dict.lookup key with
  | none =>
      have absent : key ∉ dict := AList.lookup_eq_none.mp found
      have kept : (dict.erase key).entries = dict.entries := List.kerase_of_notMem_keys absent
      rw [values, kept]
      exact le_refl _
  | some value =>
      rw [sum_values_of_lookup_eq_some weight found]
      exact Nat.le_add_left _ _

end Collections.Dict

/-- A request whose blocks the ranks of a producer hold for the ranks of a consumer. -/
structure Offer where
  producer : String
  requestId : RequestId
  kvIp : String
  kvPort : Int
  tpSize : Nat
  consumer : String
  consumerTpSize : Nat
  numHeads : Nat

namespace Offer

/-- A load reads the blocks. -/
def Names (offer : Offer) (req : ReqToRecv) : Prop :=
  req.remoteEngineId = offer.producer ∧ req.remoteRequestId = offer.requestId

instance (offer : Offer) : DecidablePred offer.Names :=
  fun _ => inferInstanceAs (Decidable (_ ∧ _))

/-- A rank that holds the blocks. -/
def holder (offer : Offer) (rank : Nat) : WorkerId :=
  ⟨offer.producer, rank⟩

/-- A rank that reads them. -/
def reader (offer : Offer) (rank : Nat) : WorkerId :=
  ⟨offer.consumer, rank⟩

/-- What a load that reads the blocks says of them. -/
structure Takes (offer : Offer) (worker : WorkerId) (req : ReqToRecv) : Prop where
  consumer : worker.engineId = offer.consumer
  rank : worker.rank < offer.consumerTpSize
  port : req.remotePort = offer.kvPort
  tpSize : req.remoteTpSize = offer.tpSize

/-- The engines are set up so: each divides the heads evenly, if there are heads. -/
structure Stands (offer : Offer) (setups : WorkerId → RankSetup) : Prop where
  positive : 0 < offer.tpSize
  consumerPositive : 0 < offer.consumerTpSize
  port : ∀ rank, (setups (offer.holder rank)).kvPort = offer.kvPort
  consumerTpSize : ∀ rank, rank < offer.consumerTpSize →
    (setups (offer.reader rank)).tpSize = offer.consumerTpSize
  numHeads : ∀ rank, rank < offer.consumerTpSize →
    totalHeads offer.consumerTpSize (setups (offer.reader rank)).caches = offer.numHeads
  even : offer.numHeads ≠ 0 →
    offer.consumerTpSize ∣ offer.numHeads ∧ offer.tpSize ∣ offer.numHeads

/-- Every load that reads the blocks says of them what is so. -/
def Genuine (offer : Offer) (asks : List (WorkerId × RequestId × ReqToRecv)) : Prop :=
  ∀ ask ∈ asks, offer.Names ask.2.2 → offer.Takes ask.1 ask.2.2

/-- How many loads of the blocks a rank was asked for. -/
def numAsks (offer : Offer) (self : WorkerId) (asks : List (WorkerId × RequestId × ReqToRecv)) :
    Nat :=
  asks.countP fun ask => ask.1 = self ∧ offer.Names ask.2.2

/-- What a load owes a rank that holds the blocks. -/
def owedBy (offer : Offer) (rank : Nat) (load : NixlLoad) : Nat :=
  if offer.Names load.req then load.unnotified.count (rank : Int) else 0

/-- What a worker owes it. -/
def owes (offer : Offer) (rank : Nat) (worker : NixlConnectorWorker) : Nat :=
  (worker.queue.countP fun item => offer.Names item.2) +
    (worker.loads.values.map (offer.owedBy rank)).sum

/-- A call notifies a rank that holds the blocks, now or later. -/
def calls (offer : Offer) (rank : Nat) (call : AgentCall) : Bool :=
  call.live ∧ call.target = offer.holder rank ∧ call.notice.requestId = offer.requestId

/-- A read will notify the rank. -/
def carries (offer : Offer) (self : WorkerId) (rank : Nat) (read : Read) : Bool :=
  read.reader = self ∧ read.target = offer.holder rank ∧
    read.notice.requestId = offer.requestId ∧
    (read.status = .running ∨ read.status = .broken)

/-- A notification told it. -/
def tells (offer : Offer) (self : WorkerId) (rank : Nat)
    (sent : WorkerId × WorkerId × Notice) : Bool :=
  sent.1 = self ∧ sent.2.1 = offer.holder rank ∧ sent.2.2.requestId = offer.requestId

/-- The notifications of a rank that are due or delivered. -/
def dues (offer : Offer) (self : WorkerId) (rank : Nat) (fleet : Fleet) : Nat :=
  offer.owes rank (fleet.workers self) + fleet.reads.countP (offer.carries self rank) +
    fleet.notices.countP (offer.tells self rank)

end Offer

section Turns

variable {elementSize : String → Nat} {setups : WorkerId → RankSetup} {self : WorkerId}
  {offer : Offer} {rank : Nat} {asks : List (WorkerId × RequestId × ReqToRecv)}
  {req : ReqToRecv} {load nextLoad : NixlLoad} {called : List AgentCall}

/-- The plan of a load has a rank once. -/
theorem nodup_of_planOf {shares : List Share} (plan : planOf setups self req = .ok shares) :
    (shares.map Share.remoteRank).Nodup := by
  simp only [planOf, headShares] at plan
  split at plan
  · cases plan
  · split at plan
    · cases plan
    · obtain rfl := Except.ok.inj plan
      rw [List.map_map]
      have ranks : (Share.remoteRank ∘ fun remoteRank => Share.overlap
          (self.rank * ((setups self).heads req).fdiv (setups self).tpSize)
          ((self.rank + 1) * ((setups self).heads req).fdiv (setups self).tpSize)
          (((setups self).heads req).fdiv req.remoteTpSize) remoteRank) = id := rfl
      rw [ranks, List.map_id]
      exact nodup_range _ _

namespace Offer

/-- A notification of the blocks is of a load that reads them, for its own rank. -/
theorem names_of_reaches (stands : offer.Stands setups)
    (genuine : offer.Names req → offer.Takes self req) {remoteRank : Int} {target : WorkerId}
    {notice : Notice} (reaches : Reaches setups self req remoteRank target notice)
    (holds : target = offer.holder rank) (about : notice.requestId = offer.requestId) :
    offer.Names req ∧ remoteRank = rank := by
  have names : offer.Names req := by
    refine ⟨reaches.engine.symm.trans ?_, reaches.request.symm.trans about⟩
    rw [holds]
    rfl
  have port := reaches.port
  rw [holds, stands.port, (genuine names).port] at port
  have ranked : ((offer.holder rank).rank : Int) = rank := rfl
  exact ⟨names, by omega⟩

/-- What a failing load sends is what it owed. -/
theorem calls_of_notifies (stands : offer.Stands setups)
    (genuine : offer.Names req → offer.Takes self req) {ranks : List Int}
    (notifies : Notifies setups self req ranks called) :
    called.countP (offer.calls rank) ≤ if offer.Names req then ranks.count (rank : Int) else 0 := by
  obtain ⟨chosen, among, matched⟩ := notifies
  have counted : called.countP (offer.calls rank) ≤
      if offer.Names req then chosen.count (rank : Int) else 0 := by
    clear among
    induction matched with
    | nil => simp
    | @cons remoteRank call chosen called paired rest ih =>
        obtain ⟨target, notice, rfl, reaches⟩ := paired
        rw [List.countP_cons, List.count_cons]
        by_cases holds : target = offer.holder rank ∧ notice.requestId = offer.requestId
        · obtain ⟨names, rfl⟩ := names_of_reaches stands genuine reaches holds.1 holds.2
          rw [if_pos names] at ih ⊢
          simp only [beq_self_eq_true, if_true]
          split <;> omega
        · have silent : offer.calls rank (.notify target notice) = false := by
            simp only [calls, AgentCall.live, AgentCall.target, AgentCall.notice, true_and]
            exact decide_eq_false holds
          simp only [silent, if_neg Bool.false_ne_true]
          split at ih <;> rename_i names
          · rw [if_pos names]
            omega
          · rw [if_neg names]
            exact ih
  refine counted.trans ?_
  split
  · exact among.count_le _
  · exact le_refl _

/-- A share that is started is no longer owed. -/
theorem calls_of_startsShare (stands : offer.Stands setups)
    (genuine : offer.Names load.req → offer.Takes self load.req) {planned : Share × Nat}
    {handle : Nat} {raised : Bool} (head : planned.1.remoteRank ∈ load.unnotified)
    (share : StartsShare elementSize setups self load planned handle nextLoad called raised) :
    called.countP (offer.calls rank) + offer.owedBy rank nextLoad ≤ offer.owedBy rank load := by
  -- a live call takes its rank off those that nothing reached
  have reached : ∀ {call : AgentCall}, (call.live = true →
      Reaches setups self load.req planned.1.remoteRank call.target call.notice) →
      [call].countP (offer.calls rank) + (if offer.Names load.req then
        (load.unnotified.erase planned.1.remoteRank).count (rank : Int) else 0) ≤
          offer.owedBy rank load := by
    intro call reaches
    rw [List.countP_singleton, owedBy, List.count_erase]
    by_cases counted : offer.calls rank call = true
    · have parts := counted
      simp only [calls, Bool.decide_and, Bool.and_eq_true, decide_eq_true_eq] at parts
      obtain ⟨names, rankEq⟩ := names_of_reaches stands genuine (reaches parts.1) parts.2.1 parts.2.2
      have among : 0 < load.unnotified.count (rank : Int) := by
        rw [List.count_pos_iff, ← rankEq]
        exact head
      rw [if_pos counted, if_pos names, if_pos names, rankEq, beq_self_eq_true, if_pos rfl]
      omega
    · rw [if_neg counted]
      split
      · omega
      · exact le_refl _
  cases share with
  | raises => exact (Nat.zero_add _).le
  | @refused target notice rows remoteRows reads =>
      have silent : offer.calls rank (.read target notice rows remoteRows false) = false := by
        simp [calls, AgentCall.live]
      rw [List.countP_singleton, silent, if_neg Bool.false_ne_true]
      exact (Nat.zero_add _).le
  | notifies reaches none => exact reached fun _ => reaches
  | reads reads => exact reached fun _ => reads.reaches

/-- What a load that starts owes. -/
theorem count_ranks_le (names : offer.Names req) {ranks : List Int}
    (plan : ranks = [] ∨ ∃ shares, planOf setups self req = .ok shares ∧
      ranks = shares.map Share.remoteRank) :
    ranks.count (rank : Int) ≤ if offer.Names req then 1 else 0 := by
  rw [if_pos names]
  rcases plan with rfl | ⟨shares, plan, rfl⟩
  · exact Nat.zero_le _
  · exact List.nodup_iff_count_le_one.mp (nodup_of_planOf plan) _

variable {before after : NixlConnectorWorker} {requestId : RequestId}

theorem owes_of_cons {rest : List (RequestId × ReqToRecv)}
    (queued : before.queue = (requestId, req) :: rest) (queue : after.queue = rest)
    (loads : after.loads = before.loads.insert requestId load)
    (less : called.countP (offer.calls rank) + offer.owedBy rank load ≤
      if offer.Names req then 1 else 0) :
    called.countP (offer.calls rank) + offer.owes rank after ≤ offer.owes rank before := by
  have erased := Dict.sum_values_erase_le before.loads requestId (offer.owedBy rank)
  simp only [owes, queue, loads, queued, List.countP_cons, Dict.values_insert, List.map_cons,
    List.sum_cons, decide_eq_true_eq]
  omega

theorem owes_of_insert (found : before.loads.lookup requestId = some load)
    (queue : after.queue = before.queue)
    (loads : after.loads = before.loads.insert requestId nextLoad)
    (less : called.countP (offer.calls rank) + offer.owedBy rank nextLoad ≤
      offer.owedBy rank load) :
    called.countP (offer.calls rank) + offer.owes rank after ≤ offer.owes rank before := by
  have apart := Dict.sum_values_of_lookup_eq_some (offer.owedBy rank) found
  simp only [owes, queue, loads, Dict.values_insert, List.map_cons, List.sum_cons, apart]
  omega

/-- What polling sends is what it no longer owes. -/
theorem calls_of_polls (stands : offer.Stands setups)
    (genuine : offer.Names load.req → offer.Takes self load.req) {seen : Nat → XferState}
    (polls : Polls elementSize setups self load seen nextLoad called) :
    called.countP (offer.calls rank) + offer.owedBy rank nextLoad ≤ offer.owedBy rank load := by
  obtain ⟨reqEq, ⟨same, rfl⟩ | ⟨none, notifies⟩⟩ := polls.frame
  · rw [owedBy, owedBy, reqEq, same]
    exact (Nat.zero_add _).le
  · have sent : called.countP (offer.calls rank) ≤ offer.owedBy rank load :=
      calls_of_notifies stands genuine notifies
    rw [owedBy, none, List.count_nil, ite_self]
    exact sent

/-- What a turn calls it no longer owes. -/
theorem owes_of_turn (stands : offer.Stands setups) (genuine : offer.Genuine asks)
    (minded : Minded elementSize setups asks self before) {handle : Nat}
    {seen : Nat → XferState}
    (turn : TransferTurn elementSize setups self handle seen before requestId after called) :
    called.countP (offer.calls rank) + offer.owes rank after ≤ offer.owes rank before := by
  have takes : ∀ load, before.loads.lookup requestId = some load →
      offer.Names load.req → offer.Takes self load.req := fun load found =>
    genuine _ (minded.loads requestId load found).1
  cases turn with
  | @starts req rest shares started idle queued plan =>
      refine owes_of_cons queued rfl rfl ?_
      rw [List.countP_nil, Nat.zero_add, owedBy]
      split
      · rename_i names
        exact (count_ranks_le names (Or.inr ⟨shares, plan, rfl⟩)).trans (if_pos names).le
      · exact Nat.zero_le _
  | @stillborn req rest ranks started _ idle queued plan notifies =>
      have asked := minded.queued (requestId, req) (by rw [queued]; exact List.mem_cons_self)
      have sent : called.countP (offer.calls rank) ≤
          if offer.Names req then ranks.count (rank : Int) else 0 :=
        calls_of_notifies stands (genuine _ asked) notifies
      refine owes_of_cons queued rfl rfl ?_
      rw [owedBy, List.count_nil, ite_self, Nat.add_zero]
      refine sent.trans ?_
      split
      · rename_i names
        exact (count_ranks_le names plan).trans (if_pos names).le
      · exact le_refl _
  | ends starting => exact (Nat.zero_add _).le
  | @shares planned rest load nextLoad middle _ starting found learns known share =>
      obtain ⟨own, ownFound, left⟩ := minded.starting _ _ starting
      obtain rfl := Option.some.inj (found.symm.trans ownFound)
      refine owes_of_insert found learns.queue rfl ?_
      refine calls_of_startsShare stands (takes load found) ?_ share
      rw [left]
      exact List.mem_cons_self
  | @stops planned rest load nextLoad middle first more starting found learns known share
      notifies =>
      obtain ⟨own, ownFound, left⟩ := minded.starting _ _ starting
      obtain rfl := Option.some.inj (found.symm.trans ownFound)
      obtain ⟨reqEq, _, _⟩ := share.frame
      have head : planned.1.remoteRank ∈ load.unnotified := by
        rw [left]
        exact List.mem_cons_self
      have shared : first.countP (offer.calls rank) + offer.owedBy rank nextLoad ≤
          offer.owedBy rank load :=
        calls_of_startsShare stands (takes load found) head share
      have sent : more.countP (offer.calls rank) ≤ offer.owedBy rank nextLoad :=
        calls_of_notifies stands (reqEq ▸ takes load found) notifies
      refine owes_of_insert found learns.queue rfl ?_
      rw [owedBy, List.count_nil, ite_self, Nat.add_zero, List.countP_append]
      exact (Nat.add_le_add_left sent _).trans shared
  | @waits load polled _ idle found polls pending =>
      exact owes_of_insert found rfl rfl (calls_of_polls stands (takes load found) polls)
  | @lands load polled _ now idle found polls none =>
      have ended : called.countP (offer.calls rank) + offer.owedBy rank polled ≤
          offer.owedBy rank load :=
        calls_of_polls stands (takes load found) polls
      have apart := Dict.sum_values_of_lookup_eq_some (offer.owedBy rank) found
      simp only [owes, apart]
      omega

end Offer

end Turns

namespace Fleet

variable {elementSize : String → Nat} {setups : WorkerId → RankSetup} {self : WorkerId}
  {offer : Offer} {rank : Nat} {asks : List (WorkerId × RequestId × ReqToRecv)}
  {before after fleet : Fleet} {event : Event} {requestId : RequestId}

/-- A worker's live calls become reads that will notify, and notifications. -/
theorem countP_calls (called : List AgentCall) :
    (called.flatMap (AgentCall.reads self requestId)).countP (offer.carries self rank) +
      (called.flatMap (AgentCall.notices self)).countP (offer.tells self rank) =
        called.countP (offer.calls rank) := by
  induction called with
  | nil => rfl
  | cons call rest ih =>
      rw [List.flatMap_cons, List.flatMap_cons, List.countP_append, List.countP_append,
        List.countP_cons, ← ih]
      cases call with
      | notify target notice =>
          simp only [AgentCall.reads, AgentCall.notices, List.countP_nil, List.countP_singleton,
            Offer.tells, Offer.calls, AgentCall.live, AgentCall.target, AgentCall.notice, true_and]
          omega
      | read target notice rows remoteRows accepted =>
          cases accepted with
          | false => simp [AgentCall.reads, AgentCall.notices, Offer.carries, Offer.calls, AgentCall.live]
          | true =>
              simp only [AgentCall.reads, AgentCall.notices, List.countP_nil, List.countP_singleton,
                Offer.carries, Offer.calls, AgentCall.live, AgentCall.target, AgentCall.notice,
                true_and, if_true, true_or, and_true]
              omega

/-- Another worker's calls are none of its own. -/
theorem countP_calls_of_ne {other : WorkerId} (different : other ≠ self)
    (called : List AgentCall) :
    (called.flatMap (AgentCall.reads other requestId)).countP (offer.carries self rank) = 0 ∧
      (called.flatMap (AgentCall.notices other)).countP (offer.tells self rank) = 0 := by
  rw [List.countP_eq_zero, List.countP_eq_zero]
  constructor
  · intro read member carried
    obtain ⟨call, _, posted⟩ := List.mem_flatMap.mp member
    cases call with
    | notify target notice => exact absurd posted List.not_mem_nil
    | read target notice rows remoteRows accepted =>
        obtain rfl := List.mem_singleton.mp posted
        exact different (of_decide_eq_true carried).1
  · intro sent member told
    obtain ⟨call, _, posted⟩ := List.mem_flatMap.mp member
    cases call with
    | notify target notice =>
        obtain rfl := List.mem_singleton.mp posted
        exact different (of_decide_eq_true told).1
    | read target notice rows remoteRows accepted => exact absurd posted List.not_mem_nil

theorem owes_of_serves {before after : NixlConnectorWorker} (serves : Serves before after) :
    offer.owes rank after = offer.owes rank before := by
  rw [Offer.owes, Offer.owes, serves.queue, serves.loads]

/-- A worker that changed adds to what is due only what it owes more. -/
theorem dues_of_update {worker : NixlConnectorWorker} {other : WorkerId} {more : Nat}
    (workers : after.workers = Function.update before.workers other worker)
    (owed : other = self →
      offer.owes rank worker ≤ offer.owes rank (before.workers self) + more)
    (reads : after.reads = before.reads) (notices : after.notices = before.notices) :
    offer.dues self rank after ≤ offer.dues self rank before + more := by
  rw [Offer.dues, Offer.dues, reads, notices, workers]
  by_cases same : other = self
  · have less := owed same
    subst same
    rw [Function.update_self]
    omega
  · rw [Function.update_of_ne (Ne.symm same)]
    omega

/-- A read that notifies when it ends is due before and delivered after. -/
theorem dues_of_deliver {handle : Nat} {read : Read} {status : ReadStatus}
    (found : before.reads[handle]? = some read)
    (moves : read.status = .running ∧ status = .done ∨ read.status = .broken ∧ status = .spent) :
    offer.dues self rank ((before.setRead handle { read with status := status }).deliver
      read.reader read.target read.notice) = offer.dues self rank before := by
  obtain ⟨inside, readEq⟩ := List.getElem?_eq_some_iff.mp found
  have ended : offer.carries self rank { read with status := status } = false := by
    rcases moves with ⟨_, rfl⟩ | ⟨_, rfl⟩ <;> simp [Offer.carries]
  have live : read.status = .running ∨ read.status = .broken := moves.imp And.left And.left
  have told : offer.tells self rank (read.reader, read.target, read.notice) =
      offer.carries self rank read := by
    simp [Offer.tells, Offer.carries, live]
  have positive : (if offer.carries self rank read = true then 1 else 0) ≤
      before.reads.countP (offer.carries self rank) := by
    split
    · rename_i carried
      exact List.countP_pos_iff.mpr ⟨read, List.mem_of_getElem? found, carried⟩
    · exact Nat.zero_le _
  simp only [Offer.dues, setRead, deliver, List.countP_append, List.countP_singleton,
    List.countP_set inside, readEq, ended, told]
  simp only [if_neg Bool.false_ne_true]
  omega

theorem dues_of_breaks {handle : Nat} {read : Read} (found : before.reads[handle]? = some read)
    (running : read.status = .running) :
    offer.dues self rank (before.setRead handle { read with status := .broken }) =
      offer.dues self rank before := by
  obtain ⟨inside, readEq⟩ := List.getElem?_eq_some_iff.mp found
  have same : offer.carries self rank { read with status := .broken } =
      offer.carries self rank read := by
    simp [Offer.carries, running]
  have positive : (if offer.carries self rank read = true then 1 else 0) ≤
      before.reads.countP (offer.carries self rank) := by
    split
    · rename_i carried
      exact List.countP_pos_iff.mpr ⟨read, List.mem_of_getElem? found, carried⟩
    · exact Nat.zero_le _
  simp only [Offer.dues, setRead, List.countP_set inside, readEq, same]
  omega

/-- Only an ask adds to what is due. -/
theorem Effect.dues_le (effect : Effect elementSize setups before after event)
    (stands : offer.Stands setups) (genuine : offer.Genuine asks)
    (sound : Sound elementSize setups asks before) :
    offer.dues self rank after ≤ offer.dues self rank before + offer.numAsks self event.asks := by
  cases effect with
  | @queues other metadata deadline queued =>
      subst queued
      refine dues_of_update rfl ?_ rfl rfl
      rintro rfl
      rw [owes_of_serves (startLoadKv_serves _ metadata deadline)]
      simp only [Offer.owes, Offer.numAsks, Event.asks, List.countP_append, List.countP_map]
      have asked : metadata.reqsToRecv.entries.countP
          ((fun ask => decide (ask.1 = other ∧ offer.Names ask.2.2)) ∘
            fun item => (other, item.1, item.2)) =
          metadata.reqsToRecv.entries.countP
            ((fun item => decide (offer.Names item.2)) ∘ fun item => (item.1, item.2)) := by
        refine List.countP_congr fun item _ => ?_
        simp
      rw [asked]
      omega
  | @reports other now timeout reported =>
      subst reported
      refine dues_of_update rfl ?_ rfl rfl
      rintro rfl
      obtain ⟨served, serves, reportedEq⟩ := getFinished_serves (before.workers other) now timeout
      have owed : offer.owes rank served = offer.owes rank (before.workers other) :=
        owes_of_serves serves
      rw [reportedEq, ← owed]
      exact Nat.le_add_right _ _
  | @turns _ other requestId seen worker called silent honest turn turned =>
      have spent : called.countP (offer.calls rank) + offer.owes rank worker ≤
          offer.owes rank (before.workers other) :=
        Offer.owes_of_turn stands genuine (sound.minded other) turn
      rw [Offer.dues, Offer.dues, turned.workers, turned.reads, turned.notices,
        List.countP_append, List.countP_append]
      by_cases same : other = self
      · subst same
        have counted : (called.flatMap (AgentCall.reads other requestId)).countP
            (offer.carries other rank) +
              (called.flatMap (AgentCall.notices other)).countP (offer.tells other rank) =
                called.countP (offer.calls rank) := countP_calls called
        rw [Function.update_self]
        omega
      · obtain ⟨noReads, noNotices⟩ :
            (called.flatMap (AgentCall.reads other requestId)).countP (offer.carries self rank) = 0 ∧
              (called.flatMap (AgentCall.notices other)).countP (offer.tells self rank) = 0 :=
          countP_calls_of_ne same called
        rw [Function.update_of_ne (Ne.symm same)]
        omega
  | @takes other sender index now notice found taken =>
      subst taken
      refine dues_of_update rfl ?_ rfl rfl
      rintro rfl
      rw [owes_of_serves (takeNotification_serves _ notice now)]
      exact Nat.le_add_right _ _
  | @delivers _ handle read status silent found moves delivered =>
      subst delivered
      rw [dues_of_deliver found moves]
      exact Nat.le_add_right _ _
  | @breaks handle read found running broken =>
      subst broken
      rw [dues_of_breaks found running]
      exact Nat.le_add_right _ _

/-- In every run, what is due or delivered was asked for. -/
theorem run_dues_le {events : List Event} (run : Run (Next elementSize setups) {} events fleet)
    (stands : offer.Stands setups) (genuine : offer.Genuine (events.flatMap Event.asks))
    (self : WorkerId) (rank : Nat) :
    offer.dues self rank fleet ≤ offer.numAsks self (events.flatMap Event.asks) := by
  induction run with
  | nil => simp [Offer.dues, Offer.owes]
  | @snoc events middle last event before final ih =>
      rw [List.flatMap_append, List.flatMap_singleton] at genuine ⊢
      have genuineBefore : offer.Genuine (events.flatMap Event.asks) := fun ask member =>
        genuine ask (List.mem_append_left _ member)
      have sound := run_sound before
      have effect := final.effect fun self => (sound.minded self).known
      have step : offer.dues self rank last ≤
          offer.dues self rank middle + offer.numAsks self event.asks :=
        effect.dues_le stands genuineBefore sound
      have earlier := ih genuineBefore
      simp only [Offer.numAsks] at step earlier ⊢
      rw [List.countP_append]
      omega

end Fleet

end LeanVllm
