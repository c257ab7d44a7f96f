import LeanVllm.KvTransfer.Dues

/-!
# Blocks held for a hand-over

A producer rank counts the notifications of a request against the number of readers that
the first of them names.  Each reader notifies once, so that when the rank lets the blocks
go, every reader is done with them.
-/

namespace LeanVllm

open Collections Transition

namespace NixlConnectorWorker

variable {requestId other : RequestId} {told : Nat → Prop} {heard : Nat}
  {worker : NixlConnectorWorker}

/-- As many notifications as readers that one of them named. -/
def Enough (told : Nat → Prop) (heard : Nat) : Prop :=
  ∃ readers, told readers ∧ readers ≤ heard

/-- The worker counted at most the notifications it heard, and let the request go only
once it heard enough, or gave it up. -/
structure Tallied (requestId : RequestId) (told : Nat → Prop) (heard : Nat)
    (worker : NixlConnectorWorker) : Prop where
  counted : ∀ entry, worker.notified.lookup requestId = some entry →
    entry.notifications ≤ heard ∧ told entry.readers
  released : requestId ∈ worker.finished.finishedSending →
    requestId ∈ worker.finished.expiredSending ∨ Enough told heard

theorem Tallied.mono {more : Nat → Prop} {later : Nat} (tallied : Tallied requestId told heard worker)
    (grows : ∀ readers, told readers → more readers) (le : heard ≤ later) :
    Tallied requestId more later worker where
  counted entry found :=
    ⟨(tallied.counted entry found).1.trans le, grows _ (tallied.counted entry found).2⟩
  released sent := (tallied.released sent).imp_right fun ⟨readers, named, enough⟩ =>
    ⟨readers, grows _ named, enough.trans le⟩

theorem Tallied.release (tallied : Tallied requestId told heard worker)
    (enough : other = requestId → Enough told heard) :
    Tallied requestId told heard (worker.release other) := by
  unfold NixlConnectorWorker.release
  split
  · refine ⟨fun entry found => ?_, fun sent => ?_⟩
    · rw [Dict.lookup_erase_eq] at found
      split at found
      · cases found
      · exact tallied.counted entry found
    · rcases List.mem_insert_iff.mp sent with same | old
      · exact Or.inr (enough same.symm)
      · exact tallied.released old
  · exact tallied

theorem Tallied.releaseIfRead (tallied : Tallied requestId told heard worker) :
    Tallied requestId told heard (worker.releaseIfRead other) := by
  unfold NixlConnectorWorker.releaseIfRead
  split
  · exact tallied
  · rename_i entry found
    split
    · rename_i enough
      refine tallied.release fun same => ?_
      obtain ⟨counted, named⟩ := tallied.counted entry (same ▸ found)
      exact ⟨entry.readers, named, enough.trans counted⟩
    · exact tallied

theorem Tallied.foldl {α : Type} {step : NixlConnectorWorker → α → NixlConnectorWorker}
    (each : ∀ worker item, Tallied requestId told heard worker →
      Tallied requestId told heard (step worker item))
    (tallied : Tallied requestId told heard worker) (items : List α) :
    Tallied requestId told heard (items.foldl step worker) := by
  induction items generalizing worker with
  | nil => exact tallied
  | cons item rest ih => exact ih (each worker item tallied)

theorem Tallied.startLoadKv (tallied : Tallied requestId told heard worker)
    (metadata : KVConnectorMetadata) (deadline : Rat) :
    Tallied requestId told heard (worker.startLoadKv metadata deadline) := by
  have exposed : Tallied requestId told heard
      (metadata.reqsToSend.keys.foldl (expose deadline) worker) := by
    refine tallied.foldl (fun worker other tallied => ?_) _
    have inserted : Tallied requestId told heard
        { worker with reqsToSend := worker.reqsToSend.insert other deadline } :=
      ⟨tallied.counted, tallied.released⟩
    exact inserted.releaseIfRead
  exact ⟨exposed.counted, exposed.released⟩

/-- A request that is given up is reported so. -/
theorem Tallied.expire (tallied : Tallied requestId told heard worker) :
    Tallied requestId told heard (worker.expire other) := by
  by_cases same : other = requestId
  · refine ⟨fun entry found => ?_, fun _ => Or.inl (List.mem_insert_iff.mpr (Or.inl same.symm))⟩
    simp only [NixlConnectorWorker.expire, NixlConnectorWorker.release] at found
    split at found
    · rw [Dict.lookup_erase_eq] at found
      split at found
      · cases found
      · exact tallied.counted entry found
    · exact tallied.counted entry found
  · have released : Tallied requestId told heard (worker.release other) :=
      tallied.release fun equal => absurd equal same
    exact ⟨released.counted, fun sent =>
      (released.released sent).imp_left fun given => List.mem_insert_iff.mpr (Or.inr given)⟩

theorem Tallied.forgetNotified (tallied : Tallied requestId told heard worker)
    (now timeout : Rat) (item : Sigma fun _ : RequestId => Notified) :
    Tallied requestId told heard (forgetNotified now timeout worker item) := by
  unfold NixlConnectorWorker.forgetNotified
  split
  · refine ⟨fun entry found => ?_, tallied.released⟩
    rw [Dict.lookup_erase_eq] at found
    split at found
    · cases found
    · exact tallied.counted entry found
  · exact tallied

/-- What is reported was heard of enough, or given up. -/
theorem Tallied.getFinished (tallied : Tallied requestId told heard worker)
    (now timeout : Rat) :
    Tallied requestId told heard (worker.getFinished now timeout).1 ∧
      (requestId ∈ (worker.getFinished now timeout).2.finishedSending →
        requestId ∈ (worker.getFinished now timeout).2.expiredSending ∨ Enough told heard) := by
  let overdue := worker.reqsToSend.entries.filter fun item => item.2 < now
  have expired : Tallied requestId told heard ((overdue.map Sigma.fst).foldl
      NixlConnectorWorker.expire worker) := by
    refine tallied.foldl (fun worker other tallied => ?_) _
    exact tallied.expire
  have forgot := expired.foldl (fun worker item tallied => tallied.forgetNotified now timeout item)
    ((overdue.map Sigma.fst).foldl NixlConnectorWorker.expire worker).notified.entries
  exact ⟨⟨forgot.counted, fun absurdly => absurd absurdly List.not_mem_nil⟩, forgot.released⟩

/-- A notification that is taken is heard. -/
theorem Tallied.takeNotification (tallied : Tallied requestId told heard worker)
    (notice : Notice) (now : Rat) (named : notice.requestId = requestId → told notice.readers) :
    Tallied requestId told (heard + if notice.requestId = requestId then 1 else 0)
      (worker.takeNotification notice now) := by
  refine Tallied.releaseIfRead ⟨fun entry found => ?_, ?_⟩
  · rw [Dict.lookup_insert_eq] at found
    split at found
    · rename_i same
      obtain rfl := Option.some.inj found
      rw [if_pos same.symm]
      cases known : worker.notified.lookup notice.requestId with
      | none => exact ⟨Nat.le_add_left _ _, named same.symm⟩
      | some old =>
          obtain ⟨counted, told⟩ := tallied.counted old (same ▸ known)
          exact ⟨Nat.add_le_add_right counted 1, told⟩
    · rename_i different
      rw [if_neg (Ne.symm different)]
      exact tallied.counted entry found
  · exact (tallied.mono (fun _ => id) (Nat.le_add_right _ _)).released

/-- A turn of the transfer thread counts and lets go of nothing. -/
theorem TransferTurn.tallied {elementSize : String → Nat} {setups : WorkerId → RankSetup}
    {self : WorkerId} {handle : Nat} {seen : Nat → XferState} {load : RequestId}
    {after : NixlConnectorWorker} {calls : List AgentCall}
    (turn : TransferTurn elementSize setups self handle seen worker load after calls)
    (tallied : Tallied requestId told heard worker) : Tallied requestId told heard after := by
  cases turn with
  | starts | stillborn | ends | waits => exact ⟨tallied.counted, tallied.released⟩
  | shares starting found learns known share | stops starting found learns known share notifies =>
      refine ⟨fun entry found => tallied.counted entry ?_, fun sent => ?_⟩
      · rw [← learns.notified]
        exact found
      · simp only [learns.finished] at sent ⊢
        exact tallied.released sent
  | @lands landing polled _ now idle found polls none =>
      have same : (landed worker.finished load polled now).finishedSending =
            worker.finished.finishedSending ∧
          (landed worker.finished load polled now).expiredSending =
            worker.finished.expiredSending := by
        unfold landed
        split <;> exact ⟨rfl, rfl⟩
      refine ⟨tallied.counted, fun sent => ?_⟩
      simp only [same.1, same.2] at sent ⊢
      exact tallied.released sent

end NixlConnectorWorker

namespace Fleet

open NixlConnectorWorker

variable {elementSize : String → Nat} {setups : WorkerId → RankSetup} {producer : WorkerId}
  {requestId : RequestId} {before after fleet : Fleet} {event : Event}

/-- The notifications of a request that a worker was sent. -/
def about (fleet : Fleet) (producer : WorkerId) (requestId : RequestId) :
    List (WorkerId × WorkerId × Notice) :=
  fleet.notices.filter fun sent => sent.2.1 = producer ∧ sent.2.2.requestId = requestId

/-- Those it did not take yet. -/
def untaken (fleet : Fleet) (producer : WorkerId) (requestId : RequestId) : Nat :=
  (fleet.inbox producer).countP fun sent => sent.2.requestId = requestId

/-- One of them named that many readers. -/
def Told (fleet : Fleet) (producer : WorkerId) (requestId : RequestId) (readers : Nat) : Prop :=
  ∃ sent ∈ fleet.about producer requestId, sent.2.2.readers = readers

/-- A producer rank's count agrees with what was sent, and so does every report of it. -/
structure Ledger (producer : WorkerId) (requestId : RequestId) (fleet : Fleet) : Prop where
  inbox : ∀ sent ∈ fleet.inbox producer, sent.2.requestId = requestId →
    fleet.Told producer requestId sent.2.readers
  tallied : ∃ heard, heard + fleet.untaken producer requestId ≤
      (fleet.about producer requestId).length ∧
    Tallied requestId (fleet.Told producer requestId) heard (fleet.workers producer)
  reported : ∀ report, (producer, report) ∈ fleet.reports →
    requestId ∈ report.finishedSending → requestId ∈ report.expiredSending ∨
      Enough (fleet.Told producer requestId) (fleet.about producer requestId).length

/-- Notifications that are added change the count of those they are for. -/
theorem Ledger.more {sent : List (WorkerId × WorkerId × Notice)}
    (ledger : Ledger producer requestId before) (notices : after.notices = before.notices ++ sent)
    (inbox : after.inbox producer = before.inbox producer ++
      (sent.filter fun sent => sent.2.1 = producer).map fun sent => (sent.1, sent.2.2))
    (reports : after.reports = before.reports)
    (serves : ∀ told heard, Tallied requestId told heard (before.workers producer) →
      Tallied requestId told heard (after.workers producer)) :
    Ledger producer requestId after := by
  have aboutEq : after.about producer requestId = before.about producer requestId ++
      sent.filter fun sent => sent.2.1 = producer ∧ sent.2.2.requestId = requestId := by
    rw [about, notices, List.filter_append]
    rfl
  have grows : ∀ readers, before.Told producer requestId readers →
      after.Told producer requestId readers := by
    rintro readers ⟨notice, member, named⟩
    refine ⟨notice, ?_, named⟩
    rw [aboutEq]
    exact List.mem_append_left _ member
  have length : (after.about producer requestId).length =
      (before.about producer requestId).length +
        (sent.filter fun sent => sent.2.1 = producer ∧ sent.2.2.requestId = requestId).length := by
    rw [aboutEq, List.length_append]
  refine ⟨fun item member same => ?_, ?_, fun report member sentIt => ?_⟩
  · rw [inbox] at member
    rcases List.mem_append.mp member with old | new
    · exact grows _ (ledger.inbox item old same)
    · obtain ⟨notice, among, rfl⟩ := List.mem_map.mp new
      obtain ⟨added, target⟩ := List.mem_filter.mp among
      refine ⟨notice, ?_, rfl⟩
      rw [aboutEq]
      refine List.mem_append_right _ (List.mem_filter.mpr ⟨added, ?_⟩)
      exact decide_eq_true ⟨of_decide_eq_true target, same⟩
  · obtain ⟨heard, le, tallied⟩ := ledger.tallied
    refine ⟨heard, ?_, serves _ _ (tallied.mono grows (le_refl _))⟩
    have added : (((sent.filter fun sent => sent.2.1 = producer).map
        fun sent => (sent.1, sent.2.2)).countP fun item => item.2.requestId = requestId) =
        (sent.filter fun sent => sent.2.1 = producer ∧ sent.2.2.requestId = requestId).length := by
      rw [List.countP_map, List.countP_filter, List.countP_eq_length_filter]
      congr 1
      refine List.filter_congr fun item _ => ?_
      simp [and_comm]
    rw [untaken, inbox, List.countP_append, added, length]
    rw [untaken] at le
    omega
  · rw [reports] at member
    refine (ledger.reported report member sentIt).imp_right ?_
    rintro ⟨readers, named, enough⟩
    exact ⟨readers, grows _ named, enough.trans (length ▸ Nat.le_add_right _ _)⟩

/-- A worker that changed with no notification sent. -/
theorem Ledger.update {self : WorkerId} {worker : NixlConnectorWorker}
    (ledger : Ledger producer requestId before)
    (workers : after.workers = Function.update before.workers self worker)
    (notices : after.notices = before.notices) (inbox : after.inbox = before.inbox)
    (reports : after.reports = before.reports)
    (serves : ∀ told heard, Tallied requestId told heard (before.workers self) →
      Tallied requestId told heard worker) :
    Ledger producer requestId after := by
  have none : after.notices = before.notices ++ [] := by rw [notices, List.append_nil]
  refine ledger.more none (by simp [inbox]) reports fun told heard tallied => ?_
  rw [workers]
  by_cases same : producer = self
  · subst same
    rw [Function.update_self]
    exact serves told heard tallied
  · rw [Function.update_of_ne same]
    exact tallied

theorem Effect.ledger (effect : Effect elementSize setups before after event)
    (ledger : Ledger producer requestId before) : Ledger producer requestId after := by
  cases effect with
  | @queues self metadata deadline queued =>
      subst queued
      exact ledger.update rfl rfl rfl rfl fun told heard tallied =>
        tallied.startLoadKv metadata deadline
  | @reports self now timeout reported =>
      subst reported
      have kept : Ledger producer requestId
          (before.setWorker self ((before.workers self).getFinished now timeout).1) :=
        ledger.update rfl rfl rfl rfl fun told heard tallied => (tallied.getFinished now timeout).1
      refine ⟨kept.inbox, kept.tallied, fun report member sent => ?_⟩
      rcases List.mem_append.mp member with old | new
      · exact kept.reported report old sent
      · obtain ⟨rfl, rfl⟩ := Prod.mk.inj (List.mem_singleton.mp new)
        obtain ⟨heard, le, tallied⟩ := ledger.tallied
        refine ((tallied.getFinished now timeout).2 sent).imp_right ?_
        rintro ⟨readers, named, enough⟩
        exact ⟨readers, named, enough.trans ((Nat.le_add_right _ _).trans le)⟩
  | @turns _ self load seen worker called silent honest turn turned =>
      refine ledger.more turned.notices (turned.inbox producer) turned.reports
        fun told heard tallied => ?_
      rw [turned.workers]
      by_cases same : producer = self
      · subst same
        rw [Function.update_self]
        exact turn.tallied tallied
      · rw [Function.update_of_ne same]
        exact tallied
  | @takes self sender index now notice found taken =>
      subst taken
      by_cases same : producer = self
      · subst same
        obtain ⟨inside, itemEq⟩ := List.getElem?_eq_some_iff.mp found
        obtain ⟨heard, le, tallied⟩ := ledger.tallied
        have erased := (List.getElem_cons_eraseIdx_perm inside).countP_eq
          fun sent => decide (sent.2.requestId = requestId)
        simp only [itemEq, List.countP_cons, decide_eq_true_eq] at erased
        refine ⟨fun item member about => ?_,
          ⟨heard + if notice.requestId = requestId then 1 else 0, ?_, ?_⟩, ledger.reported⟩
        · simp only [Function.update_self] at member
          exact ledger.inbox item (List.mem_of_mem_eraseIdx member) about
        · simp only [untaken, Function.update_self]
          rw [untaken, ← erased] at le
          refine le_trans (Nat.le_of_eq ?_) le
          omega
        · rw [setWorker_workers, Function.update_self]
          exact tallied.takeNotification notice now
            (ledger.inbox (sender, notice) (List.mem_of_getElem? found))
      · refine ledger.more (List.append_nil _).symm (by simp [Function.update_of_ne same]) rfl
          fun told heard tallied => ?_
        rw [setWorker_workers, Function.update_of_ne same]
        exact tallied
  | @delivers _ handle read status silent found moves delivered =>
      subst delivered
      refine ledger.more rfl ?_ rfl fun told heard => id
      by_cases same : read.target = producer
      · subst same
        simp [deliver, setRead]
      · simp [deliver, setRead, same, Function.update_of_ne (Ne.symm same)]
  | @breaks handle read found running broken =>
      subst broken
      exact ledger.more (List.append_nil _).symm (by simp [setRead]) rfl fun told heard => id

theorem run_ledger {events : List Event} (run : Run (Next elementSize setups) {} events fleet)
    (producer : WorkerId) (requestId : RequestId) : Ledger producer requestId fleet := by
  induction run with
  | nil =>
      refine ⟨fun _ absurdly => absurd absurdly List.not_mem_nil, ⟨0, le_refl _, ?_, ?_⟩,
        fun _ absurdly => absurd absurdly List.not_mem_nil⟩
      · intro entry found
        simp at found
      · exact fun absurdly => absurd absurdly List.not_mem_nil
  | snoc before final ih =>
      have sound := run_sound before
      exact (final.effect fun self => (sound.minded self).known).ledger ih

end Fleet

/-! ## Once every reader notified -/

namespace Offer

variable {elementSize : String → Nat} {setups : WorkerId → RankSetup} {offer : Offer}
  {asks : List (WorkerId × RequestId × ReqToRecv)} {rank : Nat} {fleet : Fleet}

/-- The heads both engines split. -/
def heads (offer : Offer) : Int :=
  splitHeads offer.numHeads offer.consumerTpSize offer.tpSize

/-- The consumer ranks whose plans read a rank that holds the blocks. -/
def readers (offer : Offer) (rank : Nat) : List Int :=
  (Int.range 0 offer.consumerTpSize).filter fun reader =>
    readsRank reader offer.consumerTpSize offer.tpSize offer.heads rank

/-- A notification comes from a rank that reads, and names how many those are. -/
theorem mem_readers_of_sentBy (stands : offer.Stands setups) (genuine : offer.Genuine asks)
    {self : WorkerId} {requestId : RequestId} {notice : Notice}
    (sent : SentBy setups asks self requestId (offer.holder rank) notice)
    (about : notice.requestId = offer.requestId) :
    self = offer.reader self.rank ∧ (self.rank : Int) ∈ offer.readers rank ∧
      notice.readers = (offer.readers rank).length := by
  obtain ⟨req, remoteRank, asked, ⟨shares, plan, inPlan⟩, reaches⟩ := sent
  obtain ⟨names, rfl⟩ := names_of_reaches stands (genuine _ asked) reaches rfl about
  have takes := genuine _ asked names
  have selfEq : self = offer.reader self.rank := by
    obtain ⟨engineId, own⟩ := self
    obtain rfl := takes.consumer
    rfl
  obtain ⟨share, remote, sharePos, remotePos, headsEq, total⟩ :=
    splitHeads_even stands.consumerPositive stands.positive stands.even
  have shareLt : (0 : Int) < share := by omega
  have remoteLt : (0 : Int) < remote := by omega
  have consumerLt : (0 : Int) < offer.consumerTpSize := by
    have positive := stands.consumerPositive
    omega
  have producerLt : (0 : Int) < offer.tpSize := by
    have positive := stands.positive
    omega
  have tpSize : (setups self).tpSize = offer.consumerTpSize := by
    rw [selfEq]
    exact stands.consumerTpSize _ takes.rank
  have headsOf : (setups self).heads req = (offer.consumerTpSize : Int) * share := by
    have numHeads : totalHeads offer.consumerTpSize (setups self).caches = offer.numHeads := by
      rw [selfEq]
      exact stands.numHeads _ takes.rank
    rw [RankSetup.heads, tpSize, numHeads, takes.tpSize, headsEq]
  have planEq : shares = sharePlan self.rank share remote := by
    rw [NixlConnectorWorker.planOf, tpSize, headsOf, takes.tpSize,
      headShares_eq consumerLt producerLt remoteLt total] at plan
    exact (Except.ok.inj plan).symm
  rw [planEq] at inPlan
  have ranked : (0 : Int) ≤ rank ∧ (rank : Int) < offer.tpSize :=
    remoteRank_of_mem_sharePlan shareLt remoteLt total (Int.natCast_nonneg _)
      (by exact_mod_cast takes.rank) inPlan
  have readersEq : offer.readers rank = (Int.range 0 offer.consumerTpSize).filter fun reader =>
      (rank : Int) ∈ (sharePlan reader share remote).map Share.remoteRank := by
    rw [readers, heads, headsEq]
    simp only [readsRank_eq stands.consumerPositive stands.positive remoteLt total]
  refine ⟨selfEq, ?_, ?_⟩
  · rw [readersEq, List.mem_filter, Int.mem_range_iff]
    exact ⟨⟨Int.natCast_nonneg _, by exact_mod_cast takes.rank⟩, decide_eq_true inPlan⟩
  · have told := reaches.readers
    rw [RankSetup.readers, tpSize, headsOf, takes.tpSize, total,
      headShares_eq producerLt consumerLt shareLt total.symm] at told
    rw [← Except.ok.inj told, readersEq]
    exact length_sharePlan_eq_readers shareLt remoteLt total ranked.1 ranked.2

variable {events : List Fleet.Event}

/-- Each reader notified a rank at most once. -/
theorem nodup_senders (run : Run (Fleet.Next elementSize setups) {} events fleet)
    (stands : offer.Stands setups) (genuine : offer.Genuine (events.flatMap Fleet.Event.asks))
    (once : ∀ reader < offer.consumerTpSize,
      offer.numAsks (offer.reader reader) (events.flatMap Fleet.Event.asks) ≤ 1) :
    ((fleet.about (offer.holder rank) offer.requestId).map fun sent => (sent.1.rank : Int)).Nodup ∧
      ∀ sent ∈ fleet.about (offer.holder rank) offer.requestId,
        sent.1 = offer.reader sent.1.rank ∧ (sent.1.rank : Int) ∈ offer.readers rank ∧
          sent.2.2.readers = (offer.readers rank).length := by
  have sound := Fleet.run_sound run
  have from_reader : ∀ sent ∈ fleet.about (offer.holder rank) offer.requestId,
      sent.1 = offer.reader sent.1.rank ∧ (sent.1.rank : Int) ∈ offer.readers rank ∧
        sent.2.2.readers = (offer.readers rank).length := by
    intro sent member
    obtain ⟨among, about⟩ := List.mem_filter.mp member
    obtain ⟨target, request⟩ := of_decide_eq_true about
    obtain ⟨requestId, sentBy⟩ := sound.notices sent among
    exact mem_readers_of_sentBy stands genuine (target ▸ sentBy) request
  refine ⟨List.nodup_iff_count_le_one.mpr fun reader => ?_, from_reader⟩
  by_cases among : reader ∈ offer.readers rank
  · obtain ⟨inside, _⟩ := List.mem_filter.mp among
    obtain ⟨nonneg, below⟩ := Int.mem_range_iff.mp inside
    lift reader to Nat using nonneg
    have due := Fleet.run_dues_le run stands genuine (offer.reader reader) rank
    have asked := once reader (by exact_mod_cast below)
    have counted : ((fleet.about (offer.holder rank) offer.requestId).map
        fun sent => (sent.1.rank : Int)).count (reader : Int) ≤
          fleet.notices.countP (offer.tells (offer.reader reader) rank) := by
      rw [List.count, List.countP_map, Fleet.about, List.countP_filter]
      refine List.countP_mono_left fun sent member same => ?_
      simp only [Function.comp_apply, Bool.and_eq_true, beq_iff_eq, Nat.cast_inj,
        decide_eq_true_eq] at same
      have found : sent ∈ fleet.about (offer.holder rank) offer.requestId :=
        List.mem_filter.mpr ⟨member, decide_eq_true same.2⟩
      have sender := (from_reader sent found).1
      rw [same.1] at sender
      exact decide_eq_true ⟨sender, same.2⟩
    rw [dues] at due
    omega
  · rw [List.count_eq_zero.mpr]
    · exact Nat.zero_le _
    · intro member
      obtain ⟨sent, found, rfl⟩ := List.mem_map.mp member
      exact among (from_reader sent found).2.1

/-- A rank of the producer that reports a request sent, and did not give it up, was notified by
every consumer rank that reads it, once by each.  Nobody reads its blocks then or later: no
read of them is running, and no reader has one left to start. -/
theorem released_blocks_unread (run : Run (Fleet.Next elementSize setups) {} events fleet)
    (stands : offer.Stands setups) (genuine : offer.Genuine (events.flatMap Fleet.Event.asks))
    (once : ∀ reader < offer.consumerTpSize,
      offer.numAsks (offer.reader reader) (events.flatMap Fleet.Event.asks) ≤ 1)
    {report : KVConnectorOutput} (reported : (offer.holder rank, report) ∈ fleet.reports)
    (released : offer.requestId ∈ report.finishedSending)
    (unexpired : offer.requestId ∉ report.expiredSending) :
    (∀ read ∈ fleet.reads, read.target = offer.holder rank →
      read.notice.requestId = offer.requestId → read.status = .done ∨ read.status = .spent) ∧
    ∀ reader : Nat, (reader : Int) ∈ offer.readers rank →
      fleet.notices.countP (offer.tells (offer.reader reader) rank) = 1 ∧
        offer.owes rank (fleet.workers (offer.reader reader)) = 0 := by
  let heard := fleet.about (offer.holder rank) offer.requestId
  obtain ⟨distinct, from_reader⟩ : (heard.map fun sent => (sent.1.rank : Int)).Nodup ∧
      ∀ sent ∈ heard, sent.1 = offer.reader sent.1.rank ∧
        (sent.1.rank : Int) ∈ offer.readers rank ∧
          sent.2.2.readers = (offer.readers rank).length :=
    nodup_senders run stands genuine once
  have enough : (offer.readers rank).length ≤ heard.length := by
    have ledger := Fleet.run_ledger run (offer.holder rank) offer.requestId
    obtain ⟨readers, ⟨sent, member, rfl⟩, enough⟩ :=
      (ledger.reported report reported released).resolve_left unexpired
    rw [← (from_reader sent member).2.2]
    exact enough
  -- as many senders as readers, all different and all readers, are all the readers
  have all : (heard.map fun sent => (sent.1.rank : Int)).Perm (offer.readers rank) := by
    refine (distinct.subperm fun reader member => ?_).perm_of_length_le (by simpa using enough)
    obtain ⟨sent, found, rfl⟩ := List.mem_map.mp member
    exact (from_reader sent found).2.1
  have settled : ∀ reader : Nat, (reader : Int) ∈ offer.readers rank →
      fleet.notices.countP (offer.tells (offer.reader reader) rank) = 1 ∧
        offer.owes rank (fleet.workers (offer.reader reader)) = 0 ∧
        fleet.reads.countP (offer.carries (offer.reader reader) rank) = 0 := by
    intro reader member
    obtain ⟨sent, found, same⟩ := List.mem_map.mp (all.mem_iff.mpr member)
    obtain ⟨among, about⟩ := List.mem_filter.mp found
    have told : 0 < fleet.notices.countP (offer.tells (offer.reader reader) rank) := by
      refine List.countP_pos_iff.mpr ⟨sent, among, decide_eq_true ⟨?_, of_decide_eq_true about⟩⟩
      rw [(from_reader sent found).1, Nat.cast_inj.mp same]
    have due := Fleet.run_dues_le run stands genuine (offer.reader reader) rank
    have below := (Int.mem_range_iff.mp (List.mem_filter.mp member).1).2
    have asked := once reader (by exact_mod_cast below)
    rw [dues] at due
    omega
  refine ⟨fun read member target request => ?_, fun reader member =>
    ⟨(settled reader member).1, (settled reader member).2.1⟩⟩
  obtain ⟨selfEq, isReader, _⟩ := mem_readers_of_sentBy stands genuine
    (target ▸ (Fleet.run_sound run).reads read member) request
  have none := List.countP_eq_zero.mp (settled read.reader.rank isReader).2.2 read member
  rw [← selfEq] at none
  cases status : read.status with
  | running => exact absurd (decide_eq_true ⟨rfl, target, request, Or.inl status⟩) none
  | broken => exact absurd (decide_eq_true ⟨rfl, target, request, Or.inr status⟩) none
  | done => exact Or.inl rfl
  | spent => exact Or.inr rfl

end Offer

end LeanVllm
