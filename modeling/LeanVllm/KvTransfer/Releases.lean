import LeanVllm.KvTransfer.NixlRuns
import LeanVllm.Transition.Accounts

/-!
# Releases of handed-over requests

A request that is handed over is held, then about to be reported, then reported.  It is
never in two of these places, and never lost between them.
-/

namespace LeanVllm

open Collections Transition

namespace NixlConnectorWorker

variable {requestId : RequestId} {num : Nat} {before after : NixlConnectorWorker}

/-- How often a worker has a request that was handed over: held, and about to be reported. -/
def stock (requestId : RequestId) (worker : NixlConnectorWorker) : Nat :=
  (if requestId ∈ worker.reqsToSend then 1 else 0) +
    if requestId ∈ worker.finished.finishedSending then 1 else 0

/-- A worker that was given a request so often. -/
abbrev Gains (requestId : RequestId) (num : Nat) (before after : NixlConnectorWorker) : Prop :=
  Grows num (before.stock requestId) (after.stock requestId)

theorem gains_of_same (reqsToSend : requestId ∈ after.reqsToSend ↔ requestId ∈ before.reqsToSend)
    (finished : requestId ∈ after.finished.finishedSending ↔
      requestId ∈ before.finished.finishedSending) : Gains requestId 0 before after :=
  .of_eq (by simp only [stock, reqsToSend, finished, Nat.add_zero])

/-- A release moves a request that is held. -/
theorem release_gains (worker : NixlConnectorWorker) (other : RequestId) :
    Gains requestId 0 worker (worker.release other) := by
  unfold release
  split
  · rename_i held
    by_cases same : requestId = other
    · subst same
      have had : 1 ≤ worker.stock requestId := by
        rw [stock, if_pos held]
        exact Nat.le_add_right _ _
      refine .of_moved ?_ ?_
      · simpa [stock, AList.mem_erase] using had
      · simp [stock, AList.mem_erase]
    · refine gains_of_same ?_ ?_
      · rw [AList.mem_erase]
        exact and_iff_right same
      · rw [List.mem_insert_iff]
        exact or_iff_right same
  · exact .refl _

theorem releaseIfRead_gains (worker : NixlConnectorWorker) (other : RequestId) :
    Gains requestId 0 worker (worker.releaseIfRead other) := by
  unfold releaseIfRead
  split
  · exact .refl _
  · split
    · exact release_gains worker other
    · exact .refl _

theorem expose_gains (worker : NixlConnectorWorker) (deadline : Rat) (other : RequestId) :
    Gains requestId (if other = requestId then 1 else 0) worker (expose deadline worker other) := by
  have exposed : Gains requestId (if other = requestId then 1 else 0) worker
      { worker with reqsToSend := worker.reqsToSend.insert other deadline } := by
    split
    · rename_i same
      subst same
      have exposedEq : stock other
          { worker with reqsToSend := worker.reqsToSend.insert other deadline } =
            1 + if other ∈ worker.finished.finishedSending then 1 else 0 := by
        simp [stock]
      have had : worker.stock other = (if other ∈ worker.reqsToSend then 1 else 0) +
          if other ∈ worker.finished.finishedSending then 1 else 0 := rfl
      refine ⟨by omega, fun few => ?_⟩
      split at had <;> omega
    · rename_i different
      refine gains_of_same ?_ Iff.rfl
      rw [AList.mem_insert]
      exact or_iff_right (Ne.symm different)
  exact exposed.trans (releaseIfRead_gains _ other)

theorem startLoadKv_gains (worker : NixlConnectorWorker) (metadata : KVConnectorMetadata)
    (deadline : Rat) :
    Gains requestId (metadata.reqsToSend.keys.count requestId) worker
      (worker.startLoadKv metadata deadline) := by
  have exposed : ∀ (others : List RequestId) (worker : NixlConnectorWorker),
      Gains requestId (others.count requestId) worker (others.foldl (expose deadline) worker) := by
    intro others
    induction others with
    | nil => exact fun worker => .refl _
    | cons other rest ih =>
        intro worker
        rw [List.count_cons, Nat.add_comm]
        simp only [beq_iff_eq]
        exact (expose_gains worker deadline other).trans (ih _)
  exact exposed metadata.reqsToSend.keys worker

theorem gains_of_foldl {α : Type} {step : NixlConnectorWorker → α → NixlConnectorWorker}
    (each : ∀ worker item, Gains requestId 0 worker (step worker item)) (items : List α)
    (worker : NixlConnectorWorker) : Gains requestId 0 worker (items.foldl step worker) := by
  induction items generalizing worker with
  | nil => exact .refl _
  | cons item rest ih => exact (each worker item).trans (ih _)

/-- What is about to be reported is reported, and then no longer had. -/
theorem getFinished_gains (worker : NixlConnectorWorker) (now timeout : Rat) :
    Grows 0 (worker.stock requestId)
      ((if requestId ∈ (worker.getFinished now timeout).2.finishedSending then 1 else 0) +
        (worker.getFinished now timeout).1.stock requestId) := by
  let overdue := worker.reqsToSend.entries.filter fun item => item.2 < now
  let expired := (overdue.map Sigma.fst).foldl expire worker
  have gaveUp : Gains requestId 0 worker expired := by
    refine gains_of_foldl (fun worker other => ?_) _ worker
    exact release_gains worker other
  have forgot : Gains requestId 0 expired
      (expired.notified.entries.foldl (forgetNotified now timeout) expired) := by
    refine gains_of_foldl (fun worker item => ?_) _ expired
    unfold forgetNotified
    split <;> exact .refl _
  have none : requestId ∉ (worker.getFinished now timeout).1.finished.finishedSending :=
    List.not_mem_nil
  rw [stock.eq_def requestId (worker.getFinished now timeout).1, if_neg none, Nat.add_zero,
    Nat.add_comm]
  exact gaveUp.trans forgot

theorem takeNotification_gains (worker : NixlConnectorWorker) (notice : Notice) (now : Rat) :
    Gains requestId 0 worker (worker.takeNotification notice now) := by
  have released : ∀ counted : NixlConnectorWorker,
      counted.stock requestId = worker.stock requestId →
        Gains requestId 0 worker (counted.releaseIfRead notice.requestId) := by
    intro counted same
    rw [Gains, ← same]
    exact releaseIfRead_gains counted _
  exact released _ rfl

/-- A turn of the transfer thread hands nothing over and reports nothing sent. -/
theorem TransferTurn.gains {elementSize : String → Nat} {setups : WorkerId → RankSetup}
    {self : WorkerId} {handle : Nat} {seen : Nat → XferState} {load : RequestId}
    {calls : List AgentCall}
    (turn : TransferTurn elementSize setups self handle seen before load after calls) :
    Gains requestId 0 before after := by
  cases turn with
  | starts | stillborn | ends | waits => exact .refl _
  | shares starting found learns known share | stops starting found learns known share notifies =>
      refine gains_of_same ?_ ?_
      · simp only [learns.reqsToSend]
      · simp only [learns.finished]
  | lands =>
      refine gains_of_same Iff.rfl ?_
      simp only [landed]
      split <;> exact Iff.rfl

end NixlConnectorWorker

namespace Fleet

open NixlConnectorWorker

variable {elementSize : String → Nat} {setups : WorkerId → RankSetup}
  {before after fleet : Fleet} {event : Event} {self other : WorkerId} {requestId : RequestId}
  {stock : NixlConnectorWorker → Nat} {shows : KVConnectorOutput → Bool}

/-- What a worker has, and what its reports showed. -/
def accounted (self : WorkerId) (stock : NixlConnectorWorker → Nat)
    (shows : KVConnectorOutput → Bool) (fleet : Fleet) : Nat :=
  (fleet.reports.countP fun report => report.1 = self ∧ shows report.2) +
    stock (fleet.workers self)

/-- A worker that changed with no report. -/
theorem grows_of_update {worker : NixlConnectorWorker} {num : Nat}
    (workers : after.workers = Function.update before.workers other worker)
    (reports : after.reports = before.reports)
    (gains : other = self → Grows num (stock (before.workers self)) (stock worker))
    (others : other ≠ self → num = 0) :
    Grows num (before.accounted self stock shows) (after.accounted self stock shows) := by
  rw [accounted, accounted, reports, workers]
  refine Grows.add_left _ ?_
  by_cases same : other = self
  · have gained := gains same
    subst same
    rwa [Function.update_self]
  · obtain rfl := others same
    rw [Function.update_of_ne (Ne.symm same)]
    exact .refl _

/-- A worker that reported. -/
theorem grows_of_report {worker : NixlConnectorWorker} {report : KVConnectorOutput}
    (gains : other = self → Grows 0 (stock (before.workers self))
      ((if shows report then 1 else 0) + stock worker)) :
    Grows 0 (before.accounted self stock shows)
      (accounted self stock shows { before.setWorker other worker with
        reports := before.reports ++ [(other, report)] }) := by
  simp only [accounted, List.countP_append, List.countP_singleton, decide_eq_true_eq,
    setWorker_workers]
  rw [Nat.add_assoc]
  refine Grows.add_left _ ?_
  by_cases same : other = self
  · have gained := gains same
    subst same
    simpa only [true_and, Function.update_self] using gained
  · rw [if_neg fun both => same both.1, Function.update_of_ne (Ne.symm same), Nat.zero_add]
    exact .refl _

/-- What a worker has of a request that was handed over, and the reports that it was sent. -/
abbrev accountedSends (self : WorkerId) (requestId : RequestId) : Fleet → Nat :=
  accounted self (NixlConnectorWorker.stock requestId) fun report =>
    requestId ∈ report.finishedSending

theorem Effect.grows (effect : Effect elementSize setups before after event) :
    Grows (event.handOvers.count (self, requestId)) (before.accountedSends self requestId)
      (after.accountedSends self requestId) := by
  cases effect with
  | @queues worker metadata deadline queued =>
      subst queued
      have counted : (Event.startLoadKv worker metadata deadline).handOvers.count
          (self, requestId) =
            if worker = self then metadata.reqsToSend.keys.count requestId else 0 := by
        rw [Event.handOvers]
        split
        · rename_i same
          subst same
          exact List.count_map_of_injective _ _ (fun _ _ same => (Prod.mk.inj same).2) _
        · rename_i different
          refine List.count_eq_zero.mpr fun member => ?_
          obtain ⟨_, _, same⟩ := List.mem_map.mp member
          exact different (Prod.mk.inj same).1
      rw [counted]
      refine grows_of_update rfl rfl (fun same => ?_) fun different => if_neg different
      subst same
      rw [if_pos rfl]
      exact startLoadKv_gains _ metadata deadline
  | @reports worker now timeout reported =>
      subst reported
      refine grows_of_report fun same => ?_
      subst same
      simpa only [decide_eq_true_eq] using getFinished_gains (before.workers worker) now timeout
  | @turns _ worker load seen next called silent honest turn turned =>
      rw [silent.2]
      exact grows_of_update turned.workers turned.reports (fun same => same ▸ turn.gains)
        fun _ => rfl
  | @takes worker sender index now notice found taken =>
      subst taken
      exact grows_of_update rfl rfl (fun same => same ▸ takeNotification_gains _ notice now)
        fun _ => rfl
  | @delivers _ handle read status silent found moves delivered =>
      subst delivered
      rw [silent.2]
      exact .refl _
  | @breaks handle read found running broken =>
      subst broken
      exact .refl _

theorem run_sends_grow {events : List Event} (run : Run (Next elementSize setups) {} events fleet)
    (self : WorkerId) (requestId : RequestId) :
    Grows ((events.flatMap Event.handOvers).count (self, requestId)) 0
      (fleet.accountedSends self requestId) := by
  have grows := run.grows (accountedSends self requestId)
    (fun event => event.handOvers.count (self, requestId)) fun _ _ _ _ earlier step =>
      (step.effect fun worker => ((run_sound earlier).minded worker).known).grows
  have brought : (events.map fun event => event.handOvers.count (self, requestId)).sum =
      (events.flatMap Event.handOvers).count (self, requestId) := List.count_flatMap.symm
  rw [← brought]
  exact grows

/-- A producer rank reports a request sent no more often than it was handed over.  A request
that was handed over once is held, or about to be reported, or was reported: one of these. -/
theorem handed_over_accounted {events : List Event}
    (run : Run (Next elementSize setups) {} events fleet) (self : WorkerId)
    (requestId : RequestId) :
    (fleet.reports.countP fun report =>
        report.1 = self ∧ requestId ∈ report.2.finishedSending) ≤
      (events.flatMap Event.handOvers).count (self, requestId) ∧
    ((events.flatMap Event.handOvers).count (self, requestId) = 1 →
      (fleet.reports.countP fun report =>
          report.1 = self ∧ requestId ∈ report.2.finishedSending) +
        ((if requestId ∈ (fleet.workers self).reqsToSend then 1 else 0) +
          if requestId ∈ (fleet.workers self).finished.finishedSending then 1 else 0) = 1) := by
  have grows := run_sends_grow run self requestId
  have split : fleet.accountedSends self requestId =
      (fleet.reports.countP fun report =>
          report.1 = self ∧ requestId ∈ report.2.finishedSending) +
        ((if requestId ∈ (fleet.workers self).reqsToSend then 1 else 0) +
          if requestId ∈ (fleet.workers self).finished.finishedSending then 1 else 0) := by
    simp only [accountedSends, accounted, NixlConnectorWorker.stock, decide_eq_true_eq]
  have le := grows.le
  refine ⟨by omega, fun once => ?_⟩
  have eq := grows.eq (by omega)
  omega

theorem handed_over_accounted_sample :
    (sampleReported.reports.countP fun report =>
        report.1 = ⟨"p", 0⟩ ∧ "a" ∈ report.2.finishedSending) = 1 ∧
      "a" ∉ (sampleReported.workers ⟨"p", 0⟩).reqsToSend := by
  obtain ⟨_, accounted⟩ := handed_over_accounted sampleReported_run ⟨"p", 0⟩ "a"
  have reported : (sampleReported.reports.countP fun report =>
      report.1 = ⟨"p", 0⟩ ∧ "a" ∈ report.2.finishedSending) = 1 := by decide +kernel
  have once := accounted (by decide +kernel)
  refine ⟨reported, fun held => ?_⟩
  rw [reported, if_pos held] at once
  omega

end Fleet

end LeanVllm
