import LeanVllm.KvTransfer.Releases

/-!
# Reports of loads

A load is queued, then under way, then about to be reported, then reported.  It is never in
two of these places, and never lost between them.  When it is reported none of its reads is
running, and a load that is reported finished had every share of its plan read.
-/

namespace LeanVllm

open Collections Transition

namespace NixlConnectorWorker

variable {requestId other : RequestId} {before after : NixlConnectorWorker} {load : NixlLoad}

/-- A report shows that a load ended. -/
def ends (requestId : RequestId) (report : KVConnectorOutput) : Bool :=
  requestId ∈ report.finishedRecving ∨ requestId ∈ report.failedRecving

/-- How often a worker has a load: queued, under way, and about to be reported. -/
def loadStock (requestId : RequestId) (worker : NixlConnectorWorker) : Nat :=
  (worker.queue.countP fun item => item.1 = requestId) +
    ((if requestId ∈ worker.loads then 1 else 0) + if ends requestId worker.finished then 1 else 0)

theorem mem_loads_of_lookup (found : before.loads.lookup requestId = some load) :
    requestId ∈ before.loads :=
  AList.lookup_isSome.mp (Option.isSome_iff_exists.mpr ⟨load, found⟩)

/-- A load that is only written again. -/
theorem loadStock_of_insert {value : NixlLoad} (found : before.loads.lookup other = some load)
    (queue : after.queue = before.queue) (loads : after.loads = before.loads.insert other value)
    (finished : after.finished = before.finished) :
    after.loadStock requestId = before.loadStock requestId := by
  have same : requestId ∈ before.loads.insert other value ↔ requestId ∈ before.loads := by
    rw [AList.mem_insert]
    constructor
    · rintro (rfl | old)
      · exact mem_loads_of_lookup found
      · exact old
    · exact Or.inr
  simp only [loadStock, queue, loads, finished, same]

/-- A load that leaves the queue is under way. -/
theorem loadStock_of_cons {value : NixlLoad} {req : ReqToRecv}
    {rest : List (RequestId × ReqToRecv)} (queued : before.queue = (other, req) :: rest)
    (queue : after.queue = rest) (loads : after.loads = before.loads.insert other value)
    (finished : after.finished = before.finished) :
    Grows 0 (before.loadStock requestId) (after.loadStock requestId) := by
  by_cases same : other = requestId
  · subst same
    have was : before.loadStock other = (rest.countP fun item => item.1 = other) + 1 +
        ((if other ∈ before.loads then 1 else 0) + if ends other before.finished then 1 else 0) := by
      simp [loadStock, queued]
    have is : after.loadStock other = (rest.countP fun item => item.1 = other) +
        (1 + if ends other before.finished then 1 else 0) := by
      simp [loadStock, queue, loads, finished]
    exact .of_moved (by omega) (by omega)
  · refine .of_eq ?_
    simp [loadStock, queued, queue, loads, finished, same, Ne.symm same]

theorem ends_landed (finished : KVConnectorOutput) (load : NixlLoad) (now : Rat) :
    ends requestId (landed finished other load now) =
      (decide (requestId = other) || ends requestId finished) := by
  unfold landed
  split
  · simp only [ends, List.mem_insert_iff]
    grind
  · simp only [ends, List.mem_insert_iff]
    grind

/-- A turn loses no load and makes none up. -/
theorem TransferTurn.loads_grow {elementSize : String → Nat} {setups : WorkerId → RankSetup}
    {self : WorkerId} {handle : Nat} {seen : Nat → XferState} {calls : List AgentCall}
    (turn : TransferTurn elementSize setups self handle seen before other after calls) :
    Grows 0 (before.loadStock requestId) (after.loadStock requestId) := by
  cases turn with
  | starts idle queued plan => exact loadStock_of_cons queued rfl rfl rfl
  | stillborn idle queued plan notifies => exact loadStock_of_cons queued rfl rfl rfl
  | ends starting => exact .refl _
  | shares starting found learns known share =>
      exact .of_eq (loadStock_of_insert found learns.queue rfl learns.finished)
  | stops starting found learns known share notifies =>
      exact .of_eq (loadStock_of_insert found learns.queue rfl learns.finished)
  | waits idle found polls pending => exact .of_eq (loadStock_of_insert found rfl rfl rfl)
  | lands idle found polls none =>
      by_cases same : requestId = other
      · subst same
        have under := mem_loads_of_lookup found
        have was : before.loadStock requestId =
            (before.queue.countP fun item => item.1 = requestId) +
              (1 + if NixlConnectorWorker.ends requestId before.finished then 1 else 0) := by
          simp [loadStock, under]
        have ended : (before.queue.countP fun item => item.1 = requestId) + 1 ≤
            before.loadStock requestId := by omega
        refine .of_moved ?_ ?_
        · simpa [loadStock, AList.mem_erase, ends_landed] using ended
        · simp [loadStock, AList.mem_erase, ends_landed]
      · refine .of_eq ?_
        simp [loadStock, AList.mem_erase, ends_landed, same]

theorem loadStock_of_serves (serves : Serves before after) :
    after.loadStock requestId = before.loadStock requestId := by
  rw [loadStock, loadStock, ends, ends, serves.queue, serves.loads, serves.finishedRecving,
    serves.failedRecving]

end NixlConnectorWorker

namespace Fleet

open NixlConnectorWorker

variable {elementSize : String → Nat} {setups : WorkerId → RankSetup}
  {before after fleet : Fleet} {event : Event} {self other : WorkerId} {requestId : RequestId}

/-- How often an event asks a worker for a load. -/
def Event.asksFor (self : WorkerId) (requestId : RequestId) (event : Event) : Nat :=
  event.asks.countP fun ask => ask.1 = self ∧ ask.2.1 = requestId

theorem Effect.loads_grow (effect : Effect elementSize setups before after event) :
    Grows (event.asksFor self requestId)
      (before.accounted self (loadStock requestId) (ends requestId))
      (after.accounted self (loadStock requestId) (ends requestId)) := by
  cases effect with
  | @queues worker metadata deadline queued =>
      subst queued
      refine grows_of_update rfl rfl (fun same => ?_) fun different => ?_
      · subst same
        rw [loadStock_of_serves (startLoadKv_serves _ metadata deadline)]
        refine .of_eq ?_
        have asked : (Event.startLoadKv worker metadata deadline).asksFor worker requestId =
            (metadata.reqsToRecv.entries.map fun item => (item.1, item.2)).countP
              fun item => item.1 = requestId := by
          rw [Event.asksFor, Event.asks, List.countP_map, List.countP_map]
          refine List.countP_congr fun item _ => ?_
          simp
        rw [asked]
        simp only [loadStock, List.countP_append]
        omega
      · refine List.countP_eq_zero.mpr fun ask member => ?_
        obtain ⟨_, _, rfl⟩ := List.mem_map.mp member
        simp [different]
  | @reports worker now timeout reported =>
      subst reported
      obtain ⟨served, serves, reportedEq⟩ := getFinished_serves (before.workers worker) now timeout
      rw [reportedEq]
      refine grows_of_report fun same => ?_
      subst same
      rw [← loadStock_of_serves serves]
      refine .of_eq ?_
      simp [loadStock, ends]
      omega
  | @turns _ worker load seen next called silent honest turn turned =>
      have none : event.asksFor self requestId = 0 := by
        rw [Event.asksFor, silent.1]
        rfl
      rw [none]
      exact grows_of_update turned.workers turned.reports (fun same => same ▸ turn.loads_grow)
        fun _ => rfl
  | @takes worker sender index now notice found taken =>
      subst taken
      refine grows_of_update rfl rfl (fun same => ?_) fun _ => rfl
      subst same
      exact .of_eq (loadStock_of_serves (takeNotification_serves _ notice now))
  | @delivers _ handle read status silent found moves delivered =>
      subst delivered
      have none : event.asksFor self requestId = 0 := by
        rw [Event.asksFor, silent.1]
        rfl
      rw [none]
      exact .refl _
  | @breaks handle read found running broken =>
      subst broken
      exact .refl _

theorem run_loads_grow {events : List Event} (run : Run (Next elementSize setups) {} events fleet)
    (self : WorkerId) (requestId : RequestId) :
    Grows ((events.flatMap Event.asks).countP fun ask => ask.1 = self ∧ ask.2.1 = requestId) 0
      (fleet.accounted self (loadStock requestId) (ends requestId)) := by
  have grows := run.grows (accounted self (loadStock requestId) (ends requestId))
    (Event.asksFor self requestId) fun _ _ _ _ earlier step =>
      (step.effect fun worker => ((run_sound earlier).minded worker).known).loads_grow
  have brought : (events.map (Event.asksFor self requestId)).sum =
      (events.flatMap Event.asks).countP fun ask => ask.1 = self ∧ ask.2.1 = requestId :=
    List.countP_flatMap.symm
  rw [← brought]
  exact grows

end Fleet

end LeanVllm
