import LeanVllm.Engine.Between

/-!
# Queues and statuses

Between two scheduler operations the live requests are exactly the waiting, the
running and the loading ones, each in one container and under the status that
belongs to it.
-/

namespace LeanVllm

open Collections

namespace Scheduler

/-- The loading sequences nobody aborted. -/
def loadingSeqs (s : Scheduler) : List SeqId :=
  s.recving.values.filter fun i => ¬ (s.heap i).isFinished

/-- The live map is the disjoint union of the queues and the loading sequences,
and a status says where its sequence stands. -/
structure Partitioned (s : Scheduler) : Prop where
  nodup : (s.waiting ++ s.running ++ s.loadingSeqs).Nodup
  live : s.seqs.values.Perm (s.waiting ++ s.running ++ s.loadingSeqs)
  keyed : ∀ requestId i, s.seqs.lookup requestId = some i → (s.heap i).requestId = requestId
  waiting : ∀ i ∈ s.waiting, (s.heap i).status = .waiting
  running : ∀ i ∈ s.running, (s.heap i).status = .running
  loading : ∀ i ∈ s.loadingSeqs, (s.heap i).status = .waitingForRemoteKvs
  finished : ∀ i, (s.heap i).isFinished = true → i ∉ s.waiting ∧ i ∉ s.running
  sending : ∀ requestId, requestId ∈ s.seqs → requestId ∉ s.sending

/-- Two schedulers agree on every queue, map and block. -/
def SameQueues (s s' : Scheduler) : Prop :=
  s'.waiting = s.waiting ∧ s'.running = s.running ∧ s'.seqs = s.seqs ∧
    s'.recving = s.recving ∧ s'.sending = s.sending ∧ s'.blockManager = s.blockManager

variable {cfg : Config} {s : Scheduler} {rows : List LaunchedRow} {i : SeqId}

theorem Roster.loadingSeqs_iff (roster : s.Roster cfg s.running rows) :
    i ∈ s.loadingSeqs ↔ s.Plays cfg s.running rows i .loading := by
  simp only [loadingSeqs, List.mem_filter, Dict.mem_values_iff]
  constructor
  · rintro ⟨⟨requestId, found⟩, unfinished⟩
    rcases (roster.recving found).2 with loading | cancelled
    · exact loading
    · simp [Sequence.isFinished, cancelled.2.2.2.1] at unfinished
  · intro plays
    exact ⟨⟨_, plays.2.2.1.2.1⟩, by simp [Sequence.isFinished, plays.2.2.2.1]⟩

theorem Roster.mem_seqs_iff (roster : s.Roster cfg s.running rows) :
    i ∈ s.seqs.values ↔ i ∈ s.waiting ++ s.running ++ s.loadingSeqs := by
  rw [List.mem_append, List.mem_append, roster.loadingSeqs_iff, Dict.mem_values_iff]
  constructor
  · rintro ⟨requestId, found⟩
    rcases (roster.live found).2 with queued | active | loading
    · exact Or.inl (Or.inl queued.1)
    · exact Or.inl (Or.inr active.2.1)
    · exact Or.inr loading
  · rintro ((queued | active) | loading)
    · exact ⟨_, (roster.queued queued).2.2.1.1⟩
    · exact ⟨_, (roster.running active).2.2.1.1⟩
    · exact ⟨_, loading.2.2.1.1⟩

theorem Roster.seqs_nodup (roster : s.Roster cfg s.running rows) : s.seqs.values.Nodup :=
  Dict.values_nodup (fun i => (s.heap i).requestId) fun requestId i found =>
    roster.keyed requestId i (Or.inl found)

theorem Roster.partitioned (roster : s.Roster cfg s.running rows) : s.Partitioned := by
  have recvingNodup : s.recving.values.Nodup :=
    Dict.values_nodup (fun i => (s.heap i).requestId) fun requestId i found =>
      roster.keyed requestId i (Or.inr (Or.inl found))
  have nodup : (s.waiting ++ s.running ++ s.loadingSeqs).Nodup := by
    rw [List.nodup_append', List.nodup_append']
    refine ⟨⟨roster.waiting_nodup, roster.active_nodup, ?_⟩, recvingNodup.filter _, ?_⟩
    · intro i queued running
      exact (roster.queued queued).2.1 running
    · intro i active loading
      have plays := roster.loadingSeqs_iff.mp loading
      rcases List.mem_append.mp active with queued | running
      · exact plays.1 queued
      · exact plays.2.1 running
  refine
    { nodup := nodup
      live := (List.perm_ext_iff_of_nodup roster.seqs_nodup nodup).mpr fun i => roster.mem_seqs_iff
      keyed := fun requestId i found => roster.keyed requestId i (Or.inl found)
      waiting := fun i queued => (roster.queued queued).2.2.2.1.status
      running := fun i running => (roster.running running).2.2.2.status
      loading := fun i loading => (roster.loadingSeqs_iff.mp loading).2.2.2.1
      finished := ?_
      sending := ?_ }
  · intro i finished
    constructor
    · intro queued
      simp [Sequence.isFinished, (roster.queued queued).2.2.2.1.status] at finished
    · intro running
      simp [Sequence.isFinished, (roster.running running).2.2.2.status] at finished
  · intro requestId live held
    obtain ⟨i, found⟩ := Option.isSome_iff_exists.mp (AList.lookup_isSome.mpr held)
    obtain ⟨rfl, _, _, ⟨absent, _⟩, _⟩ := roster.sending found
    exact AList.lookup_eq_none.mp absent live

end Scheduler

/-- Between two scheduler operations the queues partition the live requests; no
removal from a queue or a map fails in an abort or in a step; and a refused
duplicate changes no queue. -/
theorem queues_partition_live (cfg : Config) :
    (∀ s, Between cfg s → s.Partitioned) ∧
    ∀ engine, LLMEngine.Reachable cfg engine →
      (∀ requestId reason, ∃ result, engine.abortRequest cfg requestId reason = .ok result) ∧
      (∀ env : StepEnv, env.Valid cfg engine → ∃ result, engine.step cfg env = .ok result) ∧
      ∀ prompt params requestId arrivalTime next duplicate,
        engine.addRequest cfg prompt params requestId arrivalTime =
          (next, .error (.duplicateRequestId duplicate)) →
        engine.scheduler.SameQueues next.scheduler := by
  refine ⟨?_, ?_⟩
  · intro s between
    obtain ⟨rows, inv⟩ := between.inv
    exact inv.partitioned
  · intro engine reachable
    obtain ⟨flight, inv⟩ := reachable.inv
    refine ⟨?_, ?_, ?_⟩
    · intro requestId reason
      obtain ⟨next, aborted, ended, _⟩ := LLMEngine.abortRequest_spec inv requestId reason
      exact ⟨_, ended⟩
    · intro env valid
      obtain ⟨launch, last, stepped, stepEq, _⟩ := LLMEngine.step_spec inv valid
      exact ⟨_, stepEq⟩
    · intro prompt params requestId arrivalTime next duplicate refused
      have adds := LLMEngine.addRequest_spec cfg engine prompt params requestId arrivalTime
      rw [refused] at adds
      cases adds with
      | refuse fault => exact ⟨rfl, rfl, rfl, rfl, rfl, rfl⟩
      | duplicate requestId hashes valid known => exact ⟨rfl, rfl, rfl, rfl, rfl, rfl⟩

end LeanVllm
