import LeanVllm.Engine.Records

/-!
# Token counts

`advance` counts tokens before their values are known and `reconcile` gives
rejected ones back.  At every step boundary the counters of a running sequence
still agree with its committed tokens and with the rows in flight.
-/

namespace LeanVllm

open Collections

namespace Sequence

theorem fresh_bounded (tokenIds : List Token) (params : SamplingParams) (requestId : RequestId)
    (arrivalTime : Nat) (hashes : List Hash) :
    (fresh tokenIds params requestId arrivalTime hashes).Bounded := by
  simp [Bounded, numPlannedTokens, numTokens, fresh]

end Sequence

namespace LLMEngine

variable {cfg : Config} {engine : LLMEngine} {flight : Flight}

theorem Acts.bounded {action : Action} {next : LLMEngine} {flight' : Flight}
    (acts : Acts cfg engine flight action next flight') (inv : engine.Inv cfg flight)
    (bounded : ∀ i, (engine.scheduler.heap i).Bounded) (i : SeqId) :
    (next.scheduler.heap i).Bounded := by
  by_cases new : i = engine.scheduler.counter
  · cases acts with
    | step answers steps => exact (steps.evolves inv.scheduler i).bounded (bounded i)
    | abort aborts => exact (aborts.evolves i).bounded (bounded i)
    | add adds =>
        cases adds with
        | refuse fault => exact bounded i
        | duplicate requestId hashes valid known =>
            rw [new]
            show ((engine.scheduler.setSeq _ _).heap _).Bounded
            rw [Scheduler.setSeq_heap_self]
            exact Sequence.fresh_bounded _ _ _ _ _
        | accept requestId hashes valid isQueued fresh =>
            rw [new]
            show ((engine.scheduler.setSeq _ _).heap _).Bounded
            rw [Scheduler.setSeq_heap_self]
            exact Sequence.fresh_bounded _ _ _ _ _
  · exact (acts.evolves inv new).bounded (bounded i)

/-- No `Sequence` object of a reachable engine plans more than its limit. -/
theorem Reachable.bounded (reachable : Reachable cfg engine) (i : SeqId) :
    (engine.scheduler.heap i).Bounded := by
  obtain ⟨actions, run⟩ := reachable
  obtain ⟨_, _, bounded⟩ := Run.invariant (fun _ => True)
    (fun _ engine _ => ∀ i, (engine.scheduler.heap i).Bounded) (fun _ => Nat.le_refl 0)
    (fun _ _ _ _ _ _ inv held _ acts _ i => acts.bounded inv held i) run fun _ _ => trivial
  exact bounded i

/-- The pending tokens of a running sequence are on the device. -/
theorem Inv.pending_launched (inv : engine.Inv cfg flight) {i : SeqId}
    (running : i ∈ engine.scheduler.running)
    (pending : (engine.scheduler.heap i).numPendingTokens ≠ 0) :
    i ∈ engine.runner.prevRows := by
  have isActive := (inv.scheduler.running running).2.2.2
  rw [isActive.pending] at pending
  obtain ⟨row, among, own, _⟩ := exists_row_of_due_ne_zero pending
  obtain ⟨launched, member, rfl⟩ := List.mem_map.mp among
  have device := (inv.carried.resolve_left fun none =>
    List.not_mem_nil (none.2 ▸ member)).2
  rw [device]
  exact List.mem_map.mpr ⟨launched, member, own⟩

/-- At every step boundary the counters agree with the committed tokens and the
rows in flight, and no later step runs into an assertion about them. -/
theorem token_counts_agree (cfg : Config) (engine : LLMEngine)
    (reachable : Reachable cfg engine) :
    (∀ i ∈ engine.scheduler.running, (engine.scheduler.heap i).isPrefill = false →
      (engine.scheduler.heap i).numCachedTokens + 1 =
        (engine.scheduler.heap i).numPlannedTokens) ∧
    (∀ i, i ∈ engine.scheduler.running ∨ i ∈ engine.scheduler.recving.values →
      (engine.scheduler.heap i).isPrefill = true →
      (engine.scheduler.heap i).numPendingTokens = 0 ∧
        (engine.scheduler.heap i).numCachedTokens < (engine.scheduler.heap i).numTokens) ∧
    (∀ i ∈ engine.scheduler.running, (engine.scheduler.heap i).numPendingTokens =
      due engine.rows i (engine.scheduler.heap i).numPreemptions) ∧
    (∀ i, (engine.scheduler.heap i).numPlannedTokens -
      (engine.scheduler.heap i).numPromptTokens ≤ (engine.scheduler.heap i).maxTokens) ∧
    (∀ i ∈ engine.scheduler.running, (engine.scheduler.heap i).numPendingTokens ≠ 0 →
      i ∈ engine.runner.prevRows) ∧
    ∀ env : StepEnv, env.Valid cfg engine → ∃ result, engine.step cfg env = .ok result := by
  obtain ⟨flight, inv⟩ := reachable.inv
  have roster := inv.scheduler.toRoster
  refine ⟨?_, ?_, ?_, ?_, fun i => inv.pending_launched, ?_⟩
  · intro i running decoding
    exact ((roster.running running).2.2.2.decoding decoding).1
  · rintro i (running | loading) prefill
    · obtain ⟨settled, _, short, _⟩ := (roster.running running).2.2.2.prefilling prefill
      exact ⟨settled, short⟩
    · obtain ⟨requestId, found⟩ := Dict.mem_values_iff.mp loading
      rcases (roster.recving found).2 with plays | plays
      · exact ⟨plays.2.2.2.2.1.settled, plays.2.2.2.2.1.cached_lt⟩
      · exact ⟨plays.2.2.2.2.settled, plays.2.2.2.2.cached_lt⟩
  · intro i running
    rw [inv.rows_eq]
    exact (roster.running running).2.2.2.pending
  · intro i
    have bounded := reachable.bounded i
    simp only [Sequence.Bounded] at bounded
    omega
  · intro env valid
    obtain ⟨launch, last, stepped, stepEq, _⟩ := step_spec inv valid
    exact ⟨_, stepEq⟩

/-- The sample engine with its first token in flight. -/
theorem token_counts_agree_sample :
    sampleRunning.scheduler.running = [0] ∧
    ∀ i ∈ sampleRunning.scheduler.running, (sampleRunning.scheduler.heap i).numPendingTokens =
      due sampleRunning.rows i (sampleRunning.scheduler.heap i).numPreemptions :=
  ⟨by decide +kernel, (token_counts_agree .sample sampleRunning sampleRunning_reachable).2.2.1⟩

end LLMEngine

end LeanVllm
