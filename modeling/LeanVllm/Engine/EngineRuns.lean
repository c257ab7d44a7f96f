import Mathlib.Logic.Equiv.List
import LeanVllm.Engine.Stepping
import LeanVllm.Transition.Runs

/-!
# Runs of the engine

Clients add and abort requests between steps, in any order.  Every engine such
a run reaches satisfies the invariant.
-/

namespace LeanVllm

open Collections

namespace Sequence

/-- The record of a new request. -/
def fresh (tokenIds : List Token) (params : SamplingParams) (requestId : RequestId)
    (arrivalTime : Nat) (hashes : List Hash) : Sequence where
  requestId := requestId
  status := .waiting
  tokenIds := tokenIds
  numPromptTokens := tokenIds.length
  numCachedTokens := 0
  numPendingTokens := 0
  numPublishedBlocks := 0
  numScheduledTokens := 0
  numNewTokens := 0
  specTokenIds := []
  isPrefill := true
  blockTable := []
  blockHashes := hashes
  maxTokens := params.maxTokens
  ignoreEos := params.ignoreEos
  stopTokenIds := params.stopTokenIds
  priority := params.priority
  kvTransferParams := params.kvTransferParams
  kvTransferResult := none
  finishReason := none
  numPreemptions := 0
  arrivalTime := arrivalTime

theorem create_eq (cfg : Config) {tokenIds : List Token} (nonempty : tokenIds ≠ [])
    (params : SamplingParams) (requestId : RequestId) (arrivalTime : Nat) :
    ∃ hashes, create cfg tokenIds params requestId arrivalTime =
        .ok (fresh tokenIds params requestId arrivalTime hashes) ∧
      (fresh tokenIds params requestId arrivalTime hashes).Queued cfg := by
  have unhashed : (fresh tokenIds params requestId arrivalTime []).blockHashes =
      if cfg.enablePrefixCaching then
        chainHashes cfg (fresh tokenIds params requestId arrivalTime []).tokenIds 0
      else [] := by
    simp [fresh, chainHashes]
  obtain ⟨hashes, extended, hashed⟩ := extendBlockHashes_eq _ unhashed (Nat.zero_le _)
  have positive : 0 < tokenIds.length := List.length_pos_of_ne_nil nonempty
  refine ⟨hashes, (if_neg nonempty).trans extended, ?_⟩
  exact
    { prompt_pos := positive
      prompt_le := Nat.le_refl _
      hashed := hashed
      status := rfl
      settled := rfl
      table := rfl
      prefill := rfl
      drafts := rfl
      unfinished := by
        simp only [numCompletionTokens, numTokens, fresh, Nat.sub_self]
        exact params.maxTokens_pos
      unloaded := fun _ _ => rfl }

end Sequence

namespace LLMEngine

variable {cfg : Config} {engine : LLMEngine} {env : StepEnv} {flight : Flight}

/-! ## Adding a request -/

/-- An accepted request leaves room for its tokens in the context. -/
theorem within_of_validateRequest {prompt : List Token} {params : SamplingParams}
    (valid : validateRequest cfg prompt params = .ok ()) :
    prompt.length + params.maxTokens ≤ cfg.maxModelLen := by
  by_contra beyond
  unfold validateRequest at valid
  rw [if_pos (Nat.lt_of_not_le beyond)] at valid
  split at valid
  · contradiction
  · split at valid
    · contradiction
    · split at valid <;> contradiction

/-- What `add_request` comes to: the request is refused as invalid, refused as
a duplicate, or queued. -/
inductive Adds (cfg : Config) (engine : LLMEngine) (prompt : List Token)
    (params : SamplingParams) (arrivalTime : Nat) : LLMEngine → Except Fault RequestId → Prop
  | refuse (fault : Fault) : Adds cfg engine prompt params arrivalTime engine (.error fault)
  | duplicate (requestId : RequestId) (hashes : List Hash)
      (valid : validateRequest cfg prompt params = .ok ())
      (known : requestId ∈ engine.scheduler.seqs ∨ requestId ∈ engine.scheduler.recving ∨
        requestId ∈ engine.scheduler.sending) :
      Adds cfg engine prompt params arrivalTime
        { engine with
          scheduler :=
            { engine.scheduler.setSeq engine.scheduler.counter
                (Sequence.fresh prompt params requestId arrivalTime hashes) with
              counter := engine.scheduler.counter + 1 } }
        (.error (.duplicateRequestId requestId))
  | accept (requestId : RequestId) (hashes : List Hash)
      (valid : validateRequest cfg prompt params = .ok ())
      (isQueued : (Sequence.fresh prompt params requestId arrivalTime hashes).Queued cfg)
      (fresh : engine.scheduler.seqs.lookup requestId = none ∧
        engine.scheduler.recving.lookup requestId = none ∧
        engine.scheduler.sending.lookup requestId = none) :
      Adds cfg engine prompt params arrivalTime
        { engine with
          scheduler := engine.scheduler.enqueue cfg
            (Sequence.fresh prompt params requestId arrivalTime hashes)
          metrics := engine.metrics.recordReceived }
        (.ok requestId)

theorem addRequest_spec (cfg : Config) (engine : LLMEngine) (prompt : List Token)
    (params : SamplingParams) (requestId : Option RequestId) (arrivalTime : Nat) :
    Adds cfg engine prompt params arrivalTime
      (engine.addRequest cfg prompt params requestId arrivalTime).1
      (engine.addRequest cfg prompt params requestId arrivalTime).2 := by
  unfold addRequest
  cases checked : validateRequest cfg prompt params with
  | error fault => exact .refuse fault
  | ok _ =>
      have nonempty : prompt ≠ [] := by
        rintro rfl
        simp [validateRequest] at checked
      let key := requestId.getD s!"req-{engine.scheduler.counter}"
      obtain ⟨hashes, created, isQueued⟩ :=
        Sequence.create_eq cfg nonempty params key arrivalTime
      simp only [key] at created
      simp only [created]
      let seq := Sequence.fresh prompt params key arrivalTime hashes
      have added : { engine.scheduler.setSeq engine.scheduler.counter seq with
            counter := engine.scheduler.counter + 1 }.add cfg engine.scheduler.counter =
          if key ∈ engine.scheduler.seqs ∨ key ∈ engine.scheduler.recving ∨
              key ∈ engine.scheduler.sending then .error (.duplicateRequestId key)
          else .ok (engine.scheduler.enqueue cfg seq) := by
        simp only [Scheduler.add, Scheduler.setSeq, Function.update_self]
        rfl
      simp only [seq, key] at added
      rw [added]
      split
      · rename_i fault refused
        split at refused
        · rename_i known
          cases refused
          exact .duplicate key hashes checked known
        · contradiction
      · rename_i s accepted
        split at accepted
        · contradiction
        · rename_i unknown
          cases accepted
          simp only [not_or, ← AList.lookup_eq_none] at unknown
          exact .accept key hashes checked isQueued unknown

theorem Adds.inv {prompt : List Token} {params : SamplingParams} {arrivalTime : Nat}
    {next : LLMEngine} {result : Except Fault RequestId}
    (adds : Adds cfg engine prompt params arrivalTime next result) (inv : engine.Inv cfg flight) :
    next.Inv cfg flight := by
  cases adds with
  | refuse fault => exact inv
  | duplicate requestId hashes valid known =>
      exact ⟨inv.scheduler.forget _, inv.wf, inv.carried⟩
  | accept requestId hashes valid isQueued fresh =>
      exact ⟨inv.scheduler.enqueue isQueued fresh, inv.wf, inv.carried⟩

/-! ## Aborting a request -/

/-- What `abort_request` comes to: nothing, if the request is not live; a mark,
if its blocks are still loading; and otherwise its end. -/
inductive Aborts (cfg : Config) (engine : LLMEngine) (flight : Flight) (requestId : RequestId)
    (reason : FinishReason) : LLMEngine → Bool → Prop
  | missing (absent : engine.scheduler.seqs.lookup requestId = none) :
      Aborts cfg engine flight requestId reason engine false
  | abort {i : SeqId} {after : Scheduler}
      (found : engine.scheduler.seqs.lookup requestId = some i)
      (ends : engine.scheduler.Plays cfg engine.scheduler.running flight.rows i .loading ∧
          after = engine.scheduler.cancel i
            { engine.scheduler.heap i with
              status := .finished
              finishReason := some reason } ∨
        (engine.scheduler.Plays cfg engine.scheduler.running flight.rows i .queued ∨
            engine.scheduler.Plays cfg engine.scheduler.running flight.rows i .active) ∧
          Scheduler.Ends cfg engine.scheduler i ((engine.scheduler.heap i).closed reason) after) :
      Aborts cfg engine flight requestId reason
        { engine with
          scheduler := after
          metrics := engine.metrics.recordAborted (dropped after i) } true

theorem abortRequest_spec (inv : engine.Inv cfg flight) (requestId : RequestId)
    (reason : FinishReason) :
    ∃ next aborted, engine.abortRequest cfg requestId reason = .ok (next, aborted) ∧
      Aborts cfg engine flight requestId reason next aborted := by
  rcases Scheduler.abort_spec inv.scheduler requestId reason with
    ⟨absent, unchanged⟩ | ⟨i, after, found, aborted, ends⟩
  · refine ⟨engine, false, ?_, .missing absent⟩
    simp [abortRequest, unchanged, bind, Except.bind]
  · refine ⟨_, true, ?_, .abort found ends⟩
    simp [abortRequest, aborted, found, bind, Except.bind]

theorem Aborts.inv {requestId : RequestId} {reason : FinishReason} {next : LLMEngine}
    {aborted : Bool} (aborts : Aborts cfg engine flight requestId reason next aborted)
    (inv : engine.Inv cfg flight) : next.Inv cfg flight := by
  cases aborts with
  | missing absent => exact inv
  | @abort i after found ends =>
      refine ⟨?_, inv.wf, inv.carried⟩
      rcases ends with ⟨plays, rfl⟩ | ⟨plays, ends⟩
      · obtain ⟨⟨prompt_pos, prompt_le, hashed⟩, settled, prefill, drafts, unfinished, fresh,
          cached_lt, covered, aligned, loaded⟩ := plays.2.2.2.2.1
        exact inv.scheduler.cancel plays rfl rfl rfl ⟨⟨prompt_pos, prompt_le, hashed⟩, settled,
          prefill, drafts, unfinished, fresh, cached_lt, covered, aligned, loaded⟩ rfl rfl
      · have ended := ends.inv inv.scheduler plays rfl rfl rfl rfl
        rw [← ends.frame.running] at ended
        exact ended

/-! ## Runs -/

/-- What clients and the engine loop do, with what they get back.  An add and
an abort name the sequence they are about. -/
inductive Action where
  | add (i : SeqId) (prompt : List Token) (params : SamplingParams)
      (requestId : Option RequestId) (arrivalTime : Nat) (result : Except Fault RequestId)
  | abort (i : Option SeqId) (requestId : RequestId) (reason : FinishReason) (aborted : Bool)
  | step (env : StepEnv) (outputs : List (SeqId × RequestOutput))

/-- One action of a run. -/
inductive Next (cfg : Config) : LLMEngine → Action → LLMEngine → Prop
  | add {engine next : LLMEngine} {prompt : List Token} {params : SamplingParams}
      {requestId : Option RequestId} {arrivalTime : Nat} {result : Except Fault RequestId}
      (added : engine.addRequest cfg prompt params requestId arrivalTime = (next, result)) :
      Next cfg engine
        (.add engine.scheduler.counter prompt params requestId arrivalTime result) next
  | abort {engine next : LLMEngine} {requestId : RequestId} {reason : FinishReason}
      {aborted : Bool} (ended : engine.abortRequest cfg requestId reason = .ok (next, aborted)) :
      Next cfg engine
        (.abort (engine.scheduler.seqs.lookup requestId) requestId reason aborted) next
  | step {engine next : LLMEngine} {env : StepEnv} {outputs : List (SeqId × RequestOutput)}
      (valid : env.Valid cfg engine) (stepped : engine.step cfg env = .ok (next, outputs)) :
      Next cfg engine (.step env outputs) next

/-- The runs of a new engine. -/
abbrev Run (cfg : Config) : List Action → LLMEngine → Prop :=
  Transition.Run (Next cfg) (create cfg)

/-- An engine some run leads to. -/
def Reachable (cfg : Config) (engine : LLMEngine) : Prop :=
  ∃ actions, Run cfg actions engine

theorem create_inv (cfg : Config) : (create cfg).Inv cfg [] := by
  refine ⟨⟨⟨List.nodup_nil, List.nodup_nil, ?_, ?_, by simp [Flight.rows]⟩, ?_, ?_⟩,
    Flight.wf_nil cfg, Or.inl ⟨rfl, rfl⟩⟩
  · rintro requestId i (found | found | found) <;>
      exact absurd found (by simp [create, Scheduler.create])
  · rintro i (queued | running | ⟨requestId, found | found | found⟩)
    · exact absurd queued (by simp [create, Scheduler.create])
    · exact absurd running (by simp [create, Scheduler.create])
    · exact absurd found (by simp [create, Scheduler.create])
    · exact absurd found (by simp [create, Scheduler.create])
    · exact absurd found (by simp [create, Scheduler.create])
  · exact BlockManager.create_inv cfg
  · rintro i (running | loading)
    · exact absurd running (by simp [create, Scheduler.create])
    · exact absurd loading (by simp [create, Scheduler.create])

/-- The rows launched and not yet reconciled. -/
def rows (engine : LLMEngine) : List LaunchedRow :=
  match engine.inFlight with
  | none => []
  | some step => step.rows

theorem Inv.rows_eq (inv : engine.Inv cfg flight) : engine.rows = flight.rows := by
  rcases inv.carried with ⟨none, rfl⟩ | ⟨some, _⟩
  · simp [rows, none, Flight.rows]
  · simp [rows, some, Flight.inFlight]

/-- What an action does to the engine and to the flight that is out. -/
inductive Acts (cfg : Config) (engine : LLMEngine) (flight : Flight) :
    Action → LLMEngine → Flight → Prop
  | add {prompt : List Token} {params : SamplingParams} {requestId : Option RequestId}
      {arrivalTime : Nat} {next : LLMEngine} {result : Except Fault RequestId}
      (adds : Adds cfg engine prompt params arrivalTime next result) :
      Acts cfg engine flight
        (.add engine.scheduler.counter prompt params requestId arrivalTime result) next flight
  | abort {requestId : RequestId} {reason : FinishReason} {next : LLMEngine} {aborted : Bool}
      (aborts : Aborts cfg engine flight requestId reason next aborted) :
      Acts cfg engine flight
        (.abort (engine.scheduler.seqs.lookup requestId) requestId reason aborted) next flight
  | step {env : StepEnv} {launch : Scheduler.Launch} {last : Scheduler} {stepped : List SeqId}
      (answers : env.Answers cfg)
      (steps : Steps cfg env engine.scheduler engine.runner flight launch last stepped) :
      Acts cfg engine flight (.step env (outputs last stepped launch.output.dropped))
        (engine.next cfg env launch last stepped) (launch.flight env)

/-- One action keeps the invariant. -/
theorem Next.acts {action : Action} {next : LLMEngine} (step : Next cfg engine action next)
    (inv : engine.Inv cfg flight) :
    ∃ flight', Acts cfg engine flight action next flight' ∧ next.Inv cfg flight' := by
  cases step with
  | @add _ prompt params requestId arrivalTime result added =>
      have adds := addRequest_spec cfg engine prompt params requestId arrivalTime
      rw [added] at adds
      exact ⟨flight, .add adds, adds.inv inv⟩
  | @abort _ requestId reason aborted ended =>
      obtain ⟨_, _, ended', aborts⟩ := abortRequest_spec inv requestId reason
      obtain ⟨rfl, rfl⟩ := Prod.mk.inj (Except.ok.inj (ended'.symm.trans ended))
      exact ⟨flight, .abort aborts, aborts.inv inv⟩
  | @step _ env outputs valid stepped =>
      obtain ⟨launch, last, processed, stepEq, steps, nextInv, _⟩ := step_spec inv valid
      obtain ⟨rfl, rfl⟩ := Prod.mk.inj (Except.ok.inj (stepEq.symm.trans stepped))
      exact ⟨launch.flight env, .step valid.answers steps, nextInv⟩

/-- What every action preserves, in engines that satisfy the invariant, holds
along every run of actions of one kind. -/
theorem Run.invariant (allowed : Action → Prop)
    (holds : List Action → LLMEngine → Flight → Prop) (initially : holds [] (create cfg) [])
    (preserved : ∀ actions engine flight action next flight', engine.Inv cfg flight →
      holds actions engine flight → allowed action → Acts cfg engine flight action next flight' →
      next.Inv cfg flight' → holds (actions ++ [action]) next flight')
    {actions : List Action} (run : Run cfg actions engine)
    (kind : ∀ action ∈ actions, allowed action) :
    ∃ flight, engine.Inv cfg flight ∧ holds actions engine flight := by
  refine Transition.Run.invariant_of_forall allowed
    (fun actions engine => ∃ flight, engine.Inv cfg flight ∧ holds actions engine flight)
    ⟨[], create_inv cfg, initially⟩ ?_ run kind
  rintro actions middle action last ⟨flight, inv, held⟩ fits step
  obtain ⟨flight', acts, nextInv⟩ := step.acts inv
  exact ⟨flight', nextInv, preserved _ _ _ _ _ _ inv held fits acts nextInv⟩

/-- Every reachable engine satisfies the invariant. -/
theorem Reachable.inv (reachable : Reachable cfg engine) : ∃ flight, engine.Inv cfg flight := by
  obtain ⟨actions, run⟩ := reachable
  obtain ⟨flight, inv, _⟩ := Run.invariant (fun _ => True) (fun _ _ _ => True) trivial
    (fun _ _ _ _ _ _ _ _ _ _ _ => trivial) run fun _ _ => trivial
  exact ⟨flight, inv⟩

/-- The engine after a step. -/
def stepped (cfg : Config) (engine : LLMEngine) (env : StepEnv) : LLMEngine :=
  match engine.step cfg env with
  | .ok (next, _) => next
  | .error _ => engine

theorem Reachable.create (cfg : Config) : Reachable cfg (create cfg) :=
  ⟨[], .nil⟩

theorem Reachable.add (reachable : Reachable cfg engine) (prompt : List Token)
    (params : SamplingParams) (requestId : Option RequestId) (arrivalTime : Nat) :
    Reachable cfg (engine.addRequest cfg prompt params requestId arrivalTime).1 := by
  obtain ⟨actions, run⟩ := reachable
  exact ⟨_, .snoc run (.add rfl)⟩

theorem Reachable.step (reachable : Reachable cfg engine) (valid : env.Valid cfg engine) :
    Reachable cfg (engine.stepped cfg env) := by
  obtain ⟨flight, inv⟩ := reachable.inv
  obtain ⟨actions, run⟩ := reachable
  obtain ⟨launch, last, processed, stepEq, _⟩ := step_spec inv valid
  have taken : engine.step cfg env =
      .ok (engine.stepped cfg env, outputs last processed launch.output.dropped) := by
    rw [stepped, stepEq]
  exact ⟨_, .snoc run (.step valid taken)⟩

end LLMEngine

/-! ## A small engine

Four blocks of two tokens, one request for two tokens, and a model that always
answers 1. -/

def Config.sample : Config where
  maxNumSeqs := 2
  maxNumBatchedTokens := 4
  maxModelLen := 16
  vocabSize := 10
  eos := 0
  blockSize := 2
  blockSize_pos := by decide
  numKvcacheBlocks := 4
  enableChunkedPrefill := true
  enablePrefixCaching := true
  asyncScheduling := true
  longPrefillTokenThreshold := 0
  schedulingPolicy := .fcfs
  numSpeculativeTokens := 0
  tensorParallelSize := 1
  kvTransfer := none
  hashAlgo tokens previous := Encodable.encode (tokens, previous)

theorem Config.sample_hashInjective : Config.sample.HashInjective := by
  intro first second firstPrev secondPrev equal
  exact Prod.mk.inj (Encodable.encode_injective equal)

def SamplingParams.sample : SamplingParams where
  maxTokens := 2
  maxTokens_pos := by decide
  ignoreEos := false
  stopTokenIds := []
  priority := 0
  kvTransferParams := none

def StepEnv.sample : StepEnv where
  forward _ := ⟨[1], []⟩

namespace LLMEngine

/-- The engine with its request queued. -/
def sampleQueued : LLMEngine :=
  ((create .sample).addRequest .sample [1, 2, 3] .sample (some "a") 0).1

theorem sampleQueued_next :
    Next .sample (create .sample) (.add 0 [1, 2, 3] .sample (some "a") 0 (.ok "a"))
      sampleQueued :=
  .add rfl

theorem sampleQueued_run :
    Run .sample [.add 0 [1, 2, 3] .sample (some "a") 0 (.ok "a")] sampleQueued :=
  .snoc .nil sampleQueued_next

theorem sample_valid (engine : LLMEngine) : StepEnv.sample.Valid .sample engine where
  answers _ :=
    { nonempty := Nat.le_refl 1
      few := Nat.le_add_right 1 _
      valid := by simp [StepEnv.sample]
      drafts := rfl }
  reports _ _ _ _ _ connected := absurd connected (by decide)

/-- The engine after one step, with the request's first token in flight. -/
def sampleRunning : LLMEngine :=
  match sampleQueued.step .sample .sample with
  | .ok (next, _) => next
  | .error _ => sampleQueued

theorem sampleRunning_next : Next .sample sampleQueued (.step .sample []) sampleRunning := by
  have stepped : (sampleQueued.step .sample .sample).map Prod.snd = .ok [] := by decide +kernel
  refine .step (sample_valid _) ?_
  unfold sampleRunning
  cases taken : sampleQueued.step .sample .sample with
  | error fault => simp [taken, Except.map] at stepped
  | ok result =>
      rw [taken] at stepped
      have quiet : result.2 = [] := Except.ok.inj stepped
      rw [← quiet]

theorem sampleRunning_reachable : Reachable .sample sampleRunning :=
  ⟨_, .snoc sampleQueued_run sampleRunning_next⟩

end LLMEngine

end LeanVllm
