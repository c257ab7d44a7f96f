import LeanVllm.Engine.EngineRuns

/-!
# What a record keeps

A `Sequence` is changed by many operations, but what the client asked for never
changes, its tokens only grow, its reservations stay within its limit, and
after it finished nothing is committed any more.
-/

namespace LeanVllm

open Collections

/-- What a client asks for. -/
structure Request where
  requestId : RequestId
  numPromptTokens : Nat
  maxTokens : Nat
  ignoreEos : Bool
  stopTokenIds : List Token
  priority : Int
  arrivalTime : Nat
  deriving DecidableEq, Repr

namespace Sequence

def request (seq : Sequence) : Request where
  requestId := seq.requestId
  numPromptTokens := seq.numPromptTokens
  maxTokens := seq.maxTokens
  ignoreEos := seq.ignoreEos
  stopTokenIds := seq.stopTokenIds
  priority := seq.priority
  arrivalTime := seq.arrivalTime

/-- Committed and reserved tokens stay within `max_tokens`. -/
def Bounded (seq : Sequence) : Prop :=
  seq.numPlannedTokens ≤ seq.numPromptTokens + seq.maxTokens

/-- How a record may change. -/
structure Evolves (before after : Sequence) : Prop where
  request : after.request = before.request
  tokenIds : before.tokenIds <+: after.tokenIds
  numPreemptions : before.numPreemptions ≤ after.numPreemptions
  bounded : before.Bounded → after.Bounded
  finished : before.status = .finished → after.status = .finished ∧
    after.finishReason = before.finishReason ∧ after.tokenIds = before.tokenIds

theorem Evolves.refl (seq : Sequence) : Evolves seq seq :=
  ⟨rfl, List.prefix_rfl, Nat.le_refl _, id, fun finished => ⟨finished, rfl, rfl⟩⟩

theorem Evolves.trans {first second third : Sequence} (left : Evolves first second)
    (right : Evolves second third) : Evolves first third where
  request := right.request.trans left.request
  tokenIds := left.tokenIds.trans right.tokenIds
  numPreemptions := left.numPreemptions.trans right.numPreemptions
  bounded := right.bounded ∘ left.bounded
  finished done := by
    obtain ⟨stays, reason, tokens⟩ := left.finished done
    obtain ⟨stays', reason', tokens'⟩ := right.finished stays
    exact ⟨stays', reason'.trans reason, tokens'.trans tokens⟩

variable {cfg : Config} {seq after : Sequence} {reserved : Nat}

theorem Evolves.numPromptTokens_eq (evolves : Evolves seq after) :
    after.numPromptTokens = seq.numPromptTokens :=
  congrArg Request.numPromptTokens evolves.request

/-- A change that leaves tokens and reservations alone, or drops the
reservations. -/
theorem Evolves.of_same (request : after.request = seq.request)
    (tokenIds : after.tokenIds = seq.tokenIds)
    (numPreemptions : seq.numPreemptions ≤ after.numPreemptions)
    (pending : after.numPendingTokens ≤ seq.numPendingTokens)
    (finished : seq.status = .finished →
      after.status = .finished ∧ after.finishReason = seq.finishReason) : Evolves seq after where
  request := request
  tokenIds := tokenIds ▸ List.prefix_rfl
  numPreemptions := numPreemptions
  bounded bounded := by
    have prompt : after.numPromptTokens = seq.numPromptTokens :=
      congrArg Request.numPromptTokens request
    have limit : after.maxTokens = seq.maxTokens := congrArg Request.maxTokens request
    simp only [Bounded, numPlannedTokens, numTokens, tokenIds, prompt, limit] at bounded ⊢
    omega
  finished done := ⟨(finished done).1, (finished done).2, tokenIds⟩

theorem Active.unfinished_status (active : seq.Active cfg reserved) : seq.status ≠ .finished := by
  simp [active.status]

theorem Queued.unfinished_status (queued : seq.Queued cfg) : seq.status ≠ .finished := by
  simp [queued.status]

end Sequence

namespace Scheduler

open Sequence

variable {cfg : Config} {s : Scheduler} {rows : List LaunchedRow} {i : SeqId}

/-- Changing one record. -/
theorem evolves_setSeq (s : Scheduler) (i : SeqId) {seq : Sequence}
    (change : Evolves (s.heap i) seq) (j : SeqId) :
    Evolves (s.heap j) ((s.setSeq i seq).heap j) := by
  by_cases own : j = i
  · subst own
    rw [setSeq_heap_self]
    exact change
  · rw [setSeq_heap_of_ne s own]
    exact .refl _

theorem Move.evolves {before after : Scheduler × SchedulerOutput} (move : Move cfg before after)
    (pass : PassInv cfg before rows) (j : SeqId) :
    Evolves (before.1.heap j) (after.1.heap j) := by
  cases move with
  | reorder reordered => exact .refl _
  | recount => exact .refl _
  | @preempt s output i bm member idle freed =>
      have open' := (pass.inv.running member).2.2.2.unfinished_status
      refine evolves_setSeq s i ?_ j
      exact .of_same rfl rfl (Nat.le_succ _) (Nat.zero_le _) fun done => absurd done open'
  | @dropRunning s output i bm member idle settled freed =>
      have open' := (pass.inv.running member).2.2.2.unfinished_status
      refine evolves_setSeq s i ?_ j
      exact .of_same rfl rfl (Nat.le_refl _) (Nat.zero_le _) fun done => absurd done open'
  | @dropWaiting s output i head =>
      have open' := (pass.inv.queued (List.mem_of_mem_head? head)).2.2.2.1.unfinished_status
      refine evolves_setSeq s i ?_ j
      exact .of_same rfl rfl (Nat.le_refl _) (Nat.zero_le _) fun done => absurd done open'
  | @trim s output i member idle n =>
      refine evolves_setSeq s i ?_ j
      exact .of_same rfl rfl (Nat.le_refl _) (Nat.le_refl _) fun done => ⟨done, rfl⟩
  | @append s output i bm fresh numLookahead member idle within fits appended =>
      refine evolves_setSeq s i ?_ j
      exact .of_same rfl rfl (Nat.le_refl _) (Nat.le_refl _) fun done => ⟨done, rfl⟩
  | @serve s output i n member idle ready =>
      refine evolves_setSeq s i ?_ j
      exact .of_same rfl rfl (Nat.le_refl _) (Nat.le_refl _) fun done => ⟨done, rfl⟩
  | @beginRun s output i bm hits fresh params budget head allocates loaded ready =>
      have open' := (pass.inv.queued (List.mem_of_mem_head? head)).2.2.2.1.unfinished_status
      refine evolves_setSeq s i ?_ j
      exact .of_same rfl rfl (Nat.le_refl _) (Nat.le_refl _) fun done => absurd done open'
  | @load s output i bm hits fresh head allocates connected wants =>
      have open' := (pass.inv.queued (List.mem_of_mem_head? head)).2.2.2.1.unfinished_status
      refine evolves_setSeq s i ?_ j
      exact .of_same rfl rfl (Nat.le_refl _) (Nat.le_refl _) fun done => absurd done open'

theorem Moves.evolves {before after : Scheduler × SchedulerOutput} (moves : Moves cfg before after)
    (pass : PassInv cfg before rows) (j : SeqId) :
    Evolves (before.1.heap j) (after.1.heap j) := by
  induction moves with
  | refl => exact .refl _
  | tail earlier move ih => exact ih.trans (move.evolves (Moves.passInv earlier pass) j)

theorem Advances.evolves {active seqs : List SeqId} {last : Scheduler}
    {launched : List LaunchedRow} (advances : Advances cfg active rows s seqs last launched)
    (j : SeqId) : Evolves (s.heap j) (last.heap j) := by
  induction advances with
  | nil => exact .refl _
  | @cons before s last i seqs rows n bm inv member ready publishes next others ih =>
      refine (evolves_setSeq s i ?_ j).trans ih
      have bounded := (next.running member).2.2.2.planned_le
      rw [renew_heap_self] at bounded
      refine ⟨?_, ?_, ?_, fun _ => bounded, ?_⟩
      · simp [Sequence.advanced, Sequence.request, apply_ite]
      · simp [Sequence.advanced, apply_ite]
      · simp [Sequence.advanced, apply_ite]
      · intro done
        exact absurd done (inv.running member).2.2.2.unfinished_status

/-- Ending a request changes its record once more. -/
theorem Ends.evolves {seq : Sequence} {after : Scheduler} (ends : Ends cfg s i seq after)
    (change : Evolves (s.heap i) seq) (j : SeqId) : Evolves (s.heap j) (after.heap j) := by
  cases ends with
  | release bm result freed =>
      refine evolves_setSeq s i (change.trans ?_) j
      exact .of_same rfl rfl (Nat.le_refl _) (Nat.le_refl _) fun done => ⟨done, rfl⟩
  | hold kv connector result connected held =>
      refine evolves_setSeq s i (change.trans ?_) j
      exact .of_same rfl rfl (Nat.le_refl _) (Nat.le_refl _) fun done => ⟨done, rfl⟩

theorem Reconciles.evolves {row : LaunchedRow} {tokens : List Token}
    {drafts : Option (List (List Token))} {after : Scheduler} {processed : Bool}
    (turn : Reconciles cfg s row tokens drafts after processed)
    (inv : s.Inv cfg s.running (row :: rows)) (answer : Answers row tokens) (j : SeqId) :
    Evolves (s.heap j) (after.heap j) := by
  obtain ⟨nonempty, few⟩ := answer
  cases turn with
  | void _ => exact .refl _
  | @commit hashes spec lives member below clean hashed saved =>
      have isActive := (inv.running member).2.2.2
      have pending := (inv.valid isActive.unfinished_status lives).2.2
      have planned := isActive.planned_le
      refine evolves_setSeq s row.seq ?_ j
      refine ⟨rfl, List.prefix_append _ _, Nat.le_refl _, fun _ => ?_,
        fun done => absurd done isActive.unfinished_status⟩
      simp only [Bounded, numPlannedTokens, numTokens, Sequence.committed,
        List.length_append] at planned ⊢
      omega
  | @stop hashes earlier dropped final why after lives member split below clean cause ends =>
      have isActive := (inv.running member).2.2.2
      have prompt := isActive.prompt_le
      refine ends.evolves ⟨rfl, List.prefix_append _ _, Nat.le_refl _, fun _ => ?_,
        fun done => absurd done isActive.unfinished_status⟩ j
      simp only [numCompletionTokens, numTokens] at below prompt
      simp only [Bounded, numPlannedTokens, numTokens, Sequence.committed, Sequence.closed,
        List.length_append, List.length_singleton]
      omega

theorem ReconcilesAll.evolves {later step : List LaunchedRow} {tokenIds : List (List Token)}
    {drafts : Option (List (List Token))} {last : Scheduler} {stepped : List SeqId}
    (reconciles : ReconcilesAll cfg later s step tokenIds drafts last stepped) (j : SeqId) :
    Evolves (s.heap j) (last.heap j) := by
  induction reconciles with
  | nil => exact .refl _
  | cons inv answer turn nextInv others ih => exact (turn.evolves inv answer j).trans ih

theorem Releases.evolves {active : List SeqId} {finishedSending : List RequestId}
    {last : Scheduler} (releases : Releases cfg active rows s finishedSending last) (j : SeqId) :
    Evolves (s.heap j) (last.heap j) := by
  induction releases with
  | nil => exact .refl _
  | skip absent others ih => exact ih
  | @release s last requestId rest i bm inv found freed next others ih =>
      refine (evolves_setSeq s i ?_ j).trans ih
      exact .of_same rfl rfl (Nat.le_refl _) (Nat.le_refl _) fun done => ⟨done, rfl⟩

theorem Receives.evolves {finishedRecving : List RequestId} {requestId : RequestId}
    {after : Scheduler} (receives : Receives cfg s finishedRecving requestId after) (j : SeqId) :
    Evolves (s.heap j) (after.heap j) := by
  cases receives with
  | @cancelled i bm found finished freed =>
      refine evolves_setSeq s i ?_ j
      exact .of_same rfl rfl (Nat.le_refl _) (Nat.le_refl _) fun done => ⟨done, rfl⟩
  | @loaded i n bm found unfinished reported publishes =>
      refine evolves_setSeq s i ?_ j
      exact .of_same rfl rfl (Nat.le_refl _) (Nat.le_refl _)
        fun done => absurd (unfinished.symm.trans done) (by simp)
  | @failed i found unfinished reported =>
      refine evolves_setSeq s i ?_ j
      exact .of_same rfl rfl (Nat.le_refl _) (Nat.le_refl _)
        fun done => absurd (unfinished.symm.trans done) (by simp)

theorem ReceivesAll.evolves {finishedRecving order : List RequestId} {last : Scheduler}
    (receives : ReceivesAll cfg rows finishedRecving s order last) (j : SeqId) :
    Evolves (s.heap j) (last.heap j) := by
  induction receives with
  | nil => exact .refl _
  | cons inv turn nextInv others ih => exact (turn.evolves j).trans ih

theorem Launches.planned_evolves {env : StepEnv} {runner : ModelRunner} {flight : Flight}
    {launch : Launch} (launches : s.Launches cfg env runner flight launch)
    (inv : s.Inv cfg s.running flight.rows) (j : SeqId) :
    Evolves (s.heap j) (launch.planned.heap j) :=
  Moves.evolves launches.moves (inv.start []) j

theorem Launches.reported_evolves {env : StepEnv} {runner : ModelRunner} {flight : Flight}
    {launch : Launch} (launches : s.Launches cfg env runner flight launch) (j : SeqId) :
    Evolves (launch.planned.heap j) (launch.reported.heap j) := by
  rcases launches.reports with ⟨_, same⟩ | ⟨_, middle, releases, receives⟩
  · rw [same]
    exact .refl _
  · exact (releases.evolves j).trans (receives.evolves j)

theorem Launches.evolves {env : StepEnv} {runner : ModelRunner} {flight : Flight}
    {launch : Launch} (launches : s.Launches cfg env runner flight launch)
    (inv : s.Inv cfg s.running flight.rows) (j : SeqId) :
    Evolves (s.heap j) (launch.last.heap j) :=
  ((launches.planned_evolves inv j).trans (launches.reported_evolves j)).trans
    (launches.advances.evolves j)

end Scheduler

namespace LLMEngine

open Sequence

variable {cfg : Config} {engine : LLMEngine} {flight : Flight}

theorem Steps.evolves {env : StepEnv} {s last : Scheduler} {runner : ModelRunner}
    {launch : Scheduler.Launch} {stepped : List SeqId}
    (steps : Steps cfg env s runner flight launch last stepped)
    (inv : s.Inv cfg s.running flight.rows) (j : SeqId) :
    Evolves (s.heap j) (last.heap j) := by
  cases steps with
  | sync mode reconciles settled launches =>
      exact (reconciles.evolves j).trans (launches.evolves settled j)
  | async mode launches reconciles =>
      exact (launches.evolves inv j).trans (reconciles.evolves j)

theorem Aborts.evolves {requestId : RequestId} {reason : FinishReason} {next : LLMEngine}
    {aborted : Bool} (aborts : Aborts cfg engine flight requestId reason next aborted)
    (j : SeqId) : Evolves (engine.scheduler.heap j) (next.scheduler.heap j) := by
  cases aborts with
  | missing absent => exact .refl _
  | @abort i after found ends =>
      rcases ends with ⟨plays, rfl⟩ | ⟨plays, ends⟩
      · refine Scheduler.evolves_setSeq engine.scheduler i ?_ j
        exact .of_same rfl rfl (Nat.le_refl _) (Nat.le_refl _)
          fun done => absurd (plays.2.2.2.1.symm.trans done) (by simp)
      · refine ends.evolves (.of_same rfl rfl (Nat.le_refl _) (Nat.zero_le _) ?_) j
        intro done
        rcases plays with plays | plays
        · exact absurd done plays.2.2.2.1.unfinished_status
        · exact absurd done plays.2.2.2.unfinished_status

/-- Whatever a run does, the records of earlier requests only evolve. -/
theorem Acts.evolves {action : Action} {next : LLMEngine} {flight' : Flight}
    (acts : Acts cfg engine flight action next flight') (inv : engine.Inv cfg flight) {j : SeqId}
    (old : j ≠ engine.scheduler.counter) :
    Evolves (engine.scheduler.heap j) (next.scheduler.heap j) := by
  cases acts with
  | step answers steps => exact steps.evolves inv.scheduler j
  | abort aborts => exact aborts.evolves j
  | add adds =>
      cases adds with
      | refuse fault => exact .refl _
      | duplicate requestId hashes valid known =>
          show Evolves _ ((engine.scheduler.setSeq _ _).heap j)
          rw [Scheduler.setSeq_heap_of_ne _ old]
          exact .refl _
      | accept requestId hashes valid isQueued fresh =>
          show Evolves _ ((engine.scheduler.setSeq _ _).heap j)
          rw [Scheduler.setSeq_heap_of_ne _ old]
          exact .refl _

end LLMEngine

end LeanVllm
