import LeanVllm.Engine.Flights
import LeanVllm.Engine.Reports

/-!
# Steps of the engine

A launch schedules, takes the connector's report, and sends a flight out; a
reconcile brings one back.  A step does both, in the order the mode asks for,
and in every state that satisfies the invariant it succeeds.
-/

namespace LeanVllm

open Collections

namespace StepEnv

/-- The connector reports loads that are under way, each once. -/
structure Reports (env : StepEnv) (s : Scheduler) : Prop where
  distinct : env.recvOrder.Nodup
  order : ∀ requestId, requestId ∈ env.recvOrder ↔
    requestId ∈ env.kvOutput.finishedRecving ∨ requestId ∈ env.kvOutput.failedRecving
  loading : ∀ requestId ∈ env.recvOrder, requestId ∈ s.recving

end StepEnv

namespace Scheduler

variable {cfg : Config} {s : Scheduler} {rows : List LaunchedRow}

theorem Move.metadata {before after : Scheduler × SchedulerOutput} (move : Move cfg before after) :
    after.2.kvConnectorMetadata = before.2.kvConnectorMetadata := by
  cases move <;> rfl

theorem Moves.metadata {before after : Scheduler × SchedulerOutput}
    (moves : Moves cfg before after) :
    after.2.kvConnectorMetadata = before.2.kvConnectorMetadata := by
  induction moves with
  | refl => rfl
  | tail _ move ih => rw [move.metadata, ih]

/-- The scheduler after it handed its transfers over. -/
def handedOver (cfg : Config) (s : Scheduler) : Scheduler :=
  if cfg.kvTransfer.isSome then { s with connector := {} } else s

@[simp]
theorem handedOver_heap (s : Scheduler) : (s.handedOver cfg).heap = s.heap := by
  unfold handedOver
  split <;> rfl

@[simp]
theorem handedOver_blockManager (s : Scheduler) :
    (s.handedOver cfg).blockManager = s.blockManager := by
  unfold handedOver
  split <;> rfl

theorem withConnectorMeta_fst (s : Scheduler) (output : SchedulerOutput) :
    (s.withConnectorMeta cfg output).1 = s.handedOver cfg := by
  unfold withConnectorMeta handedOver
  split <;> rfl

/-- Handing over adds the metadata and changes nothing else of the output. -/
theorem withConnectorMeta_snd (cfg : Config) (s : Scheduler) {output : SchedulerOutput}
    (none : output.kvConnectorMetadata = none) :
    (s.withConnectorMeta cfg output).2.kvConnectorMetadata.isSome = cfg.kvTransfer.isSome ∧
      (s.withConnectorMeta cfg output).2.scheduled = output.scheduled ∧
      (s.withConnectorMeta cfg output).2.dropped = output.dropped := by
  unfold withConnectorMeta
  split
  · rename_i connected
    exact ⟨connected.symm, rfl, rfl⟩
  · rename_i isolated
    exact ⟨by simp [none, isolated], rfl, rfl⟩

/-- What `schedule` returns, in terms of the loops' result. -/
theorem schedule_result (inv : s.Inv cfg s.running rows) :
    ∃ planned plan metadata,
      s.schedule cfg =
        .ok (planned.handedOver cfg, { plan with kvConnectorMetadata := metadata }) ∧
      Schedules cfg s planned plan ∧ Moves cfg (s, {}) (planned, plan) := by
  obtain ⟨planned, plan, scheduled, schedules, moves⟩ := schedule_spec inv
  refine ⟨planned, plan, (planned.withConnectorMeta cfg plan).2.kvConnectorMetadata, ?_,
    schedules, moves⟩
  rw [scheduled, ← planned.withConnectorMeta_fst plan]
  unfold withConnectorMeta
  split <;> rfl

/-- The states of a launch: after `schedule`, after the connector's report, and
after `advance`. -/
structure Launch where
  planned : Scheduler
  output : SchedulerOutput
  reported : Scheduler
  inputs : List RowInput
  last : Scheduler

/-- A batch as a launch prepares it: the scheduler and the output `schedule`
returns, the scheduler after the connector's report, and the rows' inputs. -/
structure Batch where
  planned : Scheduler
  output : SchedulerOutput
  reported : Scheduler
  inputs : List RowInput

/-- The batch of a launch. -/
def Launch.batch (cfg : Config) (launch : Launch) : Batch where
  planned := (launch.planned.withConnectorMeta cfg launch.output).1
  output := (launch.planned.withConnectorMeta cfg launch.output).2
  reported := launch.reported
  inputs := launch.inputs

/-- The flight a launch sends out. -/
def Launch.flight (launch : Launch) (env : StepEnv) : Flight :=
  Flight.launch env.forward launch.reported.heap launch.inputs

/-- What a launch does while `flight` is still out. -/
structure Launches (cfg : Config) (env : StepEnv) (s : Scheduler) (runner : ModelRunner)
    (flight : Flight) (launch : Launch) : Prop where
  scheduled : s.schedule cfg = .ok (launch.planned.withConnectorMeta cfg launch.output)
  updated :
    (if (launch.planned.withConnectorMeta cfg launch.output).2.kvConnectorMetadata.isSome then
      (launch.planned.withConnectorMeta cfg launch.output).1.updateFromKvConnectorOutput cfg
        env.kvOutput env.recvOrder
    else .ok (launch.planned.withConnectorMeta cfg launch.output).1) = .ok launch.reported
  preparedRows : runner.prepareRows launch.reported.heap launch.output.scheduled =
    .ok launch.inputs
  schedules : Schedules cfg s launch.planned launch.output
  moves : Moves cfg (s, {}) (launch.planned, launch.output)
  planned : PassInv cfg (launch.planned, launch.output) flight.rows
  reports : cfg.kvTransfer = none ∧ launch.reported = launch.planned ∨
    cfg.kvTransfer.isSome ∧ ∃ middle,
      Releases cfg launch.planned.running flight.rows { launch.planned with connector := {} }
        env.kvOutput.finishedSending middle ∧
      ReceivesAll cfg flight.rows env.kvOutput.finishedRecving middle env.recvOrder launch.reported
  reported : PassInv cfg (launch.reported, launch.output) flight.rows
  prepared : List.Forall₂
    (fun i input => runner.prepareRow i (launch.reported.heap i) = .ok input)
    launch.output.scheduled launch.inputs
  advances : Advances cfg launch.reported.running flight.rows launch.reported
    launch.output.scheduled launch.last (launch.flight env).rows
  wf : (launch.flight env).Wf cfg
  inv : launch.last.Inv cfg launch.last.running (flight.rows ++ (launch.flight env).rows)

theorem Launches.idle {env : StepEnv} {runner : ModelRunner} {flight : Flight} {launch : Launch}
    (launches : s.Launches cfg env runner flight launch)
    (none : launch.output.scheduled = []) : launch.flight env = [] := by
  have prepared := launches.prepared
  rw [none, List.forall₂_nil_left_iff] at prepared
  rw [Launch.flight, prepared]
  rfl

/-- A launch has one row for each scheduled sequence. -/
theorem Launches.map_seq {env : StepEnv} {runner : ModelRunner} {flight : Flight}
    {launch : Launch} (launches : s.Launches cfg env runner flight launch) :
    launch.inputs.map RowInput.seq = launch.output.scheduled := by
  have prepared := launches.prepared
  generalize launch.output.scheduled = seqs at prepared ⊢
  generalize launch.inputs = inputs at prepared ⊢
  induction prepared with
  | nil => rfl
  | cons head _ ih => rw [List.map_cons, (ModelRunner.prepareRow_own head).1, ih]

/-- Handing transfers over changes no batch. -/
theorem Launches.batch_scheduled {env : StepEnv} {runner : ModelRunner} {flight : Flight}
    {launch : Launch} (launches : s.Launches cfg env runner flight launch) :
    (launch.batch cfg).output.scheduled = launch.output.scheduled :=
  (launch.planned.withConnectorMeta_snd cfg (Moves.metadata launches.moves)).2.1

/-- A report keeps a batch as it was planned. -/
theorem PassInv.report {planned reported : Scheduler} {output : SchedulerOutput}
    (pass : PassInv cfg (planned, output) rows) (frame : Reported planned reported)
    (inv : reported.Inv cfg reported.running rows) : PassInv cfg (reported, output) rows := by
  refine ⟨inv, pass.nodup, ?_, ?_⟩
  · intro i member
    exact frame.running.subset (pass.running i member)
  · intro i member
    obtain ⟨_, _, ⟨_, loading, held⟩, _⟩ := pass.inv.running (pass.running i member)
    have heapEq : reported.heap i = planned.heap i := by
      refine frame.heap i ?_ ?_
      · intro among
        obtain ⟨requestId, found⟩ := Dict.mem_values_iff.mp among
        have key := pass.inv.keyed requestId i (Or.inr (Or.inl found))
        subst requestId
        exact absurd (found.symm.trans loading) (by simp)
      · intro among
        obtain ⟨requestId, found⟩ := Dict.mem_values_iff.mp among
        have key := pass.inv.keyed requestId i (Or.inr (Or.inr found))
        subst requestId
        exact absurd (found.symm.trans held) (by simp)
    show (reported.heap i).Ready cfg
    rw [heapEq]
    exact pass.ready i member

/-- Handing transfers over keeps a batch as it was planned. -/
theorem PassInv.withConnectorMeta {output : SchedulerOutput}
    (pass : PassInv cfg (s, output) rows) : PassInv cfg (s.withConnectorMeta cfg output) rows := by
  unfold Scheduler.withConnectorMeta
  split
  · exact ⟨pass.inv.withConnector _, pass.nodup, pass.running, pass.ready⟩
  · exact pass

/-- `schedule` returns a batch that is ready to launch. -/
theorem schedule_passInv (inv : s.Inv cfg s.running rows) {last : Scheduler}
    {output : SchedulerOutput} (scheduled : s.schedule cfg = .ok (last, output)) :
    PassInv cfg (last, output) rows := by
  obtain ⟨planned, plan, scheduledEq, _, moves⟩ := schedule_spec inv
  rw [← Except.ok.inj (scheduledEq.symm.trans scheduled)]
  exact (Moves.passInv moves (inv.start [])).withConnectorMeta

/-- A report of loads under way succeeds. -/
theorem PassInv.update {planned : Scheduler} {output : SchedulerOutput} {env : StepEnv}
    (pass : PassInv cfg (planned, output) rows) (report : env.Reports planned) :
    ∃ middle reported,
      planned.updateFromKvConnectorOutput cfg env.kvOutput env.recvOrder = .ok reported ∧
      Releases cfg planned.running rows planned env.kvOutput.finishedSending middle ∧
      ReceivesAll cfg rows env.kvOutput.finishedRecving middle env.recvOrder reported ∧
      PassInv cfg (reported, output) rows := by
  obtain ⟨middle, reported, updated, releases, receives, _, reportedInv⟩ :=
    updateFromKvConnectorOutput_spec pass.inv env.kvOutput report.distinct report.loading
  exact ⟨middle, reported, updated, releases, receives,
    pass.report (releases.reported.trans receives.reported) reportedInv⟩

/-- The connector's report after `schedule`, if there is a connector. -/
theorem PassInv.reports {planned : Scheduler} {output : SchedulerOutput} {env : StepEnv}
    (pass : PassInv cfg (planned, output) rows) (none : output.kvConnectorMetadata = none)
    (reports : cfg.kvTransfer.isSome → env.Reports (planned.withConnectorMeta cfg output).1) :
    ∃ reported,
      (if (planned.withConnectorMeta cfg output).2.kvConnectorMetadata.isSome then
        (planned.withConnectorMeta cfg output).1.updateFromKvConnectorOutput cfg env.kvOutput
          env.recvOrder
      else .ok (planned.withConnectorMeta cfg output).1) = .ok reported ∧
      (cfg.kvTransfer = Option.none ∧ reported = planned ∨
        cfg.kvTransfer.isSome ∧ ∃ middle,
          Releases cfg planned.running rows { planned with connector := {} }
            env.kvOutput.finishedSending middle ∧
          ReceivesAll cfg rows env.kvOutput.finishedRecving middle env.recvOrder reported) ∧
      PassInv cfg (reported, output) rows := by
  rw [(planned.withConnectorMeta_snd cfg none).1]
  rw [planned.withConnectorMeta_fst] at reports ⊢
  unfold handedOver at reports ⊢
  cases connected : cfg.kvTransfer.isSome with
  | false =>
      refine ⟨planned, rfl, Or.inl ⟨?_, rfl⟩, pass⟩
      simpa using connected
  | true =>
      simp only [connected, if_true] at reports ⊢
      have plan : PassInv cfg ({ planned with connector := {} }, output) rows :=
        ⟨pass.inv.withConnector {}, pass.nodup, pass.running, pass.ready⟩
      obtain ⟨middle, reported, updated, releases, receives, report⟩ :=
        plan.update (reports trivial)
      exact ⟨reported, updated, Or.inr ⟨trivial, middle, releases, receives⟩, report⟩

/-- A planned batch can be prepared and advanced. -/
theorem PassInv.run {s : Scheduler} {output : SchedulerOutput} {flight : Flight}
    {runner : ModelRunner} {env : StepEnv} (pass : PassInv cfg (s, output) flight.rows)
    (wf : flight.Wf cfg) (device : flight = [] ∨ runner = flight.runner cfg)
    (answers : env.Answers cfg) :
    ∃ inputs last, runner.prepareRows s.heap output.scheduled = .ok inputs ∧
      s.advance cfg output.scheduled =
        .ok (last, (Flight.launch env.forward s.heap inputs).rows) ∧
      List.Forall₂ (fun i input => runner.prepareRow i (s.heap i) = .ok input)
        output.scheduled inputs ∧
      Advances cfg s.running flight.rows s output.scheduled last
        (Flight.launch env.forward s.heap inputs).rows ∧
      (Flight.launch env.forward s.heap inputs).Wf cfg ∧
      last.Inv cfg last.running
        (flight.rows ++ (Flight.launch env.forward s.heap inputs).rows) := by
  have isActive : ∀ i ∈ output.scheduled,
      (s.heap i).Active cfg (due flight.rows i (s.heap i).numPreemptions) :=
    fun i member => (pass.inv.running (pass.running i member)).2.2.2
  obtain ⟨inputs, looped, prepared, rowsEq⟩ := ModelRunner.prepareRows_ok env.forward
    fun i member => by
      refine ModelRunner.prepareRow_ok (isActive i member) (pass.ready i member) wf.distinct
        device ?_
      intro pending
      rw [(isActive i member).pending] at pending
      obtain ⟨row, among, own, _⟩ := exists_row_of_due_ne_zero pending
      obtain ⟨launched, inFlight, rfl⟩ := List.mem_map.mp among
      exact ⟨launched, inFlight, own⟩
  obtain ⟨last, launched, advanced, advances, lastInv⟩ :=
    advance_spec pass.inv pass.nodup pass.running pass.ready
  obtain ⟨same, _, _, launchedEq⟩ := advances.frame pass.nodup
  rw [← rowsEq] at launchedEq
  subst launchedEq
  have running : last.running = s.running := by rw [same]
  refine ⟨inputs, last, looped, advanced, prepared, advances, ?_, running ▸ lastInv⟩
  refine Flight.launch_wf answers rowsEq pass.nodup ?_
  intro i member
  cases prefill : (s.heap i).isPrefill with
  | true => simp [((isActive i member).prefilling prefill).2.1]
  | false => exact ((isActive i member).decoding prefill).2

end Scheduler

namespace LLMEngine

variable {cfg : Config} {engine : LLMEngine} {env : StepEnv} {flight : Flight}

/-- The engine after a launch. -/
def launched (cfg : Config) (engine : LLMEngine) (env : StepEnv) (launch : Scheduler.Launch) :
    LLMEngine :=
  if launch.output.scheduled = [] then { engine with scheduler := launch.last }
  else
    { engine with
      scheduler := launch.last
      runner := (launch.flight env).runner cfg
      inFlight := some ((launch.flight env).inFlight cfg) }

/-- The code of a launch, stage by stage. -/
theorem launch_eq {handed : Scheduler × SchedulerOutput} {launch : Scheduler.Launch}
    (scheduled : engine.scheduler.schedule cfg = .ok handed)
    (updated : (if handed.2.kvConnectorMetadata.isSome then
        handed.1.updateFromKvConnectorOutput cfg env.kvOutput env.recvOrder
      else .ok handed.1) = .ok launch.reported)
    (scheduledEq : handed.2.scheduled = launch.output.scheduled)
    (prepared : engine.runner.prepareRows launch.reported.heap launch.output.scheduled =
      .ok launch.inputs)
    (advanced : launch.reported.advance cfg launch.output.scheduled =
      .ok (launch.last, (launch.flight env).rows)) :
    engine.launch cfg env = .ok (engine.launched cfg env launch, handed.2) := by
  have rest : (if handed.2.scheduled = [] then
        .ok ({ engine with scheduler := launch.reported }, handed.2)
      else
        engine.runner.run cfg launch.reported.heap env.forward handed.2.scheduled >>= fun ran =>
          launch.reported.advance cfg handed.2.scheduled >>= fun moved =>
            .ok ({ engine with
              scheduler := moved.1
              runner := ran.1
              inFlight := some ⟨moved.2, ran.2⟩ }, handed.2)) = Except.ok (engine.launched cfg env launch, handed.2) := by
    rw [scheduledEq, launched]
    by_cases idle : launch.output.scheduled = []
    · rw [idle] at advanced
      have lastEq : launch.reported = launch.last := congrArg Prod.fst (Except.ok.inj advanced)
      rw [if_pos idle, if_pos idle, lastEq]
    · rw [if_neg idle, if_neg idle]
      simp only [ModelRunner.run_eq prepared, advanced, bind, Except.bind]
      rfl
  simp only [LLMEngine.launch, scheduled, bind, Except.bind]
  split at updated
  · rename_i connected
    rw [if_pos connected, updated]
    exact rest
  · rename_i isolated
    rw [if_neg isolated, Except.ok.inj updated]
    exact rest

/-- A launch succeeds while `flight` is out. -/
theorem launch_spec (engine : LLMEngine) (flight : Flight)
    (inv : engine.scheduler.Inv cfg engine.scheduler.running flight.rows) (wf : flight.Wf cfg)
    (device : flight = [] ∨ engine.runner = flight.runner cfg) (answers : env.Answers cfg)
    (reports : ∀ s output, engine.scheduler.schedule cfg = .ok (s, output) →
      cfg.kvTransfer.isSome → env.Reports s) :
    ∃ launch output, engine.launch cfg env = .ok (engine.launched cfg env launch, output) ∧
      output.scheduled = launch.output.scheduled ∧ output.dropped = launch.output.dropped ∧
      engine.scheduler.Launches cfg env engine.runner flight launch := by
  obtain ⟨planned, output, scheduled, schedules, moves⟩ := Scheduler.schedule_spec inv
  have plan := Scheduler.Moves.passInv moves (inv.start [])
  have none := Scheduler.Moves.metadata moves
  obtain ⟨_, scheduledEq, droppedEq⟩ := planned.withConnectorMeta_snd cfg none
  obtain ⟨reported, updated, received, report⟩ :=
    plan.reports none fun connected => reports _ _ scheduled connected
  obtain ⟨inputs, last, prepared, advanced, each, advances, newWf, lastInv⟩ :=
    report.run wf device answers
  refine ⟨⟨planned, output, reported, inputs, last⟩, (planned.withConnectorMeta cfg output).2, ?_,
    scheduledEq, droppedEq,
    ⟨scheduled, updated, prepared, schedules, moves, plan, received, report, each, advances, newWf,
      lastInv⟩⟩
  exact launch_eq scheduled updated scheduledEq prepared advanced

/-- Reconciling a flight succeeds, and leaves the later rows in flight. -/
theorem reconcile_spec (engine : LLMEngine) (later : List LaunchedRow)
    {draining : Option InFlight}
    (inv : engine.scheduler.Inv cfg engine.scheduler.running (flight.rows ++ later))
    (wf : flight.Wf cfg)
    (drains : draining = none ∧ flight = [] ∨ draining = some (flight.inFlight cfg)) :
    ∃ last stepped, engine.reconcile cfg draining = .ok ({ engine with scheduler := last }, stepped) ∧
      Scheduler.ReconcilesAll cfg later engine.scheduler flight.rows flight.tokens
        (flight.drafts cfg) last stepped ∧
      last.Inv cfg last.running later := by
  rcases drains with ⟨rfl, rfl⟩ | rfl
  · exact ⟨engine.scheduler, [], rfl, .nil, inv⟩
  · obtain ⟨last, stepped, reconciled, reconciles, lastInv⟩ := Scheduler.reconcile_spec inv
      wf.answers (flight.drafts cfg) (by
        intro lists some
        unfold Flight.drafts at some
        split at some
        · contradiction
        · rw [← Option.some.inj some]
          refine ⟨by simp [Flight.rows], ?_⟩
          intro own member
          obtain ⟨launched, among, rfl⟩ := List.mem_map.mp member
          exact (wf.fits launched among).drafts.le)
    refine ⟨last, stepped, ?_, reconciles, lastInv⟩
    unfold Flight.drafts at reconciled
    simp only [reconcile, Flight.inFlight]
    by_cases plain : cfg.numSpeculativeTokens = 0
    · simp only [plain, if_true] at reconciled ⊢
      simp only [reconciled, bind, Except.bind]
    · simp only [plain, if_false] at reconciled ⊢
      simp only [ModelRunner.splitSampled_eq wf, reconciled, bind, Except.bind]

/-- The invariant of the engine: the step in flight is `flight`, on the host
and on the device. -/
structure Inv (cfg : Config) (engine : LLMEngine) (flight : Flight) : Prop where
  scheduler : engine.scheduler.Inv cfg engine.scheduler.running flight.rows
  wf : flight.Wf cfg
  carried : engine.inFlight = none ∧ flight = [] ∨
    engine.inFlight = some (flight.inFlight cfg) ∧ engine.runner = flight.runner cfg

/-- The scheduler as a step's launch finds it. -/
def launchPoint (cfg : Config) (engine : LLMEngine) : Except Fault Scheduler :=
  if cfg.asyncScheduling then .ok engine.scheduler
  else do
    let (engine, _) ← { engine with inFlight := none }.reconcile cfg engine.inFlight
    .ok engine.scheduler

/-- The batch a step's launch prepares. -/
def batch (cfg : Config) (engine : LLMEngine) (env : StepEnv) : Except Fault Scheduler.Batch := do
  let point ← engine.launchPoint cfg
  let (planned, output) ← point.schedule cfg
  let reported ←
    if output.kvConnectorMetadata.isSome then
      planned.updateFromKvConnectorOutput cfg env.kvOutput env.recvOrder
    else .ok planned
  let inputs ← engine.runner.prepareRows reported.heap output.scheduled
  .ok ⟨planned, output, reported, inputs⟩

/-- The sequences whose rows a step reconciles. -/
def reconciledSeqs (cfg : Config) (engine : LLMEngine) (env : StepEnv) :
    Except Fault (List SeqId) :=
  if cfg.asyncScheduling then do
    let (launched, _) ← { engine with inFlight := none }.launch cfg env
    let (_, stepped) ← launched.reconcile cfg engine.inFlight
    .ok stepped
  else do
    let (_, stepped) ← { engine with inFlight := none }.reconcile cfg engine.inFlight
    .ok stepped

/-- The code that prepares a batch, stage by stage. -/
theorem batch_eq {s : Scheduler} {launch : Scheduler.Launch}
    (launches : s.Launches cfg env engine.runner flight launch)
    (point : engine.launchPoint cfg = .ok s) :
    engine.batch cfg env = .ok (launch.batch cfg) := by
  have scheduledEq : (launch.planned.withConnectorMeta cfg launch.output).2.scheduled =
      launch.output.scheduled :=
    (launch.planned.withConnectorMeta_snd cfg (Scheduler.Moves.metadata launches.moves)).2.1
  have updated := launches.updated
  simp only [batch, point, launches.scheduled, bind, Except.bind]
  split at updated
  · rename_i connected
    rw [if_pos connected, updated]
    simp only [scheduledEq, launches.preparedRows, Scheduler.Launch.batch]
  · rename_i isolated
    have same : (launch.planned.withConnectorMeta cfg launch.output).1 = launch.reported :=
      Except.ok.inj updated
    rw [if_neg isolated]
    simp only [scheduledEq, same, launches.preparedRows, Scheduler.Launch.batch]

end LLMEngine

/-- What a step may meet: a model that answers every row, and a connector that
reports loads under way. -/
structure StepEnv.Valid (cfg : Config) (engine : LLMEngine) (env : StepEnv) : Prop where
  answers : env.Answers cfg
  reports : ∀ point s output, engine.launchPoint cfg = .ok point →
    point.schedule cfg = .ok (s, output) → cfg.kvTransfer.isSome → env.Reports s

namespace LLMEngine

variable {cfg : Config} {engine : LLMEngine} {env : StepEnv} {flight : Flight}

/-- What a step returns. -/
def outputs (s : Scheduler) (stepped droppedSeqs : List SeqId) : List (SeqId × RequestOutput) :=
  (stepped.map fun i => (i, output s i)) ++
    (droppedSeqs.filter (· ∉ stepped)).map fun i => (i, dropped s i)

/-- A step reconciles and launches, in the order the mode asks for. -/
inductive Steps (cfg : Config) (env : StepEnv) (s : Scheduler) (runner : ModelRunner)
    (flight : Flight) (launch : Scheduler.Launch) : Scheduler → List SeqId → Prop
  | sync {reconciled : Scheduler} {stepped : List SeqId} (mode : cfg.asyncScheduling = false)
      (reconciles : Scheduler.ReconcilesAll cfg [] s flight.rows flight.tokens (flight.drafts cfg)
        reconciled stepped)
      (settled : reconciled.Inv cfg reconciled.running [])
      (launches : reconciled.Launches cfg env runner [] launch) :
      Steps cfg env s runner flight launch launch.last stepped
  | async {last : Scheduler} {stepped : List SeqId} (mode : cfg.asyncScheduling = true)
      (launches : s.Launches cfg env runner flight launch)
      (reconciles : Scheduler.ReconcilesAll cfg (launch.flight env).rows launch.last flight.rows
        flight.tokens (flight.drafts cfg) last stepped) :
      Steps cfg env s runner flight launch last stepped

/-- The engine at the end of a step. -/
def next (cfg : Config) (engine : LLMEngine) (env : StepEnv) (launch : Scheduler.Launch)
    (last : Scheduler) (stepped : List SeqId) : LLMEngine :=
  { ({ engine with inFlight := none }.launched cfg env launch) with
    scheduler := last
    metrics := engine.metrics.recordStep
      ((outputs last stepped launch.output.dropped).map Prod.snd) }

theorem launched_scheduler (launch : Scheduler.Launch) :
    (engine.launched cfg env launch).scheduler = launch.last := by
  unfold launched
  split <;> rfl

theorem launched_metrics (launch : Scheduler.Launch) :
    (engine.launched cfg env launch).metrics = engine.metrics := by
  unfold launched
  split <;> rfl

/-- After a step only its own launch is in flight. -/
theorem next_inv {launch : Scheduler.Launch} {last : Scheduler} (stepped : List SeqId)
    (wf : (launch.flight env).Wf cfg)
    (idle : launch.output.scheduled = [] → launch.flight env = [])
    (inv : last.Inv cfg last.running (launch.flight env).rows) :
    (engine.next cfg env launch last stepped).Inv cfg (launch.flight env) := by
  refine ⟨inv, wf, ?_⟩
  simp only [next, launched]
  split
  · rename_i none
    exact Or.inl ⟨rfl, idle none⟩
  · exact Or.inr ⟨rfl, rfl⟩

/-- The stages of a step: it succeeds, carries its own launch, and reconciles the
one before, a synchronous step before it launches. -/
theorem step_stages (inv : engine.Inv cfg flight) (valid : env.Valid cfg engine) :
    ∃ launch last stepped,
      engine.step cfg env = .ok (engine.next cfg env launch last stepped,
        outputs last stepped launch.output.dropped) ∧
      Steps cfg env engine.scheduler engine.runner flight launch last stepped ∧
      (engine.next cfg env launch last stepped).Inv cfg (launch.flight env) ∧
      engine.batch cfg env = .ok (launch.batch cfg) ∧
      engine.reconciledSeqs cfg env = .ok stepped ∧
      (cfg.asyncScheduling = false → ∃ point, engine.launchPoint cfg = .ok point ∧
        Scheduler.ReconcilesAll cfg [] engine.scheduler flight.rows flight.tokens
          (flight.drafts cfg) point stepped ∧
        point.Inv cfg point.running [] ∧
        point.Launches cfg env engine.runner [] launch ∧ last = launch.last) := by
  have drains := inv.carried.imp_right And.left
  have device := inv.carried.imp And.right And.right
  cases mode : cfg.asyncScheduling with
  | true =>
      have point : engine.launchPoint cfg = .ok engine.scheduler := by simp [launchPoint, mode]
      obtain ⟨launch, returned, launchEq, _, droppedEq, launches⟩ :=
        launch_spec { engine with inFlight := none } flight inv.scheduler inv.wf device
          valid.answers (fun s output => valid.reports _ s output point)
      obtain ⟨last, stepped, reconciled, reconciles, lastInv⟩ :=
        reconcile_spec ({ engine with inFlight := none }.launched cfg env launch)
          (launch.flight env).rows (by rw [launched_scheduler]; exact launches.inv) inv.wf drains
      rw [launched_scheduler] at reconciles
      refine ⟨launch, last, stepped, ?_, .async mode launches reconciles,
        next_inv stepped launches.wf launches.idle lastInv, batch_eq launches point, ?_,
        fun sync => absurd sync (by simp)⟩
      · simp only [step, mode, if_true, launchEq, reconciled, bind, Except.bind, droppedEq,
          launched_metrics]
        rfl
      · simp only [reconciledSeqs, mode, if_true, launchEq, reconciled, bind, Except.bind]
  | false =>
      obtain ⟨middle, stepped, reconciled, reconciles, middleInv⟩ :=
        reconcile_spec { engine with inFlight := none } [] (by simpa using inv.scheduler) inv.wf
          drains
      have point : engine.launchPoint cfg = .ok middle := by
        simp [launchPoint, mode, reconciled, bind, Except.bind]
      obtain ⟨launch, returned, launchEq, _, droppedEq, launches⟩ :=
        launch_spec { engine with inFlight := none, scheduler := middle } [] middleInv
          (Flight.wf_nil cfg) (Or.inl rfl) valid.answers (fun s output => valid.reports _ s output point)
      refine ⟨launch, launch.last, stepped, ?_, .sync mode reconciles middleInv launches,
        next_inv stepped launches.wf launches.idle launches.inv, batch_eq launches point, ?_,
        fun _ => ⟨middle, point, reconciles, middleInv, launches, rfl⟩⟩
      · simp only [step, mode, Bool.false_eq_true, if_false, launchEq, reconciled, bind,
          Except.bind, droppedEq, launched_metrics, launched_scheduler]
        simp only [next, launched]
        split <;> rfl
      · simp only [reconciledSeqs, mode, Bool.false_eq_true, if_false, reconciled, bind,
          Except.bind]

/-- A step succeeds, carries its own launch, and reconciles the one before. -/
theorem step_reconciles (inv : engine.Inv cfg flight) (valid : env.Valid cfg engine) :
    ∃ launch last stepped,
      engine.step cfg env = .ok (engine.next cfg env launch last stepped,
        outputs last stepped launch.output.dropped) ∧
      Steps cfg env engine.scheduler engine.runner flight launch last stepped ∧
      (engine.next cfg env launch last stepped).Inv cfg (launch.flight env) ∧
      engine.batch cfg env = .ok (launch.batch cfg) ∧
      engine.reconciledSeqs cfg env = .ok stepped := by
  obtain ⟨launch, last, stepped, stepEq, steps, nextInv, batchEq, reconciled, _⟩ :=
    step_stages inv valid
  exact ⟨launch, last, stepped, stepEq, steps, nextInv, batchEq, reconciled⟩

/-- A step succeeds, and carries its own launch. -/
theorem step_spec (inv : engine.Inv cfg flight) (valid : env.Valid cfg engine) :
    ∃ launch last stepped,
      engine.step cfg env = .ok (engine.next cfg env launch last stepped,
        outputs last stepped launch.output.dropped) ∧
      Steps cfg env engine.scheduler engine.runner flight launch last stepped ∧
      (engine.next cfg env launch last stepped).Inv cfg (launch.flight env) ∧
      engine.batch cfg env = .ok (launch.batch cfg) := by
  obtain ⟨launch, last, stepped, stepEq, steps, nextInv, batchEq, _⟩ := step_reconciles inv valid
  exact ⟨launch, last, stepped, stepEq, steps, nextInv, batchEq⟩

end LLMEngine

end LeanVllm
