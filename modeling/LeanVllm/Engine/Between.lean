import LeanVllm.Engine.EngineRuns

/-!
# Between two operations

A step passes through scheduler states that no step boundary shows: after
`reconcile`, after `schedule`, after a report, after `advance`.  They satisfy
the invariant too, and what every turn of every operation preserves holds in
all of them.
-/

namespace LeanVllm

open Collections

/-- The scheduler of a reachable engine as a launch finds it, with the rows then
in flight: an asynchronous step launches before it reconciles. -/
def Launchable (cfg : Config) (rows : List LaunchedRow) (s : Scheduler) : Prop :=
  ∃ engine, LLMEngine.Reachable cfg engine ∧ engine.launchPoint cfg = .ok s ∧
    rows = if cfg.asyncScheduling then engine.rows else []

/-- A batch is scheduled and not yet launched: `schedule` returned, and the
connector's report may have been taken. -/
inductive Scheduled (cfg : Config) (rows : List LaunchedRow) :
    Scheduler → SchedulerOutput → Prop
  | planned {point s : Scheduler} {output : SchedulerOutput}
      (launchable : Launchable cfg rows point)
      (scheduled : point.schedule cfg = .ok (s, output)) : Scheduled cfg rows s output
  | reported {point planned s : Scheduler} {output : SchedulerOutput} {env : StepEnv}
      (launchable : Launchable cfg rows point)
      (scheduled : point.schedule cfg = .ok (planned, output))
      (connected : cfg.kvTransfer.isSome) (reports : env.Reports planned)
      (updated : planned.updateFromKvConnectorOutput cfg env.kvOutput env.recvOrder = .ok s) :
      Scheduled cfg rows s output

/-- A scheduler state between two scheduler operations of a run. -/
inductive Between (cfg : Config) : Scheduler → Prop
  | boundary {engine : LLMEngine} (reachable : LLMEngine.Reachable cfg engine) :
      Between cfg engine.scheduler
  | launching {rows : List LaunchedRow} {s : Scheduler} (launchable : Launchable cfg rows s) :
      Between cfg s
  | scheduled {rows : List LaunchedRow} {s : Scheduler} {output : SchedulerOutput}
      (scheduled : Scheduled cfg rows s output) : Between cfg s
  | advanced {rows launched : List LaunchedRow} {s last : Scheduler} {output : SchedulerOutput}
      (scheduled : Scheduled cfg rows s output)
      (advanced : s.advance cfg output.scheduled = .ok (last, launched)) : Between cfg last

variable {cfg : Config} {rows : List LaunchedRow} {s : Scheduler} {output : SchedulerOutput}

/-- A launch finds the engine's scheduler, or what `reconcile` left of it. -/
theorem Launchable.cases (launchable : Launchable cfg rows s) :
    ∃ engine flight, LLMEngine.Reachable cfg engine ∧ engine.Inv cfg flight ∧
      s.Inv cfg s.running rows ∧
      (s = engine.scheduler ∨ ∃ stepped, Scheduler.ReconcilesAll cfg [] engine.scheduler
        flight.rows flight.tokens (flight.drafts cfg) s stepped) := by
  obtain ⟨engine, reachable, point, rfl⟩ := launchable
  obtain ⟨flight, inv⟩ := reachable.inv
  unfold LLMEngine.launchPoint at point
  cases mode : cfg.asyncScheduling with
  | true =>
      rw [if_pos mode] at point
      obtain rfl := Except.ok.inj point
      refine ⟨engine, flight, reachable, inv, ?_, Or.inl rfl⟩
      rw [if_pos rfl, inv.rows_eq]
      exact inv.scheduler
  | false =>
      obtain ⟨last, stepped, reconciled, reconciles, lastInv⟩ :=
        LLMEngine.reconcile_spec { engine with inFlight := none } []
          (by simpa using inv.scheduler) inv.wf (inv.carried.imp_right And.left)
      simp only [mode, Bool.false_eq_true, if_false, reconciled, bind, Except.bind] at point
      obtain rfl := Except.ok.inj point
      exact ⟨engine, flight, reachable, inv, lastInv, Or.inr ⟨stepped, reconciles⟩⟩

theorem Launchable.inv (launchable : Launchable cfg rows s) : s.Inv cfg s.running rows := by
  obtain ⟨_, _, _, _, inv, _⟩ := launchable.cases
  exact inv

/-- A scheduled batch is ready to launch. -/
theorem Scheduled.passInv (scheduled : Scheduled cfg rows s output) :
    Scheduler.PassInv cfg (s, output) rows := by
  cases scheduled with
  | planned launchable scheduled => exact Scheduler.schedule_passInv launchable.inv scheduled
  | reported launchable scheduled connected reports updated =>
      obtain ⟨_, _, updatedEq, _, _, pass⟩ :=
        (Scheduler.schedule_passInv launchable.inv scheduled).update reports
      obtain rfl := Except.ok.inj (updatedEq.symm.trans updated)
      exact pass

theorem Between.inv (between : Between cfg s) : ∃ rows, s.Inv cfg s.running rows := by
  cases between with
  | boundary reachable =>
      obtain ⟨flight, inv⟩ := reachable.inv
      exact ⟨flight.rows, inv.scheduler⟩
  | launching launchable => exact ⟨_, launchable.inv⟩
  | scheduled scheduled => exact ⟨_, scheduled.passInv.inv⟩
  | @advanced rows _ _ _ _ scheduled advanced =>
      have pass := scheduled.passInv
      obtain ⟨last, launched, advancedEq, advances, lastInv⟩ :=
        Scheduler.advance_spec pass.inv pass.nodup pass.running pass.ready
      obtain ⟨rfl, rfl⟩ := Prod.mk.inj (Except.ok.inj (advancedEq.symm.trans advanced))
      have running := (advances.frame pass.nodup).1
      refine ⟨rows ++ launched, ?_⟩
      rw [running] at lastInv ⊢
      exact lastInv

/-! ## What every operation preserves -/

/-- Each turn of each operation preserves `holds`. -/
structure Stable (cfg : Config) (holds : Scheduler → Prop) : Prop where
  move : ∀ {rows before after}, Scheduler.PassInv cfg before rows →
    Scheduler.Move cfg before after → holds before.1 → holds after.1
  handOver : ∀ {s : Scheduler} (connector : NixlConnectorScheduler), holds s →
    holds { s with connector := connector }
  release : ∀ {s : Scheduler} {active rows requestId i bm}, s.Inv cfg active rows →
    s.sending.lookup requestId = some i → holds s → holds (s.endHold i (s.heap i).released bm)
  receive : ∀ {s : Scheduler} {rows finishedRecving requestId after},
    s.Inv cfg s.running rows → Scheduler.Receives cfg s finishedRecving requestId after →
    holds s → holds after
  advance : ∀ {s : Scheduler} {active rows i n bm}, s.Inv cfg active rows → i ∈ active →
    (s.heap i).Ready cfg →
    BlockManager.Publishes cfg (s.heap i) (s.heap i).numPublishedBlocks n s.blockManager bm →
    holds s → holds (s.renew i ((s.heap i).advanced cfg n) bm)
  reconcile : ∀ {s : Scheduler} {rows row tokens drafts after processed},
    s.Inv cfg s.running (row :: rows) →
    Scheduler.Reconciles cfg s row tokens drafts after processed → holds s → holds after
  cancel : ∀ {s : Scheduler} {active rows i} (reason : FinishReason),
    s.Plays cfg active rows i .loading → holds s →
    holds (s.cancel i
      { s.heap i with
        status := .finished
        finishReason := some reason })
  ends : ∀ {s : Scheduler} {rows i reason after}, s.Inv cfg s.running rows →
    s.Plays cfg s.running rows i .queued ∨ s.Plays cfg s.running rows i .active →
    Scheduler.Ends cfg s i ((s.heap i).closed reason) after → holds s → holds after
  forget : ∀ {s : Scheduler} {rows} (seq : Sequence), s.Inv cfg s.running rows →
    seq.blockTable = [] → holds s → holds { s.setSeq s.counter seq with counter := s.counter + 1 }
  enqueue : ∀ {s : Scheduler} {rows} {seq : Sequence}, s.Inv cfg s.running rows →
    seq.Queued cfg → holds s → holds (s.enqueue cfg seq)

/-- Each call of `schedule` and each turn of the other operations preserves
`holds`: the rule for properties that do not survive every single move. -/
structure Kept (cfg : Config) (holds : Scheduler → Prop) : Prop where
  schedule : ∀ {rows s last output}, s.Inv cfg s.running rows →
    Scheduler.Schedules cfg s last output → Scheduler.Moves cfg (s, {}) (last, output) →
    holds s → holds last
  handOver : ∀ {s : Scheduler} (connector : NixlConnectorScheduler), holds s →
    holds { s with connector := connector }
  release : ∀ {s : Scheduler} {active rows requestId i bm}, s.Inv cfg active rows →
    s.sending.lookup requestId = some i → holds s → holds (s.endHold i (s.heap i).released bm)
  receive : ∀ {s : Scheduler} {rows finishedRecving requestId after},
    s.Inv cfg s.running rows → Scheduler.Receives cfg s finishedRecving requestId after →
    holds s → holds after
  advance : ∀ {s : Scheduler} {active rows i n bm}, s.Inv cfg active rows → i ∈ active →
    (s.heap i).Ready cfg →
    BlockManager.Publishes cfg (s.heap i) (s.heap i).numPublishedBlocks n s.blockManager bm →
    holds s → holds (s.renew i ((s.heap i).advanced cfg n) bm)
  reconcile : ∀ {s : Scheduler} {rows row tokens drafts after processed},
    s.Inv cfg s.running (row :: rows) → Scheduler.Answers row tokens →
    row.numDraftTokens ≤ cfg.numSpeculativeTokens →
    Scheduler.Reconciles cfg s row tokens drafts after processed → holds s → holds after
  cancel : ∀ {s : Scheduler} {active rows i} (reason : FinishReason),
    s.Plays cfg active rows i .loading → holds s →
    holds (s.cancel i
      { s.heap i with
        status := .finished
        finishReason := some reason })
  ends : ∀ {s : Scheduler} {rows i reason after}, s.Inv cfg s.running rows →
    s.Plays cfg s.running rows i .queued ∨ s.Plays cfg s.running rows i .active →
    Scheduler.Ends cfg s i ((s.heap i).closed reason) after → holds s → holds after
  forget : ∀ {s : Scheduler} {rows} (seq : Sequence), s.Inv cfg s.running rows →
    seq.numPromptTokens + seq.maxTokens ≤ cfg.maxModelLen → seq.blockTable = [] → holds s →
    holds { s.setSeq s.counter seq with counter := s.counter + 1 }
  enqueue : ∀ {s : Scheduler} {rows} {seq : Sequence}, s.Inv cfg s.running rows →
    seq.numPromptTokens + seq.maxTokens ≤ cfg.maxModelLen → seq.Queued cfg → holds s →
    holds (s.enqueue cfg seq)

/-- Each launch as a whole, and each turn of the other operations, preserves
`holds`: the rule for properties that a batch scheduled and not yet launched may
break. -/
structure Rests (cfg : Config) (holds : Scheduler → Prop) : Prop where
  launch : ∀ {s : Scheduler} {env runner flight launch},
    s.Launches cfg env runner flight launch → s.Inv cfg s.running flight.rows → holds s →
    holds launch.last
  reconcile : ∀ {s : Scheduler} {rows row tokens drafts after processed},
    s.Inv cfg s.running (row :: rows) → Scheduler.Answers row tokens →
    row.numDraftTokens ≤ cfg.numSpeculativeTokens →
    Scheduler.Reconciles cfg s row tokens drafts after processed → holds s → holds after
  cancel : ∀ {s : Scheduler} {active rows i} (reason : FinishReason),
    s.Plays cfg active rows i .loading → holds s →
    holds (s.cancel i
      { s.heap i with
        status := .finished
        finishReason := some reason })
  ends : ∀ {s : Scheduler} {rows i reason after}, s.Inv cfg s.running rows →
    s.Plays cfg s.running rows i .queued ∨ s.Plays cfg s.running rows i .active →
    Scheduler.Ends cfg s i ((s.heap i).closed reason) after → holds s → holds after
  forget : ∀ {s : Scheduler} {rows} (seq : Sequence), s.Inv cfg s.running rows →
    seq.numPromptTokens + seq.maxTokens ≤ cfg.maxModelLen → seq.blockTable = [] → holds s →
    holds { s.setSeq s.counter seq with counter := s.counter + 1 }
  enqueue : ∀ {s : Scheduler} {rows} {seq : Sequence}, s.Inv cfg s.running rows →
    seq.numPromptTokens + seq.maxTokens ≤ cfg.maxModelLen → seq.Queued cfg → holds s →
    holds (s.enqueue cfg seq)

variable {holds : Scheduler → Prop} {last : Scheduler}

theorem Stable.moves (stable : Stable cfg holds) {before after : Scheduler × SchedulerOutput}
    (pass : Scheduler.PassInv cfg before rows) (moves : Scheduler.Moves cfg before after)
    (held : holds before.1) : holds after.1 :=
  Scheduler.Moves.keep holds stable.move moves pass held

theorem Stable.kept (stable : Stable cfg holds) : Kept cfg holds where
  schedule inv _ moves held := stable.moves (inv.start []) moves held
  handOver := stable.handOver
  release := stable.release
  receive := stable.receive
  advance := stable.advance
  reconcile inv _ _ turn held := stable.reconcile inv turn held
  cancel := stable.cancel
  ends := stable.ends
  forget seq inv _ table held := stable.forget seq inv table held
  enqueue inv _ isQueued held := stable.enqueue inv isQueued held

namespace Kept

theorem releases (kept : Kept cfg holds) {active : List SeqId}
    {finishedSending : List RequestId}
    (releases : Scheduler.Releases cfg active rows s finishedSending last) (held : holds s) :
    holds last := by
  induction releases with
  | nil => exact held
  | skip absent others ih => exact ih held
  | release inv found freed next others ih => exact ih (kept.release inv found held)

theorem receives (kept : Kept cfg holds) {finishedRecving order : List RequestId}
    (receives : Scheduler.ReceivesAll cfg rows finishedRecving s order last) (held : holds s) :
    holds last := by
  induction receives with
  | nil => exact held
  | cons inv turn nextInv others ih => exact ih (kept.receive inv turn held)

theorem advances (kept : Kept cfg holds) {active seqs : List SeqId}
    {launched : List LaunchedRow}
    (advances : Scheduler.Advances cfg active rows s seqs last launched) (held : holds s) :
    holds last := by
  induction advances with
  | nil => exact held
  | cons inv member ready publishes next others ih =>
      exact ih (kept.advance inv member ready publishes held)

theorem reported (kept : Kept cfg holds) {env : StepEnv} {runner : ModelRunner}
    {flight : Flight} {launch : Scheduler.Launch}
    (launches : s.Launches cfg env runner flight launch) (inv : s.Inv cfg s.running flight.rows)
    (held : holds s) : holds launch.reported := by
  have planned : holds launch.planned :=
    kept.schedule inv launches.schedules launches.moves held
  rcases launches.reports with ⟨_, same⟩ | ⟨_, middle, releases, receives⟩
  · rw [same]
    exact planned
  · exact kept.receives receives (kept.releases releases (kept.handOver _ planned))

theorem launches (kept : Kept cfg holds) {env : StepEnv} {runner : ModelRunner}
    {flight : Flight} {launch : Scheduler.Launch}
    (launches : s.Launches cfg env runner flight launch) (inv : s.Inv cfg s.running flight.rows)
    (held : holds s) : holds launch.last :=
  kept.advances launches.advances (kept.reported launches inv held)

theorem rests (kept : Kept cfg holds) : Rests cfg holds where
  launch launches inv held := kept.launches launches inv held
  reconcile := kept.reconcile
  cancel := kept.cancel
  ends := kept.ends
  forget := kept.forget
  enqueue := kept.enqueue

end Kept

namespace Rests

theorem reconciles (rests : Rests cfg holds) {later step : List LaunchedRow}
    {tokenIds : List (List Token)} {drafts : Option (List (List Token))} {stepped : List SeqId}
    (reconciles : Scheduler.ReconcilesAll cfg later s step tokenIds drafts last stepped)
    (short : ∀ row ∈ step, row.numDraftTokens ≤ cfg.numSpeculativeTokens) (held : holds s) :
    holds last := by
  induction reconciles with
  | nil => exact held
  | cons inv answer turn nextInv others ih =>
      refine ih (fun row member => short row (List.mem_cons_of_mem _ member)) ?_
      exact rests.reconcile inv answer (short _ List.mem_cons_self) turn held

theorem steps (rests : Rests cfg holds) {env : StepEnv} {runner : ModelRunner} {flight : Flight}
    {launch : Scheduler.Launch} {stepped : List SeqId}
    (steps : LLMEngine.Steps cfg env s runner flight launch last stepped)
    (inv : s.Inv cfg s.running flight.rows) (wf : flight.Wf cfg) (held : holds s) :
    holds last := by
  cases steps with
  | sync mode reconciles settled launches =>
      exact rests.launch launches settled (rests.reconciles reconciles wf.rows_short held)
  | async mode launches reconciles =>
      exact rests.reconciles reconciles wf.rows_short (rests.launch launches inv held)

theorem acts (rests : Rests cfg holds) {engine next : LLMEngine} {flight flight' : Flight}
    {action : LLMEngine.Action} (acts : LLMEngine.Acts cfg engine flight action next flight')
    (inv : engine.Inv cfg flight) (held : holds engine.scheduler) : holds next.scheduler := by
  cases acts with
  | add adds =>
      cases adds with
      | refuse fault => exact held
      | duplicate requestId hashes valid known =>
          exact rests.forget _ inv.scheduler (LLMEngine.within_of_validateRequest valid) rfl held
      | accept requestId hashes valid isQueued fresh =>
          exact rests.enqueue inv.scheduler (LLMEngine.within_of_validateRequest valid) isQueued held
  | abort aborts =>
      cases aborts with
      | missing absent => exact held
      | abort found ends =>
          rcases ends with ⟨plays, rfl⟩ | ⟨plays, ends⟩
          · exact rests.cancel _ plays held
          · exact rests.ends inv.scheduler plays ends held
  | step answers steps => exact rests.steps steps inv.scheduler inv.wf held

theorem reachable (rests : Rests cfg holds) (initially : holds (Scheduler.create cfg))
    {engine : LLMEngine} (reachable : LLMEngine.Reachable cfg engine) :
    holds engine.scheduler := by
  obtain ⟨actions, run⟩ := reachable
  obtain ⟨_, _, held⟩ := LLMEngine.Run.invariant (fun _ => True)
    (fun _ engine _ => holds engine.scheduler) initially
    (fun _ _ _ _ _ _ inv held _ acts _ => rests.acts acts inv held) run fun _ _ => trivial
  exact held

theorem launchable (rests : Rests cfg holds) (initially : holds (Scheduler.create cfg))
    (launchable : Launchable cfg rows s) : holds s := by
  obtain ⟨engine, flight, reachable, inv, _, same | ⟨stepped, reconciles⟩⟩ := launchable.cases
  · rw [same]
    exact rests.reachable initially reachable
  · exact rests.reconciles reconciles inv.wf.rows_short (rests.reachable initially reachable)

end Rests

namespace Kept

theorem schedule_ok (kept : Kept cfg holds) {output : SchedulerOutput}
    (inv : s.Inv cfg s.running rows) (scheduled : s.schedule cfg = .ok (last, output))
    (held : holds s) : holds last := by
  obtain ⟨planned, plan, scheduledEq, schedules, moves⟩ := Scheduler.schedule_spec inv
  have planned' : holds planned := kept.schedule inv schedules moves held
  have lastEq : (planned.withConnectorMeta cfg plan).1 = last :=
    congrArg Prod.fst (Except.ok.inj (scheduledEq.symm.trans scheduled))
  rw [← lastEq, planned.withConnectorMeta_fst, Scheduler.handedOver]
  split
  · exact kept.handOver _ planned'
  · exact planned'

theorem scheduled (kept : Kept cfg holds) (initially : holds (Scheduler.create cfg))
    {output : SchedulerOutput} (scheduled : Scheduled cfg rows s output) : holds s := by
  cases scheduled with
  | planned launchable scheduled =>
      exact kept.schedule_ok launchable.inv scheduled (kept.rests.launchable initially launchable)
  | reported launchable scheduled connected reports updated =>
      obtain ⟨_, _, updatedEq, releases, receives, _⟩ :=
        (Scheduler.schedule_passInv launchable.inv scheduled).update reports
      obtain rfl := Except.ok.inj (updatedEq.symm.trans updated)
      exact kept.receives receives (kept.releases releases
        (kept.schedule_ok launchable.inv scheduled (kept.rests.launchable initially launchable)))

/-- What every operation preserves holds between any two operations. -/
theorem between (kept : Kept cfg holds) (initially : holds (Scheduler.create cfg))
    (between : Between cfg s) : holds s := by
  cases between with
  | boundary reachable => exact kept.rests.reachable initially reachable
  | launching launchable => exact kept.rests.launchable initially launchable
  | scheduled scheduled => exact kept.scheduled initially scheduled
  | advanced scheduled advanced =>
      have pass := scheduled.passInv
      obtain ⟨last, launched, advancedEq, advances, _⟩ :=
        Scheduler.advance_spec pass.inv pass.nodup pass.running pass.ready
      obtain ⟨rfl, _⟩ := Prod.mk.inj (Except.ok.inj (advancedEq.symm.trans advanced))
      exact kept.advances advances (kept.scheduled initially scheduled)

end Kept

/-! ## Inside a scheduling pass -/

/-- A scheduler state of a run: between two operations, or between two moves of
a scheduling pass. -/
inductive Visited (cfg : Config) : Scheduler → Prop
  | between {s : Scheduler} (between : Between cfg s) : Visited cfg s
  | passing {rows : List LaunchedRow} {point s : Scheduler} {output : SchedulerOutput}
      (launchable : Launchable cfg rows point)
      (moves : Scheduler.Moves cfg (point, {}) (s, output)) : Visited cfg s

theorem Visited.inv (visited : Visited cfg s) : ∃ rows, s.Inv cfg s.running rows := by
  cases visited with
  | between between => exact between.inv
  | passing launchable moves => exact ⟨_, (moves.passInv (launchable.inv.start [])).inv⟩

theorem Stable.visited (stable : Stable cfg holds) (initially : holds (Scheduler.create cfg))
    (visited : Visited cfg s) : holds s := by
  cases visited with
  | between between => exact stable.kept.between initially between
  | passing launchable moves =>
      exact stable.moves (launchable.inv.start []) moves
        (stable.kept.rests.launchable initially launchable)

end LeanVllm
