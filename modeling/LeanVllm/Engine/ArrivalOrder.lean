import LeanVllm.Engine.Finalization
import LeanVllm.Engine.Progress

/-!
# Arrival order

Under `fcfs` and without a connector, the running sequences followed by the
waiting ones stand in the order in which they were added.  `schedule` takes
victims from the right end of `running` and puts them at the left end of the
waiting queue, so the line they form keeps its order; every other operation
only removes a sequence from the line, and `add` appends one.
-/

namespace LeanVllm

open Collections

namespace Scheduler

variable {cfg : Config} {s last : Scheduler} {rows : List LaunchedRow} {i : SeqId}

/-- The running sequences, then the waiting ones. -/
def line (s : Scheduler) : List SeqId :=
  s.running ++ s.waiting

/-! ## One call of `schedule` -/

/-- The newest running sequence moves to the front of the waiting queue. -/
theorem requeue_newest (fcfs : cfg.schedulingPolicy = .fcfs) {victim : SeqId}
    (bm : BlockManager) (distinct : s.running.Nodup)
    (chosen : cfg.schedulingPolicy.victim s.heap s.running = some victim) :
    (s.requeue cfg victim bm).line = s.line := by
  rw [fcfs] at chosen
  obtain ⟨earlier, order⟩ := List.getLast?_eq_some_iff.mp chosen
  have absent : victim ∉ earlier := by
    intro early
    rw [order, List.nodup_append'] at distinct
    exact distinct.2.2 early List.mem_cons_self
  simp only [line, requeue, fcfs, SchedulingPolicy.requeue, order,
    List.erase_append_right _ absent, List.erase_cons_head, List.append_nil, List.append_assoc,
    List.singleton_append]

theorem MakesRoom.line {numLookahead : Nat} {stillRunning : List SeqId}
    {output : SchedulerOutput} {room : Room}
    (makes : MakesRoom cfg i numLookahead s stillRunning output room)
    (fcfs : cfg.schedulingPolicy = .fcfs) (distinct : (i :: s.running).Nodup) :
    (room.active i ++ room.sched.waiting).Sublist
      (stillRunning ++ i :: (s.running ++ s.waiting)) := by
  induction makes with
  | grant fits => simp [Room.active]
  | @preempt s stillRunning output victim bm room short chosen freed rest ih =>
      have later := (List.nodup_cons.mp distinct).2
      have same : (s.requeue cfg victim bm).running ++ (s.requeue cfg victim bm).waiting =
          s.running ++ s.waiting := requeue_newest fcfs bm later chosen
      have moved := ih (distinct.sublist (List.erase_sublist.cons_cons i))
      rwa [same] at moved
  | @giveWay s stillRunning output bm short last others freed =>
      simp [Room.active, requeue, fcfs, SchedulingPolicy.requeue, last]
  | defer short last first alone unsettled => simp [Room.active]
  | @drop s stillRunning output bm short last first alone settled still freed =>
      simp only [Room.active, discard, last, first, List.erase_nil, List.nil_append,
        Bool.false_eq_true, if_false]
      exact List.erase_sublist.trans (List.sublist_cons_self i _)

theorem Serves.line {p p' : Pass} (serves : Serves cfg p i p')
    (fcfs : cfg.schedulingPolicy = .fcfs) (distinct : (i :: p.sched.running).Nodup) :
    (p'.stillRunning ++ p'.sched.line).Sublist
      (p.stillRunning ++ i :: p.sched.line) := by
  cases serves with
  | skip spent => simp [Scheduler.line]
  | limit left reached => simp [Scheduler.line]
  | prefill left below prefill numEq => simp [Scheduler.line, renew, setSeq]
  | @decode left below decoding room bm fresh seq makes granted seqEq appended =>
      have moved := makes.line fcfs distinct
      rw [Room.active, granted, if_pos rfl] at moved
      simpa [Scheduler.line, renew, setSeq] using moved
  | @refuse left below decoding room makes refused =>
      have moved := makes.line fcfs distinct
      rw [Room.active, refused] at moved
      simpa [Scheduler.line, setSeq] using moved

theorem ServesAll.line {p p' : Pass} (serves : ServesAll cfg p p')
    (fcfs : cfg.schedulingPolicy = .fcfs) (distinct : p.sched.running.Nodup) :
    (p'.stillRunning ++ p'.sched.line).Sublist (p.stillRunning ++ p.sched.line) := by
  induction serves with
  | done empty => exact List.Sublist.refl _
  | @turn p next last i rest head serves others ih =>
      rw [head] at distinct
      have frame := serves.frame distinct
      have first := serves.line fcfs distinct
      have second := ih ((List.nodup_cons.mp distinct).2.sublist frame.running)
      refine second.trans ?_
      simpa [Scheduler.line, head] using first

/-- Admission moves the head of the waiting queue behind the running ones. -/
theorem Admits.line {output lastOutput : SchedulerOutput}
    (admits : Admits cfg s output last lastOutput) (isolated : cfg.kvTransfer = none) :
    last.line.Sublist s.line := by
  induction admits with
  | done => exact List.Sublist.refl _
  | @drop s last output lastOutput i rest head others ih =>
      exact ih.trans (List.Sublist.append List.erase_sublist List.erase_sublist)
  | @beginRun s last output lastOutput i rest bm hits fresh params budget head allocates loaded
      ready others ih =>
      simpa [Scheduler.line, enter, head] using ih
  | load head allocates connected =>
      exact absurd connected (by simp [isolated])

theorem Mixes.line {dropped : List SeqId} {p : Pass} {output : SchedulerOutput}
    (mixes : Mixes cfg s dropped p last output) (fcfs : cfg.schedulingPolicy = .fcfs)
    (isolated : cfg.kvTransfer = none) (distinct : s.running.Nodup) :
    last.line.Sublist s.line := by
  have order : cfg.schedulingPolicy.byUrgency s.heap s.running = s.running := by
    rw [fcfs]
    rfl
  have served := mixes.served
  rw [order] at served
  have kept := served.line fcfs distinct
  simp only [Scheduler.line, mixes.empty, List.nil_append] at kept
  exact (mixes.admitted.line isolated).trans kept

/-- `schedule` keeps the order of the line, and adds nobody to it. -/
theorem Schedules.line {output : SchedulerOutput} (schedules : Schedules cfg s last output)
    (fcfs : cfg.schedulingPolicy = .fcfs) (isolated : cfg.kvTransfer = none)
    (inv : s.Inv cfg s.running rows) : last.line.Sublist s.line := by
  cases schedules with
  | mixed chunked mixes => exact mixes.line fcfs isolated inv.active_nodup
  | prompts whole looped admits some => exact admits.line isolated
  | @fallback middle _ found _ p whole looped admits none mixes =>
      have pass := Moves.passInv admits.moves (inv.start [])
      exact (mixes.line fcfs isolated pass.inv.active_nodup).trans (admits.line isolated)

/-! ## The other operations -/

theorem Launches.line {env : StepEnv} {runner : ModelRunner} {flight : Flight} {launch : Launch}
    (launches : s.Launches cfg env runner flight launch) (fcfs : cfg.schedulingPolicy = .fcfs)
    (isolated : cfg.kvTransfer = none) (inv : s.Inv cfg s.running flight.rows) :
    launch.last.line.Sublist s.line := by
  have planned := launches.schedules.line fcfs isolated inv
  obtain ⟨same, _⟩ := launches.advances.frame launches.reported.nodup
  have reported : launch.reported = launch.planned := by
    rcases launches.reports with ⟨_, same⟩ | ⟨connected, _⟩
    · exact same
    · exact absurd connected (by simp [isolated])
  have lineEq : launch.last.line = launch.planned.line := by
    rw [same, reported]
    rfl
  rw [lineEq]
  exact planned

/-- A new request joins the line at its end. -/
theorem enqueue_line (fcfs : cfg.schedulingPolicy = .fcfs) (s : Scheduler) (seq : Sequence) :
    (s.enqueue cfg seq).line = s.line ++ [s.counter] := by
  simp [line, enqueue, fcfs, SchedulingPolicy.add, setSeq]

theorem Ends.line {seq : Sequence} {after : Scheduler} (ends : Ends cfg s i seq after) :
    after.line.Sublist s.line := by
  have frame := ends.frame
  rw [Scheduler.line, frame.running, frame.waiting]
  exact List.Sublist.append List.erase_sublist List.erase_sublist

theorem ReconcilesAll.line {later step : List LaunchedRow} {tokenIds : List (List Token)}
    {drafts : Option (List (List Token))} {stepped : List SeqId}
    (reconciles : ReconcilesAll cfg later s step tokenIds drafts last stepped) :
    last.line.Sublist s.line := by
  induction reconciles with
  | nil => exact List.Sublist.refl _
  | cons inv answer turn nextInv others ih =>
      refine ih.trans ?_
      cases turn with
      | void => exact List.Sublist.refl _
      | commit => exact List.Sublist.refl _
      | stop _ _ _ _ _ _ ends => exact ends.line

end Scheduler

namespace LLMEngine

variable {cfg : Config} {engine : LLMEngine} {flight : Flight}

theorem Steps.line {env : StepEnv} {s last : Scheduler} {runner : ModelRunner}
    {launch : Scheduler.Launch} {stepped : List SeqId}
    (steps : Steps cfg env s runner flight launch last stepped)
    (fcfs : cfg.schedulingPolicy = .fcfs) (isolated : cfg.kvTransfer = none)
    (inv : s.Inv cfg s.running flight.rows) : last.line.Sublist s.line := by
  cases steps with
  | sync mode reconciles settled launches =>
      exact (launches.line fcfs isolated settled).trans reconciles.line
  | async mode launches reconciles =>
      exact reconciles.line.trans (launches.line fcfs isolated inv)

/-- The ids handed to accepted requests, in the order of their `add`. -/
def added (actions : List Action) : List SeqId :=
  actions.flatMap Action.admits

theorem added_snoc (actions : List Action) (action : Action) :
    added (actions ++ [action]) = added actions ++ action.admits := by
  simp [added]

/-- The line stands in order of arrival, and `Sequence.counter` gives out
increasing ids. -/
structure Lined (actions : List Action) (engine : LLMEngine) : Prop where
  increasing : (added actions).Pairwise (· < ·)
  below : ∀ i ∈ added actions, i < engine.scheduler.counter
  ordered : engine.scheduler.line.Sublist (added actions)

/-- An action that admits nobody keeps the order if it keeps the line. -/
theorem Lined.keep {actions : List Action} {action : Action} {next : LLMEngine}
    (lined : Lined actions engine) (nobody : action.admits = [])
    (counter : engine.scheduler.counter ≤ next.scheduler.counter)
    (line : next.scheduler.line.Sublist engine.scheduler.line) :
    Lined (actions ++ [action]) next := by
  constructor
  · rw [added_snoc, nobody, List.append_nil]
    exact lined.increasing
  · intro i member
    rw [added_snoc, nobody, List.append_nil] at member
    exact (lined.below i member).trans_le counter
  · rw [added_snoc, nobody, List.append_nil]
    exact line.trans lined.ordered

theorem Acts.lined {actions : List Action} {action : Action} {next : LLMEngine}
    {flight' : Flight} (acts : Acts cfg engine flight action next flight')
    (fcfs : cfg.schedulingPolicy = .fcfs) (isolated : cfg.kvTransfer = none)
    (inv : engine.Inv cfg flight) (nextInv : next.Inv cfg flight')
    (lined : Lined actions engine) : Lined (actions ++ [action]) next := by
  have balances := acts.balances inv nextInv
  cases acts with
  | step answers steps =>
      exact lined.keep rfl balances.counter (steps.line fcfs isolated inv.scheduler)
  | abort aborts =>
      refine lined.keep (by rfl) balances.counter ?_
      cases aborts with
      | missing absent => exact List.Sublist.refl _
      | abort found ends =>
          rcases ends with ⟨plays, rfl⟩ | ⟨plays, ends⟩
          · exact List.Sublist.refl _
          · exact ends.line
  | add adds =>
      cases adds with
      | refuse fault => exact lined.keep rfl balances.counter (List.Sublist.refl _)
      | duplicate requestId hashes valid known =>
          exact lined.keep rfl balances.counter (List.Sublist.refl _)
      | accept requestId hashes valid isQueued fresh =>
          constructor
          · rw [added_snoc, List.pairwise_append]
            refine ⟨lined.increasing, List.pairwise_singleton _ _, ?_⟩
            intro i early j new
            rw [List.mem_singleton.mp new]
            exact lined.below i early
          · intro i member
            rw [added_snoc, List.mem_append] at member
            rcases member with early | new
            · exact Nat.lt_succ_of_lt (lined.below i early)
            · rw [List.mem_singleton.mp new]
              exact Nat.lt_succ_self _
          · rw [added_snoc, Scheduler.enqueue_line fcfs]
            exact lined.ordered.append_right _

end LLMEngine

end LeanVllm
