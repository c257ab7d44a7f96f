import LeanVllm.Engine.Queues
import LeanVllm.Engine.Records

/-!
# Exactly-once finalization

A request leaves the live map when it ends, and whatever removes it says so
once: `reconcile` processes its row, `schedule` reports it as dropped, or an
abort returns true.  Counting ends against the live map makes the request
counters add up.
-/

namespace LeanVllm

open Collections

namespace Scheduler

open Sequence

variable {cfg : Config} {s middle last : Scheduler} {rows : List LaunchedRow} {i : SeqId}

/-- From `s` to `last` exactly the requests `gone` leave the live map, and they
are finished. -/
structure Retires (s last : Scheduler) (gone : List SeqId) : Prop where
  live : s.seqs.values.Perm (gone ++ last.seqs.values)
  finished : ∀ i ∈ gone, (last.heap i).status = .finished
  counter : last.counter = s.counter

theorem Retires.of_same (same : last.seqs = s.seqs ∧ last.counter = s.counter) :
    Retires s last [] :=
  ⟨by rw [same.1]; rfl, by simp, same.2⟩

theorem Retires.trans {gone more : List SeqId} (left : Retires s middle gone)
    (right : Retires middle last more)
    (evolves : ∀ i, Evolves (middle.heap i) (last.heap i)) : Retires s last (gone ++ more) where
  live := by
    rw [List.append_assoc]
    exact left.live.trans (right.live.append_left gone)
  finished i member := by
    rcases List.mem_append.mp member with early | late
    · exact ((evolves i).finished (left.finished i early)).1
    · exact right.finished i late
  counter := right.counter.trans left.counter

/-- Removing a live request. -/
theorem Retires.erase (live : s.seqs.lookup (s.heap i).requestId = some i)
    (seqs : last.seqs = s.seqs.erase (s.heap i).requestId)
    (finished : (last.heap i).status = .finished) (counter : last.counter = s.counter) :
    Retires s last [i] where
  live := by
    rw [seqs]
    exact Dict.values_perm_erase live
  finished j member := by
    rw [List.mem_singleton.mp member]
    exact finished
  counter := counter

/-- A pass retires what it drops. -/
theorem Moves.retires {before after : Scheduler × SchedulerOutput} (moves : Moves cfg before after)
    (pass : PassInv cfg before rows) :
    ∃ gone, after.2.dropped = before.2.dropped ++ gone ∧ Retires before.1 after.1 gone := by
  induction moves with
  | refl => exact ⟨[], by simp, .of_same ⟨rfl, rfl⟩⟩
  | @tail middle last earlier move ih =>
      obtain ⟨gone, droppedEq, retires⟩ := ih
      have middlePass := Moves.passInv earlier pass
      obtain ⟨more, more_eq, retires'⟩ : ∃ more, last.2.dropped = middle.2.dropped ++ more ∧
          Retires middle.1 last.1 more := by
        cases move with
        | @dropRunning s output i bm member idle settled freed =>
            refine ⟨[i], rfl, .erase (middlePass.inv.running member).2.2.1.1 rfl ?_ rfl⟩
            exact congrArg Sequence.status (setSeq_heap_self s i _)
        | @dropWaiting s output i head =>
            refine ⟨[i], rfl,
              .erase (middlePass.inv.queued (List.mem_of_mem_head? head)).2.2.1.1 rfl ?_ rfl⟩
            exact congrArg Sequence.status (setSeq_heap_self s i _)
        | _ => exact ⟨[], by simp [SchedulerOutput.withScheduled, SchedulerOutput.withQueried],
            .of_same ⟨rfl, rfl⟩⟩
      refine ⟨gone ++ more, ?_, retires.trans retires' fun i => move.evolves middlePass i⟩
      rw [more_eq, droppedEq, List.append_assoc]

theorem Releases.live_eq {active : List SeqId} {finishedSending : List RequestId}
    (releases : Releases cfg active rows s finishedSending last) :
    last.seqs = s.seqs ∧ last.counter = s.counter := by
  induction releases with
  | nil => exact ⟨rfl, rfl⟩
  | skip absent others ih => exact ih
  | release inv found freed next others ih => exact ih

theorem ReceivesAll.live_eq {finishedRecving order : List RequestId}
    (receives : ReceivesAll cfg rows finishedRecving s order last) :
    last.seqs = s.seqs ∧ last.counter = s.counter := by
  induction receives with
  | nil => exact ⟨rfl, rfl⟩
  | cons inv turn nextInv others ih =>
      rw [ih.1, ih.2]
      cases turn <;> exact ⟨rfl, rfl⟩

theorem Advances.live_eq {active seqs : List SeqId} {launched : List LaunchedRow}
    (advances : Advances cfg active rows s seqs last launched) :
    last.seqs = s.seqs ∧ last.counter = s.counter := by
  induction advances with
  | nil => exact ⟨rfl, rfl⟩
  | cons inv member ready publishes next others ih => exact ih

/-- A launch retires what it drops. -/
theorem Launches.retires {env : StepEnv} {runner : ModelRunner} {flight : Flight}
    {launch : Launch} (launches : s.Launches cfg env runner flight launch)
    (inv : s.Inv cfg s.running flight.rows) : Retires s launch.last launch.output.dropped := by
  obtain ⟨gone, droppedEq, retires⟩ := Moves.retires launches.moves (inv.start [])
  have reported : launch.reported.seqs = launch.planned.seqs ∧
      launch.reported.counter = launch.planned.counter := by
    rcases launches.reports with ⟨_, same⟩ | ⟨_, middle, releases, receives⟩
    · rw [same]
      exact ⟨rfl, rfl⟩
    · rw [receives.live_eq.1, receives.live_eq.2]
      exact releases.live_eq
  have advanced := launches.advances.live_eq
  have whole := retires.trans
    (.of_same ⟨advanced.1.trans reported.1, advanced.2.trans reported.2⟩) fun i => (launches.reported_evolves i).trans (launches.advances.evolves i)
  rw [List.append_nil] at whole
  rw [droppedEq]
  exact whole

/-- A processed row belongs to a live request, which it may end. -/
theorem Reconciles.retires {row : LaunchedRow} {tokens : List Token}
    {drafts : Option (List (List Token))} {after : Scheduler} {processed : Bool}
    (turn : Reconciles cfg s row tokens drafts after processed)
    (inv : s.Inv cfg s.running (row :: rows)) :
    ∃ gone, gone.Sublist (if processed then [row.seq] else []) ∧ Retires s after gone ∧
      (processed = true → row.seq ∈ s.seqs.values) := by
  cases turn with
  | void => exact ⟨[], List.nil_sublist _, .of_same ⟨rfl, rfl⟩, by simp⟩
  | commit lives member =>
      exact ⟨[], List.nil_sublist _, .of_same ⟨rfl, rfl⟩, fun _ =>
        Dict.mem_values_iff.mpr ⟨_, (inv.running member).2.2.1.1⟩⟩
  | stop lives member split below clean cause ends =>
      have live := (inv.running member).2.2.1.1
      exact ⟨[row.seq], List.Sublist.refl _,
        .erase live ends.frame.seqs ends.frame.status ends.frame.counter, fun _ =>
        Dict.mem_values_iff.mpr ⟨_, live⟩⟩

/-- `reconcile` processes live requests, and retires some of them. -/
theorem ReconcilesAll.retires {later step : List LaunchedRow} {tokenIds : List (List Token)}
    {drafts : Option (List (List Token))} {stepped : List SeqId}
    (reconciles : ReconcilesAll cfg later s step tokenIds drafts last stepped) :
    stepped.Sublist (step.map LaunchedRow.seq) ∧ (∀ i ∈ stepped, i ∈ s.seqs.values) ∧
      ∃ gone, gone.Sublist stepped ∧ Retires s last gone := by
  induction reconciles with
  | nil => exact ⟨List.Sublist.refl _, by simp, [], List.Sublist.refl _, .of_same ⟨rfl, rfl⟩⟩
  | @cons s next last row step tokens tokenIds drafts processed stepped inv answer turn nextInv
      others ih =>
      obtain ⟨among, live, gone, goneAmong, retires⟩ := ih
      obtain ⟨first, firstAmong, firstRetires, firstLive⟩ := turn.retires inv
      have still : ∀ i ∈ stepped, i ∈ s.seqs.values := fun i member =>
        firstRetires.live.symm.subset (List.mem_append_right _ (live i member))
      have whole := firstRetires.trans retires others.evolves
      cases processed with
      | false =>
          simp only [Bool.false_eq_true, if_false, List.sublist_nil] at firstAmong ⊢
          subst firstAmong
          exact ⟨among.cons _, still, gone, goneAmong, whole⟩
      | true =>
          simp only [if_true] at firstAmong ⊢
          refine ⟨among.cons_cons _, ?_, first ++ gone, firstAmong.append goneAmong, whole⟩
          intro i member
          rcases List.mem_cons.mp member with rfl | member
          · exact firstLive rfl
          · exact still i member

end Scheduler

namespace Metrics

/-- The requests counted as finished, for whatever reason. -/
def totalFinished (metrics : Metrics) : Nat :=
  metrics.requestsFinished.values.sum

theorem totalFinished_recordFinished (metrics : Metrics) (output : RequestOutput) :
    (metrics.recordFinished output).totalFinished = metrics.totalFinished + 1 := by
  simp only [totalFinished, recordFinished]
  cases found : metrics.requestsFinished.lookup output.finishReason with
  | none =>
      rw [Dict.values_insert_of_lookup_eq_none _ found]
      simp [Nat.add_comm]
  | some n =>
      rw [(Dict.values_perm_erase found).sum_nat, Dict.values_insert, List.sum_cons, List.sum_cons,
        Option.getD_some]
      exact Nat.add_right_comm _ _ _

/-- A step counts the requests it finished and touches no other counter. -/
theorem recordStep_counts (metrics : Metrics) (outputs : List RequestOutput) :
    (metrics.recordStep outputs).totalFinished =
        metrics.totalFinished + (outputs.filter RequestOutput.finished).length ∧
      (metrics.recordStep outputs).requestsReceived = metrics.requestsReceived ∧
      (metrics.recordStep outputs).requestsAborted = metrics.requestsAborted := by
  induction outputs generalizing metrics with
  | nil => exact ⟨rfl, rfl, rfl⟩
  | cons output outputs ih =>
      rw [recordStep, List.foldl_cons, ← recordStep]
      cases finished : output.finished with
      | false =>
          simpa [finished] using ih metrics
      | true =>
          obtain ⟨total, received, aborted⟩ := ih (metrics.recordFinished output)
          rw [totalFinished_recordFinished] at total
          simp only [if_true, List.filter_cons_of_pos finished, List.length_cons]
          exact ⟨by omega, received, aborted⟩

/-- An abort counts once, as a cancel or as a finish. -/
theorem recordAborted_counts (metrics : Metrics) (output : RequestOutput) :
    (metrics.recordAborted output).totalFinished + (metrics.recordAborted output).requestsAborted =
        metrics.totalFinished + metrics.requestsAborted + 1 ∧
      (metrics.recordAborted output).requestsReceived = metrics.requestsReceived := by
  unfold recordAborted
  split
  · exact ⟨rfl, rfl⟩
  · rw [totalFinished_recordFinished]
    exact ⟨Nat.add_right_comm _ _ _, rfl⟩

end Metrics

namespace LLMEngine

variable {cfg : Config} {engine : LLMEngine} {flight : Flight}

/-! ## Steps -/

/-- The sequences a step's outputs say are finished. -/
def finishedIn (outputs : List (SeqId × RequestOutput)) : List SeqId :=
  (outputs.filter fun output => output.2.finished).map Prod.fst

/-- A step speaks once of each request it mentions, all of them live before,
and its finished outputs are those that leave the live map. -/
structure Settles (s last : Scheduler) (outputs : List (SeqId × RequestOutput)) : Prop where
  nodup : (outputs.map Prod.fst).Nodup
  live : ∀ i ∈ outputs.map Prod.fst, i ∈ s.seqs.values
  named : ∀ output ∈ outputs, output.2.requestId = (last.heap output.1).requestId
  told : ∀ output ∈ outputs, output.2.finished = (last.heap output.1).isFinished ∧
    output.2.finishReason = (last.heap output.1).finishReason
  ends : s.seqs.values.Perm (finishedIn outputs ++ last.seqs.values)
  counter : last.counter = s.counter

theorem finishedIn_outputs (last : Scheduler) (stepped droppedSeqs : List SeqId) :
    finishedIn (outputs last stepped droppedSeqs) =
      (stepped.filter fun i => (last.heap i).isFinished) ++ droppedSeqs.filter (· ∉ stepped) := by
  simp [finishedIn, outputs, output, dropped, List.filter_map, Function.comp_def]

theorem map_fst_outputs (last : Scheduler) (stepped droppedSeqs : List SeqId) :
    (outputs last stepped droppedSeqs).map Prod.fst =
      stepped ++ droppedSeqs.filter (· ∉ stepped) := by
  simp [outputs, Function.comp_def]

/-- The requests that leave in a step are those it processed to the end and
those it dropped. -/
theorem settles_of_retires {s last : Scheduler} {stepped droppedSeqs gone : List SeqId}
    {rows later : List LaunchedRow} (inv : s.Inv cfg s.running rows)
    (lastInv : last.Inv cfg last.running later) (distinct : stepped.Nodup)
    (live : ∀ i ∈ stepped, i ∈ s.seqs.values) (retires : s.Retires last gone)
    (dropped : droppedSeqs.Sublist gone) (among : ∀ i ∈ gone, i ∈ droppedSeqs ∨ i ∈ stepped) :
    Settles s last (outputs last stepped droppedSeqs) := by
  have leaving : (gone ++ last.seqs.values).Nodup :=
    retires.live.nodup_iff.mp inv.seqs_nodup
  have goneNodup := (List.nodup_append'.mp leaving).1
  have filtered : (droppedSeqs.filter (· ∉ stepped)).Nodup :=
    (goneNodup.sublist dropped).filter _
  have apart : List.Disjoint stepped (droppedSeqs.filter (· ∉ stepped)) := by
    intro i early late
    simpa [early] using (List.mem_filter.mp late).2
  refine ⟨?_, ?_, ?_, ?_, ?_, retires.counter⟩
  · rw [map_fst_outputs]
    exact List.nodup_append'.mpr ⟨distinct, filtered, apart⟩
  · intro i member
    rw [map_fst_outputs] at member
    rcases List.mem_append.mp member with early | late
    · exact live i early
    · exact retires.live.symm.subset
        (List.mem_append_left _ (dropped.subset (List.mem_filter.mp late).1))
  · intro output member
    rcases List.mem_append.mp member with early | late
    · obtain ⟨i, _, rfl⟩ := List.mem_map.mp early
      rfl
    · obtain ⟨i, _, rfl⟩ := List.mem_map.mp late
      rfl
  · intro output member
    rcases List.mem_append.mp member with early | late
    · obtain ⟨i, _, rfl⟩ := List.mem_map.mp early
      exact ⟨rfl, rfl⟩
    · obtain ⟨i, among', rfl⟩ := List.mem_map.mp late
      have leaves := dropped.subset (List.mem_filter.mp among').1
      exact ⟨by simp [LLMEngine.dropped, Sequence.isFinished, retires.finished i leaves], rfl⟩
  · refine retires.live.trans (List.Perm.append_right _ ?_)
    have endsNodup : (finishedIn (outputs last stepped droppedSeqs)).Nodup := by
      rw [finishedIn_outputs]
      exact List.nodup_append'.mpr ⟨distinct.filter _, filtered,
        fun i early => apart (List.mem_filter.mp early).1⟩
    rw [List.perm_ext_iff_of_nodup goneNodup endsNodup]
    intro i
    rw [finishedIn_outputs, List.mem_append, List.mem_filter, List.mem_filter]
    constructor
    · intro leaves
      by_cases early : i ∈ stepped
      · exact Or.inl ⟨early, by simp [Sequence.isFinished, retires.finished i leaves]⟩
      · exact Or.inr ⟨(among i leaves).resolve_right early, by simpa using early⟩
    · rintro (⟨early, finished⟩ | ⟨late, _⟩)
      · rcases List.mem_append.mp (retires.live.subset (live i early)) with leaves | stays
        · exact leaves
        · obtain ⟨requestId, found⟩ := Dict.mem_values_iff.mp stays
          rcases (lastInv.live found).2 with plays | plays | plays
          · simp [Sequence.isFinished, plays.2.2.2.1.status] at finished
          · simp [Sequence.isFinished, plays.2.2.2.status] at finished
          · simp [Sequence.isFinished, plays.2.2.2.1] at finished
      · exact dropped.subset late

theorem Steps.settles {env : StepEnv} {s last : Scheduler} {runner : ModelRunner}
    {launch : Scheduler.Launch} {stepped : List SeqId} {later : List LaunchedRow}
    (steps : Steps cfg env s runner flight launch last stepped)
    (inv : s.Inv cfg s.running flight.rows) (wf : flight.Wf cfg)
    (lastInv : last.Inv cfg last.running later) :
    Settles s last (outputs last stepped launch.output.dropped) := by
  have distinct : (flight.rows.map LaunchedRow.seq).Nodup := by
    simpa [Flight.rows, Function.comp_def] using wf.distinct
  cases steps with
  | sync mode reconciles settled launches =>
      obtain ⟨among, live, gone, goneAmong, retires⟩ := reconciles.retires
      refine settles_of_retires inv lastInv (distinct.sublist among) live
        (retires.trans (launches.retires settled) (launches.evolves settled))
        (List.sublist_append_right _ _) ?_
      intro i member
      exact (List.mem_append.mp member).symm.imp_right (goneAmong.subset ·)
  | async mode launches reconciles =>
      obtain ⟨among, live, gone, goneAmong, retires⟩ := reconciles.retires
      have launched := launches.retires inv
      refine settles_of_retires inv lastInv (distinct.sublist among) ?_
        (launched.trans retires reconciles.evolves) (List.sublist_append_left _ _) ?_
      · intro i member
        exact launched.live.symm.subset (List.mem_append_right _ (live i member))
      · intro i member
        exact (List.mem_append.mp member).imp_right (goneAmong.subset ·)

/-! ## Runs -/

namespace Action

/-- The admission an accepted `add_request` starts. -/
def admits : Action → List SeqId
  | .add i _ _ _ _ (.ok _) => [i]
  | _ => []

/-- The admissions an action ends: a successful abort, or finished outputs. -/
def ends : Action → List SeqId
  | .abort (some i) _ _ true => [i]
  | .step _ outputs => finishedIn outputs
  | _ => []

/-- The admissions an action returns an output for. -/
def mentions : Action → List SeqId
  | .step _ outputs => outputs.map Prod.fst
  | _ => []

/-- The request id an action uses for an admission. -/
def names : Action → List (SeqId × RequestId)
  | .add i _ _ _ _ (.ok requestId) => [(i, requestId)]
  | .abort (some i) requestId _ true => [(i, requestId)]
  | .step _ outputs => outputs.map fun output => (output.1, output.2.requestId)
  | _ => []

end Action

/-- What an action does to the account of live requests. -/
structure Balances (engine : LLMEngine) (action : Action) (next : LLMEngine) : Prop where
  counter : engine.scheduler.counter ≤ next.scheduler.counter
  fresh : ∀ i ∈ action.admits, i = engine.scheduler.counter ∧ i < next.scheduler.counter
  live : (action.admits ++ engine.scheduler.seqs.values).Perm
    (action.ends ++ next.scheduler.seqs.values)
  nodup : action.mentions.Nodup
  mentioned : ∀ i ∈ action.mentions, i ∈ engine.scheduler.seqs.values
  named : ∀ name ∈ action.names, name.1 < next.scheduler.counter ∧
    (next.scheduler.heap name.1).requestId = name.2
  received : next.metrics.requestsReceived =
    engine.metrics.requestsReceived + action.admits.length
  ended : next.metrics.totalFinished + next.metrics.requestsAborted =
    engine.metrics.totalFinished + engine.metrics.requestsAborted + action.ends.length

theorem Adds.balances {prompt : List Token} {params : SamplingParams} {arrivalTime : Nat}
    {next : LLMEngine} {result : Except Fault RequestId} (requested : Option RequestId)
    (adds : Adds cfg engine prompt params arrivalTime next result) :
    Balances engine
      (.add engine.scheduler.counter prompt params requested arrivalTime result) next := by
  cases adds with
  | refuse fault =>
      exact ⟨Nat.le_refl _, by simp [Action.admits], List.Perm.refl _, List.nodup_nil,
        by simp [Action.mentions], by simp [Action.names], rfl, rfl⟩
  | duplicate requestId hashes valid known =>
      exact ⟨Nat.le_succ _, by simp [Action.admits], List.Perm.refl _, List.nodup_nil,
        by simp [Action.mentions], by simp [Action.names], rfl, rfl⟩
  | accept requestId hashes valid isQueued fresh =>
      refine ⟨Nat.le_succ _, ?_, ?_, List.nodup_nil, by simp [Action.mentions], ?_, rfl, rfl⟩
      · intro i member
        rw [List.mem_singleton.mp member]
        exact ⟨rfl, Nat.lt_succ_self _⟩
      · show (engine.scheduler.counter :: _).Perm (Dict.values (AList.insert requestId _ _))
        rw [Dict.values_insert_of_lookup_eq_none _ fresh.1]
        exact List.Perm.refl _
      · intro name member
        rw [List.mem_singleton.mp member]
        refine ⟨Nat.lt_succ_self _, ?_⟩
        exact congrArg Sequence.requestId (Scheduler.setSeq_heap_self engine.scheduler _ _)

theorem Aborts.balances {requestId : RequestId} {reason : FinishReason} {next : LLMEngine}
    {aborted : Bool} (aborts : Aborts cfg engine flight requestId reason next aborted)
    (inv : engine.Inv cfg flight) :
    Balances engine
      (.abort (engine.scheduler.seqs.lookup requestId) requestId reason aborted) next := by
  have evolves := aborts.evolves
  cases aborts with
  | missing absent =>
      rw [absent]
      exact ⟨Nat.le_refl _, by simp [Action.admits], List.Perm.refl _, List.nodup_nil,
        by simp [Action.mentions], by simp [Action.names], rfl, rfl⟩
  | @abort i after found ends =>
      obtain ⟨idEq, below, _⟩ := inv.scheduler.known_of_lookup (Or.inl found)
      have seqs : after.seqs = engine.scheduler.seqs.erase requestId ∧
          after.counter = engine.scheduler.counter := by
        rcases ends with ⟨plays, rfl⟩ | ⟨plays, ends⟩
        · rw [← idEq]
          exact ⟨rfl, rfl⟩
        · rw [← idEq]
          exact ⟨ends.frame.seqs, ends.frame.counter⟩
      obtain ⟨counted, received⟩ := engine.metrics.recordAborted_counts (dropped after i)
      rw [found]
      refine ⟨seqs.2.ge, by simp [Action.admits], ?_, List.nodup_nil,
        by simp [Action.mentions], ?_, received, counted⟩
      · show engine.scheduler.seqs.values.Perm ([i] ++ after.seqs.values)
        rw [seqs.1]
        exact Dict.values_perm_erase found
      · intro name member
        rw [List.mem_singleton.mp member]
        refine ⟨below.trans_le seqs.2.ge, ?_⟩
        exact (congrArg Request.requestId (evolves i).request).trans idEq

theorem Acts.balances {action : Action} {next : LLMEngine} {flight' : Flight}
    (acts : Acts cfg engine flight action next flight') (inv : engine.Inv cfg flight)
    (nextInv : next.Inv cfg flight') : Balances engine action next := by
  cases acts with
  | add adds => exact adds.balances _
  | abort aborts => exact aborts.balances inv
  | @step env launch last stepped answers steps =>
      have settles := steps.settles inv.scheduler inv.wf nextInv.scheduler
      obtain ⟨counted, received, aborted⟩ := engine.metrics.recordStep_counts
        ((outputs last stepped launch.output.dropped).map Prod.snd)
      refine ⟨settles.counter.ge, by simp [Action.admits], settles.ends, settles.nodup, settles.live, ?_,
        received, ?_⟩
      · intro name member
        obtain ⟨output, among, rfl⟩ := List.mem_map.mp member
        obtain ⟨requestId, found⟩ := Dict.mem_values_iff.mp
          (settles.live output.1 (List.mem_map_of_mem among))
        obtain ⟨_, below, _⟩ := inv.scheduler.known_of_lookup (Or.inl found)
        exact ⟨below.trans_le settles.counter.ge, (settles.named output among).symm⟩
      · have ends : ((outputs last stepped launch.output.dropped).map Prod.snd).filter
            RequestOutput.finished = ((outputs last stepped launch.output.dropped).filter
              fun output => output.2.finished).map Prod.snd := List.filter_map
        rw [ends, List.length_map] at counted
        simp only [next, Action.ends, finishedIn, List.length_map]
        omega

/-- The account of a run: every admission is live or ended, and what ended is
never mentioned again. -/
structure Accounted (actions : List Action) (engine : LLMEngine) : Prop where
  admitted : (actions.flatMap Action.admits).Nodup
  below : ∀ i ∈ actions.flatMap Action.admits, i < engine.scheduler.counter
  balance : (actions.flatMap Action.admits).Perm
    (actions.flatMap Action.ends ++ engine.scheduler.seqs.values)
  mentioned : ∀ i ∈ actions.flatMap Action.mentions, i ∈ actions.flatMap Action.admits
  once : ∀ action ∈ actions, action.mentions.Nodup
  late : ∀ before rest, actions = before ++ rest → ∀ i ∈ before.flatMap Action.ends,
    i ∉ rest.flatMap Action.mentions
  named : ∀ name ∈ actions.flatMap Action.names, name.1 < engine.scheduler.counter ∧
    (engine.scheduler.heap name.1).requestId = name.2
  received : engine.metrics.requestsReceived = (actions.flatMap Action.admits).length
  ended : engine.metrics.totalFinished + engine.metrics.requestsAborted =
    (actions.flatMap Action.ends).length

theorem accounted_create (cfg : Config) : Accounted [] (create cfg) where
  admitted := List.nodup_nil
  below := by simp
  balance := List.Perm.refl _
  mentioned := by simp
  once := by simp
  late before rest split i member := by
    obtain ⟨rfl, rfl⟩ := List.nil_eq_append_iff.mp split
    simp
  named := by simp
  received := rfl
  ended := rfl

/-- An action keeps the account of a run. -/
theorem Accounted.snoc {actions : List Action} {action : Action} {next : LLMEngine}
    (account : Accounted actions engine) (balances : Balances engine action next)
    (evolves : ∀ j, j ≠ engine.scheduler.counter →
      Sequence.Evolves (engine.scheduler.heap j) (next.scheduler.heap j)) :
    Accounted (actions ++ [action]) next := by
  have apart := (List.nodup_append'.mp (account.balance.nodup_iff.mp account.admitted)).2.2
  refine ⟨?_, ?_, ?_, ?_, ?_, ?_, ?_, ?_, ?_⟩
  · rw [List.flatMap_append, List.flatMap_singleton, List.nodup_append']
    refine ⟨account.admitted, ?_, ?_⟩
    · cases action with
      | add i prompt params requestId arrivalTime result =>
          cases result <;> simp [Action.admits]
      | abort => exact List.nodup_nil
      | step => exact List.nodup_nil
    · intro i early new
      exact absurd (account.below i early) (by simp [(balances.fresh i new).1])
  · intro i member
    rw [List.flatMap_append, List.flatMap_singleton] at member
    rcases List.mem_append.mp member with early | new
    · exact (account.below i early).trans_le balances.counter
    · exact (balances.fresh i new).2
  · simp only [List.flatMap_append, List.flatMap_singleton]
    calc
      (actions.flatMap Action.admits ++ action.admits).Perm
          (actions.flatMap Action.ends ++ engine.scheduler.seqs.values ++ action.admits) :=
        account.balance.append_right _
      _ = actions.flatMap Action.ends ++ (engine.scheduler.seqs.values ++ action.admits) :=
        List.append_assoc _ _ _
      List.Perm _ (actions.flatMap Action.ends ++
          (action.ends ++ next.scheduler.seqs.values)) :=
        (List.perm_append_comm.trans balances.live).append_left _
      _ = actions.flatMap Action.ends ++ action.ends ++ next.scheduler.seqs.values :=
        (List.append_assoc _ _ _).symm
  · intro i member
    rw [List.flatMap_append, List.flatMap_singleton] at member ⊢
    rcases List.mem_append.mp member with early | new
    · exact List.mem_append_left _ (account.mentioned i early)
    · exact List.mem_append_left _ (account.balance.symm.subset
        (List.mem_append_right _ (balances.mentioned i new)))
  · intro other member
    rcases List.mem_append.mp member with early | new
    · exact account.once other early
    · rw [List.mem_singleton.mp new]
      exact balances.nodup
  · intro before rest split i ended
    rcases List.eq_nil_or_concat rest with rfl | ⟨rest, final, rfl⟩
    · simp
    · rw [List.concat_eq_append] at split ⊢
      rw [← List.append_assoc] at split
      obtain ⟨earlier, final_eq⟩ := List.append_inj' split rfl
      obtain rfl := List.singleton_inj.mp final_eq
      rw [List.flatMap_append, List.flatMap_singleton, List.mem_append, not_or]
      refine ⟨account.late before rest earlier i ended, fun new => ?_⟩
      refine apart ?_ (balances.mentioned i new)
      rw [earlier, List.flatMap_append]
      exact List.mem_append_left _ ended
  · intro name member
    rw [List.flatMap_append, List.flatMap_singleton] at member
    rcases List.mem_append.mp member with early | new
    · obtain ⟨below, idEq⟩ := account.named name early
      refine ⟨below.trans_le balances.counter, ?_⟩
      exact (congrArg Request.requestId (evolves name.1 below.ne).request).trans idEq
    · exact balances.named name new
  · rw [balances.received, account.received, List.flatMap_append, List.flatMap_singleton,
      List.length_append]
  · rw [balances.ended, account.ended, List.flatMap_append, List.flatMap_singleton,
      List.length_append]

theorem Run.accounted {actions : List Action} (run : Run cfg actions engine) :
    Accounted actions engine := by
  obtain ⟨_, _, account⟩ := Run.invariant (fun _ => True)
    (fun actions engine _ => Accounted actions engine) (accounted_create cfg)
    (fun _ _ _ _ _ _ inv account _ acts nextInv =>
      account.snoc (acts.balances inv nextInv) fun _ old => acts.evolves inv old)
    run fun _ _ => trivial
  exact account

/-- An engine that is finished has no live request. -/
theorem Inv.seqs_of_isFinished (inv : engine.Inv cfg flight) (finished : engine.isFinished = true) :
    engine.scheduler.seqs.values = [] := by
  have live := inv.scheduler.partitioned.live
  simp only [isFinished, Scheduler.isFinished, Bool.and_eq_true, List.isEmpty_iff] at finished
  obtain ⟨_, ⟨⟨waiting, running⟩, loading⟩, _⟩ := finished
  have nothing : engine.scheduler.recving.values = [] := by rw [Dict.values, loading, List.map_nil]
  rw [waiting, running, Scheduler.loadingSeqs, nothing] at live
  exact List.perm_nil.mp live

/-- Along every run each accepted admission ends exactly once, in one finished
output or one successful abort, and is not mentioned afterwards; and the request
counters add up to the live requests. -/
theorem finalized_exactly_once (cfg : Config) (actions : List Action) (engine : LLMEngine)
    (run : Run cfg actions engine) :
    (∀ i ∈ actions.flatMap Action.admits, (actions.flatMap Action.ends).count i =
      if i ∈ engine.scheduler.seqs.values then 0 else 1) ∧
    (engine.isFinished = true → ∀ i ∈ actions.flatMap Action.admits,
      (actions.flatMap Action.ends).count i = 1) ∧
    (∀ before rest, actions = before ++ rest → ∀ i ∈ before.flatMap Action.ends,
      i ∉ rest.flatMap Action.mentions) ∧
    (∀ action ∈ actions, action.mentions.Nodup) ∧
    (∀ i ∈ actions.flatMap Action.mentions ++ actions.flatMap Action.ends,
      i ∈ actions.flatMap Action.admits) ∧
    (∀ i first second, (i, first) ∈ actions.flatMap Action.names →
      (i, second) ∈ actions.flatMap Action.names → first = second) ∧
    engine.metrics.requestsReceived =
      engine.metrics.totalFinished + engine.metrics.requestsAborted +
        engine.scheduler.seqs.size := by
  have account := run.accounted
  obtain ⟨flight, inv⟩ := Reachable.inv ⟨actions, run⟩
  have once : ∀ i ∈ actions.flatMap Action.admits, (actions.flatMap Action.ends).count i =
      if i ∈ engine.scheduler.seqs.values then 0 else 1 := by
    intro i member
    have total : (actions.flatMap Action.ends).count i +
        engine.scheduler.seqs.values.count i = 1 := by
      rw [← List.count_append, ← account.balance.count_eq i,
        List.count_eq_one_of_mem account.admitted member]
    split
    · rename_i live
      have := List.count_pos_iff.mpr live
      omega
    · rename_i ended
      rw [List.count_eq_zero_of_not_mem ended] at total
      exact total
  refine ⟨once, ?_, account.late, account.once, ?_, ?_, ?_⟩
  · intro finished i member
    rw [once i member, inv.seqs_of_isFinished finished]
    simp
  · intro i member
    rcases List.mem_append.mp member with mentioned | ended
    · exact account.mentioned i mentioned
    · exact account.balance.symm.subset (List.mem_append_left _ ended)
  · intro i first second firstNamed secondNamed
    exact (account.named _ firstNamed).2.symm.trans (account.named _ secondNamed).2
  · rw [account.received, account.ended, account.balance.length_eq, List.length_append,
      Dict.values, List.length_map]
    rfl

/-- The sample engine's counters while its request runs. -/
theorem finalized_exactly_once_sample :
    sampleRunning.scheduler.seqs.size = 1 ∧
    sampleRunning.metrics.requestsReceived =
      sampleRunning.metrics.totalFinished + sampleRunning.metrics.requestsAborted +
        sampleRunning.scheduler.seqs.size :=
  ⟨by decide +kernel, (finalized_exactly_once .sample _ sampleRunning
    (.snoc sampleQueued_run sampleRunning_next)).2.2.2.2.2.2⟩

end LLMEngine

end LeanVllm
