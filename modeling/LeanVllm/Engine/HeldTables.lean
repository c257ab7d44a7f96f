import LeanVllm.Engine.BlockConservation
import LeanVllm.Engine.HandOver
import LeanVllm.Engine.WholePrompts

/-!
# Blocks that a transfer uses

A request is held when its blocks are handed over, and loads when it waits for blocks of its
own.  Until a report says that the transfer ended its table stays as it is, so its blocks stay
in use, whatever else the engine does.
-/

namespace LeanVllm

open Collections

namespace Scheduler

variable {cfg : Config} {s middle last : Scheduler} {rows : List LaunchedRow} {i : SeqId}
  {sent received : List RequestId}

/-- From `s` to `last` what is held or loads stays so, but for what was reported sent or
received. -/
structure Spares (sent received : List RequestId) (s last : Scheduler) : Prop where
  held : ∀ requestId i, s.sending.lookup requestId = some i → requestId ∉ sent →
    last.sending.lookup requestId = some i ∧ last.heap i = s.heap i
  loading : ∀ requestId i, s.recving.lookup requestId = some i → requestId ∉ received →
    last.recving.lookup requestId = some i ∧
      (last.heap i).blockTable = (s.heap i).blockTable ∧
      (last.heap i).numCachedTokens = (s.heap i).numCachedTokens

theorem Spares.refl (sent received : List RequestId) (s : Scheduler) :
    Spares sent received s s :=
  ⟨fun _ _ found _ => ⟨found, rfl⟩, fun _ _ found _ => ⟨found, rfl, rfl⟩⟩

theorem Spares.trans (left : Spares sent received s middle)
    (right : Spares sent received middle last) : Spares sent received s last := by
  constructor
  · intro requestId i found unsent
    rcases left.held requestId i found unsent with ⟨still, same⟩
    rcases right.held requestId i still unsent with ⟨later, same'⟩
    exact ⟨later, same'.trans same⟩
  · intro requestId i found unreceived
    rcases left.loading requestId i found unreceived with ⟨still, table, cached⟩
    rcases right.loading requestId i still unreceived with ⟨later, table', cached'⟩
    exact ⟨later, table'.trans table, cached'.trans cached⟩

theorem Spares.mono {more others : List RequestId} (spares : Spares sent received s last)
    (among : sent ⊆ more) (within : received ⊆ others) : Spares more others s last where
  held requestId i found unsent := spares.held requestId i found fun member => unsent (among member)
  loading requestId i found unreceived :=
    spares.loading requestId i found fun member => unreceived (within member)

theorem Spares.of_nil (spares : Spares [] [] s last) : Spares sent received s last :=
  spares.mono (List.nil_subset _) (List.nil_subset _)

theorem Roster.ne_of_loading {active : List SeqId} (inv : s.Roster cfg active rows) {j : SeqId}
    {requestId : RequestId} (found : s.recving.lookup requestId = some j)
    (absent : s.recving.lookup (s.heap i).requestId = none) : j ≠ i := by
  rintro rfl
  rw [← (inv.recving found).1, absent] at found
  cases found

/-- Changing a sequence that is neither held nor loading. -/
theorem Roster.spares {active : List SeqId} (inv : s.Roster cfg active rows)
    (unheld : s.sending.lookup (s.heap i).requestId = none)
    (unloading : s.recving.lookup (s.heap i).requestId = none)
    (sending : ∀ requestId, requestId ≠ (s.heap i).requestId →
      last.sending.lookup requestId = s.sending.lookup requestId)
    (recving : ∀ requestId, requestId ≠ (s.heap i).requestId →
      last.recving.lookup requestId = s.recving.lookup requestId)
    (others : ∀ j, j ≠ i → last.heap j = s.heap j) : Spares [] [] s last := by
  constructor
  · intro requestId j found _
    constructor
    · rw [sending requestId, found]
      rintro rfl
      rw [unheld] at found
      cases found
    · exact others j (inv.ne_of_held (Dict.mem_values_iff.mpr ⟨requestId, found⟩) unheld)
  · intro requestId j found _
    rw [others j (inv.ne_of_loading found unloading)]
    refine ⟨?_, rfl, rfl⟩
    rw [recving requestId, found]
    rintro rfl
    rw [unloading] at found
    cases found

theorem Inv.spares_running {active : List SeqId} (inv : s.Inv cfg active rows)
    (member : i ∈ active) (sendingEq : last.sending = s.sending)
    (recvingEq : last.recving = s.recving) (others : ∀ j, j ≠ i → last.heap j = s.heap j) :
    Spares [] [] s last :=
  inv.spares (inv.running member).2.2.1.2.2 (inv.running member).2.2.1.2.1
    (fun _ _ => by rw [sendingEq]) (fun _ _ => by rw [recvingEq]) others

theorem Inv.spares_waiting {active : List SeqId} (inv : s.Inv cfg active rows)
    (member : i ∈ s.waiting) (sendingEq : last.sending = s.sending)
    (recving : ∀ requestId, requestId ≠ (s.heap i).requestId →
      last.recving.lookup requestId = s.recving.lookup requestId)
    (others : ∀ j, j ≠ i → last.heap j = s.heap j) : Spares [] [] s last :=
  inv.spares (inv.queued member).2.2.1.2.2 (inv.queued member).2.2.1.2.1
    (fun _ _ => by rw [sendingEq]) recving others

/-! ## Launching -/

theorem Move.spares {before after : Scheduler × SchedulerOutput}
    (move : Move cfg before after) (pass : PassInv cfg before rows) :
    Spares [] [] before.1 after.1 := by
  cases move with
  | reorder reordered =>
      exact ⟨fun _ _ found _ => ⟨found, rfl⟩, fun _ _ found _ => ⟨found, rfl, rfl⟩⟩
  | recount => exact .refl _ _ _
  | preempt member idle freed =>
      exact pass.inv.spares_running member rfl rfl
        fun _ different => setSeq_heap_of_ne _ different _
  | dropRunning member idle settled freed =>
      exact pass.inv.spares_running member rfl rfl
        fun _ different => setSeq_heap_of_ne _ different _
  | trim member idle n =>
      exact pass.inv.spares_running member rfl rfl
        fun _ different => setSeq_heap_of_ne _ different _
  | append member idle within fits appended =>
      exact pass.inv.spares_running member rfl rfl
        fun _ different => setSeq_heap_of_ne _ different _
  | serve member idle ready =>
      exact pass.inv.spares_running member rfl rfl
        fun _ different => setSeq_heap_of_ne _ different _
  | dropWaiting head =>
      exact pass.inv.spares_waiting (List.mem_of_mem_head? head) rfl (fun _ _ => rfl)
        fun _ different => setSeq_heap_of_ne _ different _
  | beginRun head allocates loaded ready =>
      exact pass.inv.spares_waiting (List.mem_of_mem_head? head) rfl (fun _ _ => rfl)
        fun _ different => setSeq_heap_of_ne _ different _
  | load head allocates connected wants =>
      refine pass.inv.spares_waiting (List.mem_of_mem_head? head) rfl
        (fun requestId different => ?_) fun _ different => setSeq_heap_of_ne _ different _
      simp [beginLoad, different]

theorem Moves.spares {before after : Scheduler × SchedulerOutput}
    (moves : Moves cfg before after) (pass : PassInv cfg before rows) :
    Spares [] [] before.1 after.1 := by
  induction moves with
  | refl => exact .refl _ _ _
  | tail earlier move ih => exact ih.trans (move.spares (Moves.passInv earlier pass))

/-- Only what was reported sent is let go. -/
theorem Releases.spares {active : List SeqId}
    (releases : Releases cfg active rows s sent last) : Spares sent [] s last := by
  induction releases with
  | nil => exact .refl _ _ _
  | skip absent others ih => exact ih.mono (List.subset_cons_self _ _) (List.Subset.refl _)
  | @release s last requestId rest i bm inv found freed next others ih =>
      refine Spares.trans ?_ (ih.mono (List.subset_cons_self _ _) (List.Subset.refl _))
      have own := (inv.sending found).1
      constructor
      · intro other j held unsent
        have different : other ≠ requestId := fun same => unsent (same ▸ List.mem_cons_self)
        constructor
        · simp [endHold, own, different, held]
        · apply setSeq_heap_of_ne
          rintro rfl
          exact different ((inv.sending held).1.symm.trans own)
      · intro other j loading _
        have apart := inv.ne_of_loading loading (inv.sending found).2.2.2.1.2.1
        have same : (s.endHold i (s.heap i).released bm).heap j = s.heap j :=
          setSeq_heap_of_ne s apart _
        rw [same]
        exact ⟨loading, rfl, rfl⟩

theorem Receives.spares {finishedRecving : List RequestId} {requestId : RequestId}
    (turn : Receives cfg s finishedRecving requestId last)
    (inv : s.Inv cfg s.running rows) : Spares [] [requestId] s last := by
  have one : ∀ {i : SeqId} {seq : Sequence} {bm : BlockManager} {running : List SeqId},
      s.recving.lookup requestId = some i →
        Spares [] [requestId] s (s.endLoad i seq bm running) := by
    intro i seq bm running found
    rcases inv.recving found with ⟨own, plays⟩
    have unheld : s.sending.lookup (s.heap i).requestId = none := by
      rcases plays with plays | plays
      · exact plays.2.2.1.2.2
      · exact plays.2.2.1.2.2
    constructor
    · intro other j held _
      refine ⟨held, setSeq_heap_of_ne s ?_ _⟩
      exact inv.ne_of_held (Dict.mem_values_iff.mpr ⟨other, held⟩) unheld
    · intro other j loading unreceived
      have different : other ≠ requestId := fun same => unreceived (List.mem_singleton.mpr same)
      have apart : j ≠ i := by
        rintro rfl
        exact different ((inv.recving loading).1.symm.trans own)
      have same : (s.endLoad i seq bm running).heap j = s.heap j := setSeq_heap_of_ne s apart _
      rw [same]
      exact ⟨by simp [endLoad, own, different, loading], rfl, rfl⟩
  cases turn with
  | cancelled found | loaded found | failed found => exact one found

/-- Only what was reported received stops loading. -/
theorem ReceivesAll.spares {finishedRecving order : List RequestId}
    (receives : ReceivesAll cfg rows finishedRecving s order last) : Spares [] order s last := by
  induction receives with
  | nil => exact .refl _ _ _
  | cons inv turn nextInv others ih =>
      refine Spares.trans ?_ (ih.mono (List.Subset.refl _) (List.subset_cons_self _ _))
      exact (turn.spares inv).mono (List.Subset.refl _)
        (List.cons_subset_cons _ (List.nil_subset _))

theorem Advances.spares {active seqs : List SeqId} {launched : List LaunchedRow}
    (advances : Advances cfg active rows s seqs last launched) : Spares [] [] s last := by
  induction advances with
  | nil => exact .refl _ _ _
  | cons inv member ready publishes next others ih =>
      refine Spares.trans ?_ ih
      exact inv.spares_running member rfl rfl fun _ different => setSeq_heap_of_ne _ different _

theorem Launches.spares {env : StepEnv} {runner : ModelRunner} {flight : Flight}
    {launch : Launch} (launches : s.Launches cfg env runner flight launch)
    (inv : s.Inv cfg s.running flight.rows) :
    Spares env.kvOutput.finishedSending env.recvOrder s launch.last := by
  have planned : Spares [] [] s launch.planned := Moves.spares launches.moves (inv.start [])
  have reported : Spares env.kvOutput.finishedSending env.recvOrder launch.planned
      launch.reported := by
    rcases launches.reports with ⟨_, same⟩ | ⟨_, middle, releases, receives⟩
    · rw [same]
      exact .refl _ _ _
    · have handed : Spares [] [] launch.planned { launch.planned with connector := {} } :=
        ⟨fun _ _ found _ => ⟨found, rfl⟩, fun _ _ found _ => ⟨found, rfl, rfl⟩⟩
      have released := releases.spares.mono (List.Subset.refl _) (List.nil_subset env.recvOrder)
      exact handed.of_nil.trans (released.trans
        (receives.spares.mono (List.nil_subset _) (List.Subset.refl _)))
  exact planned.of_nil.trans (reported.trans launches.advances.spares.of_nil)

/-! ## Reconciling -/

theorem Ends.spares {active : List SeqId} {seq : Sequence} (ends : Ends cfg s i seq last)
    (inv : s.Roster cfg active rows) (unheld : s.sending.lookup (s.heap i).requestId = none)
    (unloading : s.recving.lookup (s.heap i).requestId = none) : Spares [] [] s last := by
  cases ends with
  | release bm result freed unheld' =>
      exact inv.spares unheld unloading (fun _ _ => rfl) (fun _ _ => rfl)
        fun j different => setSeq_heap_of_ne s different _
  | hold kv connector result connected held =>
      refine inv.spares unheld unloading (fun requestId different => ?_) (fun _ _ => rfl)
        fun j different => setSeq_heap_of_ne s different _
      simp [Scheduler.hold, different]

theorem Reconciles.spares {row : LaunchedRow} {tokens : List Token}
    {drafts : Option (List (List Token))} {processed : Bool}
    (turn : Reconciles cfg s row tokens drafts last processed)
    (inv : s.Inv cfg s.running (row :: rows)) : Spares [] [] s last := by
  cases turn with
  | void => exact .refl _ _ _
  | commit lives member =>
      exact inv.spares_running member rfl rfl fun _ different => setSeq_heap_of_ne _ different _
  | stop lives member split below clean cause ends =>
      exact ends.spares inv.toRoster (inv.running member).2.2.1.2.2 (inv.running member).2.2.1.2.1

theorem ReconcilesAll.spares {later step : List LaunchedRow} {tokenIds : List (List Token)}
    {drafts : Option (List (List Token))} {stepped : List SeqId}
    (reconciles : ReconcilesAll cfg later s step tokenIds drafts last stepped) :
    Spares [] [] s last := by
  induction reconciles with
  | nil => exact .refl _ _ _
  | cons inv answer turn nextInv others ih => exact (turn.spares inv).trans ih

/-! ## Letting go -/

/-- What was reported sent is held no more. -/
theorem Releases.lets_go {active : List SeqId} {requestId : RequestId}
    (releases : Releases cfg active rows s sent last)
    (held : s.sending.lookup requestId = some i) (member : requestId ∈ sent) :
    i ∉ last.sending.values := by
  induction releases with
  | nil => exact absurd member List.not_mem_nil
  | skip absent others ih =>
      rcases List.mem_cons.mp member with rfl | later
      · rw [absent] at held
        cases held
      · exact ih held later
  | @release s last head rest j bm inv found freed next others ih =>
      by_cases same : requestId = head
      · subst same
        obtain rfl := Option.some.inj (held.symm.trans found)
        intro still
        obtain ⟨other, stored⟩ := Dict.mem_values_iff.mp (others.holdsNoMore.held i still).1
        simp only [endHold, Dict.lookup_erase_eq] at stored
        split at stored
        · cases stored
        · rename_i different
          exact different (inv.sending stored).1.symm
      · have own := (inv.sending found).1
        apply ih
        · simp [endHold, own, same, held]
        · exact (List.mem_cons.mp member).resolve_left same

theorem Launches.lets_go {env : StepEnv} {runner : ModelRunner} {flight : Flight}
    {launch : Launch} {requestId : RequestId}
    (launches : s.Launches cfg env runner flight launch)
    (inv : s.Inv cfg s.running flight.rows) (connected : cfg.kvTransfer.isSome)
    (held : s.sending.lookup requestId = some i)
    (member : requestId ∈ env.kvOutput.finishedSending) :
    i ∉ launch.last.sending.values := by
  have planned : Spares [] [] s launch.planned := Moves.spares launches.moves (inv.start [])
  rcases planned.held requestId i held List.not_mem_nil with ⟨still, _⟩
  rcases launches.reports with ⟨none, _⟩ | ⟨_, middle, releases, receives⟩
  · rw [none] at connected
    cases connected
  · have gone := releases.lets_go still member
    intro late
    have reported := (launches.advances.holdsNoMore.held i late).1
    exact gone (receives.holdsNoMore.held i reported).1

/-- Reconciling holds nothing that is finished. -/
theorem Reconciles.not_held {row : LaunchedRow} {tokens : List Token}
    {drafts : Option (List (List Token))} {processed : Bool}
    (turn : Reconciles cfg s row tokens drafts last processed)
    (inv : s.Inv cfg s.running (row :: rows)) (finished : (s.heap i).status = .finished)
    (absent : i ∉ s.sending.values) :
    i ∉ last.sending.values ∧ (last.heap i).status = .finished := by
  have apart : row.seq ∈ s.running → i ≠ row.seq := by
    rintro member rfl
    exact (inv.running member).2.2.2.unfinished_status finished
  cases turn with
  | void => exact ⟨absent, finished⟩
  | commit lives member =>
      refine ⟨absent, ?_⟩
      rw [renew, setSeq_heap_of_ne s (apart member)]
      exact finished
  | stop lives member split below clean cause ends =>
      have same : last.heap i = s.heap i := by
        cases ends with
        | release | hold => exact setSeq_heap_of_ne s (apart member) _
      refine ⟨?_, same ▸ finished⟩
      cases ends with
      | release => exact absent
      | hold kv connector result connected held =>
          intro late
          have members : i ∈ row.seq :: Dict.values
              (s.sending.erase (s.heap row.seq).requestId) := by
            rw [← Dict.values_insert]
            exact late
          rcases List.mem_cons.mp members with own | old
          · exact apart member own
          · exact absent (Dict.mem_of_mem_values_erase old)

theorem ReconcilesAll.not_held {later step : List LaunchedRow} {tokenIds : List (List Token)}
    {drafts : Option (List (List Token))} {stepped : List SeqId}
    (reconciles : ReconcilesAll cfg later s step tokenIds drafts last stepped)
    (finished : (s.heap i).status = .finished) (absent : i ∉ s.sending.values) :
    i ∉ last.sending.values := by
  induction reconciles with
  | nil => exact absent
  | cons inv answer turn nextInv others ih =>
      rcases turn.not_held inv finished absent with ⟨absent', finished'⟩
      exact ih finished' absent'

/-- The blocks of an owner are in use. -/
theorem Inv.used_of_owner {active : List SeqId} {blockId : BlockId}
    (inv : s.Inv cfg active rows) (owned : i ∈ s.owners active)
    (member : blockId ∈ (s.heap i).blockTable) :
    0 < (s.blockManager.blocks blockId).refCount ∧
      blockId ∉ s.blockManager.freeBlockQueue := by
  have holding : blockId ∈ s.holdings active := List.mem_flatMap.mpr ⟨i, owned, member⟩
  have used : blockId ∈ s.blockManager.usedBlockIds :=
    (inv.blocks.mem_used_iff blockId).mpr holding
  constructor
  · rw [inv.blocks.refCount_eq]
    exact List.count_pos_iff.mpr holding
  · exact fun free => inv.blocks.accounts.disjoint free used

/-- The blocks that are loaded belong to the request alone, and are not published. -/
theorem Inv.own_of_loading {active : List SeqId} {requestId : RequestId} {blockId : BlockId}
    (inv : s.Inv cfg active rows) (loading : s.recving.lookup requestId = some i)
    (member : blockId ∈
      (s.heap i).blockTable.drop ((s.heap i).numCachedTokens / cfg.blockSize)) :
    (s.blockManager.blocks blockId).refCount = 1 ∧ (s.blockManager.blocks blockId).hash = -1 ∧
      blockId ∉ s.blockManager.freeBlockQueue := by
  have stored : i ∈ s.recving.values := Dict.mem_values_iff.mpr ⟨requestId, loading⟩
  have isLoading : (s.heap i).Loading cfg := by
    rcases (inv.recving loading).2 with plays | plays
    · exact plays.2.2.2.2.1
    · exact plays.2.2.2.2
  rw [isLoading.aligned, Nat.mul_div_cancel _ cfg.blockSize_pos] at member
  have unpublished := inv.unpublished i (Or.inr stored) blockId member
  have owned : i ∈ s.owners active := List.mem_append_left _ (List.mem_append_right _ stored)
  rcases inv.used_of_owner owned (List.mem_of_mem_drop member) with ⟨used, unfree⟩
  exact ⟨Nat.le_antisymm (inv.blocks.exclusive blockId unpublished) used, unpublished, unfree⟩

end Scheduler

namespace LLMEngine

variable {cfg : Config} {engine next last : LLMEngine} {flight : Flight} {action : Action}
  {requestId : RequestId} {i : SeqId}

/-- What a step is told was sent. -/
def Action.sent : Action → List RequestId
  | .step env _ => env.kvOutput.finishedSending
  | _ => []

/-- What a step is told was received, or failed to be. -/
def Action.received : Action → List RequestId
  | .step env _ => env.recvOrder
  | _ => []

theorem Adds.spares {prompt : List Token} {params : SamplingParams} {arrivalTime : Nat}
    {result : Except Fault RequestId}
    (adds : Adds cfg engine prompt params arrivalTime next result)
    (inv : engine.Inv cfg flight) : Scheduler.Spares [] [] engine.scheduler next.scheduler := by
  have recvingEq : next.scheduler.recving = engine.scheduler.recving := by
    cases adds <;> rfl
  have same : ∀ i, i < engine.scheduler.counter →
      next.scheduler.heap i = engine.scheduler.heap i := by
    intro i older
    cases adds with
    | refuse => rfl
    | duplicate => exact Scheduler.setSeq_heap_of_ne _ (Nat.ne_of_lt older) _
    | accept => exact Scheduler.setSeq_heap_of_ne _ (Nat.ne_of_lt older) _
  constructor
  · intro requestId i held _
    rw [adds.sending_eq]
    exact ⟨held, same i (inv.scheduler.known_of_lookup (Or.inr (Or.inr held))).2.1⟩
  · intro requestId i loading _
    rw [recvingEq, same i (inv.scheduler.known_of_lookup (Or.inr (Or.inl loading))).2.1]
    exact ⟨loading, rfl, rfl⟩

/-- An abort only marks a request that loads. -/
theorem Aborts.spares {reason : FinishReason} {aborted : Bool}
    (aborts : Aborts cfg engine flight requestId reason next aborted)
    (inv : engine.Inv cfg flight) : Scheduler.Spares [] [] engine.scheduler next.scheduler := by
  cases aborts with
  | missing => exact .refl _ _ _
  | @abort i after found ends =>
      rcases ends with ⟨plays, rfl⟩ | ⟨plays, ends⟩
      · constructor
        · intro other j held _
          refine ⟨held, Scheduler.setSeq_heap_of_ne _ ?_ _⟩
          exact inv.scheduler.ne_of_held (Dict.mem_values_iff.mpr ⟨other, held⟩) plays.2.2.1.2.2
        · intro other j loading _
          refine ⟨loading, ?_⟩
          by_cases same : j = i
          · subst same
            simp [Scheduler.cancel, Scheduler.setSeq]
          · simp [Scheduler.cancel, Scheduler.setSeq, same]
      · rcases plays with plays | plays
        · exact ends.spares inv.scheduler.toRoster plays.2.2.1.2.2 plays.2.2.1.2.1
        · exact ends.spares inv.scheduler.toRoster plays.2.2.1.2.2 plays.2.2.1.2.1

/-- An action lets go of nothing but what it is told was sent or received. -/
theorem Acts.spares {flight' : Flight} (acts : Acts cfg engine flight action next flight')
    (inv : engine.Inv cfg flight) :
    Scheduler.Spares action.sent action.received engine.scheduler next.scheduler := by
  cases acts with
  | add adds => exact adds.spares inv
  | abort aborts => exact aborts.spares inv
  | step answers steps =>
      cases steps with
      | sync mode reconciles settled launches =>
          exact reconciles.spares.of_nil.trans (launches.spares settled)
      | async mode launches reconciles =>
          exact (launches.spares inv.scheduler).trans reconciles.spares.of_nil

/-- A step that is told of a request that it was sent lets it go. -/
theorem Next.lets_go {env : StepEnv} {outputs : List (SeqId × RequestOutput)}
    (step : Next cfg engine (.step env outputs) next) (inv : engine.Inv cfg flight)
    (connected : cfg.kvTransfer.isSome)
    (held : engine.scheduler.sending.lookup requestId = some i)
    (member : requestId ∈ env.kvOutput.finishedSending) :
    i ∉ next.scheduler.sending.values := by
  obtain ⟨flight', acts, _⟩ := step.acts inv
  cases acts with
  | step answers steps =>
      cases steps with
      | sync mode reconciles settled launches =>
          rcases reconciles.spares.held requestId i held List.not_mem_nil with ⟨still, _⟩
          exact launches.lets_go settled connected still member
      | async mode launches reconciles =>
          have finished := (inv.scheduler.sending held).2.2.2.2
          exact reconciles.not_held ((launches.holdsNoMore inv.scheduler).result i finished).1
            (launches.lets_go inv.scheduler connected held member)

/-- A run lets go of nothing but what its steps are told was sent or received. -/
theorem spares_of_run {before later : List Action} (run : Run cfg before engine)
    (rest : Transition.Run (Next cfg) engine later last) :
    ∃ flight, last.Inv cfg flight ∧
      Scheduler.Spares (later.flatMap Action.sent) (later.flatMap Action.received)
        engine.scheduler last.scheduler := by
  induction rest with
  | nil =>
      obtain ⟨flight, inv⟩ := Reachable.inv ⟨before, run⟩
      exact ⟨flight, inv, .refl _ _ _⟩
  | @snoc actions middle last action earlier step ih =>
      obtain ⟨flight, inv, spares⟩ := ih
      obtain ⟨flight', acts, nextInv⟩ := step.acts inv
      refine ⟨flight', nextInv, ?_⟩
      rw [List.flatMap_append, List.flatMap_append, List.flatMap_singleton,
        List.flatMap_singleton]
      exact (spares.mono (List.subset_append_left _ _) (List.subset_append_left _ _)).trans
        ((acts.spares inv).mono (List.subset_append_right _ _) (List.subset_append_right _ _))

/-- A request that is held stays held until a step is told that it was sent, whatever else is
added, aborted, launched and reconciled.  Till then its record stays as it is, and its blocks
stay in use.  That step lets it go. -/
theorem held_until_sent {before later : List Action} (run : Run cfg before engine)
    (held : engine.scheduler.sending.lookup requestId = some i)
    (rest : Transition.Run (Next cfg) engine later last)
    (unsent : ∀ action ∈ later, requestId ∉ action.sent) :
    last.scheduler.sending.lookup requestId = some i ∧
      last.scheduler.heap i = engine.scheduler.heap i ∧
      (∀ blockId ∈ (engine.scheduler.heap i).blockTable,
        0 < (last.scheduler.blockManager.blocks blockId).refCount ∧
          blockId ∉ last.scheduler.blockManager.freeBlockQueue) ∧
      ∀ env outputs next, Next cfg last (.step env outputs) next → cfg.kvTransfer.isSome →
        requestId ∈ env.kvOutput.finishedSending → i ∉ next.scheduler.sending.values := by
  obtain ⟨flight, inv, spares⟩ := spares_of_run run rest
  have quiet : requestId ∉ later.flatMap Action.sent := by
    intro member
    obtain ⟨action, among, told⟩ := List.mem_flatMap.mp member
    exact unsent action among told
  rcases spares.held requestId i held quiet with ⟨still, same⟩
  refine ⟨still, same, fun blockId member => ?_, fun env outputs next step connected member => ?_⟩
  · rw [← same] at member
    have owned : i ∈ last.scheduler.owners last.scheduler.running :=
      List.mem_append_right _ (Dict.mem_values_iff.mpr ⟨requestId, still⟩)
    exact inv.scheduler.used_of_owner owned member
  · exact step.lets_go inv connected still member

/-- The request of the sample run that was handed over outlives an idle step. -/
theorem held_until_sent_idle :
    ∃ outputs last,
      Next .producer (producerAnswered.stepped .producer .sample) (.step .sample outputs) last ∧
      last.scheduler.sending.lookup "a" = some 0 ∧
      (last.scheduler.heap 0).blockTable = [0, 1] ∧
      0 < (last.scheduler.blockManager.blocks 1).refCount := by
  have reachable := producerAnswered_reachable.step (sample_valid_producer _)
  obtain ⟨before, run⟩ := reachable
  obtain ⟨flight, inv⟩ := Reachable.inv ⟨before, run⟩
  obtain ⟨launch, last, processed, stepEq, _⟩ := step_spec inv (sample_valid_producer _)
  have step := Next.step (sample_valid_producer _) stepEq
  have held : (producerAnswered.stepped .producer .sample).scheduler.sending.lookup "a" =
      some 0 := by decide +kernel
  have table : ((producerAnswered.stepped .producer .sample).scheduler.heap 0).blockTable =
      [0, 1] := by decide +kernel
  have unsent : ∀ action ∈ [Action.step .sample (outputs last processed launch.output.dropped)],
      "a" ∉ action.sent := by
    intro action member
    obtain rfl := List.mem_singleton.mp member
    exact List.not_mem_nil
  obtain ⟨still, same, used, _⟩ := held_until_sent run held (.snoc .nil step) unsent
  rw [table] at used
  refine ⟨_, _, step, still, ?_, (used 1 (by decide)).1⟩
  rw [same, table]

/-- A request that loads keeps its blocks until a step is told that the load ended, even if it
is aborted before.  Till then no batch serves it, and the blocks that are loaded belong to it
alone and are not published. -/
theorem loading_until_reported {before later : List Action} (run : Run cfg before engine)
    (loading : engine.scheduler.recving.lookup requestId = some i)
    (rest : Transition.Run (Next cfg) engine later last)
    (unreported : ∀ action ∈ later, requestId ∉ action.received) :
    last.scheduler.recving.lookup requestId = some i ∧
      (last.scheduler.heap i).blockTable = (engine.scheduler.heap i).blockTable ∧
      (i ∉ last.scheduler.waiting ∧ i ∉ last.scheduler.running) ∧
      ∀ blockId ∈ (engine.scheduler.heap i).blockTable.drop
          ((engine.scheduler.heap i).numCachedTokens / cfg.blockSize),
        (last.scheduler.blockManager.blocks blockId).refCount = 1 ∧
          (last.scheduler.blockManager.blocks blockId).hash = -1 ∧
            blockId ∉ last.scheduler.blockManager.freeBlockQueue := by
  obtain ⟨flight, inv, spares⟩ := spares_of_run run rest
  have quiet : requestId ∉ later.flatMap Action.received := by
    intro member
    obtain ⟨action, among, told⟩ := List.mem_flatMap.mp member
    exact unreported action among told
  rcases spares.loading requestId i loading quiet with ⟨still, table, cached⟩
  refine ⟨still, table, ?_, fun blockId member => ?_⟩
  · rcases (inv.scheduler.recving still).2 with plays | plays
    · exact ⟨plays.1, plays.2.1⟩
    · exact ⟨plays.1, plays.2.1⟩
  · rw [← table, ← cached] at member
    exact inv.scheduler.own_of_loading still member

/-- The request of the sample run that loads outlives an idle step too. -/
theorem loading_until_reported_idle :
    ∃ outputs last,
      Next .consumer (consumerQueued.stepped .consumer .sample) (.step .sample outputs) last ∧
      last.scheduler.recving.lookup "b" = some 1 ∧ 1 ∉ last.scheduler.running ∧
      (last.scheduler.heap 1).blockTable ≠ [] ∧
      ∀ blockId ∈ (last.scheduler.heap 1).blockTable,
        (last.scheduler.blockManager.blocks blockId).refCount = 1 := by
  have reachable := consumerQueued_reachable.step (sample_valid_consumer _)
  obtain ⟨before, run⟩ := reachable
  obtain ⟨flight, inv⟩ := Reachable.inv ⟨before, run⟩
  obtain ⟨launch, last, processed, stepEq, _⟩ := step_spec inv (sample_valid_consumer _)
  have step := Next.step (sample_valid_consumer _) stepEq
  have loading : (consumerQueued.stepped .consumer .sample).scheduler.recving.lookup "b" =
      some 1 := by decide +kernel
  have fresh : ((consumerQueued.stepped .consumer .sample).scheduler.heap 1).blockTable.drop
      (((consumerQueued.stepped .consumer .sample).scheduler.heap 1).numCachedTokens /
        Config.consumer.blockSize) =
      ((consumerQueued.stepped .consumer .sample).scheduler.heap 1).blockTable ∧
      ((consumerQueued.stepped .consumer .sample).scheduler.heap 1).blockTable ≠ [] := by
    decide +kernel
  have unreported : ∀ action ∈
      [Action.step .sample (outputs last processed launch.output.dropped)],
      "b" ∉ action.received := by
    intro action member
    obtain rfl := List.mem_singleton.mp member
    exact List.not_mem_nil
  obtain ⟨still, table, apart, own⟩ :=
    loading_until_reported run loading (.snoc .nil step) unreported
  rw [fresh.1, ← table] at own
  exact ⟨_, _, step, still, apart.2, table ▸ fresh.2, fun blockId member => (own blockId member).1⟩

end LLMEngine

end LeanVllm
