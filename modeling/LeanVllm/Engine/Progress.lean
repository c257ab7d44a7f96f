import LeanVllm.Engine.Between

/-!
# Progress of one step

With nothing in flight and without a connector, `schedule` cannot come back
empty-handed while requests are outstanding: the most urgent running sequence
is served or dropped, and if nothing runs then every block is free and the head
of the waiting queue is admitted or dropped.
-/

namespace LeanVllm

open Collections

namespace Scheduler

variable {cfg : Config} {s : Scheduler} {rows : List LaunchedRow} {i : SeqId}

/-! ## Without a connector nothing is transferred -/

/-- No request loads and none is held. -/
def Isolated (s : Scheduler) : Prop :=
  s.recving = ∅ ∧ s.sending = ∅

theorem isolated_stable (isolated : cfg.kvTransfer = none) : Stable cfg Isolated where
  move {_ before after} _ move still := by
    cases move with
    | load _ _ connected => exact absurd connected (by simp [isolated])
    | _ => exact still
  handOver _ still := still
  release _ found still := by
    rw [still.2] at found
    exact absurd found (by simp)
  receive _ receives still := by
    cases receives with
    | cancelled found => exact absurd (still.1 ▸ found) (by simp)
    | loaded found => exact absurd (still.1 ▸ found) (by simp)
    | failed found => exact absurd (still.1 ▸ found) (by simp)
  advance _ _ _ _ still := still
  reconcile _ turn still := by
    cases turn with
    | void => exact still
    | commit => exact still
    | stop _ _ _ _ _ _ ends =>
        cases ends with
        | release => exact still
        | hold kv _ _ connected => exact absurd connected (by simp [isolated])
  cancel _ _ still := still
  ends _ _ ends still := by
    cases ends with
    | release => exact still
    | hold kv _ _ connected => exact absurd connected (by simp [isolated])
  forget _ _ _ still := still
  enqueue _ _ still := still

/-! ## The most urgent running sequence -/

/-- The record of a sequence that was served, or kept its place. -/
def Served (before after : Sequence) : Prop :=
  ∃ spec table n, after = { before with
    specTokenIds := spec
    blockTable := table
    numScheduledTokens := n }

/-- `_make_room` for the first sequence of a pass: it may grow, or it is
dropped, or it waits for the tokens it has in flight. -/
theorem MakesRoom.first {numLookahead : Nat} {stillRunning : List SeqId}
    {output : SchedulerOutput} {room : Room}
    (makes : MakesRoom cfg i numLookahead s stillRunning output room) (first : stillRunning = [])
    (alone : output.scheduled = []) (still : s.Isolated) (popped : i ∉ s.running) :
    room.granted = true ∨ room.output.dropped = output.dropped ++ [i] ∨
      room.stillRunning = [i] ∧ room.sched.heap i = s.heap i ∧
        (s.heap i).numPendingTokens ≠ 0 := by
  induction makes with
  | grant fits => exact Or.inl rfl
  | @preempt s stillRunning output victim bm room short chosen freed rest ih =>
      have different : i ≠ victim := by
        rintro rfl
        exact popped (cfg.schedulingPolicy.victim_mem s.heap chosen)
      have heapEq : (s.requeue cfg victim bm).heap i = s.heap i :=
        setSeq_heap_of_ne s different _
      have rest := ih first alone still fun later => popped (List.mem_of_mem_erase later)
      rwa [heapEq] at rest
  | giveWay short last others freed =>
      rcases others with others | others
      · exact absurd first others
      · exact absurd alone others
  | @defer s stillRunning output short last first' alone' unsettled =>
      refine Or.inr (Or.inr ⟨by rw [first]; rfl, rfl, ?_⟩)
      rcases unsettled with pending | moving
      · exact pending
      · rw [still.1, still.2] at moving
        simp at moving
  | drop short last first' alone' settled still' freed => exact Or.inr (Or.inl rfl)

/-- The first turn of `schedule`'s first loop serves its sequence, or drops it,
or leaves it to the tokens it has in flight. -/
theorem Serves.first {p p' : Pass} (serves : Serves cfg p i p') (left : ¬ p.Spent cfg)
    (first : p.stillRunning = []) (alone : p.output.scheduled = []) (still : p.sched.Isolated)
    (distinct : (i :: p.sched.running).Nodup) {reserved : Nat}
    (active : (p.sched.heap i).Active cfg reserved) :
    p'.output.dropped = p.output.dropped ++ [i] ∨
      p'.stillRunning = [i] ∧ Served (p.sched.heap i) (p'.sched.heap i) ∧
        ((p.sched.heap i).numPendingTokens ≠ 0 ∨ p'.output.scheduled = [i]) := by
  have popped := (List.nodup_cons.mp distinct).1
  cases serves with
  | skip spent => exact absurd spent left
  | limit _ reached =>
      refine Or.inr ⟨by simp [first], ⟨_, _, _, rfl⟩, Or.inl ?_⟩
      have unfinished := active.unfinished
      have prompt := active.prompt_le
      simp only [Sequence.numPlannedTokens, Sequence.numCompletionTokens] at reached unfinished
      omega
  | prefill _ below prefill numEq =>
      refine Or.inr ⟨by simp [first], ?_, Or.inr ?_⟩
      · rw [renew_heap_self]
        exact ⟨_, _, _, rfl⟩
      · simp [SchedulerOutput.withScheduled, alone]
  | @decode _ below decoding room bm fresh seq makes granted seqEq appended =>
      have frame := makes.frame distinct
      obtain ⟨same, heapEq, _⟩ := frame.granted granted
      refine Or.inr ⟨by simp [same, first], ?_, Or.inr ?_⟩
      · rw [renew_heap_self, seqEq, heapEq, setSeq_heap_self]
        exact ⟨_, _, _, rfl⟩
      · simp [SchedulerOutput.withScheduled, frame.scheduled, alone]
  | @refuse _ below decoding room makes refused =>
      have roomFirst := makes.first first alone still popped
      rw [refused, setSeq_heap_self] at roomFirst
      rcases roomFirst with granted | dropped | ⟨kept, heapEq, pending⟩
      · contradiction
      · exact Or.inl dropped
      · refine Or.inr ⟨kept, ?_, Or.inl pending⟩
        rw [heapEq]
        exact ⟨_, _, _, rfl⟩

/-! ## Who keeps a place -/

/-- What `_make_room` does to the sequences behind, and to the sequence itself
if it may not grow. -/
structure Room.Outcome (cfg : Config) (i : SeqId) (numLookahead : Nat) (s : Scheduler)
    (stillRunning : List SeqId) (room : Room) : Prop where
  others : ∀ j ∈ s.running, j ∈ room.sched.running ∨ j ∈ room.output.preempted
  refused : room.granted = false →
    room.stillRunning = stillRunning ∧ (i ∈ room.output.preempted ∨ i ∈ room.output.dropped) ∨
      room.stillRunning = stillRunning ++ [i] ∧ room.sched.running = [] ∧
        room.sched.heap i = s.heap i ∧
        room.sched.blockManager.canAppend cfg (s.heap i) numLookahead = false ∧
        ((s.heap i).numPendingTokens ≠ 0 ∨ s.recving.entries ≠ [] ∨ s.sending.entries ≠ [])

theorem MakesRoom.outcome {numLookahead : Nat} {stillRunning : List SeqId}
    {output : SchedulerOutput} {room : Room}
    (makes : MakesRoom cfg i numLookahead s stillRunning output room)
    (distinct : (i :: s.running).Nodup) :
    Room.Outcome cfg i numLookahead s stillRunning room := by
  induction makes with
  | grant fits => exact ⟨fun _ => Or.inl, by simp⟩
  | @preempt s stillRunning output victim bm room short chosen freed rest ih =>
      have waits := cfg.schedulingPolicy.victim_mem s.heap chosen
      have fewer : (i :: s.running.erase victim).Nodup :=
        distinct.sublist (List.erase_sublist.cons_cons i)
      obtain ⟨others, refused⟩ := ih fewer
      have logged : victim ∈ room.output.preempted :=
        (rest.frame fewer).preempted.subset (by simp)
      have heapEq : (s.requeue cfg victim bm).heap i = s.heap i := by
        refine setSeq_heap_of_ne s ?_ _
        rintro rfl
        exact (List.nodup_cons.mp distinct).1 waits
      rw [heapEq] at refused
      refine ⟨?_, refused⟩
      intro j later
      by_cases same : j = victim
      · rw [same]
        exact Or.inr logged
      · exact others j ((List.mem_erase_of_ne same).mpr later)
  | giveWay short last others freed =>
      exact ⟨by simp [last], fun _ => Or.inl ⟨rfl, Or.inl (by simp)⟩⟩
  | defer short last first alone unsettled =>
      exact ⟨fun _ => Or.inl, fun _ => Or.inr ⟨rfl, last, rfl, short, unsettled⟩⟩
  | drop short last first alone settled still freed =>
      exact ⟨by simp [last], fun _ => Or.inl ⟨rfl, Or.inr (by simp)⟩⟩

/-- A sequence that keeps its place in its own turn is served, or left as it
was. -/
theorem Serves.own {p p' : Pass} (serves : Serves cfg p i p')
    (distinct : (p.stillRunning ++ i :: p.sched.running).Nodup)
    (kept : i ∈ p'.stillRunning ++ p'.sched.running) :
    Served (p.sched.heap i) (p'.sched.heap i) := by
  have behind := (List.nodup_append'.mp distinct).2.1
  cases serves with
  | skip | limit => exact ⟨_, _, _, rfl⟩
  | prefill => exact ⟨_, _, _, setSeq_heap_self _ _ _⟩
  | @decode left below decoding room bm fresh seq makes granted seqEq appended =>
      have heapEq := ((makes.frame behind).granted granted).2.1
      rw [setSeq_heap_self] at heapEq
      rw [seqEq, heapEq]
      exact ⟨_, _, _, setSeq_heap_self _ _ _⟩
  | @refuse left below decoding room makes refused =>
      rcases (makes.outcome behind).refused refused with ⟨same, _⟩ | ⟨_, _, heapEq, _⟩
      · dsimp only at kept
        rw [same] at kept
        have later := (makes.frame behind).running
        have inside : i ∈ p.stillRunning ∨ i ∈ p.sched.running :=
          (List.mem_append.mp kept).imp_right fun among => later.subset among
        rcases inside with early | late
        · exact absurd List.mem_cons_self ((List.nodup_append'.mp distinct).2.2 early)
        · exact absurd late (List.nodup_cons.mp behind).1
      · rw [setSeq_heap_self] at heapEq
        rw [heapEq]
        exact ⟨_, _, _, rfl⟩

theorem Serves.others {p p' : Pass} (serves : Serves cfg p i p')
    (distinct : (i :: p.sched.running).Nodup) :
    ∀ j ∈ p.sched.running, j ∈ p'.sched.running ∨ j ∈ p'.output.preempted := by
  cases serves with
  | skip | limit | prefill => exact fun _ => Or.inl
  | decode left below decoding makes => exact (makes.outcome distinct).others
  | refuse left below decoding makes => exact (makes.outcome distinct).others

/-- Whoever keeps a place in a turn was served, or is left as it was. -/
theorem Serves.kept {p p' : Pass} (serves : Serves cfg p i p')
    (distinct : (p.stillRunning ++ i :: p.sched.running).Nodup) :
    ∀ j ∈ p'.stillRunning ++ p'.sched.running, Served (p.sched.heap j) (p'.sched.heap j) := by
  have behind := (List.nodup_append'.mp distinct).2.1
  have frame := serves.frame behind
  intro j kept
  by_cases same : j = i
  · subst same
    exact serves.own distinct kept
  · rw [frame.heap j same ?_]
    · exact ⟨_, _, _, rfl⟩
    rcases List.mem_append.mp kept with early | late
    · left
      intro later
      have old : j ∈ p.stillRunning := by
        rcases frame.kept with unchanged | grown
        · rwa [unchanged] at early
        · rw [grown, List.mem_append, List.mem_singleton] at early
          exact early.resolve_right same
      exact (List.nodup_append'.mp distinct).2.2 old (List.mem_cons_of_mem i later)
    · exact Or.inr late

/-! ## The first loop -/

theorem Served.trans {first second third : Sequence} (left : Served first second)
    (right : Served second third) : Served first third := by
  obtain ⟨_, _, _, rfl⟩ := left
  obtain ⟨spec, table, n, rfl⟩ := right
  exact ⟨spec, table, n, rfl⟩

/-- Whoever keeps a place in the loop had one before, and was served or is left
as it was. -/
theorem ServesAll.kept {p last : Pass} (serves : ServesAll cfg p last) (apart : p.Apart) :
    ∀ j ∈ last.stillRunning ++ last.sched.running, j ∈ p.stillRunning ++ p.sched.running ∧
      Served (p.sched.heap j) (last.sched.heap j) := by
  refine serves.keep (fun q => ∀ j ∈ q.stillRunning ++ q.sched.running,
    j ∈ p.stillRunning ++ p.sched.running ∧ Served (p.sched.heap j) (q.sched.heap j)) ?_ apart
    fun _ member => ⟨member, _, _, _, rfl⟩
  intro q next i rest apart head serves frame held j member
  have distinct : (q.stillRunning ++ i :: rest).Nodup := head ▸ apart.distinct
  obtain ⟨place, served⟩ := held j (head ▸ frame.sublist.subset member)
  exact ⟨place, served.trans (serves.kept distinct j member)⟩

/-- What the turns of `schedule`'s first loop leave alone. -/
structure Pass.FrameAll (p last : Pass) : Prop where
  stillRunning : p.stillRunning <+: last.stillRunning
  scheduled : p.output.scheduled <+: last.output.scheduled
  dropped : p.output.dropped <+: last.output.dropped
  heap : ∀ j, j ∉ p.sched.running → last.sched.heap j = p.sched.heap j

theorem ServesAll.frame {p last : Pass} (serves : ServesAll cfg p last)
    (distinct : p.sched.running.Nodup) : Pass.FrameAll p last := by
  induction serves with
  | done empty => exact ⟨List.prefix_rfl, List.prefix_rfl, List.prefix_rfl, fun _ _ => rfl⟩
  | @turn p next last i rest head serves others ih =>
      rw [head] at distinct
      have frame := serves.frame distinct
      obtain ⟨kept, scheduled, dropped, heap⟩ :=
        ih ((List.nodup_cons.mp distinct).2.sublist frame.running)
      have grows : p.stillRunning <+: next.stillRunning := by
        rcases frame.kept with same | grown
        · rw [same]
        · rw [grown]
          exact List.prefix_append _ _
      have adds : p.output.scheduled <+: next.output.scheduled := by
        rcases frame.scheduled with same | ⟨grown, _⟩
        · rw [same]
        · rw [grown]
          exact List.prefix_append _ _
      refine ⟨grows.trans kept, adds.trans scheduled, frame.dropped.trans dropped, ?_⟩
      intro j outside
      rw [head, List.mem_cons, not_or] at outside
      have notNext : j ∉ next.sched.running := fun later =>
        outside.2 (frame.running.subset later)
      rw [heap j notNext]
      exact frame.heap j outside.1 (Or.inl outside.2)

/-- A pass that serves what runs drops the most urgent sequence, or keeps it in
the first place and serves it unless it has tokens in flight. -/
theorem Mixes.head {dropped : List SeqId} {p : Pass} {last : Scheduler} {output : SchedulerOutput}
    (mixes : Mixes cfg s dropped p last output) (inv : s.Inv cfg s.running rows)
    (still : s.Isolated) (budget : 0 < cfg.maxNumBatchedTokens) (seats : 0 < cfg.maxNumSeqs)
    {h : SeqId}
    (urgent : (cfg.schedulingPolicy.byUrgency s.heap s.running).head? = some h) :
    dropped <+: output.dropped ∧
      (output.dropped ≠ dropped ∨
        last.running.head? = some h ∧ Served (s.heap h) (last.heap h) ∧
          ((s.heap h).numPendingTokens ≠ 0 ∨ h ∈ output.scheduled)) := by
  have reordered := cfg.schedulingPolicy.byUrgency_perm s.heap s.running
  obtain ⟨rest, order⟩ : ∃ rest, cfg.schedulingPolicy.byUrgency s.heap s.running = h :: rest := by
    rw [List.head?_eq_some_iff] at urgent
    exact urgent
  have distinct : (h :: rest).Nodup := by
    rw [← order]
    exact reordered.symm.nodup inv.active_nodup
  have member : h ∈ s.running := reordered.mem_iff.mp (order ▸ List.mem_cons_self)
  have isActive := (inv.running member).2.2.2
  have served := mixes.served
  cases served with
  | done empty => exact absurd (order.symm.trans empty) (by simp)
  | @turn _ next _ i rest' headEq serves others =>
      obtain ⟨rfl, rfl⟩ := List.cons.inj (order.symm.trans headEq)
      have left : ¬ Pass.Spent cfg ⟨{ s with running := rest }, [], { dropped := dropped },
          cfg.maxNumBatchedTokens⟩ := by
        simp only [Pass.Spent, List.length_nil]
        omega
      have first := serves.first left rfl rfl still distinct isActive
      have frame := serves.frame distinct
      obtain ⟨kept, scheduled, droppedMore, heap⟩ :=
        others.frame ((List.nodup_cons.mp distinct).2.sublist frame.running)
      have pass := Moves.passInv mixes.serving (inv.start dropped)
      have admitted := mixes.admitted.frame pass.inv.queues_nodup
      have final : next.output.dropped <+: output.dropped := droppedMore.trans admitted.dropped
      refine ⟨frame.dropped.trans final, ?_⟩
      rcases first with droppedEq | ⟨single, servedRecord, progress⟩
      · refine Or.inl fun none => ?_
        rw [droppedEq, none] at final
        exact absurd final.length_le (by simp)
      · obtain ⟨later, runningEq⟩ := single ▸ kept
        obtain ⟨more, lastRunning, lastScheduled⟩ := admitted.running
        have inside : h ∈ p.stillRunning := runningEq ▸ List.mem_cons_self
        have notQueued := (pass.inv.running inside).1
        have notLater : h ∉ next.sched.running := fun later =>
          (List.nodup_cons.mp distinct).1 (frame.running.subset later)
        have heapEq : last.heap h = next.sched.heap h :=
          (admitted.heap h notQueued).trans (heap h notLater)
        refine Or.inr ⟨?_, heapEq ▸ servedRecord, progress.imp_right fun own => ?_⟩
        · rw [lastRunning]
          simp [← runningEq]
        · rw [lastScheduled]
          exact List.mem_append_left _ (scheduled.subset (own ▸ List.mem_cons_self))

/-! ## An idle scheduler admits -/

/-- With nothing running and no connector, every block is free. -/
theorem Inv.length_free (inv : s.Inv cfg s.running rows) (idle : s.running = [])
    (still : s.Isolated) : s.blockManager.freeBlockQueue.length = cfg.numKvcacheBlocks := by
  have accounts := inv.blocks.accounts
  have nothing : s.holdings s.running = [] := by
    simp [holdings, owners, idle, still.1, still.2]
  rw [nothing] at accounts
  have all := accounts.length_free_of_nil
  rw [Finset.card_range] at all
  exact all

/-- A request that may fit at all fits into an idle scheduler. -/
theorem Inv.canAllocate_idle (inv : s.Inv cfg s.running rows) (idle : s.running = [])
    (still : s.Isolated) (member : i ∈ s.waiting) (fits : s.neverFits cfg i = false) :
    ∃ n, s.blockManager.canAllocate cfg (s.heap i) cfg.numLookaheadTokens = .ok (some n) ∧
      n * cfg.blockSize < (s.heap i).numTokens := by
  obtain ⟨result, resultEq, refused, short⟩ := inv.canAllocate member
  cases result with
  | some n => exact ⟨n, resultEq, short n rfl⟩
  | none =>
      have few := refused rfl
      rw [inv.length_free idle still] at few
      simp only [neverFits, decide_eq_false_iff_not] at fits
      exact absurd few fits

theorem admitWaiting_frame {fuel budget : Nat} {output lastOutput : SchedulerOutput}
    {last : Scheduler} (pass : PassInv cfg (s, output) rows) (enough : s.waiting.length < fuel)
    (looped : admitWaiting cfg fuel s output budget = .ok (last, lastOutput)) :
    Admits.Frame s output last lastOutput := by
  obtain ⟨_, _, loopedEq, admits⟩ := admitWaiting_spec fuel budget pass enough
  obtain ⟨rfl, rfl⟩ := Prod.mk.inj (Except.ok.inj (loopedEq.symm.trans looped))
  exact admits.frame pass.inv.queues_nodup

theorem wholePromptsLoop_frame {fuel budget : Nat} {output lastOutput : SchedulerOutput}
    {last : Scheduler} (pass : PassInv cfg (s, output) rows) (enough : s.waiting.length < fuel)
    (looped : wholePromptsLoop cfg fuel s output budget = .ok (last, lastOutput)) :
    Admits.Frame s output last lastOutput := by
  obtain ⟨_, _, loopedEq, admits⟩ := wholePromptsLoop_spec fuel budget pass enough
  obtain ⟨rfl, rfl⟩ := Prod.mk.inj (Except.ok.inj (loopedEq.symm.trans looped))
  exact admits.frame pass.inv.queues_nodup

/-- Either admission loop took its first turn with the head of the queue. -/
def Advanced (output lastOutput : SchedulerOutput) : Prop :=
  lastOutput.scheduled ≠ [] ∨ lastOutput.dropped ≠ output.dropped

theorem advanced_of_drop {output lastOutput : SchedulerOutput}
    (grows : output.dropped ++ [i] <+: lastOutput.dropped) : Advanced output lastOutput := by
  refine Or.inr fun same => ?_
  rw [same] at grows
  exact absurd grows.length_le (by simp)

/-- Without a connector, admitting the head schedules it. -/
theorem admitHead_schedules {rest : List SeqId} {n budget used : Nat} {next : Scheduler}
    {output nextOutput : SchedulerOutput} (isolated : cfg.kvTransfer = none)
    (inv : s.Inv cfg s.running rows) (head : s.waiting = i :: rest)
    (offered : s.blockManager.canAllocate cfg (s.heap i) cfg.numLookaheadTokens = .ok (some n))
    (admitted : s.admitHead cfg i n budget output = .ok (next, nextOutput, used)) :
    nextOutput.scheduled = output.scheduled ++ [i] := by
  obtain ⟨bm, hits, fresh, rfl, allocates⟩ := inv.allocates (head ▸ List.mem_cons_self) offered
  rcases admitHead_spec inv head allocates budget output with ⟨_, _, _, turn⟩ | ⟨connected, _⟩
  · have result := Except.ok.inj (turn.symm.trans admitted)
    rw [← (Prod.mk.inj (Prod.mk.inj result).2).1]
    rfl
  · exact absurd connected (by simp [isolated])

theorem admitWaiting_idle {fuel budget : Nat} {output lastOutput : SchedulerOutput}
    {last : Scheduler} {rest : List SeqId} (isolated : cfg.kvTransfer = none)
    (pass : PassInv cfg (s, output) rows) (idle : s.running = []) (still : s.Isolated)
    (head : s.waiting = i :: rest)
    (left : output.scheduled.length < cfg.maxNumSeqs ∧ 0 < budget)
    (enough : s.waiting.length < fuel)
    (looped : admitWaiting cfg fuel s output budget = .ok (last, lastOutput)) :
    Advanced output lastOutput := by
  have inv : s.Inv cfg s.running rows := pass.inv
  cases fuel with
  | zero => exact absurd enough (Nat.not_lt_zero _)
  | succ fuel =>
      have shorter : rest.length < fuel := by
        rw [head, List.length_cons] at enough
        exact Nat.lt_of_succ_lt_succ enough
      rw [admitWaiting, head] at looped
      simp only [if_pos left] at looped
      cases never : s.neverFits cfg i with
      | true =>
          simp only [never, if_true, dropHead_eq inv head, bind, Except.bind] at looped
          have frame := admitWaiting_frame (pass.dropHead head)
            (by simpa [discard, head] using shorter) looped
          exact advanced_of_drop frame.dropped
      | false =>
          obtain ⟨n, offered, _⟩ := inv.canAllocate_idle idle still (head ▸ List.mem_cons_self) never
          obtain ⟨next, nextOutput, used, admitted, waits, turn⟩ :=
            admitHead_admission someLeft pass head offered left.1 left.2
              fun _ => left.2
          simp only [never, Bool.false_eq_true, if_false, offered, admitted, bind,
            Except.bind] at looped
          have frame := admitWaiting_frame (turn.move.passInv pass)
            (by rw [waits]; exact shorter) looped
          obtain ⟨more, _, scheduled⟩ := frame.running
          refine Or.inl ?_
          rw [scheduled, admitHead_schedules isolated inv head offered admitted]
          simp

theorem wholePromptsLoop_idle {fuel : Nat} {lastOutput : SchedulerOutput}
    {last : Scheduler} {rest : List SeqId} (isolated : cfg.kvTransfer = none)
    (inv : s.Inv cfg s.running rows) (idle : s.running = []) (still : s.Isolated)
    (head : s.waiting = i :: rest) (budget : 0 < cfg.maxNumBatchedTokens)
    (seats : 0 < cfg.maxNumSeqs) (enough : s.waiting.length < fuel)
    (looped : wholePromptsLoop cfg fuel s {} cfg.maxNumBatchedTokens = .ok (last, lastOutput)) :
    Advanced {} lastOutput := by
  have pass := inv.start []
  cases fuel with
  | zero => exact absurd enough (Nat.not_lt_zero _)
  | succ fuel =>
      have shorter : rest.length < fuel := by
        rw [head, List.length_cons] at enough
        exact Nat.lt_of_succ_lt_succ enough
      rw [wholePromptsLoop, head] at looped
      simp only [List.length_nil, if_pos seats] at looped
      have dropped : (do
          let s ← { s with waiting := rest }.drop i .capacity
          wholePromptsLoop cfg fuel s { dropped := [] ++ [i] } cfg.maxNumBatchedTokens) =
            .ok (last, lastOutput) → Advanced {} lastOutput := by
        intro looped
        simp only [dropHead_eq inv head, bind, Except.bind] at looped
        have frame := wholePromptsLoop_frame (pass.dropHead head)
          (by simpa [discard, head] using shorter) looped
        exact advanced_of_drop frame.dropped
      cases never : s.neverFits cfg i with
      | true =>
          simp only [never, if_true] at looped
          exact dropped looped
      | false =>
          obtain ⟨n, offered, short⟩ :=
            inv.canAllocate_idle idle still (head ▸ List.mem_cons_self) never
          have stays : s.loadsRemotely cfg i = false := by simp [loadsRemotely, isolated]
          simp only [never, stays, Bool.false_eq_true, if_false, offered, bind,
            Except.bind] at looped
          by_cases huge : cfg.maxNumBatchedTokens < (s.heap i).numTokens - n * cfg.blockSize
          · rw [if_pos huge] at looped
            exact dropped looped
          · rw [if_neg huge, if_neg huge] at looped
            have fits : s.wholeLeft cfg i n cfg.maxNumBatchedTokens := by
              simp only [wholeLeft, wholeTokens, stays, Bool.false_eq_true, if_false]
              exact Nat.le_of_not_lt huge
            obtain ⟨next, nextOutput, used, admitted, waits, turn⟩ :=
              admitHead_admission (wholeLeft cfg) pass head offered seats fits
                fun _ => budget
            simp only [admitted] at looped
            have frame := wholePromptsLoop_frame (turn.move.passInv pass)
              (by rw [waits]; exact shorter) looped
            obtain ⟨more, _, scheduled⟩ := frame.running
            refine Or.inl ?_
            rw [scheduled, admitHead_schedules isolated inv head offered admitted]
            simp

/-! ## The whole call -/

theorem Mixes.dropped_prefix {dropped : List SeqId} {p : Pass} {last : Scheduler}
    {output : SchedulerOutput} (mixes : Mixes cfg s dropped p last output)
    (inv : s.Inv cfg s.running rows) : dropped <+: output.dropped := by
  have reordered := cfg.schedulingPolicy.byUrgency_perm s.heap s.running
  have served := mixes.served.frame (reordered.symm.nodup inv.active_nodup)
  have pass := Moves.passInv mixes.serving (inv.start dropped)
  exact served.dropped.trans (mixes.admitted.frame pass.inv.queues_nodup).dropped

theorem exists_urgent (policy : SchedulingPolicy) (heap : SeqId → Sequence) {running : List SeqId}
    (busy : running ≠ []) : ∃ h ∈ running, (policy.byUrgency heap running).head? = some h := by
  have reordered := policy.byUrgency_perm heap running
  cases order : policy.byUrgency heap running with
  | nil =>
      rw [order] at reordered
      exact absurd (List.nil_perm.mp reordered) busy
  | cons h rest => exact ⟨h, reordered.mem_iff.mp (order ▸ List.mem_cons_self), rfl⟩

/-- Serving settled sequences schedules or drops one. -/
theorem Mixes.advanced {dropped : List SeqId} {p : Pass} {last : Scheduler}
    {output : SchedulerOutput} (mixes : Mixes cfg s dropped p last output)
    (inv : s.Inv cfg s.running rows) (still : s.Isolated)
    (budget : 0 < cfg.maxNumBatchedTokens) (seats : 0 < cfg.maxNumSeqs)
    (settled : ∀ i ∈ s.running, (s.heap i).numPendingTokens = 0) (some : s.running ≠ []) :
    Advanced {} output := by
  obtain ⟨h, member, urgent⟩ := exists_urgent cfg.schedulingPolicy s.heap some
  obtain ⟨grows, droppedMore | ⟨_, _, pending | scheduled⟩⟩ :=
    mixes.head inv still budget seats urgent
  · refine Or.inr fun none => droppedMore ?_
    rw [none] at grows ⊢
    exact (List.prefix_nil.mp grows).symm
  · exact absurd (settled h member) pending
  · exact Or.inl (List.ne_nil_of_mem scheduled)

/-- Admitting into an idle scheduler schedules or drops a request. -/
theorem Mixes.advanced_idle {p : Pass} {last : Scheduler} {output : SchedulerOutput}
    (mixes : Mixes cfg s [] p last output) (chunked : cfg.enableChunkedPrefill = true)
    (isolated : cfg.kvTransfer = none) (inv : s.Inv cfg s.running rows) (still : s.Isolated)
    (budget : 0 < cfg.maxNumBatchedTokens) (seats : 0 < cfg.maxNumSeqs)
    (idle : s.running = []) {rest : List SeqId} (head : s.waiting = i :: rest) :
    Advanced {} output := by
  have order : cfg.schedulingPolicy.byUrgency s.heap s.running = [] := by
    rw [idle]
    exact List.perm_nil.mp (cfg.schedulingPolicy.byUrgency_perm s.heap [])
  have admitting := mixes.admitting chunked
  have pass := Moves.passInv mixes.serving (inv.start [])
  have served := mixes.served
  cases served with
  | turn head' => exact absurd (order.symm.trans head') (by simp)
  | done _ =>
      refine admitWaiting_idle isolated pass rfl still head ⟨?_, budget⟩ (Nat.lt_succ_self _)
        (admitting rfl)
      simpa using seats

/-- `schedule` does something with requests that are not in flight. -/
theorem Schedules.advanced {last : Scheduler} {output : SchedulerOutput}
    (schedules : Schedules cfg s last output) (isolated : cfg.kvTransfer = none)
    (inv : s.Inv cfg s.running rows) (still : s.Isolated)
    (budget : 0 < cfg.maxNumBatchedTokens) (seats : 0 < cfg.maxNumSeqs)
    (settled : ∀ i ∈ s.running, (s.heap i).numPendingTokens = 0) (busy : s.isFinished = false) :
    Advanced {} output := by
  have queued : s.running = [] → ∃ i rest, s.waiting = i :: rest := by
    intro idle
    refine List.exists_cons_of_ne_nil fun none => ?_
    simp [isFinished, idle, none, still.1, still.2] at busy
  cases schedules with
  | prompts whole looped admits some => exact Or.inl some
  | mixed chunked mixes =>
      by_cases idle : s.running = []
      · obtain ⟨i, rest, head⟩ := queued idle
        exact mixes.advanced_idle chunked isolated inv still budget seats idle head
      · exact mixes.advanced inv still budget seats settled idle
  | @fallback middle _ found _ p whole looped admits none mixes =>
      have pass := Moves.passInv admits.moves (inv.start [])
      have grows := mixes.dropped_prefix pass.inv
      by_cases quiet : found.dropped = []
      · have idle : s.running ≠ [] := by
          intro idle
          obtain ⟨i, rest, head⟩ := queued idle
          rcases wholePromptsLoop_idle isolated inv idle still head budget seats
            (Nat.lt_succ_self _) looped with scheduled | dropped
          · exact scheduled none
          · exact dropped quiet
        have frame := admits.frame inv.queues_nodup
        obtain ⟨more, runningEq, scheduledEq⟩ := frame.running
        obtain rfl : more = [] := by
          rw [none] at scheduledEq
          simpa using scheduledEq.symm
        rw [List.append_nil] at runningEq
        refine mixes.advanced pass.inv
          ((isolated_stable isolated).moves (inv.start []) admits.moves still) budget seats ?_
          (runningEq ▸ idle)
        intro j running
        rw [runningEq] at running
        rw [frame.heap j (inv.running running).1]
        exact settled j running
      · refine Or.inr fun none => quiet ?_
        rw [none] at grows
        exact List.prefix_nil.mp grows

end Scheduler

/-- Without a connector, a scheduler with work and nothing in flight schedules
or drops a request, and every scheduled row has tokens to compute. -/
theorem schedule_makes_progress (cfg : Config) (isolated : cfg.kvTransfer = none)
    (budget : 1 ≤ cfg.maxNumBatchedTokens) (seats : 1 ≤ cfg.maxNumSeqs) (s : Scheduler)
    (between : Between cfg s) (settled : ∀ i ∈ s.running, (s.heap i).numPendingTokens = 0)
    (busy : s.isFinished = false) :
    ∃ last output, s.schedule cfg = .ok (last, output) ∧
      (output.scheduled ≠ [] ∨ output.dropped ≠ []) ∧
      ∀ i ∈ output.scheduled, 1 ≤ (last.heap i).numScheduledTokens := by
  obtain ⟨rows, inv⟩ := between.inv
  have still := (Scheduler.isolated_stable isolated).kept.between ⟨rfl, rfl⟩ between
  obtain ⟨last, output, scheduled, schedules, moves⟩ := Scheduler.schedule_spec inv
  have pass : Scheduler.PassInv cfg (last.withConnectorMeta cfg output) rows :=
    Scheduler.schedule_passInv inv scheduled
  have none : output.kvConnectorMetadata = none := Scheduler.Moves.metadata moves
  obtain ⟨_, sameScheduled, sameDropped⟩ := last.withConnectorMeta_snd cfg none
  refine ⟨(last.withConnectorMeta cfg output).1, (last.withConnectorMeta cfg output).2, scheduled,
    ?_, fun i member => (pass.ready i member).positive isolated⟩
  rw [sameScheduled, sameDropped]
  exact schedules.advanced isolated inv still budget seats settled busy

/-- The sample engine with its request queued. -/
theorem schedule_makes_progress_sample :
    ∃ last output, LLMEngine.sampleQueued.scheduler.schedule .sample = .ok (last, output) ∧
      (output.scheduled ≠ [] ∨ output.dropped ≠ []) ∧
      ∀ i ∈ output.scheduled, 1 ≤ (last.heap i).numScheduledTokens :=
  schedule_makes_progress .sample rfl (by decide) (by decide) _
    (.boundary ⟨_, LLMEngine.sampleQueued_run⟩) (by decide +kernel) (by decide +kernel)

end LeanVllm
