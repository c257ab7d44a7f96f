import LeanVllm.Engine.Moves

/-!
# The loops of `schedule`

Each loop is described by the turns it takes, and a pass through the loops is a
run of moves.  The loops end and raise nothing in every state that satisfies
the invariant.
-/

namespace LeanVllm

open Collections

namespace Sequence

/-- The record after `schedule` drops the drafts that do not fit into the
budget or the token limit. -/
def trimmed (seq : Sequence) (budget : Nat) : Sequence :=
  { seq with
    specTokenIds := seq.specTokenIds.take
      (min budget (seq.maxTokens - (seq.numPlannedTokens - seq.numPromptTokens)) - 1) }

end Sequence

namespace Scheduler

variable {cfg : Config} {rows : List LaunchedRow} {i : SeqId} {numLookahead : Nat}

/-! ## Making room -/

/-- The turns of `_make_room` for sequence `i`, and what they leave behind. -/
inductive MakesRoom (cfg : Config) (i : SeqId) (numLookahead : Nat) :
    Scheduler → List SeqId → SchedulerOutput → Room → Prop
  | grant {s : Scheduler} {stillRunning : List SeqId} {output : SchedulerOutput}
      (fits : s.blockManager.canAppend cfg (s.heap i) numLookahead = true) :
      MakesRoom cfg i numLookahead s stillRunning output ⟨true, s, stillRunning, output⟩
  | preempt {s : Scheduler} {stillRunning : List SeqId} {output : SchedulerOutput}
      {victim : SeqId} {bm : BlockManager} {room : Room}
      (short : s.blockManager.canAppend cfg (s.heap i) numLookahead = false)
      (chosen : cfg.schedulingPolicy.victim s.heap s.running = some victim)
      (freed : BlockManager.dropReferences (s.heap victim).blockTable.reverse s.blockManager =
        .ok bm)
      (rest : MakesRoom cfg i numLookahead (s.requeue cfg victim bm) stillRunning
        { output with preempted := output.preempted ++ [victim] } room) :
      MakesRoom cfg i numLookahead s stillRunning output room
  | giveWay {s : Scheduler} {stillRunning : List SeqId} {output : SchedulerOutput}
      {bm : BlockManager}
      (short : s.blockManager.canAppend cfg (s.heap i) numLookahead = false)
      (last : s.running = []) (others : stillRunning ≠ [] ∨ output.scheduled ≠ [])
      (freed : BlockManager.dropReferences (s.heap i).blockTable.reverse s.blockManager = .ok bm) :
      MakesRoom cfg i numLookahead s stillRunning output
        ⟨false, s.requeue cfg i bm, stillRunning,
          { output with preempted := output.preempted ++ [i] }⟩
  | defer {s : Scheduler} {stillRunning : List SeqId} {output : SchedulerOutput}
      (short : s.blockManager.canAppend cfg (s.heap i) numLookahead = false)
      (last : s.running = []) (first : stillRunning = []) (alone : output.scheduled = [])
      (unsettled : (s.heap i).numPendingTokens ≠ 0 ∨ s.recving.entries ≠ [] ∨
        s.sending.entries ≠ []) :
      MakesRoom cfg i numLookahead s stillRunning output
        ⟨false, s, stillRunning ++ [i], output⟩
  | drop {s : Scheduler} {stillRunning : List SeqId} {output : SchedulerOutput}
      {bm : BlockManager}
      (short : s.blockManager.canAppend cfg (s.heap i) numLookahead = false)
      (last : s.running = []) (first : stillRunning = []) (alone : output.scheduled = [])
      (settled : (s.heap i).numPendingTokens = 0)
      (still : s.recving.entries = [] ∧ s.sending.entries = [])
      (freed : BlockManager.dropReferences (s.heap i).blockTable.reverse s.blockManager = .ok bm) :
      MakesRoom cfg i numLookahead s stillRunning output
        ⟨false, s.discard i ((s.heap i).released.closed .capacity) bm, stillRunning,
          { output with dropped := output.dropped ++ [i] }⟩

theorem erase_victim {stillRunning running : List SeqId} {victim : SeqId}
    (distinct : (stillRunning ++ i :: running).Nodup) (waits : victim ∈ running) :
    (stillRunning ++ i :: running).erase victim = stillRunning ++ i :: running.erase victim := by
  rw [List.nodup_append', List.nodup_cons] at distinct
  obtain ⟨_, ⟨notLater, _⟩, apart⟩ := distinct
  have different : i ≠ victim := by
    rintro rfl
    exact notLater waits
  rw [List.erase_append_right _ fun early => apart early (List.mem_cons_of_mem _ waits),
    List.erase_cons_tail (by simpa using different)]

theorem erase_self {stillRunning running : List SeqId}
    (distinct : (stillRunning ++ i :: running).Nodup) :
    (stillRunning ++ i :: running).erase i = stillRunning ++ running := by
  rw [List.nodup_append'] at distinct
  rw [List.erase_append_right _ fun early => distinct.2.2 early List.mem_cons_self,
    List.erase_cons_head]

/-- `_preempt` on a victim taken out of `running`. -/
theorem preempt_victim (cfg : Config) {s : Scheduler} {victim : SeqId} {bm : BlockManager}
    (waits : victim ∈ s.running)
    (freed : BlockManager.dropReferences (s.heap victim).blockTable.reverse s.blockManager =
      .ok bm) (output : SchedulerOutput) :
    (SchedulingPolicy.remove s.running victim >>= fun running =>
      preempt cfg { s with running := running } victim output) =
      .ok (s.requeue cfg victim bm,
        { output with preempted := output.preempted ++ [victim] }) := by
  rw [SchedulingPolicy.remove_of_mem waits]
  exact preempt_eq (s := { s with running := s.running.erase victim }) freed output

/-- `_make_room` ends, within as many turns as there are victims. -/
theorem makeRoom_spec (numLookahead : Nat) {s : Scheduler} {stillRunning : List SeqId}
    (output : SchedulerOutput) (fuel : Nat) (inv : s.Inv cfg (stillRunning ++ i :: s.running) rows)
    (enough : s.running.length < fuel) :
    ∃ room, makeRoom cfg i numLookahead fuel s stillRunning output = .ok room ∧
      MakesRoom cfg i numLookahead s stillRunning output room := by
  induction fuel generalizing s output with
  | zero => exact absurd enough (Nat.not_lt_zero _)
  | succ fuel ih =>
      have member : i ∈ stillRunning ++ i :: s.running := by simp
      have plays := inv.running member
      rw [makeRoom]
      cases fits : s.blockManager.canAppend cfg (s.heap i) numLookahead with
      | true => exact ⟨_, if_pos rfl, .grant fits⟩
      | false =>
          simp only [Bool.false_eq_true, if_false]
          obtain ⟨bm, freed, blocks, keeps, _⟩ := inv.release plays (Or.inl rfl)
          cases chosen : cfg.schedulingPolicy.victim s.heap s.running with
          | some victim =>
              have waits := cfg.schedulingPolicy.victim_mem s.heap chosen
              have inside : victim ∈ stillRunning ++ i :: s.running := by simp [waits]
              obtain ⟨bm, freed, blocks, keeps, _⟩ := inv.release (inv.running inside) (Or.inl rfl)
              have next := inv.preempt inside blocks keeps
              rw [erase_victim inv.active_nodup waits] at next
              have shorter : (s.requeue cfg victim bm).running.length < fuel := by
                have length := List.length_erase_of_mem waits
                have positive := List.length_pos_of_mem waits
                simp only [requeue, length]
                omega
              obtain ⟨room, made, makes⟩ := ih _ next shorter
              refine ⟨room, ?_, .preempt fits chosen freed makes⟩
              have evicted := preempt_victim cfg waits freed output
              simp only [bind, Except.bind] at evicted ⊢
              rw [SchedulingPolicy.remove_of_mem waits] at evicted ⊢
              simp only [evicted]
              exact made
          | none =>
              have last := (cfg.schedulingPolicy.victim_eq_none_iff s.heap).mp chosen
              have stateEq : { s.requeue cfg i bm with running := s.running } =
                  s.requeue cfg i bm := by
                simp [requeue, last]
              dsimp only
              by_cases others : stillRunning ≠ [] ∨ output.scheduled ≠ []
              · refine ⟨_, ?_, .giveWay fits last others freed⟩
                rw [if_pos others]
                simp only [preempt_eq freed, bind, Except.bind, stateEq]
              · rw [if_neg others]
                push Not at others
                by_cases pending : (s.heap i).numPendingTokens ≠ 0
                · exact ⟨_, if_pos pending, .defer fits last others.1 others.2 (Or.inl pending)⟩
                · rw [if_neg pending]
                  by_cases moving : s.recving.entries ≠ [] ∨ s.sending.entries ≠ []
                  · exact ⟨_, if_pos moving, .defer fits last others.1 others.2 (Or.inr moving)⟩
                  · rw [if_neg moving]
                    push Not at moving pending
                    refine ⟨_, ?_, .drop fits last others.1 others.2 pending moving freed⟩
                    obtain ⟨notQueued, _, ⟨live, _⟩, _⟩ := plays
                    have heapEq : (s.renew i (s.heap i).released bm).heap i =
                        (s.heap i).released := setSeq_heap_self s i _
                    have dropped := drop_eq (s := s.renew i (s.heap i).released bm) (i := i)
                      (by rw [heapEq]; exact live) .capacity
                    simp only [deallocate_eq freed, dropped, bind, Except.bind, heapEq]
                    simp [discard, renew, last, List.erase_of_not_mem notQueued, setSeq,
                      Sequence.released]

/-- What `_make_room` leaves alone: the sequences already served, the waiting
ones it did not preempt, and the sequence itself if it may grow. -/
structure Room.Frame (cfg : Config) (i : SeqId) (numLookahead : Nat) (s : Scheduler)
    (stillRunning : List SeqId) (output : SchedulerOutput) (room : Room) : Prop where
  scheduled : room.output.scheduled = output.scheduled
  preempted : output.preempted <+: room.output.preempted
  dropped : output.dropped <+: room.output.dropped
  kept : room.stillRunning = stillRunning ∨ room.stillRunning = stillRunning ++ [i]
  running : room.sched.running.Sublist s.running
  heap : ∀ j, j ≠ i → j ∉ s.running ∨ j ∈ room.sched.running →
    room.sched.heap j = s.heap j
  granted : room.granted = true → room.stillRunning = stillRunning ∧
    room.sched.heap i = s.heap i ∧
    room.sched.blockManager.canAppend cfg (room.sched.heap i) numLookahead = true

theorem MakesRoom.frame {s : Scheduler} {stillRunning : List SeqId} {output : SchedulerOutput}
    {room : Room} (makes : MakesRoom cfg i numLookahead s stillRunning output room)
    (distinct : (i :: s.running).Nodup) :
    Room.Frame cfg i numLookahead s stillRunning output room := by
  induction makes with
  | grant fits =>
      exact ⟨rfl, List.prefix_rfl, List.prefix_rfl, Or.inl rfl, List.Sublist.refl _,
        fun _ _ _ => rfl, fun _ => ⟨rfl, rfl, fits⟩⟩
  | @preempt s stillRunning output victim bm room short chosen freed rest ih =>
      have waits := cfg.schedulingPolicy.victim_mem s.heap chosen
      have fewer : (s.requeue cfg victim bm).running.Sublist s.running := List.erase_sublist
      obtain ⟨scheduled, preempted, dropped, kept, running, heap, granted⟩ :=
        ih (distinct.sublist (fewer.cons_cons i))
      have other : ∀ j, j ≠ victim → (s.requeue cfg victim bm).heap j = s.heap j :=
        fun j different => setSeq_heap_of_ne s different _
      have later := (List.nodup_cons.mp distinct).2
      refine ⟨scheduled, (List.prefix_append _ _).trans preempted, dropped, kept,
        running.trans fewer, ?_, ?_⟩
      · intro j notSelf untouched
        have notVictim : j ≠ victim := by
          rintro rfl
          rcases untouched with outside | kept
          · exact outside waits
          · exact later.not_mem_erase (running.subset kept)
        rw [heap j notSelf (untouched.imp_left fun outside inside =>
          outside (List.mem_of_mem_erase inside)), other j notVictim]
      · intro isGranted
        obtain ⟨same, heapEq, fits⟩ := granted isGranted
        refine ⟨same, heapEq.trans (other i ?_), fits⟩
        rintro rfl
        exact (List.nodup_cons.mp distinct).1 waits
  | @giveWay s stillRunning output bm short last others freed =>
      refine ⟨rfl, List.prefix_append _ _, List.prefix_rfl, Or.inl rfl, List.erase_sublist,
        fun j notSelf _ => setSeq_heap_of_ne s notSelf _, ?_⟩
      simp
  | defer short last first alone unsettled =>
      exact ⟨rfl, List.prefix_rfl, List.prefix_rfl, Or.inr rfl, List.Sublist.refl _,
        fun _ _ _ => rfl, by simp⟩
  | @drop s stillRunning output bm short last first alone settled still freed =>
      refine ⟨rfl, List.prefix_rfl, List.prefix_append _ _, Or.inl rfl, List.erase_sublist,
        fun j notSelf _ => setSeq_heap_of_ne s notSelf _, ?_⟩
      simp

/-- The sequences still active after `_make_room`. -/
def Room.active (i : SeqId) (room : Room) : List SeqId :=
  room.stillRunning ++ if room.granted then i :: room.sched.running else room.sched.running

theorem MakesRoom.moves {s : Scheduler} {stillRunning : List SeqId} {output : SchedulerOutput}
    {room : Room} (makes : MakesRoom cfg i numLookahead s stillRunning output room)
    (distinct : (stillRunning ++ i :: s.running).Nodup)
    (idle : ∀ j ∈ i :: s.running, j ∉ output.scheduled) :
    Moves cfg ({ s with running := stillRunning ++ i :: s.running }, output)
      ({ room.sched with running := room.active i }, room.output) := by
  induction makes with
  | grant fits => exact .refl
  | @preempt s stillRunning output victim bm room short chosen freed rest ih =>
      have waits := cfg.schedulingPolicy.victim_mem s.heap chosen
      have shorter := erase_victim distinct waits
      have move : Move cfg ({ s with running := stillRunning ++ i :: s.running }, output) _ :=
        .preempt (i := victim) (by simp [waits]) (idle victim (by simp [waits])) freed
      have stateEq : requeue cfg { s with running := stillRunning ++ i :: s.running } victim bm =
          { s.requeue cfg victim bm with
            running := stillRunning ++ i :: (s.requeue cfg victim bm).running } := by
        simp only [requeue, shorter, setSeq]
      rw [stateEq] at move
      refine .head move (ih ?_ ?_)
      · show (stillRunning ++ i :: s.running.erase victim).Nodup
        rw [← shorter]
        exact distinct.erase victim
      · intro j member
        refine idle j ?_
        rcases List.mem_cons.mp member with rfl | later
        · exact List.mem_cons_self
        · exact List.mem_cons_of_mem _ (List.mem_of_mem_erase later)
  | @giveWay s stillRunning output bm short last others freed =>
      have move : Move cfg ({ s with running := stillRunning ++ i :: s.running }, output) _ :=
        .preempt (i := i) (by simp) (idle i List.mem_cons_self) freed
      have stateEq : requeue cfg { s with running := stillRunning ++ i :: s.running } i bm =
          { s.requeue cfg i bm with
            running := stillRunning ++ (s.requeue cfg i bm).running } := by
        simp only [requeue, setSeq, erase_self distinct]
        simp only [last, List.erase_nil]
      rw [stateEq] at move
      exact .single move
  | defer short last first alone unsettled =>
      rw [Room.active, last, first]
      exact .refl
  | @drop s stillRunning output bm short last first alone settled still freed =>
      have move : Move cfg ({ s with running := stillRunning ++ i :: s.running }, output) _ :=
        .dropRunning (i := i) (by simp) (idle i List.mem_cons_self) settled freed
      have stateEq : discard { s with running := stillRunning ++ i :: s.running } i
            ((s.heap i).released.closed .capacity) bm =
          { s.discard i ((s.heap i).released.closed .capacity) bm with
            running := stillRunning ++
              (s.discard i ((s.heap i).released.closed .capacity) bm).running } := by
        simp only [discard, setSeq, erase_self distinct]
        simp only [last, List.erase_nil]
      rw [stateEq] at move
      exact .single move

/-! ## Serving the running sequences -/

/-- No budget or no row is left. -/
def Pass.Spent (cfg : Config) (p : Pass) : Prop :=
  p.budget = 0 ∨ cfg.maxNumSeqs ≤ p.output.scheduled.length

/-- The lookahead `schedule` asks for a decoding sequence. -/
def Pass.lookahead (cfg : Config) (p : Pass) (i : SeqId) : Nat :=
  ((p.sched.heap i).trimmed p.budget).specTokenIds.length + cfg.numLookaheadTokens

/-- One turn of `schedule`'s first loop, for the sequence `i` just popped. -/
inductive Serves (cfg : Config) (p : Pass) (i : SeqId) : Pass → Prop
  | skip (spent : p.Spent cfg) :
      Serves cfg p i { p with stillRunning := p.stillRunning ++ [i] }
  | limit (left : ¬ p.Spent cfg)
      (reached : (p.sched.heap i).maxTokens ≤
        (p.sched.heap i).numPlannedTokens - (p.sched.heap i).numPromptTokens) :
      Serves cfg p i { p with stillRunning := p.stillRunning ++ [i] }
  | prefill (left : ¬ p.Spent cfg)
      (below : (p.sched.heap i).numPlannedTokens - (p.sched.heap i).numPromptTokens <
        (p.sched.heap i).maxTokens)
      (prefill : (p.sched.heap i).isPrefill = true) {n : Nat}
      (numEq : (p.sched.heap i).numToSchedule cfg p.budget = n) :
      Serves cfg p i
        ⟨p.sched.renew i { p.sched.heap i with numScheduledTokens := n } p.sched.blockManager,
          p.stillRunning ++ [i], p.output.withScheduled i (p.sched.heap i) n, p.budget - n⟩
  | decode (left : ¬ p.Spent cfg)
      (below : (p.sched.heap i).numPlannedTokens - (p.sched.heap i).numPromptTokens <
        (p.sched.heap i).maxTokens)
      (decoding : (p.sched.heap i).isPrefill = false) {room : Room} {bm : BlockManager}
      {fresh : List BlockId} {seq : Sequence}
      (makes : MakesRoom cfg i (p.lookahead cfg i)
        (p.sched.setSeq i ((p.sched.heap i).trimmed p.budget)) p.stillRunning p.output room)
      (granted : room.granted = true)
      (seqEq : seq = { room.sched.heap i with
        blockTable := (room.sched.heap i).blockTable ++ fresh })
      (appended : room.sched.blockManager.mayAppend cfg (room.sched.heap i)
        (p.lookahead cfg i) = .ok (bm, seq)) :
      Serves cfg p i
        ⟨room.sched.renew i { seq with numScheduledTokens := 1 + seq.specTokenIds.length } bm,
          room.stillRunning ++ [i],
          room.output.withScheduled i seq (1 + seq.specTokenIds.length),
          p.budget - (1 + seq.specTokenIds.length)⟩
  | refuse (left : ¬ p.Spent cfg)
      (below : (p.sched.heap i).numPlannedTokens - (p.sched.heap i).numPromptTokens <
        (p.sched.heap i).maxTokens)
      (decoding : (p.sched.heap i).isPrefill = false) {room : Room}
      (makes : MakesRoom cfg i (p.lookahead cfg i)
        (p.sched.setSeq i ((p.sched.heap i).trimmed p.budget)) p.stillRunning p.output room)
      (refused : room.granted = false) :
      Serves cfg p i ⟨room.sched, room.stillRunning, room.output, p.budget⟩

/-- The state of a pass between two turns. -/
def Pass.view (p : Pass) : Scheduler × SchedulerOutput :=
  ({ p.sched with running := p.stillRunning ++ p.sched.running }, p.output)

/-- The state of a pass in the turn of `i`. -/
def Pass.viewIn (p : Pass) (i : SeqId) : Scheduler × SchedulerOutput :=
  ({ p.sched with running := p.stillRunning ++ i :: p.sched.running }, p.output)

/-- The record a prefilling sequence is scheduled with is ready. -/
theorem ready_prefill (seq : Sequence) {budget : Nat} (prefill : seq.isPrefill = true)
    (short : seq.numCachedTokens < seq.numTokens)
    (left : cfg.kvTransfer = none → 0 < budget) :
    { seq with numScheduledTokens := seq.numToSchedule cfg budget }.Ready cfg where
  positive isolated := by
    have left := left isolated
    simp only [Sequence.numToSchedule, prefill, if_true]
    split <;> omega
  prefilling _ := by
    simp only [Sequence.numToSchedule, prefill, if_true, Sequence.numTokens] at short ⊢
    split <;> omega
  decoding decoding := absurd (prefill.symm.trans decoding) (by simp)

/-- The record a decoding sequence is scheduled with is ready. -/
theorem ready_decode {p : Pass} {seq : Sequence} {fresh : List BlockId}
    (left : ¬ p.Spent cfg)
    (below : (p.sched.heap i).numPlannedTokens - (p.sched.heap i).numPromptTokens <
      (p.sched.heap i).maxTokens)
    (decoding : (p.sched.heap i).isPrefill = false)
    (seqEq : seq = { (p.sched.heap i).trimmed p.budget with
      blockTable := (p.sched.heap i).blockTable ++ fresh })
    (covered : (p.sched.heap i).numPlannedTokens + p.lookahead cfg i ≤
      seq.blockTable.length * cfg.blockSize) :
    { seq with numScheduledTokens := 1 + seq.specTokenIds.length }.Ready cfg where
  positive _ := Nat.lt_add_right _ Nat.zero_lt_one
  prefilling prefill := by
    subst seqEq
    exact absurd (decoding.symm.trans prefill) (by simp)
  decoding _ := by
    subst seqEq
    refine ⟨rfl, ?_, ?_⟩
    · have := Nat.pos_of_ne_zero fun spent => left (Or.inl spent)
      simp only [Sequence.numPlannedTokens, Sequence.numTokens, Sequence.trimmed,
        List.length_take] at below ⊢
      omega
    · exact (Nat.le_of_eq (Nat.add_assoc _ _ _)).trans covered

/-- A decoding sequence asks for no slot past its limit and the drafts of one
more step. -/
theorem lookahead_within {p : Pass}
    (below : (p.sched.heap i).numPlannedTokens - (p.sched.heap i).numPromptTokens <
      (p.sched.heap i).maxTokens) :
    (p.sched.heap i).numPlannedTokens + p.lookahead cfg i ≤
      (p.sched.heap i).numPromptTokens + (p.sched.heap i).maxTokens +
        cfg.numSpeculativeTokens := by
  simp only [Pass.lookahead, Sequence.trimmed, List.length_take, Config.numLookaheadTokens]
  omega

/-- The code of a decoding sequence's turn, once room was made or refused. -/
theorem serve_decode {p : Pass} {room : Room} (left : ¬ p.Spent cfg)
    (below : (p.sched.heap i).numPlannedTokens - (p.sched.heap i).numPromptTokens <
      (p.sched.heap i).maxTokens)
    (decoding : (p.sched.heap i).isPrefill = false)
    (made : makeRoom cfg i (p.lookahead cfg i) (p.sched.running.length + 1)
      (p.sched.setSeq i ((p.sched.heap i).trimmed p.budget)) p.stillRunning p.output = .ok room) :
    serve cfg p i = (do
      let room ←
        if room.granted then do
          let (bm, seq) ← room.sched.blockManager.mayAppend cfg (room.sched.heap i)
            (p.lookahead cfg i)
          .ok { room with sched := { room.sched.setSeq i seq with blockManager := bm } }
        else .ok room
      if room.granted then
        let (s, output, used) := room.sched.scheduleSeq cfg i p.budget room.output
        .ok ⟨s, room.stillRunning ++ [i], output, p.budget - used⟩
      else .ok ⟨room.sched, room.stillRunning, room.output, p.budget⟩) := by
  have made' : makeRoom cfg i
      (((p.sched.heap i).trimmed p.budget).specTokenIds.length + cfg.numLookaheadTokens)
      ((p.sched.setSeq i ((p.sched.heap i).trimmed p.budget)).running.length + 1)
      (p.sched.setSeq i ((p.sched.heap i).trimmed p.budget)) p.stillRunning p.output =
        .ok room := made
  simp only [Sequence.trimmed, decoding] at made'
  have open' : ¬ (p.budget = 0 ∨ cfg.maxNumSeqs ≤ p.output.scheduled.length) := left
  rw [serve, if_neg open', if_neg (Nat.not_le_of_lt below)]
  simp only [decoding, Bool.false_eq_true, if_false, made', bind, Except.bind]
  rfl

/-- A turn of the first loop succeeds, and is a run of moves. -/
theorem serve_spec {p : Pass} (pass : PassInv cfg (p.viewIn i) rows)
    (idle : ∀ j ∈ i :: p.sched.running, j ∉ p.output.scheduled) :
    ∃ p', serve cfg p i = .ok p' ∧ Serves cfg p i p' ∧ Moves cfg (p.viewIn i) p'.view := by
  have inv := pass.inv
  have member : i ∈ p.stillRunning ++ i :: p.sched.running := by simp
  have isActive := (inv.running member).2.2.2
  have kept : (p.viewIn i) = Pass.view { p with stillRunning := p.stillRunning ++ [i] } := by
    simp [Pass.viewIn, Pass.view]
  by_cases spent : p.Spent cfg
  · exact ⟨_, if_pos spent, .skip spent, kept ▸ .refl⟩
  · by_cases reached : (p.sched.heap i).maxTokens ≤
        (p.sched.heap i).numPlannedTokens - (p.sched.heap i).numPromptTokens
    · exact ⟨_, (if_neg spent).trans (if_pos reached), .limit spent reached, kept ▸ .refl⟩
    · have below := Nat.lt_of_not_le reached
      cases prefill : (p.sched.heap i).isPrefill with
      | true =>
          refine ⟨_, ?_, .prefill spent below prefill rfl, ?_⟩
          · refine ((if_neg spent).trans (if_neg reached)).trans ?_
            simp only [prefill, if_true, bind, Except.bind, scheduleSeq_eq]
            rfl
          · have ready : { p.sched.heap i with
                numScheduledTokens := (p.sched.heap i).numToSchedule cfg p.budget }.Ready cfg :=
              ready_prefill _ prefill (isActive.prefilling prefill).2.2.1
                fun _ => Nat.pos_of_ne_zero fun none => spent (Or.inl none)
            have move : Move cfg (p.viewIn i) _ :=
              .serve member (idle i List.mem_cons_self) ready
            simp only [Pass.view, List.append_assoc, List.singleton_append]
            exact .single move
      | false =>
          have trim : Move cfg (p.viewIn i)
              (Pass.viewIn { p with
                sched := p.sched.setSeq i ((p.sched.heap i).trimmed p.budget) } i) :=
            .trim member (idle i List.mem_cons_self) _
          have trimmed := trim.passInv pass
          have trimmedInv : (p.sched.setSeq i ((p.sched.heap i).trimmed p.budget)).Inv cfg
              (p.stillRunning ++ i :: p.sched.running) rows :=
            trimmed.inv.withRunning p.sched.running
          obtain ⟨room, made, makes⟩ := makeRoom_spec (p.lookahead cfg i) p.output
            (p.sched.running.length + 1) trimmedInv (Nat.lt_succ_self _)
          have frame := makes.frame (List.Nodup.sublist (List.sublist_append_right _ _)
            trimmedInv.active_nodup)
          have roomMoves := makes.moves trimmedInv.active_nodup idle
          have roomPass := Moves.passInv roomMoves trimmed
          have code := serve_decode spent below prefill made
          cases granted : room.granted with
          | false =>
              refine ⟨⟨room.sched, room.stillRunning, room.output, p.budget⟩, ?_,
                .refuse spent below prefill makes granted, ?_⟩
              · rw [code]
                simp [granted, bind, Except.bind]
              · rw [Room.active, granted] at roomMoves
                exact .head trim roomMoves
          | true =>
              obtain ⟨same, heapEq, fits⟩ := frame.granted granted
              have inside : i ∈ room.active i := by simp [Room.active, granted]
              have roomInv := roomPass.inv.withRunning room.sched.running
              obtain ⟨bm, fresh, appended⟩ := roomInv.mayAppend inside fits
              have notScheduled : i ∉ room.output.scheduled := by
                rw [frame.scheduled]
                exact idle i List.mem_cons_self
              have recordEq : room.sched.heap i = (p.sched.heap i).trimmed p.budget :=
                heapEq.trans (setSeq_heap_self _ _ _)
              have within : (room.sched.heap i).numPlannedTokens + p.lookahead cfg i ≤
                  (room.sched.heap i).numPromptTokens + (room.sched.heap i).maxTokens +
                    cfg.numSpeculativeTokens := by
                rw [recordEq]
                exact lookahead_within below
              have append : Move cfg
                  ({ room.sched with running := room.active i }, room.output) _ :=
                .append inside notScheduled within fits appended
              have covered := (roomInv.append inside fits appended).2.2.1
              let seq : Sequence := { room.sched.heap i with
                blockTable := (room.sched.heap i).blockTable ++ fresh }
              have seqEq : seq = { (p.sched.heap i).trimmed p.budget with
                  blockTable := (p.sched.heap i).blockTable ++ fresh } := by
                simp only [seq, recordEq]
                rfl
              have ready := ready_decode spent below prefill seqEq (by
                simp only [recordEq] at covered
                rw [seqEq]
                exact covered)
              have serve : Move cfg
                  ({ room.sched with running := room.active i }.renew i seq bm, room.output)
                  ({ room.sched.renew i
                      { seq with numScheduledTokens := 1 + seq.specTokenIds.length } bm with
                      running := room.active i },
                    room.output.withScheduled i seq (1 + seq.specTokenIds.length)) := by
                have move : Move cfg
                    ({ room.sched with running := room.active i }.renew i seq bm, room.output) _ :=
                  .serve (i := i) (n := 1 + seq.specTokenIds.length) inside notScheduled
                    (by rw [renew_heap_self]; exact ready)
                simp only [renew_heap_self, renew_renew] at move
                exact move
              refine ⟨_, ?_, .decode spent below prefill makes granted rfl appended, ?_⟩
              · have stays : seq.isPrefill = false := by
                  rw [seqEq]
                  exact prefill
                rw [code]
                simp only [granted, if_true, appended, bind, Except.bind, scheduleSeq_eq]
                have numEq : seq.numToSchedule cfg p.budget = 1 + seq.specTokenIds.length := by
                  simp [Sequence.numToSchedule, stays]
                have heapEq' : Scheduler.heap { room.sched.setSeq i seq with blockManager := bm } i =
                    seq := setSeq_heap_self room.sched i seq
                simp only [seq] at heapEq' numEq
                simp only [heapEq', numEq]
                simp [renew, setSeq]
              · have viewEq : Pass.view ⟨room.sched.renew i
                    { seq with numScheduledTokens := 1 + seq.specTokenIds.length } bm,
                    room.stillRunning ++ [i],
                    room.output.withScheduled i seq (1 + seq.specTokenIds.length),
                    p.budget - (1 + seq.specTokenIds.length)⟩ =
                    ({ room.sched.renew i
                      { seq with numScheduledTokens := 1 + seq.specTokenIds.length } bm with
                      running := room.active i },
                      room.output.withScheduled i seq (1 + seq.specTokenIds.length)) := by
                  simp [Pass.view, Room.active, granted, renew, setSeq]
                rw [viewEq]
                exact .head trim (.trans roomMoves (.head append (.single serve)))

/-- What a turn leaves alone. -/
structure Pass.Frame (i : SeqId) (p p' : Pass) : Prop where
  scheduled : p'.output.scheduled = p.output.scheduled ∨
    p'.output.scheduled = p.output.scheduled ++ [i] ∧ p'.stillRunning = p.stillRunning ++ [i]
  preempted : p.output.preempted <+: p'.output.preempted
  dropped : p.output.dropped <+: p'.output.dropped
  kept : p'.stillRunning = p.stillRunning ∨ p'.stillRunning = p.stillRunning ++ [i]
  running : p'.sched.running.Sublist p.sched.running
  heap : ∀ j, j ≠ i → j ∉ p.sched.running ∨ j ∈ p'.sched.running →
    p'.sched.heap j = p.sched.heap j

theorem Serves.frame {p p' : Pass} (serves : Serves cfg p i p')
    (distinct : (i :: p.sched.running).Nodup) : Pass.Frame i p p' := by
  cases serves with
  | skip spent =>
      exact ⟨Or.inl rfl, List.prefix_rfl, List.prefix_rfl, Or.inr rfl, List.Sublist.refl _,
        fun _ _ _ => rfl⟩
  | limit left reached =>
      exact ⟨Or.inl rfl, List.prefix_rfl, List.prefix_rfl, Or.inr rfl, List.Sublist.refl _,
        fun _ _ _ => rfl⟩
  | prefill left below prefill numEq =>
      exact ⟨Or.inr ⟨rfl, rfl⟩, List.prefix_rfl, List.prefix_rfl, Or.inr rfl,
        List.Sublist.refl _, fun j notSelf _ => setSeq_heap_of_ne _ notSelf _⟩
  | @decode left below decoding room bm fresh seq makes granted seqEq appended =>
      have frame := makes.frame distinct
      have same := (frame.granted granted).1
      refine ⟨Or.inr ⟨congrArg (· ++ [i]) frame.scheduled, congrArg (· ++ [i]) same⟩,
        frame.preempted, frame.dropped, Or.inr (congrArg (· ++ [i]) same), frame.running, ?_⟩
      intro j notSelf untouched
      exact (setSeq_heap_of_ne _ notSelf _).trans
        ((frame.heap j notSelf untouched).trans (setSeq_heap_of_ne _ notSelf _))
  | @refuse left below decoding room makes refused =>
      have frame := makes.frame distinct
      exact ⟨Or.inl frame.scheduled, frame.preempted, frame.dropped, frame.kept,
        frame.running, fun j notSelf untouched =>
          (frame.heap j notSelf untouched).trans (setSeq_heap_of_ne _ notSelf _)⟩

/-- After a turn, the active sequences are among those before. -/
theorem Pass.Frame.sublist {p p' : Pass} (frame : Pass.Frame i p p') :
    (p'.stillRunning ++ p'.sched.running).Sublist (p.stillRunning ++ i :: p.sched.running) := by
  rcases frame.kept with same | grown
  · rw [same]
    exact (frame.running.trans (List.sublist_cons_self i _)).append_left _
  · rw [grown, List.append_assoc]
    exact (frame.running.cons_cons i).append_left _

/-- The sequences a pass has served stand apart from those still to come. -/
structure Pass.Apart (p : Pass) : Prop where
  distinct : (p.stillRunning ++ p.sched.running).Nodup
  served : ∀ j ∈ p.output.scheduled, j ∈ p.stillRunning

/-- A popped sequence, and all behind it, are not yet scheduled. -/
theorem Pass.Apart.idle {p : Pass} (apart : p.Apart) {rest : List SeqId}
    (head : p.sched.running = i :: rest) :
    (i :: rest).Nodup ∧ ∀ j ∈ i :: rest, j ∉ p.output.scheduled := by
  have distinct := apart.distinct
  rw [head, List.nodup_append'] at distinct
  exact ⟨distinct.2.1, fun j later scheduled =>
    distinct.2.2 (apart.served j scheduled) later⟩

theorem Pass.Apart.turn {p next : Pass} (apart : p.Apart) {rest : List SeqId}
    (head : p.sched.running = i :: rest)
    (frame : Pass.Frame i { p with sched := { p.sched with running := rest } } next) :
    next.Apart := by
  refine ⟨(head ▸ apart.distinct).sublist frame.sublist, ?_⟩
  have grows : ∀ j ∈ p.stillRunning, j ∈ next.stillRunning := by
    intro j old
    rcases frame.kept with same | grown
    · rwa [same]
    · rw [grown]
      exact List.mem_append_left _ old
  intro j member
  rcases frame.scheduled with same | ⟨added, grown⟩
  · exact grows j (apart.served j (same ▸ member))
  · rw [added, List.mem_append, List.mem_singleton] at member
    rcases member with old | rfl
    · exact grows j (apart.served j old)
    · simp [grown]

/-- The turns of `schedule`'s first loop. -/
inductive ServesAll (cfg : Config) : Pass → Pass → Prop
  | done {p : Pass} (empty : p.sched.running = []) : ServesAll cfg p p
  | turn {p next last : Pass} {i : SeqId} {rest : List SeqId}
      (head : p.sched.running = i :: rest)
      (serves : Serves cfg { p with sched := { p.sched with running := rest } } i next)
      (others : ServesAll cfg next last) : ServesAll cfg p last

/-- What every turn keeps, the loop keeps. -/
theorem ServesAll.keep (holds : Pass → Prop)
    (turn : ∀ {p next : Pass} {i : SeqId} {rest : List SeqId}, p.Apart →
      p.sched.running = i :: rest →
      Serves cfg { p with sched := { p.sched with running := rest } } i next →
      Pass.Frame i { p with sched := { p.sched with running := rest } } next →
      holds p → holds next)
    {p last : Pass} (serves : ServesAll cfg p last) (apart : p.Apart) (held : holds p) :
    holds last := by
  induction serves with
  | done empty => exact held
  | @turn p next last i rest head serves others ih =>
      have frame := serves.frame (apart.idle head).1
      exact ih (apart.turn head frame) (turn apart head serves frame held)

/-- One turn of the loop: the first running sequence is popped and served. -/
theorem serve_turn {p : Pass} {rest : List SeqId} (pass : PassInv cfg p.view rows)
    (served : ∀ j ∈ p.output.scheduled, j ∈ p.stillRunning) (head : p.sched.running = i :: rest) :
    ∃ next, serve cfg { p with sched := { p.sched with running := rest } } i = .ok next ∧
      Serves cfg { p with sched := { p.sched with running := rest } } i next ∧
      Moves cfg p.view next.view ∧ (∀ j ∈ next.output.scheduled, j ∈ next.stillRunning) ∧
      next.sched.running.Sublist rest := by
  let popped : Pass := { p with sched := { p.sched with running := rest } }
  have viewEq : p.view = popped.viewIn i := by
    simp [Pass.view, Pass.viewIn, popped, head]
  have apart : p.Apart := ⟨pass.inv.active_nodup, served⟩
  obtain ⟨distinct, idle⟩ := apart.idle head
  obtain ⟨next, turned, serves, moves⟩ := serve_spec (viewEq ▸ pass) idle
  have frame := serves.frame distinct
  exact ⟨next, turned, serves, viewEq ▸ moves, (apart.turn head frame).served, frame.running⟩

/-- The loop serves each running sequence once, and ends. -/
theorem serveRunning_spec (fuel : Nat) {p : Pass} (pass : PassInv cfg p.view rows)
    (served : ∀ j ∈ p.output.scheduled, j ∈ p.stillRunning)
    (enough : p.sched.running.length < fuel) :
    ∃ last, serveRunning cfg fuel p = .ok last ∧ ServesAll cfg p last ∧
      Moves cfg p.view last.view ∧ last.sched.running = [] := by
  induction fuel generalizing p with
  | zero => exact absurd enough (Nat.not_lt_zero _)
  | succ fuel ih =>
      rw [serveRunning]
      cases head : p.sched.running with
      | nil => exact ⟨p, rfl, .done head, .refl, head⟩
      | cons i rest =>
          obtain ⟨next, turned, serves, moves, nextServed, fewer⟩ := serve_turn pass served head
          have shorter : next.sched.running.length < fuel := by
            rw [head, List.length_cons] at enough
            exact Nat.lt_of_le_of_lt fewer.length_le (Nat.lt_of_succ_lt_succ enough)
          obtain ⟨last, looped, servesAll, others, empty⟩ :=
            ih (Moves.passInv moves pass) nextServed shorter
          refine ⟨last, ?_, .turn head serves servesAll, moves.trans others, empty⟩
          simp only [turned, bind, Except.bind]
          exact looped

/-! ## Admitting waiting requests -/

/-- The turns of either admission loop: the head of the waiting queue is
dropped, started, or starts to load. -/
inductive Admits (cfg : Config) :
    Scheduler → SchedulerOutput → Scheduler → SchedulerOutput → Prop
  | done {s : Scheduler} {output : SchedulerOutput} : Admits cfg s output s output
  | drop {s last : Scheduler} {output lastOutput : SchedulerOutput} {i : SeqId}
      {rest : List SeqId} (head : s.waiting = i :: rest)
      (others : Admits cfg (s.discard i ((s.heap i).closed .capacity) s.blockManager)
        { output with dropped := output.dropped ++ [i] } last lastOutput) :
      Admits cfg s output last lastOutput
  | beginRun {s last : Scheduler} {output lastOutput : SchedulerOutput} {i : SeqId}
      {rest : List SeqId} {bm : BlockManager} {hits fresh : List BlockId}
      {params : Option KVTransferParams} {budget : Nat} (head : s.waiting = i :: rest)
      (allocates : s.Allocates cfg i (s.otherHoldings s.running i) bm hits fresh)
      (loaded : cfg.kvTransfer.isSome →
        { s.heap i with kvTransferParams := params }.wantsRemotePrefill = false)
      (ready : (((s.heap i).allocated cfg hits fresh).started cfg params budget).Ready cfg)
      (others : Admits cfg
        (s.enter i (((s.heap i).allocated cfg hits fresh).started cfg params budget) bm)
        ((output.withQueried cfg ((s.heap i).allocated cfg hits fresh) hits.length).withScheduled
          i ((s.heap i).allocated cfg hits fresh)
          (((s.heap i).allocated cfg hits fresh).numToSchedule cfg budget)) last lastOutput) :
      Admits cfg s output last lastOutput
  | load {s last : Scheduler} {output lastOutput : SchedulerOutput} {i : SeqId}
      {rest : List SeqId} {bm : BlockManager} {hits fresh : List BlockId}
      (head : s.waiting = i :: rest)
      (allocates : s.Allocates cfg i (s.otherHoldings s.running i) bm hits fresh)
      (connected : cfg.kvTransfer.isSome) (wants : (s.heap i).wantsRemotePrefill = true)
      (lists : (s.heap i).listsPrompt cfg = true)
      (others : Admits cfg
        (s.beginLoad i ((s.heap i).allocated cfg hits fresh).loading bm
          (s.connector.updateStateAfterAlloc cfg ((s.heap i).allocated cfg hits fresh)).1)
        (output.withQueried cfg ((s.heap i).allocated cfg hits fresh) hits.length)
        last lastOutput) :
      Admits cfg s output last lastOutput

theorem Admits.moves {s last : Scheduler} {output lastOutput : SchedulerOutput}
    (admits : Admits cfg s output last lastOutput) :
    Moves cfg (s, output) (last, lastOutput) := by
  induction admits with
  | done => exact .refl
  | drop head _ ih => exact .head (.dropWaiting (by rw [head]; rfl)) ih
  | beginRun head allocates loaded ready _ ih =>
      exact .head (.beginRun (by rw [head]; rfl) allocates loaded ready) ih
  | load head allocates connected wants lists _ ih =>
      exact .head (.load (by rw [head]; rfl) allocates connected wants lists) ih

/-- What the admission loops leave alone. -/
structure Admits.Frame (s : Scheduler) (output : SchedulerOutput) (last : Scheduler)
    (lastOutput : SchedulerOutput) : Prop where
  running : ∃ admitted, last.running = s.running ++ admitted ∧
    lastOutput.scheduled = output.scheduled ++ admitted
  waiting : last.waiting <:+ s.waiting
  heap : ∀ j, j ∉ s.waiting → last.heap j = s.heap j
  preempted : lastOutput.preempted = output.preempted
  dropped : output.dropped <+: lastOutput.dropped
  counts : lastOutput.scheduled = output.scheduled →
    lastOutput.numPrefillTokens = output.numPrefillTokens ∧
      lastOutput.numDecodeTokens = output.numDecodeTokens
  metadata : lastOutput.kvConnectorMetadata = output.kvConnectorMetadata

theorem Admits.frame {s last : Scheduler} {output lastOutput : SchedulerOutput}
    (admits : Admits cfg s output last lastOutput)
    (distinct : (s.running ++ s.waiting).Nodup) : Admits.Frame s output last lastOutput := by
  induction admits with
  | done =>
      exact ⟨⟨[], by simp, by simp⟩, List.suffix_rfl, fun _ _ => rfl, rfl, List.prefix_rfl,
        fun _ => ⟨rfl, rfl⟩, rfl⟩
  | @drop s last output lastOutput i rest head others ih =>
      rw [head] at distinct
      have tailEq : s.waiting.erase i = rest := by simp [head]
      have stays : s.running.erase i = s.running := List.erase_of_not_mem fun early =>
        (List.nodup_append'.mp distinct).2.2 early List.mem_cons_self
      obtain ⟨running, waiting, heap, preempted, dropped, counts, metadata⟩ := ih (by
        simp only [discard, tailEq, stays]
        exact distinct.sublist ((List.sublist_cons_self i rest).append_left _))
      simp only [discard, tailEq, stays] at running waiting
      refine ⟨running, waiting.trans (head ▸ List.suffix_cons i rest), ?_, preempted,
        (List.prefix_append _ _).trans dropped, counts, metadata⟩
      intro j absent
      rw [head, List.mem_cons, not_or] at absent
      rw [heap j (by simp only [discard, tailEq]; exact absent.2)]
      exact setSeq_heap_of_ne s absent.1 _
  | @beginRun s last output lastOutput i rest bm hits fresh params budget head allocates loaded ready
      others ih =>
      rw [head] at distinct
      have tailEq : s.waiting.erase i = rest := by simp [head]
      obtain ⟨⟨admitted, running, scheduled⟩, waiting, heap, preempted, dropped, _, metadata⟩ :=
        ih (by
          simp only [enter, tailEq, List.append_assoc]
          exact distinct)
      simp only [enter, tailEq] at waiting
      refine ⟨⟨i :: admitted, ?_, ?_⟩, waiting.trans (head ▸ List.suffix_cons i rest), ?_, preempted,
        dropped, ?_, metadata⟩
      · rw [running, enter, List.append_assoc]
        rfl
      · rw [scheduled, SchedulerOutput.withScheduled, List.append_assoc]
        rfl
      · intro j absent
        rw [head, List.mem_cons, not_or] at absent
        rw [heap j (by simp only [enter, tailEq]; exact absent.2)]
        exact setSeq_heap_of_ne s absent.1 _
      · intro none
        rw [scheduled, SchedulerOutput.withScheduled, List.append_assoc] at none
        simp [SchedulerOutput.withQueried] at none
  | @load s last output lastOutput i rest bm hits fresh head allocates connected wants lists others
      ih =>
      rw [head] at distinct
      have tailEq : s.waiting.erase i = rest := by simp [head]
      obtain ⟨running, waiting, heap, preempted, dropped, counts, metadata⟩ := ih (by
        simp only [beginLoad, tailEq]
        exact distinct.sublist ((List.sublist_cons_self i rest).append_left _))
      simp only [beginLoad, tailEq] at running waiting
      refine ⟨running, waiting.trans (head ▸ List.suffix_cons i rest), ?_, preempted,
        dropped, counts, metadata⟩
      intro j absent
      rw [head, List.mem_cons, not_or] at absent
      rw [heap j (by simp only [beginLoad, tailEq]; exact absent.2)]
      exact setSeq_heap_of_ne s absent.1 _

/-- `_drop` on the head of the waiting queue. -/
theorem dropHead_eq {s : Scheduler} {rest : List SeqId} (inv : s.Inv cfg s.running rows)
    (head : s.waiting = i :: rest) :
    { s with waiting := rest }.drop i .capacity =
      .ok (s.discard i ((s.heap i).closed .capacity) s.blockManager) := by
  obtain ⟨_, notRunning, ⟨live, _⟩, _⟩ := inv.queued (head ▸ List.mem_cons_self)
  rw [drop_eq (s := { s with waiting := rest }) live]
  simp [discard, setSeq, head, List.erase_of_not_mem notRunning]

/-- The variables of an admission loop. -/
structure Intake where
  sched : Scheduler
  output : SchedulerOutput
  budget : Nat

/-- One turn of an admission loop, with its budget.  `allowed` is what the loop
asks of the head and its cached blocks before it admits it. -/
inductive Admission (cfg : Config) (allowed : Scheduler → SeqId → Nat → Nat → Prop) :
    Intake → Intake → Prop
  | drop {q : Intake} {i : SeqId} {rest : List SeqId} (head : q.sched.waiting = i :: rest) :
      Admission cfg allowed q
        ⟨q.sched.discard i ((q.sched.heap i).closed .capacity) q.sched.blockManager,
          { q.output with dropped := q.output.dropped ++ [i] }, q.budget⟩
  | beginRun {q : Intake} {i : SeqId} {rest : List SeqId} {bm : BlockManager}
      {hits fresh : List BlockId} {params : Option KVTransferParams}
      (head : q.sched.waiting = i :: rest) (seats : q.output.scheduled.length < cfg.maxNumSeqs)
      (fits : allowed q.sched i hits.length q.budget)
      (allocates : q.sched.Allocates cfg i (q.sched.otherHoldings q.sched.running i) bm hits fresh)
      (loaded : cfg.kvTransfer.isSome →
        { q.sched.heap i with kvTransferParams := params }.wantsRemotePrefill = false)
      (mismatch : cfg.kvTransfer.isSome → (q.sched.heap i).wantsRemotePrefill = true →
        (q.sched.heap i).listsPrompt cfg = false)
      (ready : (((q.sched.heap i).allocated cfg hits fresh).started cfg params q.budget).Ready
        cfg) :
      Admission cfg allowed q
        ⟨q.sched.enter i (((q.sched.heap i).allocated cfg hits fresh).started cfg params q.budget)
            bm,
          (q.output.withQueried cfg ((q.sched.heap i).allocated cfg hits fresh)
            hits.length).withScheduled i ((q.sched.heap i).allocated cfg hits fresh)
            (((q.sched.heap i).allocated cfg hits fresh).numToSchedule cfg q.budget),
          q.budget - ((q.sched.heap i).allocated cfg hits fresh).numToSchedule cfg q.budget⟩
  | load {q : Intake} {i : SeqId} {rest : List SeqId} {bm : BlockManager}
      {hits fresh : List BlockId} (head : q.sched.waiting = i :: rest)
      (fits : allowed q.sched i hits.length q.budget)
      (allocates : q.sched.Allocates cfg i (q.sched.otherHoldings q.sched.running i) bm hits fresh)
      (connected : cfg.kvTransfer.isSome) (wants : (q.sched.heap i).wantsRemotePrefill = true)
      (lists : (q.sched.heap i).listsPrompt cfg = true) :
      Admission cfg allowed q
        ⟨q.sched.beginLoad i ((q.sched.heap i).allocated cfg hits fresh).loading bm
            (q.sched.connector.updateStateAfterAlloc cfg
              ((q.sched.heap i).allocated cfg hits fresh)).1,
          q.output.withQueried cfg ((q.sched.heap i).allocated cfg hits fresh) hits.length,
          q.budget⟩

/-- The turns of an admission loop. -/
abbrev Admissions (cfg : Config) (allowed : Scheduler → SeqId → Nat → Nat → Prop) :
    Intake → Intake → Prop :=
  Relation.ReflTransGen (Admission cfg allowed)

variable {allowed : Scheduler → SeqId → Nat → Nat → Prop} {q q' : Intake}

theorem Admission.move (turn : Admission cfg allowed q q') :
    Move cfg (q.sched, q.output) (q'.sched, q'.output) := by
  cases turn with
  | drop head => exact .dropWaiting (by rw [head]; rfl)
  | beginRun head seats fits allocates loaded mismatch ready =>
      exact .beginRun (by rw [head]; rfl) allocates loaded ready
  | load head fits allocates connected wants lists =>
      exact .load (by rw [head]; rfl) allocates connected wants lists

/-- What every turn keeps, an admission loop keeps. -/
theorem Admissions.keep (holds : Intake → Prop)
    (turn : ∀ {q q' : Intake}, PassInv cfg (q.sched, q.output) rows →
      Admission cfg allowed q q' → holds q → holds q')
    (turns : Admissions cfg allowed q q') (pass : PassInv cfg (q.sched, q.output) rows)
    (held : holds q) : holds q' ∧ PassInv cfg (q'.sched, q'.output) rows := by
  induction turns with
  | refl => exact ⟨held, pass⟩
  | tail _ next ih => exact ⟨turn ih.2 next ih.1, next.move.passInv ih.2⟩

theorem Admissions.admits (turns : Admissions cfg allowed q q') :
    Admits cfg q.sched q.output q'.sched q'.output := by
  induction turns using Relation.ReflTransGen.head_induction_on with
  | refl => exact .done
  | head turn _ ih =>
      cases turn with
      | drop head => exact .drop head ih
      | beginRun head seats fits allocates loaded mismatch ready =>
          exact .beginRun head allocates loaded ready ih
      | load head fits allocates connected wants lists =>
          exact .load head allocates connected wants lists ih

/-- Admitting the head starts it or its load. -/
theorem admitHead_admission (allowed : Scheduler → SeqId → Nat → Nat → Prop) {s : Scheduler} {output : SchedulerOutput} {rest : List SeqId}
    {n budget : Nat} (pass : PassInv cfg (s, output) rows) (head : s.waiting = i :: rest)
    (offered : s.blockManager.canAllocate cfg (s.heap i) cfg.numLookaheadTokens = .ok (some n))
    (seats : output.scheduled.length < cfg.maxNumSeqs) (fits : allowed s i n budget)
    (left : cfg.kvTransfer = none → 0 < budget) :
    ∃ next nextOutput used, s.admitHead cfg i n budget output = .ok (next, nextOutput, used) ∧
      next.waiting = rest ∧
      Admission cfg allowed ⟨s, output, budget⟩ ⟨next, nextOutput, budget - used⟩ := by
  have inv : s.Inv cfg s.running rows := pass.inv
  have member : i ∈ s.waiting := head ▸ List.mem_cons_self
  obtain ⟨_, _, _, isQueued, _⟩ := inv.queued member
  obtain ⟨bm, hits, fresh, rfl, allocates⟩ := inv.allocates member offered
  have tailEq : s.waiting.erase i = rest := by simp [head]
  rcases admitHead_spec inv head allocates budget output with
    ⟨params, loaded, mismatch, admitted⟩ |
      ⟨connected, wants, lists, admitted⟩
  · have ready : (((s.heap i).allocated cfg hits fresh).started cfg params budget).Ready cfg := by
      have ready := ready_prefill ((s.heap i).allocated cfg hits fresh) isQueued.prefill
        allocates.short left
      exact ⟨ready.positive, ready.prefilling, ready.decoding⟩
    exact ⟨_, _, _, admitted, tailEq, .beginRun head seats fits allocates loaded mismatch ready⟩
  · exact ⟨_, _, _, admitted, tailEq, .load head fits allocates connected wants lists⟩

/-- `can_allocate` answers for the head of the waiting queue. -/
theorem Inv.canAllocate {s : Scheduler} {active : List SeqId} (inv : s.Inv cfg active rows)
    (member : i ∈ s.waiting) :
    ∃ result, s.blockManager.canAllocate cfg (s.heap i) cfg.numLookaheadTokens = .ok result ∧
      (result = none → s.blockManager.freeBlockQueue.length <
        BlockManager.numBlocks cfg (s.heap i) cfg.numLookaheadTokens) ∧
      ∀ n, result = some n → n * cfg.blockSize < (s.heap i).numTokens := by
  obtain ⟨_, _, _, isQueued, _⟩ := inv.queued member
  obtain ⟨result, resultEq, accepted, refused⟩ := BlockManager.canAllocate_spec s.blockManager
    isQueued.hashed isQueued.settled (isQueued.prompt_pos.trans_le isQueued.prompt_le)
    cfg.numLookaheadTokens
  refine ⟨result, resultEq, refused, ?_⟩
  intro n some
  obtain ⟨_, _, _, short, _⟩ := accepted n some
  exact short

theorem PassInv.dropHead {s : Scheduler} {output : SchedulerOutput} {rest : List SeqId}
    (pass : PassInv cfg (s, output) rows) (head : s.waiting = i :: rest) :
    PassInv cfg (s.discard i ((s.heap i).closed .capacity) s.blockManager,
      { output with dropped := output.dropped ++ [i] }) rows :=
  Move.passInv (.dropWaiting (by rw [head]; rfl)) pass

/-- `schedule`'s second loop admits while some budget is left. -/
def someLeft (_ : Scheduler) (_ : SeqId) (_ budget : Nat) : Prop :=
  0 < budget

/-- `schedule`'s second loop ends within one turn per waiting request. -/
theorem admitWaiting_admissions (fuel : Nat) {s : Scheduler} {output : SchedulerOutput}
    (budget : Nat) (pass : PassInv cfg (s, output) rows) (enough : s.waiting.length < fuel) :
    ∃ last lastOutput left, admitWaiting cfg fuel s output budget = .ok (last, lastOutput) ∧
      Admissions cfg someLeft ⟨s, output, budget⟩ ⟨last, lastOutput, left⟩ := by
  induction fuel generalizing s output budget with
  | zero => exact absurd enough (Nat.not_lt_zero _)
  | succ fuel ih =>
      have inv : s.Inv cfg s.running rows := pass.inv
      rw [admitWaiting]
      cases head : s.waiting with
      | nil => exact ⟨s, output, budget, rfl, .refl⟩
      | cons i rest =>
          have shorter : rest.length < fuel := by
            rw [head, List.length_cons] at enough
            exact Nat.lt_of_succ_lt_succ enough
          by_cases open' : output.scheduled.length < cfg.maxNumSeqs ∧ 0 < budget
          · simp only [if_pos open']
            cases never : s.neverFits cfg i with
            | true =>
                obtain ⟨last, lastOutput, left, looped, turns⟩ := ih budget
                  (pass.dropHead head) (by simpa [discard, head] using shorter)
                refine ⟨last, lastOutput, left, ?_, .head (.drop head) turns⟩
                simp only [if_true, dropHead_eq inv head, bind, Except.bind]
                exact looped
            | false =>
                obtain ⟨result, resultEq, _⟩ := inv.canAllocate (head ▸ List.mem_cons_self)
                simp only [Bool.false_eq_true, if_false, resultEq, bind, Except.bind]
                cases result with
                | none => exact ⟨s, output, budget, rfl, .refl⟩
                | some n =>
                    obtain ⟨next, nextOutput, used, admitted, waits, turn⟩ :=
                      admitHead_admission someLeft pass head resultEq open'.1 open'.2
                        fun _ => open'.2
                    obtain ⟨last, lastOutput, left, looped, turns⟩ := ih (budget - used)
                      (turn.move.passInv pass) (by rw [waits]; exact shorter)
                    refine ⟨last, lastOutput, left, ?_, .head turn turns⟩
                    simp only [admitted]
                    exact looped
          · exact ⟨s, output, budget, by simp only [if_neg open'], .refl⟩

theorem admitWaiting_spec (fuel : Nat) {s : Scheduler} {output : SchedulerOutput} (budget : Nat)
    (pass : PassInv cfg (s, output) rows) (enough : s.waiting.length < fuel) :
    ∃ last lastOutput, admitWaiting cfg fuel s output budget = .ok (last, lastOutput) ∧
      Admits cfg s output last lastOutput := by
  obtain ⟨last, lastOutput, _, looped, turns⟩ := admitWaiting_admissions fuel budget pass enough
  exact ⟨last, lastOutput, looped, turns.admits⟩

/-- The tokens `_schedule_whole_prompts` expects to compute for a request: none
if it is to load them. -/
def wholeTokens (cfg : Config) (s : Scheduler) (i : SeqId) (numCachedBlocks : Nat) : Nat :=
  if s.loadsRemotely cfg i then 0 else (s.heap i).numTokens - numCachedBlocks * cfg.blockSize

/-- `_schedule_whole_prompts` admits what it expects to fit into the budget. -/
def wholeLeft (cfg : Config) (s : Scheduler) (i : SeqId) (numCachedBlocks budget : Nat) : Prop :=
  s.wholeTokens cfg i numCachedBlocks ≤ budget

/-- `_schedule_whole_prompts` ends within one turn per waiting request. -/
theorem wholePromptsLoop_admissions (fuel : Nat) {s : Scheduler} {output : SchedulerOutput}
    (budget : Nat) (pass : PassInv cfg (s, output) rows) (enough : s.waiting.length < fuel) :
    ∃ last lastOutput left, wholePromptsLoop cfg fuel s output budget = .ok (last, lastOutput) ∧
      Admissions cfg (wholeLeft cfg) ⟨s, output, budget⟩ ⟨last, lastOutput, left⟩ := by
  induction fuel generalizing s output budget with
  | zero => exact absurd enough (Nat.not_lt_zero _)
  | succ fuel ih =>
      have inv : s.Inv cfg s.running rows := pass.inv
      rw [wholePromptsLoop]
      cases head : s.waiting with
      | nil => exact ⟨s, output, budget, rfl, .refl⟩
      | cons i rest =>
          have shorter : rest.length < fuel := by
            rw [head, List.length_cons] at enough
            exact Nat.lt_of_succ_lt_succ enough
          have dropped : ∃ last lastOutput left,
              ({ s with waiting := rest }.drop i .capacity >>= fun s =>
                wholePromptsLoop cfg fuel s { output with dropped := output.dropped ++ [i] }
                  budget) = .ok (last, lastOutput) ∧
              Admissions cfg (wholeLeft cfg) ⟨s, output, budget⟩ ⟨last, lastOutput, left⟩ := by
            obtain ⟨last, lastOutput, left, looped, turns⟩ := ih budget
              (pass.dropHead head) (by simpa [discard, head] using shorter)
            refine ⟨last, lastOutput, left, ?_, .head (.drop head) turns⟩
            simp only [dropHead_eq inv head, bind, Except.bind]
            exact looped
          by_cases seats : output.scheduled.length < cfg.maxNumSeqs
          · simp only [if_pos seats]
            cases never : s.neverFits cfg i with
            | true => simpa using dropped
            | false =>
                obtain ⟨result, resultEq, _, short⟩ := inv.canAllocate (head ▸ List.mem_cons_self)
                simp only [Bool.false_eq_true, if_false, resultEq, bind, Except.bind]
                cases result with
                | none => exact ⟨s, output, budget, rfl, .refl⟩
                | some n =>
                    dsimp only
                    by_cases huge : cfg.maxNumBatchedTokens < s.wholeTokens cfg i n
                    · simp only [wholeTokens] at huge
                      rw [if_pos huge]
                      exact dropped
                    · simp only [wholeTokens] at huge
                      rw [if_neg huge]
                      by_cases beyond : budget < s.wholeTokens cfg i n
                      · exact ⟨s, output, budget, if_pos beyond, .refl⟩
                      · have within : ¬ budget < (if s.loadsRemotely cfg i then 0
                            else (s.heap i).numTokens - n * cfg.blockSize) := beyond
                        rw [if_neg within]
                        have left' : cfg.kvTransfer = none → 0 < budget := by
                          intro isolated
                          have short := short n rfl
                          simp only [loadsRemotely, isolated, Option.isSome_none,
                            Bool.false_and, Bool.false_eq_true, if_false] at within
                          omega
                        obtain ⟨next, nextOutput, used, admitted, waits, turn⟩ :=
                          admitHead_admission (wholeLeft cfg) pass head resultEq seats
                            (Nat.le_of_not_lt beyond) left'
                        obtain ⟨last, lastOutput, left, looped, turns⟩ := ih (budget - used)
                          (turn.move.passInv pass) (by rw [waits]; exact shorter)
                        refine ⟨last, lastOutput, left, ?_, .head turn turns⟩
                        simp only [admitted]
                        exact looped
          · exact ⟨s, output, budget, by simp only [if_neg seats], .refl⟩

theorem wholePromptsLoop_spec (fuel : Nat) {s : Scheduler} {output : SchedulerOutput}
    (budget : Nat) (pass : PassInv cfg (s, output) rows) (enough : s.waiting.length < fuel) :
    ∃ last lastOutput, wholePromptsLoop cfg fuel s output budget = .ok (last, lastOutput) ∧
      Admits cfg s output last lastOutput := by
  obtain ⟨last, lastOutput, _, looped, turns⟩ := wholePromptsLoop_admissions fuel budget pass enough
  exact ⟨last, lastOutput, looped, turns.admits⟩

/-! ## The whole call -/

/-- The part of `schedule` after the whole-prompt pass: serve what runs, then
admit what waits unless memory is short. -/
structure Mixes (cfg : Config) (s : Scheduler) (dropped : List SeqId) (p : Pass)
    (last : Scheduler) (output : SchedulerOutput) : Prop where
  served : ServesAll cfg
    ⟨{ s with running := cfg.schedulingPolicy.byUrgency s.heap s.running }, [],
      { dropped := dropped }, cfg.maxNumBatchedTokens⟩ p
  empty : p.sched.running = []
  serving : Moves cfg (s, { dropped := dropped })
    ({ p.sched with running := p.stillRunning }, p.output)
  admitted : Admits cfg { p.sched with running := p.stillRunning } p.output last output
  relaxed : cfg.enableChunkedPrefill = false ∨ p.output.preempted ≠ [] →
    last = { p.sched with running := p.stillRunning } ∧ output = p.output
  admitting : cfg.enableChunkedPrefill = true → p.output.preempted = [] →
    admitWaiting cfg (p.sched.waiting.length + 1) { p.sched with running := p.stillRunning }
      p.output p.budget = .ok (last, output)

/-- The second loop's turns, with their budget. -/
theorem Mixes.admissions {s : Scheduler} {dropped : List SeqId} {p : Pass} {last : Scheduler}
    {output : SchedulerOutput} (mixes : Mixes cfg s dropped p last output)
    (inv : s.Inv cfg s.running rows) :
    ∃ left, Admissions cfg someLeft
      ⟨{ p.sched with running := p.stillRunning }, p.output, p.budget⟩ ⟨last, output, left⟩ := by
  by_cases relaxed : cfg.enableChunkedPrefill = false ∨ p.output.preempted ≠ []
  · obtain ⟨rfl, rfl⟩ := mixes.relaxed relaxed
    exact ⟨p.budget, .refl⟩
  · rw [not_or, Bool.not_eq_false, not_not] at relaxed
    have admitting := mixes.admitting relaxed.1 relaxed.2
    have pass := Moves.passInv mixes.serving (inv.start dropped)
    obtain ⟨_, _, left, looped, turns⟩ := admitWaiting_admissions (p.sched.waiting.length + 1)
      p.budget pass (Nat.lt_succ_self _)
    obtain ⟨rfl, rfl⟩ := Prod.mk.inj (Except.ok.inj (looped.symm.trans admitting))
    exact ⟨left, turns⟩

/-- The turns of `_schedule_whole_prompts`, with their budget. -/
theorem scheduleWholePrompts_admissions {s last : Scheduler} {output : SchedulerOutput}
    (inv : s.Inv cfg s.running rows) (looped : s.scheduleWholePrompts cfg = .ok (last, output)) :
    ∃ left, Admissions cfg (wholeLeft cfg) ⟨s, {}, cfg.maxNumBatchedTokens⟩
      ⟨last, output, left⟩ := by
  obtain ⟨_, _, left, looped', turns⟩ := wholePromptsLoop_admissions (s.waiting.length + 1)
    cfg.maxNumBatchedTokens (inv.start []) (Nat.lt_succ_self _)
  obtain ⟨rfl, rfl⟩ := Prod.mk.inj (Except.ok.inj (looped'.symm.trans looped))
  exact ⟨left, turns⟩

/-- What `schedule` does, up to handing the connector's metadata over. -/
inductive Schedules (cfg : Config) (s : Scheduler) : Scheduler → SchedulerOutput → Prop
  | mixed {p : Pass} {last : Scheduler} {output : SchedulerOutput}
      (chunked : cfg.enableChunkedPrefill = true) (mixes : Mixes cfg s [] p last output) :
      Schedules cfg s last output
  | prompts {last : Scheduler} {output : SchedulerOutput}
      (whole : cfg.enableChunkedPrefill = false)
      (looped : s.scheduleWholePrompts cfg = .ok (last, output))
      (admits : Admits cfg s {} last output) (some : output.scheduled ≠ []) :
      Schedules cfg s last output
  | fallback {middle last : Scheduler} {found output : SchedulerOutput} {p : Pass}
      (whole : cfg.enableChunkedPrefill = false)
      (looped : s.scheduleWholePrompts cfg = .ok (middle, found))
      (admits : Admits cfg s {} middle found) (none : found.scheduled = [])
      (mixes : Mixes cfg middle found.dropped p last output) :
      Schedules cfg s last output

theorem scheduleMixed_spec {s : Scheduler} (dropped : List SeqId)
    (inv : s.Inv cfg s.running rows) :
    ∃ p last output, scheduleMixed cfg s dropped = .ok (last.withConnectorMeta cfg output) ∧
      Mixes cfg s dropped p last output ∧
      Moves cfg (s, { dropped := dropped }) (last, output) := by
  let running := cfg.schedulingPolicy.byUrgency s.heap s.running
  have reorder : Move cfg (s, { dropped := dropped })
      ({ s with running := running }, { dropped := dropped }) :=
    .reorder (cfg.schedulingPolicy.byUrgency_perm s.heap s.running)
  have pass := inv.start dropped
  obtain ⟨p, looped, served, moves, empty⟩ := serveRunning_spec (running.length + 1)
    (p := ⟨{ s with running := running }, [], { dropped := dropped }, cfg.maxNumBatchedTokens⟩)
    (reorder.passInv pass) (by simp) (Nat.lt_succ_self _)
  have viewEq : p.view = ({ p.sched with running := p.stillRunning }, p.output) := by
    simp [Pass.view, empty]
  rw [viewEq] at moves
  have servedMoves := Relation.ReflTransGen.head reorder moves
  have servedPass := Moves.passInv servedMoves pass
  have code : scheduleMixed cfg s dropped =
      ((if cfg.enableChunkedPrefill ∧ p.output.preempted = [] then
        admitWaiting cfg (p.sched.waiting.length + 1)
          { p.sched with running := p.stillRunning } p.output p.budget
      else .ok ({ p.sched with running := p.stillRunning }, p.output)) >>=
        fun result => .ok (result.1.withConnectorMeta cfg result.2)) := by
    simp only [scheduleMixed, bind, Except.bind]
    rw [looped]
    dsimp only
    split <;> rfl
  by_cases relaxed : cfg.enableChunkedPrefill ∧ p.output.preempted = []
  · obtain ⟨last, output, admitted, admits⟩ := admitWaiting_spec
      (p.sched.waiting.length + 1) p.budget servedPass (Nat.lt_succ_self _)
    refine ⟨p, last, output, ?_, ⟨served, empty, servedMoves, admits, ?_, fun _ _ => admitted⟩,
      servedMoves.trans admits.moves⟩
    · rw [code, if_pos relaxed]
      simp only [admitted, bind, Except.bind]
    · rintro (off | short)
      · exact absurd relaxed.1 (by simp [off])
      · exact absurd relaxed.2 short
  · refine ⟨p, _, _, ?_, ⟨served, empty, servedMoves, .done, fun _ => ⟨rfl, rfl⟩, ?_⟩, servedMoves⟩
    · rw [code, if_neg relaxed]
      rfl
    · exact fun chunked none => absurd ⟨chunked, none⟩ relaxed

/-- The waiting and running sequences are distinct. -/
theorem Roster.queues_nodup {s : Scheduler} {active : List SeqId}
    (roster : s.Roster cfg active rows) : (active ++ s.waiting).Nodup := by
  rw [List.nodup_append']
  exact ⟨roster.active_nodup, roster.waiting_nodup, fun i running queued =>
    (roster.queued queued).2.1 running⟩

/-- `schedule` returns, and is a run of moves. -/
theorem schedule_spec {s : Scheduler} (inv : s.Inv cfg s.running rows) :
    ∃ last output, s.schedule cfg = .ok (last.withConnectorMeta cfg output) ∧
      Schedules cfg s last output ∧ Moves cfg (s, {}) (last, output) := by
  cases chunked : cfg.enableChunkedPrefill with
  | true =>
      obtain ⟨p, last, output, mixed, mixes, moves⟩ := scheduleMixed_spec [] inv
      exact ⟨last, output, by simp only [schedule, chunked, if_true, mixed],
        .mixed chunked mixes, moves⟩
  | false =>
      have pass := inv.start []
      obtain ⟨middle, found, looped, admits⟩ := wholePromptsLoop_spec (s.waiting.length + 1)
        cfg.maxNumBatchedTokens pass (Nat.lt_succ_self _)
      by_cases some : found.scheduled ≠ []
      · refine ⟨middle, found, ?_, .prompts chunked looped admits some, admits.moves⟩
        simp only [schedule, chunked, Bool.false_eq_true, if_false, bind, Except.bind]
        rw [show s.scheduleWholePrompts cfg = .ok (middle, found) from looped]
        exact if_pos some
      · have none : found.scheduled = [] := not_not.mp some
        have middlePass := Moves.passInv admits.moves pass
        have frame := admits.frame inv.queues_nodup
        obtain ⟨p, last, output, mixed, mixes, moves⟩ :=
          scheduleMixed_spec found.dropped middlePass.inv
        refine ⟨last, output, ?_, .fallback chunked looped admits none mixes, ?_⟩
        · simp only [schedule, chunked, Bool.false_eq_true, if_false, bind, Except.bind]
          rw [show s.scheduleWholePrompts cfg = .ok (middle, found) from looped]
          exact (if_neg some).trans mixed
        · have recount : Move cfg (middle, found) (middle, { dropped := found.dropped }) := by
            have move : Move cfg (middle, found) _ := .recount
            have foundEq : ({ found with numQueriedBlocks := 0, numCachedBlocks := 0 } :
                SchedulerOutput) = { dropped := found.dropped } := by
              obtain ⟨prefillTokens, decodeTokens⟩ := frame.counts none
              simp only [none, frame.preempted, prefillTokens, decodeTokens, frame.metadata]
            rw [foundEq] at move
            exact move
          exact admits.moves.trans (.head recount moves)

end Scheduler

end LeanVllm
