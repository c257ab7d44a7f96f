import Mathlib.Logic.Relation
import LeanVllm.Engine.Operations

/-!
# Moves of a scheduling pass

`schedule` is a run of moves, each about one sequence.  The state of a pass is
the scheduler, with every sequence the pass still treats as active in
`running`, and the output built so far.  A move keeps the invariant, and keeps
every scheduled sequence ready to launch.
-/

namespace LeanVllm

open Collections

namespace Sequence

variable {cfg : Config} {seq : Sequence} {reserved : Nat}

theorem Queued.started (queued : seq.Queued cfg) {hits fresh : List BlockId}
    (short : hits.length * cfg.blockSize < seq.numTokens)
    (covered : seq.numTokens + cfg.numLookaheadTokens ≤
      (seq.allocated cfg hits fresh).blockTable.length * cfg.blockSize)
    {params : Option KVTransferParams}
    (loaded : cfg.kvTransfer.isSome →
      { seq with kvTransferParams := params }.wantsRemotePrefill = false) (budget : Nat) :
    ((seq.allocated cfg hits fresh).started cfg params budget).Active cfg 0 where
  prompt_pos := queued.prompt_pos
  prompt_le := queued.prompt_le
  hashed := queued.hashed
  status := rfl
  pending := queued.settled
  unfinished := queued.unfinished
  planned_le := by
    have unfinished := queued.unfinished
    have settled := queued.settled
    simp only [Sequence.numPlannedTokens, Sequence.numCompletionTokens, Sequence.started,
      Sequence.allocated, Sequence.numTokens] at unfinished ⊢
    omega
  prefilling _ := ⟨queued.settled, queued.drafts, short, covered⟩
  decoding decoding := absurd (queued.prefill.symm.trans decoding) (by simp)
  covered := (Nat.le_of_lt short).trans ((Nat.le_add_right _ _).trans covered)
  published_le := Nat.le_min.mpr ⟨Nat.le_refl _, short.le⟩
  loaded := loaded

theorem wantsRemotePrefill_clear (seq : Sequence) :
    seq.clearRemotePrefill.wantsRemotePrefill = false := by
  cases asked : seq.kvTransferParams <;> simp [wantsRemotePrefill, clearRemotePrefill, asked]

theorem Queued.loading (queued : seq.Queued cfg) {hits fresh : List BlockId}
    (short : hits.length * cfg.blockSize < seq.numTokens)
    (covered : seq.numTokens + cfg.numLookaheadTokens ≤
      (seq.allocated cfg hits fresh).blockTable.length * cfg.blockSize)
    (connected : cfg.kvTransfer.isSome) (wants : seq.wantsRemotePrefill = true) :
    (seq.allocated cfg hits fresh).loading.Loading cfg where
  prompt_pos := queued.prompt_pos
  prompt_le := queued.prompt_le
  hashed := queued.hashed
  settled := queued.settled
  prefill := queued.prefill
  drafts := queued.drafts
  unfinished := queued.unfinished
  fresh := queued.unloaded connected wants
  cached_lt := short
  covered := covered
  aligned := rfl
  loaded := wantsRemotePrefill_clear (seq.allocated cfg hits fresh)

/-- Fewer drafts and more blocks keep an active sequence active. -/
theorem Active.resize (active : seq.Active cfg reserved) {drafts : List Token}
    (fewer : drafts.length ≤ seq.specTokenIds.length) (fresh : List BlockId)
    (numScheduledTokens : Nat) :
    { seq with
      specTokenIds := drafts
      blockTable := seq.blockTable ++ fresh
      numScheduledTokens := numScheduledTokens }.Active cfg reserved := by
  have longer : seq.blockTable.length * cfg.blockSize ≤
      (seq.blockTable ++ fresh).length * cfg.blockSize :=
    Nat.mul_le_mul_right _ (by simp)
  exact
    { prompt_pos := active.prompt_pos
      prompt_le := active.prompt_le
      hashed := active.hashed
      status := active.status
      pending := active.pending
      unfinished := active.unfinished
      planned_le := active.planned_le
      prefilling := fun prefill => by
        obtain ⟨settled, none, short, covered⟩ := active.prefilling prefill
        rw [none, List.length_nil, Nat.le_zero, List.length_eq_zero_iff] at fewer
        exact ⟨settled, fewer, short, covered.trans longer⟩
      decoding := fun decoding =>
        ⟨(active.decoding decoding).1, fewer.trans (active.decoding decoding).2⟩
      covered := active.covered.trans longer
      published_le := active.published_le
      loaded := active.loaded }

end Sequence

namespace Scheduler

/-- One move of a pass. -/
inductive Move (cfg : Config) :
    Scheduler × SchedulerOutput → Scheduler × SchedulerOutput → Prop
  | reorder {s : Scheduler} {output : SchedulerOutput} {running : List SeqId}
      (reordered : running.Perm s.running) :
      Move cfg (s, output) ({ s with running := running }, output)
  | preempt {s : Scheduler} {output : SchedulerOutput} {i : SeqId} {bm : BlockManager}
      (member : i ∈ s.running) (idle : i ∉ output.scheduled)
      (freed : BlockManager.dropReferences (s.heap i).blockTable.reverse s.blockManager = .ok bm) :
      Move cfg (s, output)
        (s.requeue cfg i bm, { output with preempted := output.preempted ++ [i] })
  | dropRunning {s : Scheduler} {output : SchedulerOutput} {i : SeqId} {bm : BlockManager}
      (member : i ∈ s.running) (idle : i ∉ output.scheduled)
      (settled : (s.heap i).numPendingTokens = 0)
      (freed : BlockManager.dropReferences (s.heap i).blockTable.reverse s.blockManager = .ok bm) :
      Move cfg (s, output)
        (s.discard i ((s.heap i).released.closed .capacity) bm,
          { output with dropped := output.dropped ++ [i] })
  | dropWaiting {s : Scheduler} {output : SchedulerOutput} {i : SeqId}
      (head : s.waiting.head? = some i) :
      Move cfg (s, output)
        (s.discard i ((s.heap i).closed .capacity) s.blockManager,
          { output with dropped := output.dropped ++ [i] })
  | trim {s : Scheduler} {output : SchedulerOutput} {i : SeqId} (member : i ∈ s.running)
      (idle : i ∉ output.scheduled) (n : Nat) :
      Move cfg (s, output)
        (s.renew i { s.heap i with specTokenIds := (s.heap i).specTokenIds.take n }
          s.blockManager, output)
  | append {s : Scheduler} {output : SchedulerOutput} {i : SeqId} {bm : BlockManager}
      {fresh : List BlockId} {numLookahead : Nat} (member : i ∈ s.running)
      (idle : i ∉ output.scheduled)
      (within : (s.heap i).numPlannedTokens + numLookahead ≤
        (s.heap i).numPromptTokens + (s.heap i).maxTokens + cfg.numSpeculativeTokens)
      (fits : s.blockManager.canAppend cfg (s.heap i) numLookahead = true)
      (appended : s.blockManager.mayAppend cfg (s.heap i) numLookahead =
        .ok (bm, { s.heap i with blockTable := (s.heap i).blockTable ++ fresh })) :
      Move cfg (s, output)
        (s.renew i { s.heap i with blockTable := (s.heap i).blockTable ++ fresh } bm, output)
  | serve {s : Scheduler} {output : SchedulerOutput} {i : SeqId} {n : Nat}
      (member : i ∈ s.running) (idle : i ∉ output.scheduled)
      (ready : { s.heap i with numScheduledTokens := n }.Ready cfg) :
      Move cfg (s, output)
        (s.renew i { s.heap i with numScheduledTokens := n } s.blockManager,
          output.withScheduled i (s.heap i) n)
  | beginRun {s : Scheduler} {output : SchedulerOutput} {i : SeqId} {bm : BlockManager}
      {hits fresh : List BlockId} {params : Option KVTransferParams} {budget : Nat}
      (head : s.waiting.head? = some i)
      (allocates : s.Allocates cfg i (s.otherHoldings s.running i) bm hits fresh)
      (loaded : cfg.kvTransfer.isSome →
        { s.heap i with kvTransferParams := params }.wantsRemotePrefill = false)
      (ready : (((s.heap i).allocated cfg hits fresh).started cfg params budget).Ready cfg) :
      Move cfg (s, output)
        (s.enter i (((s.heap i).allocated cfg hits fresh).started cfg params budget) bm,
          (output.withQueried cfg ((s.heap i).allocated cfg hits fresh) hits.length).withScheduled
            i ((s.heap i).allocated cfg hits fresh)
            (((s.heap i).allocated cfg hits fresh).numToSchedule cfg budget))
  | load {s : Scheduler} {output : SchedulerOutput} {i : SeqId} {bm : BlockManager}
      {hits fresh : List BlockId} (head : s.waiting.head? = some i)
      (allocates : s.Allocates cfg i (s.otherHoldings s.running i) bm hits fresh)
      (connected : cfg.kvTransfer.isSome) (wants : (s.heap i).wantsRemotePrefill = true)
      (lists : (s.heap i).listsPrompt cfg = true) :
      Move cfg (s, output)
        (s.beginLoad i ((s.heap i).allocated cfg hits fresh).loading bm
          (s.connector.updateStateAfterAlloc cfg ((s.heap i).allocated cfg hits fresh)).1,
          output.withQueried cfg ((s.heap i).allocated cfg hits fresh) hits.length)
  | recount {s : Scheduler} {output : SchedulerOutput} :
      Move cfg (s, output) (s, { output with numQueriedBlocks := 0, numCachedBlocks := 0 })

/-- A run of moves. -/
abbrev Moves (cfg : Config) :
    Scheduler × SchedulerOutput → Scheduler × SchedulerOutput → Prop :=
  Relation.ReflTransGen (Move cfg)

/-- The invariant of a pass. -/
structure PassInv (cfg : Config) (pass : Scheduler × SchedulerOutput)
    (rows : List LaunchedRow) : Prop where
  inv : pass.1.Inv cfg pass.1.running rows
  nodup : pass.2.scheduled.Nodup
  running : ∀ i ∈ pass.2.scheduled, i ∈ pass.1.running
  ready : ∀ i ∈ pass.2.scheduled, (pass.1.heap i).Ready cfg

variable {cfg : Config} {rows : List LaunchedRow} {before after : Scheduler × SchedulerOutput}

/-- A pass starts with nothing scheduled. -/
theorem Inv.start {s : Scheduler} (inv : s.Inv cfg s.running rows) (dropped : List SeqId) :
    PassInv cfg (s, { dropped := dropped }) rows :=
  ⟨inv, List.nodup_nil, by simp, by simp⟩

/-- A move about a sequence that is not scheduled keeps what is. -/
theorem PassInv.frame (pass : PassInv cfg before rows) {i : SeqId}
    (idle : i ∉ before.2.scheduled) (inv : after.1.Inv cfg after.1.running rows)
    (scheduled : after.2.scheduled = before.2.scheduled)
    (running : ∀ j, j ≠ i → j ∈ before.1.running → j ∈ after.1.running)
    (heap : ∀ j, j ≠ i → after.1.heap j = before.1.heap j) : PassInv cfg after rows := by
  have other : ∀ j ∈ before.2.scheduled, j ≠ i := by
    rintro j member rfl
    exact idle member
  refine ⟨inv, scheduled ▸ pass.nodup, ?_, ?_⟩
  · intro j member
    rw [scheduled] at member
    exact running j (other j member) (pass.running j member)
  · intro j member
    rw [scheduled] at member
    rw [heap j (other j member)]
    exact pass.ready j member

/-- A move that schedules a sequence leaves it ready. -/
theorem PassInv.extend (pass : PassInv cfg before rows) {i : SeqId}
    (idle : i ∉ before.2.scheduled) (inv : after.1.Inv cfg after.1.running rows)
    (scheduled : after.2.scheduled = before.2.scheduled ++ [i])
    (running : ∀ j ∈ before.1.running, j ∈ after.1.running) (own : i ∈ after.1.running)
    (heap : ∀ j, j ≠ i → after.1.heap j = before.1.heap j)
    (ready : (after.1.heap i).Ready cfg) : PassInv cfg after rows := by
  refine ⟨inv, ?_, ?_, ?_⟩
  · rw [scheduled, List.nodup_append']
    exact ⟨pass.nodup, List.nodup_singleton i, by simpa using idle⟩
  · intro j member
    rw [scheduled, List.mem_append, List.mem_singleton] at member
    rcases member with old | rfl
    · exact running j (pass.running j old)
    · exact own
  · intro j member
    rw [scheduled, List.mem_append, List.mem_singleton] at member
    rcases member with old | rfl
    · rw [heap j (by rintro rfl; exact idle old)]
      exact pass.ready j old
    · exact ready

section Sequences

variable {s : Scheduler} {active : List SeqId} {i : SeqId} {bm : BlockManager}

/-- An active sequence whose blocks stay the same may change its record. -/
theorem Inv.rerecord (inv : s.Inv cfg active rows) (member : i ∈ active) {seq : Sequence}
    (idEq : seq.requestId = (s.heap i).requestId)
    (lives : seq.numPreemptions = (s.heap i).numPreemptions)
    (isActive : seq.Active cfg (due rows i (s.heap i).numPreemptions))
    (table : seq.blockTable = (s.heap i).blockTable)
    (published : seq.numPublishedBlocks = (s.heap i).numPublishedBlocks) :
    (s.renew i seq s.blockManager).Inv cfg active rows := by
  have blocks := inv.split (inv.running member)
  refine inv.renew member (fun _ _ _ => rfl) (fun _ => Or.inl) idEq lives isActive ?_
    (fun _ _ unpublished => unpublished) ?_
  · rw [table]
    exact blocks
  · rw [table, published]
    exact inv.unpublished i (Or.inl member)

/-- After `can_append` has said yes, `may_append` succeeds. -/
theorem Inv.mayAppend (inv : s.Inv cfg active rows) (member : i ∈ active) {numLookahead : Nat}
    (fits : s.blockManager.canAppend cfg (s.heap i) numLookahead = true) :
    ∃ bm fresh, s.blockManager.mayAppend cfg (s.heap i) numLookahead =
      .ok (bm, { s.heap i with blockTable := (s.heap i).blockTable ++ fresh }) := by
  obtain ⟨fresh, bm, appended, _⟩ :=
    BlockManager.appendBlocks_spec (inv.split (inv.running member)) (s.heap i)
      (BlockManager.numMissingBlocks cfg (s.heap i) numLookahead)
      (by simpa [BlockManager.canAppend] using fits)
  exact ⟨bm, fresh, appended⟩

/-- A table may grow by blocks nobody holds. -/
theorem Inv.append (inv : s.Inv cfg active rows) (member : i ∈ active) {fresh : List BlockId}
    {numLookahead : Nat}
    (fits : s.blockManager.canAppend cfg (s.heap i) numLookahead = true)
    (appended : s.blockManager.mayAppend cfg (s.heap i) numLookahead =
      .ok (bm, { s.heap i with blockTable := (s.heap i).blockTable ++ fresh })) :
    (s.renew i { s.heap i with blockTable := (s.heap i).blockTable ++ fresh } bm).Inv cfg active
      rows ∧ BlockManager.Keeps s.blockManager bm fresh ∧
      (s.heap i).numPlannedTokens + numLookahead ≤
        ((s.heap i).blockTable ++ fresh).length * cfg.blockSize ∧
      ((s.heap i).blockTable ++ fresh).length ≤ max (s.heap i).blockTable.length
        (BlockManager.numBlocks cfg (s.heap i) numLookahead) := by
  have plays := inv.running member
  obtain ⟨_, _, _, isActive⟩ := id plays
  obtain ⟨more, after, appendedEq, length, blocks, keeps, _, _⟩ :=
    BlockManager.appendBlocks_spec (inv.split plays) (s.heap i)
      (BlockManager.numMissingBlocks cfg (s.heap i) numLookahead)
      (by simpa [BlockManager.canAppend] using fits)
  have resultEq := Except.ok.inj (appended.symm.trans appendedEq)
  obtain rfl : bm = after := congrArg Prod.fst resultEq
  obtain rfl : fresh = more := by
    simpa using congrArg (fun result => result.2.blockTable) resultEq
  have covers : (s.heap i).numPlannedTokens + numLookahead ≤
      ((s.heap i).blockTable ++ fresh).length * cfg.blockSize := by
    refine (BlockManager.le_numBlocks_mul cfg (s.heap i) numLookahead).trans ?_
    refine Nat.mul_le_mul_right _ ?_
    rw [List.length_append, length, BlockManager.numMissingBlocks]
    omega
  refine ⟨?_, keeps, covers, ?bounded⟩
  case bounded =>
    rw [List.length_append, length, BlockManager.numMissingBlocks]
    omega
  have grown := isActive.resize (Nat.le_refl _) fresh (s.heap i).numScheduledTokens
  refine inv.renew member (fun _ _ _ => rfl) (fun _ => Or.inl) rfl rfl grown ?_
    (fun _ _ => keeps.sentinel) ?_
  · refine blocks.perm ?_
    show (fresh ++ ((s.heap i).blockTable ++ s.otherHoldings active i)).Perm
      ((s.heap i).blockTable ++ fresh ++ s.otherHoldings active i)
    rw [← List.append_assoc]
    exact List.perm_append_comm.append_right _
  · intro blockId inTable
    simp only [List.drop_append, List.mem_append] at inTable
    rcases inTable with old | new
    · exact keeps.sentinel (inv.unpublished i (Or.inl member) blockId old)
    · exact keeps.unpublished blockId (List.mem_of_mem_drop new)

end Sequences

theorem Move.passInv (move : Move cfg before after) (pass : PassInv cfg before rows) :
    PassInv cfg after rows := by
  have inv := pass.inv
  cases move with
  | reorder reordered =>
      exact ⟨(inv.reorder reordered).withRunning _, pass.nodup,
        fun i member => reordered.mem_iff.mpr (pass.running i member), pass.ready⟩
  | recount => exact ⟨inv, pass.nodup, pass.running, pass.ready⟩
  | @preempt s output i bm member idle freed =>
      obtain ⟨_, freed', blocks, keeps, _⟩ := inv.release (inv.running member) (Or.inl rfl)
      obtain rfl := Except.ok.inj (freed'.symm.trans freed)
      exact pass.frame idle (inv.preempt member blocks keeps) rfl
        (fun j different => (List.mem_erase_of_ne different).mpr)
        (fun j different => setSeq_heap_of_ne s different _)
  | @dropRunning s output i bm member idle settled freed =>
      obtain ⟨_, freed', blocks, keeps, _⟩ := inv.release (inv.running member) (Or.inl rfl)
      obtain rfl := Except.ok.inj (freed'.symm.trans freed)
      exact pass.frame idle
        (inv.discard (inv.running member) (Or.inr rfl) rfl rfl rfl blocks keeps) rfl
        (fun j different => (List.mem_erase_of_ne different).mpr)
        (fun j different => setSeq_heap_of_ne s different _)
  | @dropWaiting s output i head =>
      have member : i ∈ s.waiting := List.mem_of_mem_head? head
      have plays := inv.queued member
      have idle : i ∉ output.scheduled := fun scheduled => plays.2.1 (pass.running i scheduled)
      exact pass.frame idle
        (inv.discard plays (Or.inl rfl) rfl rfl rfl (inv.split plays) (.refl _)) rfl
        (fun j different => (List.mem_erase_of_ne different).mpr)
        (fun j different => setSeq_heap_of_ne s different _)
  | @trim s output i member idle n =>
      have isActive := (inv.running member).2.2.2
      have fewer : ((s.heap i).specTokenIds.take n).length ≤ (s.heap i).specTokenIds.length := by
        simp
      have trimmed := isActive.resize fewer [] (s.heap i).numScheduledTokens
      simp only [List.append_nil] at trimmed
      exact pass.frame idle (inv.rerecord member rfl rfl trimmed rfl rfl) rfl (fun _ _ => id)
        (fun j different => setSeq_heap_of_ne s different _)
  | @append s output i bm fresh numLookahead member idle within fits appended =>
      exact pass.frame idle (inv.append member fits appended).1 rfl (fun _ _ => id)
        (fun j different => setSeq_heap_of_ne s different _)
  | @serve s output i n member idle ready =>
      have isActive := (inv.running member).2.2.2
      have served := isActive.resize (Nat.le_refl _) [] n
      simp only [List.append_nil] at served
      refine pass.extend idle (inv.rerecord member rfl rfl served rfl rfl) rfl (fun _ => id)
        member (fun j different => setSeq_heap_of_ne s different _) ?_
      show (Scheduler.heap (s.setSeq i _) i).Ready cfg
      rw [setSeq_heap_self]
      exact ready
  | @beginRun s output i bm hits fresh params budget head allocates loaded ready =>
      have member : i ∈ s.waiting := List.mem_of_mem_head? head
      have plays := inv.queued member
      have isActive := plays.2.2.2.1.started allocates.short allocates.covered loaded budget
      have idle : i ∉ output.scheduled := fun scheduled => plays.2.1 (pass.running i scheduled)
      refine pass.extend idle (inv.enter member rfl rfl isActive allocates.blocks
        (fun _ _ => allocates.keeps.sentinel) allocates.unpublished) rfl
        (fun _ => List.mem_append_left _) (by simp [Scheduler.enter])
        (fun j different => setSeq_heap_of_ne s different _) ?_
      show (Scheduler.heap (s.setSeq i _) i).Ready cfg
      rw [setSeq_heap_self]
      exact ready
  | @load s output i bm hits fresh head allocates connected wants =>
      have member : i ∈ s.waiting := List.mem_of_mem_head? head
      have plays := inv.queued member
      have idle : i ∉ output.scheduled := fun scheduled => plays.2.1 (pass.running i scheduled)
      have isLoading := plays.2.2.2.1.loading allocates.short allocates.covered connected wants
      exact pass.frame idle (inv.beginLoad member _ rfl rfl rfl isLoading allocates.blocks
        (fun _ _ => allocates.keeps.sentinel) allocates.unpublished) rfl (fun _ _ => id)
        (fun j different => setSeq_heap_of_ne s different _)

theorem Moves.passInv (moves : Moves cfg before after) (pass : PassInv cfg before rows) :
    PassInv cfg after rows := by
  induction moves with
  | refl => exact pass
  | tail _ move ih => exact move.passInv ih

/-- What every move keeps, a run of moves keeps. -/
theorem Moves.keep (holds : Scheduler → Prop)
    (move : ∀ {before after}, PassInv cfg before rows → Move cfg before after →
      holds before.1 → holds after.1)
    (moves : Moves cfg before after) (pass : PassInv cfg before rows) (held : holds before.1) :
    holds after.1 := by
  induction moves with
  | refl => exact held
  | tail earlier next ih => exact move (Moves.passInv earlier pass) next ih

end Scheduler

end LeanVllm
