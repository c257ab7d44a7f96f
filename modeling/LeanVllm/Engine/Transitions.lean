import LeanVllm.Engine.SchedulerInvariant

/-!
# Transitions of the scheduler's sequences

Every operation of the scheduler takes one sequence from one role to another,
or leaves it in its role with other counters.  Each such transition is stated
once here, as a lemma that keeps the invariant; the operations and the loops of
`schedule` are then runs of these transitions.
-/

namespace LeanVllm

open Collections

namespace Sequence

/-- The record after its blocks are released. -/
def released (seq : Sequence) : Sequence :=
  { seq with numCachedTokens := 0, numPublishedBlocks := 0, blockTable := [] }

/-- The record after `_preempt`. -/
def requeued (seq : Sequence) : Sequence :=
  { seq with
    status := .waiting
    isPrefill := true
    numPreemptions := seq.numPreemptions + 1
    numPendingTokens := 0
    specTokenIds := []
    numCachedTokens := 0
    numPublishedBlocks := 0
    blockTable := [] }

/-- The record after `_finish` and `drop_pending`. -/
def closed (seq : Sequence) (reason : FinishReason) : Sequence :=
  { seq with status := .finished, finishReason := some reason, numPendingTokens := 0 }

/-- A scheduled sequence stays within its table and its token limit, and
without a connector it has something to compute. -/
structure Ready (cfg : Config) (seq : Sequence) : Prop where
  positive : cfg.kvTransfer = none → 0 < seq.numScheduledTokens
  prefilling : seq.isPrefill = true →
    seq.numCachedTokens + seq.numScheduledTokens ≤ seq.numTokens
  decoding : seq.isPrefill = false →
    seq.numScheduledTokens = 1 + seq.specTokenIds.length ∧
      seq.numPlannedTokens + seq.numScheduledTokens ≤ seq.numPromptTokens + seq.maxTokens ∧
      seq.numPlannedTokens + seq.specTokenIds.length + cfg.numLookaheadTokens ≤
        seq.blockTable.length * cfg.blockSize

variable {cfg : Config} {seq : Sequence} {reserved : Nat}

theorem Active.requeued (active : seq.Active cfg reserved) : seq.requeued.Queued cfg where
  prompt_pos := active.prompt_pos
  prompt_le := active.prompt_le
  hashed := active.hashed
  status := rfl
  settled := rfl
  table := rfl
  prefill := rfl
  drafts := rfl
  unfinished := active.unfinished
  unloaded connected wants := by
    have loaded := active.loaded connected
    exact absurd (show seq.wantsRemotePrefill = true from wants) (by simp [loaded])

end Sequence

namespace Scheduler

variable {cfg : Config} {s : Scheduler} {active : List SeqId} {rows : List LaunchedRow}

@[simp]
theorem setSeq_heap_self (s : Scheduler) (i : SeqId) (seq : Sequence) :
    (s.setSeq i seq).heap i = seq := by
  simp [setSeq]

theorem setSeq_heap_of_ne (s : Scheduler) {i j : SeqId} (different : j ≠ i) (seq : Sequence) :
    (s.setSeq i seq).heap j = s.heap j := by
  simp [setSeq, different]

/-- The invariant is about the active sequences it is given, not `running`. -/
theorem Inv.withRunning (inv : s.Inv cfg active rows) (running : List SeqId) :
    { s with running := running }.Inv cfg active rows :=
  ⟨⟨inv.waiting_nodup, inv.active_nodup, inv.keyed, inv.plays, inv.launched⟩, inv.blocks,
    inv.unpublished⟩

theorem Inv.withConnector (inv : s.Inv cfg active rows) (connector : NixlConnectorScheduler) :
    { s with connector := connector }.Inv cfg active rows :=
  ⟨⟨inv.waiting_nodup, inv.active_nodup, inv.keyed, inv.plays, inv.launched⟩, inv.blocks,
    inv.unpublished⟩

theorem Inv.reorder (inv : s.Inv cfg active rows) {active' : List SeqId}
    (reordered : active'.Perm active) : s.Inv cfg active' rows := by
  have mem : ∀ i, i ∈ active' ↔ i ∈ active := fun i => reordered.mem_iff
  refine ⟨⟨inv.waiting_nodup, reordered.symm.nodup inv.active_nodup, inv.keyed, ?_, ?_⟩, ?_, ?_⟩
  · intro i known
    obtain ⟨below, role, part, plays⟩ := inv.plays i (by simpa only [Known, mem] using known)
    exact ⟨below, role, part, by cases role <;> simpa only [Plays, mem] using plays⟩
  · intro row member
    simpa only [Launched, mem] using inv.launched row member
  · refine inv.blocks.perm (List.Perm.flatMap_right _ ?_)
    exact (reordered.symm.append_right _).append_right _
  · intro i member
    exact inv.unpublished i (by simpa only [mem] using member)

theorem Roster.below (inv : s.Roster cfg active rows) {i : SeqId} {role : Role}
    (plays : s.Plays cfg active rows i role) (part : role ≠ .gone) : i < s.counter :=
  (inv.plays i (Or.inr (Or.inr ⟨_, plays.stored part⟩))).1

/-! ## Giving blocks back -/

/-- Releasing the table of a sequence succeeds. -/
theorem Inv.release (inv : s.Inv cfg active rows) {i : SeqId} {role : Role}
    (plays : s.Plays cfg active rows i role)
    (owned : role.owns = true ∨ (s.heap i).blockTable = []) :
    ∃ bm, BlockManager.dropReferences (s.heap i).blockTable.reverse s.blockManager = .ok bm ∧
      bm.Inv cfg (s.otherHoldings active i) ∧ BlockManager.Keeps s.blockManager bm [] ∧
      bm.hashToBlockId = s.blockManager.hashToBlockId := by
  have blocks : s.blockManager.Inv cfg ((s.heap i).blockTable ++ s.otherHoldings active i) := by
    have split := inv.split plays
    rcases owned with owns | empty
    · rwa [if_pos owns] at split
    · simpa [empty] using split
  exact BlockManager.dropReferences_spec _
    (blocks.perm ((List.reverse_perm _).symm.append_right _))

/-! ## Transitions -/

/-- `i` goes back to the waiting queue without its blocks. -/
def requeue (cfg : Config) (s : Scheduler) (i : SeqId) (bm : BlockManager) : Scheduler :=
  { s.setSeq i (s.heap i).requeued with
    blockManager := bm
    waiting := cfg.schedulingPolicy.requeue (Function.update s.heap i (s.heap i).requeued)
      s.waiting i
    running := s.running.erase i }

/-- `i` leaves every queue, and its record becomes `seq`. -/
def discard (s : Scheduler) (i : SeqId) (seq : Sequence) (bm : BlockManager) : Scheduler :=
  { s.setSeq i seq with
    blockManager := bm
    waiting := s.waiting.erase i
    running := s.running.erase i
    seqs := s.seqs.erase (s.heap i).requestId }

/-- `i` stays where it is, with the record `seq`. -/
def renew (s : Scheduler) (i : SeqId) (seq : Sequence) (bm : BlockManager) : Scheduler :=
  { s.setSeq i seq with blockManager := bm }

/-- `i` leaves the waiting queue and becomes active. -/
def enter (s : Scheduler) (i : SeqId) (seq : Sequence) (bm : BlockManager) : Scheduler :=
  { s.setSeq i seq with
    blockManager := bm
    waiting := s.waiting.erase i
    running := s.running ++ [i] }

/-- `i` leaves the waiting queue and waits for its blocks to load. -/
def beginLoad (s : Scheduler) (i : SeqId) (seq : Sequence) (bm : BlockManager)
    (connector : NixlConnectorScheduler) : Scheduler :=
  { s.setSeq i seq with
    blockManager := bm
    waiting := s.waiting.erase i
    connector := connector
    recving := s.recving.insert (s.heap i).requestId i }

/-- `i` leaves every queue, but its blocks are held for a remote reader. -/
def hold (s : Scheduler) (i : SeqId) (seq : Sequence) (connector : NixlConnectorScheduler) :
    Scheduler :=
  { s.discard i seq s.blockManager with
    connector := connector
    sending := s.sending.insert (s.heap i).requestId i }

/-- The load of `i` is over; `running` gains `i` if it goes on. -/
def endLoad (s : Scheduler) (i : SeqId) (seq : Sequence) (bm : BlockManager)
    (running : List SeqId) : Scheduler :=
  { s.setSeq i seq with
    blockManager := bm
    recving := s.recving.erase (s.heap i).requestId
    running := running }

/-- The blocks of `i` were sent. -/
def endHold (s : Scheduler) (i : SeqId) (seq : Sequence) (bm : BlockManager) : Scheduler :=
  { s.setSeq i seq with
    blockManager := bm
    sending := s.sending.erase (s.heap i).requestId }

/-- `i` is aborted while its blocks load. -/
def cancel (s : Scheduler) (i : SeqId) (seq : Sequence) : Scheduler :=
  { s.setSeq i seq with seqs := s.seqs.erase (s.heap i).requestId }

/-- A new sequence joins the waiting queue. -/
def enqueue (cfg : Config) (s : Scheduler) (seq : Sequence) : Scheduler :=
  { s.setSeq s.counter seq with
    counter := s.counter + 1
    seqs := s.seqs.insert seq.requestId s.counter
    waiting := cfg.schedulingPolicy.add (Function.update s.heap s.counter seq) s.waiting
      s.counter }

@[simp]
theorem renew_heap_self (s : Scheduler) (i : SeqId) (seq : Sequence) (bm : BlockManager) :
    (s.renew i seq bm).heap i = seq :=
  setSeq_heap_self s i seq

@[simp]
theorem renew_renew (s : Scheduler) (i : SeqId) (first second : Sequence)
    (bm bm' : BlockManager) :
    (s.renew i first bm).renew i second bm' = s.renew i second bm' := by
  simp [renew, setSeq]

section Transitions

variable {i : SeqId} {bm : BlockManager} {seq : Sequence}

theorem Inv.preempt (inv : s.Inv cfg active rows) (member : i ∈ active)
    (blocks : bm.Inv cfg (s.otherHoldings active i))
    (keeps : BlockManager.Keeps s.blockManager bm []) :
    (s.requeue cfg i bm).Inv cfg (active.erase i) rows := by
  have plays := inv.running member
  obtain ⟨notQueued, _, ⟨live, loading, held⟩, isActive⟩ := id plays
  have queue : (s.requeue cfg i bm).waiting.Perm (i :: s.waiting) :=
    cfg.schedulingPolicy.requeue_perm _ s.waiting i
  have heapEq : (s.requeue cfg i bm).heap i = (s.heap i).requeued := setSeq_heap_self s i _
  have same : SameBut i (s.heap i).requestId s (s.requeue cfg i bm) active (active.erase i)
      rows rows :=
    { heap := fun j different => setSeq_heap_of_ne s different _
      waiting := fun j different => by rw [queue.mem_iff, List.mem_cons, or_iff_right different]
      active := fun j different => List.mem_erase_of_ne different
      stored := fun _ _ => ⟨rfl, rfl, rfl⟩
      due := fun _ _ _ => rfl
      launched := fun _ member _ => member }
  -- rows of this life and the ones before are void from now on
  have void : ∀ row ∈ rows, row.seq = i → row.numPreemptions ≤ (s.heap i).numPreemptions := by
    rintro row rowMember rfl
    exact (inv.launched row rowMember).2.1
  refine inv.update .queued (inv.alone plays) same (by rw [heapEq]; rfl)
    (Nat.le_refl _) (inv.below plays (by simp)) (queue.symm.nodup ?_) (inv.active_nodup.erase i)
    ?_ ?_ ?_ ?_ (by simp)
  · exact List.nodup_cons.mpr ⟨notQueued, inv.waiting_nodup⟩
  · refine ⟨queue.mem_iff.mpr List.mem_cons_self, inv.active_nodup.not_mem_erase, ?_, ?_, ?_⟩
    · rw [Stored, heapEq]
      exact ⟨live, loading, held⟩
    · rw [heapEq]
      exact isActive.requeued
    · rw [heapEq]
      exact due_eq_zero fun row rowMember own => by
        have := void row rowMember own
        simp only [Sequence.requeued]
        omega
  · rintro row rowMember rfl
    have := void row rowMember rfl
    refine ⟨(inv.launched row rowMember).1, ?_, fun _ same => ?_⟩
    · rw [heapEq]
      exact Nat.le_succ_of_le this
    · rw [heapEq] at same
      simp only [Sequence.requeued] at same
      omega
  · exact blocks
  · exact fun blockId _ => keeps.sentinel

/-- A queued or active sequence whose blocks are back leaves for good. -/
theorem Inv.discard (inv : s.Inv cfg active rows) {role : Role}
    (plays : s.Plays cfg active rows i role) (live : role = .queued ∨ role = .active)
    (finished : seq.status = .finished) (idEq : seq.requestId = (s.heap i).requestId)
    (lives : seq.numPreemptions = (s.heap i).numPreemptions)
    (blocks : bm.Inv cfg (s.otherHoldings active i))
    (keeps : BlockManager.Keeps s.blockManager bm []) :
    (s.discard i seq bm).Inv cfg (active.erase i) rows := by
  have heapEq : (s.discard i seq bm).heap i = seq := setSeq_heap_self s i _
  have part : role ≠ .gone := by rcases live with rfl | rfl <;> simp
  obtain ⟨loading, held⟩ : s.recving.lookup (s.heap i).requestId = none ∧
      s.sending.lookup (s.heap i).requestId = none := by
    rcases live with rfl | rfl
    · exact plays.2.2.1.2
    · exact plays.2.2.1.2
  have same : SameBut i (s.heap i).requestId s (s.discard i seq bm) active (active.erase i)
      rows rows :=
    { heap := fun j different => setSeq_heap_of_ne s different _
      waiting := fun j different => List.mem_erase_of_ne different
      active := fun j different => List.mem_erase_of_ne different
      stored := fun other different => ⟨AList.lookup_erase_ne different, rfl, rfl⟩
      due := fun _ _ _ => rfl
      launched := fun _ member _ => member }
  refine inv.update .gone (inv.alone plays) same (by rw [heapEq, idEq])
    (Nat.le_refl _) (inv.below plays part) (inv.waiting_nodup.erase i) (inv.active_nodup.erase i)
    ?_ ?_ ?_ ?_ (by simp)
  · refine ⟨inv.waiting_nodup.not_mem_erase, inv.active_nodup.not_mem_erase, ?_⟩
    rw [Stored, heapEq, idEq]
    exact ⟨AList.lookup_erase _ _, loading, held⟩
  · rintro row rowMember rfl
    refine ⟨(inv.launched row rowMember).1, ?_, ?_⟩
    · rw [heapEq, lives]
      exact (inv.launched row rowMember).2.1
    · rw [heapEq]
      exact fun unfinished => absurd finished unfinished
  · exact blocks
  · exact fun blockId _ => keeps.sentinel

/-- An active sequence stays active with another record and other blocks,
while rows of its own are launched or reconciled. -/
theorem Inv.renew (inv : s.Inv cfg active rows) (member : i ∈ active)
    {rows' : List LaunchedRow} (dueEq : ∀ j, j ≠ i → ∀ k, due rows' j k = due rows j k)
    (launched : ∀ row ∈ rows', row ∈ rows ∨
      row.seq = i ∧ row.numPreemptions = (s.heap i).numPreemptions)
    (idEq : seq.requestId = (s.heap i).requestId)
    (lives : seq.numPreemptions = (s.heap i).numPreemptions)
    (isActive : seq.Active cfg (due rows' i (s.heap i).numPreemptions))
    (blocks : bm.Inv cfg (seq.blockTable ++ s.otherHoldings active i))
    (kept : ∀ blockId ∈ s.otherHoldings active i,
      (s.blockManager.blocks blockId).hash = -1 → (bm.blocks blockId).hash = -1)
    (unpublished : ∀ blockId ∈ seq.blockTable.drop seq.numPublishedBlocks,
      (bm.blocks blockId).hash = -1) :
    (s.renew i seq bm).Inv cfg active rows' := by
  have plays := inv.running member
  obtain ⟨notQueued, _, stored, _⟩ := id plays
  have below := inv.below plays (by simp)
  have heapEq : (s.renew i seq bm).heap i = seq := setSeq_heap_self s i _
  have same : SameBut i (s.heap i).requestId s (s.renew i seq bm) active active rows rows' :=
    { heap := fun j different => setSeq_heap_of_ne s different _
      waiting := fun _ _ => Iff.rfl
      active := fun _ _ => Iff.rfl
      stored := fun _ _ => ⟨rfl, rfl, rfl⟩
      due := dueEq
      launched := fun row rowMember other =>
        (launched row rowMember).resolve_right fun own => other own.1 }
  refine inv.update .active (inv.alone plays) same (by rw [heapEq, idEq])
    (Nat.le_refl _) below inv.waiting_nodup inv.active_nodup ?_ ?_ ?_ kept ?_
  · refine ⟨notQueued, member, ?_, ?_⟩
    · rw [Stored, heapEq, idEq]
      exact stored
    · rw [heapEq, lives]
      exact isActive
  · rintro row rowMember rfl
    refine ⟨below, ?_, fun _ _ => member⟩
    rw [heapEq, lives]
    rcases launched row rowMember with old | new
    · exact (inv.launched row old).2.1
    · exact new.2.le
  · rw [heapEq]
    exact blocks
  · rw [Unpublished, heapEq]
    exact fun _ => unpublished

/-- A row whose sequence finished or was requeued since the launch is void. -/
theorem Inv.dropVoid {row : LaunchedRow} (inv : s.Inv cfg active (row :: rows))
    (void : (s.heap row.seq).status = .finished ∨
      (s.heap row.seq).numPreemptions ≠ row.numPreemptions) : s.Inv cfg active rows := by
  refine ⟨⟨inv.waiting_nodup, inv.active_nodup, inv.keyed, ?_, ?_⟩, inv.blocks, inv.unpublished⟩
  · intro j known
    obtain ⟨below, role, part, plays⟩ := inv.plays j known
    refine ⟨below, role, part, ?_⟩
    cases role with
    | gone => exact plays
    | cancelled => exact plays
    | held => exact plays
    | queued =>
        obtain ⟨queued, notActive, stored, isQueued, none⟩ := plays
        rw [due_cons, Nat.add_eq_zero_iff] at none
        exact ⟨queued, notActive, stored, isQueued, none.2⟩
    | loading =>
        obtain ⟨queued, notActive, stored, status, isLoading, none⟩ := plays
        rw [due_cons, Nat.add_eq_zero_iff] at none
        exact ⟨queued, notActive, stored, status, isLoading, none.2⟩
    | active =>
        obtain ⟨queued, isMember, stored, isActive⟩ := plays
        rw [due_cons, if_neg, Nat.zero_add] at isActive
        · exact ⟨queued, isMember, stored, isActive⟩
        · rintro ⟨rfl, lives⟩
          rcases void with finished | requeued
          · exact absurd (finished.symm.trans isActive.status) (by simp)
          · exact requeued lives.symm
  · exact fun other member => inv.launched other (List.mem_cons_of_mem _ member)

/-- A queued sequence gets a table and becomes active. -/
theorem Inv.enter (inv : s.Inv cfg active rows) (member : i ∈ s.waiting)
    (idEq : seq.requestId = (s.heap i).requestId)
    (lives : seq.numPreemptions = (s.heap i).numPreemptions)
    (isActive : seq.Active cfg 0)
    (blocks : bm.Inv cfg (seq.blockTable ++ s.otherHoldings active i))
    (kept : ∀ blockId ∈ s.otherHoldings active i,
      (s.blockManager.blocks blockId).hash = -1 → (bm.blocks blockId).hash = -1)
    (unpublished : ∀ blockId ∈ seq.blockTable.drop seq.numPublishedBlocks,
      (bm.blocks blockId).hash = -1) :
    (s.enter i seq bm).Inv cfg (active ++ [i]) rows := by
  have plays := inv.queued member
  obtain ⟨_, notActive, stored, _, none⟩ := id plays
  have below := inv.below plays (by simp)
  have heapEq : (s.enter i seq bm).heap i = seq := setSeq_heap_self s i _
  have same : SameBut i (s.heap i).requestId s (s.enter i seq bm) active (active ++ [i])
      rows rows :=
    { heap := fun j different => setSeq_heap_of_ne s different _
      waiting := fun j different => List.mem_erase_of_ne different
      active := fun j different => by simp [different]
      stored := fun _ _ => ⟨rfl, rfl, rfl⟩
      due := fun _ _ _ => rfl
      launched := fun _ member _ => member }
  refine inv.update .active (inv.alone plays) same (by rw [heapEq, idEq])
    (Nat.le_refl _) below (inv.waiting_nodup.erase i) ?_ ?_ ?_ ?_ kept ?_
  · rw [List.nodup_append']
    exact ⟨inv.active_nodup, List.nodup_singleton i, by simpa using notActive⟩
  · refine ⟨inv.waiting_nodup.not_mem_erase, by simp, ?_, ?_⟩
    · rw [Stored, heapEq, idEq]
      exact stored
    · rw [heapEq, lives, none]
      exact isActive
  · rintro row rowMember rfl
    refine ⟨below, ?_, fun _ _ => by simp⟩
    rw [heapEq, lives]
    exact (inv.launched row rowMember).2.1
  · rw [heapEq]
    exact blocks
  · rw [Unpublished, heapEq]
    exact fun _ => unpublished

/-- No row of a queued or loading sequence's present life is in flight. -/
theorem Roster.not_launched (inv : s.Roster cfg active rows) (notActive : i ∉ active)
    (unfinished : (s.heap i).status ≠ .finished) {row : LaunchedRow} (member : row ∈ rows)
    (own : row.seq = i) : row.numPreemptions ≠ (s.heap i).numPreemptions := by
  subst i
  exact fun lives => notActive ((inv.launched row member).2.2 unfinished lives)

/-- A queued sequence gets a table for its prompt to load into. -/
theorem Inv.beginLoad (inv : s.Inv cfg active rows) (member : i ∈ s.waiting)
    (connector : NixlConnectorScheduler)
    (idEq : seq.requestId = (s.heap i).requestId)
    (lives : seq.numPreemptions = (s.heap i).numPreemptions)
    (status : seq.status = .waitingForRemoteKvs) (isLoading : seq.Loading cfg)
    (blocks : bm.Inv cfg (seq.blockTable ++ s.otherHoldings active i))
    (kept : ∀ blockId ∈ s.otherHoldings active i,
      (s.blockManager.blocks blockId).hash = -1 → (bm.blocks blockId).hash = -1)
    (unpublished : ∀ blockId ∈ seq.blockTable.drop seq.numPublishedBlocks,
      (bm.blocks blockId).hash = -1) :
    (s.beginLoad i seq bm connector).Inv cfg active rows := by
  have plays := inv.queued member
  obtain ⟨_, notActive, ⟨live, loading, held⟩, isQueued, none⟩ := id plays
  have below := inv.below plays (by simp)
  have heapEq : (s.beginLoad i seq bm connector).heap i = seq := setSeq_heap_self s i _
  have same : SameBut i (s.heap i).requestId s (s.beginLoad i seq bm connector) active active
      rows rows :=
    { heap := fun j different => setSeq_heap_of_ne s different _
      waiting := fun j different => List.mem_erase_of_ne different
      active := fun _ _ => Iff.rfl
      stored := fun other different => ⟨rfl, AList.lookup_insert_ne different, rfl⟩
      due := fun _ _ _ => rfl
      launched := fun _ member _ => member }
  have unfinished : (s.heap i).status ≠ .finished := by simp [isQueued.status]
  refine inv.update .loading (inv.alone plays) same (by rw [heapEq, idEq])
    (Nat.le_refl _) below (inv.waiting_nodup.erase i) inv.active_nodup ?_ ?_ ?_ kept ?_
  · refine ⟨inv.waiting_nodup.not_mem_erase, notActive, ?_, ?_, ?_, ?_⟩
    · rw [Stored, heapEq, idEq]
      exact ⟨live, AList.lookup_insert _, held⟩
    · rw [heapEq, status]
    · rw [heapEq]
      exact isLoading
    · rw [heapEq, lives, none]
  · intro row rowMember own
    have gone := inv.not_launched notActive unfinished rowMember own
    subst i
    refine ⟨below, ?_, fun _ same => ?_⟩
    · rw [heapEq, lives]
      exact (inv.launched row rowMember).2.1
    · rw [heapEq, lives] at same
      exact absurd same gone
  · rw [heapEq]
    exact blocks
  · rw [Unpublished, heapEq]
    exact fun _ => unpublished

/-- A queued or active sequence finishes, and its blocks are held. -/
theorem Inv.hold (inv : s.Inv cfg active rows) {role : Role}
    (plays : s.Plays cfg active rows i role) (live : role = .queued ∨ role = .active)
    (connector : NixlConnectorScheduler)
    (finished : seq.status = .finished) (idEq : seq.requestId = (s.heap i).requestId)
    (lives : seq.numPreemptions = (s.heap i).numPreemptions)
    (table : seq.blockTable = (s.heap i).blockTable) :
    (s.hold i seq connector).Inv cfg (active.erase i) rows := by
  have heapEq : (s.hold i seq connector).heap i = seq := setSeq_heap_self s i _
  have part : role ≠ .gone := by rcases live with rfl | rfl <;> simp
  obtain ⟨notLoading, blocks⟩ : s.recving.lookup (s.heap i).requestId = none ∧
      s.blockManager.Inv cfg (seq.blockTable ++ s.otherHoldings active i) := by
    have blocks := inv.split plays
    rw [table]
    rcases live with rfl | rfl
    · refine ⟨plays.2.2.1.2.1, ?_⟩
      rw [plays.2.2.2.1.table]
      exact blocks
    · exact ⟨plays.2.2.1.2.1, blocks⟩
  have same : SameBut i (s.heap i).requestId s (s.hold i seq connector) active (active.erase i)
      rows rows :=
    { heap := fun j different => setSeq_heap_of_ne s different _
      waiting := fun j different => List.mem_erase_of_ne different
      active := fun j different => List.mem_erase_of_ne different
      stored := fun other different =>
        ⟨AList.lookup_erase_ne different, rfl, AList.lookup_insert_ne different⟩
      due := fun _ _ _ => rfl
      launched := fun _ member _ => member }
  refine inv.update .held (inv.alone plays) same (by rw [heapEq, idEq])
    (Nat.le_refl _) (inv.below plays part) (inv.waiting_nodup.erase i) (inv.active_nodup.erase i)
    ?_ ?_ ?_ (fun _ _ unpublished => unpublished) (by simp)
  · refine ⟨inv.waiting_nodup.not_mem_erase, inv.active_nodup.not_mem_erase, ?_, ?_⟩
    · rw [Stored, heapEq, idEq]
      exact ⟨AList.lookup_erase _ _, notLoading, AList.lookup_insert _⟩
    · rw [heapEq, finished]
  · rintro row rowMember rfl
    refine ⟨(inv.launched row rowMember).1, ?_, ?_⟩
    · rw [heapEq, lives]
      exact (inv.launched row rowMember).2.1
    · rw [heapEq]
      exact fun unfinished => absurd finished unfinished
  · rw [heapEq]
    exact blocks

/-- A loading sequence is aborted: it keeps its blocks until the load ends. -/
theorem Inv.cancel (inv : s.Inv cfg active rows) (plays : s.Plays cfg active rows i .loading)
    (finished : seq.status = .finished) (idEq : seq.requestId = (s.heap i).requestId)
    (lives : seq.numPreemptions = (s.heap i).numPreemptions) (isLoading : seq.Loading cfg)
    (table : seq.blockTable = (s.heap i).blockTable)
    (published : seq.numPublishedBlocks = (s.heap i).numPublishedBlocks) :
    (s.cancel i seq).Inv cfg active rows := by
  obtain ⟨notQueued, notActive, ⟨_, loading, held⟩, _⟩ := id plays
  have heapEq : (s.cancel i seq).heap i = seq := setSeq_heap_self s i _
  have same : SameBut i (s.heap i).requestId s (s.cancel i seq) active active rows rows :=
    { heap := fun j different => setSeq_heap_of_ne s different _
      waiting := fun _ _ => Iff.rfl
      active := fun _ _ => Iff.rfl
      stored := fun other different => ⟨AList.lookup_erase_ne different, rfl, rfl⟩
      due := fun _ _ _ => rfl
      launched := fun _ member _ => member }
  refine inv.update .cancelled (inv.alone plays) same (by rw [heapEq, idEq])
    (Nat.le_refl _) (inv.below plays (by simp)) inv.waiting_nodup inv.active_nodup ?_ ?_ ?_
    (fun _ _ unpublished => unpublished) ?_
  · refine ⟨notQueued, notActive, ?_, ?_, ?_⟩
    · rw [Stored, heapEq, idEq]
      exact ⟨AList.lookup_erase _ _, loading, held⟩
    · rw [heapEq, finished]
    · rw [heapEq]
      exact isLoading
  · rintro row rowMember rfl
    refine ⟨(inv.launched row rowMember).1, ?_, ?_⟩
    · rw [heapEq, lives]
      exact (inv.launched row rowMember).2.1
    · rw [heapEq]
      exact fun unfinished => absurd finished unfinished
  · rw [heapEq, table]
    have blocks := inv.split plays
    exact blocks
  · intro _
    rw [Unpublished, heapEq, table, published]
    exact inv.unpublished i (Or.inr (Dict.mem_values_iff.mpr ⟨_, loading⟩))

/-- A loaded sequence becomes active. -/
theorem Inv.resume (inv : s.Inv cfg active rows) (plays : s.Plays cfg active rows i .loading)
    (idEq : seq.requestId = (s.heap i).requestId)
    (lives : seq.numPreemptions = (s.heap i).numPreemptions)
    (isActive : seq.Active cfg 0)
    (blocks : bm.Inv cfg (seq.blockTable ++ s.otherHoldings active i))
    (kept : ∀ blockId ∈ s.otherHoldings active i,
      (s.blockManager.blocks blockId).hash = -1 → (bm.blocks blockId).hash = -1)
    (unpublished : ∀ blockId ∈ seq.blockTable.drop seq.numPublishedBlocks,
      (bm.blocks blockId).hash = -1) :
    (s.endLoad i seq bm (s.running ++ [i])).Inv cfg (active ++ [i]) rows := by
  obtain ⟨notQueued, notActive, ⟨live, loading, held⟩, _, _, none⟩ := id plays
  have below := inv.below plays (by simp)
  have heapEq : (s.endLoad i seq bm (s.running ++ [i])).heap i = seq := setSeq_heap_self s i _
  have same : SameBut i (s.heap i).requestId s (s.endLoad i seq bm (s.running ++ [i])) active
      (active ++ [i]) rows rows :=
    { heap := fun j different => setSeq_heap_of_ne s different _
      waiting := fun _ _ => Iff.rfl
      active := fun j different => by simp [different]
      stored := fun other different => ⟨rfl, AList.lookup_erase_ne different, rfl⟩
      due := fun _ _ _ => rfl
      launched := fun _ member _ => member }
  refine inv.update .active (inv.alone plays) same (by rw [heapEq, idEq])
    (Nat.le_refl _) below inv.waiting_nodup ?_ ?_ ?_ ?_ kept ?_
  · rw [List.nodup_append']
    exact ⟨inv.active_nodup, List.nodup_singleton i, by simpa using notActive⟩
  · refine ⟨notQueued, by simp, ?_, ?_⟩
    · rw [Stored, heapEq, idEq]
      exact ⟨live, AList.lookup_erase _ _, held⟩
    · rw [heapEq, lives, none]
      exact isActive
  · rintro row rowMember rfl
    refine ⟨below, ?_, fun _ _ => by simp⟩
    rw [heapEq, lives]
    exact (inv.launched row rowMember).2.1
  · rw [heapEq]
    exact blocks
  · rw [Unpublished, heapEq]
    exact fun _ => unpublished

/-- A cancelled sequence gives its blocks back once its load has ended. -/
theorem Inv.endLoad (inv : s.Inv cfg active rows) (plays : s.Plays cfg active rows i .cancelled)
    (finished : seq.status = .finished) (idEq : seq.requestId = (s.heap i).requestId)
    (lives : seq.numPreemptions = (s.heap i).numPreemptions)
    (blocks : bm.Inv cfg (s.otherHoldings active i))
    (keeps : BlockManager.Keeps s.blockManager bm []) :
    (s.endLoad i seq bm s.running).Inv cfg active rows := by
  obtain ⟨notQueued, notActive, ⟨live, _, held⟩, _⟩ := id plays
  have heapEq : (s.endLoad i seq bm s.running).heap i = seq := setSeq_heap_self s i _
  have same : SameBut i (s.heap i).requestId s (s.endLoad i seq bm s.running) active active
      rows rows :=
    { heap := fun j different => setSeq_heap_of_ne s different _
      waiting := fun _ _ => Iff.rfl
      active := fun _ _ => Iff.rfl
      stored := fun other different => ⟨rfl, AList.lookup_erase_ne different, rfl⟩
      due := fun _ _ _ => rfl
      launched := fun _ member _ => member }
  refine inv.update .gone (inv.alone plays) same (by rw [heapEq, idEq])
    (Nat.le_refl _) (inv.below plays (by simp)) inv.waiting_nodup inv.active_nodup ?_ ?_ blocks
    (fun _ _ => keeps.sentinel) (by simp)
  · refine ⟨notQueued, notActive, ?_⟩
    rw [Stored, heapEq, idEq]
    exact ⟨live, AList.lookup_erase _ _, held⟩
  · rintro row rowMember rfl
    refine ⟨(inv.launched row rowMember).1, ?_, ?_⟩
    · rw [heapEq, lives]
      exact (inv.launched row rowMember).2.1
    · rw [heapEq]
      exact fun unfinished => absurd finished unfinished

/-- Held blocks are given back once they are sent. -/
theorem Inv.endHold (inv : s.Inv cfg active rows) (plays : s.Plays cfg active rows i .held)
    (finished : seq.status = .finished) (idEq : seq.requestId = (s.heap i).requestId)
    (lives : seq.numPreemptions = (s.heap i).numPreemptions)
    (blocks : bm.Inv cfg (s.otherHoldings active i))
    (keeps : BlockManager.Keeps s.blockManager bm []) :
    (s.endHold i seq bm).Inv cfg active rows := by
  obtain ⟨notQueued, notActive, ⟨live, loading, _⟩, _⟩ := id plays
  have heapEq : (s.endHold i seq bm).heap i = seq := setSeq_heap_self s i _
  have same : SameBut i (s.heap i).requestId s (s.endHold i seq bm) active active rows rows :=
    { heap := fun j different => setSeq_heap_of_ne s different _
      waiting := fun _ _ => Iff.rfl
      active := fun _ _ => Iff.rfl
      stored := fun other different => ⟨rfl, rfl, AList.lookup_erase_ne different⟩
      due := fun _ _ _ => rfl
      launched := fun _ member _ => member }
  refine inv.update .gone (inv.alone plays) same (by rw [heapEq, idEq])
    (Nat.le_refl _) (inv.below plays (by simp)) inv.waiting_nodup inv.active_nodup ?_ ?_ blocks
    (fun _ _ => keeps.sentinel) (by simp)
  · refine ⟨notQueued, notActive, ?_⟩
    rw [Stored, heapEq, idEq]
    exact ⟨live, loading, AList.lookup_erase _ _⟩
  · rintro row rowMember rfl
    refine ⟨(inv.launched row rowMember).1, ?_, ?_⟩
    · rw [heapEq, lives]
      exact (inv.launched row rowMember).2.1
    · rw [heapEq]
      exact fun unfinished => absurd finished unfinished

/-! ## New sequences -/

theorem Roster.not_known_counter (inv : s.Roster cfg active rows) : ¬ s.Known active s.counter :=
  fun known => Nat.lt_irrefl _ (inv.plays s.counter known).1

/-- A refused request leaves only a record nobody knows. -/
theorem Inv.forget (inv : s.Inv cfg active rows) (seq : Sequence) :
    { s.setSeq s.counter seq with counter := s.counter + 1 }.Inv cfg active rows := by
  have other : ∀ j, s.Known active j → (s.setSeq s.counter seq).heap j = s.heap j := by
    intro j known
    refine setSeq_heap_of_ne s ?_ seq
    rintro rfl
    exact inv.not_known_counter known
  have owner : ∀ j, j ∈ s.owners active → s.Known active j := by
    intro j member
    simp only [owners, List.mem_append, Dict.mem_values_iff] at member
    rcases member with (running | ⟨key, found⟩) | ⟨key, found⟩
    · exact Or.inr (Or.inl running)
    · exact Or.inr (Or.inr ⟨key, Or.inr (Or.inl found)⟩)
    · exact Or.inr (Or.inr ⟨key, Or.inr (Or.inr found)⟩)
  refine ⟨⟨inv.waiting_nodup, inv.active_nodup, ?_, ?_, ?_⟩, ?_, ?_⟩
  · intro key j found
    show ((s.setSeq s.counter seq).heap j).requestId = key
    rw [other j (Or.inr (Or.inr ⟨key, found⟩))]
    exact inv.keyed key j found
  · intro j known
    have heapEq := other j known
    obtain ⟨below, role, part, plays⟩ := inv.plays j known
    refine ⟨Nat.lt_succ_of_lt below, role, part, ?_⟩
    exact plays.transfer heapEq Iff.rfl Iff.rfl ⟨rfl, rfl, rfl⟩ rfl
  · intro row member
    obtain ⟨below, lives, stays⟩ := inv.launched row member
    have heapEq : (s.setSeq s.counter seq).heap row.seq = s.heap row.seq :=
      setSeq_heap_of_ne s (Nat.ne_of_lt below) seq
    refine ⟨Nat.lt_succ_of_lt below, ?_, ?_⟩
    · exact heapEq.symm ▸ lives
    · intro unfinished same
      exact stays (heapEq ▸ unfinished) (heapEq ▸ same)
  · have holdingsEq : holdings { s.setSeq s.counter seq with counter := s.counter + 1 } active =
        s.holdings active := by
      apply List.flatMap_congr
      intro j member
      show ((s.setSeq s.counter seq).heap j).blockTable = _
      rw [other j (owner j member)]
    rw [holdingsEq]
    exact inv.blocks
  · intro j member
    have known : s.Known active j := owner j (by
      rw [owners, List.mem_append]
      exact Or.inl (List.mem_append.mpr member))
    have heapEq := other j known
    intro blockId inTable
    exact inv.unpublished j member blockId (heapEq ▸ inTable)

/-- A request whose id is free joins the waiting queue. -/
theorem Inv.enqueue (inv : s.Inv cfg active rows) (isQueued : seq.Queued cfg)
    (fresh : s.seqs.lookup seq.requestId = none ∧ s.recving.lookup seq.requestId = none ∧
      s.sending.lookup seq.requestId = none) :
    (s.enqueue cfg seq).Inv cfg active rows := by
  have unknown := inv.not_known_counter
  have heapEq : (s.enqueue cfg seq).heap s.counter = seq := setSeq_heap_self s _ _
  have queue : (s.enqueue cfg seq).waiting.Perm (s.counter :: s.waiting) :=
    cfg.schedulingPolicy.add_perm _ s.waiting s.counter
  have alone : s.Alone active s.counter seq.requestId := by
    constructor
    · intro j _ known idEq
      obtain ⟨_, role, part, plays⟩ := inv.plays j known
      have found := plays.stored part
      rw [idEq, fresh.1, fresh.2.1, fresh.2.2] at found
      simp at found
    · intro other found
      exact absurd (Or.inr (Or.inr ⟨other, found⟩)) unknown
  have same : SameBut s.counter seq.requestId s (s.enqueue cfg seq) active active rows rows :=
    { heap := fun j different => setSeq_heap_of_ne s different _
      waiting := fun j different => by rw [queue.mem_iff, List.mem_cons, or_iff_right different]
      active := fun _ _ => Iff.rfl
      stored := fun other different => ⟨AList.lookup_insert_ne different, rfl, rfl⟩
      due := fun _ _ _ => rfl
      launched := fun _ member _ => member }
  have below : ∀ row ∈ rows, row.seq ≠ s.counter := fun row member =>
    Nat.ne_of_lt (inv.launched row member).1
  -- the new sequence owns nothing, so the blocks account for the same owners
  have blocks : s.blockManager.Inv cfg (s.otherHoldings active s.counter) := by
    have notOwner : s.counter ∉ s.owners active := by
      simp only [owners, List.mem_append, Dict.mem_values_iff]
      rintro ((running | ⟨key, found⟩) | ⟨key, found⟩)
      · exact unknown (Or.inr (Or.inl running))
      · exact unknown (Or.inr (Or.inr ⟨key, Or.inr (Or.inl found)⟩))
      · exact unknown (Or.inr (Or.inr ⟨key, Or.inr (Or.inr found)⟩))
    have reordered := flatMap_perm_filter (fun j => (s.heap j).blockTable) inv.owners_nodup
      s.counter
    rw [if_neg notOwner] at reordered
    exact inv.blocks.perm reordered
  refine inv.update .queued alone same (by rw [heapEq]) (Nat.le_succ _)
    (Nat.lt_succ_self _) (queue.symm.nodup ?_) inv.active_nodup ?_ ?_ blocks
    (fun _ _ unpublished => unpublished) (by simp)
  · exact List.nodup_cons.mpr ⟨fun queued => unknown (Or.inl queued), inv.waiting_nodup⟩
  · refine ⟨queue.mem_iff.mpr List.mem_cons_self, fun running => unknown (Or.inr (Or.inl running)),
      ?_, ?_, ?_⟩
    · rw [Stored, heapEq]
      exact ⟨AList.lookup_insert _, fresh.2.1, fresh.2.2⟩
    · rw [heapEq]
      exact isQueued
    · exact due_eq_zero fun row member own => absurd own (below row member)
  · exact fun row member own => absurd own (below row member)

end Transitions

end Scheduler

end LeanVllm
