import LeanVllm.Engine.Between

/-!
# Exclusive writes

A batch writes the cache slots of the positions it computes, and under
speculation the lookahead slots of its drafter.  The write frontier stays above
the published blocks whatever the step in flight rejects, so a batch only
writes blocks that belong to one sequence and are not in the prefix cache.
-/

namespace LeanVllm

open Collections

namespace Sequence

/-- The cache slot of position `p`. -/
def slot (cfg : Config) (seq : Sequence) (p : Nat) : Option (BlockId × Nat) :=
  seq.blockTable[p / cfg.blockSize]?.map fun blockId => (blockId, p % cfg.blockSize)

/-- The positions a scheduled sequence writes: those it computes and, if it
samples under speculation, the lookahead positions after them. -/
def writeWidth (cfg : Config) (seq : Sequence) : Nat :=
  seq.numScheduledTokens + if seq.Samples then cfg.numLookaheadTokens else 0

/-- The sequence writes position `p` when its previous step rejected
`numRejected` drafts. -/
def Writes (cfg : Config) (seq : Sequence) (numRejected p : Nat) : Prop :=
  seq.numCachedTokens - numRejected ≤ p ∧
    p < seq.numCachedTokens - numRejected + seq.writeWidth cfg

/-- How many drafts the step in flight may still reject for a sequence. -/
def MayReject (seq : Sequence) (rows : List LaunchedRow) (i : SeqId) (numRejected : Nat) : Prop :=
  numRejected = 0 ∨ ∃ row ∈ rows, row.seq = i ∧ row.numPreemptions = seq.numPreemptions ∧
    numRejected ≤ row.numDraftTokens

variable {cfg : Config} {seq : Sequence} {reserved : Nat}

/-- All written positions lie in the table, past the published blocks. -/
theorem Active.writes_within (active : seq.Active cfg reserved) (ready : seq.Ready cfg)
    {numRejected p : Nat} (few : numRejected = 0 ∨ numRejected < reserved)
    (writes : seq.Writes cfg numRejected p) :
    seq.numPublishedBlocks * cfg.blockSize ≤ p ∧
      p < seq.blockTable.length * cfg.blockSize := by
  obtain ⟨low, high⟩ := writes
  have published := active.published_le
  have pending := active.pending
  have width : seq.writeWidth cfg ≤ seq.numScheduledTokens + cfg.numLookaheadTokens := by
    unfold writeWidth
    split <;> omega
  cases prefill : seq.isPrefill with
  | true =>
      obtain ⟨settled, _, short, covered⟩ := active.prefilling prefill
      have inside := ready.prefilling prefill
      omega
  | false =>
      have frontier := (active.decoding prefill).1
      obtain ⟨numEq, _, covered⟩ := ready.decoding prefill
      simp only [numPlannedTokens] at frontier covered
      omega

end Sequence

theorem le_due {rows : List LaunchedRow} {row : LaunchedRow} (member : row ∈ rows) :
    1 + row.numDraftTokens ≤ due rows row.seq row.numPreemptions := by
  induction rows with
  | nil => exact absurd member List.not_mem_nil
  | cons other rows ih =>
      rw [due_cons]
      rcases List.mem_cons.mp member with rfl | later
      · rw [if_pos ⟨rfl, rfl⟩]
        exact Nat.le_add_right _ _
      · exact (ih later).trans (Nat.le_add_left _ _)

namespace Scheduler

variable {cfg : Config} {s : Scheduler} {active : List SeqId} {rows : List LaunchedRow} {i : SeqId}

/-- A block of an active or loading table past the published ones has one
holder. -/
theorem Inv.exclusive (inv : s.Inv cfg active rows)
    (member : i ∈ active ∨ i ∈ s.recving.values) {k : Nat} {blockId : BlockId}
    (atIndex : (s.heap i).blockTable[k]? = some blockId)
    (past : (s.heap i).numPublishedBlocks ≤ k) :
    (s.blockManager.blocks blockId).hash = -1 ∧
      (s.blockManager.blocks blockId).refCount = 1 ∧
      ∀ j ∈ s.owners active, blockId ∈ (s.heap j).blockTable → j = i := by
  have inTable : blockId ∈ (s.heap i).blockTable := List.mem_of_getElem? atIndex
  have inRest : blockId ∈ (s.heap i).blockTable.drop (s.heap i).numPublishedBlocks := by
    refine List.mem_of_getElem? (i := k - (s.heap i).numPublishedBlocks) ?_
    rw [List.getElem?_drop, Nat.add_sub_cancel' past]
    exact atIndex
  have unpublished := inv.unpublished i member blockId inRest
  have blocks : s.blockManager.Inv cfg ((s.heap i).blockTable ++ s.otherHoldings active i) := by
    rcases member with running | loading
    · exact inv.split (inv.running running)
    · obtain ⟨requestId, found⟩ := Dict.mem_values_iff.mp loading
      obtain ⟨_, plays | plays⟩ := inv.recving found
      · exact inv.split plays
      · exact inv.split plays
  have alone := blocks.not_mem_of_unpublished inTable unpublished
  refine ⟨unpublished, ?_, ?_⟩
  · have limited := inv.blocks.exclusive blockId unpublished
    have counted := blocks.refCount_eq blockId
    have positive : 0 < ((s.heap i).blockTable ++ s.otherHoldings active i).count blockId :=
      List.count_pos_iff.mpr (List.mem_append_left _ inTable)
    rw [← counted] at positive
    omega
  · intro j owner names
    by_contra different
    refine alone (List.mem_flatMap.mpr ⟨j, ?_, names⟩)
    exact List.mem_filter.mpr ⟨owner, by simpa using different⟩

end Scheduler

/-- Whatever the step in flight rejects, a batch writes only blocks that one of
its rows owns alone and that no earlier step published, and no two rows write
the same slot. -/
theorem batch_writes_exclusive (cfg : Config) (rows : List LaunchedRow) (s : Scheduler)
    (output : SchedulerOutput) (scheduled : Scheduled cfg rows s output) :
    (∀ i ∈ output.scheduled, ∀ numRejected, (s.heap i).MayReject rows i numRejected →
      ∀ p, (s.heap i).Writes cfg numRejected p → ∃ blockId,
        (s.heap i).slot cfg p = some (blockId, p % cfg.blockSize) ∧
        (s.blockManager.blocks blockId).refCount = 1 ∧
        (∀ j ∈ s.owners s.running, blockId ∈ (s.heap j).blockTable → j = i) ∧
        (s.heap i).numPublishedBlocks ≤ p / cfg.blockSize ∧
        (s.blockManager.blocks blockId).hash = -1) ∧
    ∀ i ∈ output.scheduled, ∀ j ∈ output.scheduled, i ≠ j → ∀ first second,
      (s.heap i).MayReject rows i first → (s.heap j).MayReject rows j second →
      ∀ p q, (s.heap i).Writes cfg first p → (s.heap j).Writes cfg second q →
        (s.heap i).slot cfg p ≠ (s.heap j).slot cfg q := by
  have pass := scheduled.passInv
  have written : ∀ i ∈ output.scheduled, ∀ numRejected,
      (s.heap i).MayReject rows i numRejected → ∀ p, (s.heap i).Writes cfg numRejected p →
      ∃ blockId, (s.heap i).blockTable[p / cfg.blockSize]? = some blockId ∧
        (s.heap i).numPublishedBlocks ≤ p / cfg.blockSize := by
    intro i member numRejected may p writes
    have isActive := (pass.inv.running (pass.running i member)).2.2.2
    have few : numRejected = 0 ∨ numRejected < due rows i (s.heap i).numPreemptions := by
      rcases may with none | ⟨row, among, rfl, lives, few⟩
      · exact Or.inl none
      · have reserved := le_due among
        rw [lives] at reserved
        exact Or.inr (by omega)
    obtain ⟨low, high⟩ := isActive.writes_within (pass.ready i member) few writes
    have inside : p / cfg.blockSize < (s.heap i).blockTable.length :=
      (Nat.div_lt_iff_lt_mul cfg.blockSize_pos).mpr high
    exact ⟨_, List.getElem?_eq_getElem inside,
      (Nat.le_div_iff_mul_le cfg.blockSize_pos).mpr low⟩
  refine ⟨?_, ?_⟩
  · intro i member numRejected may p writes
    obtain ⟨blockId, atIndex, past⟩ := written i member numRejected may p writes
    obtain ⟨unpublished, single, alone⟩ :=
      pass.inv.exclusive (Or.inl (pass.running i member)) atIndex past
    exact ⟨blockId, by simp [Sequence.slot, atIndex], single, alone, past, unpublished⟩
  · intro i member j other different first second mayFirst maySecond p q firstWrites secondWrites same
    obtain ⟨blockId, atIndex, past⟩ := written i member first mayFirst p firstWrites
    obtain ⟨otherId, otherAt, otherPast⟩ := written j other second maySecond q secondWrites
    simp only [Sequence.slot, atIndex, otherAt, Option.map_some, Option.some.injEq,
      Prod.mk.injEq] at same
    obtain ⟨_, _, alone⟩ := pass.inv.exclusive (Or.inl (pass.running i member)) atIndex past
    refine different (alone j ?_ ?_).symm
    · exact List.mem_append_left _ (List.mem_append_left _ (pass.running j other))
    · rw [same.1]
      exact List.mem_of_getElem? otherAt

/-- The first batch of the sample engine. -/
theorem batch_writes_exclusive_sample :
    ∃ s output, LLMEngine.sampleQueued.scheduler.schedule .sample = .ok (s, output) ∧
      output.scheduled = [0] ∧
      ∀ p, (s.heap 0).Writes .sample 0 p → ∃ blockId,
        (s.heap 0).slot .sample p = some (blockId, p % 2) ∧
        (s.blockManager.blocks blockId).refCount = 1 := by
  have scheduled : (LLMEngine.sampleQueued.scheduler.schedule .sample).map
      (fun result => result.2.scheduled) = .ok [0] := by decide +kernel
  cases planned : LLMEngine.sampleQueued.scheduler.schedule .sample with
  | error fault => simp [planned, Except.map] at scheduled
  | ok result =>
      rw [planned] at scheduled
      have rows : result.2.scheduled = [0] := Except.ok.inj scheduled
      refine ⟨result.1, result.2, rfl, rows, ?_⟩
      intro p writes
      have exclusive := batch_writes_exclusive .sample _ result.1 result.2
        (.planned ⟨LLMEngine.sampleQueued, ⟨_, LLMEngine.sampleQueued_run⟩, rfl, rfl⟩ planned)
      obtain ⟨blockId, slot, count, _⟩ :=
        exclusive.1 0 (by rw [rows]; exact List.mem_cons_self) 0 (Or.inl rfl) p writes
      exact ⟨blockId, slot, count⟩

end LeanVllm
