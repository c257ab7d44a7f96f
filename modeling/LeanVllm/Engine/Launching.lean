import LeanVllm.Engine.Scheduling

/-!
# Advancing launched sequences

`advance` counts a launched row's tokens before their values are known,
publishes the blocks they fill, and reserves the tokens the row will bring.
-/

namespace LeanVllm

open Collections

namespace Sequence

/-- Whether a scheduled sequence reaches its last planned token in this step,
and so samples. -/
def Samples (seq : Sequence) : Prop :=
  seq.numPlannedTokens ≤ seq.numCachedTokens + seq.numScheduledTokens

instance (seq : Sequence) : Decidable seq.Samples :=
  inferInstanceAs (Decidable (_ ≤ _))

/-- The record after `advance`, with `n` more blocks published. -/
def advanced (cfg : Config) (seq : Sequence) (n : Nat) : Sequence :=
  if seq.Samples then
    { seq with
      numCachedTokens := seq.numCachedTokens + seq.numScheduledTokens
      numScheduledTokens := 0
      numPublishedBlocks := seq.numPublishedBlocks + n
      isPrefill := false
      numPendingTokens := seq.numPendingTokens + (1 + seq.specTokenIds.length)
      specTokenIds := List.replicate cfg.numSpeculativeTokens placeholderTokenId }
  else
    { seq with
      numCachedTokens := seq.numCachedTokens + seq.numScheduledTokens
      numScheduledTokens := 0
      numPublishedBlocks := seq.numPublishedBlocks + n
      specTokenIds := [] }

/-- The row `advance` returns for a sequence. -/
def launchedRow (i : SeqId) (seq : Sequence) : Option LaunchedRow :=
  if seq.Samples then some ⟨i, seq.numPreemptions, seq.specTokenIds.length⟩ else none

variable {cfg : Config} {seq : Sequence} {reserved : Nat}

/-- The blocks published up to the computed and committed tokens. -/
theorem published_mul_le {published n computed numTokens : Nat}
    (old : published * cfg.blockSize ≤ min computed numTokens)
    (new : n = 0 ∨ published + n = min computed numTokens / cfg.blockSize) :
    (published + n) * cfg.blockSize ≤ min computed numTokens := by
  rcases new with rfl | reached
  · exact old
  · rw [reached]
    exact Nat.div_mul_le_self _ _

theorem Ready.covered (ready : seq.Ready cfg) (active : seq.Active cfg reserved) :
    seq.numCachedTokens + seq.numScheduledTokens ≤ seq.blockTable.length * cfg.blockSize := by
  cases prefill : seq.isPrefill with
  | true =>
      have inside := ready.prefilling prefill
      have covered := (active.prefilling prefill).2.2.2
      omega
  | false =>
      obtain ⟨numEq, _, covered⟩ := ready.decoding prefill
      have frontier := (active.decoding prefill).1
      omega

theorem Active.advanced (active : seq.Active cfg reserved) (ready : seq.Ready cfg) {n : Nat}
    (published : n = 0 ∨ seq.numPublishedBlocks + n =
      min (seq.numCachedTokens + seq.numScheduledTokens) seq.numTokens / cfg.blockSize) :
    (seq.advanced cfg n).Active cfg
      (reserved + if seq.Samples then 1 + seq.specTokenIds.length else 0) := by
  have covered := ready.covered active
  have published_le : (seq.numPublishedBlocks + n) * cfg.blockSize ≤
      min (seq.numCachedTokens + seq.numScheduledTokens) seq.numTokens := by
    refine published_mul_le (active.published_le.trans ?_) published
    omega
  have frontier : seq.Samples → seq.numCachedTokens + seq.numScheduledTokens =
      seq.numPlannedTokens + seq.specTokenIds.length := by
    intro samples
    cases prefill : seq.isPrefill with
    | true =>
        obtain ⟨settled, none, _⟩ := active.prefilling prefill
        have inside := ready.prefilling prefill
        simp only [Samples, numPlannedTokens, settled] at samples
        simp only [numPlannedTokens, settled, none, List.length_nil]
        omega
    | false =>
        have := (active.decoding prefill).1
        have := (ready.decoding prefill).1
        omega
  have limit : seq.numPlannedTokens + (1 + seq.specTokenIds.length) ≤
      seq.numPromptTokens + seq.maxTokens := by
    cases prefill : seq.isPrefill with
    | true =>
        obtain ⟨settled, none, _⟩ := active.prefilling prefill
        have unfinished := active.unfinished
        simp only [numCompletionTokens] at unfinished
        simp only [numPlannedTokens, settled, none, List.length_nil]
        omega
    | false =>
        obtain ⟨numEq, limit, _⟩ := ready.decoding prefill
        omega
  unfold Sequence.advanced
  split
  · rename_i samples
    have reached := frontier samples
    exact
      { prompt_pos := active.prompt_pos
        prompt_le := active.prompt_le
        hashed := active.hashed
        status := active.status
        pending := congrArg (· + (1 + seq.specTokenIds.length)) active.pending
        unfinished := active.unfinished
        planned_le := by
          simp only [numPlannedTokens, numTokens] at limit ⊢
          omega
        prefilling := fun prefill => absurd prefill (by simp)
        decoding := fun _ => by
          refine ⟨?_, by simp⟩
          simp only [numPlannedTokens, numTokens] at reached ⊢
          omega
        covered := covered
        published_le := published_le
        loaded := active.loaded }
  · rename_i short
    have prefill : seq.isPrefill = true := by
      by_contra decoding
      rw [Bool.not_eq_true] at decoding
      have := (active.decoding decoding).1
      have := (ready.decoding decoding).1
      exact short (by rw [Samples]; omega)
    obtain ⟨settled, _, _, table⟩ := active.prefilling prefill
    exact
      { prompt_pos := active.prompt_pos
        prompt_le := active.prompt_le
        hashed := active.hashed
        status := active.status
        pending := active.pending
        unfinished := active.unfinished
        planned_le := active.planned_le
        prefilling := fun _ => by
          refine ⟨settled, rfl, ?_, table⟩
          simp only [Samples, numPlannedTokens, settled, numTokens] at short ⊢
          omega
        decoding := fun decoding => absurd (prefill.symm.trans decoding) (by simp)
        covered := covered
        published_le := published_le
        loaded := active.loaded }

end Sequence

namespace Scheduler

variable {cfg : Config} {s : Scheduler} {active : List SeqId} {rows : List LaunchedRow}
  {i : SeqId}

/-- One turn of `advance`: the sequence's blocks up to the new count are
published. -/
theorem advanceSeq_spec (inv : s.Inv cfg active rows) (member : i ∈ active)
    (ready : (s.heap i).Ready cfg) :
    ∃ n bm, s.advanceSeq cfg i = .ok (s.renew i ((s.heap i).advanced cfg n) bm,
        (s.heap i).launchedRow i) ∧
      BlockManager.Publishes cfg (s.heap i) (s.heap i).numPublishedBlocks n s.blockManager bm ∧
      (s.renew i ((s.heap i).advanced cfg n) bm).Inv cfg active
        (rows ++ ((s.heap i).launchedRow i).toList) := by
  have plays := inv.running member
  obtain ⟨_, _, _, isActive⟩ := id plays
  have covered := ready.covered isActive
  have full : min ((s.heap i).numCachedTokens + (s.heap i).numScheduledTokens)
      (s.heap i).numTokens / cfg.blockSize ≤ (s.heap i).blockTable.length := by
    refine Nat.div_le_of_le_mul ?_
    rw [Nat.mul_comm]
    exact (Nat.min_le_left _ _).trans covered
  let counted : Sequence := { s.heap i with
    numCachedTokens := (s.heap i).numCachedTokens + (s.heap i).numScheduledTokens
    numScheduledTokens := 0
    specTokenIds := [] }
  have blocks : s.blockManager.Inv cfg (counted.blockTable ++ s.otherHoldings active i) :=
    inv.split plays
  have unpublished := inv.unpublished i (Or.inl member)
  obtain ⟨n, bm, hashedEq, published, afterBlocks, publishes, rest⟩ :=
    BlockManager.hashBlocks_spec blocks isActive.hashed counted.numCachedTokens full unpublished
  have publishes' : BlockManager.Publishes cfg (s.heap i) (s.heap i).numPublishedBlocks n
      s.blockManager bm := ⟨publishes.same, publishes.hash, publishes.pool⟩
  refine ⟨n, bm, ?_, publishes', ?_⟩
  · have code : s.blockManager.hashBlocks cfg counted counted.numCachedTokens = _ := hashedEq
    simp only [advanceSeq, bind, Except.bind]
    rw [code]
    by_cases samples : (s.heap i).Samples
    · have reached : ¬ counted.numCachedTokens < counted.numPlannedTokens := Nat.not_lt.mpr samples
      simp only [Sequence.advanced, Sequence.launchedRow, samples, if_true]
      exact if_neg reached
    · have short : counted.numCachedTokens < counted.numPlannedTokens := Nat.not_le.mp samples
      simp only [Sequence.advanced, Sequence.launchedRow, samples, if_false]
      exact if_pos short
  · have advanced := isActive.advanced ready published
    have table : ((s.heap i).advanced cfg n).blockTable = (s.heap i).blockTable := by
      simp [Sequence.advanced, apply_ite]
    have numPublished : ((s.heap i).advanced cfg n).numPublishedBlocks =
        (s.heap i).numPublishedBlocks + n := by
      simp [Sequence.advanced, apply_ite]
    have reserved : due (rows ++ ((s.heap i).launchedRow i).toList) i
        (s.heap i).numPreemptions = due rows i (s.heap i).numPreemptions +
          if (s.heap i).Samples then 1 + (s.heap i).specTokenIds.length else 0 := by
      rw [due_append]
      by_cases samples : (s.heap i).Samples <;> simp [Sequence.launchedRow, samples]
    refine inv.renew member ?_ ?_ ?_ ?_ (reserved ▸ advanced) (table ▸ afterBlocks) ?_ ?_
    · intro j different k
      rw [due_append]
      by_cases samples : (s.heap i).Samples <;>
        simp [Sequence.launchedRow, samples, Ne.symm different]
    · intro row rowMember
      rcases List.mem_append.mp rowMember with old | new
      · exact Or.inl old
      · refine Or.inr ?_
        by_cases samples : (s.heap i).Samples
        · simp only [Sequence.launchedRow, samples, if_true, Option.toList_some,
            List.mem_singleton] at new
          subst row
          exact ⟨rfl, rfl⟩
        · simp [Sequence.launchedRow, samples] at new
    · simp [Sequence.advanced, apply_ite]
    · simp [Sequence.advanced, apply_ite]
    · intro blockId other hashEq
      rw [publishes.same blockId, hashEq]
      intro inPart
      exact blocks.not_mem_of_unpublished
        (List.mem_of_mem_drop (List.mem_of_mem_take inPart)) hashEq other
    · rw [table, numPublished]
      exact rest

/-- The turns of `advance` over a list of scheduled sequences, each from a state
that satisfies the invariant. -/
inductive Advances (cfg : Config) (active : List SeqId) : List LaunchedRow → Scheduler →
    List SeqId → Scheduler → List LaunchedRow → Prop
  | nil {before : List LaunchedRow} {s : Scheduler} : Advances cfg active before s [] s []
  | cons {before : List LaunchedRow} {s last : Scheduler} {i : SeqId} {seqs : List SeqId}
      {rows : List LaunchedRow} {n : Nat} {bm : BlockManager}
      (inv : s.Inv cfg active before) (member : i ∈ active) (ready : (s.heap i).Ready cfg)
      (publishes : BlockManager.Publishes cfg (s.heap i) (s.heap i).numPublishedBlocks n
        s.blockManager bm)
      (next : (s.renew i ((s.heap i).advanced cfg n) bm).Inv cfg active
        (before ++ ((s.heap i).launchedRow i).toList))
      (others : Advances cfg active (before ++ ((s.heap i).launchedRow i).toList)
        (s.renew i ((s.heap i).advanced cfg n) bm) seqs last rows) :
      Advances cfg active before s (i :: seqs) last (((s.heap i).launchedRow i).toList ++ rows)

/-- `advance` returns the rows that sample, and reserves their tokens. -/
theorem advance_spec {seqs : List SeqId} (inv : s.Inv cfg active rows) (distinct : seqs.Nodup)
    (running : ∀ i ∈ seqs, i ∈ active) (ready : ∀ i ∈ seqs, (s.heap i).Ready cfg) :
    ∃ last launched, s.advance cfg seqs = .ok (last, launched) ∧
      Advances cfg active rows s seqs last launched ∧ last.Inv cfg active (rows ++ launched) := by
  induction seqs generalizing s rows with
  | nil => exact ⟨s, [], rfl, .nil, by simpa using inv⟩
  | cons i seqs ih =>
      obtain ⟨notLater, later⟩ := List.nodup_cons.mp distinct
      have inside := running i List.mem_cons_self
      have own := ready i List.mem_cons_self
      obtain ⟨n, bm, turned, publishes, next⟩ := advanceSeq_spec inv inside own
      obtain ⟨last, launched, looped, advances, lastInv⟩ := ih next later
        (fun j member => running j (List.mem_cons_of_mem _ member)) (by
          intro j member
          have different : j ≠ i := by
            rintro rfl
            exact notLater member
          show (Scheduler.heap (s.setSeq i _) j).Ready cfg
          rw [setSeq_heap_of_ne s different]
          exact ready j (List.mem_cons_of_mem _ member))
      refine ⟨last, _, ?_, .cons inv inside own publishes next advances, ?_⟩
      · simp only [advance, turned, looped, bind, Except.bind]
      · rw [← List.append_assoc]
        exact lastInv

/-- `advance` touches only the records of its sequences, and the cache. -/
theorem Advances.frame {seqs : List SeqId} {last : Scheduler} {launched : List LaunchedRow}
    (advances : Advances cfg active rows s seqs last launched) (distinct : seqs.Nodup) :
    last = { s with heap := last.heap, blockManager := last.blockManager } ∧
      (∀ j, j ∉ seqs → last.heap j = s.heap j) ∧
      (∀ j ∈ seqs, ∃ n, last.heap j = (s.heap j).advanced cfg n) ∧
      launched = seqs.filterMap fun i => (s.heap i).launchedRow i := by
  induction advances with
  | nil => exact ⟨rfl, fun _ _ => rfl, by simp, rfl⟩
  | @cons before s last i seqs rows n bm inv _ ready publishes next others ih =>
      obtain ⟨notLater, later⟩ := List.nodup_cons.mp distinct
      obtain ⟨same, outside, inside, rowsEq⟩ := ih later
      have other : ∀ j, j ≠ i → (s.renew i ((s.heap i).advanced cfg n) bm).heap j = s.heap j :=
        fun j different => setSeq_heap_of_ne s different _
      refine ⟨?_, ?_, ?_, ?_⟩
      · rw [same]
        simp [renew, setSeq]
      · intro j absent
        rw [List.mem_cons, not_or] at absent
        rw [outside j absent.2, other j absent.1]
      · intro j member
        rcases List.mem_cons.mp member with rfl | among
        · exact ⟨n, by rw [outside j notLater, renew_heap_self]⟩
        · obtain ⟨m, heapEq⟩ := inside j among
          rw [other j (by rintro rfl; exact notLater among)] at heapEq
          exact ⟨m, heapEq⟩
      · have restEq : seqs.filterMap (fun j =>
              ((s.renew i ((s.heap i).advanced cfg n) bm).heap j).launchedRow j) =
            seqs.filterMap fun j => (s.heap j).launchedRow j := by
          apply List.filterMap_congr
          intro j member
          rw [other j (by rintro rfl; exact notLater member)]
        rw [rowsEq, restEq]
        cases found : (s.heap i).launchedRow i <;> simp [found]

end Scheduler

end LeanVllm
