import LeanVllm.Engine.BlockConservation

/-!
# Allocation

`can_allocate` promises what `allocate` then does.  The hits it counts are the
longest run of cached blocks with the sequence's own prefix, the free blocks it
asks for are those the allocation takes, and it refuses only when they are too
few.
-/

namespace LeanVllm

open Collections

namespace BlockManager

variable {cfg : Config} {bm : BlockManager} {held : List BlockId}

/-- The free blocks a table of `n` blocks takes when it starts with `hits`: one
for each hit nobody holds and for each further block. -/
def numTaken (bm : BlockManager) (hits : List BlockId) (n : Nat) : Nat :=
  (hits.countP fun blockId => blockId ∉ bm.usedBlockIds) + (n - hits.length)

theorem numTaken_eq (bm : BlockManager) {hits : List BlockId} {n : Nat} (short : hits.length ≤ n) :
    bm.numTaken hits n = n - bm.numHeld hits := by
  have counted := List.length_eq_countP_add_countP (fun blockId => decide (blockId ∈ bm.usedBlockIds))
    (l := hits)
  have same : (hits.countP fun blockId => blockId ∉ bm.usedBlockIds) =
      hits.countP fun blockId => ! decide (blockId ∈ bm.usedBlockIds) :=
    List.countP_congr fun blockId _ => by simp
  simp only [numTaken, numHeld, same]
  simp only [Bool.not_eq_true, Bool.decide_eq_false] at counted
  omega

/-- `blockId` holds block `j` of `tokenIds`, and was published for a sequence with
the same tokens up to its end. -/
structure HoldsPrefix (cfg : Config) (bm : BlockManager) (tokenIds : List Token) (j : Nat)
    (blockId : BlockId) : Prop where
  tokens : (bm.blocks blockId).tokenIds = Sequence.blockTokens cfg tokenIds j
  hash : (bm.blocks blockId).hash = chainHash cfg tokenIds j
  only : ∀ other k, (bm.blocks blockId).hash = chainHash cfg other k →
    k = j ∧ other.take ((j + 1) * cfg.blockSize) = tokenIds.take ((j + 1) * cfg.blockSize)

theorem HitsFrom.holdsPrefix (inv : bm.Inv cfg held) (injective : cfg.HashInjective)
    {seq : Sequence} (hashed : seq.Hashed cfg) {hits : List BlockId}
    (cached : HitsFrom cfg bm seq 0 hits) {j : Nat} {blockId : BlockId}
    (found : hits[j]? = some blockId) : HoldsPrefix cfg bm seq.tokenIds j blockId := by
  obtain ⟨hash, atIndex, named, tokens⟩ := cached j blockId found
  rw [Nat.zero_add] at atIndex tokens
  have own : (bm.blocks blockId).hash = chainHash cfg seq.tokenIds j := by
    rw [(inv.cached hash blockId named).2.1]
    exact hashed.eq_chainHash atIndex
  refine ⟨tokens, own, ?_⟩
  intro other k equal
  have equal := equal.symm.trans own
  obtain rfl := chainHash_index_inj injective equal
  exact ⟨rfl, take_eq_of_chainHash_eq injective equal⟩

/-- What `allocate` leaves of a waiting sequence `seq` that reuses `hits`, when
the other tables hold the references `held`. -/
structure Allocated (cfg : Config) (before : BlockManager) (held : List BlockId)
    (seq : Sequence) (hits : List BlockId) (numLookahead : Nat) (after : BlockManager)
    (result : Sequence) : Prop where
  table_length : result.blockTable.length =
    (seq.numTokens + numLookahead + cfg.blockSize - 1) / cfg.blockSize
  distinct : result.blockTable.Nodup
  reused : ∀ j blockId, j < hits.length → result.blockTable[j]? = some blockId →
    HoldsPrefix cfg after seq.tokenIds j blockId
  fresh : ∀ blockId ∈ result.blockTable.drop hits.length,
    (before.blocks blockId).refCount = 0 ∧ (after.blocks blockId).refCount = 1
  others : ∀ blockId ∈ held, (after.blocks blockId).hash = (before.blocks blockId).hash ∧
    (after.blocks blockId).tokenIds = (before.blocks blockId).tokenIds ∧
    blockId ∈ after.usedBlockIds
  cached : result.numCachedTokens = hits.length * cfg.blockSize
  uncomputed : result.numCachedTokens ≤ seq.numTokens - 1
  sameTokens : result.tokenIds = seq.tokenIds
  taken : before.freeBlockQueue.length =
    after.freeBlockQueue.length + before.numTaken hits (numBlocks cfg seq numLookahead)

/-- Allocating with the hits of a waiting sequence succeeds once the blocks it
takes are free. -/
theorem allocate_allocated (inv : bm.Inv cfg held) (injective : cfg.HashInjective)
    {seq : Sequence} (isQueued : seq.Queued cfg) {hits : List BlockId}
    (cached : HitsFrom cfg bm seq 0 hits) (short : hits.length ≤ seq.numBlocks cfg - 1)
    (numLookahead : Nat)
    (enough : bm.numTaken hits (numBlocks cfg seq numLookahead) ≤ bm.freeBlockQueue.length) :
    ∃ after result, allocate cfg bm seq hits.length numLookahead = .ok (after, result) ∧
      Allocated cfg bm held seq hits numLookahead after result := by
  have planned : seq.numPlannedTokens = seq.numTokens := by
    simp [Sequence.numPlannedTokens, isQueued.settled]
  have positive : 0 < seq.numTokens := isQueued.prompt_pos.trans_le isQueued.prompt_le
  have fits := numBlocks_le_numBlocks cfg seq numLookahead
  have within : hits.length ≤ numBlocks cfg seq numLookahead := by omega
  have heldLe := bm.numHeld_le_length hits
  rw [numTaken_eq bm within] at enough
  obtain ⟨fresh, after, allocated, lengthEq, afterInv, keeps⟩ :=
    allocate_spec inv isQueued.table cached numLookahead (by omega) within
  have hitsNodup : hits.Nodup := cached.nodup inv injective isQueued.hashed
  have tableNodup : (hits ++ fresh).Nodup :=
    afterInv.nodup_append hitsNodup keeps.unpublished
  have unheld : ∀ blockId ∈ fresh, blockId ∉ hits ++ held := by
    intro blockId member
    have reordered : after.Inv cfg (fresh ++ (hits ++ held)) := afterInv.perm (by
      rw [← List.append_assoc]
      exact List.perm_append_comm.append_right _)
    exact reordered.not_mem_of_unpublished member (keeps.unpublished blockId member)
  refine ⟨after, _, allocated, ?_, tableNodup, ?_, ?_, ?_, rfl, ?_, rfl, ?_⟩
  · rw [List.length_append, lengthEq, numBlocks, planned]
  · intro j blockId below found
    rw [List.getElem?_append_left below] at found
    have old := cached.holdsPrefix inv injective isQueued.hashed found
    have kept := keeps.same blockId fun member =>
      unheld blockId member (List.mem_append_left _ (List.mem_of_getElem? found))
    exact ⟨kept.2.trans old.tokens, kept.1.trans old.hash, fun other k equal =>
      old.only other k (kept.1.symm.trans equal)⟩
  · intro blockId member
    have member : blockId ∈ fresh := by simpa using member
    have absent := unheld blockId member
    rw [List.mem_append, not_or] at absent
    rw [inv.refCount_eq, afterInv.refCount_eq, List.count_append, List.count_append,
      List.count_eq_zero.mpr absent.1, List.count_eq_zero.mpr absent.2,
      List.count_eq_one_of_mem (List.nodup_append.mp tableNodup).2.1 member]
    exact ⟨rfl, rfl⟩
  · intro blockId member
    have kept := keeps.same blockId fun new =>
      unheld blockId new (List.mem_append_right _ member)
    exact ⟨kept.1, kept.2, (afterInv.mem_used_iff blockId).mpr (List.mem_append_right _ member)⟩
  · have less := numBlocks_sub_one_mul_lt (planned ▸ positive) short
    rw [planned] at less
    exact Nat.le_sub_one_of_lt less
  · have counted := inv.accounts.length_free_append afterInv.accounts tableNodup
    have used : ∀ blockId, blockId ∈ bm.usedBlockIds ↔ blockId ∈ held := inv.mem_used_iff
    have new : (fresh.countP fun blockId => blockId ∉ held) = fresh.length := by
      rw [List.countP_eq_length]
      intro blockId member
      simpa using fun holds => unheld blockId member (List.mem_append_right _ holds)
    simp only [List.countP_append, new] at counted
    simp only [numTaken, used]
    rw [← lengthEq, Nat.add_sub_cancel_left]
    exact counted

end BlockManager

/-- In every scheduler state of a run, `can_allocate` answers for each waiting
sequence.  A count is the longest run of hits, less the one to recompute, and
allocating with it succeeds; a refusal means that the allocation would take more
blocks than are free. -/
theorem can_allocate_agrees (cfg : Config) (injective : cfg.HashInjective) (s : Scheduler)
    (visited : Visited cfg s) (i : SeqId) (queued : i ∈ s.waiting) (numLookahead : Nat) :
    ∃ longest hits answer,
      BlockManager.LongestHits cfg s.blockManager (s.heap i) longest ∧
      hits = longest.take (BlockManager.numReused cfg longest.length) ∧
      BlockManager.canAllocate cfg s.blockManager (s.heap i) numLookahead = .ok answer ∧
      (∀ numCachedBlocks, answer = some numCachedBlocks →
        numCachedBlocks = hits.length ∧
        ∃ after seq,
          BlockManager.allocate cfg s.blockManager (s.heap i) numCachedBlocks numLookahead =
            .ok (after, seq) ∧
          BlockManager.Allocated cfg s.blockManager (s.holdings s.running) (s.heap i) hits
            numLookahead after seq) ∧
      (answer = none → s.blockManager.freeBlockQueue.length <
        s.blockManager.numTaken hits (BlockManager.numBlocks cfg (s.heap i) numLookahead)) := by
  obtain ⟨rows, inv⟩ := visited.inv
  have isQueued := (inv.queued queued).2.2.2.1
  obtain ⟨longest, maximal, answered⟩ :=
    BlockManager.canAllocate_eq s.blockManager isQueued.hashed isQueued.settled numLookahead
  have reused := BlockManager.numReused_le cfg longest.length
  have lengthEq := List.length_take_of_le reused
  have short : BlockManager.numReused cfg longest.length ≤ (s.heap i).numBlocks cfg - 1 := by
    have within := maximal.within
    unfold BlockManager.maxHits at within
    split at within <;> omega
  have fits := BlockManager.numBlocks_le_numBlocks cfg (s.heap i) numLookahead
  have takenEq := s.blockManager.numTaken_eq
    (show (longest.take (BlockManager.numReused cfg longest.length)).length ≤
      BlockManager.numBlocks cfg (s.heap i) numLookahead by omega)
  refine ⟨longest, _, _, maximal, rfl, answered, ?_, ?_⟩
  · intro numCachedBlocks accepted
    split at accepted
    · contradiction
    · rename_i enough
      obtain rfl := Option.some.inj accepted
      refine ⟨lengthEq.symm, ?_⟩
      have allocated := BlockManager.allocate_allocated inv.blocks injective isQueued
        (maximal.hits.take _) (lengthEq ▸ short) numLookahead (by omega)
      rwa [lengthEq] at allocated
  · intro refused
    split at refused
    · omega
    · contradiction

/-- The sample engine's waiting request gets a table of two blocks. -/
theorem can_allocate_agrees_sample :
    LLMEngine.sampleQueued.scheduler.waiting = [0] ∧
    ∃ hits after seq,
      BlockManager.allocate .sample LLMEngine.sampleQueued.scheduler.blockManager
        (LLMEngine.sampleQueued.scheduler.heap 0) 0 0 = .ok (after, seq) ∧
      BlockManager.Allocated .sample LLMEngine.sampleQueued.scheduler.blockManager
        (LLMEngine.sampleQueued.scheduler.holdings LLMEngine.sampleQueued.scheduler.running)
        (LLMEngine.sampleQueued.scheduler.heap 0) hits 0 after seq := by
  refine ⟨by decide +kernel, ?_⟩
  obtain ⟨longest, hits, answer, _, _, answered, accepts, _⟩ :=
    can_allocate_agrees .sample Config.sample_hashInjective LLMEngine.sampleQueued.scheduler
      (.between (.boundary ⟨_, LLMEngine.sampleQueued_run⟩)) 0 (by decide +kernel) 0
  have computed : BlockManager.canAllocate .sample LLMEngine.sampleQueued.scheduler.blockManager
      (LLMEngine.sampleQueued.scheduler.heap 0) 0 = .ok (some 0) := by decide +kernel
  obtain rfl := Except.ok.inj (answered.symm.trans computed)
  exact ⟨hits, (accepts 0 rfl).2⟩

end LeanVllm
