import LeanVllm.Collections.RefPool
import LeanVllm.Engine.BlockManager
import LeanVllm.Engine.HashChain

/-!
# Block accounting

The block manager is a reference-counted pool with a cache of published
blocks on top.  `Inv bm held` says that the pool accounts for the references
`held`, that the cache only names blocks under their own hash, and that an
unpublished block has at most one holder.  Each operation is specified by the
references it adds to or takes from `held`.
-/

namespace LeanVllm

open Collections

namespace BlockManager

/-- The pool inside the block manager. -/
def pool (bm : BlockManager) : RefPool BlockId where
  free := bm.freeBlockQueue
  used := bm.usedBlockIds
  count := fun blockId => (bm.blocks blockId).refCount

/-- The block manager accounts for the references `held`. -/
structure Inv (cfg : Config) (bm : BlockManager) (held : List BlockId) : Prop where
  accounts : bm.pool.Accounts (Finset.range cfg.numKvcacheBlocks) held
  cached : ∀ hash blockId, bm.hashToBlockId hash = some blockId →
    blockId < cfg.numKvcacheBlocks ∧ (bm.blocks blockId).hash = hash ∧ hash ≠ -1
  exclusive : ∀ blockId, (bm.blocks blockId).hash = -1 → (bm.blocks blockId).refCount ≤ 1

/-- No block but those in `fresh`, which are unpublished afterwards, changes
what it caches, and the cache gains no entry. -/
structure Keeps (before after : BlockManager) (fresh : List BlockId) : Prop where
  same : ∀ blockId, blockId ∉ fresh →
    (after.blocks blockId).hash = (before.blocks blockId).hash ∧
      (after.blocks blockId).tokenIds = (before.blocks blockId).tokenIds
  unpublished : ∀ blockId ∈ fresh, (after.blocks blockId).hash = -1
  shrinks : ∀ hash blockId, after.hashToBlockId hash = some blockId →
    before.hashToBlockId hash = some blockId

theorem Keeps.refl (bm : BlockManager) : Keeps bm bm [] where
  same _ _ := ⟨rfl, rfl⟩
  unpublished _ member := absurd member List.not_mem_nil
  shrinks _ _ found := found

theorem Keeps.trans {first second third : BlockManager} {fresh more : List BlockId}
    (left : Keeps first second fresh) (right : Keeps second third more) :
    Keeps first third (fresh ++ more) where
  same blockId absent := by
    rw [List.mem_append, not_or] at absent
    obtain ⟨hashLeft, tokensLeft⟩ := left.same blockId absent.1
    obtain ⟨hashRight, tokensRight⟩ := right.same blockId absent.2
    exact ⟨hashRight.trans hashLeft, tokensRight.trans tokensLeft⟩
  unpublished blockId member := by
    by_cases last : blockId ∈ more
    · exact right.unpublished blockId last
    · rw [(right.same blockId last).1]
      rcases List.mem_append.mp member with first | last'
      · exact left.unpublished blockId first
      · exact absurd last' last
  shrinks hash blockId found := left.shrinks hash blockId (right.shrinks hash blockId found)

/-- A block left unpublished stays unpublished. -/
theorem Keeps.sentinel {before after : BlockManager} {fresh : List BlockId}
    (keeps : Keeps before after fresh) {blockId : BlockId}
    (unpublished : (before.blocks blockId).hash = -1) : (after.blocks blockId).hash = -1 := by
  by_cases member : blockId ∈ fresh
  · exact keeps.unpublished blockId member
  · rw [(keeps.same blockId member).1, unpublished]

variable {cfg : Config} {bm : BlockManager} {held : List BlockId}

theorem Inv.perm {other : List BlockId} (inv : bm.Inv cfg held) (reordered : held.Perm other) :
    bm.Inv cfg other :=
  ⟨inv.accounts.perm reordered, inv.cached, inv.exclusive⟩

theorem Inv.refCount_eq (inv : bm.Inv cfg held) (blockId : BlockId) :
    (bm.blocks blockId).refCount = held.count blockId :=
  inv.accounts.count_eq blockId

theorem Inv.mem_used_iff (inv : bm.Inv cfg held) (blockId : BlockId) :
    blockId ∈ bm.usedBlockIds ↔ blockId ∈ held :=
  inv.accounts.mem_used blockId

theorem Inv.mem_free_iff (inv : bm.Inv cfg held) (blockId : BlockId) :
    blockId ∈ bm.freeBlockQueue ↔ blockId < cfg.numKvcacheBlocks ∧ blockId ∉ held := by
  simpa [pool] using inv.accounts.mem_free blockId

theorem create_inv (cfg : Config) : (create cfg).Inv cfg [] where
  accounts := RefPool.accounts_nil List.nodup_range (by simp [create])
  cached _ _ found := by simp [create] at found
  exclusive _ _ := by simp [create]

/-! ## Allocation -/

/-- The block manager after handing out the head of its queue. -/
def recycled (bm : BlockManager) (blockId : BlockId) (rest : List BlockId) : BlockManager where
  blocks := Function.update bm.blocks blockId Block.reset
  hashToBlockId :=
    if (bm.blocks blockId).hash ≠ -1 ∧
        bm.hashToBlockId (bm.blocks blockId).hash = some blockId then
      Function.update bm.hashToBlockId (bm.blocks blockId).hash none
    else bm.hashToBlockId
  freeBlockQueue := rest
  usedBlockIds := insert blockId bm.usedBlockIds

theorem recycled_pool {blockId : BlockId} {rest : List BlockId}
    (queueEq : bm.freeBlockQueue = blockId :: rest) :
    (bm.recycled blockId rest).pool = bm.pool.take blockId := by
  simp only [pool, recycled, RefPool.take, queueEq, List.erase_cons_head]
  congr 1
  funext other
  by_cases same : other = blockId
  · subst other
    simp [Block.reset]
  · simp [same]

/-- Handing out a block removes every cache entry that named it: such an entry
is the one under the block's own hash. -/
theorem recycled_hashToBlockId (inv : bm.Inv cfg held) {blockId : BlockId}
    {rest : List BlockId} {hash : Hash} {other : BlockId}
    (found : (bm.recycled blockId rest).hashToBlockId hash = some other) :
    bm.hashToBlockId hash = some other ∧ other ≠ blockId := by
  simp only [recycled] at found
  split at found
  · by_cases same : hash = (bm.blocks blockId).hash
    · simp [same] at found
    · rw [Function.update_of_ne same] at found
      refine ⟨found, ?_⟩
      rintro rfl
      exact same (inv.cached hash other found).2.1.symm
  · rename_i absent
    refine ⟨found, ?_⟩
    rintro rfl
    obtain ⟨_, hashEq, notSentinel⟩ := inv.cached hash other found
    exact absent (hashEq ▸ ⟨notSentinel, found⟩)

theorem recycled_inv (inv : bm.Inv cfg held) {blockId : BlockId} {rest : List BlockId}
    (queueEq : bm.freeBlockQueue = blockId :: rest) :
    (bm.recycled blockId rest).Inv cfg (blockId :: held) where
  accounts := by
    rw [recycled_pool queueEq]
    apply inv.accounts.take
    simp [pool, queueEq]
  cached hash other found := by
    obtain ⟨foundBefore, different⟩ := recycled_hashToBlockId inv found
    obtain ⟨below, hashEq, notSentinel⟩ := inv.cached hash other foundBefore
    exact ⟨below, by simp [recycled, different, hashEq], notSentinel⟩
  exclusive other unpublished := by
    by_cases same : other = blockId
    · subst other
      simp [recycled, Block.reset]
    · simp only [recycled, Function.update_of_ne same] at unpublished ⊢
      exact inv.exclusive other unpublished

theorem recycled_keeps (inv : bm.Inv cfg held) (blockId : BlockId) (rest : List BlockId) :
    Keeps bm (bm.recycled blockId rest) [blockId] where
  same other different := by
    have different : other ≠ blockId := by simpa using different
    simp [recycled, different]
  unpublished other member := by
    rw [List.mem_singleton.mp member]
    simp [recycled, Block.reset]
  shrinks _ _ found := (recycled_hashToBlockId inv found).1

theorem allocateBlock_spec (inv : bm.Inv cfg held) (available : bm.freeBlockQueue ≠ []) :
    ∃ blockId after, bm.allocateBlock = .ok (blockId, after) ∧
      after.Inv cfg (blockId :: held) ∧ Keeps bm after [blockId] ∧ blockId ∉ held ∧
      bm.freeBlockQueue.length = after.freeBlockQueue.length + 1 := by
  obtain ⟨blockId, rest, queueEq⟩ := List.exists_cons_of_ne_nil available
  have free : blockId ∈ bm.freeBlockQueue := queueEq ▸ List.mem_cons_self
  have unreferenced : (bm.blocks blockId).refCount = 0 :=
    inv.accounts.count_eq_zero_of_mem_free free
  refine ⟨blockId, bm.recycled blockId rest, ?_, recycled_inv inv queueEq,
    recycled_keeps inv blockId rest, ((inv.mem_free_iff blockId).mp free).2, ?_⟩
  · simp only [allocateBlock, queueEq, unreferenced, ne_eq, not_true_eq_false, if_false,
      recycled]
  · rw [queueEq]
    rfl

theorem appendBlocks_spec (inv : bm.Inv cfg held) (seq : Sequence) (n : Nat)
    (available : n ≤ bm.freeBlockQueue.length) :
    ∃ fresh after,
      appendBlocks n bm seq = .ok (after, { seq with blockTable := seq.blockTable ++ fresh }) ∧
      fresh.length = n ∧ after.Inv cfg (fresh ++ held) ∧ Keeps bm after fresh ∧
      (∀ blockId ∈ fresh, blockId ∉ held) ∧
      bm.freeBlockQueue.length = after.freeBlockQueue.length + n := by
  induction n generalizing bm held seq with
  | zero =>
      exact ⟨[], bm, by simp [appendBlocks], rfl, inv, Keeps.refl bm, by simp, rfl⟩
  | succ n ih =>
      obtain ⟨blockId, next, allocated, nextInv, nextKeeps, fresh, lengthEq⟩ :=
        allocateBlock_spec inv (List.ne_nil_of_length_pos (by omega))
      obtain ⟨more, after, appended, moreLength, afterInv, afterKeeps, moreFresh, afterLength⟩ :=
        ih nextInv { seq with blockTable := seq.blockTable ++ [blockId] } (by omega)
      refine ⟨blockId :: more, after, ?_, by simp [moreLength], ?_, nextKeeps.trans afterKeeps,
        ?_, by omega⟩
      · rw [appendBlocks, allocated]
        simpa [bind, Except.bind] using appended
      · exact afterInv.perm List.perm_middle
      · intro other member
        rcases List.mem_cons.mp member with rfl | member
        · exact fresh
        · exact fun holds => moreFresh other member (List.mem_cons_of_mem _ holds)

/-! ## Prefix hits -/

/-- `blocks` are the cached blocks of the sequence from index `i` on. -/
def HitsFrom (cfg : Config) (bm : BlockManager) (seq : Sequence) (i : Nat)
    (blocks : List BlockId) : Prop :=
  ∀ j blockId, blocks[j]? = some blockId → ∃ hash,
    seq.blockHashes[i + j]? = some hash ∧ bm.hashToBlockId hash = some blockId ∧
      (bm.blocks blockId).tokenIds = Sequence.blockTokens cfg seq.tokenIds (i + j)

theorem hitsFrom_nil (cfg : Config) (bm : BlockManager) (seq : Sequence) (i : Nat) :
    HitsFrom cfg bm seq i [] := by
  intro j blockId found
  simp at found

theorem hitsFrom_cons_iff {seq : Sequence} {i : Nat} {blockId : BlockId}
    {blocks : List BlockId} :
    HitsFrom cfg bm seq i (blockId :: blocks) ↔
      (∃ hash, seq.blockHashes[i]? = some hash ∧ bm.hashToBlockId hash = some blockId ∧
        (bm.blocks blockId).tokenIds = Sequence.blockTokens cfg seq.tokenIds i) ∧
      HitsFrom cfg bm seq (i + 1) blocks := by
  constructor
  · intro hits
    refine ⟨hits 0 blockId rfl, ?_⟩
    intro j other found
    have shifted := hits (j + 1) other found
    rwa [show i + (j + 1) = i + 1 + j by omega] at shifted
  · rintro ⟨first, rest⟩ j other found
    cases j with
    | zero =>
        obtain rfl : blockId = other := by simpa using found
        exact first
    | succ j =>
        have shifted := rest j other found
        rwa [show i + 1 + j = i + (j + 1) by omega] at shifted

theorem HitsFrom.take {seq : Sequence} {i : Nat} {blocks : List BlockId}
    (hits : HitsFrom cfg bm seq i blocks) (n : Nat) : HitsFrom cfg bm seq i (blocks.take n) := by
  intro j blockId found
  rw [List.getElem?_take] at found
  split at found
  · exact hits j blockId found
  · contradiction

/-- How many of `blocks` are already held, and so cost no free block. -/
def numHeld (bm : BlockManager) (blocks : List BlockId) : Nat :=
  blocks.countP fun blockId => blockId ∈ bm.usedBlockIds

/-- Block `i` of the sequence is cached in `blockId`. -/
def HitAt (cfg : Config) (bm : BlockManager) (seq : Sequence) (i : Nat) (blockId : BlockId) :
    Prop :=
  ∃ hash, seq.blockHashes[i]? = some hash ∧ bm.hashToBlockId hash = some blockId ∧
    (bm.blocks blockId).tokenIds = Sequence.blockTokens cfg seq.tokenIds i

/-- `can_allocate`'s loop counts the longest run of hits, and subtracts those
already held from the blocks it needs. -/
theorem countHits_spec (bm : BlockManager) (seq : Sequence) (n i : Nat) (hits : Hits)
    (caching : cfg.enablePrefixCaching) (hashed : seq.Hashed cfg)
    (full : i + n ≤ seq.numTokens / cfg.blockSize) :
    ∃ blocks, blocks.length ≤ n ∧ HitsFrom cfg bm seq i blocks ∧
      (blocks.length = n ∨ ∀ blockId, ¬ HitAt cfg bm seq (i + blocks.length) blockId) ∧
      countHits cfg bm seq n i hits = .ok
        { numCachedBlocks := hits.numCachedBlocks + blocks.length
          numNewBlocks := hits.numNewBlocks - bm.numHeld blocks
          lastHitHeld :=
            match blocks.getLast? with
            | none => hits.lastHitHeld
            | some blockId => decide (blockId ∈ bm.usedBlockIds) } := by
  induction n generalizing i hits with
  | zero =>
      exact ⟨[], Nat.le_refl _, hitsFrom_nil cfg bm seq i, Or.inl rfl, by
        simp [countHits, numHeld]⟩
  | succ n ih =>
      have hashEq : seq.blockHashes[i]? = some (chainHash cfg seq.tokenIds i) := by
        rw [hashed, if_pos caching]
        exact getElem?_chainHashes cfg (by omega)
      have blockEq : seq.block cfg i = .ok (Sequence.blockTokens cfg seq.tokenIds i) :=
        Sequence.block_of_full (by omega)
      cases found : bm.hashToBlockId (chainHash cfg seq.tokenIds i) with
      | none =>
          refine ⟨[], Nat.zero_le _, hitsFrom_nil cfg bm seq i, Or.inr ?_, by
            simp [countHits, hashEq, found, numHeld]⟩
          rintro blockId ⟨hash, own, cached, _⟩
          obtain rfl := Option.some.inj (hashEq.symm.trans own)
          exact absurd (found.symm.trans cached) (by simp)
      | some blockId =>
          by_cases differ : (bm.blocks blockId).tokenIds ≠
              Sequence.blockTokens cfg seq.tokenIds i
          · refine ⟨[], Nat.zero_le _, hitsFrom_nil cfg bm seq i, Or.inr ?_, by
              simp [countHits, hashEq, found, blockEq, bind, Except.bind, differ, numHeld]⟩
            rintro other ⟨hash, own, cached, tokens⟩
            obtain rfl := Option.some.inj (hashEq.symm.trans own)
            obtain rfl := Option.some.inj (found.symm.trans cached)
            exact differ tokens
          · rw [not_not] at differ
            let turn : Hits :=
              { numCachedBlocks := hits.numCachedBlocks + 1
                numNewBlocks :=
                  if decide (blockId ∈ bm.usedBlockIds) then hits.numNewBlocks - 1
                  else hits.numNewBlocks
                lastHitHeld := decide (blockId ∈ bm.usedBlockIds) }
            obtain ⟨blocks, short, hit, longest, counted⟩ := ih (i + 1) turn (by omega)
            refine ⟨blockId :: blocks, by simpa using short,
              hitsFrom_cons_iff.mpr ⟨⟨_, hashEq, found, differ⟩, hit⟩, ?_, ?_⟩
            · rw [List.length_cons, ← Nat.add_assoc, Nat.add_right_comm]
              exact longest.imp_left (congrArg (· + 1))
            have turned : countHits cfg bm seq (n + 1) i hits =
                countHits cfg bm seq n (i + 1) turn := by
              simp [countHits, hashEq, found, blockEq, bind, Except.bind, differ, turn]
            rw [turned, counted]
            by_cases holds : blockId ∈ bm.usedBlockIds
            · cases last : blocks.getLast? <;>
                simp [turn, holds, numHeld, last, List.getLast?_cons] <;> omega
            · cases last : blocks.getLast? <;>
                simp [turn, holds, numHeld, last, List.getLast?_cons] <;> omega

theorem numHeld_le_length (bm : BlockManager) (blocks : List BlockId) :
    bm.numHeld blocks ≤ blocks.length :=
  List.countP_le_length

theorem numHeld_dropLast (bm : BlockManager) {blocks : List BlockId} {last : BlockId}
    (lastEq : blocks.getLast? = some last) :
    bm.numHeld blocks =
      bm.numHeld (blocks.take (blocks.length - 1)) +
        (decide (last ∈ bm.usedBlockIds)).toNat := by
  have split : blocks = blocks.take (blocks.length - 1) ++ [last] := by
    rw [← List.dropLast_eq_take]
    exact (List.dropLast_append_getLast? last lastEq).symm
  conv_lhs => rw [split]
  by_cases holds : last ∈ bm.usedBlockIds <;> simp [numHeld, holds]

theorem numBlocks_sub_one_mul_lt {seq : Sequence} (nonempty : 0 < seq.numPlannedTokens)
    {n : Nat} (below : n ≤ seq.numBlocks cfg - 1) :
    n * cfg.blockSize < seq.numPlannedTokens := by
  have positive := cfg.blockSize_pos
  have ceiling : seq.numBlocks cfg = (seq.numPlannedTokens - 1) / cfg.blockSize + 1 := by
    have shifted : seq.numPlannedTokens + cfg.blockSize - 1 =
        seq.numPlannedTokens - 1 + cfg.blockSize := by omega
    rw [Sequence.numBlocks, shifted, Nat.add_div_right _ positive]
  have le : n ≤ (seq.numPlannedTokens - 1) / cfg.blockSize := by
    rw [ceiling, Nat.add_sub_cancel] at below
    exact below
  have scaled := Nat.mul_le_mul_right cfg.blockSize le
  have divided := Nat.div_mul_le_self (seq.numPlannedTokens - 1) cfg.blockSize
  omega

theorem numBlocks_sub_one_le_div (cfg : Config) (seq : Sequence) (settled : seq.numPendingTokens = 0) :
    seq.numBlocks cfg - 1 ≤ seq.numTokens / cfg.blockSize := by
  have positive := cfg.blockSize_pos
  have planned : seq.numPlannedTokens = seq.numTokens := by
    simp [Sequence.numPlannedTokens, settled]
  have shifted : seq.numBlocks cfg ≤ (seq.numTokens + cfg.blockSize) / cfg.blockSize := by
    rw [Sequence.numBlocks, planned]
    exact Nat.div_le_div_right (by omega)
  rw [Nat.add_div_right _ positive] at shifted
  exact Nat.sub_le_of_le_add shifted

theorem numBlocks_le_numBlocks (cfg : Config) (seq : Sequence) (numLookahead : Nat) :
    seq.numBlocks cfg ≤ numBlocks cfg seq numLookahead :=
  Nat.div_le_div_right (by omega)

/-- As many blocks cover the tokens and the lookahead slots. -/
theorem le_numBlocks_mul (cfg : Config) (seq : Sequence) (numLookahead : Nat) :
    seq.numPlannedTokens + numLookahead ≤ numBlocks cfg seq numLookahead * cfg.blockSize := by
  have positive := cfg.blockSize_pos
  have divided := Nat.div_add_mod (seq.numPlannedTokens + numLookahead + cfg.blockSize - 1)
    cfg.blockSize
  have rest := Nat.mod_lt (seq.numPlannedTokens + numLookahead + cfg.blockSize - 1) positive
  rw [numBlocks, Nat.mul_comm]
  omega

/-- The most blocks `can_allocate` looks up. -/
def maxHits (cfg : Config) (seq : Sequence) : Nat :=
  if cfg.enablePrefixCaching then seq.numBlocks cfg - 1 else 0

/-- `blocks` is the longest run of cached blocks from the start of the sequence,
its final block excluded. -/
structure LongestHits (cfg : Config) (bm : BlockManager) (seq : Sequence)
    (blocks : List BlockId) : Prop where
  within : blocks.length ≤ maxHits cfg seq
  hits : HitsFrom cfg bm seq 0 blocks
  longest : blocks.length = maxHits cfg seq ∨
    ∀ blockId, ¬ HitAt cfg bm seq blocks.length blockId

/-- How many of `n` hits are used: under speculation the last one is recomputed. -/
def numReused (cfg : Config) (n : Nat) : Nat :=
  if cfg.recomputeLastHit then n - 1 else n

theorem numReused_le (cfg : Config) (n : Nat) : numReused cfg n ≤ n := by
  unfold numReused
  split
  · exact Nat.sub_le n 1
  · exact Nat.le_refl n

/-- `can_allocate` finds the longest run of hits and asks for a free block for
every block of the table that is not a hit already held. -/
theorem canAllocate_eq (bm : BlockManager) {seq : Sequence} (hashed : seq.Hashed cfg)
    (settled : seq.numPendingTokens = 0) (numLookahead : Nat) :
    ∃ blocks, LongestHits cfg bm seq blocks ∧
      canAllocate cfg bm seq numLookahead =
        .ok (if bm.freeBlockQueue.length < numBlocks cfg seq numLookahead -
            bm.numHeld (blocks.take (numReused cfg blocks.length)) then none
          else some (numReused cfg blocks.length)) := by
  obtain ⟨blocks, longest, counted⟩ : ∃ blocks, LongestHits cfg bm seq blocks ∧
      countHits cfg bm seq (if cfg.enablePrefixCaching then seq.numBlocks cfg - 1 else 0) 0
        ⟨0, numBlocks cfg seq numLookahead, false⟩ = .ok
          { numCachedBlocks := blocks.length
            numNewBlocks := numBlocks cfg seq numLookahead - bm.numHeld blocks
            lastHitHeld :=
              match blocks.getLast? with
              | none => false
              | some blockId => decide (blockId ∈ bm.usedBlockIds) } := by
    by_cases caching : cfg.enablePrefixCaching
    · obtain ⟨blocks, short, hits, longest, counted⟩ := countHits_spec bm seq
        (seq.numBlocks cfg - 1) 0 ⟨0, numBlocks cfg seq numLookahead, false⟩ caching hashed (by
          have := numBlocks_sub_one_le_div cfg seq settled
          omega)
      rw [Nat.zero_add] at longest
      exact ⟨blocks, ⟨by simpa [maxHits, caching] using short, hits,
        by simpa [maxHits, caching] using longest⟩, by simpa [caching] using counted⟩
    · exact ⟨[], ⟨Nat.zero_le _, hitsFrom_nil cfg bm seq 0, by simp [maxHits, caching]⟩, by
        simp [caching, countHits, numHeld]⟩
  refine ⟨blocks, longest, ?_⟩
  have enough := numBlocks_le_numBlocks cfg seq numLookahead
  have short : blocks.length ≤ seq.numBlocks cfg := by
    have within := longest.within
    unfold maxHits at within
    split at within <;> omega
  have heldLe := bm.numHeld_le_length blocks
  simp only [canAllocate, counted, bind, Except.bind]
  by_cases recompute : cfg.recomputeLastHit ∧ blocks.length ≠ 0
  · -- the last hit is dropped again, and counted as new if it was held
    obtain ⟨last, lastEq⟩ : ∃ last, blocks.getLast? = some last :=
      Option.isSome_iff_exists.mp (by
        rw [List.getLast?_isSome]
        exact List.ne_nil_of_length_pos (Nat.pos_of_ne_zero recompute.2))
    have heldEq := bm.numHeld_dropLast lastEq
    have cost : numBlocks cfg seq numLookahead - bm.numHeld blocks +
          (decide (last ∈ bm.usedBlockIds)).toNat =
        numBlocks cfg seq numLookahead -
          bm.numHeld (blocks.take (blocks.length - 1)) := by
      omega
    rw [if_pos recompute, numReused, if_pos recompute.1]
    simp only [lastEq, cost]
    exact (apply_ite Except.ok _ _ _).symm
  · have whole : numReused cfg blocks.length = blocks.length := by
      unfold numReused
      split
      · rename_i speculates
        have : blocks.length = 0 := by
          by_contra some
          exact recompute ⟨speculates, some⟩
        omega
      · rfl
    rw [if_neg recompute, whole, List.take_length]
    exact (apply_ite Except.ok _ _ _).symm

/-- `can_allocate` returns a number of cached blocks for which the free blocks
suffice, and refuses only when they could not cover a table of all new
blocks. -/
theorem canAllocate_spec (bm : BlockManager) {seq : Sequence} (hashed : seq.Hashed cfg)
    (settled : seq.numPendingTokens = 0) (nonempty : 0 < seq.numTokens)
    (numLookahead : Nat) :
    ∃ result, canAllocate cfg bm seq numLookahead = .ok result ∧
      (∀ numCachedBlocks, result = some numCachedBlocks →
        ∃ blocks, blocks.length = numCachedBlocks ∧ HitsFrom cfg bm seq 0 blocks ∧
          numCachedBlocks * cfg.blockSize < seq.numTokens ∧
          numBlocks cfg seq numLookahead ≤ bm.freeBlockQueue.length + bm.numHeld blocks) ∧
      (result = none → bm.freeBlockQueue.length < numBlocks cfg seq numLookahead) := by
  obtain ⟨blocks, longest, result⟩ := canAllocate_eq bm hashed settled numLookahead
  have planned : seq.numPlannedTokens = seq.numTokens := by
    simp [Sequence.numPlannedTokens, settled]
  have reused := numReused_le cfg blocks.length
  have short : numReused cfg blocks.length ≤ seq.numBlocks cfg - 1 := by
    have within := longest.within
    unfold maxHits at within
    split at within <;> omega
  refine ⟨_, result, ?_, ?_⟩
  · intro numCachedBlocks accepted
    split at accepted
    · contradiction
    · rename_i fits
      obtain rfl := Option.some.inj accepted
      refine ⟨blocks.take (numReused cfg blocks.length), List.length_take_of_le reused,
        longest.hits.take _, ?_, by omega⟩
      rw [← planned]
      exact numBlocks_sub_one_mul_lt (planned ▸ nonempty) short
  · intro refused
    split at refused
    · omega
    · contradiction

/-- The blocks with one reference count changed. -/
def withCount (bm : BlockManager) (blockId : BlockId) (refCount : Nat) : BlockId → Block :=
  Function.update bm.blocks blockId { bm.blocks blockId with refCount := refCount }

@[simp]
theorem withCount_hash (bm : BlockManager) (blockId other : BlockId) (refCount : Nat) :
    (bm.withCount blockId refCount other).hash = (bm.blocks other).hash := by
  by_cases same : other = blockId
  · subst other; simp [withCount]
  · simp [withCount, same]

@[simp]
theorem withCount_tokenIds (bm : BlockManager) (blockId other : BlockId) (refCount : Nat) :
    (bm.withCount blockId refCount other).tokenIds = (bm.blocks other).tokenIds := by
  by_cases same : other = blockId
  · subst other; simp [withCount]
  · simp [withCount, same]

theorem withCount_refCount (bm : BlockManager) (blockId : BlockId) (refCount : Nat) :
    (fun other => (bm.withCount blockId refCount other).refCount) =
      Function.update bm.pool.count blockId refCount := by
  funext other
  by_cases same : other = blockId
  · subst other; simp [withCount]
  · simp [withCount, pool, same]

/-- Changing one reference count along with the pool keeps the cache sound, as
long as an unpublished block gains no second holder. -/
theorem inv_of_withCount (inv : bm.Inv cfg held) (after : BlockManager) {blockId : BlockId}
    {refCount : Nat} {others : List BlockId}
    (blocksEq : after.blocks = bm.withCount blockId refCount)
    (cacheEq : after.hashToBlockId = bm.hashToBlockId)
    (accounts : after.pool.Accounts (Finset.range cfg.numKvcacheBlocks) others)
    (limited : (bm.blocks blockId).hash = -1 → refCount ≤ 1) :
    after.Inv cfg others ∧ Keeps bm after [] := by
  refine ⟨⟨accounts, ?_, ?_⟩, ?_, ?_, ?_⟩
  · intro hash other found
    rw [cacheEq] at found
    rw [blocksEq, withCount_hash]
    exact inv.cached hash other found
  · intro other unpublished
    rw [blocksEq] at unpublished ⊢
    rw [withCount_hash] at unpublished
    by_cases same : other = blockId
    · subst other
      simpa [withCount] using limited unpublished
    · simpa [withCount, same] using inv.exclusive other unpublished
  · intro other _
    simp [blocksEq]
  · simp
  · intro hash other found
    rwa [cacheEq] at found

theorem takeHit_spec (inv : bm.Inv cfg held) {blockId : BlockId}
    (inside : blockId < cfg.numKvcacheBlocks) (published : (bm.blocks blockId).hash ≠ -1) :
    ∃ after, bm.takeHit blockId = .ok after ∧ after.Inv cfg (blockId :: held) ∧
      Keeps bm after [] ∧ after.hashToBlockId = bm.hashToBlockId ∧
      bm.usedBlockIds ⊆ after.usedBlockIds ∧
      bm.freeBlockQueue.length + (decide (blockId ∈ bm.usedBlockIds)).toNat =
        after.freeBlockQueue.length + 1 := by
  by_cases holds : blockId ∈ bm.usedBlockIds
  · let after : BlockManager := { bm with
      blocks := bm.withCount blockId ((bm.blocks blockId).refCount + 1) }
    have poolEq : after.pool = bm.pool.share blockId := by
      simp only [pool, RefPool.share, after, withCount_refCount]
    obtain ⟨afterInv, keeps⟩ := inv_of_withCount inv after rfl rfl
      (poolEq ▸ inv.accounts.share ((inv.mem_used_iff blockId).mp holds))
      fun unpublished => absurd unpublished published
    exact ⟨after, by simp [takeHit, holds, after, withCount], afterInv, keeps, rfl,
      Finset.Subset.refl _, by simp [holds, after]⟩
  · have free : blockId ∈ bm.freeBlockQueue :=
      (inv.mem_free_iff blockId).mpr ⟨inside, fun member =>
        holds ((inv.mem_used_iff blockId).mpr member)⟩
    let after : BlockManager := { bm with
      blocks := bm.withCount blockId 1
      freeBlockQueue := bm.freeBlockQueue.erase blockId
      usedBlockIds := insert blockId bm.usedBlockIds }
    have poolEq : after.pool = bm.pool.take blockId := by
      simp only [pool, RefPool.take, after, withCount_refCount]
    obtain ⟨afterInv, keeps⟩ := inv_of_withCount inv after rfl rfl
      (poolEq ▸ inv.accounts.take free) fun _ => Nat.le_refl 1
    refine ⟨after, by simp [takeHit, holds, free, after, withCount], afterInv, keeps, rfl,
      Finset.subset_insert _ _, ?_⟩
    have shorter := List.length_erase_of_mem free
    have nonempty := List.length_pos_of_mem free
    simp only [holds, decide_false, Bool.toNat_false, after]
    omega

theorem numHeld_mono {after : BlockManager} (used : bm.usedBlockIds ⊆ after.usedBlockIds)
    (blocks : List BlockId) : bm.numHeld blocks ≤ after.numHeld blocks :=
  List.countP_mono_left fun blockId _ holds => by
    simp only [decide_eq_true_eq] at holds ⊢
    exact used holds

theorem appendHits_spec (inv : bm.Inv cfg held) (seq : Sequence) (i : Nat)
    (blocks : List BlockId) (hits : HitsFrom cfg bm seq i blocks) :
    ∃ after,
      appendHits blocks.length i bm seq =
        .ok (after, { seq with blockTable := seq.blockTable ++ blocks }) ∧
      after.Inv cfg (blocks ++ held) ∧ Keeps bm after [] ∧
      bm.freeBlockQueue.length + bm.numHeld blocks ≤
        after.freeBlockQueue.length + blocks.length := by
  induction blocks generalizing bm held seq i with
  | nil => exact ⟨bm, by simp [appendHits], inv, Keeps.refl bm, by simp [numHeld]⟩
  | cons blockId blocks ih =>
      obtain ⟨⟨hash, hashEq, found, _⟩, rest⟩ := hitsFrom_cons_iff.mp hits
      obtain ⟨inside, ownHash, notSentinel⟩ := inv.cached hash blockId found
      obtain ⟨next, taken, nextInv, nextKeeps, cacheEq, used, lengthEq⟩ :=
        takeHit_spec inv inside (ownHash ▸ notSentinel)
      have restHits : HitsFrom cfg next
          { seq with blockTable := seq.blockTable ++ [blockId] } (i + 1) blocks := by
        intro j other otherFound
        obtain ⟨hash, atIndex, cached, tokens⟩ := rest j other otherFound
        refine ⟨hash, atIndex, by rw [cacheEq, cached], ?_⟩
        rw [(nextKeeps.same other List.not_mem_nil).2, tokens]
      obtain ⟨after, appended, afterInv, afterKeeps, enough⟩ := ih nextInv _ (i + 1) restHits
      refine ⟨after, ?_, afterInv.perm List.perm_middle, nextKeeps.trans afterKeeps, ?_⟩
      · simp only [List.length_cons, appendHits, hashEq, found, bind, Except.bind, taken]
        simpa using appended
      · have mono := numHeld_mono used blocks
        have headHeld : bm.numHeld (blockId :: blocks) =
            bm.numHeld blocks + (decide (blockId ∈ bm.usedBlockIds)).toNat := by
          by_cases holds : blockId ∈ bm.usedBlockIds <;> simp [numHeld, holds]
        simp only [List.length_cons]
        omega

/-- Allocating after `can_allocate` succeeds: the table is the cached blocks
followed by blocks nobody held. -/
theorem allocate_spec (inv : bm.Inv cfg held) {seq : Sequence} (empty : seq.blockTable = [])
    {blocks : List BlockId} (hits : HitsFrom cfg bm seq 0 blocks) (numLookahead : Nat)
    (enough : numBlocks cfg seq numLookahead ≤ bm.freeBlockQueue.length + bm.numHeld blocks)
    (short : blocks.length ≤ numBlocks cfg seq numLookahead) :
    ∃ fresh after,
      allocate cfg bm seq blocks.length numLookahead = .ok (after,
        { seq with
          blockTable := blocks ++ fresh
          numCachedTokens := blocks.length * cfg.blockSize
          numPublishedBlocks := blocks.length }) ∧
      blocks.length + fresh.length = numBlocks cfg seq numLookahead ∧
      after.Inv cfg (blocks ++ fresh ++ held) ∧ Keeps bm after fresh := by
  obtain ⟨middle, taken, middleInv, middleKeeps, left⟩ :=
    appendHits_spec inv seq 0 blocks hits
  obtain ⟨fresh, after, appended, freshLength, afterInv, afterKeeps, _, _⟩ :=
    appendBlocks_spec middleInv { seq with blockTable := seq.blockTable ++ blocks }
      (numBlocks cfg seq numLookahead - blocks.length) (by omega)
  refine ⟨fresh, after, ?_, by omega, ?_, middleKeeps.trans afterKeeps⟩
  · rw [allocate, if_neg (not_not.mpr empty)]
    simp only [bind, Except.bind, taken, appended]
    rw [empty, List.nil_append]
  · exact afterInv.perm (by
      rw [← List.append_assoc]
      exact (show (fresh ++ blocks).Perm (blocks ++ fresh) from
        List.perm_append_comm).append_right held)

/-! ## Release -/

theorem dropReference_spec {blockId : BlockId} (inv : bm.Inv cfg (blockId :: held)) :
    ∃ after, bm.dropReference blockId = .ok after ∧ after.Inv cfg held ∧ Keeps bm after [] ∧
      after.hashToBlockId = bm.hashToBlockId := by
  have counted : (bm.blocks blockId).refCount = held.count blockId + 1 := by
    simpa using inv.refCount_eq blockId
  have limited : (bm.blocks blockId).hash = -1 → (bm.blocks blockId).refCount - 1 ≤ 1 :=
    fun unpublished => (Nat.sub_le _ 1).trans (inv.exclusive blockId unpublished)
  by_cases last : (bm.blocks blockId).refCount = 1
  · have used : blockId ∈ bm.usedBlockIds := (inv.mem_used_iff blockId).mpr List.mem_cons_self
    have notFree : blockId ∉ bm.freeBlockQueue := fun free =>
      ((inv.mem_free_iff blockId).mp free).2 List.mem_cons_self
    let after : BlockManager := { bm with
      blocks := bm.withCount blockId ((bm.blocks blockId).refCount - 1)
      usedBlockIds := bm.usedBlockIds.erase blockId
      freeBlockQueue := bm.freeBlockQueue ++ [blockId] }
    have poolEq : after.pool = bm.pool.release blockId := by
      simp only [pool, RefPool.release, after, withCount_refCount, last, if_true]
    obtain ⟨afterInv, keeps⟩ := inv_of_withCount inv after rfl rfl
      (poolEq ▸ inv.accounts.release) limited
    refine ⟨after, ?_, afterInv, keeps, rfl⟩
    simp [dropReference, deallocateBlock, last, used, notFree, after, withCount]
  · let after : BlockManager := { bm with
      blocks := bm.withCount blockId ((bm.blocks blockId).refCount - 1) }
    have poolEq : after.pool = bm.pool.release blockId := by
      simp only [pool, RefPool.release, after, withCount_refCount, last, if_false]
    obtain ⟨afterInv, keeps⟩ := inv_of_withCount inv after rfl rfl
      (poolEq ▸ inv.accounts.release) limited
    have others : ¬ (bm.blocks blockId).refCount - 1 = 0 := by omega
    exact ⟨after, by simp [dropReference, others, after, withCount], afterInv, keeps, rfl⟩

theorem dropReferences_spec (table : List BlockId) (inv : bm.Inv cfg (table ++ held)) :
    ∃ after, dropReferences table bm = .ok after ∧ after.Inv cfg held ∧ Keeps bm after [] ∧
      after.hashToBlockId = bm.hashToBlockId := by
  induction table generalizing bm with
  | nil => exact ⟨bm, rfl, inv, Keeps.refl bm, rfl⟩
  | cons blockId table ih =>
      obtain ⟨next, dropped, nextInv, nextKeeps, nextCache⟩ := dropReference_spec inv
      obtain ⟨after, rest, afterInv, afterKeeps, afterCache⟩ := ih nextInv
      refine ⟨after, ?_, afterInv, nextKeeps.trans afterKeeps, afterCache.trans nextCache⟩
      simp only [dropReferences, dropped, bind, Except.bind, rest]

/-- Deallocating a sequence gives back every reference of its table. -/
theorem deallocate_spec (seq : Sequence) (inv : bm.Inv cfg (seq.blockTable ++ held)) :
    ∃ after, bm.deallocate seq = .ok (after,
        { seq with numCachedTokens := 0, numPublishedBlocks := 0, blockTable := [] }) ∧
      after.Inv cfg held ∧ Keeps bm after [] ∧ after.hashToBlockId = bm.hashToBlockId := by
  obtain ⟨after, dropped, afterInv, afterKeeps, afterCache⟩ :=
    dropReferences_spec seq.blockTable.reverse
      (inv.perm ((List.reverse_perm seq.blockTable).symm.append_right held))
  exact ⟨after, by simp only [deallocate, dropped, bind, Except.bind], afterInv, afterKeeps,
    afterCache⟩

/-! ## Publishing -/

/-- Blocks `i .. i + n` of the sequence's table are published under their
chained hashes; nothing else changes. -/
structure Publishes (cfg : Config) (seq : Sequence) (i n : Nat)
    (before after : BlockManager) : Prop where
  same : ∀ blockId, blockId ∉ (seq.blockTable.drop i).take n →
    after.blocks blockId = before.blocks blockId
  hash : ∀ k blockId, i ≤ k → k < i + n → seq.blockTable[k]? = some blockId →
    (after.blocks blockId).hash = chainHash cfg seq.tokenIds k
  pool : after.pool = before.pool

/-- An unpublished block stands once in a held table. -/
theorem Inv.nodup_of_unpublished {table : List BlockId} (inv : bm.Inv cfg (table ++ held))
    {part : List BlockId} (sub : part.Sublist table)
    (unpublished : ∀ blockId ∈ part, (bm.blocks blockId).hash = -1) : part.Nodup := by
  rw [List.nodup_iff_count_le_one]
  intro blockId
  by_cases member : blockId ∈ part
  · have limited := inv.exclusive blockId (unpublished blockId member)
    rw [inv.refCount_eq, List.count_append] at limited
    have fewer := sub.count_le blockId
    omega
  · simp [List.count_eq_zero.mpr member]

/-- An unpublished block of one table is in no other. -/
theorem Inv.not_mem_of_unpublished {table : List BlockId} (inv : bm.Inv cfg (table ++ held))
    {blockId : BlockId} (member : blockId ∈ table)
    (unpublished : (bm.blocks blockId).hash = -1) : blockId ∉ held := by
  intro other
  have limited := inv.exclusive blockId unpublished
  rw [inv.refCount_eq, List.count_append] at limited
  have own := List.count_pos_iff.mpr member
  have others := List.count_pos_iff.mpr other
  omega

theorem publish_spec (inv : bm.Inv cfg held) {seq : Sequence} (n i : Nat)
    (caching : cfg.enablePrefixCaching) (hashed : seq.Hashed cfg)
    (full : i + n ≤ seq.numTokens / cfg.blockSize) (covered : i + n ≤ seq.blockTable.length)
    (owned : ∀ blockId ∈ seq.blockTable, blockId ∈ held)
    (unpublished : ∀ blockId ∈ seq.blockTable.drop i, (bm.blocks blockId).hash = -1)
    (distinct : (seq.blockTable.drop i).Nodup) :
    ∃ after, publish cfg seq n i bm = .ok after ∧ after.Inv cfg held ∧
      Publishes cfg seq i n bm after := by
  induction n generalizing bm i with
  | zero =>
      exact ⟨bm, rfl, inv, fun _ _ => rfl, fun k _ low high _ => absurd high (by omega), rfl⟩
  | succ n ih =>
      have inside : i < seq.blockTable.length := by omega
      obtain ⟨blockId, blockEq⟩ : ∃ blockId, seq.blockTable[i]? = some blockId :=
        ⟨_, List.getElem?_eq_getElem inside⟩
      have dropEq : seq.blockTable.drop i = blockId :: seq.blockTable.drop (i + 1) := by
        rw [List.drop_eq_getElem_cons inside]
        congr 1
        exact Option.some.inj ((List.getElem?_eq_getElem inside).symm.trans blockEq)
      rw [dropEq] at unpublished distinct
      have hashEq : seq.blockHashes[i]? = some (chainHash cfg seq.tokenIds i) := by
        rw [hashed, if_pos caching]
        exact getElem?_chainHashes cfg (by omega)
      have tokensEq : seq.block cfg i = .ok (Sequence.blockTokens cfg seq.tokenIds i) :=
        Sequence.block_of_full (by omega)
      let next : BlockManager := { bm with
        blocks := Function.update bm.blocks blockId
          ((bm.blocks blockId).update (chainHash cfg seq.tokenIds i)
            (Sequence.blockTokens cfg seq.tokenIds i))
        hashToBlockId := Function.update bm.hashToBlockId (chainHash cfg seq.tokenIds i)
          (some blockId) }
      have elsewhere : ∀ other, other ≠ blockId → next.blocks other = bm.blocks other :=
        fun other different => Function.update_of_ne different _ _
      have own : (next.blocks blockId).hash = chainHash cfg seq.tokenIds i := by
        simp [next, Block.update]
      have poolEq : next.pool = bm.pool := by
        simp only [BlockManager.pool, next]
        congr 1
        funext other
        by_cases same : other = blockId
        · subst other; simp [Block.update]
        · simp [same]
      have nextInv : next.Inv cfg held := by
        refine ⟨poolEq ▸ inv.accounts, ?_, ?_⟩
        · intro hash other found
          by_cases new : hash = chainHash cfg seq.tokenIds i
          · subst hash
            obtain rfl : blockId = other := by simpa [next] using found
            have member : blockId ∈ held := owned blockId (List.mem_of_getElem? blockEq)
            exact ⟨by simpa using inv.accounts.held_mem blockId member, own,
              chainHash_ne_sentinel cfg _ _⟩
          · -- an older entry names a published block, so not this one
            simp only [next, Function.update_of_ne new] at found
            obtain ⟨below, hashOther, notSentinel⟩ := inv.cached hash other found
            have different : other ≠ blockId := by
              rintro rfl
              exact notSentinel (hashOther ▸ unpublished other List.mem_cons_self)
            exact ⟨below, by rw [elsewhere other different, hashOther], notSentinel⟩
        · intro other notPublished
          by_cases same : other = blockId
          · subst other
            exact absurd (own ▸ notPublished) (chainHash_ne_sentinel cfg _ _)
          · rw [elsewhere other same] at notPublished ⊢
            exact inv.exclusive other notPublished
      have restUnpublished : ∀ other ∈ seq.blockTable.drop (i + 1),
          (next.blocks other).hash = -1 := by
        intro other member
        have different : other ≠ blockId := by
          rintro rfl
          exact (List.nodup_cons.mp distinct).1 member
        rw [elsewhere other different]
        exact unpublished other (List.mem_cons_of_mem _ member)
      obtain ⟨after, published, afterInv, afterPublishes⟩ := ih nextInv (i + 1) (by omega)
        (by omega) restUnpublished (List.nodup_cons.mp distinct).2
      refine ⟨after, ?_, afterInv, ?_, ?_, afterPublishes.pool.trans poolEq⟩
      · simp only [publish, blockEq, hashEq, tokensEq, bind, Except.bind]
        exact published
      · intro other absent
        rw [dropEq, List.take_succ_cons, List.mem_cons, not_or] at absent
        rw [afterPublishes.same other absent.2, elsewhere other absent.1]
      · intro k other low high atIndex
        by_cases first : k = i
        · subst k
          obtain rfl : blockId = other := Option.some.inj (blockEq.symm.trans atIndex)
          have absent : blockId ∉ (seq.blockTable.drop (i + 1)).take n := fun member =>
            (List.nodup_cons.mp distinct).1 (List.mem_of_mem_take member)
          rw [afterPublishes.same blockId absent, own]
        · exact afterPublishes.hash k other (by omega) (by omega) atIndex

/-- `hash_blocks` publishes the blocks of a held table up to the computed and
committed tokens, and leaves the rest of the table unpublished. -/
theorem hashBlocks_spec {seq : Sequence} (inv : bm.Inv cfg (seq.blockTable ++ held))
    (hashed : seq.Hashed cfg) (numComputedTokens : Nat)
    (covered : min numComputedTokens seq.numTokens / cfg.blockSize ≤ seq.blockTable.length)
    (unpublished : ∀ blockId ∈ seq.blockTable.drop seq.numPublishedBlocks,
      (bm.blocks blockId).hash = -1) :
    ∃ n after,
      hashBlocks cfg bm seq numComputedTokens =
        .ok (after, { seq with numPublishedBlocks := seq.numPublishedBlocks + n }) ∧
      (n = 0 ∨ seq.numPublishedBlocks + n =
        min numComputedTokens seq.numTokens / cfg.blockSize) ∧
      after.Inv cfg (seq.blockTable ++ held) ∧
      Publishes cfg seq seq.numPublishedBlocks n bm after ∧
      (∀ blockId ∈ seq.blockTable.drop (seq.numPublishedBlocks + n),
        (after.blocks blockId).hash = -1) := by
  by_cases caching : cfg.enablePrefixCaching
  · let stop := min numComputedTokens seq.numTokens / cfg.blockSize
    have distinct := inv.nodup_of_unpublished
      (List.drop_sublist seq.numPublishedBlocks seq.blockTable) unpublished
    by_cases done : stop ≤ seq.numPublishedBlocks
    · refine ⟨0, bm, ?_, Or.inl rfl, inv, ⟨fun _ _ => rfl, ?_, rfl⟩, unpublished⟩
      · simp only [hashBlocks, caching, if_true, bind, Except.bind]
        rw [show min numComputedTokens seq.numTokens / cfg.blockSize -
          seq.numPublishedBlocks = 0 from Nat.sub_eq_zero_of_le done]
        rw [Nat.max_eq_left done]
        rfl
      · intro k _ low high
        exact absurd high (by omega)
    · have stopFull : stop ≤ seq.numTokens / cfg.blockSize :=
        Nat.div_le_div_right (Nat.min_le_right _ _)
      have reach : seq.numPublishedBlocks + (stop - seq.numPublishedBlocks) = stop := by omega
      obtain ⟨after, published, afterInv, publishes⟩ := publish_spec inv
        (stop - seq.numPublishedBlocks) seq.numPublishedBlocks caching hashed
        (reach.symm ▸ stopFull) (reach.symm ▸ covered)
        (fun blockId member => List.mem_append_left held member) unpublished distinct
      refine ⟨stop - seq.numPublishedBlocks, after, ?_, Or.inr reach, afterInv, publishes, ?_⟩
      · simp only [hashBlocks, caching, if_true, bind, Except.bind]
        rw [show min numComputedTokens seq.numTokens / cfg.blockSize = stop from rfl, published,
          Nat.max_eq_right (by omega), reach]
      · intro blockId member
        rw [← List.drop_drop] at member
        have absent : blockId ∉ (seq.blockTable.drop seq.numPublishedBlocks).take
            (stop - seq.numPublishedBlocks) := by
          intro early
          have split := List.take_append_drop (stop - seq.numPublishedBlocks)
            (seq.blockTable.drop seq.numPublishedBlocks)
          rw [← split] at distinct
          exact (List.disjoint_of_nodup_append distinct) early member
        rw [publishes.same blockId absent]
        exact unpublished blockId (List.mem_of_mem_drop member)
  · refine ⟨0, bm, ?_, Or.inl rfl, inv, ⟨fun _ _ => rfl, ?_, rfl⟩, unpublished⟩
    · simp [hashBlocks, caching]
    · intro k _ low high
      exact absurd high (by omega)

end BlockManager

end LeanVllm
