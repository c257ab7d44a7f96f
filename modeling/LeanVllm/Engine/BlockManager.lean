import Mathlib.Data.Finset.Basic
import LeanVllm.Engine.Sequence

/-!
# The block manager

The KV cache is divided into blocks.  A sequence's table names the blocks its
tokens' keys live in; a full block whose keys are computed is published under
the chained hash of its tokens, and a later sequence with the same prefix
shares it.  Free blocks keep their hash until they are handed out again.
-/

namespace LeanVllm

structure Block where
  refCount : Nat := 0
  hash : Hash := -1
  tokenIds : List Token := []
  deriving DecidableEq, Repr

namespace Block

def update (block : Block) (hash : Hash) (tokenIds : List Token) : Block :=
  { block with hash := hash, tokenIds := tokenIds }

/-- `reset`, which also takes the first reference. -/
def reset : Block where
  refCount := 1
  hash := -1
  tokenIds := []

end Block

/-- `free_block_queue` lists ids, least recently released first.  The list
`self.blocks` has `num_kvcache_blocks` entries, which never change identity. -/
structure BlockManager where
  blocks : BlockId → Block
  hashToBlockId : Hash → Option BlockId
  freeBlockQueue : List BlockId
  usedBlockIds : Finset BlockId

namespace BlockManager

def create (cfg : Config) : BlockManager where
  blocks := fun _ => {}
  hashToBlockId := fun _ => none
  freeBlockQueue := List.range cfg.numKvcacheBlocks
  usedBlockIds := ∅

/-- `_allocate_block`: take the least recently released block and forget what
it cached. -/
def allocateBlock (bm : BlockManager) : Except Fault (BlockId × BlockManager) :=
  match bm.freeBlockQueue with
  | [] => .error (.assertion "no free blocks")
  | blockId :: rest =>
      let block := bm.blocks blockId
      if block.refCount ≠ 0 then .error (.assertion "block.ref_count == 0")
      else
        .ok (blockId,
          { blocks := Function.update bm.blocks blockId Block.reset
            hashToBlockId :=
              if block.hash ≠ -1 ∧ bm.hashToBlockId block.hash = some blockId then
                Function.update bm.hashToBlockId block.hash none
              else bm.hashToBlockId
            freeBlockQueue := rest
            usedBlockIds := insert blockId bm.usedBlockIds })

/-- `_deallocate_block`.  Appending to the ordered dict keeps the place of an
id that is already there. -/
def deallocateBlock (bm : BlockManager) (blockId : BlockId) : Except Fault BlockManager :=
  if (bm.blocks blockId).refCount ≠ 0 then
    .error (.assertion "self.blocks[block_id].ref_count == 0")
  else if blockId ∉ bm.usedBlockIds then .error .keyError
  else
    .ok { bm with
      usedBlockIds := bm.usedBlockIds.erase blockId
      freeBlockQueue :=
        if blockId ∈ bm.freeBlockQueue then bm.freeBlockQueue
        else bm.freeBlockQueue ++ [blockId] }

/-- `_num_blocks`: the blocks needed for existing tokens, pending tokens, and
additional lookahead slots. -/
def numBlocks (cfg : Config) (seq : Sequence) (numLookahead : Nat) : Nat :=
  (seq.numPlannedTokens + numLookahead + cfg.blockSize - 1) / cfg.blockSize

/-- The variables of `can_allocate`'s loop. -/
structure Hits where
  numCachedBlocks : Nat
  numNewBlocks : Nat
  lastHitHeld : Bool
  deriving DecidableEq, Repr

/-- The loop of `can_allocate` with `n` blocks left to look up, from index
`i` on. -/
def countHits (cfg : Config) (bm : BlockManager) (seq : Sequence) :
    Nat → Nat → Hits → Except Fault Hits
  | 0, _, hits => .ok hits
  | n + 1, i, hits =>
      match seq.blockHashes[i]? with
      | none => .error .indexError
      | some hash =>
          match bm.hashToBlockId hash with
          | none => .ok hits
          | some blockId => do
              let tokens ← seq.block cfg i
              if (bm.blocks blockId).tokenIds ≠ tokens then .ok hits
              else
                let held := decide (blockId ∈ bm.usedBlockIds)
                countHits cfg bm seq n (i + 1)
                  { numCachedBlocks := hits.numCachedBlocks + 1
                    numNewBlocks := if held then hits.numNewBlocks - 1 else hits.numNewBlocks
                    lastHitHeld := held }

/-- The reusable prefix block count, or `none` (the source's -1) if allocation
cannot fit.  Excludes the sequence's final block. -/
def canAllocate (cfg : Config) (bm : BlockManager) (seq : Sequence) (numLookahead : Nat) :
    Except Fault (Option Nat) := do
  let looked := if cfg.enablePrefixCaching then seq.numBlocks cfg - 1 else 0
  let found ← countHits cfg bm seq looked 0 ⟨0, numBlocks cfg seq numLookahead, false⟩
  let hits :=
    if cfg.recomputeLastHit ∧ found.numCachedBlocks ≠ 0 then
      { found with
        numCachedBlocks := found.numCachedBlocks - 1
        numNewBlocks := found.numNewBlocks + found.lastHitHeld.toNat }
    else found
  if bm.freeBlockQueue.length < hits.numNewBlocks then .ok none
  else .ok (some hits.numCachedBlocks)

/-- One turn of `allocate`'s first loop: take a reference to a cached block. -/
def takeHit (bm : BlockManager) (blockId : BlockId) : Except Fault BlockManager :=
  let block := bm.blocks blockId
  if blockId ∈ bm.usedBlockIds then
    .ok { bm with
      blocks := Function.update bm.blocks blockId
        { block with refCount := block.refCount + 1 } }
  else if blockId ∉ bm.freeBlockQueue then
    .error (.assertion "block.block_id in self._blocks")
  else
    .ok { bm with
      blocks := Function.update bm.blocks blockId { block with refCount := 1 }
      freeBlockQueue := bm.freeBlockQueue.erase blockId
      usedBlockIds := insert blockId bm.usedBlockIds }

/-- `allocate`'s first loop, with `n` cached blocks left from index `i` on. -/
def appendHits : Nat → Nat → BlockManager → Sequence →
    Except Fault (BlockManager × Sequence)
  | 0, _, bm, seq => .ok (bm, seq)
  | n + 1, i, bm, seq =>
      match seq.blockHashes[i]? with
      | none => .error .indexError
      | some hash =>
          match bm.hashToBlockId hash with
          | none => .error .keyError
          | some blockId => do
              let bm ← bm.takeHit blockId
              appendHits n (i + 1) bm { seq with blockTable := seq.blockTable ++ [blockId] }

/-- Append `n` newly allocated blocks, as `allocate` and `may_append` do. -/
def appendBlocks : Nat → BlockManager → Sequence → Except Fault (BlockManager × Sequence)
  | 0, bm, seq => .ok (bm, seq)
  | n + 1, bm, seq => do
      let (blockId, bm) ← bm.allocateBlock
      appendBlocks n bm { seq with blockTable := seq.blockTable ++ [blockId] }

def allocate (cfg : Config) (bm : BlockManager) (seq : Sequence) (numCachedBlocks : Nat)
    (numLookahead : Nat) : Except Fault (BlockManager × Sequence) :=
  if seq.blockTable ≠ [] then .error (.assertion "not seq.block_table")
  else do
    let total := numBlocks cfg seq numLookahead
    let (bm, seq) ← appendHits numCachedBlocks 0 bm seq
    let (bm, seq) ← appendBlocks (total - numCachedBlocks) bm seq
    .ok (bm,
      { seq with
        numCachedTokens := numCachedBlocks * cfg.blockSize
        numPublishedBlocks := numCachedBlocks })

/-- One turn of `deallocate`'s loop. -/
def dropReference (bm : BlockManager) (blockId : BlockId) : Except Fault BlockManager :=
  let block := bm.blocks blockId
  let bm := { bm with
    blocks := Function.update bm.blocks blockId
      { block with refCount := block.refCount - 1 } }
  if block.refCount - 1 = 0 then bm.deallocateBlock blockId else .ok bm

def dropReferences : List BlockId → BlockManager → Except Fault BlockManager
  | [], bm => .ok bm
  | blockId :: rest, bm => do
      let bm ← bm.dropReference blockId
      dropReferences rest bm

def deallocate (bm : BlockManager) (seq : Sequence) : Except Fault (BlockManager × Sequence) := do
  let bm ← dropReferences seq.blockTable.reverse bm
  .ok (bm,
    { seq with
      numCachedTokens := 0
      numPublishedBlocks := 0
      blockTable := [] })

def numMissingBlocks (cfg : Config) (seq : Sequence) (numLookahead : Nat) : Nat :=
  numBlocks cfg seq numLookahead - seq.blockTable.length

/-- Check for enough free blocks to cover the planned tokens plus
`numLookahead` draft slots. -/
def canAppend (cfg : Config) (bm : BlockManager) (seq : Sequence) (numLookahead : Nat) : Bool :=
  decide (numMissingBlocks cfg seq numLookahead ≤ bm.freeBlockQueue.length)

def mayAppend (cfg : Config) (bm : BlockManager) (seq : Sequence) (numLookahead : Nat) :
    Except Fault (BlockManager × Sequence) :=
  appendBlocks (numMissingBlocks cfg seq numLookahead) bm seq

/-- The loop of `hash_blocks`, with `n` blocks left to publish from index `i`
on. -/
def publish (cfg : Config) (seq : Sequence) : Nat → Nat → BlockManager → Except Fault BlockManager
  | 0, _, bm => .ok bm
  | n + 1, i, bm =>
      match seq.blockTable[i]?, seq.blockHashes[i]? with
      | some blockId, some hash => do
          let tokens ← seq.block cfg i
          publish cfg seq n (i + 1)
            { bm with
              blocks := Function.update bm.blocks blockId ((bm.blocks blockId).update hash tokens)
              hashToBlockId := Function.update bm.hashToBlockId hash (some blockId) }
      | _, _ => .error .indexError

/-- Publish full blocks once their KV is computed and token IDs committed
(async or draft tokens can lag). -/
def hashBlocks (cfg : Config) (bm : BlockManager) (seq : Sequence) (numComputedTokens : Nat) :
    Except Fault (BlockManager × Sequence) :=
  if cfg.enablePrefixCaching then do
    let stop := min numComputedTokens seq.numTokens / cfg.blockSize
    let bm ← publish cfg seq (stop - seq.numPublishedBlocks) seq.numPublishedBlocks bm
    .ok (bm, { seq with numPublishedBlocks := max seq.numPublishedBlocks stop })
  else
    .ok (bm, seq)

end BlockManager

end LeanVllm
