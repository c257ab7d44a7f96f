import LeanVllm.Engine.Sequence

/-!
# Chained block hashes

The hash of block `i` of a token list chains the tokens of blocks `0..i`.  It
depends on nothing past block `i`, and when the hash function is injective it
determines both `i` and those tokens.
-/

namespace LeanVllm

variable (cfg : Config)

/-- The hash of block `i`, chained from -1 through the blocks before it. -/
def chainHash (tokenIds : List Token) : Nat → Hash
  | 0 => cfg.hashAlgo (Sequence.blockTokens cfg tokenIds 0) (-1)
  | i + 1 => cfg.hashAlgo (Sequence.blockTokens cfg tokenIds (i + 1)) (chainHash tokenIds i)

/-- The hashes of the first `n` blocks. -/
def chainHashes (tokenIds : List Token) (n : Nat) : List Hash :=
  (List.range n).map (chainHash cfg tokenIds)

@[simp]
theorem length_chainHashes (tokenIds : List Token) (n : Nat) :
    (chainHashes cfg tokenIds n).length = n := by
  simp [chainHashes]

theorem chainHashes_succ (tokenIds : List Token) (n : Nat) :
    chainHashes cfg tokenIds (n + 1) =
      chainHashes cfg tokenIds n ++ [chainHash cfg tokenIds n] := by
  simp [chainHashes, List.range_succ]

theorem getElem?_chainHashes {tokenIds : List Token} {n i : Nat} (below : i < n) :
    (chainHashes cfg tokenIds n)[i]? = some (chainHash cfg tokenIds i) := by
  simp [chainHashes, below]

/-- No chained hash is the sentinel of an unpublished block. -/
theorem chainHash_ne_sentinel (tokenIds : List Token) (i : Nat) :
    chainHash cfg tokenIds i ≠ -1 := by
  have natCast_ne : ∀ n : Nat, (n : Int) ≠ -1 := by omega
  cases i with
  | zero => exact natCast_ne _
  | succ i => exact natCast_ne _

variable {cfg}

theorem blockTokens_congr {first second : List Token} {i : Nat}
    (agree : first.take ((i + 1) * cfg.blockSize) = second.take ((i + 1) * cfg.blockSize)) :
    Sequence.blockTokens cfg first i = Sequence.blockTokens cfg second i := by
  have slice : ∀ tokens : List Token, Sequence.blockTokens cfg tokens i =
      (tokens.take ((i + 1) * cfg.blockSize)).drop (i * cfg.blockSize) := by
    intro tokens
    rw [Sequence.blockTokens, List.drop_take]
    congr 1
    rw [Nat.succ_mul]
    omega
  rw [slice, slice, agree]

/-- A block's hash depends only on the tokens up to the end of the block. -/
theorem chainHash_congr {first second : List Token} {i : Nat}
    (agree : first.take ((i + 1) * cfg.blockSize) = second.take ((i + 1) * cfg.blockSize)) :
    chainHash cfg first i = chainHash cfg second i := by
  induction i with
  | zero => simp only [chainHash, blockTokens_congr agree]
  | succ i ih =>
      have shorter : first.take ((i + 1) * cfg.blockSize) =
          second.take ((i + 1) * cfg.blockSize) := by
        have le : (i + 1) * cfg.blockSize ≤ (i + 1 + 1) * cfg.blockSize :=
          Nat.mul_le_mul_right _ (by omega)
        have cut := congrArg (List.take ((i + 1) * cfg.blockSize)) agree
        simpa only [List.take_take, Nat.min_eq_left le] using cut
      simp only [chainHash, blockTokens_congr agree, ih shorter]

theorem chainHash_append {tokenIds : List Token} (more : List Token) {i : Nat}
    (full : (i + 1) * cfg.blockSize ≤ tokenIds.length) :
    chainHash cfg (tokenIds ++ more) i = chainHash cfg tokenIds i :=
  chainHash_congr (List.take_append_of_le_length full)

theorem chainHashes_append {tokenIds : List Token} (more : List Token) {n : Nat}
    (full : n * cfg.blockSize ≤ tokenIds.length) :
    chainHashes cfg (tokenIds ++ more) n = chainHashes cfg tokenIds n := by
  apply List.map_congr_left
  intro i member
  have below : i + 1 ≤ n := List.mem_range.mp member
  exact chainHash_append more ((Nat.mul_le_mul_right _ below).trans full)

/-! ## Injectivity -/

/-- The block hash is injective on (block tokens, previous hash). -/
def Config.HashInjective (cfg : Config) : Prop :=
  ∀ first second firstPrev secondPrev,
    cfg.hashAlgo first firstPrev = cfg.hashAlgo second secondPrev →
      first = second ∧ firstPrev = secondPrev

/-- Equal chained hashes are hashes of the same block index: peeling one block
off each side ends at -1 on one of them, which is no hash. -/
theorem chainHash_index_inj (injective : cfg.HashInjective) {first second : List Token}
    {i j : Nat} (equal : chainHash cfg first i = chainHash cfg second j) : i = j := by
  induction i generalizing j with
  | zero =>
      cases j with
      | zero => rfl
      | succ j =>
          have previous := (injective _ _ _ _ (Int.ofNat_inj.mp equal)).2
          exact absurd previous.symm (chainHash_ne_sentinel cfg second j)
  | succ i ih =>
      cases j with
      | zero =>
          have previous := (injective _ _ _ _ (Int.ofNat_inj.mp equal)).2
          exact absurd previous (chainHash_ne_sentinel cfg first i)
      | succ j =>
          have previous := (injective _ _ _ _ (Int.ofNat_inj.mp equal)).2
          rw [ih previous]

/-- Equal chained hashes are hashes of the same tokens from the start. -/
theorem take_eq_of_chainHash_eq (injective : cfg.HashInjective) {first second : List Token}
    {i : Nat} (equal : chainHash cfg first i = chainHash cfg second i) :
    first.take ((i + 1) * cfg.blockSize) = second.take ((i + 1) * cfg.blockSize) := by
  have split : ∀ (tokens : List Token) (k : Nat),
      tokens.take ((k + 1) * cfg.blockSize) =
        tokens.take (k * cfg.blockSize) ++ Sequence.blockTokens cfg tokens k := by
    intro tokens k
    rw [Nat.succ_mul, List.take_add, Sequence.blockTokens]
  induction i with
  | zero =>
      have blocks := (injective _ _ _ _ (Int.ofNat_inj.mp equal)).1
      rw [split first 0, split second 0, blocks]
      simp
  | succ i ih =>
      obtain ⟨blocks, previous⟩ := injective _ _ _ _ (Int.ofNat_inj.mp equal)
      rw [split first (i + 1), split second (i + 1), ih previous, blocks]

/-! ## Hashing a sequence -/

namespace Sequence

/-- Every full block of the sequence is hashed, once. -/
def Hashed (cfg : Config) (seq : Sequence) : Prop :=
  seq.blockHashes =
    if cfg.enablePrefixCaching then chainHashes cfg seq.tokenIds (seq.numTokens / cfg.blockSize)
    else []

theorem Hashed.eq_chainHash {seq : Sequence} (hashed : seq.Hashed cfg) {i : Nat} {hash : Hash}
    (found : seq.blockHashes[i]? = some hash) : hash = chainHash cfg seq.tokenIds i := by
  rw [hashed] at found
  split at found
  · have below : i < (chainHashes cfg seq.tokenIds (seq.numTokens / cfg.blockSize)).length :=
      (List.getElem?_eq_some_iff.mp found).1
    rw [getElem?_chainHashes cfg (by simpa using below)] at found
    exact (Option.some.inj found).symm
  · simp at found

theorem block_of_full {seq : Sequence} {i : Nat}
    (full : i < seq.numTokens / cfg.blockSize) :
    seq.block cfg i = .ok (blockTokens cfg seq.tokenIds i) := by
  have enough : seq.numTokens / cfg.blockSize ≤ seq.numBlocks cfg := by
    apply Nat.div_le_div_right
    have := cfg.blockSize_pos
    simp only [numPlannedTokens]
    omega
  exact if_pos (Nat.lt_of_lt_of_le full enough)

theorem extendBlockHashesLoop_eq (seq : Sequence) (done n : Nat)
    (hashed : seq.blockHashes = chainHashes cfg seq.tokenIds done)
    (bound : done + n ≤ seq.numTokens / cfg.blockSize) :
    extendBlockHashesLoop cfg n seq =
      .ok { seq with blockHashes := chainHashes cfg seq.tokenIds (done + n) } := by
  induction n generalizing seq done with
  | zero =>
      rw [extendBlockHashesLoop, Nat.add_zero, ← hashed]
  | succ n ih =>
      have length : seq.blockHashes.length = done := by simp [hashed]
      have block : seq.block cfg seq.blockHashes.length =
          .ok (blockTokens cfg seq.tokenIds done) := by
        rw [length]
        exact block_of_full (by omega)
      have next : (cfg.hashAlgo (blockTokens cfg seq.tokenIds done)
          (seq.blockHashes.getLast?.getD (-1)) : Hash) = chainHash cfg seq.tokenIds done := by
        cases done with
        | zero => simp [hashed, chainHashes, chainHash]
        | succ done => simp [hashed, chainHashes_succ, chainHash]
      simp only [extendBlockHashesLoop, block, bind, Except.bind, next]
      rw [ih _ (done + 1) (by simp only [hashed, chainHashes_succ]) (by
        simp only [numTokens] at bound ⊢
        omega)]
      simp only [Nat.add_assoc, Nat.add_comm 1 n]

/-- Extending the hashes of a sequence whose older full blocks are hashed
hashes every full block. -/
theorem extendBlockHashes_eq (seq : Sequence) {done : Nat}
    (hashed : seq.blockHashes =
      if cfg.enablePrefixCaching then chainHashes cfg seq.tokenIds done else [])
    (bound : done ≤ seq.numTokens / cfg.blockSize) :
    ∃ hashes, extendBlockHashes cfg seq = .ok { seq with blockHashes := hashes } ∧
      Hashed cfg { seq with blockHashes := hashes } := by
  by_cases caching : cfg.enablePrefixCaching
  · simp only [caching, if_true] at hashed
    have length : seq.blockHashes.length = done := by simp [hashed]
    refine ⟨chainHashes cfg seq.tokenIds (seq.numTokens / cfg.blockSize), ?_, ?_⟩
    · rw [extendBlockHashes, if_pos caching, length,
        extendBlockHashesLoop_eq seq done _ hashed (by omega)]
      rw [Nat.add_sub_cancel' bound]
    · simp [Hashed, caching, numTokens]
  · refine ⟨seq.blockHashes, ?_, ?_⟩
    · rw [extendBlockHashes, if_neg caching]
    · simpa [Hashed, caching] using hashed

/-- Committing a reserved token appends it and spends one reservation. -/
theorem commitToken_eq {seq : Sequence} (hashed : seq.Hashed cfg)
    (reserved : seq.numPendingTokens ≠ 0) (tokenId : Token) :
    ∃ hashes,
      seq.commitToken cfg tokenId = .ok { seq with
        tokenIds := seq.tokenIds ++ [tokenId]
        numPendingTokens := seq.numPendingTokens - 1
        blockHashes := hashes } ∧
      Hashed cfg { seq with
        tokenIds := seq.tokenIds ++ [tokenId]
        numPendingTokens := seq.numPendingTokens - 1
        blockHashes := hashes } := by
  have older : seq.blockHashes =
      if cfg.enablePrefixCaching then
        chainHashes cfg (seq.tokenIds ++ [tokenId]) (seq.numTokens / cfg.blockSize)
      else [] := by
    rw [hashed]
    by_cases caching : cfg.enablePrefixCaching
    · rw [if_pos caching, if_pos caching,
        chainHashes_append [tokenId] (Nat.div_mul_le_self seq.numTokens cfg.blockSize)]
    · rw [if_neg caching, if_neg caching]
  obtain ⟨hashes, extended, result⟩ := extendBlockHashes_eq
    { seq with
      tokenIds := seq.tokenIds ++ [tokenId]
      numPendingTokens := seq.numPendingTokens - 1 }
    older (Nat.div_le_div_right (by simp [numTokens]))
  exact ⟨hashes, by rw [commitToken, if_neg reserved, extended], result⟩

end Sequence

end LeanVllm
