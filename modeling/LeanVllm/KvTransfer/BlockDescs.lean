import LeanVllm.KvTransfer.Shares

/-!
# Byte ranges of a read

Each rank registers its KV caches as regions of memory.  A read names, region by
region and block by block, the bytes of a share's heads, and whole blocks of latent
regions.  Two ranks whose layouts agree name the same number of bytes in the same
order.
-/

namespace LeanVllm

open Collections

/-- One registered K, V or latent tensor, as a read addresses it. -/
structure Region where
  addr : Nat
  blockBytes : Nat
  headBytes : Nat
  deriving DecidableEq, Repr

/-- NIXL's (address, length, device) row. -/
structure Desc where
  addr : Int
  length : Int
  device : Nat
  deriving DecidableEq, Repr

/-- The rows of one region: the share's heads of each block, or whole blocks of
latents.  Registered memory ends below 2^64, so the sums of 64-bit numbers do not
wrap. -/
def Region.rows (region : Region) (blockIds : List Int) (firstHead numHeads : Int)
    (latents : Bool) (deviceId : Nat) : List Desc :=
  if region.headBytes ≠ 0 then
    blockIds.map fun block =>
      ⟨region.addr + firstHead * region.headBytes + block * region.blockBytes,
        numHeads * region.headBytes, deviceId⟩
  else if latents then
    blockIds.map fun block => ⟨region.addr + block * region.blockBytes, region.blockBytes, deviceId⟩
  else []

/-- `block_descs`.  A block id that is no 64-bit number raises. -/
def blockDescs (regions : List Region) (blockIds : List Int) (firstHead numHeads : Int)
    (latents : Bool) (deviceId : Nat) : Except LoadError (List Desc) :=
  if blockIds.any fun block => block < 0 ∨ 2 ^ 64 ≤ block then .error .overflow
  else .ok (regions.flatMap fun region => region.rows blockIds firstHead numHeads latents deviceId)

/-- The last dimensions of a cache: keys and values by head, token and element, or
latents by token and element. -/
inductive CacheShape where
  | kv (heads tokens dim : Nat)
  | latent (tokens dim : Nat)
  deriving DecidableEq, Repr

/-- A registered KV cache, contiguous from `dataPtr`. -/
structure KVCache where
  dtype : String
  dataPtr : Nat
  numBlocks : Nat
  shape : CacheShape
  deriving DecidableEq, Repr

/-- One layer of the layout two sides compare, with every rank's heads together. -/
inductive LayerLayout where
  | kv (dtype : String) (numHeads tokens dim : Nat)
  | latent (dtype : String) (tokens dim : Nat)
  deriving DecidableEq, Repr

namespace KVCache

variable (elementSize : String → Nat)

/-- The bytes between two heads of a block, or of a whole block of latents. -/
def headBytes (cache : KVCache) : Nat :=
  match cache.shape with
  | .kv _ tokens dim => tokens * dim * elementSize cache.dtype
  | .latent tokens dim => tokens * dim * elementSize cache.dtype

/-- The heads of one block on this rank; latents are one piece. -/
def heads (cache : KVCache) : Nat :=
  match cache.shape with
  | .kv heads _ _ => heads
  | .latent _ _ => 1

/-- The bytes between two blocks of a part. -/
def blockBytes (cache : KVCache) : Nat :=
  cache.heads * cache.headBytes elementSize

/-- The regions `register_kv_caches` makes of a cache: keys and values, or latents. -/
def regions (cache : KVCache) : List Region :=
  match cache.shape with
  | .kv _ _ _ =>
      [⟨cache.dataPtr, cache.blockBytes elementSize, cache.headBytes elementSize⟩,
        ⟨cache.dataPtr + cache.numBlocks * cache.blockBytes elementSize,
          cache.blockBytes elementSize, cache.headBytes elementSize⟩]
  | .latent _ _ => [⟨cache.dataPtr, cache.blockBytes elementSize, 0⟩]

/-- The bytes of a cache. -/
def size (cache : KVCache) : Nat :=
  (cache.regions elementSize).length * (cache.numBlocks * cache.blockBytes elementSize)

/-- The layout entry `register_kv_caches` makes of a cache. -/
def layer (tpSize : Nat) (cache : KVCache) : LayerLayout :=
  match cache.shape with
  | .kv heads tokens dim => .kv cache.dtype (heads * tpSize) tokens dim
  | .latent tokens dim => .latent cache.dtype tokens dim

end KVCache

/-- `num_heads`: every rank's key heads together; 0 for a model of latents only. -/
def totalHeads (tpSize : Nat) (caches : List KVCache) : Nat :=
  caches.foldl (fun total cache =>
    match cache.shape with
    | .kv heads _ _ => heads * tpSize
    | .latent _ _ => total) 0

/-- The regions of a rank's caches. -/
def registered (elementSize : String → Nat) (caches : List KVCache) : List Region :=
  caches.flatMap (KVCache.regions elementSize)

/-- What one rank's caches are: every layer of keys and values has its part of the same
heads, nothing is empty, and no two caches share memory. -/
structure Caches (elementSize : String → Nat) (tpSize numBlocks : Nat) (caches : List KVCache) :
    Prop where
  some : caches ≠ []
  heads : ∀ cache ∈ caches, ∀ heads tokens dim, cache.shape = .kv heads tokens dim →
    heads * tpSize = totalHeads tpSize caches
  blocks : ∀ cache ∈ caches, cache.numBlocks = numBlocks
  sized : ∀ cache ∈ caches, 0 < cache.blockBytes elementSize
  below : ∀ cache ∈ caches, cache.dataPtr + cache.size elementSize ≤ 2 ^ 64
  apart : caches.Pairwise fun first second =>
    first.dataPtr + first.size elementSize ≤ second.dataPtr ∨
      second.dataPtr + second.size elementSize ≤ first.dataPtr

/-! ## Rows of the two sides -/

section Sides

variable {elementSize : String → Nat} {tpSize remoteTpSize : Nat}

/-- The regions that one read of the two sides runs through together. -/
def Region.Pairs (region other : Region) : Prop :=
  region.headBytes = other.headBytes ∧
    (region.headBytes = 0 → region.blockBytes = other.blockBytes)

theorem KVCache.regions_pair {cache other : KVCache}
    (layout : cache.layer tpSize = other.layer remoteTpSize) :
    List.Forall₂ Region.Pairs (cache.regions elementSize) (other.regions elementSize) := by
  cases shape : cache.shape with
  | kv heads tokens dim =>
      cases shape' : other.shape with
      | kv heads' tokens' dim' =>
          simp only [layer, shape, shape', LayerLayout.kv.injEq] at layout
          obtain ⟨dtype, _, rfl, rfl⟩ := layout
          have bytes : cache.headBytes elementSize = other.headBytes elementSize := by
            simp only [headBytes, shape, shape', dtype]
          have pairs : ∀ addr addr', Region.Pairs
              ⟨addr, cache.blockBytes elementSize, cache.headBytes elementSize⟩
              ⟨addr', other.blockBytes elementSize, other.headBytes elementSize⟩ := by
            refine fun _ _ => ⟨bytes, fun none => ?_⟩
            have none : cache.headBytes elementSize = 0 := none
            simp only [blockBytes, ← bytes, none, Nat.mul_zero]
          simp only [regions, shape, shape']
          exact .cons (pairs _ _) (.cons (pairs _ _) .nil)
      | latent => simp [layer, shape, shape'] at layout
  | latent tokens dim =>
      cases shape' : other.shape with
      | kv => simp [layer, shape, shape'] at layout
      | latent tokens' dim' =>
          simp only [layer, shape, shape', LayerLayout.latent.injEq] at layout
          obtain ⟨dtype, rfl, rfl⟩ := layout
          simp only [regions, shape, shape']
          refine .cons ⟨rfl, fun _ => ?_⟩ .nil
          simp only [blockBytes, headBytes, KVCache.heads, shape, shape', dtype]

theorem registered_pair {caches others : List KVCache}
    (layout : caches.map (KVCache.layer tpSize) = others.map (KVCache.layer remoteTpSize)) :
    List.Forall₂ Region.Pairs (registered elementSize caches) (registered elementSize others) := by
  induction caches generalizing others with
  | nil =>
      rw [List.map_nil, eq_comm, List.map_eq_nil_iff] at layout
      subst layout
      exact .nil
  | cons cache rest ih =>
      cases others with
      | nil => simp at layout
      | cons other rest' =>
          rw [List.map_cons, List.map_cons, List.cons.injEq] at layout
          exact List.rel_append (KVCache.regions_pair layout.1) (ih layout.2)

/-- Both sides count the same heads. -/
theorem totalHeads_eq {caches others : List KVCache}
    (layout : caches.map (KVCache.layer tpSize) = others.map (KVCache.layer remoteTpSize)) :
    totalHeads tpSize caches = totalHeads remoteTpSize others := by
  have counted : ∀ (size : Nat) (some : List KVCache) (total : Nat),
      some.foldl (fun total cache =>
        match cache.shape with
        | .kv heads _ _ => heads * size
        | .latent _ _ => total) total =
      (some.map (KVCache.layer size)).foldl (fun total layer =>
        match layer with
        | .kv _ numHeads _ _ => numHeads
        | .latent _ _ _ => total) total := by
    intro size some total
    rw [List.foldl_map]
    congr 1
    funext total cache
    cases shape : cache.shape <;> simp [KVCache.layer, shape]
  rw [totalHeads, totalHeads, counted, counted, layout]

/-- Regions of the two sides give rows of equal lengths. -/
theorem Region.Pairs.lengths {region other : Region} (pairs : region.Pairs other)
    {blockIds remoteIds : List Int} (aligned : blockIds.length = remoteIds.length)
    (first first' numHeads : Int) (latents : Bool) (device device' : Nat) :
    (region.rows blockIds first numHeads latents device).map Desc.length =
      (other.rows remoteIds first' numHeads latents device').map Desc.length := by
  have constant : ∀ (ids ids' : List Int) (f g : Int → Desc) (value : Int),
      ids.length = ids'.length → (∀ id, (f id).length = value) → (∀ id, (g id).length = value) →
        (ids.map f).map Desc.length = (ids'.map g).map Desc.length := by
    intro ids ids' f g value equal left right
    rw [List.map_map, List.map_map]
    have first : ids.map (Desc.length ∘ f) = List.replicate ids.length value :=
      List.eq_replicate_iff.mpr ⟨List.length_map _, by simp [left]⟩
    have second : ids'.map (Desc.length ∘ g) = List.replicate ids'.length value :=
      List.eq_replicate_iff.mpr ⟨List.length_map _, by simp [right]⟩
    rw [first, second, equal]
  obtain ⟨same, whole⟩ := pairs
  unfold rows
  rw [← same]
  split
  · exact constant _ _ _ _ (numHeads * region.headBytes) aligned (fun _ => rfl) fun _ => rfl
  · rename_i latent
    split
    · refine constant _ _ _ _ region.blockBytes aligned (fun _ => rfl) fun _ => ?_
      rw [whole (by simpa using latent)]
    · rfl

theorem lengths_of_pairs {regions others : List Region}
    (pairs : List.Forall₂ Region.Pairs regions others) {blockIds remoteIds : List Int}
    (aligned : blockIds.length = remoteIds.length) (first first' numHeads : Int)
    (latents : Bool) (device device' : Nat) :
    (regions.flatMap fun region =>
        region.rows blockIds first numHeads latents device).map Desc.length =
      (others.flatMap fun region =>
        region.rows remoteIds first' numHeads latents device').map Desc.length := by
  induction pairs with
  | nil => rfl
  | cons pair _ ih =>
      rw [List.flatMap_cons, List.flatMap_cons, List.map_append, List.map_append, ih,
        pair.lengths aligned first first' numHeads latents device device']

end Sides

/-! ## What the rows cover -/

section Cover

/-- The bytes of one head of a block, or of a whole block of latents. -/
def Region.piece (region : Region) (block head : Int) : Int × Int :=
  if region.headBytes ≠ 0 then
    (region.addr + block * region.blockBytes + head * region.headBytes, region.headBytes)
  else (region.addr + block * region.blockBytes, region.blockBytes)

/-- A row reads all of these bytes. -/
def Desc.covers (piece : Int × Int) (row : Desc) : Bool :=
  row.addr ≤ piece.1 ∧ piece.1 + piece.2 ≤ row.addr + row.length

/-- Some bytes lie within a block of a region. -/
def Region.Within (region : Region) (block addr length : Int) : Prop :=
  region.addr + block * region.blockBytes ≤ addr ∧
    addr + length ≤ region.addr + (block + 1) * region.blockBytes

/-- No block of the one region overlaps a block of the other. -/
def Region.Apart (numBlocks : Nat) (region other : Region) : Prop :=
  region.addr + numBlocks * region.blockBytes ≤ other.addr ∨
    other.addr + numBlocks * other.blockBytes ≤ region.addr

/-- A region of a rank that has `share` of the heads. -/
structure Region.Holds (share : Int) (region : Region) : Prop where
  sized : 0 < region.blockBytes
  heads : region.headBytes ≠ 0 → (region.blockBytes : Int) = share * region.headBytes

variable {region other : Region} {numBlocks : Nat} {share : Int}

instance : Std.Symm (Region.Apart numBlocks) where
  symm _ _ apart := Or.symm apart

/-- A share's heads of a block lie within it. -/
theorem Region.within_heads (holds : region.Holds share) (kv : region.headBytes ≠ 0)
    {first numHeads : Int} (nonneg : 0 ≤ first) (bound : first + numHeads ≤ share) (block : Int) :
    region.Within block (region.addr + first * region.headBytes + block * region.blockBytes)
      (numHeads * region.headBytes) := by
  have next : (block + 1) * region.blockBytes =
      block * region.blockBytes + region.blockBytes := by ring
  have low : 0 ≤ first * region.headBytes := Int.mul_nonneg nonneg (by omega)
  have high : (first + numHeads) * region.headBytes ≤ share * region.headBytes :=
    Int.mul_le_mul_of_nonneg_right bound (by omega)
  rw [Int.add_mul] at high
  have bytes := holds.heads kv
  constructor <;> omega

theorem Region.within_block (region : Region) (block : Int) :
    region.Within block (region.addr + block * region.blockBytes) region.blockBytes := by
  refine ⟨Int.le_refl _, ?_⟩
  rw [Int.add_mul, Int.one_mul]
  omega

/-- Every row of a share lies within one of the listed blocks. -/
theorem Region.within_of_mem_rows (holds : region.Holds share) {blockIds : List Int}
    {first numHeads : Int} (nonneg : 0 ≤ first) (bound : first + numHeads ≤ share)
    {latents : Bool} {device : Nat} {row : Desc}
    (member : row ∈ region.rows blockIds first numHeads latents device) :
    ∃ block ∈ blockIds, region.Within block row.addr row.length := by
  unfold rows at member
  split at member
  · rename_i kv
    obtain ⟨block, listed, rfl⟩ := List.mem_map.mp member
    exact ⟨block, listed, region.within_heads holds kv nonneg bound block⟩
  · split at member
    · obtain ⟨block, listed, rfl⟩ := List.mem_map.mp member
      exact ⟨block, listed, region.within_block block⟩
    · exact absurd member List.not_mem_nil

/-- A piece lies within its block. -/
theorem Region.within_piece (holds : region.Holds share) (block : Int) {head : Int}
    (nonneg : 0 ≤ head) (below : head < share) :
    region.Within block (region.piece block head).1 (region.piece block head).2 ∧
      0 < (region.piece block head).2 := by
  have next : (block + 1) * region.blockBytes =
      block * region.blockBytes + region.blockBytes := by ring
  have sized := holds.sized
  unfold piece Within
  split
  · rename_i kv
    have low : 0 ≤ head * region.headBytes := Int.mul_nonneg nonneg (by omega)
    have high : (head + 1) * region.headBytes ≤ share * region.headBytes :=
      Int.mul_le_mul_of_nonneg_right (by omega) (by omega)
    rw [Int.add_mul, Int.one_mul] at high
    have bytes := holds.heads kv
    simp only
    omega
  · simp only
    omega

/-- Blocks that share bytes are the same block. -/
theorem Region.Within.block_eq {block block' addr addr' length length' : Int}
    (sized : 0 < region.blockBytes) (some : 0 < length') (within : region.Within block addr length)
    (within' : region.Within block' addr' length')
    (covers : addr ≤ addr' ∧ addr' + length' ≤ addr + length) : block' = block := by
  obtain ⟨low, high⟩ := within
  obtain ⟨low', high'⟩ := within'
  have above : block * region.blockBytes < (block' + 1) * region.blockBytes := by omega
  have below : block' * region.blockBytes < (block + 1) * region.blockBytes := by omega
  have first := Int.lt_of_mul_lt_mul_right above (by omega)
  have second := Int.lt_of_mul_lt_mul_right below (by omega)
  omega

/-- Regions apart share no bytes. -/
theorem Region.Apart.not_covers (apart : region.Apart numBlocks other)
    {block block' addr addr' length length' : Int} (listed : 0 ≤ block ∧ block < numBlocks)
    (listed' : 0 ≤ block' ∧ block' < numBlocks) (some : 0 < length')
    (within : region.Within block addr length) (within' : other.Within block' addr' length') :
    ¬ (addr ≤ addr' ∧ addr' + length' ≤ addr + length) := by
  obtain ⟨low, high⟩ := within
  obtain ⟨low', high'⟩ := within'
  have start : 0 ≤ block * region.blockBytes := Int.mul_nonneg listed.1 (by omega)
  have start' : 0 ≤ block' * other.blockBytes := Int.mul_nonneg listed'.1 (by omega)
  have stop : (block + 1) * region.blockBytes ≤ numBlocks * region.blockBytes :=
    Int.mul_le_mul_of_nonneg_right (by omega) (by omega)
  have stop' : (block' + 1) * other.blockBytes ≤ numBlocks * other.blockBytes :=
    Int.mul_le_mul_of_nonneg_right (by omega) (by omega)
  rintro ⟨before, after⟩
  rcases apart with apart | apart <;> omega

/-- The rows of a share read this head of a region, or its latents. -/
def Region.Reads (region : Region) (first numHeads : Int) (latents : Bool) (head : Int) : Prop :=
  (region.headBytes ≠ 0 ∧ first ≤ head ∧ head < first + numHeads) ∨
    (region.headBytes = 0 ∧ latents = true)

instance (region : Region) (first numHeads : Int) (latents : Bool) (head : Int) :
    Decidable (region.Reads first numHeads latents head) :=
  inferInstanceAs (Decidable (_ ∨ _))

/-- The rows of a region cover a piece of it once, if they are about its head. -/
theorem Region.countP_rows (holds : region.Holds share) {blockIds : List Int}
    (distinct : blockIds.Nodup) {first numHeads : Int} (nonneg : 0 ≤ first)
    (bound : first + numHeads ≤ share) (latents : Bool) (device : Nat) {block head : Int}
    (listed : block ∈ blockIds) (headNonneg : 0 ≤ head) (headLt : head < share) :
    (region.rows blockIds first numHeads latents device).countP
        (Desc.covers (region.piece block head)) =
      if region.Reads first numHeads latents head then 1 else 0 := by
  have inside := fun (row : Desc) (other : Int) (within : region.Within other row.addr row.length)
      (covers : Desc.covers (region.piece block head) row = true) =>
    within.block_eq holds.sized (region.within_piece holds block headNonneg headLt).2
      (region.within_piece holds block headNonneg headLt).1 (by simpa [Desc.covers] using covers)
  unfold rows
  split
  · rename_i kv
    rw [List.countP_map]
    have bytes : 0 < (region.headBytes : Int) := by omega
    refine countP_eq_of_unique distinct listed fun other among => ?_
    simp only [Function.comp_apply]
    constructor
    · intro covers
      have within := region.within_heads holds kv nonneg bound other
      have same := inside _ other within covers
      subst same
      refine ⟨rfl, Or.inl ⟨kv, ?_⟩⟩
      simp only [Desc.covers, piece, if_pos kv, decide_eq_true_eq] at covers
      have low : first * region.headBytes ≤ head * region.headBytes := by omega
      have high : (head + 1) * region.headBytes ≤ (first + numHeads) * region.headBytes := by
        rw [Int.add_mul, Int.add_mul, Int.one_mul]
        omega
      have lower := Int.le_of_mul_le_mul_right low bytes
      have upper := Int.le_of_mul_le_mul_right high bytes
      omega
    · rintro ⟨rfl, reads⟩
      obtain ⟨_, lower, upper⟩ := reads.resolve_right fun latent => kv latent.1
      have low : first * region.headBytes ≤ head * region.headBytes :=
        Int.mul_le_mul_of_nonneg_right lower bytes.le
      have high : (head + 1) * region.headBytes ≤ (first + numHeads) * region.headBytes :=
        Int.mul_le_mul_of_nonneg_right (by omega) bytes.le
      rw [Int.add_mul, Int.add_mul, Int.one_mul] at high
      simp only [Desc.covers, piece, if_pos kv, decide_eq_true_eq]
      omega
  · rename_i latent
    have none : region.headBytes = 0 := by simpa using latent
    split
    · rename_i read
      rw [List.countP_map]
      refine countP_eq_of_unique distinct listed fun other among => ?_
      simp only [Function.comp_apply]
      constructor
      · intro covers
        exact ⟨(inside _ other (region.within_block other) covers).symm, Or.inr ⟨none, read⟩⟩
      · rintro ⟨rfl, _⟩
        simp [Desc.covers, piece, none]
    · rename_i unread
      rw [if_neg]
      · rfl
      · rintro (⟨kv, _⟩ | ⟨_, read⟩)
        · exact kv none
        · exact unread read

/-- The rows of one share. -/
def shareRows (regions : List Region) (blockIds : List Int) (device : Nat)
    (share : Share × Nat) : List Desc :=
  regions.flatMap fun region =>
    region.rows blockIds share.1.localHead share.1.numHeads (share.2 = 0) device

variable {regions : List Region} {blockIds : List Int} {device : Nat} {rank remote : Int}

theorem countP_shareRows (distinctRegions : regions.Nodup)
    (apart : ∀ region ∈ regions, ∀ other ∈ regions, region ≠ other → region.Apart numBlocks other)
    (holds : ∀ region ∈ regions, region.Holds share) (distinct : blockIds.Nodup)
    (listed : ∀ block ∈ blockIds, 0 ≤ block ∧ block < numBlocks) {planned : Share × Nat}
    (fits : planned.1.Fits rank share remote) (member : region ∈ regions) {block head : Int}
    (blockMember : block ∈ blockIds) (headNonneg : 0 ≤ head) (headLt : head < share) :
    (shareRows regions blockIds device planned).countP
        (Desc.covers (region.piece block head)) =
      if region.Reads planned.1.localHead planned.1.numHeads (planned.2 = 0) head then 1 else 0 := by
  rw [shareRows, countP_flatMap_eq distinctRegions member]
  · exact region.countP_rows (holds region member) distinct fits.local_nonneg fits.local_le _ _
      blockMember headNonneg headLt
  · intro other otherMember different
    rw [List.countP_eq_zero]
    intro row among covers
    obtain ⟨block', listed', within⟩ := other.within_of_mem_rows (holds other otherMember)
      fits.local_nonneg fits.local_le among
    obtain ⟨within', some⟩ :=
      region.within_piece (holds region member) block headNonneg headLt
    exact (apart other otherMember region member different).not_covers (listed _ listed')
      (listed _ blockMember) some within within' (by simpa [Desc.covers] using covers)

/-- Over all shares of a rank, every head of every listed block of every region, and
every listed block of latents, is read exactly once. -/
theorem countP_plan_eq_one (sharePositive : 0 < share) (remotePositive : 0 < remote)
    (distinctRegions : regions.Nodup)
    (apart : ∀ region ∈ regions, ∀ other ∈ regions, region ≠ other → region.Apart numBlocks other)
    (holds : ∀ region ∈ regions, region.Holds share) (distinct : blockIds.Nodup)
    (listed : ∀ block ∈ blockIds, 0 ≤ block ∧ block < numBlocks) (member : region ∈ regions)
    {block head : Int} (blockMember : block ∈ blockIds) (headNonneg : 0 ≤ head)
    (headLt : head < share) :
    ((sharePlan rank share remote).zipIdx.flatMap
      (shareRows regions blockIds device)).countP (Desc.covers (region.piece block head)) = 1 := by
  have counts : ∀ planned ∈ (sharePlan rank share remote).zipIdx,
      (shareRows regions blockIds device planned).countP
        (Desc.covers (region.piece block head)) =
      if region.Reads planned.1.localHead planned.1.numHeads (planned.2 = 0) head
        then 1 else 0 := by
    intro planned among
    have fits := fits_of_mem_sharePlan sharePositive remotePositive
      (List.fst_mem_of_mem_zipIdx among)
    exact countP_shareRows distinctRegions apart holds distinct listed fits member blockMember
      headNonneg headLt
  have total : ((sharePlan rank share remote).zipIdx.flatMap
        (shareRows regions blockIds device)).countP (Desc.covers (region.piece block head)) =
      (sharePlan rank share remote).zipIdx.countP fun planned =>
        region.Reads planned.1.localHead planned.1.numHeads (planned.2 = 0) head := by
    rw [List.countP_flatMap, ← sum_map_ite]
    exact congrArg List.sum (List.map_congr_left counts)
  have tiles := sharePlan_tiles rank sharePositive remotePositive
  have among : head ∈ Int.range 0 share := Int.mem_range_iff.mpr ⟨headNonneg, headLt⟩
  rw [total]
  by_cases kv : region.headBytes ≠ 0
  · -- the heads of the shares are each head once
    have once := List.count_eq_one_of_mem (nodup_range 0 share) among
    rw [← tiles, List.count_flatMap] at once
    have single : ∀ s : Share,
        (Int.range s.localHead (s.localHead + s.numHeads)).count head =
          if s.localHead ≤ head ∧ head < s.localHead + s.numHeads then 1 else 0 := by
      intro s
      rw [(nodup_range _ _).count]
      simp only [Int.mem_range_iff]
    have summed : (sharePlan rank share remote).countP (fun s =>
        s.localHead ≤ head ∧ head < s.localHead + s.numHeads) = 1 := by
      rw [← sum_map_ite]
      exact (congrArg List.sum (List.map_congr_left fun s _ => (single s).symm)).trans once
    rw [← List.zipIdx_map_fst 0 (sharePlan rank share remote), List.countP_map] at summed
    rw [← summed]
    refine List.countP_congr fun planned _ => ?_
    simp [Region.Reads, kv]
  · -- latents come whole from the first producer rank
    rw [not_not] at kv
    have some : 0 < (sharePlan rank share remote).length := by
      rw [List.length_pos_iff]
      intro empty
      rw [← tiles, empty] at among
      exact absurd among List.not_mem_nil
    have first : (List.range' 0 (sharePlan rank share remote).length).countP (· = 0) =
        if True then 1 else 0 := by
      refine countP_eq_of_unique (List.nodup_range' 1) (List.mem_range'_1.mpr ⟨Nat.le_refl 0, ?_⟩)
        fun value _ => by simp
      rw [Nat.zero_add]
      exact some
    rw [← List.zipIdx_map_snd, List.countP_map, if_pos trivial] at first
    rw [← first]
    refine List.countP_congr fun planned _ => ?_
    simp [Region.Reads, kv]

end Cover

/-! ## The regions of a rank -/

section Registered

variable {elementSize : String → Nat} {tpSize numBlocks : Nat} {caches : List KVCache}

theorem Caches.holds (isCaches : Caches elementSize tpSize numBlocks caches)
    (tpPositive : 0 < tpSize) {share : Nat}
    (split : totalHeads tpSize caches ≠ 0 → tpSize * share = totalHeads tpSize caches)
    {region : Region} (member : region ∈ registered elementSize caches) :
    region.Holds share := by
  obtain ⟨cache, among, part⟩ := List.mem_flatMap.mp member
  have sized := isCaches.sized cache among
  cases shape : cache.shape with
  | kv heads tokens dim =>
      have all := isCaches.heads cache among heads tokens dim shape
      have bytes : cache.blockBytes elementSize = heads * cache.headBytes elementSize := by
        simp only [KVCache.blockBytes, KVCache.heads, shape]
      have some : 0 < heads := by
        rcases Nat.eq_zero_or_pos heads with rfl | some
        · omega
        · exact some
      have same : heads = share := by
        have total := split (by rw [← all]; exact (Nat.mul_pos some tpPositive).ne')
        rw [← all, Nat.mul_comm heads] at total
        exact (Nat.eq_of_mul_eq_mul_left tpPositive total).symm
      simp only [KVCache.regions, shape, List.mem_cons, List.not_mem_nil, or_false] at part
      have cast : (cache.blockBytes elementSize : Int) =
          share * cache.headBytes elementSize := by
        rw [bytes, same]
        exact Int.natCast_mul _ _
      rcases part with rfl | rfl
      · exact ⟨sized, fun _ => cast⟩
      · exact ⟨sized, fun _ => cast⟩
  | latent tokens dim =>
      simp only [KVCache.regions, shape, List.mem_cons, List.not_mem_nil, or_false] at part
      subst part
      exact ⟨sized, fun kv => absurd rfl kv⟩

theorem Caches.numBlocks_le (isCaches : Caches elementSize tpSize numBlocks caches) :
    numBlocks ≤ 2 ^ 64 := by
  obtain ⟨cache, among⟩ := List.exists_mem_of_ne_nil caches isCaches.some
  have blocks := isCaches.blocks cache among
  have sized := isCaches.sized cache among
  have below := isCaches.below cache among
  have parts : 0 < (cache.regions elementSize).length := by
    unfold KVCache.regions
    split <;> simp
  have whole : numBlocks ≤ cache.numBlocks * cache.blockBytes elementSize := by
    rw [blocks]
    exact Nat.le_mul_of_pos_right _ sized
  have size : cache.numBlocks * cache.blockBytes elementSize ≤ cache.size elementSize :=
    Nat.le_mul_of_pos_left _ parts
  omega

/-- The parts of a cache lie within its memory, one behind the other. -/
theorem KVCache.regions_within (cache : KVCache) {region : Region}
    (part : region ∈ cache.regions elementSize) :
    cache.dataPtr ≤ region.addr ∧ region.addr + cache.numBlocks * region.blockBytes ≤
      cache.dataPtr + cache.size elementSize := by
  cases shape : cache.shape with
  | kv heads tokens dim =>
      simp only [regions, shape, List.mem_cons, List.not_mem_nil, or_false] at part
      simp only [size, regions, shape, List.length_cons, List.length_nil]
      rcases part with rfl | rfl <;> simp only <;> omega
  | latent tokens dim =>
      simp only [regions, shape, List.mem_cons, List.not_mem_nil, or_false] at part
      simp only [size, regions, shape, List.length_cons, List.length_nil]
      subst part
      simp only
      omega

theorem Caches.apart_registered (isCaches : Caches elementSize tpSize numBlocks caches) :
    (registered elementSize caches).Pairwise (Region.Apart numBlocks) := by
  rw [registered, List.pairwise_flatMap]
  constructor
  · intro cache among
    have blocks := isCaches.blocks cache among
    cases shape : cache.shape with
    | kv heads tokens dim =>
        simp only [KVCache.regions, shape, List.pairwise_cons, List.mem_singleton, forall_eq,
          List.not_mem_nil, false_implies, implies_true, List.Pairwise.nil, and_true]
        exact Or.inl (by rw [blocks])
    | latent tokens dim => simp [KVCache.regions, shape]
  · refine isCaches.apart.imp_of_mem ?_
    intro first second firstMem secondMem apart region part other part'
    have within := first.regions_within part
    have within' := second.regions_within part'
    rw [isCaches.blocks first firstMem] at within
    rw [isCaches.blocks second secondMem] at within'
    rcases apart with before | after
    · exact Or.inl (by omega)
    · exact Or.inr (by omega)

theorem Caches.nodup_registered (isCaches : Caches elementSize tpSize numBlocks caches)
    (some : 0 < numBlocks) : (registered elementSize caches).Nodup := by
  refine isCaches.apart_registered.imp_of_mem ?_
  rintro region other member _ apart rfl
  obtain ⟨cache, among, part⟩ := List.mem_flatMap.mp member
  have sized : 0 < region.blockBytes := by
    have sized := isCaches.sized cache among
    cases shape : cache.shape with
    | kv heads tokens dim =>
        simp only [KVCache.regions, shape, List.mem_cons, List.not_mem_nil, or_false] at part
        rcases part with rfl | rfl <;> exact sized
    | latent tokens dim =>
        simp only [KVCache.regions, shape, List.mem_cons, List.not_mem_nil, or_false] at part
        subst part
        exact sized
  have bytes := Nat.mul_pos some sized
  rcases apart with before | before <;> omega

end Registered

end LeanVllm
