import LeanVllm.Attention.TorchBackend

/-!
# A layer's step

A step stores its keys and values by slot, and then attends: `forward` sends the
leading rows with one query through `decode` and the others through `prefill`.
However a batch splits, each row attends its own positions, as it would if the whole
batch went through `prefill`.
-/

namespace LeanVllm

open Collections Numeric

namespace TorchAttention

variable {numKvHeads group headDim vDim : Nat}

/-- The page and the offset of a slot. -/
def pageOf (blockSize : Nat) (slot : Int) : Nat × Nat :=
  (slot.toNat / blockSize, slot.toNat % blockSize)

/-- `store_kvcache`.  Negative slots are skipped. -/
def storeKvcache {α β : Type} (key : List α) (value : List β) (kCache : Pages α)
    (vCache : Pages β) (slotMapping : List Int) : Option (Pages α × Pages β) :=
  if slotMapping.length = key.length ∧ slotMapping.length = value.length then do
    let kept := (slotMapping.zip (key.zip value)).filter fun token => 0 ≤ token.1
    let kStored ← kCache.writeAll (kept.map fun token =>
      (pageOf kCache.blockSize token.1, token.2.1))
    let vStored ← vCache.writeAll (kept.map fun token =>
      (pageOf kCache.blockSize token.1, token.2.2))
    some (kStored, vStored)
  else none

/-- `AttentionBackend.forward` of a backend that splits.  The two halves write one
output. -/
noncomputable def forward (scale : ℝ) (q : List (Heads (numKvHeads * group) headDim))
    (k : List (Heads numKvHeads headDim)) (v : List (Heads numKvHeads vDim))
    (kCache : Pages (Heads numKvHeads headDim)) (vCache : Pages (Heads numKvHeads vDim))
    (context : AttentionContext) : Option (List (Heads (numKvHeads * group) vDim)) :=
  if context.isPrefill = false then decode scale q kCache vCache context
  else
    match context.splitDecodesAndPrefills 1 with
    | (_, none, none) => none
    | (_, none, some prefills) => prefill scale q k v kCache vCache prefills
    | (_, some decodes, none) => decode scale q kCache vCache decodes
    | (n, some decodes, some prefills) => do
        let first ← decode scale (q.take n) kCache vCache decodes
        let rest ← prefill scale (q.drop n) (k.drop n) (v.drop n) kCache vCache prefills
        some (first ++ rest)

/-! ## What a step stores -/

section Store

variable {α β : Type} {key : List α} {value : List β} {kCache kStored : Pages α}
  {vCache vStored : Pages β} {slots : List Int}

/-- Pages after a step's tokens are written by slot: each holds its token, and what no
slot names is as before. -/
structure Stores (before after : Pages α) (blockSize : Nat) (slots : List Int) (tokens : List α) :
    Prop where
  size : after.blockSize = before.blockSize
  blocks : after.blocks.length = before.blocks.length
  written : ∀ {i : Nat} {slot : Int} {token : α}, slots[i]? = some slot → tokens[i]? = some token →
    after.read (pageOf blockSize slot).1 (pageOf blockSize slot).2 = some token
  kept : ∀ place ∉ slots.map (pageOf blockSize),
    after.read place.1 place.2 = before.read place.1 place.2

/-- Slots of the pages, none twice, take their tokens. -/
theorem writeAll_stores {tokens : List α} {cache : Pages α} {blockSize : Nat}
    (counted : slots.length = tokens.length)
    (inside : ∀ slot ∈ slots, (pageOf blockSize slot).1 < cache.blocks.length ∧
      (pageOf blockSize slot).2 < cache.blockSize)
    (distinct : (slots.map (pageOf blockSize)).Nodup) :
    ∃ after, cache.writeAll ((slots.zip tokens).map fun token =>
        (pageOf blockSize token.1, token.2)) = some after ∧
      Stores cache after blockSize slots tokens := by
  have places : ((slots.zip tokens).map fun token => (pageOf blockSize token.1, token.2)).map
      Prod.fst = slots.map (pageOf blockSize) := by
    rw [List.map_map]
    conv_rhs => rw [← List.map_fst_zip (Nat.le_of_eq counted), List.map_map]
    rfl
  have fits : ∀ entry ∈ (slots.zip tokens).map (fun token => (pageOf blockSize token.1, token.2)),
      entry.1.1 < cache.blocks.length ∧ entry.1.2 < cache.blockSize := by
    intro entry member
    obtain ⟨token, among, rfl⟩ := List.mem_map.mp member
    exact inside token.1 (List.of_mem_zip among).1
  obtain ⟨after, written, shape, kept, stored⟩ := cache.writeAll_spec fits
  rw [places] at kept stored
  refine ⟨after, written, shape.1, shape.2, ?_, kept⟩
  intro i slot token there own
  refine stored distinct (pageOf blockSize slot, token) (List.mem_map.mpr ⟨(slot, token), ?_, rfl⟩)
  exact List.mem_of_getElem? (List.getElem?_zip_eq_some.mpr ⟨there, own⟩)

theorem storeKvcache_stores (keyed : slots.length = key.length) (valued : slots.length = value.length)
    (positive : ∀ slot ∈ slots, 0 ≤ slot) (size : 0 < kCache.blockSize)
    (same : vCache.blockSize = kCache.blockSize)
    (keyBlocks : ∀ slot ∈ slots, (pageOf kCache.blockSize slot).1 < kCache.blocks.length)
    (valueBlocks : ∀ slot ∈ slots, (pageOf kCache.blockSize slot).1 < vCache.blocks.length)
    (distinct : (slots.map (pageOf kCache.blockSize)).Nodup) :
    ∃ kStored vStored, storeKvcache key value kCache vCache slots = some (kStored, vStored) ∧
      Stores kCache kStored kCache.blockSize slots key ∧
      Stores vCache vStored kCache.blockSize slots value := by
  have inPage : ∀ slot : Int, (pageOf kCache.blockSize slot).2 < kCache.blockSize :=
    fun slot => Nat.mod_lt _ size
  obtain ⟨kStored, kWritten, kStores⟩ := writeAll_stores keyed
    (fun slot member => ⟨keyBlocks slot member, inPage slot⟩) distinct
  obtain ⟨vStored, vWritten, vStores⟩ := writeAll_stores valued
    (fun slot member => ⟨valueBlocks slot member, same ▸ inPage slot⟩) distinct
  refine ⟨kStored, vStored, ?_, kStores, vStores⟩
  have all : (slots.zip (key.zip value)).filter (fun token => 0 ≤ token.1) =
      slots.zip (key.zip value) := by
    rw [List.filter_eq_self]
    intro token member
    simpa using positive token.1 (List.of_mem_zip member).1
  have keys : (slots.zip (key.zip value)).map (fun token =>
      (pageOf kCache.blockSize token.1, token.2.1)) =
      (slots.zip key).map fun token => (pageOf kCache.blockSize token.1, token.2) := by
    apply List.ext_getElem
    · simp only [List.length_map, List.length_zip]
      omega
    · intro i _ _
      simp
  have values : (slots.zip (key.zip value)).map (fun token =>
      (pageOf kCache.blockSize token.1, token.2.2)) =
      (slots.zip value).map fun token => (pageOf kCache.blockSize token.1, token.2) := by
    apply List.ext_getElem
    · simp only [List.length_map, List.length_zip]
      omega
    · intro i _ _
      simp
  rw [storeKvcache, if_pos ⟨keyed, valued⟩]
  simp only [all, keys, values, kWritten, vWritten, Option.bind_eq_bind, Option.bind_some]

end Store

/-! ## Rows of a step -/

section Rows

variable {ρ : Type*} {rows : List ρ} {queries : ρ → List (Heads (numKvHeads * group) headDim)}
  {seqlenK : ρ → Nat} {table : ρ → List Int} {context : AttentionContext}
  {kCache : Pages (Heads numKvHeads headDim)} {vCache : Pages (Heads numKvHeads vDim)}

/-- A context that the host built of these rows, all lengths exact. -/
structure Lays {α : Type*} (context : AttentionContext) (rows : List ρ) (queries : ρ → List α)
    (seqlenK : ρ → Nat) (table : ρ → List Int) : Prop where
  cuSeqlensQ : context.cuSeqlensQ = cumsum (rows.map fun row => (queries row).length)
  cuSeqlensK : context.cuSeqlensK = cumsum (rows.map seqlenK)
  cuSeqlensQHost : context.cuSeqlensQHost = context.cuSeqlensQ
  cuSeqlensKHost : context.cuSeqlensKHost = context.cuSeqlensK
  maxSeqlenQ : context.maxSeqlenQ = (rows.map fun row => (queries row).length).foldl max 0
  maxSeqlenK : context.maxSeqlenK = (rows.map seqlenK).foldl max 0
  contextLens : context.contextLens = rows.map seqlenK
  blockTables : context.blockTables = some (rows.map table)

/-- Rows with some queries, whose tables can be read. -/
structure Attends {α β γ : Type*} (rows : List ρ) (queries : ρ → List α) (seqlenK : ρ → Nat)
    (table : ρ → List Int) (width : Nat) (kCache : Pages β) (vCache : Pages γ) : Prop where
  positive : ∀ row ∈ rows, 0 < (queries row).length
  causal : ∀ row ∈ rows, (queries row).length ≤ seqlenK row
  uniform : ∀ row ∈ rows, (table row).length = width
  fits : ∀ row ∈ rows, seqlenK row ≤ width * kCache.blockSize
  sameSize : vCache.blockSize = kCache.blockSize
  keyBlocks : ∀ row ∈ rows, ∀ block ∈ table row, block.toNat < kCache.blocks.length
  valueBlocks : ∀ row ∈ rows, ∀ block ∈ table row, block.toNat < vCache.blocks.length

theorem Attends.sub {α β γ : Type*} {queries : ρ → List α} {width : Nat} {kCache : Pages β}
    {vCache : Pages γ} {others : List ρ}
    (attends : Attends rows queries seqlenK table width kCache vCache)
    (within : ∀ row ∈ others, row ∈ rows) :
    Attends others queries seqlenK table width kCache vCache where
  positive row member := attends.positive row (within row member)
  causal row member := attends.causal row (within row member)
  uniform row member := attends.uniform row (within row member)
  fits row member := attends.fits row (within row member)
  sameSize := attends.sameSize
  keyBlocks row member := attends.keyBlocks row (within row member)
  valueBlocks row member := attends.valueBlocks row (within row member)

variable {width : Nat}

theorem Attends.keys (attends : Attends rows queries seqlenK table width kCache vCache)
    {seqlen : Nat} (short : seqlen ≤ width * kCache.blockSize) :
    Readable kCache (rows.map table) seqlen := by
  constructor
  · intro entries member
    obtain ⟨row, among, rfl⟩ := List.mem_map.mp member
    rw [attends.uniform row among]
    exact short
  · intro entries member
    obtain ⟨row, among, rfl⟩ := List.mem_map.mp member
    exact attends.keyBlocks row among

theorem Attends.values (attends : Attends rows queries seqlenK table width kCache vCache)
    {seqlen : Nat} (short : seqlen ≤ width * kCache.blockSize) :
    Readable vCache (rows.map table) seqlen := by
  constructor
  · intro entries member
    obtain ⟨row, among, rfl⟩ := List.mem_map.mp member
    rw [attends.uniform row among, attends.sameSize]
    exact short
  · intro entries member
    obtain ⟨row, among, rfl⟩ := List.mem_map.mp member
    exact attends.valueBlocks row among

/-- The whole batch through `prefill`. -/
theorem Attends.prefill_eq (scale : ℝ)
    (attends : Attends rows queries seqlenK table width kCache vCache)
    (lays : Lays context rows queries seqlenK table) (k : List (Heads numKvHeads headDim))
    (v : List (Heads numKvHeads vDim)) :
    prefill scale (rows.flatMap queries) k v kCache vCache context =
      some (rows.flatMap fun row => rowAttention scale (queries row) (seqlenK row)
        (cachedAt kCache (table row)) (cachedAt vCache (table row))) := by
  have longest : context.maxSeqlenK ≤ width * kCache.blockSize := by
    rw [lays.maxSeqlenK, foldl_max_le]
    refine ⟨Nat.zero_le _, fun len member => ?_⟩
    obtain ⟨row, among, rfl⟩ := List.mem_map.mp member
    exact attends.fits row among
  have serves : Serves context rows queries seqlenK :=
    { cuSeqlensQ := lays.cuSeqlensQ
      cuSeqlensK := lays.cuSeqlensK
      queries_le := fun row member => by
        rw [lays.maxSeqlenQ]
        exact (foldl_max_le.mp (Nat.le_refl _)).2 _ (List.mem_map_of_mem member)
      keys_le := fun row member => by
        rw [lays.maxSeqlenK]
        exact (foldl_max_le.mp (Nat.le_refl _)).2 _ (List.mem_map_of_mem member)
      filled := by
        intro _ some none
        obtain ⟨row, member⟩ := List.exists_mem_of_ne_nil rows some
        have empty := List.flatMap_eq_nil_iff.mp none row member
        have long := attends.positive row member
        rw [empty] at long
        exact absurd long (Nat.lt_irrefl 0)
      causal := attends.causal }
  exact serves.prefill_paged lays.blockTables (attends.keys longest) (attends.values longest) k v

/-- Rows of one query each through `decode`. -/
theorem Attends.decode_one (scale : ℝ)
    (attends : Attends rows queries seqlenK table width kCache vCache)
    (tables : context.blockTables = some (rows.map table))
    (lens : context.contextLens = rows.map seqlenK)
    (one : ∀ row ∈ rows, (queries row).length = 1) :
    decode scale (rows.flatMap queries) kCache vCache context =
      some (rows.flatMap fun row => rowAttention scale (queries row) (seqlenK row)
        (cachedAt kCache (table row)) (cachedAt vCache (table row))) := by
  have single : ∀ row ∈ rows, queries row = [(queries row).headD 0] := by
    intro row member
    obtain ⟨token, own⟩ := List.length_eq_one_iff.mp (one row member)
    rw [own]
    rfl
  have asked : rows.flatMap queries = rows.map fun row => (queries row).headD 0 := by
    rw [List.map_eq_flatMap]
    exact List.flatMap_congr single
  rw [asked, decode_eq tables lens attends.uniform
    (fun row member => Nat.lt_of_lt_of_le (attends.positive row member) (attends.causal row member))
    attends.fits (attends.keys (Nat.le_refl _)) (attends.values (Nat.le_refl _))]
  refine congrArg some (List.flatMap_congr ?_)
  intro row member
  rw [← single row member]

/-- The context of the rows after the decode group. -/
theorem Lays.prefills (lays : Lays context rows queries seqlenK table) {n : Nat}
    (inside : n ≤ rows.length) {prefills : AttentionContext}
    (cuSeqlensQ : prefills.cuSeqlensQ = AttentionContext.totalsFrom context.cuSeqlensQ n)
    (cuSeqlensK : prefills.cuSeqlensK = AttentionContext.totalsFrom context.cuSeqlensK n)
    (cuSeqlensQHost : prefills.cuSeqlensQHost = AttentionContext.totalsFrom context.cuSeqlensQHost n)
    (cuSeqlensKHost : prefills.cuSeqlensKHost = AttentionContext.totalsFrom context.cuSeqlensKHost n)
    (maxSeqlenQ : prefills.maxSeqlenQ = (AttentionContext.steps prefills.cuSeqlensQHost).foldl max 0)
    (maxSeqlenK : prefills.maxSeqlenK = (AttentionContext.steps prefills.cuSeqlensKHost).foldl max 0)
    (contextLens : prefills.contextLens = context.contextLens.drop n)
    (blockTables : prefills.blockTables = some ((rows.map table).drop n)) :
    Lays prefills (rows.drop n) queries seqlenK table := by
  have queriesFrom : AttentionContext.totalsFrom context.cuSeqlensQ n =
      cumsum ((rows.drop n).map fun row => (queries row).length) := by
    rw [lays.cuSeqlensQ, AttentionContext.totalsFrom_cumsum (by simpa using inside), List.map_drop]
  have keysFrom : AttentionContext.totalsFrom context.cuSeqlensK n =
      cumsum ((rows.drop n).map seqlenK) := by
    rw [lays.cuSeqlensK, AttentionContext.totalsFrom_cumsum (by simpa using inside), List.map_drop]
  constructor
  · rw [cuSeqlensQ, queriesFrom]
  · rw [cuSeqlensK, keysFrom]
  · rw [cuSeqlensQHost, cuSeqlensQ, lays.cuSeqlensQHost]
  · rw [cuSeqlensKHost, cuSeqlensK, lays.cuSeqlensKHost]
  · rw [maxSeqlenQ, cuSeqlensQHost, lays.cuSeqlensQHost, queriesFrom, AttentionContext.steps_cumsum]
  · rw [maxSeqlenK, cuSeqlensKHost, lays.cuSeqlensKHost, keysFrom, AttentionContext.steps_cumsum]
  · rw [contextLens, lays.contextLens, List.map_drop]
  · rw [blockTables, List.map_drop]

/-- However the batch splits, each row attends its own positions. -/
theorem Attends.forward_eq (scale : ℝ)
    (attends : Attends rows queries seqlenK table width kCache vCache)
    (lays : Lays context rows queries seqlenK table)
    (decoding : context.isPrefill = false → ∀ row ∈ rows, (queries row).length = 1)
    (k : List (Heads numKvHeads headDim)) (v : List (Heads numKvHeads vDim)) :
    forward scale (rows.flatMap queries) k v kCache vCache context =
      some (rows.flatMap fun row => rowAttention scale (queries row) (seqlenK row)
        (cachedAt kCache (table row)) (cachedAt vCache (table row))) := by
  have host : context.cuSeqlensQHost = cumsum (rows.map fun row => (queries row).length) := by
    rw [lays.cuSeqlensQHost, lays.cuSeqlensQ]
  obtain ⟨few, leading, _⟩ := AttentionContext.numDecodes_spec host 1
  rw [List.length_map] at few
  have numRows : context.cuSeqlensQHost.length - 1 = rows.length := by
    rw [host, length_cumsum, List.length_map, Nat.add_sub_cancel]
  have one : ∀ row ∈ rows.take (context.numDecodes 1), (queries row).length = 1 := by
    intro row member
    obtain ⟨r, small, rfl⟩ := List.mem_iff_getElem.mp member
    rw [List.length_take] at small
    have own := leading r (by omega)
    have inside : r < rows.length := by omega
    simpa [List.getD_eq_getElem?_getD, inside] using own
  unfold forward
  split
  · rename_i decodes
    exact attends.decode_one scale lays.blockTables lays.contextLens (decoding decodes)
  · simp only [AttentionContext.splitDecodesAndPrefills, lays.blockTables, numRows]
    by_cases none : context.numDecodes 1 = 0
    · simp only [none, if_true]
      exact attends.prefill_eq scale lays k v
    · by_cases all : context.numDecodes 1 < rows.length
      · simp only [none, all, if_true, if_false]
        have total : ((rows.take (context.numDecodes 1)).flatMap queries).length =
            context.numDecodes 1 := by
          rw [List.length_flatMap, List.map_congr_left one, List.map_const', List.sum_replicate,
            List.length_take]
          simp only [smul_eq_mul, Nat.mul_one]
          omega
        have split : rows.flatMap queries = (rows.take (context.numDecodes 1)).flatMap queries ++
            (rows.drop (context.numDecodes 1)).flatMap queries := by
          rw [← List.flatMap_append, List.take_append_drop]
        rw [split, List.take_left' total, List.drop_left' total]
        rw [(attends.sub fun row member => List.mem_of_mem_take member).decode_one
            scale (by simp only [List.map_take]) (by simp only [lays.contextLens, List.map_take]) one,
          (attends.sub fun row member => List.mem_of_mem_drop member).prefill_eq
            scale (lays.prefills few (by rw [lays.cuSeqlensQHost]; rfl) rfl rfl rfl rfl rfl rfl rfl) _ _]
        simp only [Option.bind_eq_bind, Option.bind_some]
        rw [← List.flatMap_append, List.take_append_drop]
      · simp only [none, all, if_false]
        rw [List.take_of_length_le (Nat.le_of_not_lt all)] at one
        refine attends.decode_one scale ?_ ?_ one
        · simp only [List.take_of_length_le (show (rows.map table).length ≤ context.numDecodes 1 by
            simpa using Nat.le_of_not_lt all)]
        · simp only [lays.contextLens]
          exact List.take_of_length_le (by simpa using Nat.le_of_not_lt all)

end Rows

end TorchAttention

end LeanVllm
