import LeanVllm.Attention.Forward
import LeanVllm.Engine.MoveBack

/-!
# Attention over a prepared batch

Without speculation nothing moves back, so `prepare_batch` describes its rows exactly:
their new tokens, where these start, and the blocks they lie in.  Once the step's keys
and values are stored by `slot_mapping`, `forward` gives every token the attention over
the positions of its own row up to its own.
-/

namespace LeanVllm

open Collections Numeric

namespace RankBatch

open ModelRunner

variable {cfg : Config} {decodesLatents : Bool} {runner : ModelRunner}
  {seqs : List BatchSequence} {inputs : BatchInputs}

/-! ## The rows of a prepared batch -/

/-- The sequences of a call in batch order. -/
def inOrder (cfg : Config) (decodesLatents : Bool) (seqs : List BatchSequence) :
    List BatchSequence :=
  gather seqs default (batchRows cfg decodesLatents seqs).order

theorem inOrder_perm (cfg : Config) (decodesLatents : Bool) (seqs : List BatchSequence) :
    (inOrder cfg decodesLatents seqs).Perm seqs := by
  have perm := rowOrder_perm (seqs.map BatchSequence.numScheduledTokens)
    (LeanVllm.decodeQueryLen (seqs.map BatchSequence.numScheduledTokens) cfg.numSpeculativeTokens)
  rw [List.length_map] at perm
  have gathered := perm.map fun k => seqs.getD k default
  rwa [map_getD_range] at gathered

theorem batchRows_columns (cfg : Config) (decodesLatents : Bool) (seqs : List BatchSequence) :
    (batchRows cfg decodesLatents seqs).lens =
        (inOrder cfg decodesLatents seqs).map BatchSequence.numScheduledTokens ∧
      (batchRows cfg decodesLatents seqs).starts =
        (inOrder cfg decodesLatents seqs).map BatchSequence.numCachedTokens ∧
      (batchRows cfg decodesLatents seqs).batch.length =
        (inOrder cfg decodesLatents seqs).length := by
  have inside : ∀ k ∈ (batchRows cfg decodesLatents seqs).order, k < seqs.length := by
    intro k member
    have known := (rowOrder_perm _ _).mem_iff.mp member
    simpa using List.mem_range.mp known
  exact ⟨gather_map inside, gather_map inside, by simp [batchRows, inOrder, gather]⟩

/-- The positions of a batch's new tokens, as the host counts them. -/
theorem hostPositions_eq (batch : List BatchSequence) :
    List.zipWith (fun r p => (batch.map BatchSequence.numCachedTokens).getD r 0 + p -
          (cumsum (batch.map BatchSequence.numScheduledTokens)).getD r 0)
        (repeatEach (List.range batch.length) (batch.map BatchSequence.numScheduledTokens))
        (List.range (batch.map BatchSequence.numScheduledTokens).sum) =
      batch.flatMap fun seq =>
        (List.range seq.numScheduledTokens).map (seq.numCachedTokens + ·) := by
  have counted := zipWith_rowNumbers (fun r p =>
    (batch.map BatchSequence.numCachedTokens).getD r 0 + p -
      (cumsum (batch.map BatchSequence.numScheduledTokens)).getD r 0)
    (batch.map BatchSequence.numScheduledTokens)
  rw [List.length_map] at counted
  rw [counted, flatMap_eq_range batch default]
  apply List.flatMap_congr
  intro r member
  have inside := List.mem_range.mp member
  have len : (batch.map BatchSequence.numScheduledTokens).getD r 0 =
      (batch.getD r default).numScheduledTokens := by
    simp [List.getD_eq_getElem?_getD, inside]
  have start : (batch.map BatchSequence.numCachedTokens).getD r 0 =
      (batch.getD r default).numCachedTokens := by
    simp [List.getD_eq_getElem?_getD, inside]
  rw [len, start]
  apply List.map_congr_left
  intro o _
  omega

/-- Inverting a step of a computation that may fail. -/
theorem bind_eq_ok {ε α β : Type} {first : Except ε α} {rest : α → Except ε β} {result : β} :
    first.bind rest = .ok result ↔ ∃ value, first = .ok value ∧ rest value = .ok result := by
  cases first <;> simp [Except.bind]

/-- Where the rows of a batch lie when none of them moves. -/
theorem placement_still (cfg : Config) (decodesLatents : Bool) (seqs : List BatchSequence) :
    let rows := batchRows cfg decodesLatents seqs
    let batch := inOrder cfg decodesLatents seqs
    let place := placement decodesLatents rows [] (List.replicate batch.length 0)
    place.moved = [] ∧
      place.ends = batch.map (fun seq => seq.numCachedTokens + seq.numScheduledTokens) ∧
      place.contextLens = place.ends ∧
      place.tokenRows = repeatEach (List.range batch.length)
        (batch.map BatchSequence.numScheduledTokens) ∧
      place.hostPositions = batch.flatMap fun seq =>
        (List.range seq.numScheduledTokens).map (seq.numCachedTokens + ·) := by
  intro rows batch place
  obtain ⟨lens, starts, counted⟩ := batchRows_columns cfg decodesLatents seqs
  have still : needsExactLengths decodesLatents rows [] = false := rfl
  have ends : place.ends =
      batch.map fun seq => seq.numCachedTokens + seq.numScheduledTokens := by
    simp only [place, placement, still, rows, lens, starts]
    rw [if_neg (by decide), List.zipWith_map, List.zipWith_self]
  refine ⟨by simp only [place, placement, ite_self], ends, ?_, ?_, ?_⟩
  · simp only [Placement.contextLens, ends]
    simp only [place, placement, still]
    rw [if_neg (by decide)]
    apply List.ext_getElem <;> simp
  · simp only [place, placement, rows, lens, counted]
    rfl
  · simp only [place, placement, still, rows, lens, starts, counted]
    rw [if_neg (by decide)]
    exact hostPositions_eq batch

/-- Without drafts in flight a prepared batch describes its rows exactly. -/
theorem prepareBatch_rows (settled : runner.inFlightDrafts = none)
    (prepared : prepareBatch cfg decodesLatents runner seqs = .ok inputs) :
    let batch := inOrder cfg decodesLatents seqs
    let lens := batch.map BatchSequence.numScheduledTokens
    let ends := batch.map fun seq => seq.numCachedTokens + seq.numScheduledTokens
    seqs ≠ [] ∧
      inputs.context.attention =
        { isPrefill := (batchRows cfg decodesLatents seqs).isPrefill
          cuSeqlensQ := cumsum lens
          cuSeqlensK := cumsum ends
          maxSeqlenQ := lens.foldl max 0
          maxSeqlenK := ends.foldl max 0
          cuSeqlensQHost := cumsum lens
          cuSeqlensKHost := cumsum ends
          contextLens := ends
          blockTables := paddedTables (batch.map BatchSequence.blockTable) } ∧
      slotMapping cfg (batch.map BatchSequence.blockTable)
          (repeatEach (List.range batch.length) lens) (batch.flatMap fun seq =>
            (List.range seq.numScheduledTokens).map (seq.numCachedTokens + ·)) =
        .ok inputs.context.slotMapping := by
  intro batch lens ends
  rw [prepareBatch] at prepared
  split at prepared
  · contradiction
  · rename_i some
    refine ⟨some, ?_⟩
    have still : movedRows runner batch = [] := by simp [movedRows, settled]
    have moves : movesBack runner batch = .ok (List.replicate batch.length 0) := by
      simp only [movesBack, still]
      rfl
    obtain ⟨unmoved, placedEnds, contextLens, tokenRows, hostPositions⟩ :=
      placement_still cfg decodesLatents seqs
    simp only [prepareRows_eq_assemble] at prepared
    change (movesBack runner batch).bind _ = _ at prepared
    rw [moves] at prepared
    change assemble cfg runner _ batch _ (placement decodesLatents _ (movedRows runner batch) _) =
      _ at prepared
    rw [still] at prepared
    obtain ⟨columns, _, prepared⟩ := bind_eq_ok.mp prepared
    obtain ⟨hostSlots, mapped, prepared⟩ := bind_eq_ok.mp prepared
    obtain ⟨ids, _, prepared⟩ := bind_eq_ok.mp prepared
    obtain ⟨inputIds, _, prepared⟩ := bind_eq_ok.mp prepared
    obtain ⟨nextTokenIds, _, prepared⟩ := bind_eq_ok.mp prepared
    obtain ⟨slots, device, prepared⟩ := bind_eq_ok.mp prepared
    rw [deviceSlots, unmoved, if_pos rfl] at device
    obtain rfl := Except.ok.inj device
    obtain rfl := Except.ok.inj prepared
    rw [tokenRows, hostPositions] at mapped
    refine ⟨?_, mapped⟩
    simp only [BatchContext.attention, context, batch, lens, ends, contextLens, placedEnds,
      (batchRows_columns cfg decodesLatents seqs).1]

/-! ## The slots of a batch -/

/-- The blocks a row's new tokens lie in. -/
def writtenBlocks (cfg : Config) (seq : BatchSequence) : List BlockId :=
  (seq.blockTable.take ((seq.numCachedTokens + seq.numScheduledTokens + cfg.blockSize - 1) /
    cfg.blockSize)).drop (seq.numCachedTokens / cfg.blockSize)

/-- The page and the offset of a row's position. -/
def placeOf (cfg : Config) (seq : BatchSequence) (p : Nat) : Nat × Nat :=
  (seq.blockTable.getD (p / cfg.blockSize) 0, p % cfg.blockSize)

theorem pageOf_slotAt (seq : BatchSequence) (p : Nat) :
    TorchAttention.pageOf cfg.blockSize (slotAt cfg seq.blockTable p) = placeOf cfg seq p := by
  have slot : (slotAt cfg seq.blockTable p).toNat =
      p % cfg.blockSize + cfg.blockSize * seq.blockTable.getD (p / cfg.blockSize) 0 := by
    rw [slotAt, Nat.mul_comm, Nat.add_comm]
    exact Int.toNat_natCast _
  have small := Nat.mod_lt p cfg.blockSize_pos
  rw [TorchAttention.pageOf, slot, Nat.add_mul_div_left _ _ cfg.blockSize_pos, Nat.add_mul_mod_self_left,
    Nat.div_eq_of_lt small, Nat.mod_eq_of_lt small, Nat.zero_add, placeOf]

/-- A row whose positions its own blocks cover. -/
def Covering (cfg : Config) (seq : BatchSequence) : Prop :=
  seq.numCachedTokens + seq.numScheduledTokens ≤ seq.blockTable.length * cfg.blockSize

instance (cfg : Config) (seq : BatchSequence) : Decidable (Covering cfg seq) :=
  inferInstanceAs (Decidable (_ ≤ _))

theorem Covering.index_lt {seq : BatchSequence} (covering : Covering cfg seq) {p : Nat}
    (inside : p < seq.numCachedTokens + seq.numScheduledTokens) :
    p / cfg.blockSize < seq.blockTable.length := by
  apply Nat.div_lt_of_lt_mul
  rw [Nat.mul_comm]
  exact Nat.lt_of_lt_of_le inside covering

/-- The block of a new token is one of those the row writes, at the token's index. -/
theorem Covering.writtenBlocks_getElem? {seq : BatchSequence} (covering : Covering cfg seq)
    {o : Nat} (inside : o < seq.numScheduledTokens) :
    (writtenBlocks cfg seq)[(seq.numCachedTokens + o) / cfg.blockSize -
        seq.numCachedTokens / cfg.blockSize]? =
      some (placeOf cfg seq (seq.numCachedTokens + o)).1 := by
  have first : seq.numCachedTokens / cfg.blockSize ≤ (seq.numCachedTokens + o) / cfg.blockSize :=
    Nat.div_le_div_right (Nat.le_add_right _ _)
  have last : (seq.numCachedTokens + o) / cfg.blockSize <
      (seq.numCachedTokens + seq.numScheduledTokens + cfg.blockSize - 1) / cfg.blockSize := by
    apply (Nat.le_div_iff_mul_le cfg.blockSize_pos).mpr
    have lower := Nat.div_mul_le_self (seq.numCachedTokens + o) cfg.blockSize
    rw [Nat.succ_mul]
    omega
  have inTable := covering.index_lt (show seq.numCachedTokens + o < _ by omega)
  rw [writtenBlocks, List.getElem?_drop, Nat.add_sub_cancel' first, List.getElem?_take_of_lt last,
    placeOf, List.getD_eq_getElem?_getD, List.getElem?_eq_getElem inTable, Option.getD_some]

/-- Rows that write different blocks write different slots. -/
theorem places_nodup {batch : List BatchSequence}
    (covering : ∀ seq ∈ batch, Covering cfg seq)
    (disjoint : (batch.flatMap (writtenBlocks cfg)).Nodup) :
    (batch.flatMap fun seq => (List.range seq.numScheduledTokens).map fun o =>
      placeOf cfg seq (seq.numCachedTokens + o)).Nodup := by
  rw [List.nodup_flatMap] at disjoint ⊢
  obtain ⟨own, apart⟩ := disjoint
  constructor
  · intro seq member
    refine List.Nodup.map_on ?_ List.nodup_range
    intro o inside o' inside' same
    have here := (covering seq member).writtenBlocks_getElem? (List.mem_range.mp inside)
    have there :=
      (covering seq member).writtenBlocks_getElem? (List.mem_range.mp inside')
    rw [← same] at there
    -- the row's own blocks differ, so the two tokens share one
    have index := (List.getElem?_inj (List.getElem?_eq_some_iff.mp here).1 (own seq member)).mp
      (here.trans there.symm)
    have offset : (seq.numCachedTokens + o) % cfg.blockSize =
        (seq.numCachedTokens + o') % cfg.blockSize := congrArg Prod.snd same
    have first : seq.numCachedTokens / cfg.blockSize ≤ (seq.numCachedTokens + o) / cfg.blockSize :=
      Nat.div_le_div_right (Nat.le_add_right _ _)
    have first' : seq.numCachedTokens / cfg.blockSize ≤
        (seq.numCachedTokens + o') / cfg.blockSize := Nat.div_le_div_right (Nat.le_add_right _ _)
    have page : (seq.numCachedTokens + o) / cfg.blockSize =
        (seq.numCachedTokens + o') / cfg.blockSize := by omega
    have whole := Nat.div_add_mod (seq.numCachedTokens + o) cfg.blockSize
    rw [page, offset, Nat.div_add_mod] at whole
    omega
  · refine (List.pairwise_iff_forall_sublist.mpr fun {seq other} sub => ?_)
    have members : seq ∈ batch ∧ other ∈ batch :=
      ⟨sub.subset List.mem_cons_self, sub.subset (List.mem_cons_of_mem _ List.mem_cons_self)⟩
    have separate := List.pairwise_iff_forall_sublist.mp apart sub
    intro place inside inside'
    obtain ⟨o, among, rfl⟩ := List.mem_map.mp inside
    obtain ⟨o', among', same⟩ := List.mem_map.mp inside'
    have here := (covering seq members.1).writtenBlocks_getElem?
      (List.mem_range.mp among)
    have there := (covering other members.2).writtenBlocks_getElem?
      (List.mem_range.mp among')
    rw [same] at there
    exact separate (List.mem_of_getElem? here) (List.mem_of_getElem? there)

/-! ## The batch as rows -/

/-- A row's table, padded with -1. -/
def paddedRow (width : Nat) (seq : BatchSequence) : List Int :=
  seq.blockTable.map Int.ofNat ++ List.replicate (width - seq.blockTable.length) (-1)

theorem paddedTables_rows {batch : List BatchSequence}
    (filled : ∃ seq ∈ batch, seq.blockTable ≠ []) :
    ∃ width, (∀ seq ∈ batch, seq.blockTable.length ≤ width) ∧
      paddedTables (batch.map BatchSequence.blockTable) = some (batch.map (paddedRow width)) := by
  obtain ⟨seq, member, some⟩ := filled
  refine ⟨((batch.map BatchSequence.blockTable).map List.length).foldl max 0, ?_, ?_⟩
  · intro seq member
    rw [List.map_map]
    exact (foldl_max_le.mp (Nat.le_refl _)).2 _
      (List.mem_map_of_mem (f := List.length ∘ BatchSequence.blockTable) member)
  · rw [paddedTables, if_pos (List.any_eq_true.mpr ⟨_, List.mem_map_of_mem member, by
      simpa using some⟩)]
    simp only [List.map_map]
    rfl

/-- Reading a row's own position through its padded table. -/
theorem cachedAt_paddedRow {α : Type} [Zero α] (cache : Pages α) {seq : BatchSequence}
    (covering : Covering cfg seq) (size : cache.blockSize = cfg.blockSize) (width : Nat) {p : Nat}
    (inside : p < seq.numCachedTokens + seq.numScheduledTokens) :
    TorchAttention.cachedAt cache (paddedRow width seq) p =
      (cache.read (placeOf cfg seq p).1 (placeOf cfg seq p).2).getD 0 := by
  have inTable := covering.index_lt inside
  have block : (paddedRow width seq).getD (p / cfg.blockSize) 0 =
      Int.ofNat (seq.blockTable.getD (p / cfg.blockSize) 0) := by
    simp [paddedRow, List.getD_eq_getElem?_getD, List.getElem?_append_left, inTable]
  rw [TorchAttention.cachedAt, size, block]
  rfl

/-! ## The step -/

open TorchAttention in
/-- A token of a row attends the positions of its row up to its own.  Cached positions
hold what the cache holds once the step's tokens are stored, the others the tokens. -/
noncomputable def tokenAttention {numKvHeads group headDim vDim : Nat} (scale : ℝ)
    (kStored : Pages (Heads numKvHeads headDim)) (vStored : Pages (Heads numKvHeads vDim))
    (seq : BatchSequence) (keys : List (Heads numKvHeads headDim))
    (values : List (Heads numKvHeads vDim)) (o : Nat) (query : Heads (numKvHeads * group) headDim) :
    Heads (numKvHeads * group) vDim :=
  let table := seq.blockTable.map Int.ofNat
  let key := fun p => if p < seq.numCachedTokens then cachedAt kStored table p
    else keys.getD (p - seq.numCachedTokens) 0
  let value := fun p => if p < seq.numCachedTokens then cachedAt vStored table p
    else values.getD (p - seq.numCachedTokens) 0
  fun h => average ((List.range (seq.numCachedTokens + o + 1)).map fun p =>
    -- query head `h` uses key head `h // group`
    (dotProduct (query h) (key p h.divNat) * scale, value p h.divNat))

/-- The positions of a row, in the caches once the step's tokens are stored. -/
structure RowStored {α : Type} [Zero α] (cache stored : Pages α) (cfg : Config)
    (slots : List Int) (width : Nat) (seq : BatchSequence) (tokens : List α) : Prop where
  own : ∀ p, seq.numCachedTokens ≤ p → p < seq.numCachedTokens + seq.numScheduledTokens →
    TorchAttention.cachedAt stored (paddedRow width seq) p =
      tokens.getD (p - seq.numCachedTokens) 0
  cached : ∀ p < seq.numCachedTokens,
    TorchAttention.cachedAt stored (paddedRow width seq) p =
      TorchAttention.cachedAt stored (seq.blockTable.map Int.ofNat) p
  kept : ∀ p < seq.numCachedTokens, slotAt cfg seq.blockTable p ∉ slots →
    TorchAttention.cachedAt stored (seq.blockTable.map Int.ofNat) p =
      TorchAttention.cachedAt cache (seq.blockTable.map Int.ofNat) p

/-- The slots of a batch. -/
def slotsOfBatch (cfg : Config) (batch : List BatchSequence) : List Int :=
  batch.flatMap fun seq => (List.range seq.numScheduledTokens).map fun o =>
    slotAt cfg seq.blockTable (seq.numCachedTokens + o)

/-- The slot of a row's new token. -/
theorem slotsOfBatch_getElem? (cfg : Config) {batch : List BatchSequence} {r o : Nat}
    {seq : BatchSequence} (found : batch[r]? = some seq) (inside : o < seq.numScheduledTokens) :
    (slotsOfBatch cfg batch)[(cumsum (batch.map BatchSequence.numScheduledTokens)).getD r 0 + o]? =
        some (slotAt cfg seq.blockTable (seq.numCachedTokens + o)) ∧
      (cumsum (batch.map BatchSequence.numScheduledTokens)).getD r 0 + o <
        (slotsOfBatch cfg batch).length := by
  have slot := getElem?_flatMap batch (fun seq => (List.range seq.numScheduledTokens).map fun o =>
    slotAt cfg seq.blockTable (seq.numCachedTokens + o)) found (o := o) (by simpa using inside)
  simp only [List.length_map, List.length_range, List.getElem?_map, List.getElem?_range inside,
    Option.map_some] at slot
  exact ⟨slot, (List.getElem?_eq_some_iff.mp slot).1⟩

theorem map_pageOf_slotsOfBatch (batch : List BatchSequence) :
    (slotsOfBatch cfg batch).map (TorchAttention.pageOf cfg.blockSize) =
      batch.flatMap fun seq => (List.range seq.numScheduledTokens).map fun o =>
        placeOf cfg seq (seq.numCachedTokens + o) := by
  rw [slotsOfBatch, List.map_flatMap]
  apply List.flatMap_congr
  intro seq _
  rw [List.map_map]
  apply List.map_congr_left
  intro o _
  exact pageOf_slotAt seq _

/-- A slot not written is not the place of a written one. -/
theorem placeOf_not_mem {batch : List BatchSequence}
    {seq : BatchSequence} {p : Nat} (absent : slotAt cfg seq.blockTable p ∉ slotsOfBatch cfg batch) :
    placeOf cfg seq p ∉ (slotsOfBatch cfg batch).map (TorchAttention.pageOf cfg.blockSize) := by
  rw [map_pageOf_slotsOfBatch]
  intro member
  obtain ⟨other, among, own⟩ := List.mem_flatMap.mp member
  obtain ⟨o, inside, same⟩ := List.mem_map.mp own
  apply absent
  refine List.mem_flatMap.mpr ⟨other, among, List.mem_map.mpr ⟨o, inside, ?_⟩⟩
  have block := congrArg Prod.fst same
  have offset := congrArg Prod.snd same
  simp only [placeOf] at block offset
  rw [slotAt, slotAt, block, offset]

/-- What a row finds in the caches. -/
theorem rowStored {α : Type} [Zero α] {cache stored : Pages α} {batch : List BatchSequence}
    {tokens : List α} (size : cache.blockSize = cfg.blockSize)
    (stores : TorchAttention.Stores cache stored cfg.blockSize (slotsOfBatch cfg batch) tokens)
    (counted : tokens.length = (batch.map BatchSequence.numScheduledTokens).sum) {r : Nat}
    {seq : BatchSequence} (found : batch[r]? = some seq) (covering : Covering cfg seq)
    (width : Nat) :
    RowStored cache stored cfg (slotsOfBatch cfg batch) width seq
      (segment tokens (batch.map BatchSequence.numScheduledTokens) r) := by
  have storedSize : stored.blockSize = cfg.blockSize := stores.size.trans size
  have plain : ∀ pages : Pages α, pages.blockSize = cfg.blockSize → ∀ p <
      seq.numCachedTokens + seq.numScheduledTokens,
      TorchAttention.cachedAt pages (seq.blockTable.map Int.ofNat) p =
        (pages.read (placeOf cfg seq p).1 (placeOf cfg seq p).2).getD 0 := by
    intro pages same p inside
    have unpadded := cachedAt_paddedRow pages covering same seq.blockTable.length inside
    rwa [paddedRow, Nat.sub_self, List.replicate_zero, List.append_nil] at unpadded
  have lens : (batch.map BatchSequence.numScheduledTokens).getD r 0 = seq.numScheduledTokens := by
    simp [List.getD_eq_getElem?_getD, found]
  constructor
  · intro p start stop
    obtain ⟨o, rfl⟩ := Nat.exists_eq_add_of_le start
    have inside : o < seq.numScheduledTokens := by omega
    rw [cachedAt_paddedRow stored covering storedSize width stop, Nat.add_sub_cancel_left]
    obtain ⟨slot, token⟩ := slotsOfBatch_getElem? cfg found inside
    have total : (slotsOfBatch cfg batch).length = tokens.length := by
      rw [counted, slotsOfBatch, List.length_flatMap]
      simp only [List.length_map, List.length_range]
    have value := getD_segment tokens (batch.map BatchSequence.numScheduledTokens) 0 (r := r)
      (o := o) (by rw [lens]; exact inside)
    generalize (cumsum (batch.map BatchSequence.numScheduledTokens)).getD r 0 + o = place
      at slot token value
    have entry := List.getElem?_eq_getElem (total ▸ token)
    have written := stores.written slot entry
    rw [pageOf_slotAt] at written
    rw [written, Option.getD_some, value, List.getD_eq_getElem?_getD, entry, Option.getD_some]
  · intro p inside
    rw [cachedAt_paddedRow stored covering storedSize width (by omega),
      plain stored storedSize p (by omega)]
  · intro p inside absent
    rw [plain stored storedSize p (by omega), plain cache size p (by omega),
      stores.kept _ (placeOf_not_mem absent)]

/-- Once stored, a row's attention over its padded table is that of its tokens. -/
theorem rowAttention_eq {numKvHeads group headDim vDim : Nat} {scale : ℝ}
    {kCache kStored : Pages (Heads numKvHeads headDim)}
    {vCache vStored : Pages (Heads numKvHeads vDim)} {slots : List Int} {width : Nat}
    {seq : BatchSequence} {keys : List (Heads numKvHeads headDim)}
    {values : List (Heads numKvHeads vDim)}
    (keyed : RowStored kCache kStored cfg slots width seq keys)
    (valued : RowStored vCache vStored cfg slots width seq values)
    (queries : List (Heads (numKvHeads * group) headDim))
    (counted : queries.length = seq.numScheduledTokens) :
    TorchAttention.rowAttention scale queries (seq.numCachedTokens + seq.numScheduledTokens)
        (TorchAttention.cachedAt kStored (paddedRow width seq))
        (TorchAttention.cachedAt vStored (paddedRow width seq)) =
      queries.mapIdx (tokenAttention scale kStored vStored seq keys values) := by
  apply List.ext_getElem
  · simp
  · intro o _ inside
    rw [List.length_mapIdx] at inside
    simp only [TorchAttention.rowAttention, tokenAttention, List.getElem_mapIdx]
    funext h
    have last : seq.numCachedTokens + seq.numScheduledTokens - queries.length + o + 1 =
        seq.numCachedTokens + o + 1 := by omega
    rw [last]
    refine congrArg average (List.map_congr_left ?_)
    intro p member
    have below := List.mem_range.mp member
    by_cases old : p < seq.numCachedTokens
    · simp only [if_pos old, keyed.cached p old, valued.cached p old]
    · simp only [if_neg old, keyed.own p (by omega) (by omega), valued.own p (by omega) (by omega)]

/-- The lengths of a batch's rows, cut from its tokens. -/
theorem length_segments {α : Type} {batch : List BatchSequence} {tokens : List α}
    (counted : tokens.length = (batch.map BatchSequence.numScheduledTokens).sum) {r : Nat}
    (inside : r < batch.length) :
    (segment tokens (batch.map BatchSequence.numScheduledTokens) r).length =
      (batch.getD r default).numScheduledTokens := by
  rw [length_segment counted (by simpa using inside)]
  simp [List.getD_eq_getElem?_getD, inside]

/-- The context of a prepared batch, by row number. -/
theorem lays_of_described {α : Type} {batch : List BatchSequence} {tokens : List α}
    {context : AttentionContext} {isPrefill : Bool} {width : Nat}
    (counted : tokens.length = (batch.map BatchSequence.numScheduledTokens).sum)
    (padded : paddedTables (batch.map BatchSequence.blockTable) =
      some (batch.map (paddedRow width)))
    (described :
      let lens := batch.map BatchSequence.numScheduledTokens
      let ends := batch.map fun seq => seq.numCachedTokens + seq.numScheduledTokens
      context =
        { isPrefill := isPrefill
          cuSeqlensQ := cumsum lens
          cuSeqlensK := cumsum ends
          maxSeqlenQ := lens.foldl max 0
          maxSeqlenK := ends.foldl max 0
          cuSeqlensQHost := cumsum lens
          cuSeqlensKHost := cumsum ends
          contextLens := ends
          blockTables := paddedTables (batch.map BatchSequence.blockTable) }) :
    TorchAttention.Lays context (List.range batch.length)
      (segment tokens (batch.map BatchSequence.numScheduledTokens))
      (fun r => (batch.getD r default).numCachedTokens + (batch.getD r default).numScheduledTokens)
      (fun r => paddedRow width (batch.getD r default)) := by
  have lens : (List.range batch.length).map (fun r =>
      (segment tokens (batch.map BatchSequence.numScheduledTokens) r).length) =
      batch.map BatchSequence.numScheduledTokens := by
    conv_rhs => rw [map_eq_range batch default]
    exact List.map_congr_left fun r member => length_segments counted (List.mem_range.mp member)
  have ends := map_eq_range batch default fun seq => seq.numCachedTokens + seq.numScheduledTokens
  rw [described]
  constructor
  · rw [lens]
  · exact congrArg cumsum ends
  · rfl
  · rfl
  · rw [lens]
  · exact congrArg (List.foldl max 0) ends
  · exact ends
  · simp only [padded, map_eq_range batch default (paddedRow width)]

/-- The rows of a batch can be attended. -/
theorem attends_batch {α β γ : Type} {batch : List BatchSequence} {tokens : List α} {width : Nat}
    {kCache : Pages β} {vCache : Pages γ}
    (counted : tokens.length = (batch.map BatchSequence.numScheduledTokens).sum)
    (scheduled : ∀ seq ∈ batch, 0 < seq.numScheduledTokens)
    (covering : ∀ seq ∈ batch, Covering cfg seq)
    (widest : ∀ seq ∈ batch, seq.blockTable.length ≤ width)
    (filled : ∃ seq ∈ batch, seq.blockTable ≠ [])
    (kSize : kCache.blockSize = cfg.blockSize) (vSize : vCache.blockSize = cfg.blockSize)
    (kBlocks : ∀ seq ∈ batch, ∀ block ∈ seq.blockTable, block < kCache.blocks.length)
    (vBlocks : ∀ seq ∈ batch, ∀ block ∈ seq.blockTable, block < vCache.blocks.length) :
    TorchAttention.Attends (List.range batch.length)
      (segment tokens (batch.map BatchSequence.numScheduledTokens))
      (fun r => (batch.getD r default).numCachedTokens + (batch.getD r default).numScheduledTokens)
      (fun r => paddedRow width (batch.getD r default)) width kCache vCache := by
  have row : ∀ r ∈ List.range batch.length, batch.getD r default ∈ batch := by
    intro r member
    have inside := List.mem_range.mp member
    have own : batch.getD r default = batch[r] := by simp [List.getD_eq_getElem?_getD, inside]
    rw [own]
    exact List.getElem_mem inside
  have len : ∀ r ∈ List.range batch.length, (segment tokens
      (batch.map BatchSequence.numScheduledTokens) r).length =
      (batch.getD r default).numScheduledTokens :=
    fun r member => length_segments counted (List.mem_range.mp member)
  have page : ∀ {blocks : Nat},
      (∀ seq ∈ batch, ∀ block ∈ seq.blockTable, block < blocks) →
      ∀ r ∈ List.range batch.length, ∀ block ∈ paddedRow width (batch.getD r default),
        block.toNat < blocks := by
    intro blocks known r member block entry
    rcases List.mem_append.mp entry with own | padding
    · obtain ⟨real, among, rfl⟩ := List.mem_map.mp own
      exact known _ (row r member) real among
    · -- padding reads page 0, which is there as some row has a block
      obtain ⟨seq, present, some⟩ := filled
      obtain ⟨real, among⟩ := List.exists_mem_of_ne_nil _ some
      have negative := List.eq_of_mem_replicate padding
      subst negative
      exact Nat.zero_lt_of_lt (known seq present real among)
  constructor
  · intro r member
    rw [len r member]
    exact scheduled _ (row r member)
  · intro r member
    rw [len r member]
    exact Nat.le_add_left _ _
  · intro r member
    have short := widest _ (row r member)
    simp only [paddedRow, List.length_append, List.length_map, List.length_replicate]
    omega
  · intro r member
    rw [kSize]
    exact Nat.le_trans (covering _ (row r member)) (Nat.mul_le_mul_right _ (widest _ (row r member)))
  · rw [kSize, vSize]
  · exact page kBlocks
  · exact page vBlocks

open TorchAttention in
/-- Without speculation, storing a step's keys and values and then attending gives every
token the softmax attention over exactly the positions of its own row up to its own,
however the batch splits, and the same as `prefill` of the whole batch.  A cached
position keeps its contents unless a row of the step writes its slot. -/
theorem paged_attention_equals_causal {numKvHeads group headDim vDim : Nat} (scale : ℝ)
    (cfg : Config) (decodesLatents : Bool) (runner : ModelRunner) (seqs : List BatchSequence)
    (inputs : BatchInputs)
    -- no speculation
    (settled : runner.inFlightDrafts = none)
    (plain : ∀ seq ∈ seqs, seq.isPrefill = false → seq.numScheduledTokens = 1)
    (scheduled : ∀ seq ∈ seqs, 0 < seq.numScheduledTokens)
    (prepared : prepareBatch cfg decodesLatents runner seqs = .ok inputs)
    (covering : ∀ seq ∈ seqs, Covering cfg seq)
    (disjoint : (seqs.flatMap (writtenBlocks cfg)).Nodup)
    (kCache : Pages (Heads numKvHeads headDim)) (vCache : Pages (Heads numKvHeads vDim))
    (kSize : kCache.blockSize = cfg.blockSize) (vSize : vCache.blockSize = cfg.blockSize)
    (kBlocks : ∀ seq ∈ seqs, ∀ block ∈ seq.blockTable, block < kCache.blocks.length)
    (vBlocks : ∀ seq ∈ seqs, ∀ block ∈ seq.blockTable, block < vCache.blocks.length)
    (q : List (Heads (numKvHeads * group) headDim)) (k : List (Heads numKvHeads headDim))
    (v : List (Heads numKvHeads vDim))
    (qTokens : q.length = (seqs.map BatchSequence.numScheduledTokens).sum)
    (kTokens : k.length = (seqs.map BatchSequence.numScheduledTokens).sum)
    (vTokens : v.length = (seqs.map BatchSequence.numScheduledTokens).sum) :
    let batch := inOrder cfg decodesLatents seqs
    let lens := batch.map BatchSequence.numScheduledTokens
    ∃ kStored vStored,
      storeKvcache k v kCache vCache inputs.context.slotMapping = some (kStored, vStored) ∧
      (∀ seq ∈ seqs, ∀ p < seq.numCachedTokens,
        slotAt cfg seq.blockTable p ∉ inputs.context.slotMapping →
          cachedAt kStored (seq.blockTable.map Int.ofNat) p =
              cachedAt kCache (seq.blockTable.map Int.ofNat) p ∧
            cachedAt vStored (seq.blockTable.map Int.ofNat) p =
              cachedAt vCache (seq.blockTable.map Int.ofNat) p) ∧
      forward scale q k v kStored vStored inputs.context.attention =
        some ((List.range batch.length).flatMap fun r => (segment q lens r).mapIdx
          (tokenAttention scale kStored vStored (batch.getD r default) (segment k lens r)
            (segment v lens r))) ∧
      forward scale q k v kStored vStored inputs.context.attention =
        prefill scale q k v kStored vStored inputs.context.attention := by
  intro batch lens
  have perm := inOrder_perm cfg decodesLatents seqs
  obtain ⟨nonempty, described, mapped⟩ := prepareBatch_rows settled prepared
  obtain ⟨first, among⟩ := List.exists_mem_of_ne_nil seqs nonempty
  have known : ∀ seq ∈ batch, seq ∈ seqs := fun seq member => perm.mem_iff.mp member
  have covers : ∀ seq ∈ batch, Covering cfg seq := fun seq member => covering seq (known seq member)
  have filled : first.blockTable ≠ [] := by
    intro empty
    have covered := covering first among
    rw [Covering, empty, List.length_nil, Nat.zero_mul] at covered
    have some := scheduled first among
    omega
  have slots : inputs.context.slotMapping = slotsOfBatch cfg batch :=
    Except.ok.inj (mapped.symm.trans (slotMapping_rows default covers))
  have total : lens.sum = (seqs.map BatchSequence.numScheduledTokens).sum :=
    (perm.map BatchSequence.numScheduledTokens).sum_eq
  have counted : (slotsOfBatch cfg batch).length = lens.sum := by
    rw [slotsOfBatch, List.length_flatMap]
    simp only [List.length_map, List.length_range, lens]
  have distinct := places_nodup covers
    ((perm.flatMap_right (writtenBlocks cfg)).nodup_iff.mpr disjoint)
  rw [← map_pageOf_slotsOfBatch] at distinct
  have slotBlock : ∀ slot ∈ slotsOfBatch cfg batch, 0 ≤ slot ∧ ∃ seq ∈ seqs,
      ∃ block ∈ seq.blockTable, (pageOf cfg.blockSize slot).1 = block := by
    intro slot member
    obtain ⟨seq, own, entry⟩ := List.mem_flatMap.mp member
    obtain ⟨o, inside, rfl⟩ := List.mem_map.mp entry
    have inTable := (covers seq own).index_lt
      (Nat.add_lt_add_left (List.mem_range.mp inside) seq.numCachedTokens)
    refine ⟨by unfold slotAt; positivity, seq, known seq own, _, List.getElem_mem inTable, ?_⟩
    rw [pageOf_slotAt, placeOf, List.getD_eq_getElem?_getD,
      List.getElem?_eq_getElem inTable, Option.getD_some]
  obtain ⟨kStored, vStored, stored, keys, values⟩ := @storeKvcache_stores _ _ k v kCache vCache
    (slotsOfBatch cfg batch) (by rw [counted, kTokens, total]) (by rw [counted, vTokens, total])
    (fun slot member => (slotBlock slot member).1) (kSize ▸ cfg.blockSize_pos) (vSize.trans kSize.symm)
    (by
      intro slot member
      obtain ⟨_, seq, own, block, entry, page⟩ := slotBlock slot member
      rw [kSize, page]
      exact kBlocks seq own block entry)
    (by
      intro slot member
      obtain ⟨_, seq, own, block, entry, page⟩ := slotBlock slot member
      rw [kSize, page]
      exact vBlocks seq own block entry)
    (kSize ▸ distinct)
  rw [kSize] at keys values
  obtain ⟨width, widest, padded⟩ :=
    paddedTables_rows ⟨first, perm.mem_iff.mpr among, filled⟩
  have row : ∀ r ∈ List.range batch.length, batch[r]? = some (batch.getD r default) ∧
      batch.getD r default ∈ batch := by
    intro r member
    have found : batch[r]? = some (batch.getD r default) := by
      simp [List.getD_eq_getElem?_getD, List.mem_range.mp member]
    exact ⟨found, List.mem_of_getElem? found⟩
  have keyed := fun r member => rowStored kSize keys (kTokens.trans total.symm)
    (row r member).1 (covers _ (row r member).2) width
  have valued := fun r member => rowStored vSize values (vTokens.trans total.symm)
    (row r member).1 (covers _ (row r member).2) width
  refine ⟨kStored, vStored, slots ▸ stored, ?_, ?_⟩
  · intro seq member p inside absent
    rw [slots] at absent
    obtain ⟨r, found⟩ := List.mem_iff_getElem?.mp (perm.mem_iff.mpr member)
    exact ⟨(rowStored kSize keys (kTokens.trans total.symm) found
        (covering seq member) width).kept p inside absent,
      (rowStored vSize values (vTokens.trans total.symm) found
        (covering seq member) width).kept p inside absent⟩
  · have qCounted : q.length = lens.sum := qTokens.trans total.symm
    have lays := lays_of_described qCounted padded described
    have attends := @attends_batch cfg _ _ _ batch q width kStored vStored qCounted
      (fun seq member => scheduled seq (known seq member)) covers widest
      ⟨first, perm.mem_iff.mpr among, filled⟩ (keys.size.trans kSize) (values.size.trans vSize)
      (fun seq member => keys.blocks ▸ kBlocks seq (known seq member))
      (fun seq member => values.blocks ▸ vBlocks seq (known seq member))
    have whole : (List.range batch.length).flatMap (segment q lens) = q := by
      have cut := flatMap_segment qCounted
      rwa [List.length_map] at cut
    have decoding : inputs.context.attention.isPrefill = false →
        ∀ r ∈ List.range batch.length, (segment q lens r).length = 1 := by
      intro decodes r member
      have own := known _ (row r member).2
      rw [length_segments qCounted (List.mem_range.mp member)]
      refine plain _ own ?_
      -- a batch with a prompt row is a prefill batch
      rw [described] at decodes
      by_contra prompt
      have some : seqs.any BatchSequence.isPrefill = true :=
        List.any_eq_true.mpr ⟨_, own, by simpa using prompt⟩
      simp [batchRows, some] at decodes
    have forwarded := attends.forward_eq scale lays decoding k v
    have prefilled := attends.prefill_eq scale lays k v
    rw [whole] at forwarded prefilled
    refine ⟨?_, forwarded.trans prefilled.symm⟩
    rw [forwarded]
    refine congrArg some (List.flatMap_congr ?_)
    intro r member
    exact rowAttention_eq (keyed r member) (valued r member) _
      (length_segments qCounted (List.mem_range.mp member))

/-- A prompt's second chunk, and a decode row that goes first. -/
def mixedSeqs : List BatchSequence :=
  [{ seqId := 0, temperature := 0, topK := 0, topP := 1, numTokens := 3, numPromptTokens := 3
     numCachedTokens := 1, numScheduledTokens := 2, numPendingTokens := 0, isPrefill := true
     blockTable := [2, 3], specTokenIds := [], tokenIds := [4, 5, 6], lastToken := 6 },
    { seqId := 1, temperature := 0, topK := 0, topP := 1, numTokens := 2, numPromptTokens := 1
      numCachedTokens := 1, numScheduledTokens := 1, numPendingTokens := 0, isPrefill := false
      blockTable := [1], specTokenIds := [], tokenIds := [], lastToken := 7 }]

noncomputable def mixedPages : Pages (Heads 1 1) where
  blockSize := 2
  blocks := List.replicate 4 [fun _ _ => 1, fun _ _ => (2 : Nat)]
  uniform := by
    intro page member
    rw [List.eq_of_mem_replicate member]
    rfl

/-- Three tokens' queries, in two heads that share a key head. -/
noncomputable def mixedQueries : List (Heads (1 * 2) 1) :=
  [fun _ _ => 1, fun _ _ => (2 : Nat), fun _ _ => (3 : Nat)]

noncomputable def mixedTokens : List (Heads 1 1) :=
  [fun _ _ => (3 : Nat), fun _ _ => (4 : Nat), fun _ _ => (5 : Nat)]

theorem paged_attention_equals_causal_mixed : ∃ inputs,
    prepareBatch .sample false {} mixedSeqs = .ok inputs ∧
      inputs.context.slotMapping = [3, 5, 6] ∧
      ∃ kStored vStored,
        TorchAttention.storeKvcache mixedTokens mixedTokens mixedPages mixedPages
          inputs.context.slotMapping = some (kStored, vStored) ∧
        TorchAttention.forward 1 mixedQueries mixedTokens mixedTokens kStored vStored
            inputs.context.attention =
          TorchAttention.prefill 1 mixedQueries mixedTokens mixedTokens kStored vStored
            inputs.context.attention := by
  have prepared : ∃ inputs, prepareBatch .sample false {} mixedSeqs = .ok inputs ∧
      inputs.context.slotMapping = [3, 5, 6] := ⟨_, rfl, by decide⟩
  obtain ⟨inputs, prepared, slots⟩ := prepared
  obtain ⟨kStored, vStored, stored, _, _, same⟩ := paged_attention_equals_causal 1 .sample false {}
    mixedSeqs inputs rfl (by decide) (by decide) prepared (by decide) (by decide) mixedPages
    mixedPages rfl rfl (by simp [mixedSeqs, mixedPages]) (by simp [mixedSeqs, mixedPages])
    mixedQueries mixedTokens mixedTokens rfl rfl rfl
  exact ⟨inputs, prepared, slots, kStored, vStored, stored, same⟩

end RankBatch

end LeanVllm
