import LeanVllm.Engine.RankBatch
import LeanVllm.Engine.RowPairing

/-!
# Ranks prepare the same batch

`prepare_batch` reads the token ids of prefill rows only, and of a decode row
the last token alone: a decode row always samples, so the one place that looks
past a chunk never looks at it.  What the broadcast leaves out is therefore
never read, and a rank that follows the engine's launches prepares what rank 0
prepares.
-/

namespace LeanVllm

open Collections

namespace BatchSequence

/-- What is left of a sequence after the broadcast. -/
def sent (seq : BatchSequence) : BatchSequence :=
  { seq with tokenIds := if seq.isPrefill then seq.tokenIds else [] }

/-- The round trip of a sequence whose last token is the last of its tokens. -/
theorem setstate_getstate {seq : BatchSequence} (last : seq.tokenIds.getLast? = some seq.lastToken) :
    setstate seq.getstate = .ok seq.sent := by
  unfold setstate getstate sent
  cases prefill : seq.isPrefill with
  | true => simp [last, restored]
  | false => simp [restored]

theorem received_eq {seqs : List BatchSequence}
    (last : ∀ seq ∈ seqs, seq.tokenIds.getLast? = some seq.lastToken) :
    received seqs = .ok (seqs.map sent) := by
  induction seqs with
  | nil => rfl
  | cons seq seqs ih =>
      have here := setstate_getstate (last seq List.mem_cons_self)
      have rest := ih fun other member => last other (List.mem_cons_of_mem _ member)
      simp [received, here, rest, bind, Except.bind]

end BatchSequence

namespace RankBatch

open ModelRunner

variable {cfg : Config} {decodesLatents : Bool} {runner : ModelRunner}
  {settings : SeqId → SamplerSettings} {heap : SeqId → Sequence}
  {tokens others : SeqId → List Token} {ids : List SeqId} {rows : BatchRows}

/-- A sequence of the engine on a rank that has `tokens` as its token ids. -/
def seen (settings : SeqId → SamplerSettings) (heap : SeqId → Sequence)
    (tokens : SeqId → List Token) (i : SeqId) : BatchSequence :=
  { (heap i).attributes (settings i) i with tokenIds := tokens i }

/-- The engine's own sequences. -/
def originals (settings : SeqId → SamplerSettings) (heap : SeqId → Sequence) (ids : List SeqId) :
    List BatchSequence :=
  ids.map fun i => (heap i).attributes (settings i) i

/-! ## What each part of `prepare_batch` reads -/

theorem batchRows_seen :
    batchRows cfg decodesLatents (ids.map (seen settings heap tokens)) =
      ModelRunner.batchRows cfg decodesLatents heap ids := by
  simp only [batchRows, ModelRunner.batchRows, List.map_map, List.length_map, List.any_map]
  have own : ids.map (BatchSequence.seqId ∘ seen settings heap tokens) = ids :=
    List.map_id ids
  rw [own]
  rfl

theorem gather_seen {indices : List Nat} (inside : ∀ k ∈ indices, k < ids.length) :
    gather (ids.map (seen settings heap tokens)) default indices =
      (gather ids 0 indices).map (seen settings heap tokens) :=
  gather_map inside

theorem movedRows_seen :
    movedRows runner (rows.batch.map (seen settings heap tokens)) =
      runner.movedRows heap rows := by
  unfold movedRows ModelRunner.movedRows
  split
  · rw [List.length_map]
    apply List.filter_congr
    intro r member
    have inside := List.mem_range.mp member
    simp [List.getD_eq_getElem?_getD, inside, seen, Sequence.attributes]
  · rfl

theorem movesBack_seen :
    movesBack runner (rows.batch.map (seen settings heap tokens)) =
      runner.movesBack heap rows := by
  have moved : ∀ r ∈ runner.movedRows heap rows, r < rows.batch.length := by
    intro r member
    unfold ModelRunner.movedRows at member
    split at member
    · exact List.mem_range.mp (List.mem_of_mem_filter member)
    · exact absurd member List.not_mem_nil
  have own : (gather rows.batch 0 (runner.movedRows heap rows)).map
      (BatchSequence.seqId ∘ seen settings heap tokens) =
      gather rows.batch 0 (runner.movedRows heap rows) := List.map_id _
  rw [movesBack, movedRows_seen, gather_seen moved, List.map_map, own, List.length_map] <;> rfl

theorem collectRow_seen {columns : TokenColumns} {i : SeqId} {start stop : Nat}
    (prompt : (heap i).isPrefill = true → tokens i = (heap i).tokenIds) :
    collectRow cfg runner columns (seen settings heap tokens i) start stop =
      runner.collectRow cfg columns i (heap i) start stop := by
  unfold collectRow ModelRunner.collectRow
  have own : (seen settings heap tokens i).isPrefill = (heap i).isPrefill := rfl
  by_cases prefill : (heap i).isPrefill = true
  · have read : (seen settings heap tokens i).tokenIds = (heap i).tokenIds := prompt prefill
    rw [if_pos (own.trans prefill), if_pos prefill, read]
    rfl
  · rw [if_neg (own ▸ prefill), if_neg prefill]
    rfl

theorem collectTokens_seen {columns : TokenColumns} {entries : List (Nat × Nat)}
    (prompt : ∀ i ∈ ids, (heap i).isPrefill = true → tokens i = (heap i).tokenIds) :
    collectTokens cfg runner columns ((ids.map (seen settings heap tokens)).zip entries) =
      runner.collectTokens cfg heap columns (ids.zip entries) := by
  induction ids generalizing columns entries with
  | nil => rfl
  | cons i ids ih =>
      cases entries with
      | nil => rfl
      | cons entry entries =>
          have here : collectRow cfg runner columns (seen settings heap tokens i) entry.1 entry.2 =
              runner.collectRow cfg columns i (heap i) entry.1 entry.2 :=
            collectRow_seen (prompt i List.mem_cons_self)
          simp only [List.map_cons, List.zip_cons_cons, collectTokens, ModelRunner.collectTokens,
            here]
          cases runner.collectRow cfg columns i (heap i) entry.1 entry.2 with
          | error fault => rfl
          | ok columns =>
              exact ih fun j member => prompt j (List.mem_cons_of_mem _ member)

/-- Only rows that do not sample are read past their chunk. -/
theorem nextTokens_seen {entries : List (Nat × Bool)}
    (same : ∀ entry ∈ ids.zip entries, entry.2.2 = false → tokens entry.1 = others entry.1) :
    nextTokens ((ids.map (seen settings heap tokens)).zip entries) =
      nextTokens ((ids.map (seen settings heap others)).zip entries) := by
  induction ids generalizing entries with
  | nil => rfl
  | cons i ids ih =>
      cases entries with
      | nil => rfl
      | cons entry entries =>
          have rest : nextTokens ((ids.map (seen settings heap tokens)).zip entries) =
              nextTokens ((ids.map (seen settings heap others)).zip entries) :=
            ih fun other member => same other (List.mem_cons_of_mem _ member)
          simp only [List.map_cons, List.zip_cons_cons, nextTokens, rest]
          split
          · rfl
          · rename_i silent
            have own : tokens i = others i :=
              same (i, entry) List.mem_cons_self (by simpa using silent)
            simp only [seen, own]

/-! ## Rows without their token ids -/

/-- A batch row whose sequence samples is among the sampling rows. -/
theorem mem_samplingRows (orders : rows.Orders heap ids) (distinct : ids.Nodup) {r : Nat}
    {i : SeqId} (found : rows.batch[r]? = some i) (samples : (heap i).Samples) :
    r ∈ gather rows.rowOf 0 rows.sampling := by
  have member : i ∈ ids := orders.perm.mem_iff.mp (List.mem_of_getElem? found)
  obtain ⟨k, inside, rfl⟩ := List.mem_iff_getElem.mp member
  have here : ids[k]? = some ids[k] := List.getElem?_eq_getElem inside
  have sampled : k ∈ rows.sampling := by
    rw [orders.sampling, List.mem_filter, List.mem_range]
    exact ⟨inside, by simpa [List.getD_eq_getElem?_getD, inside] using samples⟩
  obtain ⟨r', row, there⟩ := orders.rowOf here
  have nodup := orders.perm.nodup_iff.mpr distinct
  have same : r = r' := (List.getElem?_inj (List.getElem?_eq_some_iff.mp found).1 nodup).mp
    (found.trans there.symm)
  have got : rows.rowOf.getD k 0 = r := by
    rw [same, List.getD_eq_getElem?_getD, row]
    rfl
  exact List.mem_map.mpr ⟨k, sampled, got⟩

/-- The batch rows of a prepared batch, in scheduler order. -/
structure Arranges (rows : BatchRows) (heap : SeqId → Sequence) (ids : List SeqId) : Prop
    extends rows.Orders heap ids where
  distinct : ids.Nodup

theorem Arranges.mem (arranges : Arranges rows heap ids) {i : SeqId} (member : i ∈ rows.batch) :
    i ∈ ids :=
  arranges.perm.mem_iff.mp member

/-- Rows that do not sample are prefill rows, and those two copies agree on. -/
theorem Arranges.nextTokens_congr (arranges : Arranges rows heap ids)
    (agree : ∀ i ∈ ids, (heap i).isPrefill = true → tokens i = others i)
    (samples : ∀ i ∈ ids, (heap i).isPrefill = false → (heap i).Samples) (ends : List Nat) :
    nextTokens ((rows.batch.map (seen settings heap tokens)).zip (ends.zip (rowSamples rows))) =
      nextTokens
        ((rows.batch.map (seen settings heap others)).zip (ends.zip (rowSamples rows))) := by
  apply nextTokens_seen
  intro entry member silent
  obtain ⟨r, inside, rfl⟩ := List.mem_iff_getElem.mp member
  simp only [List.length_zip, rowSamples, List.length_map, List.length_range] at inside
  simp only [rowSamples, List.getElem_zip, List.getElem_map, List.getElem_range,
    decide_eq_false_iff_not] at silent ⊢
  have small : r < rows.batch.length := by omega
  have found := List.getElem?_eq_getElem small
  have known := arranges.mem (List.mem_of_getElem? found)
  cases prefill : (heap rows.batch[r]).isPrefill with
  | true => exact agree _ known prefill
  | false =>
      exact absurd (mem_samplingRows arranges.toOrders arranges.distinct found
        (samples _ known prefill)) silent

/-- A batch is prepared alike from any two copies of its sequences that have the
token ids of its prefill rows. -/
theorem Arranges.prepareRows_congr (arranges : Arranges rows heap ids)
    (prompt : ∀ i ∈ ids, (heap i).isPrefill = true → tokens i = (heap i).tokenIds)
    (promptToo : ∀ i ∈ ids, (heap i).isPrefill = true → others i = (heap i).tokenIds)
    (samples : ∀ i ∈ ids, (heap i).isPrefill = false → (heap i).Samples) (sampled : List SeqId) :
    prepareRows cfg decodesLatents runner rows (rows.batch.map (seen settings heap tokens))
        (sampled.map (seen settings heap tokens)) =
      prepareRows cfg decodesLatents runner rows (rows.batch.map (seen settings heap others))
        (sampled.map (seen settings heap others)) := by
  have agree : ∀ i ∈ ids, (heap i).isPrefill = true → tokens i = others i := fun i member prefill =>
    (prompt i member prefill).trans (promptToo i member prefill).symm
  unfold prepareRows
  simp only [draftNextTokens, movesBack_seen, movedRows_seen, List.map_map,
    arranges.nextTokens_congr agree samples,
    collectTokens_seen fun i member => prompt i (arranges.mem member),
    collectTokens_seen fun i member => promptToo i (arranges.mem member)]
  rfl

/-! ## No fault -/

theorem slotsOf_eq {table : List (List Int)} {entries : List (Nat × Nat)}
    (inside : ∀ entry ∈ entries, entry.2 / cfg.blockSize < (table.getD entry.1 []).length) :
    ∃ slots, slotsOf cfg table entries = .ok slots ∧ slots.length = entries.length := by
  induction entries with
  | nil => exact ⟨[], rfl, rfl⟩
  | cons entry entries ih =>
      obtain ⟨rest, found, length⟩ := ih fun other member =>
        inside other (List.mem_cons_of_mem _ member)
      obtain ⟨block, here⟩ : ∃ block,
          (table.getD entry.1 [])[entry.2 / cfg.blockSize]? = some block :=
        ⟨_, List.getElem?_eq_getElem (inside entry List.mem_cons_self)⟩
      refine ⟨(block * cfg.blockSize + (entry.2 % cfg.blockSize : Nat)) :: rest, ?_, ?_⟩
      · simp only [slotsOf, here, found, bind, Except.bind]
      · simp [length]

/-- A padded table is at least as wide as each row's own. -/
theorem paddedTables_eq {tables : List (List BlockId)} {r : Nat} {row : List BlockId}
    (found : tables[r]? = some row) (nonempty : row ≠ []) :
    ∃ table, paddedTables tables = some table ∧ row.length ≤ (table.getD r []).length := by
  have some : (tables.any (· ≠ [])) = true :=
    List.any_eq_true.mpr ⟨row, List.mem_of_getElem? found, by simpa using nonempty⟩
  refine ⟨_, if_pos some, ?_⟩
  simp [List.getD_eq_getElem?_getD, found]

/-- Where the tokens of a batch may lie: each in a block of its own row. -/
def Within (cfg : Config) (tables : List (List BlockId)) (entries : List (Nat × Nat)) : Prop :=
  ∀ entry ∈ entries, ∃ row, tables[entry.1]? = some row ∧ entry.2 / cfg.blockSize < row.length

theorem Within.slotsOf {tables : List (List BlockId)} {entries : List (Nat × Nat)}
    {table : List (List Int)} (within : Within cfg tables entries)
    (padded : paddedTables tables = some table) :
    ∃ slots, slotsOf cfg table entries = .ok slots ∧ slots.length = entries.length := by
  apply slotsOf_eq
  intro entry member
  obtain ⟨row, found, inside⟩ := within entry member
  obtain ⟨_, same, wide⟩ := paddedTables_eq found (List.ne_nil_of_length_pos (Nat.zero_lt_of_lt inside))
  obtain rfl := Option.some.inj (padded.symm.trans same)
  omega

theorem Within.slotMapping {tables : List (List BlockId)} {tokenRows positions : List Nat}
    (within : Within cfg tables (tokenRows.zip positions)) :
    ∃ slots, slotMapping cfg tables tokenRows positions = .ok slots ∧
      ∀ table, paddedTables tables = some table →
        slots.length = (tokenRows.zip positions).length := by
  unfold RankBatch.slotMapping
  cases padded : paddedTables tables with
  | none => exact ⟨[], rfl, by simp⟩
  | some table =>
      have all : (tokenRows.zip positions).filter
          (fun token => tables.getD token.1 [] ≠ []) = tokenRows.zip positions := by
        apply List.filter_eq_self.mpr
        intro token member
        obtain ⟨row, found, inside⟩ := within token member
        have nonempty : row ≠ [] := List.ne_nil_of_length_pos (Nat.zero_lt_of_lt inside)
        simpa [List.getD_eq_getElem?_getD, found] using nonempty
      obtain ⟨slots, mapped, length⟩ := within.slotsOf padded
      exact ⟨slots, by rw [all]; exact mapped, fun _ _ => length⟩

theorem nextTokens_eq {entries : List (BatchSequence × Nat × Bool)}
    (inside : ∀ entry ∈ entries, entry.2.2 = false → entry.2.1 < entry.1.tokenIds.length) :
    ∃ next, nextTokens entries = .ok next := by
  induction entries with
  | nil => exact ⟨[], rfl⟩
  | cons entry entries ih =>
      obtain ⟨rest, found⟩ := ih fun other member => inside other (List.mem_cons_of_mem _ member)
      cases samples : entry.2.2 with
      | true => exact ⟨-1 :: rest, by simp [nextTokens, samples, found, bind, Except.bind]⟩
      | false =>
          have here := List.getElem?_eq_getElem (inside entry List.mem_cons_self samples)
          exact ⟨_ :: rest, by simp [nextTokens, samples, here, found, bind, Except.bind]; rfl⟩

/-- Rows only move back. -/
theorem placement_starts_le (decodesLatents : Bool) (rows : BatchRows) (moved back : List Nat)
    (r : Nat) :
    (placement decodesLatents rows moved back).starts.getD r 0 ≤ rows.starts.getD r 0 := by
  simp only [placement]
  split
  · rw [List.getD_eq_getElem?_getD, List.getD_eq_getElem?_getD, List.getElem?_zipWith]
    cases rows.starts[r]? <;> cases back[r]? <;> simp
  · exact Nat.le_refl _

/-- The tokens of a batch lie before the end of their rows. -/
theorem lt_of_mem_hostPositions (orders : rows.Orders heap ids) {moved back : List Nat}
    {entry : Nat × Nat}
    (member : entry ∈ (placement decodesLatents rows moved back).tokenRows.zip
      (placement decodesLatents rows moved back).hostPositions) :
    ∃ i, rows.batch[entry.1]? = some i ∧
      entry.2 < (heap i).numCachedTokens + (heap i).numScheduledTokens := by
  obtain ⟨k, inside, rfl⟩ := List.mem_iff_getElem.mp member
  have counted : rows.batch.length = rows.lens.length := by rw [orders.lens, List.length_map]
  simp only [placement, List.getElem_zip, List.getElem_zipWith, List.getElem_range] at inside ⊢
  simp only [List.length_zip, List.length_zipWith, List.length_range] at inside
  -- the pair of a token's row number and its flat position
  have pair : ((repeatEach (List.range rows.batch.length) rows.lens)[k], k) ∈
      List.zipWith Prod.mk (repeatEach (List.range rows.lens.length) rows.lens)
        (List.range rows.lens.sum) := by
    rw [List.mem_iff_getElem]
    refine ⟨k, ?_, ?_⟩
    · simp only [List.length_zipWith, List.length_range, ← counted]
      omega
    · simp [counted]
  rw [zipWith_rowNumbers] at pair
  obtain ⟨r, small, found⟩ := List.mem_flatMap.mp pair
  obtain ⟨o, within, same⟩ := List.mem_map.mp found
  obtain ⟨row, place⟩ := Prod.mk.inj same
  rw [← row, ← place]
  have inBatch : r < rows.batch.length := by
    rw [counted]
    exact List.mem_range.mp small
  refine ⟨rows.batch[r], List.getElem?_eq_getElem inBatch, ?_⟩
  have len : rows.lens.getD r 0 = (heap rows.batch[r]).numScheduledTokens := by
    rw [orders.lens]
    simp [List.getD_eq_getElem?_getD, inBatch]
  have start : rows.starts.getD r 0 = (heap rows.batch[r]).numCachedTokens := by
    rw [orders.starts]
    simp [List.getD_eq_getElem?_getD, inBatch]
  have lower := placement_starts_le decodesLatents rows moved back r
  simp only [placement] at lower
  have below := List.mem_range.mp within
  omega

theorem ends_le (orders : rows.Orders heap ids) {moved back : List Nat} {r : Nat}
    (inside : r < (placement decodesLatents rows moved back).ends.length)
    (inBatch : r < rows.batch.length) :
    (placement decodesLatents rows moved back).ends[r] ≤
      (heap rows.batch[r]).numCachedTokens + (heap rows.batch[r]).numScheduledTokens := by
  have lower := placement_starts_le decodesLatents rows moved back r
  have start : rows.starts.getD r 0 = (heap rows.batch[r]).numCachedTokens := by
    rw [orders.starts]
    simp [List.getD_eq_getElem?_getD, inBatch]
  have inStarts : r < (placement decodesLatents rows moved back).starts.length := by
    simp only [placement, List.length_zipWith] at inside ⊢
    omega
  have inLens : r < rows.lens.length := by
    simp only [placement, List.length_zipWith] at inside
    omega
  have len : rows.lens[r] = (heap rows.batch[r]).numScheduledTokens := by
    simp [orders.lens]
  have stop : (placement decodesLatents rows moved back).ends[r] =
      (placement decodesLatents rows moved back).starts[r] + rows.lens[r] := by
    simp [placement]
  rw [List.getD_eq_getElem?_getD, List.getElem?_eq_getElem inStarts, Option.getD_some] at lower
  omega

/-- What the rows of a batch must be for every rank to prepare it: they can be laid
out, and their blocks cover what they compute. -/
structure Fits (cfg : Config) (runner : ModelRunner) (heap : SeqId → Sequence) (ids : List SeqId) :
    Prop where
  distinct : ids.Nodup
  lies : ∀ i ∈ ids, runner.Lies cfg i (heap i)
  covered : ∀ i ∈ ids, (heap i).numCachedTokens + (heap i).numScheduledTokens ≤
    (heap i).blockTable.length * cfg.blockSize

theorem Fits.samples (fits : Fits cfg runner heap ids) :
    ∀ i ∈ ids, (heap i).isPrefill = false → (heap i).Samples :=
  fun i member => (fits.lies i member).samples

theorem Fits.arranges (fits : Fits cfg runner heap ids) :
    Arranges (ModelRunner.batchRows cfg decodesLatents heap ids) heap ids :=
  ⟨batchRows_orders cfg decodesLatents heap ids, fits.distinct⟩

/-- Every position of a batch is in a block of its row. -/
theorem Fits.within (fits : Fits cfg runner heap ids) (arranges : Arranges rows heap ids)
    {moved back positions : List Nat} {place : Placement}
    (placed : place = placement decodesLatents rows moved back)
    (below : ∀ entry ∈ place.tokenRows.zip positions,
      ∃ p, (entry.1, p) ∈ place.tokenRows.zip place.hostPositions ∧ entry.2 ≤ p) :
    Within cfg (rows.batch.map fun i => (heap i).blockTable)
      (place.tokenRows.zip positions) := by
  subst placed
  intro entry member
  obtain ⟨p, among, lower⟩ := below entry member
  obtain ⟨i, found, before⟩ := lt_of_mem_hostPositions arranges.toOrders among
  have covered := fits.covered i (arranges.mem (List.mem_of_getElem? found))
  refine ⟨(heap i).blockTable, by simp [found], ?_⟩
  apply Nat.div_lt_of_lt_mul
  rw [Nat.mul_comm]
  exact Nat.lt_of_le_of_lt lower (Nat.lt_of_lt_of_le before covered)

/-- The stages of a layout, as the ranks go through them. -/
structure Stages (cfg : Config) (decodesLatents : Bool) (runner : ModelRunner)
    (heap : SeqId → Sequence) (ids : List SeqId) (rows : BatchRows) (layout : BatchLayout)
    (back : List Nat) (columns : TokenColumns) (copied : List Token) (place : Placement) :
    Prop where
  moves : runner.movesBack heap rows = .ok back
  placed : place = placement decodesLatents rows (runner.movedRows heap rows) back
  collected : runner.collectTokens cfg heap {} (rows.batch.zip (place.starts.zip place.ends)) =
    .ok columns
  pending : runner.copyPending columns = .ok copied
  drafts : runner.copyDrafts columns copied = .ok layout.inputIds
  positions : layout.positions = place.positions
  contextLens : layout.contextLens = place.contextLens
  isPrefill : layout.isPrefill = rows.isPrefill
  logits : layout.logitsIndices = if rows.isPrefill then some (logitsIndices rows) else none
  samplingRows : layout.samplingRows = gather ids 0 rows.sampling
  numDraftTokens : layout.numDraftTokens = rows.samplingDrafts

theorem stages_of_prepared {layout : BatchLayout}
    (prepared : runner.prepareBatch cfg decodesLatents heap ids = .ok layout) :
    ∃ back columns copied place, Stages cfg decodesLatents runner heap ids
      (ModelRunner.batchRows cfg decodesLatents heap ids) layout back columns copied place := by
  unfold ModelRunner.prepareBatch at prepared
  cases moves : runner.movesBack heap (ModelRunner.batchRows cfg decodesLatents heap ids) with
  | error fault => simp [moves, bind, Except.bind] at prepared
  | ok back =>
      simp only [moves, bind, Except.bind] at prepared
      split at prepared
      · contradiction
      · rename_i columns collected
        split at prepared
        · contradiction
        · rename_i copied pending
          split at prepared
          · contradiction
          · rename_i inputIds drafts
            obtain rfl := Except.ok.inj prepared
            exact ⟨back, columns, copied, _, moves, rfl, collected, pending, drafts, rfl, rfl, rfl,
              rfl, rfl, rfl⟩

/-- What the inputs of a batch and its layout both hold. -/
structure Agrees (inputs : BatchInputs) (layout : BatchLayout) : Prop where
  inputIds : inputs.inputIds = layout.inputIds
  positions : inputs.positions = layout.positions
  contextLens : inputs.context.contextLens = layout.contextLens
  isPrefill : inputs.context.isPrefill = layout.isPrefill
  logits : inputs.context.logitsIndices = layout.logitsIndices
  samplingRows : inputs.samplingRows = layout.samplingRows
  numDraftTokens : inputs.numDraftTokens = layout.numDraftTokens

/-- The device's positions are no further than the host's. -/
theorem Placement.positions_le {place : Placement}
    (counted : place.hostPositions.length = place.tokenRows.length) :
    place.positions.length = place.hostPositions.length ∧
      ∀ entry ∈ place.tokenRows.zip place.positions,
        ∃ p, (entry.1, p) ∈ place.tokenRows.zip place.hostPositions ∧ entry.2 ≤ p := by
  constructor
  · simp [Placement.positions, counted]
  · intro entry member
    obtain ⟨k, inside, rfl⟩ := List.mem_iff_getElem.mp member
    have small : k < place.tokenRows.length := by
      simp only [List.length_zip] at inside
      omega
    refine ⟨place.hostPositions[k], List.mem_iff_getElem.mpr ⟨k, ?_, ?_⟩, ?_⟩
    · simpa [counted] using small
    · simp
    · simp [Placement.positions]

theorem hostPositions_length (orders : rows.Orders heap ids) {moved back : List Nat}
    {place : Placement} (placed : place = placement decodesLatents rows moved back) :
    place.hostPositions.length = place.tokenRows.length := by
  subst placed
  have counted : rows.batch.length = rows.lens.length := by rw [orders.lens, List.length_map]
  simp only [placement, List.length_zipWith, List.length_range, counted, length_repeatEach_range,
    Nat.min_self]

/-- The slots of a batch: those of the host, or those of the corrected positions. -/
theorem Fits.slots (fits : Fits cfg runner heap ids) (arranges : Arranges rows heap ids)
    {back : List Nat} {place : Placement}
    (placed : place = placement decodesLatents rows (runner.movedRows heap rows) back) :
    ∃ hostSlots slots,
      slotMapping cfg (rows.batch.map fun i => (heap i).blockTable) place.tokenRows
        place.hostPositions = .ok hostSlots ∧
      deviceSlots cfg (rows.batch.map fun i => (heap i).blockTable) place hostSlots =
        .ok slots := by
  obtain ⟨moved, below⟩ := Placement.positions_le (hostPositions_length arranges.toOrders placed)
  obtain ⟨hostSlots, mapped, length⟩ := (fits.within arranges placed
    fun entry member => ⟨entry.2, member, Nat.le_refl _⟩).slotMapping
  have within := fits.within arranges placed below
  refine ⟨hostSlots, ?_⟩
  by_cases still : place.moved = []
  · exact ⟨hostSlots, mapped, if_pos still⟩
  · -- a moved row decodes, so it has blocks
    obtain ⟨r, member⟩ := List.exists_mem_of_ne_nil _ still
    have among : r ∈ runner.movedRows heap rows := by
      rw [placed] at member
      simp only [placement] at member
      split at member
      · exact absurd member List.not_mem_nil
      · exact member
    obtain ⟨i, found, pending⟩ : ∃ i, rows.batch[r]? = some i ∧
        (heap i).numPendingTokens ≠ 0 := by
      unfold ModelRunner.movedRows at among
      split at among
      · obtain ⟨small, pending⟩ := List.mem_filter.mp among
        have inside := List.mem_range.mp small
        refine ⟨rows.batch[r], List.getElem?_eq_getElem inside, ?_⟩
        simpa [List.getD_eq_getElem?_getD, inside] using pending
      · exact absurd among List.not_mem_nil
    have known := arranges.mem (List.mem_of_getElem? found)
    have laid := (fits.lies i known).toLaid
    have width := laid.decoding (laid.decoding_of_pending pending)
    have covered := fits.covered i known
    have blocks : (heap i).blockTable ≠ [] := by
      intro empty
      rw [empty, List.length_nil, Nat.zero_mul] at covered
      omega
    have table : (rows.batch.map fun i => (heap i).blockTable)[r]? = some (heap i).blockTable := by
      simp [found]
    obtain ⟨padded, paddedEq, _⟩ := paddedTables_eq table blocks
    obtain ⟨slots, movedEq, movedLength⟩ := within.slotsOf paddedEq
    have same : slots.length = hostSlots.length := by
      rw [movedLength, length padded paddedEq, List.length_zip, List.length_zip, moved]
    refine ⟨slots, mapped, ?_⟩
    rw [deviceSlots, if_neg still]
    simp [movedSlots, paddedEq, movedEq, same, bind, Except.bind]

/-- No rank reads past the tokens of a row that does not sample. -/
theorem Fits.nextTokens (fits : Fits cfg runner heap ids) (arranges : Arranges rows heap ids)
    {moved back : List Nat} {place : Placement}
    (placed : place = placement decodesLatents rows moved back) :
    ∃ next, nextTokens ((rows.batch.map (seen settings heap fun i => (heap i).tokenIds)).zip
      (place.ends.zip (rowSamples rows))) = .ok next := by
  apply nextTokens_eq
  intro entry member silent
  obtain ⟨r, inside, rfl⟩ := List.mem_iff_getElem.mp member
  simp only [List.length_zip, rowSamples, List.length_map, List.length_range] at inside
  simp only [rowSamples, List.getElem_zip, List.getElem_map, List.getElem_range,
    decide_eq_false_iff_not] at silent ⊢
  have small : r < rows.batch.length := by omega
  have found := List.getElem?_eq_getElem small
  have known := arranges.mem (List.mem_of_getElem? found)
  have unsampled : ¬ (heap rows.batch[r]).Samples := fun samples =>
    silent (mem_samplingRows arranges.toOrders arranges.distinct found samples)
  have prefill : (heap rows.batch[r]).isPrefill = true := by
    by_contra decoding
    exact unsampled (fits.samples _ known (by simpa using decoding))
  have settled := ((fits.lies _ known).prefilling prefill).1
  have stop : place.ends[r] ≤ (heap rows.batch[r]).numCachedTokens +
      (heap rows.batch[r]).numScheduledTokens := by
    subst placed
    exact ends_le arranges.toOrders _ small
  simp only [Sequence.Samples, Sequence.numPlannedTokens, Sequence.numTokens] at unsampled
  simp only [seen]
  omega

/-- Rank 0 prepares the batch its layout is of. -/
theorem Fits.prepareRows_eq (fits : Fits cfg runner heap ids)
    (settings : SeqId → SamplerSettings) {layout : BatchLayout}
    (prepared : runner.prepareBatch cfg decodesLatents heap ids = .ok layout)
    (rowsEq : ModelRunner.batchRows cfg decodesLatents heap ids = rows) :
    ∃ inputs, prepareRows cfg decodesLatents runner rows
        (rows.batch.map (seen settings heap fun i => (heap i).tokenIds))
        ((gather ids 0 rows.sampling).map (seen settings heap fun i => (heap i).tokenIds)) =
      .ok inputs ∧ Agrees inputs layout := by
  subst rowsEq
  have arranges : Arranges (ModelRunner.batchRows cfg decodesLatents heap ids) heap ids :=
    fits.arranges
  obtain ⟨back, columns, copied, place, stages⟩ := stages_of_prepared prepared
  obtain ⟨hostSlots, slots, mapped, slotted⟩ := fits.slots arranges stages.placed
  obtain ⟨next, read⟩ : ∃ next, draftNextTokens cfg
      (ModelRunner.batchRows cfg decodesLatents heap ids) place
      ((ModelRunner.batchRows cfg decodesLatents heap ids).batch.map
        (seen settings heap fun i => (heap i).tokenIds)) = .ok next := by
    unfold draftNextTokens
    split
    · exact ⟨[], rfl⟩
    · exact fits.nextTokens arranges stages.placed
  have tables : (ModelRunner.batchRows cfg decodesLatents heap ids).batch.map
      (BatchSequence.blockTable ∘ seen settings heap fun i => (heap i).tokenIds) =
      (ModelRunner.batchRows cfg decodesLatents heap ids).batch.map
        fun i => (heap i).blockTable := rfl
  have own : (gather ids 0 (ModelRunner.batchRows cfg decodesLatents heap ids).sampling).map
      (BatchSequence.seqId ∘ seen settings heap fun i => (heap i).tokenIds) =
      gather ids 0 (ModelRunner.batchRows cfg decodesLatents heap ids).sampling := List.map_id _
  simp only [prepareRows, movesBack_seen, movedRows_seen, List.map_map, tables, own,
    collectTokens_seen fun _ _ _ => rfl, stages.moves, ← stages.placed, stages.collected,
    stages.pending, stages.drafts, mapped, read, slotted, bind, Except.bind]
  exact ⟨_, rfl, rfl, stages.positions.symm, stages.contextLens.symm, stages.isPrefill.symm,
    stages.logits.symm, stages.samplingRows.symm, stages.numDraftTokens.symm⟩

/-- A batch prepared on both sides of the broadcast. -/
theorem Fits.prepareBatch_eq (fits : Fits cfg runner heap ids)
    (settings : SeqId → SamplerSettings) (nonempty : ids ≠ [])
    (tokened : ∀ i ∈ ids, (heap i).tokenIds ≠ []) {layout : BatchLayout}
    (prepared : runner.prepareBatch cfg decodesLatents heap ids = .ok layout) :
    ∃ seqs inputs, BatchSequence.received (originals settings heap ids) = .ok seqs ∧
      prepareBatch cfg decodesLatents runner (originals settings heap ids) = .ok inputs ∧
      prepareBatch cfg decodesLatents runner seqs = .ok inputs ∧ Agrees inputs layout := by
  let sent : SeqId → List Token := fun i => if (heap i).isPrefill then (heap i).tokenIds else []
  let rows := ModelRunner.batchRows cfg decodesLatents heap ids
  have arranges : Arranges rows heap ids := fits.arranges
  have received : BatchSequence.received (originals settings heap ids) =
      .ok (ids.map (seen settings heap sent)) := by
    rw [BatchSequence.received_eq, originals, List.map_map]
    · rfl
    · intro seq member
      obtain ⟨i, among, rfl⟩ := List.mem_map.mp member
      have last := List.getLast?_eq_some_getLast (tokened i among)
      simp [Sequence.attributes, Sequence.lastToken, last]
  have ordered : ∀ k ∈ rows.order, k < ids.length := by
    intro k member
    have perm := rowOrder_perm (ids.map fun i => (heap i).numScheduledTokens) rows.queryLen
    rw [List.length_map] at perm
    exact List.mem_range.mp (perm.mem_iff.mp member)
  have sampling : ∀ k ∈ rows.sampling, k < ids.length := by
    intro k member
    rw [arranges.sampling] at member
    exact List.mem_range.mp (List.mem_of_mem_filter member)
  -- every rank finds the same rows
  have rank : ∀ tokens : SeqId → List Token,
      prepareBatch cfg decodesLatents runner (ids.map (seen settings heap tokens)) =
        prepareRows cfg decodesLatents runner rows (rows.batch.map (seen settings heap tokens))
          ((gather ids 0 rows.sampling).map (seen settings heap tokens)) := by
    intro tokens
    rw [prepareBatch, if_neg (by simpa using nonempty)]
    simp only [batchRows_seen]
    rw [gather_seen ordered, gather_seen sampling]
    rfl
  obtain ⟨inputs, prepared, agrees⟩ := fits.prepareRows_eq settings prepared rfl
  refine ⟨_, inputs, received, (rank _).trans prepared, ?_, agrees⟩
  rw [rank]
  refine Eq.trans (arranges.prepareRows_congr ?_ (fun _ _ _ => rfl) fits.samples _) prepared
  intro i _ prefill
  exact if_pos prefill

end RankBatch

/-! ## An engine and a rank that follows it -/

/-- An engine, and the runner of one of its other ranks. -/
structure Ranks where
  engine : LLMEngine
  worker : ModelRunner

namespace Ranks

/-- What a rank does about a launch: nothing if no call is broadcast. -/
def followLaunch (cfg : Config) (decodesLatents : Bool) (settings : SeqId → SamplerSettings)
    (worker : ModelRunner) (batch : Scheduler.Batch) (env : StepEnv) : Except Fault ModelRunner :=
  if batch.output.scheduled = [] then .ok worker
  else
    (RankBatch.follow cfg decodesLatents worker
      (RankBatch.originals settings batch.reported.heap batch.output.scheduled)
      ((batch.inputs.filter RowInput.samples).map env.forward)).map Prod.fst

/-- One action of a run, with what the rank does about it.  Only steps launch. -/
inductive Next (cfg : Config) (decodesLatents : Bool) (settings : SeqId → SamplerSettings) :
    Ranks → LLMEngine.Action → Ranks → Prop
  | client {ranks : Ranks} {action : LLMEngine.Action} {next : LLMEngine}
      (taken : LLMEngine.Next cfg ranks.engine action next)
      (idle : ∀ env outputs, action ≠ .step env outputs) :
      Next cfg decodesLatents settings ranks action ⟨next, ranks.worker⟩
  | step {ranks : Ranks} {env : StepEnv} {outputs : List (SeqId × RequestOutput)}
      {next : LLMEngine} {batch : Scheduler.Batch} {worker : ModelRunner}
      (taken : LLMEngine.Next cfg ranks.engine (.step env outputs) next)
      (batched : ranks.engine.batch cfg env = .ok batch)
      (followed : followLaunch cfg decodesLatents settings ranks.worker batch env = .ok worker) :
      Next cfg decodesLatents settings ranks (.step env outputs) ⟨next, worker⟩

/-- An engine and a rank that some run leads to. -/
def Reachable (cfg : Config) (decodesLatents : Bool) (settings : SeqId → SamplerSettings)
    (ranks : Ranks) : Prop :=
  ∃ actions, Transition.Run (Next cfg decodesLatents settings)
    ⟨LLMEngine.create cfg, {}⟩ actions ranks

end Ranks

variable {cfg : Config} {decodesLatents : Bool} {settings : SeqId → SamplerSettings}
  {engine : LLMEngine} {env : StepEnv} {flight : Flight}

/-- The rows of a launch fit every rank. -/
theorem Scheduler.Launches.fits {s : Scheduler} {runner : ModelRunner} {launch : Launch}
    (launches : s.Launches cfg env runner flight launch) (wf : flight.Wf cfg)
    (device : flight = [] ∨ runner = flight.runner cfg) :
    RankBatch.Fits cfg runner launch.reported.heap launch.output.scheduled ∧
      ∀ i ∈ launch.output.scheduled, (launch.reported.heap i).tokenIds ≠ [] := by
  have pass := launches.reported
  have active : ∀ i ∈ launch.output.scheduled, (launch.reported.heap i).Active cfg
      (due flight.rows i (launch.reported.heap i).numPreemptions) := fun i member =>
    (pass.inv.running (pass.running i member)).2.2.2
  refine ⟨⟨pass.nodup, fun i member =>
    ModelRunner.lies_of_ready (active i member) (pass.ready i member) wf device, ?_⟩, ?_⟩
  · intro i member
    have ready : (launch.reported.heap i).Ready cfg := pass.ready i member
    cases prefill : (launch.reported.heap i).isPrefill with
    | true =>
        have covered := ((active i member).prefilling prefill).2.2.2
        have chunk := ready.prefilling prefill
        omega
    | false =>
        have frontier := ((active i member).decoding prefill).1
        have width := (ready.decoding prefill).1
        have covered := (ready.decoding prefill).2.2
        omega
  · intro i member empty
    have prompt := (active i member).prompt_pos
    have within := (active i member).prompt_le
    simp only [Sequence.numTokens, empty, List.length_nil] at within
    omega

/-- A rank that sampled the rows of a launch keeps what rank 0 keeps. -/
theorem RankBatch.kept_eq {launch : Scheduler.Launch} {inputs : BatchInputs}
    {layout : BatchLayout} (agrees : RankBatch.Agrees inputs layout)
    (pairs : Pairs layout (launch.flight env).rows) :
    RankBatch.kept cfg inputs ((launch.inputs.filter RowInput.samples).map env.forward) =
      (launch.flight env).runner cfg := by
  have seqs : inputs.samplingRows = (launch.flight env).map fun launched => launched.1.seq := by
    rw [agrees.samplingRows, ← pairs.seqs, Flight.rows, List.map_map]
    rfl
  have drafts : inputs.numDraftTokens =
      (launch.flight env).map fun launched => launched.1.numDraftTokens := by
    rw [agrees.numDraftTokens, ← pairs.drafts, Flight.rows, List.map_map]
    rfl
  have samples : (launch.inputs.filter RowInput.samples).map env.forward =
      (launch.flight env).map Prod.snd := by
    simp [Scheduler.Launch.flight, Flight.launch, Function.comp_def]
  simp [RankBatch.kept, Flight.runner, Flight.tokens, seqs, drafts, samples, List.zipWith_map,
    List.zipWith_self, Function.comp_def]

/-- A rank in the state of rank 0 prepares what rank 0 prepares, and stays in its
state. -/
theorem LLMEngine.Reachable.followed (reachable : LLMEngine.Reachable cfg engine)
    (valid : env.Valid cfg engine) (decodesLatents : Bool)
    (settings : SeqId → SamplerSettings) :
    ∃ batch next outputs, engine.batch cfg env = .ok batch ∧
      engine.step cfg env = .ok (next, outputs) ∧
      Ranks.followLaunch cfg decodesLatents settings engine.runner batch env = .ok next.runner ∧
      (batch.output.scheduled ≠ [] → ∃ seqs inputs,
        BatchSequence.received (RankBatch.originals settings batch.reported.heap
          batch.output.scheduled) = .ok seqs ∧
        RankBatch.prepareBatch cfg decodesLatents engine.runner (RankBatch.originals settings
          batch.reported.heap batch.output.scheduled) = .ok inputs ∧
        RankBatch.prepareBatch cfg decodesLatents engine.runner seqs = .ok inputs) := by
  obtain ⟨flight, inv⟩ := reachable.inv
  obtain ⟨launch, last, stepped, stepEq, steps, _, batchEq⟩ := LLMEngine.step_spec inv valid
  obtain ⟨s, before, launches, wf, device⟩ := steps.launches inv
  obtain ⟨layout, prepared, _, pairs⟩ :=
    launches.pairs wf device reachable.holds decodesLatents
  obtain ⟨fits, tokened⟩ := launches.fits wf device
  have scheduledEq := launches.batch_scheduled
  refine ⟨launch.batch cfg, _, _, batchEq, stepEq, ?_⟩
  rw [Ranks.followLaunch, scheduledEq]
  by_cases scheduled : launch.output.scheduled = []
  · refine ⟨?_, fun some => absurd scheduled some⟩
    rw [if_pos scheduled]
    simp [LLMEngine.next, LLMEngine.launched, scheduled]
  · obtain ⟨seqs, inputs, received, own, other, agrees⟩ :=
      fits.prepareBatch_eq settings scheduled tokened prepared
    have same : (launch.batch cfg).reported = launch.reported := rfl
    have rows : (launch.batch cfg).inputs = launch.inputs := rfl
    refine ⟨?_, fun _ => ⟨seqs, inputs, received, own, other⟩⟩
    rw [if_neg scheduled, same, rows]
    simp only [RankBatch.follow, received, other, bind, Except.bind, Except.map,
      RankBatch.kept_eq agrees pairs, LLMEngine.next, LLMEngine.launched, if_neg scheduled]

namespace Ranks

variable {ranks : Ranks}

/-- A rank that follows the engine's launches is in the state of rank 0. -/
theorem Reachable.inStep (reachable : Reachable cfg decodesLatents settings ranks) :
    LLMEngine.Reachable cfg ranks.engine ∧ ranks.worker = ranks.engine.runner := by
  obtain ⟨actions, run⟩ := reachable
  refine Transition.Run.invariant (fun _ ranks => LLMEngine.Reachable cfg ranks.engine ∧
    ranks.worker = ranks.engine.runner) ⟨.create cfg, rfl⟩ ?_ run
  rintro _ before action after ⟨⟨taken, run⟩, inStep⟩ next
  cases next with
  | client move idle =>
      refine ⟨⟨_, .snoc run move⟩, ?_⟩
      obtain ⟨flight, inv⟩ := LLMEngine.Reachable.inv ⟨_, run⟩
      obtain ⟨_, acts, _⟩ := move.acts inv
      cases acts with
      | add adds => cases adds <;> exact inStep
      | abort aborts => cases aborts <;> exact inStep
      | step answers steps => exact absurd rfl (idle _ _)
  | step move batched followed =>
      refine ⟨⟨_, .snoc run move⟩, ?_⟩
      cases move with
      | step valid stepped =>
          obtain ⟨_, _, _, batchEq, stepEq, followEq, _⟩ :=
            LLMEngine.Reachable.followed ⟨_, run⟩ valid decodesLatents settings
          obtain rfl := Except.ok.inj (batchEq.symm.trans batched)
          obtain ⟨rfl, _⟩ := Prod.mk.inj (Except.ok.inj (stepEq.symm.trans stepped))
          rw [inStep] at followed
          exact Except.ok.inj (followed.symm.trans followEq)

end Ranks

/-- Whatever the clients and the connector do, a rank that follows the engine's
launches prepares from the unpickled sequences of each batch exactly what rank 0
prepares from its own, with no fault on either side, and can follow the next
launch too. -/
theorem ranks_prepare_same_batch (cfg : Config) (decodesLatents : Bool)
    (settings : SeqId → SamplerSettings) (ranks : Ranks)
    (reachable : Ranks.Reachable cfg decodesLatents settings ranks) (env : StepEnv)
    (valid : env.Valid cfg ranks.engine) :
    ∃ batch next outputs worker, ranks.engine.batch cfg env = .ok batch ∧
      ranks.engine.step cfg env = .ok (next, outputs) ∧
      Ranks.Next cfg decodesLatents settings ranks (.step env outputs) ⟨next, worker⟩ ∧
      (batch.output.scheduled ≠ [] → ∃ seqs inputs,
        BatchSequence.received (RankBatch.originals settings batch.reported.heap
          batch.output.scheduled) = .ok seqs ∧
        RankBatch.prepareBatch cfg decodesLatents ranks.engine.runner
          (RankBatch.originals settings batch.reported.heap batch.output.scheduled) =
            .ok inputs ∧
        RankBatch.prepareBatch cfg decodesLatents ranks.worker seqs = .ok inputs) := by
  obtain ⟨known, inStep⟩ := reachable.inStep
  obtain ⟨batch, next, outputs, batchEq, stepEq, followEq, prepared⟩ :=
    known.followed valid decodesLatents settings
  rw [← inStep] at followEq
  refine ⟨batch, next, outputs, next.runner, batchEq, stepEq,
    .step (.step valid stepEq) batchEq followEq, ?_⟩
  intro scheduled
  obtain ⟨seqs, inputs, received, own, other⟩ := prepared scheduled
  rw [inStep]
  exact ⟨seqs, inputs, received, own, other⟩

/-- A rank of the sample engine, at its second launch: a decode row whose token is
still on the device. -/
theorem ranks_prepare_same_batch_sample :
    ∃ batch worker seqs inputs,
      LLMEngine.sampleRunning.batch .sample .sample = .ok batch ∧
      (batch.reported.heap 0).isPrefill = false ∧
      BatchSequence.received (RankBatch.originals (fun _ => ⟨0, 0, 1⟩) batch.reported.heap
        batch.output.scheduled) = .ok seqs ∧
      RankBatch.prepareBatch .sample false LLMEngine.sampleRunning.runner
        (RankBatch.originals (fun _ => ⟨0, 0, 1⟩) batch.reported.heap batch.output.scheduled) =
          .ok inputs ∧
      RankBatch.prepareBatch .sample false worker seqs = .ok inputs := by
  have queued := Transition.Run.snoc .nil
    (.client LLMEngine.sampleQueued_next fun _ _ => by simp :
      Ranks.Next .sample false (fun _ => ⟨0, 0, 1⟩) ⟨LLMEngine.create .sample, {}⟩ _
        ⟨LLMEngine.sampleQueued, {}⟩)
  obtain ⟨_, next, outputs, worker, _, stepEq, step, _⟩ :=
    ranks_prepare_same_batch .sample false (fun _ => ⟨0, 0, 1⟩) ⟨LLMEngine.sampleQueued, {}⟩
      ⟨_, queued⟩ .sample (LLMEngine.sample_valid _)
  have reached : next = LLMEngine.sampleRunning := by
    simp only at stepEq
    rw [LLMEngine.sampleRunning, stepEq]
  subst reached
  obtain ⟨batch, _, _, _, batchEq, _, _, prepared⟩ :=
    ranks_prepare_same_batch .sample false (fun _ => ⟨0, 0, 1⟩) ⟨LLMEngine.sampleRunning, worker⟩
      ⟨_, .snoc queued step⟩ .sample (LLMEngine.sample_valid _)
  have row : (LLMEngine.sampleRunning.batch .sample .sample).map
      (fun batch => (batch.output.scheduled, (batch.reported.heap 0).isPrefill)) =
        .ok ([0], false) := by decide +kernel
  rw [batchEq] at row
  obtain ⟨one, decoding⟩ := Prod.mk.inj (Except.ok.inj row)
  obtain ⟨seqs, inputs, received, own, other⟩ := prepared (by simp [one])
  exact ⟨batch, worker, seqs, inputs, batchEq, decoding, received, own, other⟩

end LeanVllm
