import LeanVllm.Engine.TensorParallel
import Mathlib.Data.List.GetD

/-!
# The stages of a batch

`prepare_batch` builds its rows on the host at some starts, and `_move_back` then
corrects them on the device.  Both stages compute with arrays over permuted rows:
row numbers repeated along their tokens, running totals, gathers through a padded
table and scatters from the previous step.  Row by row these arrays are plain, and
the inputs of a batch are given here in that form.
-/

namespace LeanVllm

open Collections

namespace RankBatch

open ModelRunner

variable {cfg : Config} {decodesLatents : Bool} {runner : ModelRunner}
  {settings : SeqId → SamplerSettings} {heap : SeqId → Sequence} {ids : List SeqId}
  {rows : BatchRows}

/-! ## The stages of `prepare_batch` -/

/-- `prepare_batch` once its rows are placed. -/
def assemble (cfg : Config) (runner : ModelRunner) (rows : BatchRows)
    (batch sampled : List BatchSequence) (place : Placement) : Except Fault BatchInputs := do
  let columns ← collectTokens cfg runner {} (batch.zip (place.starts.zip place.ends))
  let tables := batch.map BatchSequence.blockTable
  let hostSlots ← slotMapping cfg tables place.tokenRows place.hostPositions
  let ids ← runner.copyPending columns
  let inputIds ← runner.copyDrafts columns ids
  let nextTokenIds ← draftNextTokens cfg rows place batch
  let slots ← deviceSlots cfg tables place hostSlots
  let topK := sampled.map BatchSequence.topK
  let topP := sampled.map BatchSequence.topP
  .ok
    { inputIds := inputIds
      positions := place.positions
      temperatures := temperaturesOf (sampled.map BatchSequence.temperature)
      context := context rows place slots (paddedTables tables)
      topK := if truncates topK topP then some topK else none
      topP := if truncates topK topP then some topP else none
      samplingRows := sampled.map BatchSequence.seqId
      numDraftTokens := rows.samplingDrafts
      specInputs :=
        if cfg.numSpeculativeTokens = 0 then none
        else some (gather inputIds placeholderTokenId (draftIndices rows), rows.samplingDrafts)
      draftInputs :=
        if cfg.numSpeculativeTokens = 0 then none
        else some (draftInputs rows place inputIds nextTokenIds (paddedTables tables)) }

theorem prepareRows_eq_assemble (batch sampled : List BatchSequence) :
    prepareRows cfg decodesLatents runner rows batch sampled = (do
      let back ← movesBack runner batch
      assemble cfg runner rows batch sampled
        (placement decodesLatents rows (movedRows runner batch) back)) :=
  rfl

/-- Rows that start where the host says, with nothing left to correct. -/
def hostPlacement (rows : BatchRows) (starts : List Nat) : Placement :=
  let cuQ := cumsum rows.lens
  let tokenRows := repeatEach (List.range rows.batch.length) rows.lens
  { exact := true
    moved := []
    starts := starts
    ends := List.zipWith (· + ·) starts rows.lens
    back := List.replicate rows.batch.length 0
    tokenRows := tokenRows
    hostPositions := List.zipWith (fun r p => starts.getD r 0 + p - cuQ.getD r 0) tokenRows
      (List.range rows.lens.sum) }

/-- `prepare_batch` up to `_move_back`, on rows that start at `starts`. -/
def build (cfg : Config) (runner : ModelRunner) (rows : BatchRows) (starts : List Nat)
    (batch sampled : List BatchSequence) : Except Fault BatchInputs :=
  assemble cfg runner rows batch sampled (hostPlacement rows starts)

/-- `_move_back`: corrects positions, key lengths and slots on the device.  The
drafter reads the same positions; the lengths the host has stay. -/
def moveBackInputs (cfg : Config) (rows : BatchRows) (batch : List BatchSequence)
    (back : List Nat) (inputs : BatchInputs) : Except Fault BatchInputs := do
  let tokenRows := repeatEach (List.range rows.batch.length) rows.lens
  let positions := List.zipWith (fun p r => p - back.getD r 0) inputs.positions tokenRows
  let contextLens := List.zipWith (· - ·) inputs.context.contextLens back
  let slots ← movedSlots cfg (batch.map BatchSequence.blockTable) tokenRows positions
    inputs.context.slotMapping
  .ok { inputs with
    positions := positions
    context := { inputs.context with
      cuSeqlensK := cumsum contextLens
      contextLens := contextLens
      slotMapping := slots }
    draftInputs := inputs.draftInputs.map fun drafter =>
      { drafter with positions := positions } }

/-! ## Tokens -/

/-- The tokens of a batch, each by its sequence and its offset in the row. -/
def tokensOf (heap : SeqId → Sequence) (batch : List SeqId) : List (SeqId × Nat) :=
  batch.flatMap fun i => (List.range (heap i).numScheduledTokens).map fun o => (i, o)

/-- The cache slot of a position, through a sequence's block table. -/
def slotAt (cfg : Config) (table : List BlockId) (p : Nat) : Int :=
  (table.getD (p / cfg.blockSize) 0 : Nat) * cfg.blockSize + (p % cfg.blockSize : Nat)

/-- Row numbers repeated along their rows, beside a value of each token. -/
theorem zip_tokenRows {ρ : Type} (first : ρ) {start len : ρ → Nat} (batch : List ρ) :
    (repeatEach (List.range batch.length) (batch.map len)).zip
        (batch.flatMap fun i => (List.range (len i)).map (start i + ·)) =
      (List.range batch.length).flatMap fun r =>
        (List.range (len (batch.getD r first))).map fun o => (r, start (batch.getD r first) + o) := by
  have repeated : repeatEach (List.range batch.length) (batch.map len) =
      (List.range batch.length).flatMap fun r => List.replicate (len (batch.getD r first)) r := by
    have counts : batch.map len =
        (List.range batch.length).map fun r => len (batch.getD r first) := by
      conv_lhs => rw [← map_getD_range batch first, List.map_map]
      rfl
    rw [counts, repeatEach]
    conv_lhs => rw [← List.map_id (List.range batch.length), List.map_map, List.zip_map']
    rw [List.flatMap_map]
    rfl
  have values : (batch.flatMap fun i => (List.range (len i)).map (start i + ·)) =
      (List.range batch.length).flatMap fun r =>
        (List.range (len (batch.getD r first))).map (start (batch.getD r first) + ·) := by
    conv_lhs => rw [← map_getD_range batch first, List.flatMap_map]
  rw [repeated, values, zip_flatMap (by simp)]
  apply List.flatMap_congr
  intro r _
  apply List.ext_getElem <;> simp

theorem map_tokensOf {α : Type} (f : SeqId → Nat → α) (batch : List SeqId) :
    (tokensOf heap batch).map (fun token => f token.1 token.2) =
      batch.flatMap fun i => (List.range (heap i).numScheduledTokens).map (f i) := by
  rw [tokensOf, List.map_flatMap]
  simp only [List.map_map]
  rfl

/-! ## Slots -/

theorem slotsOf_map {table : List (List Int)} {entries : List (Nat × Nat)}
    {block : Nat × Nat → Int}
    (found : ∀ entry ∈ entries,
      (table.getD entry.1 [])[entry.2 / cfg.blockSize]? = some (block entry)) :
    slotsOf cfg table entries = .ok (entries.map fun entry =>
      block entry * cfg.blockSize + (entry.2 % cfg.blockSize : Nat)) := by
  induction entries with
  | nil => rfl
  | cons entry entries ih =>
      have rest := ih fun other member => found other (List.mem_cons_of_mem _ member)
      simp only [slotsOf, found entry List.mem_cons_self, rest, bind, Except.bind, List.map_cons]

/-- A padded table holds each row's own blocks first. -/
theorem paddedTables_getElem? {tables : List (List BlockId)} {table : List (List Int)}
    (padded : paddedTables tables = some table) {r k : Nat} {row : List BlockId}
    (found : tables[r]? = some row) (inside : k < row.length) :
    (table.getD r [])[k]? = some (row.getD k 0 : Int) := by
  unfold paddedTables at padded
  split at padded
  · obtain rfl := Option.some.inj padded
    simp [List.getD_eq_getElem?_getD, found, List.getElem?_append_left, inside]
  · contradiction

section Rows

variable {ρ : Type} {rows : List ρ} {blocks : ρ → List BlockId} {start len : ρ → Nat}

/-- The slots of some rows that lie in their own blocks, through the padded table. -/
theorem slotsOf_rows (first : ρ)
    (covered : ∀ row ∈ rows, start row + len row ≤ (blocks row).length * cfg.blockSize)
    {table : List (List Int)} (padded : paddedTables (rows.map blocks) = some table) :
    slotsOf cfg table ((repeatEach (List.range rows.length) (rows.map len)).zip
        (rows.flatMap fun row => (List.range (len row)).map (start row + ·))) =
      .ok (rows.flatMap fun row => (List.range (len row)).map fun o =>
        slotAt cfg (blocks row) (start row + o)) := by
  rw [zip_tokenRows first]
  have found : ∀ entry ∈ (List.range rows.length).flatMap (fun r =>
      (List.range (len (rows.getD r first))).map fun o => (r, start (rows.getD r first) + o)),
      (table.getD entry.1 [])[entry.2 / cfg.blockSize]? =
        some ((blocks (rows.getD entry.1 first)).getD (entry.2 / cfg.blockSize) 0 : Int) := by
    intro entry member
    obtain ⟨r, small, among⟩ := List.mem_flatMap.mp member
    obtain ⟨o, within, rfl⟩ := List.mem_map.mp among
    have inside := List.mem_range.mp small
    have below := List.mem_range.mp within
    have own : rows[r]? = some (rows.getD r first) := by
      simp [List.getD_eq_getElem?_getD, inside]
    have fits := covered _ (List.mem_of_getElem? own)
    refine paddedTables_getElem? padded (by rw [List.getElem?_map, own]; rfl) ?_
    apply Nat.div_lt_of_lt_mul
    show start (rows.getD r first) + o < cfg.blockSize * (blocks (rows.getD r first)).length
    rw [Nat.mul_comm]
    omega
  rw [slotsOf_map found, List.map_flatMap]
  conv_rhs => rw [← map_getD_range rows first, List.flatMap_map]
  simp only [List.map_map]
  rfl

/-- `slot_mapping` of the host: no token is skipped. -/
theorem slotMapping_rows (first : ρ)
    (covered : ∀ row ∈ rows, start row + len row ≤ (blocks row).length * cfg.blockSize) :
    slotMapping cfg (rows.map blocks) (repeatEach (List.range rows.length) (rows.map len))
        (rows.flatMap fun row => (List.range (len row)).map (start row + ·)) =
      .ok (rows.flatMap fun row => (List.range (len row)).map fun o =>
        slotAt cfg (blocks row) (start row + o)) := by
  have some_blocks : ∀ row ∈ rows, 0 < len row → blocks row ≠ [] := by
    intro row member some empty
    have fits := covered row member
    rw [empty, List.length_nil, Nat.zero_mul] at fits
    omega
  unfold slotMapping
  cases padded : paddedTables (rows.map blocks) with
  | none =>
      -- no row has blocks, so none has tokens
      have idle : ∀ row ∈ rows, len row = 0 := by
        intro row member
        by_contra some
        obtain ⟨r, found⟩ := List.mem_iff_getElem?.mp member
        have table : (rows.map blocks)[r]? = Option.some (blocks row) := by simp [found]
        obtain ⟨_, there, _⟩ :=
          paddedTables_eq table (some_blocks row member (Nat.pos_of_ne_zero some))
        simp [padded] at there
      have none : (rows.flatMap fun row => (List.range (len row)).map fun o =>
          slotAt cfg (blocks row) (start row + o)) = [] := by
        rw [List.flatMap_eq_nil_iff]
        intro row member
        simp [idle row member]
      rw [none]
  | some table =>
      have all : ((repeatEach (List.range rows.length) (rows.map len)).zip
          (rows.flatMap fun row => (List.range (len row)).map (start row + ·))).filter
          (fun token => (rows.map blocks).getD token.1 [] ≠ []) =
          (repeatEach (List.range rows.length) (rows.map len)).zip
            (rows.flatMap fun row => (List.range (len row)).map (start row + ·)) := by
        apply List.filter_eq_self.mpr
        rw [zip_tokenRows first]
        intro token member
        obtain ⟨r, small, among⟩ := List.mem_flatMap.mp member
        obtain ⟨o, within, rfl⟩ := List.mem_map.mp among
        have inside := List.mem_range.mp small
        have own : rows[r]? = some (rows.getD r first) := by
          simp [List.getD_eq_getElem?_getD, inside]
        have filled := some_blocks _ (List.mem_of_getElem? own)
          (Nat.zero_lt_of_lt (List.mem_range.mp within))
        have row : (rows.map blocks).getD r [] = blocks (rows.getD r first) := by
          rw [List.getD_eq_getElem?_getD, List.getElem?_map, own]
          rfl
        rw [decide_eq_true_eq, row]
        exact filled
      exact (congrArg (slotsOf cfg table) all).trans (slotsOf_rows first covered padded)

end Rows

/-- Positions that lie in their rows' own blocks. -/
def Covered (cfg : Config) (heap : SeqId → Sequence) (start : SeqId → Nat)
    (batch : List SeqId) : Prop :=
  ∀ i ∈ batch, start i + (heap i).numScheduledTokens ≤ (heap i).blockTable.length * cfg.blockSize

/-! ## The whole batch -/

/-- Whether a row samples, and the token after its chunk if it does not. -/
def nextTokenOf (seq : Sequence) (stop : Nat) : Token :=
  if seq.Samples then -1 else seq.tokenIds.getD stop placeholderTokenId

/-- The inputs of a batch whose rows start at `host` for the host and at `start` on
the device. -/
def inputsAt (cfg : Config) (runner : ModelRunner) (settings : SeqId → SamplerSettings)
    (heap : SeqId → Sequence) (ids : List SeqId) (rows : BatchRows) (host start : SeqId → Nat) :
    BatchInputs :=
  let len := fun i => (heap i).numScheduledTokens
  let cuQ := cumsum (rows.batch.map len)
  let inputIds := rows.batch.flatMap fun i => runner.deviceIds i (heap i)
  let positions := rows.batch.flatMap fun i => (List.range (len i)).map (start i + ·)
  let hostPositions := rows.batch.flatMap fun i => (List.range (len i)).map (host i + ·)
  let table := paddedTables (rows.batch.map fun i => (heap i).blockTable)
  let sampled := gather ids 0 rows.sampling
  let samplingRows := gather rows.rowOf 0 rows.sampling
  let topK := sampled.map fun i => (settings i).topK
  let topP := sampled.map fun i => (settings i).topP
  { inputIds := inputIds
    positions := positions
    temperatures := temperaturesOf (sampled.map fun i => (settings i).temperature)
    context :=
      { isPrefill := rows.isPrefill
        cuSeqlensQ := cuQ
        cuSeqlensK := cumsum (rows.batch.map fun i => start i + len i)
        maxSeqlenQ := (rows.batch.map len).foldl max 0
        maxSeqlenK := (rows.batch.map fun i => host i + len i).foldl max 0
        cuSeqlensQHost := cuQ
        cuSeqlensKHost := cumsum (rows.batch.map fun i => host i + len i)
        slotMapping := rows.batch.flatMap fun i => (List.range (len i)).map fun o =>
          slotAt cfg (heap i).blockTable (start i + o)
        contextLens := rows.batch.map fun i => start i + len i
        blockTables := table
        logitsIndices := if rows.isPrefill then some (logitsIndices rows) else none
        decodeQueryLen := rows.queryLen }
    topK := if truncates topK topP then some topK else none
    topP := if truncates topK topP then some topP else none
    samplingRows := sampled
    numDraftTokens := rows.samplingDrafts
    specInputs :=
      if cfg.numSpeculativeTokens = 0 then none
      else some (gather inputIds placeholderTokenId (draftIndices rows), rows.samplingDrafts)
    draftInputs :=
      if cfg.numSpeculativeTokens = 0 then none
      else some
        { inputIds := inputIds
          positions := positions
          maxPosition :=
            (gather hostPositions 0 (gather (cuQ.tail.map (· - 1)) 0 samplingRows)).foldl max 0
          lastIndex := cuQ.tail.map fun stop : Nat => (stop : Int) - 1
          nextTokenIds := rows.batch.map fun i => nextTokenOf (heap i) (host i + len i)
          samplingRows := samplingRows
          numDraftTokens := rows.samplingDrafts
          blockTable := table } }

/-- A row samples if its sequence does. -/
theorem Arranges.rowSamples_eq (arranges : Arranges rows heap ids) :
    rowSamples rows = rows.batch.map fun i => decide (heap i).Samples := by
  conv_rhs => rw [← map_getD_range rows.batch 0, List.map_map]
  apply List.map_congr_left
  intro r member
  have inside := List.mem_range.mp member
  have found : rows.batch[r]? = some (rows.batch.getD r 0) := by
    simp [List.getD_eq_getElem?_getD, inside]
  refine decide_eq_decide.mpr ⟨?_, mem_samplingRows arranges.toOrders arranges.distinct found⟩
  intro among
  obtain ⟨k, sampled, row⟩ := List.mem_map.mp among
  rw [arranges.sampling, List.mem_filter, List.mem_range] at sampled
  obtain ⟨small, samples⟩ := sampled
  have here : ids[k]? = some (ids.getD k 0) := by simp [List.getD_eq_getElem?_getD, small]
  obtain ⟨rowEq, own⟩ := arranges.toOrders.rowOf_eq arranges.distinct here
  rw [← rowEq, row, found] at own
  have same : rows.batch.getD r 0 = ids.getD k 0 := Option.some.inj own
  show (heap (rows.batch.getD r 0)).Samples
  rw [same]
  exact of_decide_eq_true samples

theorem nextTokens_map {entries : List (SeqId × Nat)}
    (inside : ∀ entry ∈ entries, ¬ (heap entry.1).Samples →
      entry.2 < (heap entry.1).tokenIds.length) :
    nextTokens (entries.map fun entry => (seen settings heap (fun i => (heap i).tokenIds) entry.1,
        entry.2, decide (heap entry.1).Samples)) =
      .ok (entries.map fun entry => nextTokenOf (heap entry.1) entry.2) := by
  induction entries with
  | nil => rfl
  | cons entry entries ih =>
      have rest := ih fun other member => inside other (List.mem_cons_of_mem _ member)
      by_cases samples : (heap entry.1).Samples
      · simp [nextTokens, nextTokenOf, samples, rest, bind, Except.bind]
      · have here : (seen settings heap (fun i => (heap i).tokenIds) entry.1).tokenIds[entry.2]? =
            some ((heap entry.1).tokenIds.getD entry.2 placeholderTokenId) := by
          simp [seen, List.getD_eq_getElem?_getD, inside entry List.mem_cons_self samples]
        simp [nextTokens, nextTokenOf, samples, rest, here, bind, Except.bind]

/-- The rows of a batch may start at or before their cached tokens, prefill rows
only at them. -/
structure Starts (heap : SeqId → Sequence) (ids : List SeqId) (start : SeqId → Nat) : Prop where
  le : ∀ i ∈ ids, start i ≤ (heap i).numCachedTokens
  prompt : ∀ i ∈ ids, (heap i).isPrefill = true → start i = (heap i).numCachedTokens

theorem Fits.covers (fits : Fits cfg runner heap ids) {start : SeqId → Nat}
    (starts : Starts heap ids start) (arranges : Arranges rows heap ids) :
    Covered cfg heap start rows.batch := by
  intro i member
  have known := arranges.mem member
  exact Nat.le_trans (Nat.add_le_add_right (starts.le i known) _) (fits.covered i known)

/-- The host's positions of a batch. -/
theorem hostPlacement_eq (orders : rows.Orders heap ids) (start : SeqId → Nat) :
    (hostPlacement rows (rows.batch.map start)).ends =
        rows.batch.map (fun i => start i + (heap i).numScheduledTokens) ∧
      (hostPlacement rows (rows.batch.map start)).tokenRows = repeatEach
        (List.range rows.batch.length) (rows.batch.map fun i => (heap i).numScheduledTokens) ∧
      (hostPlacement rows (rows.batch.map start)).hostPositions =
        (rows.batch.flatMap fun i =>
          (List.range (heap i).numScheduledTokens).map (start i + ·)) ∧
      (hostPlacement rows (rows.batch.map start)).positions =
        (rows.batch.flatMap fun i =>
          (List.range (heap i).numScheduledTokens).map (start i + ·)) ∧
      (hostPlacement rows (rows.batch.map start)).contextLens =
        rows.batch.map fun i => start i + (heap i).numScheduledTokens := by
  have still := @positions_eq rows.batch start (fun _ => 0)
    (fun i => (heap i).numScheduledTokens) fun _ _ => Nat.zero_le _
  have zeros : rows.batch.map (fun _ => 0) = List.replicate rows.batch.length 0 :=
    List.map_const' ..
  have ends : List.zipWith (· + ·) (rows.batch.map start)
      (rows.batch.map fun i => (heap i).numScheduledTokens) =
      rows.batch.map fun i => start i + (heap i).numScheduledTokens := by
    rw [List.zipWith_map, List.zipWith_self]
  rw [zeros] at still
  have host : List.zipWith (fun r p => (rows.batch.map start).getD r 0 + p -
        (cumsum (rows.batch.map fun i => (heap i).numScheduledTokens)).getD r 0)
      (repeatEach (List.range rows.batch.length)
        (rows.batch.map fun i => (heap i).numScheduledTokens))
      (List.range (rows.batch.map fun i => (heap i).numScheduledTokens).sum) =
      rows.batch.flatMap fun i => (List.range (heap i).numScheduledTokens).map (start i + ·) := by
    rw [zipWith_zipWith_self] at still
    simpa only [List.getD_eq_getElem?_getD, List.getElem?_getD_replicate_default_eq,
      Nat.sub_zero] using still
  simp only [hostPlacement, Placement.positions, Placement.contextLens, orders.lens]
  refine ⟨ends, trivial, host, still, ?_⟩
  rw [ends, ← zeros, List.zipWith_map, List.zipWith_self]
  simp

/-- `seq[end]` is read inside the tokens of a row that does not sample. -/
theorem Fits.nextTokens_at (fits : Fits cfg runner heap ids) (arranges : Arranges rows heap ids)
    {start : SeqId → Nat} (starts : Starts heap ids start) :
    RankBatch.nextTokens ((rows.batch.map (seen settings heap fun i => (heap i).tokenIds)).zip
        ((rows.batch.map fun i => start i + (heap i).numScheduledTokens).zip
          (rowSamples rows))) =
      .ok (rows.batch.map fun i =>
        nextTokenOf (heap i) (start i + (heap i).numScheduledTokens)) := by
  have inside : ∀ entry ∈ rows.batch.map (fun i => (i, start i + (heap i).numScheduledTokens)),
      ¬ (heap entry.1).Samples → entry.2 < (heap entry.1).tokenIds.length := by
    intro entry member silent
    obtain ⟨i, among, rfl⟩ := List.mem_map.mp member
    have known := arranges.mem among
    have prefill : (heap i).isPrefill = true := by
      by_contra decoding
      exact silent (fits.samples i known (by simpa using decoding))
    have settled := ((fits.lies i known).prefilling prefill).1
    have begin := starts.prompt i known prefill
    simp only [Sequence.Samples, Sequence.numPlannedTokens, Sequence.numTokens] at silent
    show start i + (heap i).numScheduledTokens < (heap i).tokenIds.length
    omega
  have read := @nextTokens_map settings heap _ inside
  rw [List.map_map, List.map_map] at read
  rw [arranges.rowSamples_eq, List.zip_map', List.zip_map']
  exact read

/-- `prepare_batch` up to `_move_back`. -/
theorem Fits.build_eq (fits : Fits cfg runner heap ids) (holds : runner.Holds cfg)
    (arranges : Arranges rows heap ids) {start : SeqId → Nat} (starts : Starts heap ids start) :
    build cfg runner rows (rows.batch.map start)
        (rows.batch.map (seen settings heap fun i => (heap i).tokenIds))
        ((gather ids 0 rows.sampling).map (seen settings heap fun i => (heap i).tokenIds)) =
      .ok (inputsAt cfg runner settings heap ids rows start start) := by
  have laid : ∀ i ∈ rows.batch, runner.Laid cfg i (heap i) := fun i member =>
    (fits.lies i (arranges.mem member)).toLaid
  have collected := collectTokens_rows laid fun i member =>
    starts.prompt i (arranges.mem member)
  have covered := fits.covers starts arranges
  obtain ⟨ends, tokenRows, hostPositions, positions, contextLens⟩ :=
    hostPlacement_eq arranges.toOrders start
  have begins : (hostPlacement rows (rows.batch.map start)).starts = rows.batch.map start := rfl
  have tables : rows.batch.map
      (BatchSequence.blockTable ∘ seen settings heap fun i => (heap i).tokenIds) =
      rows.batch.map fun i => (heap i).blockTable := rfl
  have slotted : ∀ slots, deviceSlots cfg (rows.batch.map fun i => (heap i).blockTable)
      (hostPlacement rows (rows.batch.map start)) slots = .ok slots := fun _ => if_pos rfl
  have next : ∃ next, draftNextTokens cfg rows (hostPlacement rows (rows.batch.map start))
      (rows.batch.map (seen settings heap fun i => (heap i).tokenIds)) = .ok next ∧
      (cfg.numSpeculativeTokens ≠ 0 → next = rows.batch.map fun i =>
        nextTokenOf (heap i) (start i + (heap i).numScheduledTokens)) := by
    unfold draftNextTokens
    split
    · rename_i off
      exact ⟨[], rfl, fun drafting => absurd off drafting⟩
    · rw [ends, fits.nextTokens_at arranges starts]
      exact ⟨_, rfl, fun _ => rfl⟩
  obtain ⟨next, read, nextEq⟩ := next
  simp only [build, assemble, begins, ends, tokenRows, hostPositions, List.map_map, tables,
    collectTokens_seen fun _ _ _ => rfl, collected, slotMapping_rows 0 covered,
    copyPending_eq holds laid, copyDrafts_eq holds laid, read, slotted, bind, Except.bind]
  have own : (gather ids 0 rows.sampling).map
      (BatchSequence.seqId ∘ seen settings heap fun i => (heap i).tokenIds) =
      gather ids 0 rows.sampling := List.map_id _
  simp only [inputsAt, own, context, draftInputs, ends, positions, contextLens, hostPositions,
    arranges.lens]
  refine congrArg Except.ok ?_
  congr 1
  split
  · rfl
  · rename_i drafting
    rw [nextEq drafting]

/-- `_move_back` of a batch some row of which has blocks. -/
theorem Fits.moveBackInputs_eq (fits : Fits cfg runner heap ids)
    (arranges : Arranges rows heap ids) {host back : SeqId → Nat} (starts : Starts heap ids host)
    (bounded : ∀ i ∈ ids, back i ≤ host i)
    (blocks : ∃ i ∈ rows.batch, (heap i).blockTable ≠ []) :
    moveBackInputs cfg rows (rows.batch.map (seen settings heap fun i => (heap i).tokenIds))
        (rows.batch.map back) (inputsAt cfg runner settings heap ids rows host host) =
      .ok (inputsAt cfg runner settings heap ids rows host fun i => host i - back i) := by
  have covered : Covered cfg heap (fun i => host i - back i) rows.batch := by
    intro i member
    have := fits.covers starts arranges i member
    simp only
    omega
  have corrected : List.zipWith (fun p r => p - (rows.batch.map back).getD r 0)
      (rows.batch.flatMap fun i => (List.range (heap i).numScheduledTokens).map (host i + ·))
      (repeatEach (List.range rows.batch.length)
        (rows.batch.map fun i => (heap i).numScheduledTokens)) =
      rows.batch.flatMap fun i =>
        (List.range (heap i).numScheduledTokens).map (host i - back i + ·) := by
    obtain ⟨_, _, hostPositions, _⟩ := hostPlacement_eq arranges.toOrders host
    rw [← hostPositions, hostPlacement, arranges.lens]
    exact positions_eq fun i member => bounded i (arranges.mem member)
  have lens : List.zipWith (· - ·)
      (rows.batch.map fun i => host i + (heap i).numScheduledTokens) (rows.batch.map back) =
      rows.batch.map fun i => host i - back i + (heap i).numScheduledTokens := by
    rw [List.zipWith_map, List.zipWith_self]
    apply List.map_congr_left
    intro i member
    have := bounded i (arranges.mem member)
    omega
  obtain ⟨i, member, filled⟩ := blocks
  have own : (rows.batch.map fun i => (heap i).blockTable)[rows.batch.idxOf i]? =
      some (heap i).blockTable := by
    simp [List.getElem?_eq_getElem (List.idxOf_lt_length_iff.mpr member)]
  obtain ⟨table, padded, _⟩ := paddedTables_eq own filled
  have tables : rows.batch.map
      (BatchSequence.blockTable ∘ seen settings heap fun i => (heap i).tokenIds) =
      rows.batch.map fun i => (heap i).blockTable := rfl
  have slotted : ∀ slots : List Int,
      slots.length = (rows.batch.map fun i => (heap i).numScheduledTokens).sum →
      movedSlots cfg (rows.batch.map fun i => (heap i).blockTable)
        (repeatEach (List.range rows.batch.length)
          (rows.batch.map fun i => (heap i).numScheduledTokens))
        (rows.batch.flatMap fun i =>
          (List.range (heap i).numScheduledTokens).map (host i - back i + ·)) slots =
      .ok (rows.batch.flatMap fun i => (List.range (heap i).numScheduledTokens).map fun o =>
        slotAt cfg (heap i).blockTable (host i - back i + o)) := by
    intro slots length
    have same : (rows.batch.flatMap fun i => (List.range (heap i).numScheduledTokens).map fun o =>
        slotAt cfg (heap i).blockTable (host i - back i + o)).length = slots.length := by
      rw [length, List.length_flatMap]
      simp
    have found := slotsOf_rows 0 covered padded
    simp only [movedSlots, padded, found, bind, Except.bind, same, if_true]
  simp only [moveBackInputs, inputsAt, List.map_map, tables, arranges.lens, corrected, lens, bind,
    Except.bind]
  rw [slotted _ (by rw [List.length_flatMap]; simp)]
  refine congrArg Except.ok ?_
  congr 1
  split <;> rfl

/-! ## The stages in one -/

theorem assemble_moved {batch sampled : List BatchSequence} {moved back starts ends : List Nat}
    {hostPositions : List Nat} (some : moved ≠ [])
    (counted : hostPositions.length =
      (repeatEach (List.range rows.batch.length) rows.lens).length)
    (rowsCounted : ends.length = rows.batch.length) :
    assemble cfg runner rows batch sampled
        ⟨false, moved, starts, ends, back,
          repeatEach (List.range rows.batch.length) rows.lens, hostPositions⟩ = (do
      let inputs ← assemble cfg runner rows batch sampled
        ⟨true, [], starts, ends, List.replicate rows.batch.length 0,
          repeatEach (List.range rows.batch.length) rows.lens, hostPositions⟩
      moveBackInputs cfg rows batch back inputs) := by
  have still : List.zipWith (fun p r => p - (List.replicate rows.batch.length 0).getD r 0)
      hostPositions (repeatEach (List.range rows.batch.length) rows.lens) = hostPositions := by
    apply List.ext_getElem
    · simp [counted]
    · intro k _ _
      simp [List.getD_eq_getElem?_getD, List.getElem?_getD_replicate_default_eq]
  have kept : List.zipWith (· - ·) ends (List.replicate rows.batch.length 0) = ends := by
    apply List.ext_getElem
    · simp [rowsCounted]
    · simp
  simp only [assemble, moveBackInputs, draftNextTokens, deviceSlots, some, if_true, if_false,
    Placement.positions, Placement.contextLens, context, draftInputs, still, kept, bind,
    Except.bind]
  cases collectTokens cfg runner {} (batch.zip (starts.zip ends)) with
  | error fault => rfl
  | ok columns =>
      cases slotMapping cfg (batch.map BatchSequence.blockTable)
        (repeatEach (List.range rows.batch.length) rows.lens) hostPositions with
      | error fault => rfl
      | ok hostSlots =>
          simp only
          cases runner.copyPending columns with
          | error fault => rfl
          | ok copied =>
              simp only
              cases runner.copyDrafts columns copied with
              | error fault => rfl
              | ok inputIds =>
                  simp only
                  by_cases off : cfg.numSpeculativeTokens = 0
                  · simp only [off, if_true, Option.map_none]
                  · simp only [off, if_false]
                    cases nextTokens (batch.zip (ends.zip (rowSamples rows))) <;> rfl

/-- The batch as it is built before any row moves back: pending rows stand as if the
previous step accepted every draft. -/
def optimistic (cfg : Config) (decodesLatents : Bool) (runner : ModelRunner)
    (seqs : List BatchSequence) : Except Fault BatchInputs :=
  let rows := batchRows cfg decodesLatents seqs
  build cfg runner rows rows.starts (gather seqs default rows.order)
    (gather seqs default rows.sampling)

/-- The batch built on the host at starts that are already reduced. -/
def hostExact (cfg : Config) (decodesLatents : Bool) (runner : ModelRunner)
    (seqs : List BatchSequence) (back : List Nat) : Except Fault BatchInputs :=
  let rows := batchRows cfg decodesLatents seqs
  build cfg runner rows (List.zipWith (· - ·) rows.starts back) (gather seqs default rows.order)
    (gather seqs default rows.sampling)

/-- The optimistic batch, corrected on the device. -/
def movedOnDevice (cfg : Config) (decodesLatents : Bool) (runner : ModelRunner)
    (seqs : List BatchSequence) (back : List Nat) : Except Fault BatchInputs := do
  let rows := batchRows cfg decodesLatents seqs
  let inputs ← optimistic cfg decodesLatents runner seqs
  moveBackInputs cfg rows (gather seqs default rows.order) back inputs

/-- `prepare_batch` builds its batch on the host at exact starts, or optimistically
and then corrects it on the device if some row is pending. -/
theorem prepareBatch_stages {seqs : List BatchSequence} (nonempty : seqs ≠ [])
    (rowsEq : batchRows cfg decodesLatents seqs = rows) :
    prepareBatch cfg decodesLatents runner seqs = (do
      let back ← movesBack runner (gather seqs default rows.order)
      if needsExactLengths decodesLatents rows
          (movedRows runner (gather seqs default rows.order)) then
        hostExact cfg decodesLatents runner seqs back
      else if movedRows runner (gather seqs default rows.order) = [] then
        optimistic cfg decodesLatents runner seqs
      else movedOnDevice cfg decodesLatents runner seqs back) := by
  have batch : (gather seqs default rows.order).length = rows.batch.length ∧
      rows.batch.length = rows.lens.length ∧ rows.starts.length = rows.lens.length := by
    subst rowsEq
    simp [batchRows, gather]
  obtain ⟨batch, counted⟩ := batch
  rw [prepareBatch, if_neg nonempty]
  simp only [prepareRows_eq_assemble, hostExact, optimistic, movedOnDevice, build, rowsEq]
  cases moves : movesBack runner (gather seqs default rows.order) with
  | error fault => rfl
  | ok back =>
      simp only [bind, Except.bind]
      by_cases exact : needsExactLengths decodesLatents rows
          (movedRows runner (gather seqs default rows.order)) = true
      · simp only [placement, hostPlacement, exact, if_true]
      · by_cases still : movedRows runner (gather seqs default rows.order) = []
        · have zeros : back = List.replicate rows.batch.length 0 := by
            simp only [movesBack, still, batch] at moves
            exact (Except.ok.inj moves).symm
          simp only [placement, hostPlacement, still, if_true, zeros]
          rfl
        · simp only [placement, hostPlacement, exact, still, if_false, Bool.false_eq_true]
          refine assemble_moved still ?_ ?_
          · rw [counted.1, length_repeatEach_range, List.length_zipWith, length_repeatEach_range,
              List.length_range, Nat.min_self]
          · simp [counted.1, counted.2]

end RankBatch

end LeanVllm
