import LeanVllm.Engine.BatchStages
import LeanVllm.Engine.DraftTokens

/-!
# A batch, token by token

What `prepare_batch` is for: every row of a batch contributes its scheduled
tokens at consecutive positions, each with the token id that stands there and the
cache slot its own block table gives it, and the logits of a row that samples are
read at the last of its tokens.  The batch built before any row moves back is
this, for every batch an engine can launch.
-/

namespace LeanVllm

open Collections

namespace RankBatch

open ModelRunner

variable {cfg : Config} {decodesLatents : Bool} {runner : ModelRunner}
  {settings : SeqId → SamplerSettings} {heap : SeqId → Sequence} {ids : List SeqId}
  {rows : BatchRows}

/-! ## The specification -/

/-- The order of the rows: those of the batch's decode query length first, in
scheduler order within each group. -/
def batchOrder (cfg : Config) (heap : SeqId → Sequence) (ids : List SeqId) : List SeqId :=
  let queryLen := LeanVllm.decodeQueryLen (ids.map fun i => (heap i).numScheduledTokens)
    cfg.numSpeculativeTokens
  ids.filter (fun i => (heap i).numScheduledTokens = queryLen) ++
    ids.filter (fun i => ¬ (heap i).numScheduledTokens = queryLen)

/-- The `o`-th input of a row: a committed token of the sequence, for a pending row
first the token the previous step sampled, and then the row's drafts. -/
def inputToken (runner : ModelRunner) (i : SeqId) (seq : Sequence) (o : Nat) : Option Token :=
  if seq.isPrefill then seq.tokenIds[seq.numCachedTokens + o]?
  else if o = 0 then
    if seq.numPendingTokens = 0 then seq.tokenIds[seq.numCachedTokens]?
    else runner.nextTokenIds[runner.source i]?
  else if seq.numPendingTokens = 0 then seq.specTokenIds[o - 1]?
  else
    match runner.inFlightDrafts with
    | none => seq.specTokenIds[o - 1]?
    | some inFlight => (inFlight.draftTokenIds.getD (runner.source i) [])[o - 1]?

/-- The inputs of a batch whose rows start at `start`, token by token. -/
structure Specifies (cfg : Config) (runner : ModelRunner) (heap : SeqId → Sequence)
    (ids : List SeqId) (start : SeqId → Nat) (inputs : BatchInputs) : Prop where
  rows : (batchOrder cfg heap ids).Perm ids
  inputIds : inputs.inputIds.map some = (tokensOf heap (batchOrder cfg heap ids)).map
    fun token => inputToken runner token.1 (heap token.1) token.2
  positions : inputs.positions = (tokensOf heap (batchOrder cfg heap ids)).map
    fun token => start token.1 + token.2
  inside : ∀ token ∈ tokensOf heap (batchOrder cfg heap ids),
    (start token.1 + token.2) / cfg.blockSize < (heap token.1).blockTable.length
  slots : inputs.context.slotMapping = (tokensOf heap (batchOrder cfg heap ids)).map
    fun token => slotAt cfg (heap token.1).blockTable (start token.1 + token.2)
  cuSeqlensQ : inputs.context.cuSeqlensQ =
      cumsum ((batchOrder cfg heap ids).map fun i => (heap i).numScheduledTokens) ∧
    inputs.context.cuSeqlensQHost = inputs.context.cuSeqlensQ
  cuSeqlensK : inputs.context.cuSeqlensK = cumsum inputs.context.contextLens ∧
    inputs.context.cuSeqlensKHost = inputs.context.cuSeqlensK
  contextLens : inputs.context.contextLens =
    (batchOrder cfg heap ids).map fun i => start i + (heap i).numScheduledTokens
  blockTables : ∃ width,
    (∀ i ∈ ids, (heap i).blockTable.length ≤ width) ∧
    inputs.context.blockTables = some ((batchOrder cfg heap ids).map fun i =>
      (heap i).blockTable.map Int.ofNat ++
        List.replicate (width - (heap i).blockTable.length) (-1))
  logits : (inputs.context.logitsIndices.getD (List.range inputs.inputIds.length)).map
      (fun p => (tokensOf heap (batchOrder cfg heap ids))[p]?) =
    (ids.filter fun i => decide (heap i).Samples).flatMap fun i =>
      (List.range (1 + rowDrafts (heap i))).map fun o =>
        some (i, (heap i).numScheduledTokens - (1 + rowDrafts (heap i)) + o)
  drafts : ∀ draftTokenIds numDraftTokens,
    inputs.specInputs = some (draftTokenIds, numDraftTokens) →
    numDraftTokens =
        ((ids.filter fun i => decide (heap i).Samples).map fun i => rowDrafts (heap i)) ∧
      draftTokenIds.map some =
        (ids.filter fun i => decide (heap i).Samples).flatMap fun i =>
          (List.range (rowDrafts (heap i))).map fun o =>
            inputToken runner i (heap i)
              ((heap i).numScheduledTokens - (1 + rowDrafts (heap i)) + o + 1)
  drafting : inputs.specInputs.isSome = decide (cfg.numSpeculativeTokens ≠ 0)

/-! ## Rows and tokens -/

theorem batchRows_batch :
    (ModelRunner.batchRows cfg decodesLatents heap ids).batch = batchOrder cfg heap ids := by
  show gather ids 0 (rowOrder (ids.map fun i => (heap i).numScheduledTokens)
    (LeanVllm.decodeQueryLen (ids.map fun i => (heap i).numScheduledTokens)
      cfg.numSpeculativeTokens)) = _
  have own : ∀ k ∈ List.range ids.length,
      (ids.map fun i => (heap i).numScheduledTokens).getD k 0 =
        (heap (ids.getD k 0)).numScheduledTokens := by
    intro k member
    simp [List.getD_eq_getElem?_getD, List.mem_range.mp member]
  rw [rowOrder, List.length_map, gather, List.map_append, batchOrder]
  congr 1
  · refine Eq.trans (congrArg (gather ids 0) (List.filter_congr ?_)) (gather_filter _)
    intro k member
    rw [own k member]
  · refine Eq.trans (congrArg (gather ids 0) (List.filter_congr ?_)) (gather_filter _)
    intro k member
    rw [own k member]

/-- A decode row's first token stands right after its cached ones. -/
def Frontier (heap : SeqId → Sequence) (ids : List SeqId) : Prop :=
  ∀ i ∈ ids, (heap i).isPrefill = false →
    (heap i).numCachedTokens + 1 = (heap i).numPlannedTokens

/-- The token ids a row feeds, one by one. -/
theorem deviceIds_map {i : SeqId} {seq : Sequence} (laid : runner.Laid cfg i seq)
    (holds : runner.Holds cfg)
    (frontier : seq.isPrefill = false → seq.numCachedTokens + 1 = seq.numPlannedTokens) :
    (runner.deviceIds i seq).map some =
      (List.range seq.numScheduledTokens).map (inputToken runner i seq) := by
  have length := (laid.length_deviceIds holds).2
  apply List.ext_getElem?
  intro o
  by_cases inside : o < seq.numScheduledTokens
  · rw [List.getElem?_map, List.getElem?_map, List.getElem?_range inside, Option.map_some]
    suffices same : (runner.deviceIds i seq)[o]? = inputToken runner i seq o by
      rw [← same, List.getElem?_eq_getElem (length ▸ inside)]
      rfl
    unfold deviceIds inputToken
    cases prefill : seq.isPrefill with
    | true =>
        simp [hostIds, prefill, List.getElem?_take_of_lt inside]
    | false =>
        have width := laid.decoding prefill
        have next := frontier prefill
        by_cases settled : seq.numPendingTokens = 0
        · cases o with
          | zero =>
              have last : seq.numCachedTokens + 1 = seq.tokenIds.length := by
                simpa only [Sequence.numPlannedTokens, Sequence.numTokens, settled,
                  Nat.add_zero] using next
              have here : seq.tokenIds[seq.numCachedTokens]? = some seq.lastToken := by
                have small : seq.numCachedTokens < seq.tokenIds.length := by omega
                rw [Sequence.lastToken, List.getLast?_eq_getElem?, ← last, Nat.add_sub_cancel,
                  List.getElem?_eq_getElem small, Option.getD_some]
              simp [hostIds, prefill, settled, here]
          | succ o => simp [hostIds, prefill, settled]
        · have row := holds.source_lt (laid.known settled)
          cases o with
          | zero =>
              simp [settled, List.getD_eq_getElem?_getD, row]
          | succ o =>
              have small : o < seq.specTokenIds.length := by omega
              cases runner.inFlightDrafts with
              | none => simp [settled]
              | some inFlight => simp [settled, List.getElem?_take_of_lt small]
  · rw [List.getElem?_eq_none (by simpa [length] using inside),
      List.getElem?_eq_none (by simpa using inside)]

theorem deviceIds_tokensOf (fits : Fits cfg runner heap ids) (holds : runner.Holds cfg)
    (frontier : Frontier heap ids) (arranges : Arranges rows heap ids) :
    (rows.batch.flatMap fun i => runner.deviceIds i (heap i)).map some =
      (tokensOf heap rows.batch).map fun token =>
        inputToken runner token.1 (heap token.1) token.2 := by
  rw [map_tokensOf fun i o => inputToken runner i (heap i) o, List.map_flatMap]
  apply List.flatMap_congr
  intro i member
  have known := arranges.mem member
  exact deviceIds_map (fits.lies i known).toLaid holds (frontier i known)

/-- The token at a flat position of a batch. -/
theorem getElem?_tokensOf (orders : rows.Orders heap ids) {r o : Nat} {i : SeqId}
    (found : rows.batch[r]? = some i) (inside : o < (heap i).numScheduledTokens) :
    (tokensOf heap rows.batch)[(cumsum rows.lens).getD r 0 + o]? = some (i, o) := by
  have entry := getElem?_flatMap rows.batch
    (fun i => (List.range (heap i).numScheduledTokens).map fun o => (i, o)) found
    (o := o) (by simpa using inside)
  have lens : rows.batch.map (fun i =>
      ((List.range (heap i).numScheduledTokens).map fun o => (i, o)).length) = rows.lens := by
    rw [orders.lens]
    simp
  rw [lens] at entry
  rw [tokensOf, entry]
  simp [inside]

/-- The `o`-th token from the first logits of a scheduled row. -/
theorem Arranges.getElem?_firstLogits (arranges : Arranges rows heap ids) {k o : Nat} {i : SeqId}
    (found : ids[k]? = some i) (enough : rowDrafts (heap i) + 1 ≤ (heap i).numScheduledTokens)
    (inside : o ≤ rowDrafts (heap i)) :
    (tokensOf heap rows.batch)[firstLogits rows heap ids k + o]? =
      some (i, (heap i).numScheduledTokens - (1 + rowDrafts (heap i)) + o) := by
  obtain ⟨rowEq, own⟩ := arranges.toOrders.rowOf_eq arranges.distinct found
  have same : ids.getD k 0 = i := by simp [List.getD_eq_getElem?_getD, found]
  rw [firstLogits, rowEq, same, Nat.add_comm (rowDrafts (heap i)) 1, Nat.add_assoc]
  exact getElem?_tokensOf arranges.toOrders own (by omega)

theorem Fits.enough (fits : Fits cfg runner heap ids) :
    ∀ i ∈ ids, (heap i).Samples → rowDrafts (heap i) + 1 ≤ (heap i).numScheduledTokens :=
  fun i member => (fits.lies i member).rowDrafts_lt

/-- The logits of the sampling rows, in scheduler order. -/
theorem Fits.logits (fits : Fits cfg runner heap ids) (arranges : Arranges rows heap ids) :
    (logitsIndices rows).map (fun p => (tokensOf heap rows.batch)[p]?) =
      (ids.filter fun i => decide (heap i).Samples).flatMap fun i =>
        (List.range (1 + rowDrafts (heap i))).map fun o =>
          some (i, (heap i).numScheduledTokens - (1 + rowDrafts (heap i)) + o) := by
  rw [arranges.toOrders.logitsIndices_eq fits.enough, List.map_flatMap]
  apply arranges.toOrders.flatMap_sampling
  intro k i found samples
  have same : ids.getD k 0 = i := by simp [List.getD_eq_getElem?_getD, found]
  rw [same, List.map_map, Nat.add_comm 1]
  apply List.map_congr_left
  intro o member
  have small := List.mem_range.mp member
  rw [Function.comp_apply, Nat.add_comm _ 1]
  exact arranges.getElem?_firstLogits found
    (fits.enough i (List.mem_of_getElem? found) samples) (by omega)

/-- The drafts to verify follow the positions whose logits verify them. -/
theorem Fits.drafts (fits : Fits cfg runner heap ids) (holds : runner.Holds cfg)
    (frontier : Frontier heap ids) (arranges : Arranges rows heap ids) :
    (gather (rows.batch.flatMap fun i => runner.deviceIds i (heap i)) placeholderTokenId
        (draftIndices rows)).map some =
      (ids.filter fun i => decide (heap i).Samples).flatMap fun i =>
        (List.range (rowDrafts (heap i))).map fun o =>
          inputToken runner i (heap i)
            ((heap i).numScheduledTokens - (1 + rowDrafts (heap i)) + o + 1) := by
  have tokens := deviceIds_tokensOf fits holds frontier arranges
  rw [gather, arranges.toOrders.draftIndices_eq fits.enough, List.map_flatMap, List.map_flatMap]
  apply arranges.toOrders.flatMap_sampling
  intro k i found samples
  have same : ids.getD k 0 = i := by simp [List.getD_eq_getElem?_getD, found]
  rw [same, List.map_map, List.map_map]
  apply List.map_congr_left
  intro o member
  have small := List.mem_range.mp member
  have token := arranges.getElem?_firstLogits found
    (fits.enough i (List.mem_of_getElem? found) samples) (o := o + 1) (by omega)
  have read := congrArg (fun values => values[firstLogits rows heap ids k + (o + 1)]?) tokens
  simp only [List.getElem?_map, token, Option.map_some] at read
  have place : firstLogits rows heap ids k + 1 + o = firstLogits rows heap ids k + (o + 1) := by
    omega
  rw [Function.comp_apply, Function.comp_apply, place, List.getD_eq_getElem?_getD]
  obtain ⟨value, there, own⟩ := Option.map_eq_some_iff.mp read
  rw [there, Option.getD_some, own]
  rfl

/-! ## The inputs of a batch -/

/-- The rows of a launch. -/
structure Scheduled (cfg : Config) (runner : ModelRunner) (heap : SeqId → Sequence)
    (ids : List SeqId) : Prop extends Fits cfg runner heap ids where
  nonempty : ids ≠ []
  frontier : Frontier heap ids
  tables : ∀ i ∈ ids, (heap i).blockTable ≠ []

theorem Scheduled.blockTables (scheduled : Scheduled cfg runner heap ids)
    (perm : rows.batch.Perm ids) : ∃ width,
      (∀ i ∈ ids, (heap i).blockTable.length ≤ width) ∧
      paddedTables (rows.batch.map fun i => (heap i).blockTable) =
        some (rows.batch.map fun i => (heap i).blockTable.map Int.ofNat ++
          List.replicate (width - (heap i).blockTable.length) (-1)) := by
  obtain ⟨i, among⟩ := List.exists_mem_of_ne_nil _ scheduled.nonempty
  have filled : (rows.batch.map fun i => (heap i).blockTable).any (· ≠ []) = true :=
    List.any_eq_true.mpr ⟨_, List.mem_map_of_mem (perm.mem_iff.mpr among), by
      simpa using scheduled.tables i among⟩
  refine ⟨((rows.batch.map fun i => (heap i).blockTable).map List.length).foldl max 0, ?_, ?_⟩
  · intro i member
    rw [List.map_map]
    exact (foldl_max_le.mp (Nat.le_refl _)).2 _ (List.mem_map_of_mem
      (f := List.length ∘ fun i => (heap i).blockTable) (perm.mem_iff.mpr member))
  · rw [paddedTables, if_pos filled]
    simp only [List.map_map]
    rfl

/-- Inputs in the form of rows are inputs token by token. -/
theorem Scheduled.specifies (scheduled : Scheduled cfg runner heap ids)
    (holds : runner.Holds cfg) {start : SeqId → Nat} (starts : Starts heap ids start)
    (rowsEq : ModelRunner.batchRows cfg decodesLatents heap ids = rows) :
    Specifies cfg runner heap ids start
      (inputsAt cfg runner settings heap ids rows start start) := by
  have arranges : Arranges rows heap ids := rowsEq ▸ scheduled.toFits.arranges
  have fits := scheduled.toFits
  have batch : batchOrder cfg heap ids = rows.batch := by
    rw [← rowsEq]
    exact batchRows_batch.symm
  have inputIds := deviceIds_tokensOf fits holds scheduled.frontier arranges
  have logits : ((if rows.isPrefill then some (logitsIndices rows) else none).getD
      (List.range (rows.batch.flatMap fun i => runner.deviceIds i (heap i)).length)) =
      logitsIndices rows := by
    cases decodes : rows.isPrefill with
    | true => rfl
    | false =>
        have total : (rows.batch.flatMap fun i => runner.deviceIds i (heap i)).length =
            rows.lens.sum := by
          rw [List.length_flatMap, arranges.lens]
          refine congrArg List.sum (List.map_congr_left ?_)
          intro i member
          exact ((fits.lies i (arranges.mem member)).toLaid.length_deviceIds holds).2
        subst rowsEq
        have whole := batchRows_logits decodes
          (fun i member decoding =>
            (fits.lies i member).enough ((fits.lies i member).samples decoding))
          fun i member decoding => (fits.lies i member).samples decoding
        simp only [Bool.false_eq_true, if_false, Option.getD_none]
        rw [whole, total]
  constructor
  case rows => exact batch ▸ arranges.perm
  case inputIds =>
    rw [batch]
    exact inputIds
  case positions =>
    rw [batch, map_tokensOf fun i o => start i + o]
    rfl
  case inside =>
    intro token member
    rw [batch, tokensOf, List.mem_flatMap] at member
    obtain ⟨i, among, own⟩ := member
    obtain ⟨o, within, rfl⟩ := List.mem_map.mp own
    have covered := fits.covers starts arranges i among
    have below := List.mem_range.mp within
    apply Nat.div_lt_of_lt_mul
    rw [Nat.mul_comm]
    show start i + o < (heap i).blockTable.length * cfg.blockSize
    omega
  case slots =>
    rw [batch, map_tokensOf fun i o => slotAt cfg (heap i).blockTable (start i + o)]
    rfl
  case cuSeqlensQ =>
    rw [batch]
    exact ⟨rfl, rfl⟩
  case cuSeqlensK => exact ⟨rfl, rfl⟩
  case contextLens =>
    rw [batch]
    rfl
  case blockTables =>
    rw [batch]
    exact scheduled.blockTables arranges.perm
  case logits =>
    rw [batch]
    exact (congrArg (List.map _) logits).trans (fits.logits arranges)
  case drafts =>
    intro draftTokenIds numDraftTokens given
    simp only [inputsAt] at given
    split at given
    · contradiction
    · obtain ⟨rfl, rfl⟩ := Prod.mk.inj (Option.some.inj given)
      exact ⟨arranges.toOrders.samplingDrafts,
        fits.drafts holds scheduled.frontier arranges⟩
  case drafting =>
    simp only [inputsAt]
    split <;> simp_all

/-! ## The stages of a launch -/

theorem originals_eq :
    originals settings heap ids = ids.map (seen settings heap fun i => (heap i).tokenIds) :=
  rfl

/-- The rows of a launch, as every stage of `prepare_batch` gets them. -/
theorem gather_originals (decodesLatents : Bool) (settings : SeqId → SamplerSettings)
    (arranges : Arranges (ModelRunner.batchRows cfg decodesLatents heap ids) heap ids) :
    let rows := ModelRunner.batchRows cfg decodesLatents heap ids
    batchRows cfg decodesLatents (originals settings heap ids) = rows ∧
      gather (originals settings heap ids) default rows.order =
        rows.batch.map (seen settings heap fun i => (heap i).tokenIds) ∧
      gather (originals settings heap ids) default rows.sampling =
        (gather ids 0 rows.sampling).map (seen settings heap fun i => (heap i).tokenIds) := by
  refine ⟨batchRows_seen, gather_seen ?_, gather_seen ?_⟩
  · intro k member
    have perm := rowOrder_perm (ids.map fun i => (heap i).numScheduledTokens)
      (ModelRunner.batchRows cfg decodesLatents heap ids).queryLen
    rw [List.length_map] at perm
    exact List.mem_range.mp (perm.mem_iff.mp member)
  · intro k member
    rw [arranges.sampling] at member
    exact List.mem_range.mp (List.mem_of_mem_filter member)

/-- How far rows may move back: at most to their first position, and prefill rows
not at all. -/
structure Backs (heap : SeqId → Sequence) (ids : List SeqId) (back : SeqId → Nat) : Prop where
  le : ∀ i ∈ ids, back i ≤ (heap i).numCachedTokens
  prompt : ∀ i ∈ ids, (heap i).isPrefill = true → back i = 0

theorem Backs.starts {back : SeqId → Nat} (backs : Backs heap ids back) :
    Starts heap ids fun i => (heap i).numCachedTokens - back i :=
  ⟨fun _ _ => Nat.sub_le _ _, fun i member prefill => by
    rw [backs.prompt i member prefill, Nat.sub_zero]⟩

theorem starts_cached (heap : SeqId → Sequence) (ids : List SeqId) :
    Starts heap ids fun i => (heap i).numCachedTokens :=
  ⟨fun _ _ => Nat.le_refl _, fun _ _ _ => rfl⟩

theorem Fits.optimistic_eq (fits : Fits cfg runner heap ids) (holds : runner.Holds cfg)
    (decodesLatents : Bool) (settings : SeqId → SamplerSettings) :
    optimistic cfg decodesLatents runner (originals settings heap ids) =
      .ok (inputsAt cfg runner settings heap ids
        (ModelRunner.batchRows cfg decodesLatents heap ids)
        (fun i => (heap i).numCachedTokens) fun i => (heap i).numCachedTokens) := by
  have arranges : Arranges (ModelRunner.batchRows cfg decodesLatents heap ids) heap ids :=
    fits.arranges
  obtain ⟨rowsEq, batchEq, sampledEq⟩ := gather_originals decodesLatents settings arranges
  simp only [optimistic, rowsEq, batchEq, sampledEq, arranges.starts]
  exact fits.build_eq holds arranges (starts_cached heap ids)

theorem Fits.hostExact_eq (fits : Fits cfg runner heap ids) (holds : runner.Holds cfg)
    (decodesLatents : Bool) (settings : SeqId → SamplerSettings) {back : SeqId → Nat}
    (backs : Backs heap ids back) :
    hostExact cfg decodesLatents runner (originals settings heap ids)
        ((ModelRunner.batchRows cfg decodesLatents heap ids).batch.map back) =
      .ok (inputsAt cfg runner settings heap ids
        (ModelRunner.batchRows cfg decodesLatents heap ids)
        (fun i => (heap i).numCachedTokens - back i)
        fun i => (heap i).numCachedTokens - back i) := by
  have arranges : Arranges (ModelRunner.batchRows cfg decodesLatents heap ids) heap ids :=
    fits.arranges
  obtain ⟨rowsEq, batchEq, sampledEq⟩ := gather_originals decodesLatents settings arranges
  simp only [hostExact, rowsEq, batchEq, sampledEq, arranges.starts, List.zipWith_map,
    List.zipWith_self]
  exact fits.build_eq holds arranges backs.starts

theorem Scheduled.movedOnDevice_eq (scheduled : Scheduled cfg runner heap ids)
    (holds : runner.Holds cfg) (decodesLatents : Bool) (settings : SeqId → SamplerSettings)
    {back : SeqId → Nat} (backs : Backs heap ids back) :
    movedOnDevice cfg decodesLatents runner (originals settings heap ids)
        ((ModelRunner.batchRows cfg decodesLatents heap ids).batch.map back) =
      .ok (inputsAt cfg runner settings heap ids
        (ModelRunner.batchRows cfg decodesLatents heap ids)
        (fun i => (heap i).numCachedTokens) fun i => (heap i).numCachedTokens - back i) := by
  have fits := scheduled.toFits
  have arranges : Arranges (ModelRunner.batchRows cfg decodesLatents heap ids) heap ids :=
    fits.arranges
  obtain ⟨rowsEq, batchEq, _⟩ := gather_originals decodesLatents settings arranges
  obtain ⟨i, among⟩ := List.exists_mem_of_ne_nil _ scheduled.nonempty
  simp only [movedOnDevice, fits.optimistic_eq holds, rowsEq, batchEq, bind, Except.bind]
  exact fits.moveBackInputs_eq arranges (starts_cached heap ids) backs.le
    ⟨i, arranges.perm.mem_iff.mpr among, scheduled.tables i among⟩

/-- Only the starts of the batch's own rows are read. -/
theorem inputsAt_congr {host host' start start' : SeqId → Nat}
    (sameHost : ∀ i ∈ rows.batch, host i = host' i)
    (same : ∀ i ∈ rows.batch, start i = start' i) :
    inputsAt cfg runner settings heap ids rows host start =
      inputsAt cfg runner settings heap ids rows host' start' := by
  have positions : ∀ {f g : SeqId → Nat}, (∀ i ∈ rows.batch, f i = g i) →
      (rows.batch.flatMap fun i => (List.range (heap i).numScheduledTokens).map (f i + ·)) =
      rows.batch.flatMap fun i => (List.range (heap i).numScheduledTokens).map (g i + ·) :=
    fun same => List.flatMap_congr fun i member => by rw [same i member]
  have lens : ∀ {f g : SeqId → Nat}, (∀ i ∈ rows.batch, f i = g i) →
      (rows.batch.map fun i => f i + (heap i).numScheduledTokens) =
      rows.batch.map fun i => g i + (heap i).numScheduledTokens :=
    fun same => List.map_congr_left fun i member => by rw [same i member]
  have slots : (rows.batch.flatMap fun i => (List.range (heap i).numScheduledTokens).map fun o =>
      slotAt cfg (heap i).blockTable (start i + o)) =
      rows.batch.flatMap fun i => (List.range (heap i).numScheduledTokens).map fun o =>
        slotAt cfg (heap i).blockTable (start' i + o) :=
    List.flatMap_congr fun i member => by rw [same i member]
  have next : (rows.batch.map fun i =>
      nextTokenOf (heap i) (host i + (heap i).numScheduledTokens)) =
      rows.batch.map fun i => nextTokenOf (heap i) (host' i + (heap i).numScheduledTokens) :=
    List.map_congr_left fun i member => by rw [sameHost i member]
  simp only [inputsAt, positions same, positions sameHost, slots, lens same, lens sameHost, next]

/-- Without pending rows after a step that left drafts, nothing moves back. -/
theorem moveBack_eq_zero (still : runner.movedRows heap rows = []) {i : SeqId}
    (member : i ∈ rows.batch) : runner.moveBack i (heap i) = 0 := by
  unfold moveBack
  split
  · rfl
  · rename_i pending
    cases device : runner.inFlightDrafts with
    | none => rfl
    | some inFlight =>
        obtain ⟨r, inside, rfl⟩ := List.mem_iff_getElem.mp member
        simp only [ModelRunner.movedRows, device, Option.isSome_some, if_true,
          List.filter_eq_nil_iff, List.mem_range] at still
        have settled := still r inside
        simp [List.getD_eq_getElem?_getD, inside] at settled
        exact absurd settled pending

/-- Rows move back no further than their first position. -/
theorem Fits.backs (fits : Fits cfg runner heap ids) :
    Backs heap ids fun i => runner.moveBack i (heap i) := by
  refine ⟨fun i member => (fits.lies i member).back, ?_⟩
  intro i member prefill
  simp [moveBack, ((fits.lies i member).prefilling prefill).1]

/-- Where the host has a row start: where its rejected drafts leave it if attention
planning needs exact lengths, and otherwise as if every draft was kept. -/
def hostStart (decodesLatents : Bool) (runner : ModelRunner) (heap : SeqId → Sequence)
    (rows : BatchRows) (i : SeqId) : Nat :=
  if needsExactLengths decodesLatents rows (runner.movedRows heap rows) then
    (heap i).numCachedTokens - runner.moveBack i (heap i)
  else (heap i).numCachedTokens

/-- `prepare_batch` of a launch: on the device every row stands where its rejected
drafts leave it. -/
theorem Scheduled.prepareBatch_at (scheduled : Scheduled cfg runner heap ids)
    (holds : runner.Holds cfg) (decodesLatents : Bool) (settings : SeqId → SamplerSettings) :
    let rows := ModelRunner.batchRows cfg decodesLatents heap ids
    movesBack runner (gather (originals settings heap ids) default rows.order) =
        .ok (rows.batch.map fun i => runner.moveBack i (heap i)) ∧
      prepareBatch cfg decodesLatents runner (originals settings heap ids) =
        .ok (inputsAt cfg runner settings heap ids rows
          (hostStart decodesLatents runner heap rows)
          fun i => (heap i).numCachedTokens - runner.moveBack i (heap i)) := by
  have fits := scheduled.toFits
  have arranges : Arranges (ModelRunner.batchRows cfg decodesLatents heap ids) heap ids :=
    fits.arranges
  obtain ⟨rowsEq, batchEq, _⟩ := gather_originals decodesLatents settings arranges
  have moves : movesBack runner (gather (originals settings heap ids) default
      (ModelRunner.batchRows cfg decodesLatents heap ids).order) =
      .ok ((ModelRunner.batchRows cfg decodesLatents heap ids).batch.map fun i =>
        runner.moveBack i (heap i)) := by
    rw [batchEq, movesBack_seen]
    exact movesBack_eq fun i member => (fits.lies i (arranges.mem member)).toLaid
  refine ⟨moves, ?_⟩
  rw [prepareBatch_stages (by simpa [originals] using scheduled.nonempty) rowsEq]
  simp only [moves, bind, Except.bind]
  simp only [batchEq, movedRows_seen]
  have host : hostStart decodesLatents runner heap
      (ModelRunner.batchRows cfg decodesLatents heap ids) = fun i => if needsExactLengths
        decodesLatents (ModelRunner.batchRows cfg decodesLatents heap ids)
        (runner.movedRows heap (ModelRunner.batchRows cfg decodesLatents heap ids)) then
      (heap i).numCachedTokens - runner.moveBack i (heap i) else (heap i).numCachedTokens := rfl
  rw [host]
  split
  · exact fits.hostExact_eq holds decodesLatents settings fits.backs
  · split
    · rename_i still
      -- no row is pending after a step that left drafts
      rw [fits.optimistic_eq holds decodesLatents settings]
      refine congrArg Except.ok (inputsAt_congr (fun _ _ => rfl) ?_)
      intro i member
      rw [moveBack_eq_zero still member, Nat.sub_zero]
    · exact scheduled.movedOnDevice_eq holds decodesLatents settings fits.backs

end RankBatch

/-! ## Launches -/

variable {cfg : Config} {engine : LLMEngine} {env : StepEnv} {flight : Flight}

/-- The rows of a launch can be prepared, and decode rows stand at their frontier. -/
theorem Scheduler.Launches.rows {s : Scheduler} {runner : ModelRunner} {launch : Launch}
    (launches : s.Launches cfg env runner flight launch) (wf : flight.Wf cfg)
    (device : flight = [] ∨ runner = flight.runner cfg) (nonempty : launch.output.scheduled ≠ []) :
    RankBatch.Scheduled cfg runner launch.reported.heap launch.output.scheduled := by
  have pass := launches.reported
  have active : ∀ i ∈ launch.output.scheduled, (launch.reported.heap i).Active cfg
      (due flight.rows i (launch.reported.heap i).numPreemptions) := fun i member =>
    (pass.inv.running (pass.running i member)).2.2.2
  refine ⟨(launches.fits wf device).1, nonempty,
    fun i member decoding => ((active i member).decoding decoding).1, ?_⟩
  intro i member empty
  cases prefill : (launch.reported.heap i).isPrefill with
  | true =>
      have room := ((active i member).prefilling prefill).2.2
      rw [empty, List.length_nil, Nat.zero_mul] at room
      omega
  | false =>
      have frontier := ((active i member).decoding prefill).1
      have ready : (launch.reported.heap i).Ready cfg := pass.ready i member
      have room := (ready.decoding prefill).2.2
      rw [empty, List.length_nil, Nat.zero_mul] at room
      omega

/-- Every batch an engine launches is one `prepare_batch` can be given. -/
theorem LLMEngine.Reachable.launchRows (reachable : LLMEngine.Reachable cfg engine)
    (valid : env.Valid cfg engine) : ∃ batch, engine.batch cfg env = .ok batch ∧
      (batch.output.scheduled ≠ [] → RankBatch.Scheduled cfg engine.runner batch.reported.heap
        batch.output.scheduled) := by
  obtain ⟨flight, inv⟩ := reachable.inv
  obtain ⟨launch, last, stepped, _, steps, _, batchEq⟩ := LLMEngine.step_spec inv valid
  obtain ⟨s, before, launches, wf, device⟩ := steps.launches inv
  refine ⟨launch.batch cfg, batchEq, ?_⟩
  rw [launches.batch_scheduled]
  exact launches.rows wf device

/-- For every batch an engine launches, the inputs built before any row moves back
are those of the per-token specification, and `prepare_batch` returns them when the
previous step rejected no draft of the batch's rows. -/
theorem batch_meets_token_specification (cfg : Config) (decodesLatents : Bool)
    (settings : SeqId → SamplerSettings) (engine : LLMEngine)
    (reachable : LLMEngine.Reachable cfg engine) (env : StepEnv) (valid : env.Valid cfg engine) :
    ∃ batch, engine.batch cfg env = .ok batch ∧
      (batch.output.scheduled ≠ [] → ∃ inputs,
        RankBatch.optimistic cfg decodesLatents engine.runner (RankBatch.originals settings
          batch.reported.heap batch.output.scheduled) = .ok inputs ∧
        RankBatch.Specifies cfg engine.runner batch.reported.heap batch.output.scheduled
          (fun i => (batch.reported.heap i).numCachedTokens) inputs ∧
        ((∀ i ∈ batch.output.scheduled,
            engine.runner.moveBack i (batch.reported.heap i) = 0) →
          RankBatch.prepareBatch cfg decodesLatents engine.runner (RankBatch.originals settings
            batch.reported.heap batch.output.scheduled) = .ok inputs)) := by
  obtain ⟨batch, batchEq, rows⟩ := reachable.launchRows valid
  refine ⟨batch, batchEq, ?_⟩
  intro nonempty
  have scheduled := rows nonempty
  have fits := scheduled.toFits
  refine ⟨_, fits.optimistic_eq reachable.holds decodesLatents settings,
    scheduled.specifies reachable.holds (RankBatch.starts_cached _ _) rfl, ?_⟩
  intro kept
  rw [(scheduled.prepareBatch_at reachable.holds decodesLatents settings).2]
  have known : ∀ i ∈ (ModelRunner.batchRows cfg decodesLatents batch.reported.heap
      batch.output.scheduled).batch, i ∈ batch.output.scheduled := fun i member =>
    fits.arranges.mem member
  refine congrArg Except.ok (RankBatch.inputsAt_congr ?_ ?_)
  · intro i member
    rw [RankBatch.hostStart, kept i (known i member), Nat.sub_zero, ite_self]
  · intro i member
    rw [kept i (known i member), Nat.sub_zero]

/-- The second launch of the drafting engine: a pending row and its draft. -/
theorem batch_meets_token_specification_drafting :
    ∃ batch inputs, LLMEngine.drafting.batch .drafting .tight = .ok batch ∧
      batch.output.scheduled = [0] ∧ (batch.reported.heap 0).numPendingTokens = 1 ∧
      (batch.reported.heap 0).specTokenIds.length = 1 ∧
      RankBatch.Specifies .drafting LLMEngine.drafting.runner batch.reported.heap
        batch.output.scheduled (fun i => (batch.reported.heap i).numCachedTokens) inputs ∧
      RankBatch.prepareBatch .drafting true LLMEngine.drafting.runner
        (RankBatch.originals (fun _ => ⟨0, 0, 1⟩) batch.reported.heap batch.output.scheduled) =
          .ok inputs := by
  have reachable : LLMEngine.Reachable .drafting LLMEngine.drafting :=
    ((LLMEngine.Reachable.create .drafting).add [1, 2, 3] .tight (some "a") 0).step
      (StepEnv.tight_drafting _)
  obtain ⟨batch, batched, prepared⟩ := batch_meets_token_specification .drafting true
    (fun _ => ⟨0, 0, 1⟩) _ reachable .tight (StepEnv.tight_drafting _)
  have row : (LLMEngine.drafting.batch .drafting .tight).map (fun batch =>
      (batch.output.scheduled, (batch.reported.heap 0).numPendingTokens,
        (batch.reported.heap 0).specTokenIds.length,
        LLMEngine.drafting.runner.moveBack 0 (batch.reported.heap 0))) =
        .ok ([0], 1, 1, 0) := by decide +kernel
  rw [batched] at row
  obtain ⟨one, rest⟩ := Prod.mk.inj (Except.ok.inj row)
  obtain ⟨pending, rest⟩ := Prod.mk.inj rest
  obtain ⟨draft, kept⟩ := Prod.mk.inj rest
  obtain ⟨inputs, _, specifies, same⟩ := prepared (by simp [one])
  refine ⟨batch, inputs, batched, one, pending, draft, specifies, same ?_⟩
  intro i member
  rw [one, List.mem_singleton] at member
  rw [member]
  exact kept

end LeanVllm
