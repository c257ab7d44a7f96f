import LeanVllm.Engine.BatchLayout

/-!
# A batch and its rows

The arrays of `prepare_batch` hold, for every row of a batch, what
`prepareRow` says of it: permuting rows and scattering device tokens changes
where a row stands and not what it feeds.
-/

namespace LeanVllm

open Collections

namespace ModelRunner

variable {cfg : Config} {decodesLatents : Bool} {runner : ModelRunner} {heap : SeqId → Sequence}
  {seqs : List SeqId}

/-! ## Rows -/

theorem rowOrder_perm (lens : List Nat) (queryLen : Nat) :
    (rowOrder lens queryLen).Perm (List.range lens.length) := by
  have partitioned := List.filter_append_perm (fun k => decide (lens.getD k 0 = queryLen))
    (List.range lens.length)
  simpa only [rowOrder, decide_not] using partitioned

theorem gather_map {α β : Type} {f : α → β} {values : List α} {first : α} {image : β}
    {indices : List Nat} (inside : ∀ k ∈ indices, k < values.length) :
    gather (values.map f) image indices = (gather values first indices).map f := by
  rw [gather, gather, List.map_map]
  apply List.map_congr_left
  intro k member
  simp [List.getD_eq_getElem?_getD, inside k member]

theorem gather_range {α : Type} (values : List α) (default : α) :
    gather values default (List.range values.length) = values :=
  map_getD_range values default

theorem gather_filter (p : SeqId → Bool) :
    gather seqs 0 ((List.range seqs.length).filter fun k => p (seqs.getD k 0)) =
      seqs.filter p := by
  conv_rhs => rw [← gather_range seqs 0, gather, List.filter_map]
  rfl

/-- The number of drafts a row verifies. -/
def rowDrafts (seq : Sequence) : Nat :=
  if seq.isPrefill then 0 else seq.numScheduledTokens - 1

/-- A batch holds the scheduled sequences in some order, with the lengths and
starts they are scheduled for, and samples from those that reach their last
planned token. -/
structure BatchRows.Orders (rows : BatchRows) (heap : SeqId → Sequence) (seqs : List SeqId) :
    Prop where
  perm : rows.batch.Perm seqs
  lens : rows.lens = rows.batch.map fun i => (heap i).numScheduledTokens
  starts : rows.starts = rows.batch.map fun i => (heap i).numCachedTokens
  rowOf : ∀ {k : Nat} {i : SeqId}, seqs[k]? = some i →
    ∃ r : Nat, rows.rowOf[k]? = some r ∧ rows.batch[r]? = some i
  sampling : rows.sampling =
    (List.range seqs.length).filter fun k => decide (heap (seqs.getD k 0)).Samples
  drafts : rows.samplingDrafts = rows.sampling.map fun k => rowDrafts (heap (seqs.getD k 0))

theorem batchRows_orders (cfg : Config) (decodesLatents : Bool) (heap : SeqId → Sequence)
    (seqs : List SeqId) : (batchRows cfg decodesLatents heap seqs).Orders heap seqs := by
  let rows := batchRows cfg decodesLatents heap seqs
  have order : rows.order.Perm (List.range seqs.length) := by
    have perm := rowOrder_perm (seqs.map fun i => (heap i).numScheduledTokens) rows.queryLen
    rwa [List.length_map] at perm
  have inside : ∀ k ∈ rows.order, k < seqs.length := fun k member =>
    List.mem_range.mp (order.mem_iff.mp member)
  have lens : rows.lens = rows.batch.map fun i => (heap i).numScheduledTokens :=
    gather_map inside
  have starts : rows.starts = rows.batch.map fun i => (heap i).numCachedTokens :=
    gather_map inside
  have rowOf : ∀ {k : Nat} {i : SeqId}, seqs[k]? = some i →
      ∃ r : Nat, rows.rowOf[k]? = some r ∧ rows.batch[r]? = some i := by
    intro k i found
    obtain ⟨r, row, back⟩ :=
      getElem?_inverseOrder order (List.getElem?_eq_some_iff.mp found).1
    refine ⟨r, row, ?_⟩
    show (gather seqs 0 rows.order)[r]? = some i
    simp [gather, back, List.getD_eq_getElem?_getD, found]
  have sampling : rows.sampling =
      (List.range seqs.length).filter fun k => decide (heap (seqs.getD k 0)).Samples := by
    apply List.filter_congr
    intro k member
    have found : seqs[k]? = some (seqs.getD k 0) := by
      simp [List.getD_eq_getElem?_getD, List.mem_range.mp member]
    obtain ⟨r, row, own⟩ := rowOf found
    have start : rows.starts.getD (rows.rowOf.getD k 0) 0 =
        (heap (seqs.getD k 0)).numCachedTokens := by
      rw [starts]
      simp [List.getD_eq_getElem?_getD, row, own]
    have len : rows.lens.getD (rows.rowOf.getD k 0) 0 =
        (heap (seqs.getD k 0)).numScheduledTokens := by
      rw [lens]
      simp [List.getD_eq_getElem?_getD, row, own]
    have planned : (seqs.map fun i => (heap i).numPlannedTokens).getD k 0 =
        (heap (seqs.getD k 0)).numPlannedTokens := by
      rw [List.getD_eq_getElem?_getD, List.getElem?_map, found]
      rfl
    show decide ((seqs.map fun i => (heap i).numPlannedTokens).getD k 0 ≤
      rows.starts.getD (rows.rowOf.getD k 0) 0 + rows.lens.getD (rows.rowOf.getD k 0) 0) = _
    rw [start, len, planned]
    rfl
  refine ⟨?_, lens, starts, rowOf, sampling, ?_⟩
  · have perm := order.map fun k => seqs.getD k 0
    have whole := gather_range seqs 0
    rw [gather] at whole
    rwa [whole] at perm
  · have among : ∀ k ∈ rows.sampling, k < seqs.length := by
      intro k member
      exact List.mem_range.mp (List.mem_of_mem_filter member)
    have drafts : rows.samplingDrafts =
        (gather seqs 0 rows.sampling).map fun i => rowDrafts (heap i) := gather_map among
    rw [drafts, gather, List.map_map]
    rfl

variable {rows : BatchRows}

/-- The sampling rows, in scheduler order. -/
theorem BatchRows.Orders.samplingRows (orders : rows.Orders heap seqs) :
    gather seqs 0 rows.sampling = seqs.filter fun i => decide (heap i).Samples := by
  rw [orders.sampling]
  exact gather_filter fun i => decide (heap i).Samples

/-- The drafts of the sampling rows, in scheduler order. -/
theorem BatchRows.Orders.samplingDrafts (orders : rows.Orders heap seqs) :
    rows.samplingDrafts =
      (seqs.filter fun i => decide (heap i).Samples).map fun i => rowDrafts (heap i) := by
  rw [← orders.samplingRows, gather, List.map_map, orders.drafts]
  rfl

/-! ## Tokens -/

/-- The token ids the host collects for a row. -/
def hostIds (seq : Sequence) : List Token :=
  if seq.isPrefill then (seq.tokenIds.drop seq.numCachedTokens).take seq.numScheduledTokens
  else seq.lastToken :: seq.specTokenIds

/-- The row of the previous launch a pending row continues. -/
def source (runner : ModelRunner) (i : SeqId) : Nat :=
  runner.prevRows.idxOf i

/-- Where a row takes a token from the previous launch, within the row. -/
def pendingAt (seq : Sequence) : List Nat :=
  if seq.numPendingTokens = 0 then [] else [0]

/-- Which of the previous launch's tokens it takes. -/
def pendingFrom (runner : ModelRunner) (i : SeqId) (seq : Sequence) : List Nat :=
  if seq.numPendingTokens = 0 then [] else [runner.source i]

/-- Where a row takes drafts from the previous launch, within the row. -/
def draftsAt (runner : ModelRunner) (seq : Sequence) : List Nat :=
  if seq.numPendingTokens = 0 ∨ runner.inFlightDrafts = none then []
  else List.range' 1 seq.specTokenIds.length

/-- Which of the previous launch's drafts it takes. -/
def draftsFrom (cfg : Config) (runner : ModelRunner) (i : SeqId) (seq : Sequence) : List Nat :=
  if seq.numPendingTokens = 0 ∨ runner.inFlightDrafts = none then []
  else List.range' (runner.source i * cfg.numSpeculativeTokens) seq.specTokenIds.length

/-- The token ids a row feeds. -/
def deviceIds (runner : ModelRunner) (i : SeqId) (seq : Sequence) : List Token :=
  if seq.isPrefill ∨ seq.numPendingTokens = 0 then hostIds seq
  else
    runner.nextTokenIds.getD (runner.source i) placeholderTokenId ::
      match runner.inFlightDrafts with
      | none => seq.specTokenIds
      | some inFlight =>
          (inFlight.draftTokenIds.getD (runner.source i) []).take seq.specTokenIds.length

/-- How far a row moves back for drafts the previous launch rejected. -/
def moveBack (runner : ModelRunner) (i : SeqId) (seq : Sequence) : Nat :=
  if seq.numPendingTokens = 0 then 0
  else
    match runner.inFlightDrafts with
    | none => 0
    | some inFlight => inFlight.numRejected.getD (runner.source i) 0

/-- The runner keeps tokens and drafts for each row it lists. -/
structure Holds (cfg : Config) (runner : ModelRunner) : Prop where
  tokens : runner.prevTokens.length = runner.prevRows.length
  nonempty : ∀ tokens ∈ runner.prevTokens, tokens ≠ []
  drafts : ∀ inFlight, runner.inFlightDrafts = some inFlight →
    inFlight.draftTokenIds.length = runner.prevRows.length ∧
      ∀ drafts ∈ inFlight.draftTokenIds, drafts.length = cfg.numSpeculativeTokens

/-- A row that can be laid out: a prefill row inside its tokens, or a decode row
for its token and drafts whose pending token the runner holds. -/
structure Laid (cfg : Config) (runner : ModelRunner) (i : SeqId) (seq : Sequence) : Prop where
  prefilling : seq.isPrefill = true → seq.numPendingTokens = 0 ∧
    seq.numCachedTokens + seq.numScheduledTokens ≤ seq.tokenIds.length
  decoding : seq.isPrefill = false →
    seq.numScheduledTokens = 1 + seq.specTokenIds.length
  short : seq.specTokenIds.length ≤ cfg.numSpeculativeTokens
  known : seq.numPendingTokens ≠ 0 → i ∈ runner.prevRows
  back : runner.moveBack i seq ≤ seq.numCachedTokens

variable {i : SeqId} {seq : Sequence} {columns : TokenColumns}

theorem prevRow_of_mem (known : i ∈ runner.prevRows) :
    runner.prevRow i = .ok (runner.source i) := by
  have found : runner.prevRows.idxOf? i = some (runner.source i) := by
    rw [List.idxOf?_eq_some_iff]
    have inside := List.idxOf_lt_length_iff.mpr known
    refine ⟨inside, List.getElem_idxOf inside, ?_⟩
    intro j earlier same
    exact absurd same (by simpa using List.not_of_lt_findIdx earlier)
  rw [prevRow, found]

theorem Laid.decoding_of_pending (laid : runner.Laid cfg i seq)
    (pending : seq.numPendingTokens ≠ 0) : seq.isPrefill = false := by
  by_contra prefill
  exact pending (laid.prefilling (by simpa using prefill)).1

/-- The token loop adds a row's host tokens and the copies it needs. -/
theorem collectRow_eq (laid : runner.Laid cfg i seq) {start stop : Nat}
    (span : seq.isPrefill = true →
      start = seq.numCachedTokens ∧ stop = seq.numCachedTokens + seq.numScheduledTokens) :
    runner.collectRow cfg columns i seq start stop = .ok
      { tokenIds := columns.tokenIds ++ hostIds seq
        pendingDst := columns.pendingDst ++ (pendingAt seq).map (columns.tokenIds.length + ·)
        pendingSrc := columns.pendingSrc ++ runner.pendingFrom i seq
        draftDst := columns.draftDst ++
          (runner.draftsAt seq).map (columns.tokenIds.length + ·)
        draftSrc := columns.draftSrc ++ runner.draftsFrom cfg i seq } := by
  cases prefill : seq.isPrefill with
  | true =>
      obtain ⟨settled, _⟩ := laid.prefilling prefill
      obtain ⟨rfl, rfl⟩ := span prefill
      simp [collectRow, prefill, settled, hostIds, pendingAt, pendingFrom, draftsAt, draftsFrom,
        List.drop_take]
  | false =>
      by_cases settled : seq.numPendingTokens = 0
      · simp [collectRow, prefill, settled, hostIds, pendingAt, pendingFrom, draftsAt, draftsFrom,
          bind, Except.bind]
      · have found := prevRow_of_mem (laid.known settled)
        cases device : runner.inFlightDrafts with
        | none =>
            simp [collectRow, prefill, settled, found, device, hostIds, pendingAt, pendingFrom,
              draftsAt, draftsFrom, bind, Except.bind]
        | some inFlight =>
            simp [collectRow, prefill, settled, found, device, hostIds, pendingAt, pendingFrom,
              draftsAt, draftsFrom, bind, Except.bind, List.map_add_range']

/-- The token loop lays the rows' host tokens end to end. -/
theorem collectTokens_eq {entries : List (SeqId × Nat × Nat)}
    (laid : ∀ entry ∈ entries, runner.Laid cfg entry.1 (heap entry.1))
    (span : ∀ entry ∈ entries, (heap entry.1).isPrefill = true →
      entry.2.1 = (heap entry.1).numCachedTokens ∧
      entry.2.2 = (heap entry.1).numCachedTokens + (heap entry.1).numScheduledTokens) :
    runner.collectTokens cfg heap columns entries = .ok
      { tokenIds := columns.tokenIds ++ (entries.map Prod.fst).flatMap fun i => hostIds (heap i)
        pendingDst := columns.pendingDst ++
          flatPositions (fun i => hostIds (heap i)) (fun i => pendingAt (heap i))
            columns.tokenIds.length (entries.map Prod.fst)
        pendingSrc := columns.pendingSrc ++
          (entries.map Prod.fst).flatMap fun i => runner.pendingFrom i (heap i)
        draftDst := columns.draftDst ++
          flatPositions (fun i => hostIds (heap i)) (fun i => runner.draftsAt (heap i))
            columns.tokenIds.length (entries.map Prod.fst)
        draftSrc := columns.draftSrc ++
          (entries.map Prod.fst).flatMap fun i => runner.draftsFrom cfg i (heap i) } := by
  induction entries generalizing columns with
  | nil => simp [collectTokens, flatPositions]
  | cons entry entries ih =>
      have own : runner.collectRow cfg columns entry.1 (heap entry.1) entry.2.1 entry.2.2 = _ :=
        collectRow_eq (laid entry List.mem_cons_self) (span entry List.mem_cons_self)
      simp only [collectTokens, own, bind, Except.bind]
      rw [ih (fun entry member => laid entry (List.mem_cons_of_mem _ member))
        fun entry member => span entry (List.mem_cons_of_mem _ member)]
      simp [flatPositions]

theorem indexSelect_eq {values : List Token} {indices : List Nat}
    (inside : ∀ k ∈ indices, k < values.length) :
    indexSelect values indices = .ok (gather values placeholderTokenId indices) := by
  induction indices with
  | nil => rfl
  | cons k indices ih =>
      have found : values[k]? = some (values.getD k placeholderTokenId) := by
        simp [List.getD_eq_getElem?_getD, inside k List.mem_cons_self]
      simp only [indexSelect, found, ih fun k member => inside k (List.mem_cons_of_mem _ member),
        bind, Except.bind, gather, List.map_cons]

theorem Holds.source_lt (holds : runner.Holds cfg) (known : i ∈ runner.prevRows) :
    runner.source i < runner.nextTokenIds.length := by
  rw [nextTokenIds, List.length_map, holds.tokens]
  exact List.idxOf_lt_length_iff.mpr known

/-- The drafts a row copies are the first of those made for its previous row. -/
theorem Holds.gather_drafts (holds : runner.Holds cfg) {inFlight : InFlightDrafts}
    (device : runner.inFlightDrafts = some inFlight) (known : i ∈ runner.prevRows) {n : Nat}
    (short : n ≤ cfg.numSpeculativeTokens) :
    (∀ k ∈ List.range' (runner.source i * cfg.numSpeculativeTokens) n,
        k < inFlight.draftTokenIds.flatten.length) ∧
      gather inFlight.draftTokenIds.flatten placeholderTokenId
        (List.range' (runner.source i * cfg.numSpeculativeTokens) n) =
      (inFlight.draftTokenIds.getD (runner.source i) []).take n := by
  obtain ⟨length, uniform⟩ := holds.drafts inFlight device
  have inside : runner.source i < inFlight.draftTokenIds.length := by
    rw [length]
    exact List.idxOf_lt_length_iff.mpr known
  have found := List.getElem?_eq_getElem inside
  have width := uniform _ (List.getElem_mem inside)
  have entry : ∀ o < n, inFlight.draftTokenIds.flatten[runner.source i *
      cfg.numSpeculativeTokens + o]? = (inFlight.draftTokenIds[runner.source i])[o]? :=
    fun o small => by
      rw [getElem?_flatten_uniform uniform _ (by omega), found, Option.bind_some]
  constructor
  · intro k member
    obtain ⟨o, small, rfl⟩ := List.mem_range'.mp member
    have draft : (inFlight.draftTokenIds[runner.source i])[o]? = some _ :=
      List.getElem?_eq_getElem (by omega)
    rw [Nat.one_mul]
    exact (List.getElem?_eq_some_iff.mp ((entry o small).trans draft)).1
  · rw [List.getD_eq_getElem?_getD, found, Option.getD_some]
    apply List.ext_getElem?
    intro o
    by_cases small : o < n
    · rw [List.getElem?_take_of_lt small, gather, List.getElem?_map,
        List.getElem?_range' small, Option.map_some, Nat.one_mul, List.getD_eq_getElem?_getD,
        entry o small, List.getElem?_eq_getElem (by omega), Option.getD_some]
    · rw [List.getElem?_eq_none (by simp [gather]; omega),
        List.getElem?_eq_none (by simp; omega)]

/-- The token a pending row takes from its previous row. -/
theorem gather_next (runner : ModelRunner) (i : SeqId) (seq : Sequence) :
    gather runner.nextTokenIds placeholderTokenId (runner.pendingFrom i seq) =
      if seq.numPendingTokens = 0 then []
      else [runner.nextTokenIds.getD (runner.source i) placeholderTokenId] := by
  unfold pendingFrom
  split <;> rfl

/-- The host tokens of a row with its pending token and drafts copied in are the
tokens it feeds. -/
theorem Laid.deviceIds_eq (laid : runner.Laid cfg i seq) (holds : runner.Holds cfg) :
    runner.deviceIds i seq =
      match runner.inFlightDrafts with
      | none => indexCopy (hostIds seq) (pendingAt seq)
          (gather runner.nextTokenIds placeholderTokenId (runner.pendingFrom i seq))
      | some inFlight => indexCopy (indexCopy (hostIds seq) (pendingAt seq)
          (gather runner.nextTokenIds placeholderTokenId (runner.pendingFrom i seq)))
          (runner.draftsAt seq)
          (gather inFlight.draftTokenIds.flatten placeholderTokenId
            (runner.draftsFrom cfg i seq)) := by
  rw [gather_next]
  by_cases settled : seq.numPendingTokens = 0
  · cases device : runner.inFlightDrafts <;>
      simp [deviceIds, settled, pendingAt, draftsAt]
  · have decoding := laid.decoding_of_pending settled
    have own : indexCopy (hostIds seq) (pendingAt seq)
        [runner.nextTokenIds.getD (runner.source i) placeholderTokenId] =
        runner.nextTokenIds.getD (runner.source i) placeholderTokenId :: seq.specTokenIds := by
      simp [hostIds, decoding, pendingAt, settled, indexCopy]
    rw [if_neg settled, own]
    cases device : runner.inFlightDrafts with
    | none => simp [deviceIds, decoding, settled, device]
    | some inFlight =>
        have drafts := (holds.gather_drafts device (laid.known settled) laid.short).2
        have full : seq.specTokenIds.length ≤
            (inFlight.draftTokenIds.getD (runner.source i) []).length := by
          obtain ⟨length, uniform⟩ := holds.drafts inFlight device
          have inside : runner.source i < inFlight.draftTokenIds.length := by
            rw [length]
            exact List.idxOf_lt_length_iff.mpr (laid.known settled)
          rw [List.getD_eq_getElem?_getD, List.getElem?_eq_getElem inside, Option.getD_some,
            uniform _ (List.getElem_mem inside)]
          exact laid.short
        have shifted := indexCopy_shift
          [runner.nextTokenIds.getD (runner.source i) placeholderTokenId] seq.specTokenIds
          (List.range seq.specTokenIds.length)
          ((inFlight.draftTokenIds.getD (runner.source i) []).take seq.specTokenIds.length)
        rw [indexCopy_range (Nat.le_refl _) full, List.drop_length, List.append_nil,
          List.singleton_append, List.singleton_append, List.length_singleton] at shifted
        have positions : runner.draftsAt seq =
            (List.range seq.specTokenIds.length).map (1 + ·) := by
          simp [draftsAt, settled, device, List.range'_eq_map_range]
        have sources : runner.draftsFrom cfg i seq =
            List.range' (runner.source i * cfg.numSpeculativeTokens)
              seq.specTokenIds.length := by
          simp [draftsFrom, settled, device]
        simp only [deviceIds, decoding, settled, device, Bool.false_eq_true, false_or, if_false]
        rw [positions, sources, drafts, shifted]

/-- What a row can be prepared as. -/
theorem Laid.prepareRow_eq (laid : runner.Laid cfg i seq) (holds : runner.Holds cfg) :
    ∃ input, runner.prepareRow i seq = .ok input ∧ input.seq = i ∧
      input.start = seq.numCachedTokens - runner.moveBack i seq ∧
      input.inputIds = runner.deviceIds i seq ∧ input.numDrafts = rowDrafts seq ∧
      input.samples = decide seq.Samples := by
  cases prefill : seq.isPrefill with
  | true =>
      obtain ⟨settled, _⟩ := laid.prefilling prefill
      exact ⟨_, prepareRow_prefill prefill settled, rfl, by simp [moveBack, settled],
        by simp [deviceIds, hostIds, prefill], by simp [rowDrafts, prefill], rfl⟩
  | false =>
      by_cases settled : seq.numPendingTokens = 0
      · exact ⟨_, prepareRow_settled prefill settled, rfl, by simp [moveBack, settled],
          by simp [deviceIds, hostIds, prefill, settled], by simp [rowDrafts, prefill], rfl⟩
      · have found := prevRow_of_mem (laid.known settled)
        have inside : runner.source i < runner.prevTokens.length := by
          rw [holds.tokens]
          exact List.idxOf_lt_length_iff.mpr (laid.known settled)
        have row := List.getElem?_eq_getElem inside
        have nonempty := holds.nonempty _ (List.getElem_mem inside)
        have next := List.getLast?_eq_some_getLast nonempty
        cases device : runner.inFlightDrafts with
        | none =>
            refine ⟨_, by simp [prepareRow, prefill, settled, found, device, bind, Except.bind]; rfl,
              rfl, ?_, ?_, ?_, rfl⟩
            · simp [moveBack, settled, device]
            · simp [deviceIds, prefill, settled, device, nextTokenIds, row, next]
            · simp [rowDrafts, prefill]
        | some inFlight =>
            refine ⟨_, by simp [prepareRow, prefill, settled, found, device, bind, Except.bind]; rfl,
              rfl, ?_, ?_, ?_, rfl⟩
            · simp [moveBack, settled, device]
            · simp [deviceIds, prefill, settled, device, nextTokenIds, row, next]
            · simp [rowDrafts, prefill]

theorem Laid.length_deviceIds (laid : runner.Laid cfg i seq) (holds : runner.Holds cfg) :
    (hostIds seq).length = seq.numScheduledTokens ∧
      (runner.deviceIds i seq).length = seq.numScheduledTokens := by
  have host : (hostIds seq).length = seq.numScheduledTokens := by
    unfold hostIds
    cases prefill : seq.isPrefill with
    | true =>
        have inside := (laid.prefilling prefill).2
        simp
        omega
    | false =>
        have := laid.decoding prefill
        simp
        omega
  refine ⟨host, ?_⟩
  rw [laid.deviceIds_eq holds]
  cases runner.inFlightDrafts <;> simp [host]

/-- The copies of a batch: what the token loop collects for `ids`. -/
def columnsOf (cfg : Config) (runner : ModelRunner) (heap : SeqId → Sequence) (ids : List SeqId) :
    TokenColumns where
  tokenIds := ids.flatMap fun i => hostIds (heap i)
  pendingDst := flatPositions (fun i => hostIds (heap i)) (fun i => pendingAt (heap i)) 0 ids
  pendingSrc := ids.flatMap fun i => runner.pendingFrom i (heap i)
  draftDst := flatPositions (fun i => hostIds (heap i)) (fun i => runner.draftsAt (heap i)) 0 ids
  draftSrc := ids.flatMap fun i => runner.draftsFrom cfg i (heap i)

variable {ids : List SeqId}

theorem pendingAt_lt (laid : ∀ i ∈ ids, runner.Laid cfg i (heap i)) :
    ∀ i ∈ ids, ∀ p ∈ pendingAt (heap i), p < (hostIds (heap i)).length := by
  intro i member p among
  unfold pendingAt at among
  split at among
  · simp at among
  · rename_i pending
    obtain rfl := List.mem_singleton.mp among
    simp [hostIds, (laid i member).decoding_of_pending pending]

theorem draftsAt_lt (laid : ∀ i ∈ ids, runner.Laid cfg i (heap i)) :
    ∀ i ∈ ids, ∀ p ∈ runner.draftsAt (heap i), p < (hostIds (heap i)).length := by
  intro i member p among
  unfold draftsAt at among
  split at among
  · simp at among
  · rename_i copied
    rw [not_or] at copied
    obtain ⟨o, small, rfl⟩ := List.mem_range'.mp among
    simp only [hostIds, (laid i member).decoding_of_pending copied.1, Bool.false_eq_true, if_false,
      List.length_cons]
    omega

/-- The tokens of the pending rows are copied in. -/
theorem copyPending_eq (holds : runner.Holds cfg)
    (laid : ∀ i ∈ ids, runner.Laid cfg i (heap i)) :
    runner.copyPending (runner.columnsOf cfg heap ids) =
      .ok (ids.flatMap fun i => indexCopy (hostIds (heap i)) (pendingAt (heap i))
        (gather runner.nextTokenIds placeholderTokenId (runner.pendingFrom i (heap i)))) := by
  let columns := runner.columnsOf cfg heap ids
  have sources : ∀ k ∈ columns.pendingSrc, k < runner.nextTokenIds.length := by
    intro k member
    obtain ⟨i, among, own⟩ := List.mem_flatMap.mp member
    unfold pendingFrom at own
    split at own
    · simp at own
    · rename_i pending
      obtain rfl := List.mem_singleton.mp own
      exact holds.source_lt ((laid i among).known pending)
  have rowwise := @indexCopy_flatMap Token SeqId (fun i => hostIds (heap i))
    (fun i => gather runner.nextTokenIds placeholderTokenId (runner.pendingFrom i (heap i)))
    (fun i => pendingAt (heap i)) ids (pendingAt_lt laid) (by
      intro i member
      unfold pendingAt gather pendingFrom
      split <;> rfl) []
  rw [List.nil_append, List.nil_append, List.length_nil] at rowwise
  have scattered : indexCopy columns.tokenIds columns.pendingDst
      (gather runner.nextTokenIds placeholderTokenId columns.pendingSrc) =
      ids.flatMap fun i => indexCopy (hostIds (heap i)) (pendingAt (heap i))
        (gather runner.nextTokenIds placeholderTokenId (runner.pendingFrom i (heap i))) := by
    rw [← rowwise, gather]
    simp only [columns, columnsOf, List.map_flatMap]
    rfl
  rw [← scattered]
  show runner.copyPending columns = _
  simp only [copyPending]
  split
  · rename_i consecutive
    obtain ⟨positions, rowsEq⟩ := consecutive
    have enough : columns.pendingDst.length ≤ runner.nextTokenIds.length := by
      by_contra short
      have := sources runner.nextTokenIds.length (by
        rw [rowsEq]
        exact List.mem_range.mpr (by omega))
      omega
    have fits : columns.pendingDst.length ≤ columns.tokenIds.length := by
      by_contra short
      have among : columns.tokenIds.length ∈ columns.pendingDst := by
        rw [positions]
        exact List.mem_range.mpr (by omega)
      have := lt_of_mem_flatPositions (pendingAt_lt laid) among
      simp only [columns, columnsOf] at this
      omega
    have taken : gather runner.nextTokenIds placeholderTokenId columns.pendingSrc =
        runner.nextTokenIds.take columns.pendingDst.length := by
      rw [rowsEq]
      conv_rhs => rw [← gather_range runner.nextTokenIds placeholderTokenId]
      simp [gather, ← List.map_take, List.take_range, Nat.min_eq_left enough]
    rw [taken]
    conv_rhs => rw [positions, List.length_range]
    rw [indexCopy_range fits enough]
  · rw [indexSelect_eq sources]
    rfl

/-- After both copies every row has the tokens it feeds. -/
theorem copyDrafts_eq (holds : runner.Holds cfg)
    (laid : ∀ i ∈ ids, runner.Laid cfg i (heap i)) :
    runner.copyDrafts (runner.columnsOf cfg heap ids)
        (ids.flatMap fun i => indexCopy (hostIds (heap i)) (pendingAt (heap i))
          (gather runner.nextTokenIds placeholderTokenId (runner.pendingFrom i (heap i)))) =
      .ok (ids.flatMap fun i => runner.deviceIds i (heap i)) := by
  unfold copyDrafts
  cases device : runner.inFlightDrafts with
  | none =>
      refine congrArg Except.ok (List.flatMap_congr ?_)
      intro i member
      rw [(laid i member).deviceIds_eq holds, device]
  | some inFlight =>
      have sources : ∀ i ∈ ids, ∀ k ∈ runner.draftsFrom cfg i (heap i),
          k < inFlight.draftTokenIds.flatten.length := by
        intro i member k own
        unfold draftsFrom at own
        split at own
        · simp at own
        · rename_i copied
          rw [not_or] at copied
          have known := (laid i member).known copied.1
          exact (holds.gather_drafts device known (laid i member).short).1 k own
      have selected : indexSelect inFlight.draftTokenIds.flatten
          (runner.columnsOf cfg heap ids).draftSrc =
            .ok (gather inFlight.draftTokenIds.flatten placeholderTokenId
              (runner.columnsOf cfg heap ids).draftSrc) := by
        apply indexSelect_eq
        intro k member
        obtain ⟨i, among, own⟩ := List.mem_flatMap.mp member
        exact sources i among k own
      have rowwise := @indexCopy_flatMap Token SeqId
        (fun i => indexCopy (hostIds (heap i)) (pendingAt (heap i))
          (gather runner.nextTokenIds placeholderTokenId (runner.pendingFrom i (heap i))))
        (fun i => gather inFlight.draftTokenIds.flatten placeholderTokenId
          (runner.draftsFrom cfg i (heap i)))
        (fun i => runner.draftsAt (heap i)) ids
        (by simpa only [length_indexCopy] using draftsAt_lt laid) (by
          intro i member
          unfold draftsAt gather draftsFrom
          split <;> simp) []
      rw [List.nil_append, List.nil_append, List.length_nil] at rowwise
      have positions : (runner.columnsOf cfg heap ids).draftDst =
          flatPositions (fun i => indexCopy (hostIds (heap i)) (pendingAt (heap i))
            (gather runner.nextTokenIds placeholderTokenId (runner.pendingFrom i (heap i))))
            (fun i => runner.draftsAt (heap i)) 0 ids :=
        flatPositions_congr (by simp) _ _
      have gathered : gather inFlight.draftTokenIds.flatten placeholderTokenId
          (runner.columnsOf cfg heap ids).draftSrc =
          ids.flatMap fun i => gather inFlight.draftTokenIds.flatten placeholderTokenId
            (runner.draftsFrom cfg i (heap i)) := by
        simp only [gather, columnsOf, List.map_flatMap]
      simp only [selected, bind, Except.bind]
      rw [positions, gathered, rowwise]
      refine congrArg Except.ok (List.flatMap_congr ?_)
      intro i member
      rw [(laid i member).deviceIds_eq holds, device]

/-! ## Positions -/

theorem prevRowsOf_eq (known : ∀ i ∈ ids, i ∈ runner.prevRows) :
    runner.prevRowsOf ids = .ok (ids.map runner.source) := by
  induction ids with
  | nil => rfl
  | cons i ids ih =>
      simp only [prevRowsOf, prevRow_of_mem (known i List.mem_cons_self),
        ih fun i member => known i (List.mem_cons_of_mem _ member), bind, Except.bind,
        List.map_cons]

/-- Each row moves back by the drafts its previous row rejected. -/
theorem movesBack_eq (laid : ∀ i ∈ rows.batch, runner.Laid cfg i (heap i)) :
    runner.movesBack heap rows = .ok (rows.batch.map fun i => runner.moveBack i (heap i)) := by
  let moved := runner.movedRows heap rows
  have inside : ∀ r ∈ moved, r < rows.batch.length ∧
      (heap (rows.batch.getD r 0)).numPendingTokens ≠ 0 ∧ runner.inFlightDrafts.isSome := by
    intro r member
    simp only [moved, movedRows] at member
    split at member
    · rename_i device
      rw [List.mem_filter, List.mem_range] at member
      exact ⟨member.1, by simpa using member.2, device⟩
    · simp at member
  have own : ∀ r, r < rows.batch.length → rows.batch[r]? = some (rows.batch.getD r 0) := by
    intro r small
    simp [List.getD_eq_getElem?_getD, small]
  have known : ∀ i ∈ gather rows.batch 0 moved, i ∈ runner.prevRows := by
    intro i member
    obtain ⟨r, among, rfl⟩ := List.mem_map.mp member
    obtain ⟨small, pending, _⟩ := inside r among
    exact (laid _ (List.mem_of_getElem? (own r small))).known pending
  have distinct : moved.Nodup := by
    simp only [moved, movedRows]
    split
    · exact List.nodup_range.filter _
    · exact List.nodup_nil
  have sources : runner.prevRowsOf (gather rows.batch 0 (runner.movedRows heap rows)) =
      .ok ((gather rows.batch 0 moved).map runner.source) := prevRowsOf_eq known
  simp only [movesBack, sources, bind, Except.bind]
  refine congrArg Except.ok (List.ext_getElem? ?_)
  intro r
  by_cases small : r < rows.batch.length
  · rw [List.getElem?_map, own r small, Option.map_some]
    by_cases among : r ∈ moved
    · obtain ⟨_, pending, device⟩ := inside r among
      obtain ⟨inFlight, device⟩ := Option.isSome_iff_exists.mp device
      obtain ⟨k, at_k⟩ := List.mem_iff_getElem?.mp among
      refine getElem?_indexCopy distinct ?_ at_k ?_
      · intro p member
        rw [List.length_replicate]
        exact (inside p member).1
      · rw [moveBack, if_neg pending, device]
        simp [gather, at_k]
    · rw [getElem?_indexCopy_of_not_mem among, List.getElem?_replicate, if_pos small]
      have still : runner.moveBack (rows.batch.getD r 0) (heap (rows.batch.getD r 0)) = 0 := by
        unfold moveBack
        split
        · rfl
        · rename_i pending
          cases device : runner.inFlightDrafts with
          | none => rfl
          | some inFlight =>
              refine absurd ?_ among
              simp only [moved, movedRows, device, Option.isSome_some, if_true, List.mem_filter,
                List.mem_range]
              exact ⟨small, by simpa using pending⟩
      rw [still]
  · rw [List.getElem?_eq_none (by simpa using Nat.le_of_not_lt small),
      List.getElem?_eq_none (by simpa using Nat.le_of_not_lt small)]

/-- The positions of a batch: each row counts from its start, less what it moves
back. -/
theorem positions_eq {start back len : SeqId → Nat} (bounded : ∀ i ∈ ids, back i ≤ start i) :
    List.zipWith (fun p r => p - (ids.map back).getD r 0)
        (List.zipWith (fun r p => (ids.map start).getD r 0 + p - (cumsum (ids.map len)).getD r 0)
          (repeatEach (List.range ids.length) (ids.map len)) (List.range (ids.map len).sum))
        (repeatEach (List.range ids.length) (ids.map len)) =
      ids.flatMap fun i => (List.range (len i)).map (start i - back i + ·) := by
  rw [zipWith_zipWith_self]
  have counted := zipWith_rowNumbers (fun r p => (ids.map start).getD r 0 + p -
    (cumsum (ids.map len)).getD r 0 - (ids.map back).getD r 0) (ids.map len)
  rw [List.length_map] at counted
  rw [counted]
  conv_rhs => rw [← gather_range ids 0, gather, List.flatMap_map]
  apply List.flatMap_congr
  intro r member
  have small := List.mem_range.mp member
  have found : ids[r]? = some (ids.getD r 0) := by
    simp [List.getD_eq_getElem?_getD, small]
  have at_row : ∀ f : SeqId → Nat, (ids.map f).getD r 0 = f (ids.getD r 0) := by
    intro f
    rw [List.getD_eq_getElem?_getD, List.getElem?_map, found]
    rfl
  have within := bounded _ (List.mem_of_getElem? found)
  rw [at_row len, at_row start, at_row back]
  apply List.map_congr_left
  intro o _
  omega

/-! ## Logits -/

/-- The flat position of the first logits of the `k`-th scheduled row. -/
def firstLogits (rows : BatchRows) (heap : SeqId → Sequence) (seqs : List SeqId) (k : Nat) : Nat :=
  (cumsum rows.lens).getD (rows.rowOf.getD k 0) 0 +
    ((heap (seqs.getD k 0)).numScheduledTokens - (rowDrafts (heap (seqs.getD k 0)) + 1))

/-- The logits of a sampling row are those of its last inputs. -/
theorem BatchRows.Orders.logitsIndices_eq (orders : rows.Orders heap seqs)
    (enough : ∀ i ∈ seqs, (heap i).Samples → rowDrafts (heap i) + 1 ≤ (heap i).numScheduledTokens) :
    logitsIndices rows = rows.sampling.flatMap fun k =>
      (List.range (rowDrafts (heap (seqs.getD k 0)) + 1)).map
        (firstLogits rows heap seqs k + ·) := by
  have counted := @zipWith_repeatEach _ _ _ (· + ·) rows.sampling
    (firstLogits rows heap seqs) fun k => rowDrafts (heap (seqs.getD k 0)) + 1
  rw [← counted]
  have bases : List.zipWith (· - ·)
      (gather ((cumsum rows.lens).tail.map (· - 1)) 0 (gather rows.rowOf 0 rows.sampling))
      rows.samplingDrafts = rows.sampling.map (firstLogits rows heap seqs) := by
    rw [orders.drafts, gather, gather, List.map_map, List.zipWith_map, List.zipWith_self]
    apply List.map_congr_left
    intro k member
    rw [orders.sampling, List.mem_filter, List.mem_range] at member
    obtain ⟨small, samples⟩ := member
    have found : seqs[k]? = some (seqs.getD k 0) := by
      simp [List.getD_eq_getElem?_getD, small]
    obtain ⟨r, row, own⟩ := orders.rowOf found
    have rowEq : rows.rowOf.getD k 0 = r := by simp [List.getD_eq_getElem?_getD, row]
    have inside : r < rows.lens.length := by
      rw [orders.lens, List.length_map]
      exact (List.getElem?_eq_some_iff.mp own).1
    have len : rows.lens.getD r 0 = (heap (seqs.getD k 0)).numScheduledTokens := by
      rw [orders.lens, List.getD_eq_getElem?_getD, List.getElem?_map, own]
      rfl
    have last : ((cumsum rows.lens).tail.map (· - 1)).getD r 0 =
        (cumsum rows.lens).getD r 0 + rows.lens.getD r 0 - 1 := by
      rw [← getD_cumsum_succ inside]
      have long : r + 1 < (cumsum rows.lens).length := by
        simpa [cumsum] using inside
      simp [List.getD_eq_getElem?_getD, long]
    have fits := enough _ (List.mem_of_getElem? found) (by simpa using samples)
    simp only [Function.comp_apply, firstLogits, rowEq, last, len]
    omega
  have counts : rows.samplingDrafts.map (· + 1) =
      rows.sampling.map fun k => rowDrafts (heap (seqs.getD k 0)) + 1 := by
    rw [orders.drafts, List.map_map]
    rfl
  simp only [logitsIndices, counts, bases]

/-- The drafts to verify are the inputs after those positions. -/
theorem BatchRows.Orders.draftIndices_eq (orders : rows.Orders heap seqs)
    (enough : ∀ i ∈ seqs, (heap i).Samples → rowDrafts (heap i) + 1 ≤ (heap i).numScheduledTokens) :
    draftIndices rows = rows.sampling.flatMap fun k =>
      (List.range (rowDrafts (heap (seqs.getD k 0)))).map
        (firstLogits rows heap seqs k + 1 + ·) := by
  have counts : rows.samplingDrafts.map (· + 1) =
      rows.sampling.map fun k => rowDrafts (heap (seqs.getD k 0)) + 1 := by
    rw [orders.drafts, List.map_map]
    rfl
  have flags : List.zipWith (fun offset drafts => decide (offset < drafts))
      (offsetsWithin (rows.samplingDrafts.map (· + 1)))
      (repeatEach rows.samplingDrafts (rows.samplingDrafts.map (· + 1))) =
      rows.sampling.flatMap fun k => (List.range (rowDrafts (heap (seqs.getD k 0)) + 1)).map
        fun offset => decide (offset < rowDrafts (heap (seqs.getD k 0))) := by
    rw [List.zipWith_comm, counts]
    conv_lhs => rw [orders.drafts]
    exact zipWith_repeatEach (fun drafts offset => decide (offset < drafts))
      (fun k => rowDrafts (heap (seqs.getD k 0)))
      fun k => rowDrafts (heap (seqs.getD k 0)) + 1
  simp only [draftIndices, flags]
  rw [orders.logitsIndices_eq enough, zip_flatMap (by simp), List.filter_flatMap,
    List.map_flatMap]
  apply List.flatMap_congr
  intro k _
  rw [List.zip_map', List.filter_map, List.map_map, List.range_succ, List.filter_append]
  have whole : (List.range (rowDrafts (heap (seqs.getD k 0)))).filter
      (Prod.snd ∘ fun offset => (firstLogits rows heap seqs k + offset,
        decide (offset < rowDrafts (heap (seqs.getD k 0))))) =
      List.range (rowDrafts (heap (seqs.getD k 0))) := by
    apply List.filter_eq_self.mpr
    intro offset member
    simpa using List.mem_range.mp member
  rw [whole]
  simp only [List.filter_cons, Function.comp_apply, Nat.lt_irrefl, decide_false, Bool.false_eq_true,
    if_false, List.filter_nil, List.append_nil]
  apply List.map_congr_left
  intro offset _
  simp only [Function.comp_apply]
  omega

/-! ## Batches without prompts -/

theorem decodeQueryLen_ones {lens : List Nat} (nonempty : lens ≠ []) (ones : ∀ len ∈ lens, len = 1)
    (numSpeculativeTokens : Nat) : decodeQueryLen lens numSpeculativeTokens = 1 := by
  obtain ⟨m, rfl⟩ : ∃ m, lens = List.replicate (m + 1) 1 := by
    refine ⟨lens.length - 1, List.eq_replicate_iff.mpr ⟨?_, ones⟩⟩
    have := List.length_pos_of_ne_nil nonempty
    omega
  have short : (List.replicate (m + 1) 1).filter (fun len => decide (len ≤ 1 + numSpeculativeTokens)) =
      List.replicate (m + 1) 1 := by
    rw [List.filter_replicate, if_pos (by simp)]
  have largest : ∀ n, (List.replicate n 1).foldl max 1 = 1 := by
    intro n
    induction n with
    | zero => rfl
    | succ n ih => simpa [List.replicate_succ] using ih
  have width : (List.replicate (m + 1) 1).foldl max 0 = 1 := by
    rw [List.replicate_succ, List.foldl_cons]
    exact largest m
  have none : (List.replicate (m + 1) 1).count 0 = 0 := by
    simp [List.count_replicate]
  simp only [decodeQueryLen, short, width]
  rw [if_neg (by simp)]
  simp [List.range_succ, none]

/-- Without prompts and with every row one query long, or all rows of the length
the attention kernel takes, rows keep their order. -/
theorem batchRows_order {q : Nat}
    (uniform : ∀ i ∈ seqs, (heap i).numScheduledTokens = q)
    (chosen : seqs ≠ [] → (batchRows cfg decodesLatents heap seqs).queryLen = q) :
    (batchRows cfg decodesLatents heap seqs).order = List.range seqs.length := by
  let lens := seqs.map fun i => (heap i).numScheduledTokens
  have each : ∀ k ∈ List.range lens.length,
      lens.getD k 0 = (batchRows cfg decodesLatents heap seqs).queryLen := by
    intro k member
    have small : k < seqs.length := by simpa [lens] using member
    rw [chosen (List.ne_nil_of_length_pos (Nat.zero_lt_of_lt small)),
      ← uniform seqs[k] (List.getElem_mem small)]
    simp [lens, List.getD_eq_getElem?_getD, small]
  show rowOrder lens (batchRows cfg decodesLatents heap seqs).queryLen = _
  rw [rowOrder, List.filter_eq_self.mpr fun k member => by simpa using each k member,
    List.filter_eq_nil_iff.mpr fun k member => by simpa using each k member, List.append_nil]
  simp [lens]

/-- A batch on the decode path has decode rows only, all of one length. -/
theorem batchRows_uniform (decodes : (batchRows cfg decodesLatents heap seqs).isPrefill = false)
    (scheduled : ∀ i ∈ seqs, (heap i).isPrefill = false → 1 ≤ (heap i).numScheduledTokens) :
    (∀ i ∈ seqs, (heap i).isPrefill = false ∧
        rowDrafts (heap i) + 1 = (heap i).numScheduledTokens) ∧
      ∃ q, (∀ i ∈ seqs, (heap i).numScheduledTokens = q) ∧
        (seqs ≠ [] → (batchRows cfg decodesLatents heap seqs).queryLen = q) := by
  have orders := batchRows_orders cfg decodesLatents heap seqs
  obtain ⟨prompts, uniform⟩ := Bool.or_eq_false_iff.mp decodes
  have decoding : ∀ i ∈ seqs, (heap i).isPrefill = false := by
    intro i member
    by_contra prefill
    rw [List.any_eq_false] at prompts
    exact prompts i member (by simpa using prefill)
  have drafts : ∀ i ∈ seqs, rowDrafts (heap i) + 1 = (heap i).numScheduledTokens := by
    intro i member
    have := scheduled i member (decoding i member)
    simp only [rowDrafts, decoding i member, Bool.false_eq_true, if_false]
    omega
  refine ⟨fun i member => ⟨decoding i member, drafts i member⟩, ?_⟩
  rcases Bool.and_eq_false_iff.mp uniform with none | all
  · have ones : ∀ i ∈ seqs, (heap i).numScheduledTokens = 1 := by
      intro i member
      have own := drafts i member
      rw [List.any_eq_false] at none
      have zero := none (rowDrafts (heap i)) (List.mem_map_of_mem member)
      simp only [ne_eq, decide_not, Bool.not_eq_true', decide_eq_false_iff_not,
        Decidable.not_not] at zero
      omega
    refine ⟨1, ones, fun nonempty => decodeQueryLen_ones (by simpa using nonempty) ?_ _⟩
    intro len member
    obtain ⟨i, among, rfl⟩ := List.mem_map.mp member
    exact ones i among
  · simp only [Bool.not_eq_false', Bool.and_eq_true, List.all_eq_true] at all
    refine ⟨(batchRows cfg decodesLatents heap seqs).queryLen, ?_, fun _ => rfl⟩
    intro i member
    have own : (heap i).numScheduledTokens ∈ (batchRows cfg decodesLatents heap seqs).lens := by
      rw [orders.lens]
      exact List.mem_map_of_mem (orders.perm.mem_iff.mpr member)
    exact of_decide_eq_true (all.2 _ own)

/-- A batch on the decode path samples at every position. -/
theorem batchRows_logits (decodes : (batchRows cfg decodesLatents heap seqs).isPrefill = false)
    (scheduled : ∀ i ∈ seqs, (heap i).isPrefill = false → 1 ≤ (heap i).numScheduledTokens)
    (samples : ∀ i ∈ seqs, (heap i).isPrefill = false → (heap i).Samples) :
    logitsIndices (batchRows cfg decodesLatents heap seqs) =
      List.range (batchRows cfg decodesLatents heap seqs).lens.sum := by
  have orders := batchRows_orders cfg decodesLatents heap seqs
  obtain ⟨plain, q, uniform, chosen⟩ := batchRows_uniform decodes scheduled
  have decoding : ∀ i ∈ seqs, (heap i).isPrefill = false := fun i member => (plain i member).1
  have drafts : ∀ i ∈ seqs, rowDrafts (heap i) + 1 = (heap i).numScheduledTokens :=
    fun i member => (plain i member).2
  have order := batchRows_order uniform chosen
  have lens : (batchRows cfg decodesLatents heap seqs).lens =
      seqs.map fun i => (heap i).numScheduledTokens := by
    show gather _ 0 (batchRows cfg decodesLatents heap seqs).order = _
    rw [order]
    have whole := gather_range (seqs.map fun i => (heap i).numScheduledTokens) 0
    rwa [List.length_map] at whole
  have all : (batchRows cfg decodesLatents heap seqs).sampling = List.range seqs.length := by
    rw [orders.sampling]
    apply List.filter_eq_self.mpr
    intro k member
    have small := List.mem_range.mp member
    have among : seqs.getD k 0 ∈ seqs := by
      simp [List.getD_eq_getElem?_getD, small]
    simpa using samples _ among (decoding _ among)
  rw [orders.logitsIndices_eq fun i member _ => (drafts i member).le, all, lens,
    ← flatMap_positions, List.length_map]
  apply List.flatMap_congr
  intro k member
  have small := List.mem_range.mp member
  have among : seqs.getD k 0 ∈ seqs := by
    simp [List.getD_eq_getElem?_getD, small]
  obtain ⟨r, row, own⟩ := getElem?_inverseOrder (List.Perm.refl (List.range seqs.length)) small
  have rowEq : (batchRows cfg decodesLatents heap seqs).rowOf.getD k 0 = k := by
    show (inverseOrder (batchRows cfg decodesLatents heap seqs).order).getD k 0 = k
    rw [order, List.getD_eq_getElem?_getD, row, Option.getD_some]
    rw [List.getElem?_eq_some_iff] at own
    obtain ⟨_, own⟩ := own
    simpa using own
  have len : (seqs.map fun i => (heap i).numScheduledTokens).getD k 0 =
      (heap (seqs.getD k 0)).numScheduledTokens := by
    simp [List.getD_eq_getElem?_getD, small]
  rw [drafts _ among, len]
  apply List.map_congr_left
  intro o _
  rw [firstLogits, rowEq, drafts _ among, lens, Nat.sub_self, Nat.add_zero]

/-! ## The whole batch -/

theorem BatchRows.Orders.rowOf_eq (orders : rows.Orders heap seqs) (distinct : seqs.Nodup) {k : Nat}
    {i : SeqId} (found : seqs[k]? = some i) :
    rows.rowOf.getD k 0 = rows.batch.idxOf i ∧ rows.batch[rows.batch.idxOf i]? = some i := by
  obtain ⟨r, row, own⟩ := orders.rowOf found
  have member : i ∈ rows.batch := List.mem_of_getElem? own
  have inside := List.idxOf_lt_length_iff.mpr member
  have first : rows.batch[rows.batch.idxOf i]? = some i := by
    rw [List.getElem?_eq_getElem inside, List.getElem_idxOf]
  refine ⟨?_, first⟩
  rw [List.getD_eq_getElem?_getD, row, Option.getD_some]
  have nodup := orders.perm.nodup_iff.mpr distinct
  exact (List.getElem?_inj (List.getElem?_eq_some_iff.mp own).1 nodup).mp (own.trans first.symm)

end ModelRunner

/-- A layout holds the rows of a batch: each row's inputs and positions stand at
its batch row, and the sampling rows are read in scheduler order. -/
structure BatchLayout.Lays (layout : BatchLayout) (inputs : List RowInput) : Prop where
  members : ∀ i, i ∈ layout.batch ↔ i ∈ inputs.map RowInput.seq
  inputIds : ∀ input ∈ inputs, layout.inputsOf input.seq = input.inputIds
  positions : ∀ input ∈ inputs, layout.positionsOf input.seq =
    (List.range input.inputIds.length).map (input.start + ·)
  samplingRows : layout.samplingRows = (inputs.filter RowInput.samples).map RowInput.seq
  numDraftTokens : layout.numDraftTokens =
    (inputs.filter RowInput.samples).map RowInput.numDrafts
  logits : layout.logitsRead = (inputs.filter RowInput.samples).flatMap fun input =>
    layout.lastPositions input.seq (input.numDrafts + 1)
  draftTokenIds : layout.draftTokenIds =
    (inputs.filter RowInput.samples).flatMap RowInput.drafts

namespace ModelRunner

variable {cfg : Config} {decodesLatents : Bool} {runner : ModelRunner} {heap : SeqId → Sequence}
  {seqs : List SeqId} {rows : BatchRows} {inputs : List RowInput}

/-- What a row of a batch must be for the whole batch to be laid out. -/
structure Lies (cfg : Config) (runner : ModelRunner) (i : SeqId) (seq : Sequence) : Prop
    extends Laid cfg runner i seq where
  samples : seq.isPrefill = false → seq.Samples
  enough : seq.Samples → 1 ≤ seq.numScheduledTokens

theorem Lies.rowDrafts_lt {i : SeqId} {seq : Sequence} (lies : runner.Lies cfg i seq)
    (samples : seq.Samples) : rowDrafts seq + 1 ≤ seq.numScheduledTokens := by
  have enough := lies.enough samples
  unfold rowDrafts
  split
  · exact enough
  · omega

/-- The inputs of a row, as the arrays hold them. -/
structure Feeds (runner : ModelRunner) (i : SeqId) (seq : Sequence) (input : RowInput) : Prop where
  own : input.seq = i
  start : input.start = seq.numCachedTokens - runner.moveBack i seq
  inputIds : input.inputIds = runner.deviceIds i seq
  numDrafts : input.numDrafts = rowDrafts seq
  samples : input.samples = decide seq.Samples

theorem feeds_of_prepared (holds : runner.Holds cfg)
    (lies : ∀ i ∈ seqs, runner.Lies cfg i (heap i))
    (prepared : List.Forall₂ (fun i input => runner.prepareRow i (heap i) = .ok input)
      seqs inputs) :
    List.Forall₂ (fun i input => runner.Feeds i (heap i) input) seqs inputs := by
  induction prepared with
  | nil => exact .nil
  | @cons i input seqs inputs own others ih =>
      refine .cons ?_ (ih fun j member => lies j (List.mem_cons_of_mem _ member))
      obtain ⟨found, preparedEq, same, start, inputIds, numDrafts, samples⟩ :=
        (lies i List.mem_cons_self).toLaid.prepareRow_eq holds
      obtain rfl := Except.ok.inj (preparedEq.symm.trans own)
      exact ⟨same, start, inputIds, numDrafts, samples⟩

/-- Reading something off the sampling rows of a batch. -/
theorem sampling_flatMap {α : Type} {f : RowInput → List α} {g : SeqId → List α}
    (feeds : List.Forall₂ (fun i input => runner.Feeds i (heap i) input) seqs inputs)
    (agree : ∀ i ∈ seqs, (heap i).Samples → ∀ input, runner.Feeds i (heap i) input →
      f input = g i) :
    (inputs.filter RowInput.samples).flatMap f =
      (seqs.filter fun i => decide (heap i).Samples).flatMap g := by
  induction feeds with
  | nil => rfl
  | @cons i input seqs inputs own others ih =>
      have rest := ih fun j member => agree j (List.mem_cons_of_mem _ member)
      by_cases samples : (heap i).Samples
      · rw [List.filter_cons_of_pos (by simp [own.samples, samples]),
          List.filter_cons_of_pos (by simpa using samples), List.flatMap_cons, List.flatMap_cons,
          rest, agree i List.mem_cons_self samples input own]
      · rw [List.filter_cons_of_neg (by simp [own.samples, samples]),
          List.filter_cons_of_neg (by simpa using samples), rest]

theorem sampling_map {α : Type} {f : RowInput → α} {g : SeqId → α}
    (feeds : List.Forall₂ (fun i input => runner.Feeds i (heap i) input) seqs inputs)
    (agree : ∀ i input, runner.Feeds i (heap i) input → f input = g i) :
    (inputs.filter RowInput.samples).map f =
      (seqs.filter fun i => decide (heap i).Samples).map g := by
  rw [List.map_eq_flatMap, List.map_eq_flatMap]
  exact sampling_flatMap feeds fun i _ _ input own => by rw [agree i input own]

/-- Entries read at the sampling rows' indices, in terms of their sequences. -/
theorem BatchRows.Orders.flatMap_sampling {α : Type} (orders : rows.Orders heap seqs)
    {f : Nat → List α} {g : SeqId → List α}
    (agree : ∀ k i, seqs[k]? = some i → (heap i).Samples → f k = g i) :
    rows.sampling.flatMap f = (seqs.filter fun i => decide (heap i).Samples).flatMap g := by
  rw [← orders.samplingRows, gather, List.flatMap_map]
  apply List.flatMap_congr
  intro k member
  rw [orders.sampling, List.mem_filter, List.mem_range] at member
  obtain ⟨small, samples⟩ := member
  exact agree k _ (by simp [List.getD_eq_getElem?_getD, small]) (by simpa using samples)

/-- The token loop over a batch whose prefill rows start at their cached tokens. -/
theorem collectTokens_rows {start : SeqId → Nat}
    (laid : ∀ i ∈ rows.batch, runner.Laid cfg i (heap i))
    (prompt : ∀ i ∈ rows.batch, (heap i).isPrefill = true → start i = (heap i).numCachedTokens) :
    runner.collectTokens cfg heap {} (rows.batch.zip ((rows.batch.map start).zip
        (rows.batch.map fun i => start i + (heap i).numScheduledTokens))) =
      .ok (runner.columnsOf cfg heap rows.batch) := by
  have entries : rows.batch.zip ((rows.batch.map start).zip
      (rows.batch.map fun i => start i + (heap i).numScheduledTokens)) =
      rows.batch.map fun i => (i, start i, start i + (heap i).numScheduledTokens) := by
    rw [List.zip_map', ← List.map_id rows.batch, List.map_map, List.zip_map']
    simp
  rw [entries, collectTokens_eq]
  · simp [columnsOf, Function.comp_def]
  · intro entry member
    obtain ⟨i, among, rfl⟩ := List.mem_map.mp member
    exact laid i among
  · intro entry member prefill
    obtain ⟨i, among, rfl⟩ := List.mem_map.mp member
    simp [prompt i among prefill]

/-- The layout of a batch, with everything it is computed from. -/
def layoutOf (cfg : Config) (decodesLatents : Bool) (runner : ModelRunner)
    (heap : SeqId → Sequence) (seqs : List SeqId) : BatchLayout :=
  let rows := batchRows cfg decodesLatents heap seqs
  let inputIds := rows.batch.flatMap fun i => runner.deviceIds i (heap i)
  { batch := rows.batch
    rowOf := rows.rowOf
    lens := rows.lens
    columns := runner.columnsOf cfg heap rows.batch
    inputIds := inputIds
    positions := rows.batch.flatMap fun i => (List.range (heap i).numScheduledTokens).map
      ((heap i).numCachedTokens - runner.moveBack i (heap i) + ·)
    contextLens := rows.batch.map fun i =>
      (heap i).numCachedTokens - runner.moveBack i (heap i) + (heap i).numScheduledTokens
    isPrefill := rows.isPrefill
    logitsIndices := if rows.isPrefill then some (logitsIndices rows) else none
    samplingRows := gather seqs 0 rows.sampling
    numDraftTokens := rows.samplingDrafts
    draftTokenIds := gather inputIds placeholderTokenId (draftIndices rows) }

/-- `prepare_batch` succeeds on rows that can be laid out. -/
theorem prepareBatch_eq (holds : runner.Holds cfg)
    (laid : ∀ i ∈ seqs, runner.Laid cfg i (heap i)) :
    runner.prepareBatch cfg decodesLatents heap seqs =
      .ok (runner.layoutOf cfg decodesLatents heap seqs) := by
  obtain ⟨rows, rowsEq⟩ : ∃ rows, batchRows cfg decodesLatents heap seqs = rows := ⟨_, rfl⟩
  have orders : rows.Orders heap seqs := rowsEq ▸ batchRows_orders cfg decodesLatents heap seqs
  have inBatch : ∀ i ∈ rows.batch, runner.Laid cfg i (heap i) := fun i member =>
    laid i (orders.perm.mem_iff.mp member)
  have back := movesBack_eq inBatch
  -- the host corrects the starts, or the device corrects the positions
  let hostBack : SeqId → Nat := fun i =>
    if needsExactLengths decodesLatents rows (runner.movedRows heap rows) then
      runner.moveBack i (heap i) else 0
  let deviceBack : SeqId → Nat := fun i =>
    if needsExactLengths decodesLatents rows (runner.movedRows heap rows) then 0
    else runner.moveBack i (heap i)
  have startsEq : (if needsExactLengths decodesLatents rows (runner.movedRows heap rows) then
      List.zipWith (· - ·) rows.starts (rows.batch.map fun i => runner.moveBack i (heap i))
      else rows.starts) =
      rows.batch.map fun i => (heap i).numCachedTokens - hostBack i := by
    have own : rows.starts = rows.batch.map fun i => (heap i).numCachedTokens := orders.starts
    simp only [hostBack]
    split
    · rw [own, List.zipWith_map, List.zipWith_self]
    · simpa using own
  have backEq : (if needsExactLengths decodesLatents rows (runner.movedRows heap rows) then
      List.replicate rows.batch.length 0
      else rows.batch.map fun i => runner.moveBack i (heap i)) = rows.batch.map deviceBack := by
    simp only [deviceBack]
    split
    · rw [List.map_const']
    · rfl
  have lensEq : rows.lens = rows.batch.map fun i => (heap i).numScheduledTokens := orders.lens
  have split : ∀ i ∈ rows.batch, deviceBack i ≤ (heap i).numCachedTokens - hostBack i ∧
      (heap i).numCachedTokens - hostBack i - deviceBack i =
        (heap i).numCachedTokens - runner.moveBack i (heap i) := by
    intro i member
    have bounded := (inBatch i member).back
    simp only [hostBack, deviceBack]
    split <;> omega
  have endsEq : List.zipWith (· + ·)
      (rows.batch.map fun i => (heap i).numCachedTokens - hostBack i) rows.lens =
      rows.batch.map fun i =>
        (heap i).numCachedTokens - hostBack i + (heap i).numScheduledTokens := by
    rw [lensEq, List.zipWith_map, List.zipWith_self]
  have prompt : ∀ i ∈ rows.batch, (heap i).isPrefill = true →
      (heap i).numCachedTokens - hostBack i = (heap i).numCachedTokens := by
    intro i member prefill
    simp [hostBack, moveBack, ((inBatch i member).prefilling prefill).1]
  have collected := collectTokens_rows inBatch prompt
  have positionsEq := @positions_eq rows.batch _ _ (fun i => (heap i).numScheduledTokens)
    fun i member => (split i member).1
  have movedBack : (rows.batch.flatMap fun i => (List.range (heap i).numScheduledTokens).map
      ((heap i).numCachedTokens - hostBack i - deviceBack i + ·)) =
      rows.batch.flatMap fun i => (List.range (heap i).numScheduledTokens).map
        ((heap i).numCachedTokens - runner.moveBack i (heap i) + ·) := by
    apply List.flatMap_congr
    intro i member
    rw [(split i member).2]
  have contextEq : List.zipWith (· - ·)
      (rows.batch.map fun i =>
        (heap i).numCachedTokens - hostBack i + (heap i).numScheduledTokens)
      (rows.batch.map deviceBack) =
      rows.batch.map fun i =>
        (heap i).numCachedTokens - runner.moveBack i (heap i) + (heap i).numScheduledTokens := by
    rw [List.zipWith_map, List.zipWith_self]
    apply List.map_congr_left
    intro i member
    have := split i member
    omega
  simp only [prepareBatch, rowsEq, back, startsEq, backEq, endsEq, collected,
    copyPending_eq holds inBatch, copyDrafts_eq holds inBatch, bind, Except.bind]
  rw [lensEq, positionsEq, movedBack, contextEq]
  simp only [layoutOf, rowsEq, lensEq]

theorem layoutOf_lens (holds : runner.Holds cfg) (laid : ∀ i ∈ seqs, runner.Laid cfg i (heap i)) :
    (runner.layoutOf cfg decodesLatents heap seqs).lens =
      (runner.layoutOf cfg decodesLatents heap seqs).batch.map fun i =>
        (runner.deviceIds i (heap i)).length := by
  have orders := batchRows_orders cfg decodesLatents heap seqs
  refine orders.lens.trans (List.map_congr_left ?_)
  intro i member
  rw [((laid i (orders.perm.mem_iff.mp member)).length_deviceIds holds).2]

/-- The row of a scheduled sequence. -/
theorem layoutOf_row (decodesLatents : Bool) {i : SeqId} (member : i ∈ seqs) :
    (runner.layoutOf cfg decodesLatents heap seqs).batch[
      (runner.layoutOf cfg decodesLatents heap seqs).row i]? = some i := by
  have orders := batchRows_orders cfg decodesLatents heap seqs
  have inside := List.idxOf_lt_length_iff.mpr (orders.perm.mem_iff.mpr member)
  show (batchRows cfg decodesLatents heap seqs).batch[
    (batchRows cfg decodesLatents heap seqs).batch.idxOf i]? = some i
  rw [List.getElem?_eq_getElem inside, List.getElem_idxOf]

/-- Reading an array of the layout at a sequence's row. -/
theorem layoutOf_segment {α : Type} (holds : runner.Holds cfg)
    (laid : ∀ i ∈ seqs, runner.Laid cfg i (heap i)) {content : SeqId → List α}
    (sized : ∀ i ∈ seqs, (content i).length = (runner.deviceIds i (heap i)).length) {i : SeqId}
    (member : i ∈ seqs) :
    segment ((runner.layoutOf cfg decodesLatents heap seqs).batch.flatMap content)
        (runner.layoutOf cfg decodesLatents heap seqs).lens
        ((runner.layoutOf cfg decodesLatents heap seqs).row i) = content i := by
  have orders := batchRows_orders cfg decodesLatents heap seqs
  have lens : (runner.layoutOf cfg decodesLatents heap seqs).lens =
      (runner.layoutOf cfg decodesLatents heap seqs).batch.map fun i => (content i).length := by
    rw [layoutOf_lens holds laid]
    apply List.map_congr_left
    intro j among
    rw [sized j (orders.perm.mem_iff.mp among)]
  rw [lens]
  exact segment_flatMap _ content (layoutOf_row decodesLatents member)

theorem layoutOf_firstLogits (holds : runner.Holds cfg)
    (laid : ∀ i ∈ seqs, runner.Laid cfg i (heap i)) (distinct : seqs.Nodup) {k : Nat} {i : SeqId}
    (found : seqs[k]? = some i) :
    firstLogits (batchRows cfg decodesLatents heap seqs) heap seqs k =
      (cumsum (runner.layoutOf cfg decodesLatents heap seqs).lens).getD
          ((runner.layoutOf cfg decodesLatents heap seqs).row i) 0 +
        ((runner.deviceIds i (heap i)).length - (rowDrafts (heap i) + 1)) := by
  have orders := batchRows_orders cfg decodesLatents heap seqs
  have own : seqs.getD k 0 = i := by simp [List.getD_eq_getElem?_getD, found]
  have member : i ∈ seqs := List.mem_of_getElem? found
  rw [firstLogits, (orders.rowOf_eq distinct found).1, own,
    ((laid i member).length_deviceIds holds).2]
  rfl

/-- The layout of a batch holds its rows. -/
theorem layoutOf_lays (holds : runner.Holds cfg) (lies : ∀ i ∈ seqs, runner.Lies cfg i (heap i))
    (distinct : seqs.Nodup)
    (prepared : List.Forall₂ (fun i input => runner.prepareRow i (heap i) = .ok input)
      seqs inputs) :
    (runner.layoutOf cfg decodesLatents heap seqs).Lays inputs := by
  have orders := batchRows_orders cfg decodesLatents heap seqs
  have laid : ∀ i ∈ seqs, runner.Laid cfg i (heap i) := fun i member => (lies i member).toLaid
  have feeds := feeds_of_prepared holds lies prepared
  have each : ∀ input ∈ inputs, ∃ i ∈ seqs, runner.Feeds i (heap i) input := by
    intro input member
    obtain ⟨k, inside, rfl⟩ := List.mem_iff_getElem.mp member
    have small : k < seqs.length := feeds.length_eq ▸ inside
    exact ⟨seqs[k], List.getElem_mem small, List.forall₂_iff_get.mp feeds |>.2 k small inside⟩
  have len : ∀ i ∈ seqs, (runner.layoutOf cfg decodesLatents heap seqs).lens.getD
      ((runner.layoutOf cfg decodesLatents heap seqs).row i) 0 =
        (runner.deviceIds i (heap i)).length := by
    intro i member
    rw [layoutOf_lens holds laid, List.getD_eq_getElem?_getD, List.getElem?_map,
      layoutOf_row decodesLatents member]
    rfl
  have enough : ∀ i ∈ seqs, (heap i).Samples →
      rowDrafts (heap i) + 1 ≤ (heap i).numScheduledTokens := fun i member samples =>
    (lies i member).rowDrafts_lt samples
  refine ⟨?_, ?_, ?_, ?_, ?_, ?_, ?_⟩
  · intro i
    have same : inputs.map RowInput.seq = seqs := by
      clear * - feeds
      induction feeds with
      | nil => rfl
      | cons own others ih => rw [List.map_cons, own.own, ih]
    rw [same]
    exact orders.perm.mem_iff
  · intro input member
    obtain ⟨i, among, own⟩ := each input member
    rw [own.own, own.inputIds]
    exact layoutOf_segment holds laid (fun _ _ => rfl) among
  · intro input member
    obtain ⟨i, among, own⟩ := each input member
    rw [own.own, own.inputIds, own.start, ((laid i among).length_deviceIds holds).2]
    have sized : ∀ j ∈ seqs, ((List.range (heap j).numScheduledTokens).map
        ((heap j).numCachedTokens - runner.moveBack j (heap j) + ·)).length =
          (runner.deviceIds j (heap j)).length := by
      intro j inside
      rw [((laid j inside).length_deviceIds holds).2]
      simp
    exact @layoutOf_segment _ _ _ _ _ Nat holds laid (fun j =>
      (List.range (heap j).numScheduledTokens).map
        ((heap j).numCachedTokens - runner.moveBack j (heap j) + ·)) sized i among
  · exact orders.samplingRows.trans
      ((List.map_id _).symm.trans (sampling_map feeds fun i input own => own.own).symm)
  · exact orders.samplingDrafts.trans (sampling_map feeds fun i input own => own.numDrafts).symm
  · have gathered : logitsIndices (batchRows cfg decodesLatents heap seqs) =
        (inputs.filter RowInput.samples).flatMap fun input =>
          (runner.layoutOf cfg decodesLatents heap seqs).lastPositions input.seq
            (input.numDrafts + 1) := by
      rw [orders.logitsIndices_eq enough, sampling_flatMap feeds (g := fun i =>
        (runner.layoutOf cfg decodesLatents heap seqs).lastPositions i (rowDrafts (heap i) + 1))
        fun i _ _ input own => by rw [own.own, own.numDrafts]]
      apply orders.flatMap_sampling
      intro k i found _
      have own : seqs.getD k 0 = i := by simp [List.getD_eq_getElem?_getD, found]
      rw [layoutOf_firstLogits holds laid distinct found, own, BatchLayout.lastPositions,
        len i (List.mem_of_getElem? found)]
    rw [← gathered]
    cases decodes : (batchRows cfg decodesLatents heap seqs).isPrefill with
    | true => simp [BatchLayout.logitsRead, layoutOf, decodes]
    | false =>
        have whole := batchRows_logits decodes
          (fun i member decoding => (lies i member).enough ((lies i member).samples decoding))
          fun i member decoding => (lies i member).samples decoding
        have total : (batchRows cfg decodesLatents heap seqs).lens.sum =
            (runner.layoutOf cfg decodesLatents heap seqs).inputIds.length := by
          show (runner.layoutOf cfg decodesLatents heap seqs).lens.sum = _
          rw [layoutOf_lens holds laid]
          exact List.length_flatMap.symm
        rw [whole, total]
        simp [BatchLayout.logitsRead, layoutOf, decodes]
  · show gather _ placeholderTokenId (draftIndices (batchRows cfg decodesLatents heap seqs)) = _
    rw [orders.draftIndices_eq enough, gather, List.map_flatMap,
      sampling_flatMap feeds (g := fun i =>
        (runner.deviceIds i (heap i)).drop
          ((runner.deviceIds i (heap i)).length - rowDrafts (heap i)))
        fun i _ _ input own => by rw [RowInput.drafts, own.inputIds, own.numDrafts]]
    apply orders.flatMap_sampling
    intro k i found samples
    have own : seqs.getD k 0 = i := by simp [List.getD_eq_getElem?_getD, found]
    have member : i ∈ seqs := List.mem_of_getElem? found
    have fits := enough i member samples
    rw [← ((laid i member).length_deviceIds holds).2] at fits
    rw [layoutOf_firstLogits holds laid distinct found, own, List.map_map]
    apply List.ext_getElem?
    intro o
    by_cases small : o < rowDrafts (heap i)
    · have entry := getElem?_flatMap (runner.layoutOf cfg decodesLatents heap seqs).batch
        (fun i => runner.deviceIds i (heap i)) (layoutOf_row decodesLatents member)
        (o := (runner.deviceIds i (heap i)).length - rowDrafts (heap i) + o) (by omega)
      rw [← layoutOf_lens holds laid] at entry
      have inside : (runner.deviceIds i (heap i)).length - rowDrafts (heap i) + o <
          (runner.deviceIds i (heap i)).length := by omega
      rw [List.getElem?_drop, List.getElem?_map, List.getElem?_range small, Option.map_some,
        List.getElem?_eq_getElem inside]
      rw [List.getElem?_eq_getElem inside] at entry
      have position : (cumsum (runner.layoutOf cfg decodesLatents heap seqs).lens).getD
            ((runner.layoutOf cfg decodesLatents heap seqs).row i) 0 +
          ((runner.deviceIds i (heap i)).length - (rowDrafts (heap i) + 1)) + 1 + o =
          (cumsum (runner.layoutOf cfg decodesLatents heap seqs).lens).getD
            ((runner.layoutOf cfg decodesLatents heap seqs).row i) 0 +
          ((runner.deviceIds i (heap i)).length - rowDrafts (heap i) + o) := by omega
      rw [Function.comp_apply, position]
      exact congrArg (Option.some ∘ (Option.getD · placeholderTokenId)) entry
    · rw [List.getElem?_eq_none (by simp; omega), List.getElem?_eq_none (by simp; omega)]

end ModelRunner

end LeanVllm
