import LeanVllm.Engine.CacheCoherence

/-!
# Coherence along runs

A launch reads the cache, writes what its rows feed, and publishes the blocks
that are complete; reconciling commits tokens the cache already holds.  So the
cache stays coherent along every run, and every launch reads what it expects.
-/

namespace LeanVllm

open Collections

/-! ## The rows of a launch -/

namespace Flight

variable {flight : Flight} {i : SeqId} {k : Nat}

/-- A life with reservations has at least one and at most that many tokens in
flight. -/
theorem length_pendingTokens {cfg : Config} (wf : flight.Wf cfg) (reserved : due flight.rows i k ≠ 0) :
    1 ≤ (flight.pendingTokens i k).length ∧
      (flight.pendingTokens i k).length ≤ due flight.rows i k := by
  obtain ⟨row, among, rfl, rfl⟩ := exists_row_of_due_ne_zero reserved
  obtain ⟨⟨row, sample⟩, member, rfl⟩ := List.mem_map.mp among
  obtain ⟨tokensEq, dueEq⟩ := pendingTokens_of_mem wf.distinct member
  simp only at tokensEq dueEq ⊢
  rw [tokensEq, dueEq]
  exact ⟨(wf.fits _ member).nonempty, (wf.fits _ member).few⟩

end Flight

namespace RowInput

variable {stream drafts : List Token} {width : Nat} {input : RowInput}

theorem Feeds.length_inputIds (feeds : input.Feeds stream width drafts) :
    input.inputIds.length = width + drafts.length := by
  have within := feeds.within
  rw [feeds.inputIds, List.length_append, List.length_take, List.length_drop,
    Nat.min_eq_left (by omega)]

theorem Feeds.length_context (feeds : input.Feeds stream width drafts) :
    input.context.length = input.start := by
  have within := feeds.within
  rw [feeds.context, List.length_take, Nat.min_eq_left (by omega)]

/-- What a row holds in the cache once it ran. -/
theorem Feeds.whole (feeds : input.Feeds stream width drafts) :
    input.context ++ input.inputIds = stream.take (input.start + width) ++ drafts := by
  rw [feeds.context, feeds.inputIds, ← List.append_assoc, List.take_add]

variable {cfg : Config} {seq : Sequence}

theorem mem_writes_iff {slot : BlockId × Nat} {value : List Token} :
    (slot, value) ∈ input.writes cfg seq ↔ ∃ p, input.start ≤ p ∧
      p < input.start + input.inputIds.length ∧ seq.slot cfg p = some slot ∧
      value = (input.context ++ input.inputIds).take (p + 1) := by
  simp only [writes, List.mem_filterMap, List.mem_range, Option.map_eq_some_iff, Prod.mk.injEq]
  constructor
  · rintro ⟨j, below, found, slotEq, rfl, valueEq⟩
    exact ⟨input.start + j, by omega, by omega, slotEq, valueEq.symm⟩
  · rintro ⟨p, from_, below, slotEq, valueEq⟩
    refine ⟨p - input.start, by omega, slot, ?_, rfl, ?_⟩
    · rw [Nat.add_sub_cancel' from_]
      exact slotEq
    · rw [Nat.add_sub_cancel' from_, valueEq]

end RowInput

namespace Scheduler

variable {cfg : Config} {s : Scheduler} {env : StepEnv} {runner : ModelRunner} {flight : Flight}
  {launch : Launch} {cache : Cache} {input : RowInput}

theorem Launches.inputs_inj (launches : s.Launches cfg env runner flight launch)
    {other : RowInput} (member : input ∈ launch.inputs) (among : other ∈ launch.inputs)
    (same : other.seq = input.seq) : other = input := by
  have distinct : (launch.inputs.map RowInput.seq).Nodup := by
    rw [launches.map_seq]
    exact launches.reported.nodup
  exact List.inj_on_of_nodup_map distinct among member same

/-- A row writes within its table and past the published blocks. -/
theorem Launches.writes_within (launches : s.Launches cfg env runner flight launch)
    (wf : flight.Wf cfg) (device : flight = [] ∨ runner = flight.runner cfg)
    (member : input ∈ launch.inputs) {p : Nat} (low : input.start ≤ p)
    (high : p < input.start + input.inputIds.length) :
    ∃ slot, (launch.reported.heap input.seq).slot cfg p = some slot ∧
      (launch.reported.heap input.seq).numPublishedBlocks ≤ p / cfg.blockSize := by
  obtain ⟨among, width, drafts, feeds, total, prefilling, decoding⟩ :=
    launches.feeds wf device member
  have pass := launches.reported
  have isActive : (launch.reported.heap input.seq).Active cfg
      (due flight.rows input.seq (launch.reported.heap input.seq).numPreemptions) :=
    (pass.inv.running (pass.running _ among)).2.2.2
  have ready : (launch.reported.heap input.seq).Ready cfg := pass.ready _ among
  have length := feeds.length_inputIds
  have within : (launch.reported.heap input.seq).numPublishedBlocks * cfg.blockSize ≤ p ∧
      p < (launch.reported.heap input.seq).blockTable.length * cfg.blockSize := by
    have pending := isActive.pending
    cases prefill : (launch.reported.heap input.seq).isPrefill with
    | true =>
        refine isActive.writes_within ready (Or.inl rfl) ⟨?_, ?_⟩
        · rw [Nat.sub_zero, ← (prefilling prefill).1]
          exact low
        · rw [Nat.sub_zero, ← (prefilling prefill).1, Sequence.writeWidth, total]
          omega
    | false =>
        have frontier := (isActive.decoding prefill).1
        have starts := (decoding prefill).2
        simp only [Sequence.stream, List.length_append, Sequence.numPlannedTokens,
          Sequence.numTokens] at starts frontier
        by_cases settled : due flight.rows input.seq
            (launch.reported.heap input.seq).numPreemptions = 0
        · rw [Flight.pendingTokens_of_due_eq_zero settled, List.length_nil] at starts
          refine isActive.writes_within ready (Or.inl rfl) ⟨by omega, ?_⟩
          rw [Sequence.writeWidth, total]
          omega
        · obtain ⟨some, most⟩ := Flight.length_pendingTokens wf settled
          refine isActive.writes_within ready (p := p) (Or.inr ?_)
            (show Sequence.Writes cfg _ ((launch.reported.heap input.seq).numCachedTokens -
              input.start) p from ⟨?_, ?_⟩)
          · omega
          · omega
          · rw [Sequence.writeWidth, total]
            omega
  have index : p / cfg.blockSize < (launch.reported.heap input.seq).blockTable.length :=
    (Nat.div_lt_iff_lt_mul cfg.blockSize_pos).mpr within.2
  refine ⟨⟨_, p % cfg.blockSize⟩, Sequence.slot_eq_some_iff.mpr
    ⟨List.getElem?_eq_getElem index, rfl⟩, ?_⟩
  exact (Nat.le_div_iff_mul_le cfg.blockSize_pos).mpr within.1

/-- Where a row starts is where its computed positions end. -/
theorem Launches.start_eq (launches : s.Launches cfg env runner flight launch)
    (wf : flight.Wf cfg) (device : flight = [] ∨ runner = flight.runner cfg)
    (member : input ∈ launch.inputs) :
    (launch.reported.heap input.seq).computed flight input.seq = input.start := by
  obtain ⟨_, width, drafts, feeds, total, prefilling, decoding⟩ := launches.feeds wf device member
  unfold Sequence.computed
  split
  · rename_i prefill
    exact (prefilling prefill).1.symm
  · rename_i decode
    have starts := (decoding (by simpa using decode)).2
    omega

/-- A batch writes each slot for one row and one position. -/
theorem Launches.write_eq (launches : s.Launches cfg env runner flight launch)
    (wf : flight.Wf cfg) (device : flight = [] ∨ runner = flight.runner cfg)
    (distinct : launch.reported.TablesNodup) (member : input ∈ launch.inputs) {p : Nat}
    (low : input.start ≤ p) (high : p < input.start + input.inputIds.length)
    {slot : BlockId × Nat} (found : (launch.reported.heap input.seq).slot cfg p = some slot) :
    (launch.batch cfg).write cfg cache slot =
      (input.context ++ input.inputIds).take (p + 1) := by
  have pass := launches.reported
  refine writeAll_of_agree (List.mem_flatMap.mpr ⟨input, member,
    RowInput.mem_writes_iff.mpr ⟨p, low, high, found, rfl⟩⟩) ?_
  intro value written
  obtain ⟨other, among, writes⟩ := List.mem_flatMap.mp written
  obtain ⟨q, otherLow, otherHigh, foundAt, rfl⟩ := RowInput.mem_writes_iff.mp writes
  obtain ⟨_, foundAgain, past⟩ := launches.writes_within wf device member low high
  -- the slot's block belongs to one row
  obtain ⟨_, _, alone⟩ := pass.inv.exclusive
    (Or.inl (pass.running _ (launches.feeds wf device member).1))
    (Sequence.slot_eq_some_iff.mp found).1 past
  have same : other.seq = input.seq := by
    refine alone other.seq ?_ (List.mem_of_getElem? (Sequence.slot_eq_some_iff.mp foundAt).1)
    simp only [owners, List.mem_append]
    exact Or.inl (Or.inl (pass.running _ (launches.feeds wf device among).1))
  obtain rfl := launches.inputs_inj member among same
  obtain rfl : q = p := Sequence.slot_inj (distinct _) foundAt found
  rfl

/-- A batch writes slots nobody reads. -/
theorem Launches.coherent_write (launches : s.Launches cfg env runner flight launch)
    (wf : flight.Wf cfg) (device : flight = [] ∨ runner = flight.runner cfg)
    (distinct : launch.reported.TablesNodup)
    (coherent : Coherent cfg flight launch.reported cache) :
    Coherent cfg flight launch.reported ((launch.batch cfg).write cfg cache) := by
  have pass := launches.reported
  refine coherent.overwrite pass.inv distinct fun slot _ => ?_
  by_cases written : ∃ value, (slot, value) ∈ launch.inputs.flatMap fun input =>
      input.writes cfg (launch.reported.heap input.seq)
  · obtain ⟨value, among⟩ := written
    obtain ⟨input, member, writes⟩ := List.mem_flatMap.mp among
    obtain ⟨p, low, high, found, _⟩ := RowInput.mem_writes_iff.mp writes
    obtain ⟨_, _, past⟩ := launches.writes_within wf device member low high
    refine Or.inr ⟨input.seq, p, found, past, Or.inl
      ⟨pass.running _ (launches.feeds wf device member).1, ?_⟩⟩
    rw [launches.start_eq wf device member]
    exact low
  · exact Or.inl (writeAll_of_not_mem (not_exists.mp written))

/-- A row reads its context and, once the batch ran, its inputs. -/
theorem Launches.reads (launches : s.Launches cfg env runner flight launch)
    (wf : flight.Wf cfg) (device : flight = [] ∨ runner = flight.runner cfg)
    (distinct : launch.reported.TablesNodup)
    (coherent : Coherent cfg flight launch.reported cache) (member : input ∈ launch.inputs) :
    (launch.reported.heap input.seq).Reads cfg cache input.context input.start ∧
      (launch.reported.heap input.seq).Reads cfg ((launch.batch cfg).write cfg cache)
        (input.context ++ input.inputIds) (input.start + input.inputIds.length) := by
  obtain ⟨among, width, drafts, feeds, _⟩ := launches.feeds wf device member
  have running := launches.reported.running _ among
  have startEq := launches.start_eq wf device member
  have before := coherent.running _ running
  have after := (launches.coherent_write wf device distinct coherent).running _ running
  rw [startEq] at before after
  have context : input.context.take input.start = ((launch.reported.heap input.seq).stream flight
      input.seq).take input.start := by
    rw [feeds.context, List.take_take, Nat.min_self]
  refine ⟨before.agree context.symm, ?_⟩
  intro p below
  by_cases old : p < input.start
  · rw [after p old]
    have cut := congrArg (List.take (p + 1)) context
    rw [List.take_take, List.take_take, Nat.min_eq_left (by omega)] at cut
    rw [List.take_append_of_le_length (by rw [feeds.length_context]; omega), cut]
  · obtain ⟨slot, found, _⟩ := launches.writes_within wf device member (Nat.not_lt.mp old) below
    rw [Sequence.read_eq found,
      launches.write_eq wf device distinct member (Nat.not_lt.mp old) below found]

/-- Once a batch ran, a row's committed tokens are in the cache as far as the
row reached. -/
theorem Launches.reads_committed (launches : s.Launches cfg env runner flight launch)
    (wf : flight.Wf cfg) (device : flight = [] ∨ runner = flight.runner cfg)
    (distinct : launch.reported.TablesNodup)
    (coherent : Coherent cfg flight launch.reported cache) (member : input ∈ launch.inputs) :
    (launch.reported.heap input.seq).Reads cfg ((launch.batch cfg).write cfg cache)
      (launch.reported.heap input.seq).tokenIds
      (min (input.start + input.inputIds.length) (launch.reported.heap input.seq).numTokens) := by
  obtain ⟨_, width, drafts, feeds, total, prefilling, decoding⟩ := launches.feeds wf device member
  have reads := (launches.reads wf device distinct coherent member).2
  refine (reads.mono (Nat.min_le_left _ _)).agree ?_
  have length := feeds.length_inputIds
  rw [feeds.whole]
  generalize bound : min (input.start + input.inputIds.length)
    (launch.reported.heap input.seq).numTokens = m
  have few : m ≤ input.start + width := by
    cases prefill : (launch.reported.heap input.seq).isPrefill with
    | true =>
        rw [(prefilling prefill).2, List.length_nil] at length
        omega
    | false =>
        have ends := decoding prefill
        simp only [Sequence.stream, List.length_append, Sequence.numTokens] at ends bound
        omega
  have within := feeds.within
  rw [List.take_append_of_le_length (by rw [List.length_take]; omega), List.take_take,
    Nat.min_eq_left few, Sequence.stream,
    List.take_append_of_le_length (by simp only [Sequence.numTokens] at bound; omega)]

theorem Launches.attends (launches : s.Launches cfg env runner flight launch)
    (wf : flight.Wf cfg) (device : flight = [] ∨ runner = flight.runner cfg)
    (distinct : launch.reported.TablesNodup)
    (coherent : Coherent cfg flight launch.reported cache) (member : input ∈ launch.inputs) :
    input.Attends cfg (launch.reported.heap input.seq) cache
      ((launch.batch cfg).write cfg cache) := by
  obtain ⟨_, _, _, feeds, _⟩ := launches.feeds wf device member
  obtain ⟨before, after⟩ := launches.reads wf device distinct coherent member
  exact ⟨feeds.length_context, before, after,
    launches.reads_committed wf device distinct coherent member⟩

/-- Publishing computed blocks keeps published blocks true to their hashes. -/
theorem Advances.published {active seqs : List SeqId} {rows launched : List LaunchedRow}
    {last : Scheduler} (advances : Advances cfg active rows s seqs last launched)
    (distinct : seqs.Nodup)
    (reads : ∀ i ∈ seqs, (s.heap i).Reads cfg cache (s.heap i).tokenIds
      (min ((s.heap i).numCachedTokens + (s.heap i).numScheduledTokens) (s.heap i).numTokens))
    (published : ∀ blockId, (s.blockManager.blocks blockId).hash ≠ -1 →
      cache.Holds cfg blockId (s.blockManager.blocks blockId).hash) (blockId : BlockId)
    (real : (last.blockManager.blocks blockId).hash ≠ -1) :
    cache.Holds cfg blockId (last.blockManager.blocks blockId).hash := by
  induction advances with
  | nil => exact published blockId real
  | @cons before s last i seqs rows n bm inv member ready publishes next others ih =>
      obtain ⟨notLater, later⟩ := List.nodup_cons.mp distinct
      have published_le : ((s.heap i).numPublishedBlocks + n) * cfg.blockSize ≤
          min ((s.heap i).numCachedTokens + (s.heap i).numScheduledTokens)
            (s.heap i).numTokens := by
        have isActive := (next.running member).2.2.2
        rw [renew_heap_self] at isActive
        simpa [Sequence.advanced, apply_ite, Sequence.numTokens] using isActive.published_le
      refine ih later ?_ (publishes.holds ((reads i List.mem_cons_self).mono published_le)
        published) real
      intro j among
      have other : j ≠ i := by
        rintro rfl
        exact notLater among
      rw [show (s.renew i _ bm).heap j = s.heap j from setSeq_heap_of_ne s other _]
      exact reads j (List.mem_cons_of_mem _ among)

/-- A launch appends to a row's stream what the model answers to the row. -/
theorem Launches.stream_of_input (launches : s.Launches cfg env runner flight launch)
    (member : input ∈ launch.inputs) :
    (launch.last.heap input.seq).stream (flight ++ launch.flight env) input.seq =
      (launch.reported.heap input.seq).stream flight input.seq ++
        if input.samples then (env.forward input).tokens else [] := by
  obtain ⟨keeps, lives, _⟩ := launches.advances.keeps input.seq
  rw [Sequence.stream, Sequence.stream, keeps.same, lives, Flight.pendingTokens_append,
    List.append_assoc]
  congr 2
  split
  · rename_i samples
    have among : (⟨input.seq, (launch.reported.heap input.seq).numPreemptions, input.numDrafts⟩,
        env.forward input) ∈ launch.flight env :=
      List.mem_map_of_mem (List.mem_filter.mpr ⟨member, samples⟩)
    exact (Flight.pendingTokens_of_mem launches.wf.distinct among).1
  · rename_i quiet
    refine Flight.pendingTokens_eq_nil fun row among own => ?_
    obtain ⟨launched, sent, rfl⟩ := List.mem_map.mp among
    obtain ⟨other, kept, rfl⟩ := List.mem_map.mp sent
    obtain ⟨inside, samples⟩ := List.mem_filter.mp kept
    obtain rfl := launches.inputs_inj member inside own
    exact absurd samples quiet

/-- A row reaches the positions `advance` counts, as far as they are
committed. -/
theorem Launches.reached (launches : s.Launches cfg env runner flight launch)
    (wf : flight.Wf cfg) (device : flight = [] ∨ runner = flight.runner cfg)
    (member : input ∈ launch.inputs) :
    min ((launch.reported.heap input.seq).numCachedTokens +
        (launch.reported.heap input.seq).numScheduledTokens)
      (launch.reported.heap input.seq).numTokens ≤
    min (input.start + input.inputIds.length) (launch.reported.heap input.seq).numTokens := by
  obtain ⟨_, width, drafts, feeds, total, prefilling, decoding⟩ := launches.feeds wf device member
  have length := feeds.length_inputIds
  cases prefill : (launch.reported.heap input.seq).isPrefill with
  | true =>
      have starts := (prefilling prefill).1
      omega
  | false =>
      have ends := decoding prefill
      simp only [Sequence.stream, List.length_append] at ends
      simp only [Sequence.numTokens]
      omega

/-- Once a batch ran, its rows read their streams with what the model answered,
except for the last token. -/
theorem Launches.reads_advanced (launches : s.Launches cfg env runner flight launch)
    (wf : flight.Wf cfg) (device : flight = [] ∨ runner = flight.runner cfg)
    (verifies : env.Verifies) (member : input ∈ launch.inputs) {n : Nat}
    (reads : (launch.reported.heap input.seq).Reads cfg cache
      (input.context ++ input.inputIds) (input.start + input.inputIds.length))
    (heapEq : launch.last.heap input.seq = (launch.reported.heap input.seq).advanced cfg n) :
    (launch.last.heap input.seq).Reads cfg cache
      ((launch.last.heap input.seq).stream (flight ++ launch.flight env) input.seq)
      ((launch.last.heap input.seq).computed (flight ++ launch.flight env) input.seq) := by
  obtain ⟨among, width, drafts, feeds, total, prefilling, decoding⟩ :=
    launches.feeds wf device member
  have pass := launches.reported
  have isActive : (launch.reported.heap input.seq).Active cfg
      (due flight.rows input.seq (launch.reported.heap input.seq).numPreemptions) :=
    (pass.inv.running (pass.running _ among)).2.2.2
  have ready : (launch.reported.heap input.seq).Ready cfg := pass.ready _ among
  have length := feeds.length_inputIds
  have streamEq := launches.stream_of_input member
  have table : (launch.last.heap input.seq).blockTable =
      (launch.reported.heap input.seq).blockTable := by
    rw [heapEq]
    simp [Sequence.advanced, apply_ite]
  have reads' : (launch.last.heap input.seq).Reads cfg cache
      (input.context ++ input.inputIds) (input.start + input.inputIds.length) :=
    reads.extend (by rw [table])
  obtain ⟨i, _, prepared⟩ := exists_of_forall₂ launches.prepared member
  obtain ⟨rfl, samplesEq⟩ := ModelRunner.prepareRow_own prepared
  rw [feeds.whole] at reads'
  unfold Sequence.computed
  by_cases sampling : (launch.reported.heap input.seq).Samples
  · have samples : input.samples = true := by rw [samplesEq]; exact decide_eq_true sampling
    have decodes : (launch.last.heap input.seq).isPrefill = false := by
      rw [heapEq, Sequence.advanced, if_pos sampling]
    obtain ⟨kept, token, tokensEq⟩ := verifies input samples
    rw [feeds.drafts_eq] at tokensEq
    rw [if_pos samples, tokensEq, ← List.append_assoc] at streamEq
    rw [feeds.samples samples, List.take_length] at reads'
    have fewer : (drafts.take kept).length ≤ drafts.length := by
      rw [List.length_take]
      exact Nat.min_le_right _ _
    have ends := feeds.samples samples
    rw [if_neg (by simp [decodes]), streamEq]
    simp only [List.length_append, List.length_singleton, Nat.add_sub_cancel]
    refine (reads'.mono (by omega)).agree ?_
    rw [List.take_length_add_append, ← List.prefix_iff_eq_take.mp (List.take_prefix kept drafts),
      ← List.length_append, List.take_left]
  · have quiet : input.samples = false := by rw [samplesEq]; exact decide_eq_false sampling
    have prefill : (launch.reported.heap input.seq).isPrefill = true := by
      by_contra decode
      rw [Bool.not_eq_true] at decode
      have frontier := (isActive.decoding decode).1
      have width := (ready.decoding decode).1
      exact sampling (by rw [Sequence.Samples]; omega)
    have still : (launch.last.heap input.seq).isPrefill = true := by
      rw [heapEq, Sequence.advanced, if_neg sampling]
      exact prefill
    have counted : (launch.last.heap input.seq).numCachedTokens = input.start + width := by
      rw [heapEq, Sequence.advanced, if_neg sampling]
      simp only [total, (prefilling prefill).1, (prefilling prefill).2, List.length_nil,
        Nat.add_zero]
    have within := feeds.within
    rw [if_pos still, counted, streamEq, quiet]
    rw [(prefilling prefill).2, List.append_nil] at reads'
    simp only [Bool.false_eq_true, if_false, List.append_nil]
    refine (reads'.mono (by omega)).agree ?_
    rw [List.take_take, Nat.min_self]

/-- Scheduling and the connector's report leave the cache coherent, with the
loads' writes in it. -/
theorem Launches.coherent_reported (launches : s.Launches cfg env runner flight launch)
    (inv : s.Inv cfg s.running flight.rows) (injective : cfg.HashInjective)
    (distinct : s.TablesNodup) {loaded : Cache}
    (loads : Loads cfg (launch.batch cfg).planned env cache loaded)
    (coherent : Coherent cfg flight s cache) : Coherent cfg flight launch.reported loaded := by
  have planned : Coherent cfg flight launch.planned cache :=
    Moves.coherent injective launches.moves (inv.start []) coherent
  have tables : launch.planned.TablesNodup :=
    (tablesNodup_stable injective).moves (inv.start []) launches.moves distinct
  have loads' : Loads cfg launch.planned env cache loaded := by
    rw [Launch.batch, withConnectorMeta_fst, handedOver] at loads
    split at loads
    · exact ⟨loads.elsewhere, loads.finished⟩
    · exact loads
  have written := planned.loaded launches.planned.inv tables loads'
  rcases launches.reports with ⟨_, same⟩ | ⟨_, middle, releases, receives⟩
  · rw [same]
    exact written
  · have released := releases.coherent rfl
      (show Coherent cfg flight { launch.planned with connector := {} } loaded from
        ⟨written.published, written.running, written.loading⟩)
    refine receives.coherent ?_ released
    intro requestId among reported i found
    rw [releases.recving_eq] at found
    have heapEq : middle.heap i = launch.planned.heap i :=
      releases.heap_of_loading (launches.planned.inv.withConnector {}) found
    rw [heapEq]
    exact loads'.finished requestId among reported i found

/-- A launched batch leaves the cache coherent, with its flight out. -/
theorem Launches.coherent_last (launches : s.Launches cfg env runner flight launch)
    (wf : flight.Wf cfg) (device : flight = [] ∨ runner = flight.runner cfg)
    (verifies : env.Verifies) (distinct : launch.reported.TablesNodup)
    (coherent : Coherent cfg flight launch.reported cache) :
    Coherent cfg (flight ++ launch.flight env) launch.last
      ((launch.batch cfg).write cfg cache) := by
  have pass := launches.reported
  have written := launches.coherent_write wf device distinct coherent
  obtain ⟨same, outside, inside, _⟩ := launches.advances.frame pass.nodup
  have runningEq : launch.last.running = launch.reported.running := by rw [same]
  have recvingEq : launch.last.recving = launch.reported.recving := by rw [same]
  have rowOf : ∀ i ∈ launch.output.scheduled, ∃ input ∈ launch.inputs, input.seq = i := by
    intro i among
    rw [← launches.map_seq] at among
    exact List.mem_map.mp among
  refine ⟨?_, ?_, ?_⟩
  · refine launches.advances.published pass.nodup ?_ written.published
    intro i among
    obtain ⟨input, member, rfl⟩ := rowOf i among
    refine (launches.reads_committed wf device distinct coherent member).mono ?_
    exact launches.reached wf device member
  · intro i running
    rw [runningEq] at running
    by_cases among : i ∈ launch.output.scheduled
    · obtain ⟨input, member, rfl⟩ := rowOf i among
      obtain ⟨n, heapEq⟩ := inside _ among
      have streamEq := launches.stream_of_input member
      have reads := (launches.reads wf device distinct coherent member).2
      exact launches.reads_advanced wf device verifies member reads heapEq
    · obtain ⟨more, streamEq, none | ⟨input, member, own, _⟩⟩ := launches.stream i
      · rw [none, List.append_nil] at streamEq
        have reads := written.running i running
        unfold Sequence.computed at reads ⊢
        rw [streamEq, outside i among]
        exact reads
      · exact absurd (own ▸ (launches.feeds wf device member).1) among
  · intro i loading
    rw [recvingEq] at loading
    have notScheduled : i ∉ launch.output.scheduled := fun among =>
      pass.inv.not_loading (pass.running i among) loading
    rw [outside i notScheduled]
    exact written.loading i loading

/-! ## Reconciling, adding and aborting -/

end Scheduler

/-- A decoding sequence reads the same as long as its table and stream stay. -/
theorem Coherent.reads_decoding {cfg : Config} {cache : Cache} {flight flight' : Flight}
    {i : SeqId} {before after : Sequence} (decoding : before.isPrefill = false)
    (decodes : after.isPrefill = false) (table : after.blockTable = before.blockTable)
    (stream : after.stream flight' i = before.stream flight i)
    (reads : before.Reads cfg cache (before.stream flight i) (before.computed flight i)) :
    after.Reads cfg cache (after.stream flight' i) (after.computed flight' i) := by
  have longer : after.Reads cfg cache (before.stream flight i) (before.computed flight i) :=
    reads.extend (by rw [table])
  have counted : after.computed flight' i = before.computed flight i := by
    simp [Sequence.computed, decoding, decodes, stream]
  rw [stream, counted]
  exact longer

namespace Scheduler

variable {cfg : Config} {s : Scheduler} {flight : Flight} {cache : Cache}

theorem Ends.coherent {seq : Sequence} {after : Scheduler} {i : SeqId}
    (ends : Ends cfg s i seq after) (nodup : s.running.Nodup) (apart : i ∉ s.recving.values)
    (coherent : Coherent cfg flight s cache) : Coherent cfg flight after cache := by
  have frame := ends.frame
  refine coherent.update i frame.heap ?_ ?_ ?_ ?_ ?_
  · intro j _ running
    rw [frame.running] at running
    exact List.mem_of_mem_erase running
  · intro j _ loading
    rwa [frame.recving] at loading
  · cases ends with
    | release bm result freed => exact coherent.frees freed
    | hold kv connector result connected held => exact coherent.published
  · intro running
    rw [frame.running] at running
    exact absurd running (List.Nodup.not_mem_erase nodup)
  · intro loading
    rw [frame.recving] at loading
    exact absurd loading apart

/-- Committing tokens that were in flight changes no stream. -/
theorem Reconciles.coherent {row : LaunchedRow} {sample : RowSample} {rows : List LaunchedRow}
    {drafts : Option (List (List Token))} {after : Scheduler} {processed : Bool}
    (turn : Reconciles cfg s row sample.tokens drafts after processed)
    (inv : s.Inv cfg s.running (row :: rows))
    (coherent : Coherent cfg ((row, sample) :: flight) s cache) :
    Coherent cfg flight after cache := by
  have others : ∀ j, (s.heap j).stream ((row, sample) :: flight) j = (s.heap j).stream flight j →
      (s.heap j).Reads cfg cache ((s.heap j).stream ((row, sample) :: flight) j)
        ((s.heap j).computed ((row, sample) :: flight) j) →
      (s.heap j).Reads cfg cache ((s.heap j).stream flight j) ((s.heap j).computed flight j) := by
    intro j same reads
    unfold Sequence.computed at reads ⊢
    rwa [same] at reads
  -- the cache as it stands once the row's answer is no longer in flight
  have elsewhere : ∀ j ∈ s.running, j ≠ row.seq →
      (s.heap j).Reads cfg cache ((s.heap j).stream flight j) ((s.heap j).computed flight j) := by
    intro j running other
    refine others j ?_ (coherent.running j running)
    exact stream_cons_of_ne (fun both => other both.1.symm) sample flight
  cases turn with
  | void void =>
      refine ⟨coherent.published, fun j running => ?_, coherent.loading⟩
      by_cases own : j = row.seq
      · subst own
        refine others _ ?_ (coherent.running _ running)
        have status := (inv.running running).2.2.2.unfinished_status
        exact stream_cons_of_ne (fun both => void.resolve_left status both.2.symm) sample flight
      · exact elsewhere j running own
  | @commit hashes spec lives member below clean hashed saved =>
      refine ⟨coherent.published, fun j running => ?_, fun j loading => ?_⟩
      · by_cases own : j = row.seq
        · subst own
          have reads := coherent.running _ member
          have streamEq : ({ (s.heap row.seq).committed
              (row.numDraftTokens - (sample.tokens.length - 1)) sample.tokens hashes with
              specTokenIds := spec } : Sequence).stream flight row.seq =
                (s.heap row.seq).stream ((row, sample) :: flight) row.seq := by
            rw [stream_cons_self lives]
            exact List.append_assoc _ _ _
          have decoding : (s.heap row.seq).isPrefill = false :=
            (inv.valid (inv.running member).2.2.2.unfinished_status lives).2.1
          rw [renew_heap_self]
          exact Coherent.reads_decoding decoding decoding rfl streamEq reads
        · rw [show (s.renew row.seq _ s.blockManager).heap j = s.heap j from
            setSeq_heap_of_ne s own _]
          exact elsewhere j running own
      · have own : j ≠ row.seq := by
          rintro rfl
          exact inv.not_loading member loading
        rw [show (s.renew row.seq _ s.blockManager).heap j = s.heap j from
          setSeq_heap_of_ne s own _]
        exact coherent.loading j loading
  | stop lives member split below clean cause ends =>
      have frame := ends.frame
      have nodup := inv.active_nodup
      refine ⟨?_, fun j running => ?_, fun j loading => ?_⟩
      · cases ends with
        | release bm result freed => exact coherent.frees freed
        | hold kv connector result connected held => exact coherent.published
      · rw [frame.running] at running
        have own : j ≠ row.seq := by
          rintro rfl
          exact List.Nodup.not_mem_erase nodup running
        rw [frame.heap j own]
        exact elsewhere j (List.mem_of_mem_erase running) own
      · rw [frame.recving] at loading
        have own : j ≠ row.seq := by
          rintro rfl
          exact inv.not_loading member loading
        rw [frame.heap j own]
        exact coherent.loading j loading

theorem ReconcilesAll.coherent {later step : List LaunchedRow} {tokenIds : List (List Token)}
    {drafts : Option (List (List Token))} {last : Scheduler} {stepped : List SeqId}
    (reconciles : ReconcilesAll cfg later s step tokenIds drafts last stepped)
    {flight later' : Flight} (stepEq : step = flight.rows) (tokensEq : tokenIds = flight.tokens)
    (coherent : Coherent cfg (flight ++ later') s cache) : Coherent cfg later' last cache := by
  induction reconciles generalizing flight with
  | nil =>
      obtain rfl := List.map_eq_nil_iff.mp stepEq.symm
      exact coherent
  | @cons s next last row step tokens tokenIds drafts processed stepped inv answer turn nextInv
      others ih =>
      cases flight with
      | nil => exact absurd stepEq (by simp [Flight.rows])
      | cons launched flight =>
          obtain ⟨rfl, restEq⟩ := List.cons.inj stepEq
          obtain ⟨rfl, restTokens⟩ := List.cons.inj tokensEq
          exact ih restEq restTokens (turn.coherent inv coherent)

/-- A sequence nobody stored yet changes nothing that is read. -/
theorem Roster.unstored {rows : List LaunchedRow} (inv : s.Roster cfg s.running rows) {j : SeqId}
    (member : j ∈ s.running ∨ j ∈ s.recving.values) : j ≠ s.counter := by
  have below : j < s.counter := by
    rcases member with running | loading
    · exact (inv.plays j (Or.inr (Or.inl running))).1
    · obtain ⟨requestId, found⟩ := Dict.mem_values_iff.mp loading
      exact (inv.known_of_lookup (Or.inr (Or.inl found))).2.1
  exact below.ne

theorem Inv.coherent_setSeq {rows : List LaunchedRow} (inv : s.Inv cfg s.running rows)
    {seq : Sequence} {after : Scheduler} (heap : after.heap = (s.setSeq s.counter seq).heap)
    (running : after.running = s.running) (recving : after.recving = s.recving)
    (blocks : after.blockManager = s.blockManager) (coherent : Coherent cfg flight s cache) :
    Coherent cfg flight after cache := by
  refine ⟨?_, fun j member => ?_, fun j member => ?_⟩
  · rw [blocks]
    exact coherent.published
  · rw [running] at member
    rw [heap, setSeq_heap_of_ne s (inv.unstored (Or.inl member))]
    exact coherent.running j member
  · rw [recving] at member
    rw [heap, setSeq_heap_of_ne s (inv.unstored (Or.inr member))]
    exact coherent.loading j member

end Scheduler

namespace LLMEngine

variable {cfg : Config} {engine next : LLMEngine} {flight : Flight} {cache : Cache}

theorem Adds.coherent {prompt : List Token} {params : SamplingParams} {arrivalTime : Nat}
    {result : Except Fault RequestId}
    (adds : Adds cfg engine prompt params arrivalTime next result) (inv : engine.Inv cfg flight)
    (coherent : Coherent cfg flight engine.scheduler cache) :
    Coherent cfg flight next.scheduler cache := by
  cases adds with
  | refuse fault => exact coherent
  | duplicate requestId hashes valid known =>
      exact inv.scheduler.coherent_setSeq rfl rfl rfl rfl coherent
  | accept requestId hashes valid isQueued fresh =>
      exact inv.scheduler.coherent_setSeq rfl rfl rfl rfl coherent

theorem Aborts.coherent {requestId : RequestId} {reason : FinishReason} {aborted : Bool}
    (aborts : Aborts cfg engine flight requestId reason next aborted)
    (inv : engine.Inv cfg flight) (coherent : Coherent cfg flight engine.scheduler cache) :
    Coherent cfg flight next.scheduler cache := by
  cases aborts with
  | missing absent => exact coherent
  | @abort i after found ends =>
      rcases ends with ⟨plays, rfl⟩ | ⟨plays, ends⟩
      · refine coherent.update i (fun j other => Scheduler.setSeq_heap_of_ne _ other _)
          (fun j _ => id) (fun j _ => id) coherent.published
          (fun running => absurd running plays.2.1) (fun loading => ?_)
        simp only [Scheduler.cancel, Scheduler.setSeq_heap_self]
        exact coherent.loading i loading
      · refine ends.coherent inv.scheduler.active_nodup ?_ coherent
        rcases plays with plays | plays
        · exact (inv.scheduler.queued_apart plays.1).2
        · exact inv.scheduler.not_loading plays.2.1

/-- The rows of a step attend to their own tokens, and the step leaves the cache
coherent. -/
theorem Steps.attends {env : StepEnv} {s last : Scheduler} {runner : ModelRunner}
    {launch : Scheduler.Launch} {stepped : List SeqId} {loaded : Cache}
    (steps : Steps cfg env s runner flight launch last stepped)
    (inv : s.Inv cfg s.running flight.rows) (wf : flight.Wf cfg)
    (device : flight = [] ∨ runner = flight.runner cfg) (injective : cfg.HashInjective)
    (distinct : s.TablesNodup) (loads : Loads cfg (launch.batch cfg).planned env cache loaded)
    (coherent : Coherent cfg flight s cache) :
    launch.inputs.map RowInput.seq = (launch.batch cfg).output.scheduled ∧
    (∀ input ∈ launch.inputs, input.Attends cfg (launch.reported.heap input.seq) loaded
      ((launch.batch cfg).write cfg loaded)) ∧
    (env.Verifies →
      Coherent cfg (launch.flight env) last ((launch.batch cfg).write cfg loaded)) := by
  have kept := (Scheduler.tablesNodup_stable injective).kept
  cases steps with
  | sync mode reconciles settled launches =>
      have middle := reconciles.coherent rfl rfl
        (show Coherent cfg (flight ++ []) s cache by rwa [List.append_nil])
      have after := kept.rests.reconciles reconciles wf.rows_short distinct
      have tables := kept.reported launches settled after
      have reported := launches.coherent_reported settled injective after loads middle
      have empty := Flight.wf_nil cfg
      exact ⟨launches.map_seq.trans launches.batch_scheduled.symm,
        fun input => launches.attends empty (Or.inl rfl) tables reported,
        fun verifies => launches.coherent_last empty (Or.inl rfl) verifies tables reported⟩
  | async mode launches reconciles =>
      have tables := kept.reported launches inv distinct
      have reported := launches.coherent_reported inv injective distinct loads coherent
      exact ⟨launches.map_seq.trans launches.batch_scheduled.symm,
        fun input => launches.attends wf device tables reported,
        fun verifies => reconciles.coherent rfl rfl
          (launches.coherent_last wf device verifies tables reported)⟩

/-- What holds along the runs of an engine and its cache. -/
def Cached (cfg : Config) (state : LLMEngine × Cache) : Prop :=
  ∃ flight, state.1.Inv cfg flight ∧ state.1.scheduler.TablesNodup ∧
    Coherent cfg flight state.1.scheduler state.2

theorem create_cached (cfg : Config) (contents : Cache) : Cached cfg (create cfg, contents) := by
  refine ⟨[], create_inv cfg, fun _ => List.nodup_nil, ?_, ?_, ?_⟩
  · intro blockId real
    exact absurd rfl real
  · intro i running
    exact absurd running (by simp [create, Scheduler.create])
  · intro i loading
    exact absurd loading (by simp [create, Scheduler.create])

/-- An action of a run leaves the cache coherent. -/
theorem Cached.acts {state state' : LLMEngine × Cache} {action : Action}
    (cached : Cached cfg state) (injective : cfg.HashInjective)
    (step : CacheNext cfg state action state') : Cached cfg state' := by
  obtain ⟨flight, inv, distinct, coherent⟩ := cached
  have kept := (Scheduler.tablesNodup_stable injective).kept
  cases step with
  | add added =>
      obtain ⟨flight', acts, nextInv⟩ := added.acts inv
      have tables := kept.rests.acts acts inv distinct
      cases acts with
      | add adds => exact ⟨flight, nextInv, tables, adds.coherent inv coherent⟩
  | abort ended =>
      obtain ⟨flight', acts, nextInv⟩ := ended.acts inv
      have tables := kept.rests.acts acts inv distinct
      cases acts with
      | abort aborts => exact ⟨flight, nextInv, tables, aborts.coherent inv coherent⟩
  | @step engine next cache loaded env outputs batch stepped verifies batched loads =>
      cases stepped with
      | step valid stepped =>
          obtain ⟨launch, last, processed, stepEq, steps, nextInv, batchEq⟩ := step_spec inv valid
          obtain ⟨rfl, rfl⟩ := Prod.mk.inj (Except.ok.inj (stepEq.symm.trans stepped))
          obtain rfl := Except.ok.inj (batchEq.symm.trans batched)
          have device : flight = [] ∨ engine.runner = flight.runner cfg :=
            inv.carried.imp And.right And.right
          obtain ⟨_, _, settled⟩ := steps.attends inv.scheduler inv.wf device injective distinct
            loads coherent
          exact ⟨launch.flight env, nextInv, kept.rests.acts (.step valid.answers steps) inv distinct,
            settled verifies⟩

end LLMEngine

/-- Along every run, whatever it loads, accepts and rejects, the rows of every
launch attend to their own tokens and nothing else. -/
theorem cache_coherent (cfg : Config) (injective : cfg.HashInjective) (contents cache : Cache)
    (actions : List LLMEngine.Action) (engine : LLMEngine)
    (run : CacheRun cfg contents actions (engine, cache)) (env : StepEnv)
    (valid : env.Valid cfg engine) (batch : Scheduler.Batch)
    (batched : engine.batch cfg env = .ok batch) (loaded : Cache)
    (loads : Loads cfg batch.planned env cache loaded) :
    batch.inputs.map RowInput.seq = batch.output.scheduled ∧
    ∀ input ∈ batch.inputs, input.Attends cfg (batch.reported.heap input.seq) loaded
      (batch.write cfg loaded) := by
  obtain ⟨flight, inv, distinct, coherent⟩ : LLMEngine.Cached cfg (engine, cache) :=
    Transition.Run.invariant (fun _ state => LLMEngine.Cached cfg state)
      (LLMEngine.create_cached cfg contents)
      (fun _ _ _ _ cached step => cached.acts injective step) run
  obtain ⟨launch, last, stepped, _, steps, _, batchEq⟩ := LLMEngine.step_spec inv valid
  obtain rfl := Except.ok.inj (batchEq.symm.trans batched)
  obtain ⟨rows, attends, _⟩ := steps.attends inv.scheduler inv.wf
    (inv.carried.imp And.right And.right) injective distinct loads coherent
  exact ⟨rows, attends⟩

/-- The first batch of the sample engine, over a cache that holds nothing. -/
theorem cache_coherent_sample :
    ∃ batch, LLMEngine.sampleQueued.batch .sample .sample = .ok batch ∧
      batch.output.scheduled = [0] ∧
      ∀ input ∈ batch.inputs, input.Attends .sample (batch.reported.heap input.seq) (fun _ => [])
        (batch.write .sample fun _ => []) := by
  have valid := LLMEngine.sample_valid LLMEngine.sampleQueued
  have scheduled : (LLMEngine.sampleQueued.batch .sample .sample).map
      (fun batch => batch.output.scheduled) = .ok [0] := by decide +kernel
  obtain ⟨flight, inv⟩ := LLMEngine.Reachable.inv ⟨_, LLMEngine.sampleQueued_run⟩
  obtain ⟨launch, _, _, _, _, _, batched⟩ := LLMEngine.step_spec inv valid
  rw [batched] at scheduled
  refine ⟨_, batched, Except.ok.inj scheduled, ?_⟩
  exact (cache_coherent .sample Config.sample_hashInjective (fun _ => []) (fun _ => []) _ _
    (.snoc .nil (.add LLMEngine.sampleQueued_next)) .sample valid _ batched _
    ⟨fun _ _ => rfl, fun _ member => absurd member List.not_mem_nil⟩).2

end LeanVllm
