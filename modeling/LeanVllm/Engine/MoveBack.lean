import LeanVllm.Attention.Context
import LeanVllm.Engine.BatchSpec

/-!
# Moving rows back on the device

A pending row is placed as if the step in flight kept every draft.  How many it
rejects is known on the device first.  `prepare_batch` either waits for the
counts and builds the batch at the starts they give, or builds it optimistically
and lets `_move_back` correct it on the device, where the host's key lengths stay
as they were.  Both ways lead to the same positions, slots and key lengths, and the
host's stale lengths are upper bounds that no row of the prefill group has.
-/

namespace LeanVllm

open Collections

namespace BatchContext

/-- What attention backends read of a batch's context. -/
def attention (context : BatchContext) : AttentionContext where
  isPrefill := context.isPrefill
  cuSeqlensQ := context.cuSeqlensQ
  cuSeqlensK := context.cuSeqlensK
  maxSeqlenQ := context.maxSeqlenQ
  maxSeqlenK := context.maxSeqlenK
  cuSeqlensQHost := context.cuSeqlensQHost
  cuSeqlensKHost := context.cuSeqlensKHost
  contextLens := context.contextLens
  blockTables := context.blockTables

end BatchContext

/-! ## Any rejection counts -/

namespace ModelRunner

variable {cfg : Config} {runner : ModelRunner} {counts : List Nat} {i : SeqId} {seq : Sequence}

/-- The runner whose last step rejected `counts` drafts, by sampling row. -/
def rejecting (runner : ModelRunner) (counts : List Nat) : ModelRunner :=
  { runner with
    inFlightDrafts := runner.inFlightDrafts.map fun inFlight =>
      { inFlight with numRejected := counts } }

theorem Holds.rejecting (holds : runner.Holds cfg) (counts : List Nat) :
    (runner.rejecting counts).Holds cfg := by
  refine ⟨holds.tokens, holds.nonempty, ?_⟩
  intro inFlight device
  obtain ⟨own, found, rfl⟩ := Option.map_eq_some_iff.mp device
  exact holds.drafts own found

theorem moveBack_rejecting (runner : ModelRunner) (counts : List Nat) (i : SeqId)
    (seq : Sequence) :
    (runner.rejecting counts).moveBack i seq =
      if seq.numPendingTokens = 0 ∨ runner.inFlightDrafts = none then 0
      else counts.getD (runner.source i) 0 := by
  unfold moveBack rejecting
  by_cases settled : seq.numPendingTokens = 0
  · simp [settled]
  · cases device : runner.inFlightDrafts <;> simp [settled, source]

theorem Lies.rejecting (lies : runner.Lies cfg i seq)
    (bounded : seq.numPendingTokens ≠ 0 →
      counts.getD (runner.source i) 0 ≤ seq.numCachedTokens) :
    (runner.rejecting counts).Lies cfg i seq := by
  refine ⟨⟨lies.prefilling, lies.decoding, lies.short, lies.known, ?_⟩, lies.samples, lies.enough⟩
  rw [moveBack_rejecting]
  split
  · exact Nat.zero_le _
  · rename_i pending
    exact bounded (not_or.mp pending).1

end ModelRunner

namespace RankBatch

open ModelRunner

variable {cfg : Config} {decodesLatents : Bool} {runner : ModelRunner}
  {settings : SeqId → SamplerSettings} {heap : SeqId → Sequence} {ids : List SeqId}
  {rows : BatchRows}

theorem Scheduled.rejecting (scheduled : Scheduled cfg runner heap ids) {counts : List Nat}
    (bounded : ∀ i ∈ ids, (heap i).numPendingTokens ≠ 0 →
      counts.getD (runner.source i) 0 ≤ (heap i).numCachedTokens) :
    Scheduled cfg (runner.rejecting counts) heap ids :=
  ⟨⟨scheduled.distinct, fun i member => (scheduled.lies i member).rejecting (bounded i member),
    scheduled.covered⟩, scheduled.nonempty, scheduled.frontier, scheduled.tables⟩

/-! ## The prefill group -/

/-- The host waits for the counts, or the rows it has wrong have the decode query
length. -/
theorem Fits.hostStart_eq (fits : Fits cfg runner heap ids) (nonempty : ids ≠ [])
    (rowsEq : ModelRunner.batchRows cfg decodesLatents heap ids = rows) {i : SeqId}
    (member : i ∈ rows.batch) (longer : (heap i).numScheduledTokens ≠ rows.queryLen) :
    hostStart decodesLatents runner heap rows i =
      (heap i).numCachedTokens - runner.moveBack i (heap i) := by
  have arranges : Arranges rows heap ids := rowsEq ▸ fits.arranges
  unfold hostStart
  split
  · rfl
  · rename_i stale
    suffices still : runner.moveBack i (heap i) = 0 by rw [still, Nat.sub_zero]
    by_cases moved : runner.movedRows heap rows = []
    · exact moveBack_eq_zero moved member
    · simp only [needsExactLengths, List.isEmpty_eq_false_iff.mpr moved, Bool.not_false,
        Bool.true_and, Bool.or_eq_true, Bool.not_eq_true', Bool.and_eq_true, not_or,
        Bool.not_eq_false, not_and, List.any_eq_true, not_exists] at stale
      cases decodes : rows.isPrefill with
      | false =>
          -- every row of a decode batch has the query length
          subst rowsEq
          obtain ⟨_, q, uniform, chosen⟩ := batchRows_uniform decodes
            fun i member decoding => (fits.lies i member).enough ((fits.lies i member).samples decoding)
          exact absurd ((uniform i (arranges.mem member)).trans (chosen nonempty).symm) longer
      | true =>
          obtain ⟨r, inside, rfl⟩ := List.mem_iff_getElem.mp member
          have len : rows.lens.getD r 0 = (heap rows.batch[r]).numScheduledTokens := by
            rw [arranges.lens]
            simp [List.getD_eq_getElem?_getD, inside]
          have unmoved : r ∉ runner.movedRows heap rows := by
            intro among
            have same := stale.2 decodes r among
            simp only [decide_eq_true_eq, Decidable.not_not] at same
            exact longer (len.symm.trans same)
          unfold moveBack
          split
          · rfl
          · rename_i pending
            cases device : runner.inFlightDrafts with
            | none => rfl
            | some inFlight =>
                refine absurd ?_ unmoved
                simp only [ModelRunner.movedRows, device, Option.isSome_some, if_true,
                  List.mem_filter, List.mem_range]
                exact ⟨inside, by simpa [List.getD_eq_getElem?_getD, inside] using pending⟩

/-- The rows from the first longer one on are all longer. -/
theorem drop_numDecodes (rowsEq : ModelRunner.batchRows cfg decodesLatents heap ids = rows)
    {context : AttentionContext}
    (queries : context.cuSeqlensQHost =
      cumsum (rows.batch.map fun i => (heap i).numScheduledTokens)) {i : SeqId}
    (member : i ∈ rows.batch.drop (context.numDecodes rows.queryLen)) :
    (heap i).numScheduledTokens ≠ rows.queryLen := by
  obtain ⟨few, leading, next⟩ := AttentionContext.numDecodes_spec queries rows.queryLen
  have batch : rows.batch =
      ids.filter (fun i => (heap i).numScheduledTokens = rows.queryLen) ++
        ids.filter (fun i => ¬ (heap i).numScheduledTokens = rows.queryLen) := by
    rw [← rowsEq]
    exact batchRows_batch
  have short : context.numDecodes rows.queryLen < rows.batch.length := by
    have := List.length_pos_of_mem member
    rw [List.length_drop] at this
    omega
  -- the first longer row stands after every row of the query length
  have past : (ids.filter fun i => (heap i).numScheduledTokens = rows.queryLen).length ≤
      context.numDecodes rows.queryLen := by
    by_contra before
    have inside : context.numDecodes rows.queryLen <
        (ids.filter fun i => (heap i).numScheduledTokens = rows.queryLen).length := by omega
    refine next (by simpa using short) ?_
    have own : rows.batch[context.numDecodes rows.queryLen]? =
        some ((ids.filter fun i => (heap i).numScheduledTokens = rows.queryLen)[
          context.numDecodes rows.queryLen]) := by
      conv_lhs => rw [batch]
      rw [List.getElem?_append_left inside, List.getElem?_eq_getElem inside]
    rw [List.getD_eq_getElem?_getD, List.getElem?_map, own]
    have among := List.getElem_mem inside
    simpa using (List.mem_filter.mp among).2
  rw [batch, List.drop_append, List.drop_eq_nil_of_le past, List.nil_append] at member
  simpa using (List.mem_filter.mp (List.mem_of_mem_drop member)).2

/-! ## Both paths -/

/-- Two batches that lie alike on the device. -/
structure SameOnDevice (inputs others : BatchInputs) : Prop where
  positions : inputs.positions = others.positions
  slotMapping : inputs.context.slotMapping = others.context.slotMapping
  contextLens : inputs.context.contextLens = others.context.contextLens
  cuSeqlensK : inputs.context.cuSeqlensK = others.context.cuSeqlensK

/-- The key lengths the host has bound those of another batch. -/
structure HostBounds (inputs others : BatchInputs) : Prop where
  lens : List.Forall₂ (· ≤ ·) (AttentionContext.steps others.context.cuSeqlensKHost)
    (AttentionContext.steps inputs.context.cuSeqlensKHost)
  device : List.Forall₂ (· ≤ ·) others.context.contextLens
    (AttentionContext.steps inputs.context.cuSeqlensKHost)
  max : others.context.maxSeqlenK ≤ inputs.context.maxSeqlenK ∧
    ∀ len ∈ others.context.contextLens, len ≤ inputs.context.maxSeqlenK

theorem inputsAt_hostBounds {host start others : SeqId → Nat}
    (below : ∀ i ∈ rows.batch, others i ≤ host i) :
    HostBounds (inputsAt cfg runner settings heap ids rows host start)
      (inputsAt cfg runner settings heap ids rows others others) := by
  have lens : List.Forall₂ (· ≤ ·)
      (rows.batch.map fun i => others i + (heap i).numScheduledTokens)
      (rows.batch.map fun i => host i + (heap i).numScheduledTokens) := by
    rw [List.forall₂_map_left_iff, List.forall₂_map_right_iff, List.forall₂_same]
    exact fun i member => Nat.add_le_add_right (below i member) _
  have bounded : ∀ len ∈ rows.batch.map (fun i => others i + (heap i).numScheduledTokens),
      len ≤ (rows.batch.map fun i => host i + (heap i).numScheduledTokens).foldl max 0 := by
    intro len member
    obtain ⟨i, among, rfl⟩ := List.mem_map.mp member
    exact Nat.le_trans (Nat.add_le_add_right (below i among) _)
      ((foldl_max_le.mp (Nat.le_refl _)).2 _ (List.mem_map_of_mem among))
  constructor
  case lens =>
    simp only [inputsAt, AttentionContext.steps_cumsum]
    exact lens
  case device =>
    simp only [inputsAt, AttentionContext.steps_cumsum]
    exact lens
  case max => exact ⟨foldl_max_le.mpr ⟨Nat.zero_le _, bounded⟩, bounded⟩

/-- Rows of the prefill group have exact key lengths on the host. -/
def PrefillsExact (inputs : BatchInputs) : Prop :=
  ∀ group, (inputs.context.attention.splitDecodesAndPrefills
      inputs.context.decodeQueryLen).2.2 = some group →
    group.cuSeqlensK = cumsum group.contextLens ∧
      group.cuSeqlensKHost = cumsum group.contextLens

theorem Scheduled.prefillsExact (scheduled : Scheduled cfg runner heap ids)
    (decodesLatents : Bool) (settings : SeqId → SamplerSettings) :
    PrefillsExact (inputsAt cfg runner settings heap ids
      (ModelRunner.batchRows cfg decodesLatents heap ids)
      (hostStart decodesLatents runner heap (ModelRunner.batchRows cfg decodesLatents heap ids))
      fun i => (heap i).numCachedTokens - runner.moveBack i (heap i)) := by
  intro group split
  have fits := scheduled.toFits
  have arranges : Arranges (ModelRunner.batchRows cfg decodesLatents heap ids) heap ids :=
    fits.arranges
  obtain ⟨_, _, padded⟩ := scheduled.blockTables arranges.perm
  obtain ⟨_, keys, host⟩ := AttentionContext.prefills_exact rfl rfl rfl (by
      simp [inputsAt, BatchContext.attention])
    (by simp only [inputsAt, BatchContext.attention, padded, Option.isSome_some]) (by
      simp only [inputsAt, BatchContext.attention]
      rw [← List.map_drop, ← List.map_drop]
      apply List.map_congr_left
      intro i member
      have longer := drop_numDecodes rfl (by rfl) member
      rw [fits.hostStart_eq scheduled.nonempty rfl (List.mem_of_mem_drop member) longer]) split
  exact ⟨keys, host.trans keys⟩

end RankBatch

/-! ## Launches -/

variable {cfg : Config} {engine : LLMEngine} {env : StepEnv}

/-- The rows of a launch, whatever the step in flight rejects of the drafts it
verifies. -/
theorem LLMEngine.Reachable.rejectingRows (reachable : LLMEngine.Reachable cfg engine)
    (valid : env.Valid cfg engine) {counts : List Nat}
    (bounded : ∀ step, engine.inFlight = some step → ∀ k row, step.rows[k]? = some row →
      counts.getD k 0 ≤ row.numDraftTokens) :
    ∃ batch, engine.batch cfg env = .ok batch ∧
      (batch.output.scheduled ≠ [] → RankBatch.Scheduled cfg (engine.runner.rejecting counts)
        batch.reported.heap batch.output.scheduled) := by
  obtain ⟨flight, inv⟩ := reachable.inv
  obtain ⟨launch, last, stepped, _, steps, _, batchEq⟩ := LLMEngine.step_spec inv valid
  refine ⟨launch.batch cfg, batchEq, ?_⟩
  cases steps with
  | sync mode reconciles settled launches =>
      rw [launches.batch_scheduled]
      intro nonempty
      refine (launches.rows (Flight.wf_nil cfg) (.inl rfl) nonempty).rejecting ?_
      intro i member pending
      have pass := launches.reported
      have active := (pass.inv.running (pass.running i member)).2.2.2
      exact absurd active.pending pending
  | async mode launches reconciles =>
      rw [launches.batch_scheduled]
      intro nonempty
      refine (launches.rows inv.wf (inv.carried.imp And.right And.right) nonempty).rejecting ?_
      intro i member pending
      have pass := launches.reported
      have active : (launch.reported.heap i).Active cfg
          (due flight.rows i (launch.reported.heap i).numPreemptions) :=
        (pass.inv.running (pass.running i member)).2.2.2
      have decoding : (launch.reported.heap i).isPrefill = false := by
        by_contra prefill
        exact pending (active.prefilling (by simpa using prefill)).1
      have frontier := (active.decoding decoding).1
      have reserved := active.pending
      have owed : due flight.rows i (launch.reported.heap i).numPreemptions ≠ 0 :=
        reserved ▸ pending
      obtain ⟨row, among, rfl, lives⟩ := exists_row_of_due_ne_zero owed
      have enough := le_due among
      rw [lives, ← reserved] at enough
      obtain ⟨launched, inside, rfl⟩ := List.mem_map.mp among
      obtain ⟨carried, device⟩ := inv.carried.resolve_left fun idle =>
        absurd inside (by simp [idle.2])
      have place := (@ModelRunner.source_eq cfg flight _ _ inv.wf.distinct inside).2
      rw [← device] at place
      have few := bounded _ carried (engine.runner.source launched.1.seq) launched.1 (by
        simp [Flight.inFlight, Flight.rows, place])
      simp only [Sequence.numPlannedTokens] at frontier
      show counts.getD (engine.runner.source launched.1.seq) 0 ≤
        (launch.reported.heap launched.1.seq).numCachedTokens
      omega

/-- For every batch an engine launches and every vector of rejection counts, each at
most the drafts its row of the step in flight verifies: building the batch
optimistically and moving rows back on the device gives every row the positions,
slots and key lengths it has when the host builds it at reduced starts.  Slots are
looked up inside each row's own table, the lengths the host keeps are upper bounds,
and what `prepare_batch` returns lies so on the device, with exact host lengths for
every row of the prefill group. -/
theorem move_back_agrees_with_host (cfg : Config) (decodesLatents : Bool)
    (settings : SeqId → SamplerSettings) (engine : LLMEngine)
    (reachable : LLMEngine.Reachable cfg engine) (env : StepEnv) (valid : env.Valid cfg engine)
    (counts : List Nat)
    (bounded : ∀ step, engine.inFlight = some step → ∀ k row, step.rows[k]? = some row →
      counts.getD k 0 ≤ row.numDraftTokens) :
    ∃ batch, engine.batch cfg env = .ok batch ∧ (batch.output.scheduled ≠ [] →
      let runner := engine.runner.rejecting counts
      let heap := batch.reported.heap
      let ids := batch.output.scheduled
      let seqs := RankBatch.originals settings heap ids
      let rows := RankBatch.batchRows cfg decodesLatents seqs
      let start := fun i => (heap i).numCachedTokens - runner.moveBack i (heap i)
      ∃ back optimistic moved exact inputs,
        RankBatch.movesBack runner (ModelRunner.gather seqs default rows.order) = .ok back ∧
        RankBatch.optimistic cfg decodesLatents runner seqs = .ok optimistic ∧
        RankBatch.movedOnDevice cfg decodesLatents runner seqs back = .ok moved ∧
        RankBatch.hostExact cfg decodesLatents runner seqs back = .ok exact ∧
        RankBatch.prepareBatch cfg decodesLatents runner seqs = .ok inputs ∧
        RankBatch.SameOnDevice moved exact ∧ RankBatch.SameOnDevice inputs exact ∧
        moved.context.slotMapping = (RankBatch.tokensOf heap rows.batch).map (fun token =>
          RankBatch.slotAt cfg (heap token.1).blockTable (start token.1 + token.2)) ∧
        (∀ token ∈ RankBatch.tokensOf heap rows.batch,
          (start token.1 + token.2) / cfg.blockSize < (heap token.1).blockTable.length) ∧
        moved.context.cuSeqlensKHost = optimistic.context.cuSeqlensKHost ∧
        moved.context.maxSeqlenK = optimistic.context.maxSeqlenK ∧
        RankBatch.HostBounds moved exact ∧ RankBatch.HostBounds inputs exact ∧
        RankBatch.PrefillsExact inputs) := by
  obtain ⟨batch, batchEq, launchRows⟩ := reachable.rejectingRows valid bounded
  refine ⟨batch, batchEq, ?_⟩
  intro nonempty runner heap ids seqs rows start
  have scheduled : RankBatch.Scheduled cfg runner heap ids := launchRows nonempty
  have holds : runner.Holds cfg := reachable.holds.rejecting counts
  have fits := scheduled.toFits
  have arranges : RankBatch.Arranges (ModelRunner.batchRows cfg decodesLatents heap ids) heap ids :=
    fits.arranges
  have rowsEq : rows = ModelRunner.batchRows cfg decodesLatents heap ids :=
    (RankBatch.gather_originals decodesLatents settings arranges).1
  obtain ⟨moves, prepared⟩ := scheduled.prepareBatch_at holds decodesLatents settings
  have specifies : RankBatch.Specifies cfg runner heap ids start
      (RankBatch.inputsAt cfg runner settings heap ids
        (ModelRunner.batchRows cfg decodesLatents heap ids) start start) :=
    scheduled.specifies holds fits.backs.starts rfl
  have batchRowsEq : RankBatch.batchOrder cfg heap ids = rows.batch := by
    rw [rowsEq]
    exact RankBatch.batchRows_batch.symm
  have slots := specifies.slots
  have inside := specifies.inside
  rw [batchRowsEq] at slots inside
  have bounds : ∀ i ∈ (ModelRunner.batchRows cfg decodesLatents heap ids).batch,
      start i ≤ RankBatch.hostStart decodesLatents runner heap
        (ModelRunner.batchRows cfg decodesLatents heap ids) i := by
    intro i _
    unfold RankBatch.hostStart
    split
    · exact Nat.le_refl _
    · exact Nat.sub_le _ _
  rw [← rowsEq] at moves
  let built := RankBatch.inputsAt cfg runner settings heap ids
    (ModelRunner.batchRows cfg decodesLatents heap ids)
  refine ⟨_, _, built (fun i => (heap i).numCachedTokens) start, built start start, _, moves,
    fits.optimistic_eq holds decodesLatents settings, ?_, ?_, prepared, ⟨rfl, rfl, rfl, rfl⟩, ⟨rfl, rfl, rfl, rfl⟩, slots, inside, rfl, rfl,
    RankBatch.inputsAt_hostBounds fun i _ => Nat.sub_le _ _,
    RankBatch.inputsAt_hostBounds bounds, scheduled.prefillsExact decodesLatents settings⟩
  · rw [rowsEq]
    exact scheduled.movedOnDevice_eq holds decodesLatents settings fits.backs
  · rw [rowsEq]
    exact fits.hostExact_eq holds decodesLatents settings fits.backs

/-! ## A draft in flight that is rejected -/

/-- The drafting engine with a row in flight that verifies a draft. -/
def LLMEngine.verifying : LLMEngine :=
  LLMEngine.drafting.stepped .drafting .tight

theorem LLMEngine.verifying_reachable : Reachable .drafting verifying :=
  (((Reachable.create .drafting).add [1, 2, 3] .tight (some "a") 0).step
    (StepEnv.tight_drafting _)).step (StepEnv.tight_drafting _)

/-- The row in flight may reject its draft. -/
theorem LLMEngine.verifying_rejects : ∀ step, verifying.inFlight = some step →
    ∀ k row, step.rows[k]? = some row → [1].getD k 0 ≤ row.numDraftTokens := by
  have carried : verifying.inFlight.map InFlight.rows = some [⟨0, 0, 1⟩] := by decide +kernel
  intro step inFlight k row found
  rw [inFlight] at carried
  have rows : step.rows = [⟨0, 0, 1⟩] := Option.some.inj carried
  rw [rows, List.getElem?_singleton] at found
  split at found
  · rename_i first
    obtain rfl := Option.some.inj found
    simp [first]
  · contradiction

/-- The third launch of the drafting engine, if the draft in flight is rejected: the
host has the row start at 5, and on the device it starts at 4. -/
theorem move_back_agrees_with_host_verifying :
    ∃ batch moved exact, LLMEngine.verifying.batch .drafting .tight = .ok batch ∧
      RankBatch.movedOnDevice .drafting true (LLMEngine.verifying.runner.rejecting [1])
        (RankBatch.originals (fun _ => ⟨0, 0, 1⟩) batch.reported.heap batch.output.scheduled)
        [1] = .ok moved ∧
      RankBatch.hostExact .drafting true (LLMEngine.verifying.runner.rejecting [1])
        (RankBatch.originals (fun _ => ⟨0, 0, 1⟩) batch.reported.heap batch.output.scheduled)
        [1] = .ok exact ∧
      RankBatch.SameOnDevice moved exact ∧ moved.positions = [4, 5] ∧
      moved.context.cuSeqlensKHost = [0, 7] ∧ moved.context.cuSeqlensK = [0, 6] := by
  obtain ⟨batch, batched, agrees⟩ := move_back_agrees_with_host .drafting true
    (fun _ => ⟨0, 0, 1⟩) _ LLMEngine.verifying_reachable .tight (StepEnv.tight_drafting _) [1]
    LLMEngine.verifying_rejects
  have computed : (LLMEngine.verifying.batch .drafting .tight >>= fun batch => do
      let seqs := RankBatch.originals (fun _ => ⟨0, 0, 1⟩) batch.reported.heap
        batch.output.scheduled
      let back ← RankBatch.movesBack (LLMEngine.verifying.runner.rejecting [1])
        (ModelRunner.gather seqs default (RankBatch.batchRows .drafting true seqs).order)
      let moved ← RankBatch.movedOnDevice .drafting true
        (LLMEngine.verifying.runner.rejecting [1]) seqs back
      .ok (batch.output.scheduled, back, moved.positions, moved.context.cuSeqlensKHost,
        moved.context.cuSeqlensK)) = .ok ([0], [1], [4, 5], [0, 7], [0, 6]) := by
    decide +kernel
  have row : (LLMEngine.verifying.batch .drafting .tight).map
      (fun batch => batch.output.scheduled) = .ok [0] := by decide +kernel
  rw [batched] at row computed
  have one : batch.output.scheduled = [0] := Except.ok.inj row
  obtain ⟨back, _, moved, exact, _, moves, _, movedEq, exactEq, _, same, _⟩ :=
    agrees (by simp [one])
  simp only [bind, Except.bind, moves, movedEq, Except.ok.injEq, Prod.mk.injEq] at computed
  obtain ⟨_, rfl, positions, host, device⟩ := computed
  exact ⟨batch, moved, exact, batched, movedEq, exactEq, same, positions, host, device⟩

end LeanVllm
