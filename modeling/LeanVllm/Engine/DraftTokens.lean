import LeanVllm.Engine.CapacityDrops
import LeanVllm.Engine.DraftLog

/-!
# No placeholder reaches the model

A decode row whose tokens are in flight has placeholders for its drafts, and
`prepare_batch` overwrites exactly these with the drafts the last launch made for
the row.  Any other decode row has drafts of its last reconciled row.  Either way
the drafts were made for the tokens the row continues.
-/

namespace LeanVllm

open Collections

/-- What a decode row of a launch feeds after its context: a pending row the last
token and the drafts of its row in the launch before, a settled one its own last
token and drafts of its last reconciled row. -/
structure DraftsFed (cfg : Config) (log : DraftLog) (layout : BatchLayout) (seq : Sequence)
    (input : RowInput) : Prop where
  placeholders : placeholderTokenId ∈ seq.specTokenIds →
    (∀ tokenId ∈ seq.specTokenIds, tokenId = placeholderTokenId) ∧ 0 < seq.numPendingTokens
  pending : 0 < seq.numPendingTokens → ∃ record, log.launched input.seq = some record ∧
    record.drafts.length = cfg.numSpeculativeTokens ∧ input.continued = record.tokens ∧
    layout.hostInputsOf input.seq = seq.lastToken :: seq.specTokenIds ∧
    layout.inputsOf input.seq =
      record.tokens.getLast?.getD placeholderTokenId :: record.drafts.take seq.specTokenIds.length
  settled : seq.numPendingTokens = 0 → ∃ record, log.reconciled input.seq = some record ∧
    seq.specTokenIds <+: record.drafts ∧ input.continued = record.tokens ∧
    layout.inputsOf input.seq = seq.lastToken :: seq.specTokenIds

namespace Scheduler

variable {cfg : Config} {s : Scheduler} {env : StepEnv} {runner : ModelRunner} {flight : Flight}
  {launch : Launch} {i : SeqId} {log : DraftLog}

/-- A row with tokens in flight takes the last token and the drafts of its row in
the last launch. -/
theorem Launches.pendingRow (launches : s.Launches cfg env runner flight launch)
    (wf : flight.Wf cfg) (device : flight = [] ∨ runner = flight.runner cfg)
    (speculates : cfg.numSpeculativeTokens ≠ 0) (among : i ∈ launch.output.scheduled)
    (pending : (launch.reported.heap i).numPendingTokens ≠ 0) :
    ∃ launched ∈ flight, launched.1.seq = i ∧ launch.reported.Alive launched.1 ∧
      runner.inFlightDrafts ≠ none ∧
      (launch.reported.heap i).stream flight i =
        (launch.reported.heap i).tokenIds ++ launched.2.tokens ∧
      runner.deviceIds i (launch.reported.heap i) =
        launched.2.tokens.getLast?.getD placeholderTokenId ::
          launched.2.drafts.take (launch.reported.heap i).specTokenIds.length := by
  have isActive := (launches.reported.inv.running (launches.reported.running i among)).2.2.2
  have decoding : (launch.reported.heap i).isPrefill = false := by
    by_contra prefill
    exact pending (isActive.prefilling (by simpa using prefill)).1
  have reserved := pending
  rw [isActive.pending] at reserved
  obtain ⟨row, inside, own, lives⟩ := exists_row_of_due_ne_zero reserved
  obtain ⟨⟨row, sample⟩, member, rfl⟩ := List.mem_map.mp inside
  obtain rfl := device.resolve_left (List.ne_nil_of_mem member)
  have drafts : (flight.runner cfg).inFlightDrafts ≠ none := by
    simp [Flight.runner, speculates]
  refine ⟨(row, sample), member, own, ⟨?_, ?_⟩, drafts, ?_, ?_⟩
  · rw [own]
    exact isActive.unfinished_status
  · rw [own]
    exact lives.symm
  · have tokens : flight.pendingTokens row.seq row.numPreemptions = sample.tokens :=
      (Flight.pendingTokens_of_mem wf.distinct member).1
    rw [show row.seq = i from own, show row.numPreemptions = _ from lives] at tokens
    rw [Sequence.stream, tokens]
  · have place : flight[(flight.runner cfg).source row.seq]? = some (row, sample) :=
      (ModelRunner.source_eq wf.distinct member).2
    rw [show row.seq = i from own] at place
    have held : (flight.runner cfg).inFlightDrafts = some
        { draftTokenIds := flight.map fun launched => launched.2.drafts
          numRejected := flight.map fun launched =>
            launched.1.numDraftTokens - (launched.2.tokens.length - 1) } := if_neg speculates
    have last : (flight.runner cfg).nextTokenIds.getD ((flight.runner cfg).source i)
        placeholderTokenId = sample.tokens.getLast?.getD placeholderTokenId := by
      rw [ModelRunner.nextTokenIds, List.getD_eq_getElem?_getD, List.getElem?_map]
      show (((flight.map fun launched => launched.2.tokens)[_]?).map _).getD _ = _
      rw [List.getElem?_map, place]
      rfl
    simp only [ModelRunner.deviceIds, decoding, pending, held, last, Bool.false_eq_true, or_self,
      if_false, List.getD_eq_getElem?_getD, List.getElem?_map, place, Option.map_some,
      Option.getD_some]

section Fed

variable (launches : s.Launches cfg env runner flight launch) (wf : flight.Wf cfg)
  (device : flight = [] ∨ runner = flight.runner cfg) (speculates : cfg.numSpeculativeTokens ≠ 0)
  (drafted : launch.reported.Drafted flight log.launched [] (fun _ => none) log.reconciled)
  (among : i ∈ launch.output.scheduled)

include launches drafted among

theorem Launches.lastToken_valid : 0 ≤ (launch.reported.heap i).lastToken := by
  have isActive := (launches.reported.inv.running (launches.reported.running i among)).2.2.2
  have nonempty : (launch.reported.heap i).tokenIds ≠ [] := by
    have := isActive.prompt_pos
    have := isActive.prompt_le
    exact List.ne_nil_of_length_pos (by simp only [Sequence.numTokens] at *; omega)
  rw [Sequence.lastToken, List.getLast?_eq_some_getLast nonempty]
  exact drafted.tokens i _ (List.getLast_mem nonempty)

/-- A row with nothing in flight holds token ids. -/
theorem Launches.hostIds_settled (settled : (launch.reported.heap i).numPendingTokens = 0) :
    ∀ tokenId ∈ ModelRunner.hostIds (launch.reported.heap i), 0 ≤ tokenId := by
  have running := launches.reported.running i among
  intro tokenId member
  cases prefill : (launch.reported.heap i).isPrefill with
  | true =>
      rw [ModelRunner.hostIds, if_pos prefill] at member
      exact drafted.tokens i tokenId (List.mem_of_mem_drop (List.mem_of_mem_take member))
  | false =>
      simp only [ModelRunner.hostIds, prefill, Bool.false_eq_true, if_false] at member
      rcases List.mem_cons.mp member with rfl | draft
      · exact launches.lastToken_valid drafted among
      · obtain ⟨record, found, prefixed, _⟩ := drafted.settled i running prefill settled
        exact drafted.saved i record found tokenId (prefixed.subset draft)

/-- A row with tokens in flight holds its last token and placeholders. -/
theorem Launches.hostIds_pending (pending : (launch.reported.heap i).numPendingTokens ≠ 0) :
    ModelRunner.hostIds (launch.reported.heap i) = (launch.reported.heap i).lastToken ::
      List.replicate (launch.reported.heap i).specTokenIds.length placeholderTokenId := by
  have running := launches.reported.running i among
  have isActive := (launches.reported.inv.running running).2.2.2
  have decoding : (launch.reported.heap i).isPrefill = false := by
    by_contra prefill
    exact pending (isActive.prefilling (by simpa using prefill)).1
  simp only [ModelRunner.hostIds, decoding, Bool.false_eq_true, if_false]
  exact congrArg _ (List.eq_replicate_iff.mpr ⟨rfl, drafted.pending i running decoding pending⟩)

include wf device speculates

/-- `draft_dst` lists the placeholders of a row. -/
theorem Launches.mem_draftsAt_iff (o : Nat) :
    o ∈ runner.draftsAt (launch.reported.heap i) ↔
      (ModelRunner.hostIds (launch.reported.heap i))[o]? = some placeholderTokenId := by
  by_cases settled : (launch.reported.heap i).numPendingTokens = 0
  · rw [ModelRunner.draftsAt, if_pos (Or.inl settled)]
    refine iff_of_false List.not_mem_nil ?_
    intro found
    have valid := launches.hostIds_settled drafted among settled _ (List.mem_of_getElem? found)
    exact absurd valid (by decide)
  · obtain ⟨_, _, _, _, held, _⟩ := launches.pendingRow wf device speculates among settled
    have known := launches.lastToken_valid drafted among
    rw [ModelRunner.draftsAt, if_neg (by simp [settled, held]),
      launches.hostIds_pending drafted among settled, List.mem_range']
    cases o with
    | zero =>
        refine iff_of_false ?_ ?_
        · rintro ⟨k, _, same⟩
          omega
        · intro found
          rw [Option.some.inj found] at known
          exact absurd known (by decide)
    | succ o =>
        rw [List.getElem?_cons_succ, List.getElem?_replicate]
        simp only [Nat.one_mul, ite_eq_left_iff, reduceCtorEq, imp_false, not_not]
        constructor
        · rintro ⟨k, small, same⟩
          omega
        · intro small
          exact ⟨o, small, Nat.add_comm o 1⟩

/-- The rows of a launch feed token ids. -/
theorem Launches.deviceIds_valid :
    ∀ tokenId ∈ runner.deviceIds i (launch.reported.heap i), 0 ≤ tokenId := by
  intro tokenId member
  by_cases settled : (launch.reported.heap i).numPendingTokens = 0
  · rw [ModelRunner.deviceIds, if_pos (Or.inr settled)] at member
    exact launches.hostIds_settled drafted among settled tokenId member
  · obtain ⟨launched, inFlight, _, _, _, _, deviceEq⟩ :=
      launches.pendingRow wf device speculates among settled
    have fits := wf.fits launched inFlight
    rw [deviceEq] at member
    rcases List.mem_cons.mp member with rfl | draft
    · have nonempty := List.ne_nil_of_length_pos fits.nonempty
      rw [List.getLast?_eq_some_getLast nonempty]
      exact fits.valid _ (List.getLast_mem nonempty)
    · exact drafted.drafts launched (List.mem_append_left _ inFlight) tokenId
        (List.mem_of_mem_take draft)

end Fed

/-- A decode row of a launch feeds the drafts of the log. -/
theorem Launches.rowFed (launches : s.Launches cfg env runner flight launch) (wf : flight.Wf cfg)
    (device : flight = [] ∨ runner = flight.runner cfg) (holds : runner.Holds cfg)
    (speculates : cfg.numSpeculativeTokens ≠ 0)
    (drafted : launch.reported.Drafted flight log.launched [] (fun _ => none) log.reconciled)
    {decodesLatents : Bool} {input : RowInput}
    (lays : (runner.layoutOf cfg decodesLatents launch.reported.heap
      launch.output.scheduled).Lays launch.inputs)
    (lies : ∀ i ∈ launch.output.scheduled, runner.Lies cfg i (launch.reported.heap i))
    (member : input ∈ launch.inputs) (among : input.seq ∈ launch.output.scheduled)
    (fed : input.inputIds = runner.deviceIds input.seq (launch.reported.heap input.seq))
    (decoding : (launch.reported.heap input.seq).isPrefill = false) :
    DraftsFed cfg log (runner.layoutOf cfg decodesLatents launch.reported.heap
      launch.output.scheduled) (launch.reported.heap input.seq) input := by
  have running := launches.reported.running _ among
  have samples : input.samples = true := by
    obtain ⟨i, _, prepared⟩ := exists_of_forall₂ launches.prepared member
    obtain ⟨own, sampled⟩ := ModelRunner.prepareRow_own prepared
    rw [sampled, ← own, decide_eq_true_eq]
    exact (lies _ among).samples decoding
  have continued := launches.continued_eq wf device member samples
  have hostEq : ModelRunner.hostIds (launch.reported.heap input.seq) =
      (launch.reported.heap input.seq).lastToken ::
        (launch.reported.heap input.seq).specTokenIds := by
    simp only [ModelRunner.hostIds, decoding, Bool.false_eq_true, if_false]
  refine ⟨?_, ?_, ?_⟩
  · intro planted
    have pending : (launch.reported.heap input.seq).numPendingTokens ≠ 0 := by
      intro settled
      have valid := launches.hostIds_settled drafted among settled placeholderTokenId
        (by rw [hostEq]; exact List.mem_cons_of_mem _ planted)
      exact absurd valid (by decide)
    exact ⟨drafted.pending _ running decoding pending, Nat.pos_of_ne_zero pending⟩
  · intro pending
    obtain ⟨launched, inFlight, own, alive, _, stream, deviceEq⟩ :=
      launches.pendingRow wf device speculates among (Nat.ne_of_gt pending)
    obtain ⟨record, found, drafts, tokens⟩ := drafted.recorded launched inFlight
    have fits := wf.fits launched inFlight
    have recordTokens := tokens alive
    rw [own, stream] at recordTokens
    refine ⟨record, own ▸ found, ?_, ?_, ?_, ?_⟩
    · rw [drafts]
      exact fits.drafts
    · rw [continued, stream, recordTokens]
    · rw [← hostEq]
      refine ModelRunner.layoutOf_segment holds (fun i inside => (lies i inside).toLaid) ?_ among
      intro i inside
      have sized := (lies i inside).toLaid.length_deviceIds holds
      rw [sized.1, sized.2]
    · have nonempty := List.ne_nil_of_length_pos fits.nonempty
      rw [lays.inputIds input member, fed, deviceEq, recordTokens, drafts,
        List.getLast?_append_of_ne_nil _ nonempty]
  · intro settled
    obtain ⟨record, found, prefixed, tokens⟩ := drafted.settled _ running decoding settled
    have isActive := (launches.reported.inv.running running).2.2.2
    refine ⟨record, found, prefixed, ?_, ?_⟩
    · have nothing : flight.pendingTokens input.seq
          (launch.reported.heap input.seq).numPreemptions = [] :=
        Flight.pendingTokens_of_due_eq_zero (isActive.pending.symm.trans settled)
      rw [continued, Sequence.stream, tokens, nothing, List.append_nil]
    · rw [lays.inputIds input member, fed, ModelRunner.deviceIds, if_pos (Or.inr settled), hostEq]

/-- A launch lays its batch out with the drafts of the log over its placeholders. -/
theorem Launches.draftsFed (launches : s.Launches cfg env runner flight launch)
    (wf : flight.Wf cfg) (device : flight = [] ∨ runner = flight.runner cfg)
    (holds : runner.Holds cfg) (speculates : cfg.numSpeculativeTokens ≠ 0)
    (drafted : launch.reported.Drafted flight log.launched [] (fun _ => none) log.reconciled)
    (decodesLatents : Bool) :
    ∃ layout, runner.prepareBatch cfg decodesLatents launch.reported.heap launch.output.scheduled =
        .ok layout ∧
      (∀ input ∈ launch.inputs, (launch.reported.heap input.seq).isPrefill = false →
        DraftsFed cfg log layout (launch.reported.heap input.seq) input) ∧
      (∀ p, p ∈ layout.columns.draftDst ↔ layout.columns.tokenIds[p]? = some placeholderTokenId) ∧
      (∀ tokenId ∈ layout.inputIds, 0 ≤ tokenId) ∧
      ∀ tokenId ∈ layout.draftTokenIds, 0 ≤ tokenId := by
  have orders := ModelRunner.batchRows_orders cfg decodesLatents launch.reported.heap
    launch.output.scheduled
  have isActive := fun i among =>
    (launches.reported.inv.running (launches.reported.running i among)).2.2.2
  have lies : ∀ i ∈ launch.output.scheduled, runner.Lies cfg i (launch.reported.heap i) :=
    fun i among => ModelRunner.lies_of_ready (isActive i among) (launches.reported.ready i among)
      wf device
  have laid := fun i among => (lies i among).toLaid
  have lays : (runner.layoutOf cfg decodesLatents launch.reported.heap
      launch.output.scheduled).Lays launch.inputs :=
    ModelRunner.layoutOf_lays holds lies launches.reported.nodup launches.prepared
  have scheduled : ∀ input ∈ launch.inputs, input.seq ∈ launch.output.scheduled := by
    intro input member
    rw [← launches.map_seq]
    exact List.mem_map_of_mem member
  have fed : ∀ input ∈ launch.inputs,
      input.inputIds = runner.deviceIds input.seq (launch.reported.heap input.seq) := by
    intro input member
    rw [← lays.inputIds input member]
    exact ModelRunner.layoutOf_segment holds laid (fun _ _ => rfl) (scheduled input member)
  have deviceValid := fun i (among : i ∈ launch.output.scheduled) =>
    launches.deviceIds_valid wf device speculates drafted among
  refine ⟨_, ModelRunner.prepareBatch_eq holds laid, ?_, ?_, ?_, ?_⟩
  · intro input member decoding
    exact launches.rowFed wf device holds speculates drafted lays lies member
      (scheduled input member) (fed input member) decoding
  · intro p
    have each : ∀ i ∈ (ModelRunner.batchRows cfg decodesLatents launch.reported.heap
        launch.output.scheduled).batch, ∀ o, o ∈ runner.draftsAt (launch.reported.heap i) ↔
          (ModelRunner.hostIds (launch.reported.heap i))[o]? = some placeholderTokenId :=
      fun i member => launches.mem_draftsAt_iff wf device speculates drafted
        (orders.perm.mem_iff.mp member)
    have marks := mem_flatPositions_iff each 0 p
    rw [Nat.zero_add] at marks
    exact marks
  · intro tokenId member
    obtain ⟨i, among, own⟩ := List.mem_flatMap.mp member
    exact deviceValid i (orders.perm.mem_iff.mp among) tokenId own
  · intro tokenId member
    rw [lays.draftTokenIds] at member
    obtain ⟨input, among, own⟩ := List.mem_flatMap.mp member
    have inside := List.mem_of_mem_filter among
    rw [RowInput.drafts, fed input inside] at own
    exact deviceValid _ (scheduled input inside) tokenId (List.mem_of_mem_drop own)

end Scheduler

/-- At every launch of a speculative run, the placeholders of a decode row are
replaced by the drafts the last launch made for it, and a row without placeholders
has drafts of its last reconciled row; both continue what the row continues.  So
neither the model nor the rejection sampler sees a placeholder. -/
theorem no_placeholder_reaches_model (cfg : Config) (speculates : 1 ≤ cfg.numSpeculativeTokens)
    (decodesLatents : Bool) (actions : List LLMEngine.Action) (engine : LLMEngine) (log : DraftLog)
    (run : DraftRun cfg actions (engine, log)) (env : StepEnv) (valid : env.Valid cfg engine) :
    ∃ batch stepped layout, engine.batch cfg env = .ok batch ∧
      engine.reconciledSeqs cfg env = .ok stepped ∧
      engine.runner.prepareBatch cfg decodesLatents batch.reported.heap batch.output.scheduled =
        .ok layout ∧
      (∀ input ∈ batch.inputs, (batch.reported.heap input.seq).isPrefill = false →
        DraftsFed cfg (log.atLaunch cfg stepped) layout (batch.reported.heap input.seq) input) ∧
      (∀ p, p ∈ layout.columns.draftDst ↔ layout.columns.tokenIds[p]? = some placeholderTokenId) ∧
      (∀ tokenId ∈ layout.inputIds, 0 ≤ tokenId) ∧
      ∀ tokenId ∈ layout.draftTokenIds, 0 ≤ tokenId := by
  have positive : cfg.numSpeculativeTokens ≠ 0 := Nat.ne_of_gt speculates
  obtain ⟨flight, inv, drafted⟩ := LLMEngine.DraftRun.logged positive run
  have reachable : LLMEngine.Reachable cfg engine := ⟨actions, LLMEngine.DraftRun.run run⟩
  obtain ⟨launch, last, stepped, _, steps, _, batchEq, reconciledEq⟩ :=
    LLMEngine.step_reconciles inv valid
  obtain ⟨point, before, launches, pointInv, wf, device, pointDrafted⟩ :=
    LLMEngine.Steps.launch_drafted positive steps inv.scheduler inv.wf
      (inv.carried.imp And.right And.right) drafted
  have launchedEq : (log.atLaunch cfg stepped).launched = log.launched := by
    unfold DraftLog.atLaunch
    split <;> rfl
  have reportedDrafted := pointDrafted.trim pointInv.launched (launches.reported_keeps pointInv)
    (launches.trims pointInv)
  rw [← launchedEq] at reportedDrafted
  obtain ⟨layout, prepared, fed, marks, inputs, drafts⟩ :=
    launches.draftsFed wf device reachable.holds positive reportedDrafted decodesLatents
  refine ⟨launch.batch cfg, stepped, layout, batchEq, reconciledEq, ?_, fed, marks, inputs,
    drafts⟩
  rw [launches.batch_scheduled]
  exact prepared

/-! ## A draft still on the device

One draft a step, and the next step launched before the last one is reconciled. -/

def Config.drafting : Config :=
  { Config.sample with numSpeculativeTokens := 1 }

theorem StepEnv.tight_drafts : StepEnv.tight.Drafts := by
  intro input tokenId member
  obtain rfl := List.mem_singleton.mp member
  decide

theorem StepEnv.tight_drafting (engine : LLMEngine) : StepEnv.tight.Valid .drafting engine where
  answers _ :=
    { nonempty := Nat.le_refl 1
      few := Nat.le_add_right 1 _
      valid := by simp [StepEnv.tight]
      drafts := rfl }
  reports _ _ _ _ _ connected := absurd connected (by decide)

namespace LLMEngine

/-- The engine with its request queued. -/
def draftingQueued : LLMEngine :=
  ((create .drafting).addRequest .drafting [1, 2, 3] .tight (some "a") 0).1

/-- The engine with its first token and draft in flight. -/
def drafting : LLMEngine :=
  draftingQueued.stepped .drafting .tight

theorem drafting_run : ∃ actions log, DraftRun .drafting actions (drafting, log) := by
  have queued : Next .drafting (create .drafting)
      (.add 0 [1, 2, 3] .tight (some "a") 0 (.ok "a")) draftingQueued := .add rfl
  obtain ⟨flight, inv⟩ := Reachable.inv ⟨_, .snoc .nil queued⟩
  obtain ⟨launch, last, reconciled, taken, _⟩ := step_reconciles inv (StepEnv.tight_drafting _)
  have next : Next .drafting draftingQueued
      (.step .tight (outputs last reconciled launch.output.dropped)) drafting := by
    refine .step (StepEnv.tight_drafting _) (taken.trans ?_)
    rw [drafting, stepped, taken]
  refine ⟨_, Run.exists_log (.snoc (.snoc .nil queued) next) ?_⟩
  intro env outputs member
  simp only [List.nil_append, List.cons_append, List.mem_cons, reduceCtorEq, Action.step.injEq,
    List.not_mem_nil, or_false, false_or] at member
  rw [member.1]
  exact StepEnv.tight_drafts

end LLMEngine

/-- The row in flight has one placeholder, and the model sees none. -/
theorem no_placeholder_reaches_model_drafting :
    ∃ batch layout, LLMEngine.drafting.batch .drafting .tight = .ok batch ∧
      LLMEngine.drafting.runner.prepareBatch .drafting false batch.reported.heap
        batch.output.scheduled = .ok layout ∧
      layout.columns.tokenIds = [3, placeholderTokenId] ∧
      (∀ p, p ∈ layout.columns.draftDst ↔ layout.columns.tokenIds[p]? = some placeholderTokenId) ∧
      ∀ tokenId ∈ layout.inputIds, 0 ≤ tokenId := by
  obtain ⟨actions, log, run⟩ := LLMEngine.drafting_run
  obtain ⟨batch, stepped, layout, batched, _, prepared, _, marks, inputs, _⟩ :=
    no_placeholder_reaches_model .drafting (Nat.le_refl 1) false actions _ log run .tight
      (StepEnv.tight_drafting _)
  refine ⟨batch, layout, batched, prepared, ?_, marks, inputs⟩
  have collected : (LLMEngine.drafting.batch .drafting .tight >>= fun batch =>
      (LLMEngine.drafting.runner.prepareBatch .drafting false batch.reported.heap
        batch.output.scheduled).map fun layout => layout.columns.tokenIds) =
      .ok [3, placeholderTokenId] := by decide +kernel
  rw [batched] at collected
  simp only [bind, Except.bind, prepared, Except.map] at collected
  exact Except.ok.inj collected

end LeanVllm
