import LeanVllm.Engine.BatchRefinement
import LeanVllm.Engine.EngineRuns
import LeanVllm.Engine.WriteExclusivity

/-!
# Pairing the scheduler's rows with the runner's

`prepare_batch` decides which rows sample from the numbers it is given, permutes
the rows, and reads logits by flat positions; `advance` decides again from the
records it just updated.  Both lists are the same sequences in the same order
with the same drafts, so a token list that comes back is the one of its row.
-/

namespace LeanVllm

open Collections

namespace ModelRunner

variable {cfg : Config} {runner : ModelRunner} {flight : Flight} {i : SeqId} {seq : Sequence}
  {reserved : Nat}

/-- The runner of a flight keeps tokens and drafts for each of its rows. -/
theorem holds_of_wf (wf : flight.Wf cfg) : (flight.runner cfg).Holds cfg := by
  refine ⟨by simp [Flight.runner, Flight.tokens], ?_, ?_⟩
  · intro tokens member
    obtain ⟨launched, among, rfl⟩ := List.mem_map.mp member
    exact List.ne_nil_of_length_pos (wf.fits launched among).nonempty
  · intro inFlight device
    simp only [Flight.runner] at device
    split at device
    · contradiction
    · obtain rfl := Option.some.inj device
      refine ⟨by simp [Flight.runner], ?_⟩
      intro drafts member
      obtain ⟨launched, among, rfl⟩ := List.mem_map.mp member
      exact (wf.fits launched among).drafts

theorem holds_create : ({} : ModelRunner).Holds cfg :=
  ⟨rfl, by simp, by simp⟩

/-- What the runner of a flight holds for one of its rows. -/
theorem source_eq {row : LaunchedRow} {sample : RowSample}
    (distinct : (flight.map fun launched => launched.1.seq).Nodup)
    (member : (row, sample) ∈ flight) :
    row.seq ∈ (flight.runner cfg).prevRows ∧
      flight[(flight.runner cfg).source row.seq]? = some (row, sample) := by
  have known : row.seq ∈ (flight.runner cfg).prevRows :=
    List.mem_map_of_mem (f := fun launched => launched.1.seq) member
  refine ⟨known, ?_⟩
  obtain ⟨before, after, rfl, first⟩ := Flight.split distinct member
  have found : (Flight.runner cfg (before ++ (row, sample) :: after)).prevRow row.seq =
      .ok before.length := prevRow_eq first
  rw [Except.ok.inj ((prevRow_of_mem known).symm.trans found)]
  simp

/-- A scheduled row can be laid out when its pending token is in flight. -/
theorem lies_of_ready (active : seq.Active cfg (due flight.rows i seq.numPreemptions))
    (ready : seq.Ready cfg) (wf : flight.Wf cfg) (device : flight = [] ∨ runner = flight.runner cfg) :
    runner.Lies cfg i seq := by
  have inFlight : seq.numPendingTokens ≠ 0 → ∃ row sample, (row, sample) ∈ flight ∧ row.seq = i ∧
      runner = flight.runner cfg ∧ 1 + row.numDraftTokens ≤ seq.numPendingTokens := by
    intro pending
    rw [active.pending] at pending ⊢
    obtain ⟨row, among, own, lives⟩ := exists_row_of_due_ne_zero pending
    obtain ⟨launched, inside, rfl⟩ := List.mem_map.mp among
    refine ⟨launched.1, launched.2, inside, own,
      device.resolve_left (List.ne_nil_of_mem inside), ?_⟩
    rw [← own, ← lives]
    exact le_due among
  refine ⟨⟨?_, fun decoding => (ready.decoding decoding).1, ?_, ?_, ?_⟩, ?_, ?_⟩
  · intro prefill
    exact ⟨(active.prefilling prefill).1, ready.prefilling prefill⟩
  · cases prefill : seq.isPrefill with
    | true => simp [(active.prefilling prefill).2.1]
    | false => exact (active.decoding prefill).2
  · intro pending
    obtain ⟨row, sample, member, rfl, rfl, _⟩ := inFlight pending
    exact (source_eq wf.distinct member).1
  · unfold moveBack
    split
    · exact Nat.zero_le _
    · rename_i pending
      obtain ⟨row, sample, member, rfl, rfl, reserved⟩ := inFlight pending
      have decoding : seq.isPrefill = false := by
        by_contra prefill
        exact pending (active.prefilling (by simpa using prefill)).1
      have frontier := (active.decoding decoding).1
      have place : flight[(flight.runner cfg).source row.seq]? = some (row, sample) :=
        (source_eq wf.distinct member).2
      have few := (wf.fits _ member).few
      have rejected : ∀ drafts, (flight.runner cfg).inFlightDrafts = some drafts →
          drafts.numRejected.getD ((flight.runner cfg).source row.seq) 0 ≤
            row.numDraftTokens := by
        intro drafts found
        simp only [Flight.runner] at found
        split at found
        · contradiction
        · obtain rfl := Option.some.inj found
          simp only [List.getD_eq_getElem?_getD, List.getElem?_map, place, Option.map_some,
            Option.getD_some]
          omega
      simp only [Sequence.numPlannedTokens] at frontier
      cases held : (flight.runner cfg).inFlightDrafts with
      | none => simp
      | some drafts =>
          have := rejected drafts held
          simp only
          omega
  · intro decoding
    have frontier := (active.decoding decoding).1
    have width := (ready.decoding decoding).1
    rw [Sequence.Samples]
    omega
  · intro samples
    rw [Sequence.Samples] at samples
    cases prefill : seq.isPrefill with
    | true =>
        have short := (active.prefilling prefill).2.2.1
        simp only [Sequence.numPlannedTokens] at samples
        omega
    | false =>
        have := (ready.decoding prefill).1
        omega

end ModelRunner

namespace ModelRunner

/-- `run`'s rejection counts, `num_draft_tokens - num_accepted`: a row's accepted
drafts are one less than the tokens in its first `num_speculative_tokens + 1`
columns. -/
def rejections (cfg : Config) (numDraftTokens : List Nat) (pending : List (List Token)) :
    List Nat :=
  List.zipWith (fun numDrafts row =>
    numDrafts - ((row.take (cfg.numSpeculativeTokens + 1)).countP (0 ≤ ·) - 1))
    numDraftTokens pending

end ModelRunner

namespace LLMEngine

variable {cfg : Config} {engine : LLMEngine}

/-- In every reachable engine the runner keeps tokens and drafts for each row it
lists. -/
theorem Reachable.holds (reachable : Reachable cfg engine) : engine.runner.Holds cfg := by
  obtain ⟨actions, run⟩ := reachable
  have preserved : ∀ (_ : List Action) (engine : LLMEngine) flight action (next : LLMEngine)
      flight', engine.Inv cfg flight → engine.runner.Holds cfg → True →
      Acts cfg engine flight action next flight' → next.Inv cfg flight' →
      next.runner.Holds cfg := by
    intro _ engine flight action next flight' _ held _ acts _
    cases acts with
    | add adds => cases adds <;> exact held
    | abort aborts => cases aborts <;> exact held
    | @step env launch last stepped answers steps =>
        have wf : (launch.flight env).Wf cfg := by
          cases steps with
          | sync mode reconciles settled launches => exact launches.wf
          | async mode launches reconciles => exact launches.wf
        simp only [LLMEngine.next, launched]
        split
        · exact held
        · exact ModelRunner.holds_of_wf wf
  obtain ⟨_, _, held⟩ := Run.invariant (fun _ => True) (fun _ engine _ => engine.runner.Holds cfg)
    ModelRunner.holds_create preserved run fun _ _ => trivial
  exact held

/-- The token lists `reconcile` gets for the rows of a step. -/
def reconciledTokens (cfg : Config) (step : InFlight) : List (List Token) :=
  if cfg.numSpeculativeTokens = 0 then step.pending
  else (ModelRunner.splitSampled step.pending cfg.numSpeculativeTokens).1

end LLMEngine

/-- The rows `advance` returns are the sampling rows of the layout: the same
sequences in the same order with the same drafts, and the sampler reads the logits
of each from its own row of the batch. -/
structure Pairs (layout : BatchLayout) (rows : List LaunchedRow) : Prop where
  seqs : rows.map LaunchedRow.seq = layout.samplingRows
  drafts : rows.map LaunchedRow.numDraftTokens = layout.numDraftTokens
  batched : ∀ row ∈ rows, layout.batch[layout.row row.seq]? = some row.seq
  logits : layout.logitsRead = rows.flatMap fun row =>
    layout.lastPositions row.seq (row.numDraftTokens + 1)

/-- What the runner keeps is what `reconcile` will read: one token list for each
row, the row's index under its sequence, and its rejected drafts. -/
structure Carries (cfg : Config) (runner : ModelRunner) (step : InFlight) : Prop where
  each : step.pending.length = step.rows.length
  tokens : LLMEngine.reconciledTokens cfg step = runner.prevTokens
  distinct : runner.prevRows.Nodup
  prevRow : ∀ (k : Nat) (row : LaunchedRow), step.rows[k]? = some row →
    runner.prevRow row.seq = .ok k
  rejected : ∀ (inFlight : InFlightDrafts), runner.inFlightDrafts = some inFlight →
    inFlight.numRejected = List.zipWith (fun (row : LaunchedRow) tokens =>
      row.numDraftTokens - (tokens.length - 1)) step.rows (LLMEngine.reconciledTokens cfg step)

variable {cfg : Config} {flight : Flight}

/-- The runner and the engine carry views of one flight. -/
theorem Flight.Wf.carries (wf : flight.Wf cfg) :
    Carries cfg (flight.runner cfg) (flight.inFlight cfg) := by
  have tokens : LLMEngine.reconciledTokens cfg (flight.inFlight cfg) = flight.tokens := by
    unfold LLMEngine.reconciledTokens Flight.inFlight
    split
    · rfl
    · exact congrArg Prod.fst (ModelRunner.splitSampled_eq wf)
  refine ⟨?_, tokens, wf.distinct, ?_, ?_⟩
  · unfold Flight.inFlight Flight.rows Flight.tokens
    split <;> simp
  · intro k row found
    obtain ⟨launched, member, rfl⟩ := List.mem_map.mp (List.mem_of_getElem? found)
    obtain ⟨known, place⟩ : launched.1.seq ∈ (flight.runner cfg).prevRows ∧
        flight[(flight.runner cfg).source launched.1.seq]? = some launched :=
      ModelRunner.source_eq wf.distinct member
    rw [ModelRunner.prevRow_of_mem known]
    have inside : k < flight.length := by
      simpa [Flight.inFlight, Flight.rows] using (List.getElem?_eq_some_iff.mp found).1
    have seqs : (flight.map fun launched => launched.1.seq)[k]? =
        (flight.map fun launched => launched.1.seq)[
          (flight.runner cfg).source launched.1.seq]? := by
      simp only [Flight.inFlight, Flight.rows, List.getElem?_map] at found
      obtain ⟨other, there, same⟩ := Option.map_eq_some_iff.mp found
      rw [List.getElem?_map, List.getElem?_map, there, place]
      simp [same]
    rw [(List.getElem?_inj (by simpa using inside) wf.distinct).mp seqs]
  · intro inFlight device
    rw [tokens]
    simp only [Flight.runner] at device
    split at device
    · contradiction
    · rw [← Option.some.inj device]
      simp only [Flight.inFlight, Flight.rows, Flight.tokens, List.zipWith_map,
        List.zipWith_self]

/-- The runner counts the rejected drafts of a flight from the columns it sends. -/
theorem Flight.Wf.rejections (wf : flight.Wf cfg) (speculates : cfg.numSpeculativeTokens ≠ 0) :
    ∃ inFlight, (flight.runner cfg).inFlightDrafts = some inFlight ∧
      inFlight.numRejected = ModelRunner.rejections cfg
        (flight.rows.map LaunchedRow.numDraftTokens) (flight.inFlight cfg).pending := by
  simp only [Flight.runner, if_neg speculates]
  refine ⟨_, rfl, ?_⟩
  simp only [ModelRunner.rejections, Flight.inFlight, if_neg speculates, Flight.rows, List.map_map,
    List.zipWith_map, List.zipWith_self]
  apply List.map_congr_left
  intro launched member
  have split := ModelRunner.columns_split (wf.fits launched member) (wf.short launched member)
  rw [List.countP_eq_length_filter, split.1]
  rfl

namespace Scheduler

variable {s : Scheduler} {env : StepEnv} {runner : ModelRunner} {launch : Launch}

/-- A launch lays its batch out, and its rows are the layout's sampling rows. -/
theorem Launches.pairs (launches : s.Launches cfg env runner flight launch) (wf : flight.Wf cfg)
    (device : flight = [] ∨ runner = flight.runner cfg) (holds : runner.Holds cfg)
    (decodesLatents : Bool) :
    ∃ layout, runner.prepareBatch cfg decodesLatents launch.reported.heap launch.output.scheduled =
        .ok layout ∧ layout.Lays launch.inputs ∧ Pairs layout (launch.flight env).rows := by
  have lies : ∀ i ∈ launch.output.scheduled, runner.Lies cfg i (launch.reported.heap i) := by
    intro i member
    have active := (launches.reported.inv.running (launches.reported.running i member)).2.2.2
    exact ModelRunner.lies_of_ready active (launches.reported.ready i member) wf device
  have lays : (runner.layoutOf cfg decodesLatents launch.reported.heap
      launch.output.scheduled).Lays launch.inputs :=
    ModelRunner.layoutOf_lays holds lies launches.reported.nodup launches.prepared
  refine ⟨_, ModelRunner.prepareBatch_eq holds fun i member => (lies i member).toLaid, lays, ?_⟩
  have rowsEq : (launch.flight env).rows = (launch.inputs.filter RowInput.samples).map fun input =>
      ⟨input.seq, (launch.reported.heap input.seq).numPreemptions, input.numDrafts⟩ := by
    simp [Launch.flight, Flight.launch, Flight.rows, Function.comp_def]
  refine ⟨?_, ?_, ?_, ?_⟩
  · rw [rowsEq, List.map_map, lays.samplingRows]
    rfl
  · rw [rowsEq, List.map_map, lays.numDraftTokens]
    rfl
  · intro row member
    rw [rowsEq] at member
    obtain ⟨input, among, rfl⟩ := List.mem_map.mp member
    have inBatch := (lays.members input.seq).mpr
      (List.mem_map_of_mem (List.mem_of_mem_filter among))
    have inside := List.idxOf_lt_length_iff.mpr inBatch
    rw [BatchLayout.row, List.getElem?_eq_getElem inside, List.getElem_idxOf]
  · rw [lays.logits, rowsEq, List.flatMap_map]

end Scheduler

/-- The launch of a step: a synchronous one finds nothing in flight, an asynchronous
one the last flight. -/
theorem LLMEngine.Steps.launches {engine : LLMEngine} {env : StepEnv} {launch : Scheduler.Launch}
    {last : Scheduler} {stepped : List SeqId}
    (steps : Steps cfg env engine.scheduler engine.runner flight launch last stepped)
    (inv : engine.Inv cfg flight) :
    ∃ (s : Scheduler) (before : Flight), s.Launches cfg env engine.runner before launch ∧
      before.Wf cfg ∧ (before = [] ∨ engine.runner = before.runner cfg) := by
  cases steps with
  | sync mode reconciles settled launches =>
      exact ⟨_, [], launches, Flight.wf_nil cfg, Or.inl rfl⟩
  | async mode launches reconciles =>
      exact ⟨_, flight, launches, inv.wf, inv.carried.imp And.right And.right⟩

/-- In every reachable engine the step in flight and the runner carry the same rows
in the same order, and at every launch `prepare_batch` and `advance` agree on
which rows sample. -/
theorem row_pairing (cfg : Config) (decodesLatents : Bool) (engine : LLMEngine)
    (reachable : LLMEngine.Reachable cfg engine) :
    (∀ step, engine.inFlight = some step → Carries cfg engine.runner step) ∧
    ∀ env, env.Valid cfg engine → ∃ batch layout last rows next outputs,
      engine.batch cfg env = .ok batch ∧
      engine.runner.prepareBatch cfg decodesLatents batch.reported.heap batch.output.scheduled =
        .ok layout ∧
      batch.reported.advance cfg batch.output.scheduled = .ok (last, rows) ∧
      layout.Lays batch.inputs ∧ Pairs layout rows ∧
      engine.step cfg env = .ok (next, outputs) ∧
      (batch.output.scheduled ≠ [] → ∃ pending,
        engine.runner.run cfg batch.reported.heap env.forward batch.output.scheduled =
          .ok (next.runner, pending) ∧
        next.inFlight = some ⟨rows, pending⟩ ∧
        pending = ((batch.inputs.filter RowInput.samples).map fun input =>
          if cfg.numSpeculativeTokens = 0 then (env.forward input).tokens
          else ModelRunner.columns cfg (env.forward input)) ∧
        (cfg.numSpeculativeTokens ≠ 0 → ∃ inFlight, next.runner.inFlightDrafts = some inFlight ∧
          inFlight.numRejected = ModelRunner.rejections cfg layout.numDraftTokens pending)) := by
  obtain ⟨flight, inv⟩ := reachable.inv
  constructor
  · intro step carried
    rcases inv.carried with ⟨none, _⟩ | ⟨some, device⟩
    · rw [none] at carried
      contradiction
    · obtain rfl := Option.some.inj (some.symm.trans carried)
      rw [device]
      exact inv.wf.carries
  · intro env valid
    obtain ⟨launch, last, stepped, stepEq, steps, _, batchEq⟩ := LLMEngine.step_spec inv valid
    obtain ⟨s, before, launches, wf, device⟩ := steps.launches inv
    have scheduledEq := launches.batch_scheduled
    obtain ⟨layout, prepared, lays, pairs⟩ :=
      launches.pairs wf device reachable.holds decodesLatents
    have pass := launches.reported
    obtain ⟨advanced, rows, advancedEq, advances, _⟩ :=
      Scheduler.advance_spec pass.inv pass.nodup pass.running pass.ready
    have rowsEq : rows = (launch.flight env).rows := by
      rw [(advances.frame pass.nodup).2.2.2, (launches.advances.frame pass.nodup).2.2.2]
    subst rowsEq
    refine ⟨launch.batch cfg, layout, advanced, (launch.flight env).rows, _, _, batchEq, ?_, ?_,
      lays, pairs, stepEq, ?_⟩
    · rw [scheduledEq]
      exact prepared
    · rw [scheduledEq]
      exact advancedEq
    · intro scheduled
      rw [scheduledEq] at scheduled ⊢
      refine ⟨((launch.flight env).inFlight cfg).pending, ?_, ?_, ?_, ?_⟩
      · simp only [LLMEngine.next, LLMEngine.launched, if_neg scheduled]
        exact ModelRunner.run_eq launches.preparedRows
      · simp only [LLMEngine.next, LLMEngine.launched, if_neg scheduled]
        rfl
      · simp only [Flight.inFlight, Scheduler.Launch.flight, Flight.launch, Flight.tokens,
          List.map_map, Function.comp_def, Scheduler.Launch.batch]
        split <;> rfl
      · intro speculates
        obtain ⟨inFlight, held, rejected⟩ := launches.wf.rejections speculates
        refine ⟨inFlight, ?_, ?_⟩
        · simp only [LLMEngine.next, LLMEngine.launched, if_neg scheduled]
          exact held
        · rw [← pairs.drafts]
          exact rejected

/-- The sample engine with one step in flight. -/
theorem row_pairing_sample :
    LLMEngine.sampleRunning.inFlight.isSome ∧
      ∃ batch layout last rows,
        LLMEngine.sampleRunning.batch .sample .sample = .ok batch ∧
        LLMEngine.sampleRunning.runner.prepareBatch .sample false batch.reported.heap
          batch.output.scheduled = .ok layout ∧
        batch.reported.advance .sample batch.output.scheduled = .ok (last, rows) ∧
        Pairs layout rows := by
  refine ⟨by decide +kernel, ?_⟩
  obtain ⟨_, launches⟩ := row_pairing .sample false LLMEngine.sampleRunning
    LLMEngine.sampleRunning_reachable
  obtain ⟨batch, layout, last, rows, _, _, batched, prepared, advanced, _, pairs, _⟩ :=
    launches .sample (LLMEngine.sample_valid _)
  exact ⟨batch, layout, last, rows, batched, prepared, advanced, pairs⟩

end LeanVllm
