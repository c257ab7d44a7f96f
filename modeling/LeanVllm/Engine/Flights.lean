import LeanVllm.Engine.LLMEngine
import LeanVllm.Engine.Reconciling

/-!
# Flights

A launched step is known to three parties: the scheduler through the rows it
reserved tokens for, the runner through the tokens and drafts it keeps on the
device, and the engine through the tokens it will fetch.  A flight is the one
list of rows and answers all three are views of.
-/

namespace LeanVllm

open Collections

namespace RowSample

/-- An answer to a row that verifies `numDrafts` drafts: the kept ones and one
more token, and the drafts for the next step. -/
structure Fits (cfg : Config) (numDrafts : Nat) (sample : RowSample) : Prop where
  nonempty : 1 ≤ sample.tokens.length
  few : sample.tokens.length ≤ 1 + numDrafts
  valid : ∀ tokenId ∈ sample.tokens, 0 ≤ tokenId
  drafts : sample.drafts.length = cfg.numSpeculativeTokens

end RowSample

/-- The rows of a launched step, each with what the model returned for it. -/
abbrev Flight := List (LaunchedRow × RowSample)

namespace Flight

def rows (flight : Flight) : List LaunchedRow :=
  flight.map Prod.fst

/-- The tokens the host reads for each row. -/
def tokens (flight : Flight) : List (List Token) :=
  flight.map fun launched => launched.2.tokens

/-- What the runner keeps of a flight. -/
def runner (cfg : Config) (flight : Flight) : ModelRunner where
  prevRows := flight.map fun launched => launched.1.seq
  prevTokens := flight.tokens
  inFlightDrafts :=
    if cfg.numSpeculativeTokens = 0 then none
    else
      some
        { draftTokenIds := flight.map fun launched => launched.2.drafts
          numRejected := flight.map fun launched =>
            launched.1.numDraftTokens - (launched.2.tokens.length - 1) }

/-- What the engine keeps of a flight. -/
def inFlight (cfg : Config) (flight : Flight) : InFlight where
  rows := flight.rows
  pending :=
    if cfg.numSpeculativeTokens = 0 then flight.tokens
    else flight.map fun launched => ModelRunner.columns cfg launched.2

/-- The drafts the host reads for each row under speculation. -/
def drafts (cfg : Config) (flight : Flight) : Option (List (List Token)) :=
  if cfg.numSpeculativeTokens = 0 then none
  else some (flight.map fun launched => launched.2.drafts)

/-- Every row of a flight is answered, and no sequence has two. -/
structure Wf (cfg : Config) (flight : Flight) : Prop where
  fits : ∀ launched ∈ flight, launched.2.Fits cfg launched.1.numDraftTokens
  short : ∀ launched ∈ flight, launched.1.numDraftTokens ≤ cfg.numSpeculativeTokens
  distinct : (flight.map fun launched => launched.1.seq).Nodup

theorem wf_nil (cfg : Config) : Wf cfg [] :=
  ⟨by simp, by simp, by simp⟩

variable {cfg : Config} {flight : Flight}

theorem Wf.answers (wf : Wf cfg flight) :
    List.Forall₂ Scheduler.Answers flight.rows flight.tokens := by
  rw [rows, tokens, List.forall₂_map_left_iff, List.forall₂_map_right_iff, List.forall₂_same]
  exact fun launched member => ⟨(wf.fits launched member).nonempty, (wf.fits launched member).few⟩

theorem Wf.rows_short (wf : Wf cfg flight) :
    ∀ row ∈ flight.rows, row.numDraftTokens ≤ cfg.numSpeculativeTokens := by
  intro row member
  obtain ⟨launched, among, rfl⟩ := List.mem_map.mp member
  exact wf.short launched among

/-- A row of a flight stands after rows of other sequences. -/
theorem split (distinct : (flight.map fun launched => launched.1.seq).Nodup)
    {row : LaunchedRow} {sample : RowSample} (member : (row, sample) ∈ flight) :
    ∃ before after, flight = before ++ (row, sample) :: after ∧
      ∀ launched ∈ before, launched.1.seq ≠ row.seq := by
  obtain ⟨before, after, rfl⟩ := List.append_of_mem member
  refine ⟨before, after, rfl, ?_⟩
  intro launched earlier same
  rw [List.map_append, List.map_cons, List.nodup_append'] at distinct
  exact distinct.2.2 (List.mem_map_of_mem earlier) (same ▸ List.mem_cons_self)

end Flight

namespace ModelRunner

variable {cfg : Config}

theorem columns_split {sample : RowSample} {numDrafts : Nat} (fits : sample.Fits cfg numDrafts)
    (short : numDrafts ≤ cfg.numSpeculativeTokens) :
    ((columns cfg sample).take (cfg.numSpeculativeTokens + 1)).filter (0 ≤ ·) = sample.tokens ∧
      (columns cfg sample).drop (cfg.numSpeculativeTokens + 1) = sample.drafts := by
  have few := fits.few
  have width : (sample.tokens ++ List.replicate
      (cfg.numSpeculativeTokens + 1 - sample.tokens.length) placeholderTokenId).length =
        cfg.numSpeculativeTokens + 1 := by
    rw [List.length_append, List.length_replicate]
    omega
  rw [columns, List.take_left' width, List.drop_left' width]
  refine ⟨?_, rfl⟩
  have kept : sample.tokens.filter (0 ≤ ·) = sample.tokens :=
    List.filter_eq_self.mpr fun tokenId member => by simpa using fits.valid tokenId member
  have padding : (List.replicate (cfg.numSpeculativeTokens + 1 - sample.tokens.length)
      placeholderTokenId).filter (0 ≤ ·) = [] := by
    rw [List.filter_eq_nil_iff]
    intro tokenId member
    rw [List.eq_of_mem_replicate member]
    decide
  rw [List.filter_append, kept, padding, List.append_nil]

/-- The host reads back the tokens and drafts of a flight. -/
theorem splitSampled_eq {flight : Flight} (wf : flight.Wf cfg) :
    splitSampled (flight.map fun launched => columns cfg launched.2) cfg.numSpeculativeTokens =
      (flight.tokens, flight.map fun launched => launched.2.drafts) := by
  simp only [splitSampled, Flight.tokens, List.map_map, Prod.mk.injEq]
  constructor
  · apply List.map_congr_left
    intro launched member
    exact (columns_split (wf.fits launched member) (wf.short launched member)).1
  · apply List.map_congr_left
    intro launched member
    exact (columns_split (wf.fits launched member) (wf.short launched member)).2

variable {runner : ModelRunner} {i : SeqId} {seq : Sequence} {reserved : Nat}

/-- A prefill row feeds the next tokens of its sequence. -/
theorem prepareRow_prefill (prefill : seq.isPrefill = true) (settled : seq.numPendingTokens = 0) :
    runner.prepareRow i seq = .ok
      { seq := i
        start := seq.numCachedTokens
        context := seq.tokenIds.take seq.numCachedTokens
        inputIds := (seq.tokenIds.drop seq.numCachedTokens).take seq.numScheduledTokens
        numDrafts := 0
        samples := decide seq.Samples } := by
  simp [prepareRow, prefill, settled]
  rfl

/-- A decoding row with nothing in flight feeds its last token and drafts. -/
theorem prepareRow_settled (decoding : seq.isPrefill = false)
    (settled : seq.numPendingTokens = 0) :
    runner.prepareRow i seq = .ok
      { seq := i
        start := seq.numCachedTokens
        context := seq.tokenIds.dropLast
        inputIds := seq.lastToken :: seq.specTokenIds
        numDrafts := seq.numScheduledTokens - 1
        samples := decide seq.Samples } := by
  simp [prepareRow, decoding, settled]
  rfl

/-- A sequence's row in a flight is found under its id. -/
theorem prevRow_eq {row : LaunchedRow} {sample : RowSample} {before after : Flight}
    (first : ∀ launched ∈ before, launched.1.seq ≠ row.seq) :
    (Flight.runner cfg (before ++ (row, sample) :: after)).prevRow row.seq = .ok before.length := by
  have absent : row.seq ∉ before.map fun launched => launched.1.seq := by
    rw [List.mem_map]
    rintro ⟨launched, member, same⟩
    exact first launched member same
  have found : ((before ++ (row, sample) :: after).map fun launched => launched.1.seq).idxOf?
      row.seq = some before.length := by
    rw [List.idxOf?_eq_some_iff]
    refine ⟨by simp, by simp, ?_⟩
    intro j earlier same
    have inside : j < (before.map fun launched => launched.1.seq).length := by simpa using earlier
    apply absent
    simp only [List.map_append] at same
    rw [List.getElem_append_left inside] at same
    exact same ▸ List.getElem_mem inside
  simp only [prevRow, Flight.runner, found]

/-- A pending row feeds the last token of its previous row and the drafts
proposed with it. -/
theorem prepareRow_pending {row : LaunchedRow} {sample : RowSample} {before after : Flight}
    (decoding : seq.isPrefill = false) (pending : seq.numPendingTokens ≠ 0)
    (first : ∀ launched ∈ before, launched.1.seq ≠ row.seq) :
    (Flight.runner cfg (before ++ (row, sample) :: after)).prepareRow row.seq seq = .ok
      { seq := row.seq
        start := seq.numCachedTokens -
          if cfg.numSpeculativeTokens = 0 then 0
          else row.numDraftTokens - (sample.tokens.length - 1)
        context := (seq.tokenIds ++ sample.tokens).dropLast
        inputIds := (seq.tokenIds ++ sample.tokens).getLast?.getD placeholderTokenId ::
          if cfg.numSpeculativeTokens = 0 then seq.specTokenIds
          else sample.drafts.take seq.specTokenIds.length
        numDrafts := seq.numScheduledTokens - 1
        samples := decide seq.Samples } := by
  have found : (Flight.runner cfg (before ++ (row, sample) :: after)).prevRow row.seq =
      .ok before.length := prevRow_eq first
  simp only [prepareRow, found, decoding, bind, Except.bind]
  by_cases plain : cfg.numSpeculativeTokens = 0
  · simp [Flight.runner, Flight.tokens, pending, plain]
    rfl
  · simp [Flight.runner, Flight.tokens, pending, plain]
    rfl

/-- A row is about its sequence, and samples if the sequence does. -/
theorem prepareRow_own {input : RowInput}
    (prepared : runner.prepareRow i seq = .ok input) :
    input.seq = i ∧ input.samples = decide seq.Samples := by
  simp only [prepareRow, bind, Except.bind] at prepared
  split at prepared
  · split at prepared
    · contradiction
    · rw [← Except.ok.inj prepared]
      exact ⟨rfl, rfl⟩
  · split at prepared
    · split at prepared
      · contradiction
      · rw [← Except.ok.inj prepared]
        exact ⟨rfl, rfl⟩
    · rw [← Except.ok.inj prepared]
      exact ⟨rfl, rfl⟩

/-- A scheduled row can be prepared if its pending token is on the device. -/
theorem prepareRow_ok (active : seq.Active cfg reserved) (ready : seq.Ready cfg) {flight : Flight}
    (distinct : (flight.map fun launched => launched.1.seq).Nodup)
    (device : flight = [] ∨ runner = flight.runner cfg)
    (known : seq.numPendingTokens ≠ 0 → ∃ launched ∈ flight, launched.1.seq = i) :
    ∃ input, runner.prepareRow i seq = .ok input ∧ input.seq = i ∧
      input.samples = decide seq.Samples ∧ input.numDrafts = seq.specTokenIds.length := by
  cases prefill : seq.isPrefill with
  | true =>
      obtain ⟨settled, none, _⟩ := active.prefilling prefill
      exact ⟨_, prepareRow_prefill prefill settled, rfl, rfl, by simp [none]⟩
  | false =>
      have width : seq.numScheduledTokens - 1 = seq.specTokenIds.length := by
        have := (ready.decoding prefill).1
        omega
      by_cases settled : seq.numPendingTokens = 0
      · exact ⟨_, prepareRow_settled prefill settled, rfl, rfl, width⟩
      · obtain ⟨⟨row, sample⟩, member, rfl⟩ := known settled
        obtain rfl := device.resolve_left (List.ne_nil_of_mem member)
        obtain ⟨before, after, rfl, first⟩ := Flight.split distinct member
        exact ⟨_, prepareRow_pending prefill settled first, rfl, rfl, width⟩

end ModelRunner

namespace Flight

/-- The flight of a launched batch. -/
def launch (forward : RowInput → RowSample) (heap : SeqId → Sequence) (inputs : List RowInput) :
    Flight :=
  (inputs.filter RowInput.samples).map fun input =>
    (⟨input.seq, (heap input.seq).numPreemptions, input.numDrafts⟩, forward input)

end Flight

namespace ModelRunner

variable {cfg : Config} {runner : ModelRunner} {heap : SeqId → Sequence}

theorem prepareRows_ok (forward : RowInput → RowSample) {seqs : List SeqId}
    (each : ∀ i ∈ seqs, ∃ input, runner.prepareRow i (heap i) = .ok input ∧ input.seq = i ∧
      input.samples = decide (heap i).Samples ∧
      input.numDrafts = (heap i).specTokenIds.length) :
    ∃ inputs, runner.prepareRows heap seqs = .ok inputs ∧
      List.Forall₂ (fun i input => runner.prepareRow i (heap i) = .ok input) seqs inputs ∧
      (Flight.launch forward heap inputs).rows =
        seqs.filterMap fun i => (heap i).launchedRow i := by
  induction seqs with
  | nil => exact ⟨[], rfl, .nil, rfl⟩
  | cons i seqs ih =>
      obtain ⟨input, prepared, own, samples, drafts⟩ := each i List.mem_cons_self
      obtain ⟨inputs, looped, others, rows⟩ := ih fun j member =>
        each j (List.mem_cons_of_mem _ member)
      refine ⟨input :: inputs, by simp only [prepareRows, prepared, looped, bind, Except.bind],
        .cons prepared others, ?_⟩
      rw [Flight.launch, Flight.rows] at rows ⊢
      by_cases sampling : (heap i).Samples
      · have row : (heap i).launchedRow i =
            some ⟨i, (heap i).numPreemptions, (heap i).specTokenIds.length⟩ := if_pos sampling
        simp only [List.filterMap_cons, row]
        rw [← rows, List.filter_cons_of_pos (by simp [samples, sampling])]
        simp [own, drafts]
      · have row : (heap i).launchedRow i = none := if_neg sampling
        simp only [List.filterMap_cons, row]
        rw [← rows, List.filter_cons_of_neg (by simp [samples, sampling])]

/-- Running a batch leaves its flight with the runner. -/
theorem run_eq {seqs : List SeqId} {forward : RowInput → RowSample} {inputs : List RowInput}
    (prepared : runner.prepareRows heap seqs = .ok inputs) :
    runner.run cfg heap forward seqs =
      .ok ((Flight.launch forward heap inputs).runner cfg,
        ((Flight.launch forward heap inputs).inFlight cfg).pending) := by
  by_cases plain : cfg.numSpeculativeTokens = 0 <;>
    simp [run, prepared, plain, bind, Except.bind, sampleRows, Flight.runner, Flight.inFlight,
      Flight.tokens, Flight.launch, Function.comp_def]

end ModelRunner

/-- The model answers every row. -/
def StepEnv.Answers (cfg : Config) (env : StepEnv) : Prop :=
  ∀ row : RowInput, (env.forward row).Fits cfg row.numDrafts

/-- The rows of a batch are those of its sampling sequences. -/
theorem map_seq_filterMap_launchedRow (heap : SeqId → Sequence) (seqs : List SeqId) :
    (seqs.filterMap fun i => (heap i).launchedRow i).map LaunchedRow.seq =
      seqs.filter fun i => (heap i).Samples := by
  induction seqs with
  | nil => rfl
  | cons i seqs ih =>
      by_cases samples : (heap i).Samples <;>
        simp [Sequence.launchedRow, samples] <;> exact ih

/-- A launched batch is a well-formed flight. -/
theorem Flight.launch_wf {cfg : Config} {env : StepEnv} {heap : SeqId → Sequence}
    {inputs : List RowInput} {seqs : List SeqId} (answers : env.Answers cfg)
    (rowsEq : (Flight.launch env.forward heap inputs).rows =
      seqs.filterMap fun i => (heap i).launchedRow i)
    (distinct : seqs.Nodup)
    (short : ∀ i ∈ seqs, (heap i).specTokenIds.length ≤ cfg.numSpeculativeTokens) :
    (Flight.launch env.forward heap inputs).Wf cfg where
  fits launched member := by
    obtain ⟨input, _, rfl⟩ := List.mem_map.mp member
    exact answers input
  short launched member := by
    have among := List.mem_map_of_mem (f := Prod.fst) member
    rw [← Flight.rows, rowsEq, List.mem_filterMap] at among
    obtain ⟨i, inside, rowEq⟩ := among
    unfold Sequence.launchedRow at rowEq
    split at rowEq
    · rw [← Option.some.inj rowEq]
      exact short i inside
    · contradiction
  distinct := by
    have seqsEq : (Flight.launch env.forward heap inputs).map (fun launched => launched.1.seq) =
        seqs.filter fun i => (heap i).Samples := by
      rw [← map_seq_filterMap_launchedRow, ← rowsEq, Flight.rows, List.map_map]
      rfl
    rw [seqsEq]
    exact distinct.filter _

end LeanVllm
