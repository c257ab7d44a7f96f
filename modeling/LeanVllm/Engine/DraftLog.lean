import LeanVllm.Engine.RowPairing
import LeanVllm.Engine.TokenStreams

/-!
# A log of drafts

`advance` plants placeholders for drafts the host does not know yet, and `reconcile`
replaces them unless the next step was launched meanwhile.  A log of the drafts
each row made, and of the tokens they continue, says which drafts the placeholders
stand for and which drafts replaced them.
-/

namespace LeanVllm

open Collections

/-- The drafts a sampling row made and the tokens they continue. -/
structure DraftRecord where
  tokens : List Token
  drafts : List Token
  deriving DecidableEq, Repr

/-- The drafts of the sampling rows of the last launch, and those of each
sequence's last reconciled row. -/
structure DraftLog where
  launched : SeqId → Option DraftRecord := fun _ => none
  reconciled : SeqId → Option DraftRecord := fun _ => none

/-- The drafts the sampling rows of a batch make. -/
def Scheduler.Batch.draftRecords (batch : Scheduler.Batch) (env : StepEnv) (i : SeqId) :
    Option DraftRecord :=
  (batch.inputs.find? fun input => input.samples && decide (input.seq = i)).map fun input =>
    ⟨input.continued ++ (env.forward input).tokens, (env.forward input).drafts⟩

namespace DraftLog

/-- The rows of the last launch that `reconcile` processed. -/
def reconcile (log : DraftLog) (stepped : List SeqId) : DraftLog :=
  { log with reconciled := fun i => if i ∈ stepped then log.launched i else log.reconciled i }

/-- The log as a step's launch finds it: an asynchronous step launches before it
reconciles. -/
def atLaunch (cfg : Config) (log : DraftLog) (stepped : List SeqId) : DraftLog :=
  if cfg.asyncScheduling then log else log.reconcile stepped

end DraftLog

/-- The drafter proposes token ids. -/
def StepEnv.Drafts (env : StepEnv) : Prop :=
  ∀ input : RowInput, ∀ tokenId ∈ (env.forward input).drafts, 0 ≤ tokenId

/-- An action of a run together with what it adds to the log. -/
inductive DraftNext (cfg : Config) :
    LLMEngine × DraftLog → LLMEngine.Action → LLMEngine × DraftLog → Prop
  | add {engine next : LLMEngine} {log : DraftLog} {i : SeqId} {prompt : List Token}
      {params : SamplingParams} {requestId : Option RequestId} {arrivalTime : Nat}
      {result : Except Fault RequestId}
      (added : LLMEngine.Next cfg engine
        (.add i prompt params requestId arrivalTime result) next) :
      DraftNext cfg (engine, log) (.add i prompt params requestId arrivalTime result) (next, log)
  | abort {engine next : LLMEngine} {log : DraftLog} {i : Option SeqId} {requestId : RequestId}
      {reason : FinishReason} {aborted : Bool}
      (ended : LLMEngine.Next cfg engine (.abort i requestId reason aborted) next) :
      DraftNext cfg (engine, log) (.abort i requestId reason aborted) (next, log)
  | step {engine next : LLMEngine} {log : DraftLog} {env : StepEnv}
      {outputs : List (SeqId × RequestOutput)} {batch : Scheduler.Batch} {stepped : List SeqId}
      (taken : LLMEngine.Next cfg engine (.step env outputs) next) (drafts : env.Drafts)
      (batched : engine.batch cfg env = .ok batch)
      (reconciled : engine.reconciledSeqs cfg env = .ok stepped) :
      DraftNext cfg (engine, log) (.step env outputs)
        (next, { log.reconcile stepped with launched := batch.draftRecords env })

/-- The runs of a new engine with their logs. -/
abbrev DraftRun (cfg : Config) : List LLMEngine.Action → LLMEngine × DraftLog → Prop :=
  Transition.Run (DraftNext cfg) (LLMEngine.create cfg, {})

/-! ## Decoding sequences along a pass -/

namespace Scheduler

variable {cfg : Config} {s next last : Scheduler} {rows : List LaunchedRow} {i : SeqId}

/-- Nothing starts to decode, and a decoding sequence at most loses drafts. -/
def Trims (s next : Scheduler) : Prop :=
  ∀ j ∈ next.running, (next.heap j).isPrefill = false →
    j ∈ s.running ∧ (s.heap j).isPrefill = false ∧
      (next.heap j).numPendingTokens = (s.heap j).numPendingTokens ∧
      (next.heap j).specTokenIds <+: (s.heap j).specTokenIds

theorem Trims.refl (s : Scheduler) : Trims s s :=
  fun _ member decoding => ⟨member, decoding, rfl, List.prefix_rfl⟩

theorem Trims.trans (left : Trims s next) (right : Trims next last) : Trims s last := by
  intro j member decoding
  obtain ⟨middle, middleDecoding, pending, drafts⟩ := right j member decoding
  obtain ⟨first, firstDecoding, firstPending, firstDrafts⟩ := left j middle middleDecoding
  exact ⟨first, firstDecoding, pending.trans firstPending, drafts.trans firstDrafts⟩

/-- A change of one record that does not make it decode. -/
theorem trims_of_change (elsewhere : ∀ j, j ≠ i → next.heap j = s.heap j)
    (running : ∀ j ∈ next.running, j ≠ i → j ∈ s.running)
    (own : i ∈ next.running → (next.heap i).isPrefill = false →
      i ∈ s.running ∧ (s.heap i).isPrefill = false ∧
        (next.heap i).numPendingTokens = (s.heap i).numPendingTokens ∧
        (next.heap i).specTokenIds <+: (s.heap i).specTokenIds) : Trims s next := by
  intro j member decoding
  by_cases same : j = i
  · subst same
    exact own member decoding
  · rw [elsewhere j same] at decoding ⊢
    exact ⟨running j member same, decoding, rfl, List.prefix_rfl⟩

theorem trims_renew {seq : Sequence} (bm : BlockManager) (member : i ∈ s.running)
    (prefill : seq.isPrefill = (s.heap i).isPrefill)
    (pending : seq.numPendingTokens = (s.heap i).numPendingTokens)
    (drafts : seq.specTokenIds <+: (s.heap i).specTokenIds) : Trims s (s.renew i seq bm) := by
  refine trims_of_change (fun j other => setSeq_heap_of_ne s other _) (fun j among _ => among) ?_
  intro _ decoding
  rw [renew_heap_self] at decoding ⊢
  exact ⟨member, prefill ▸ decoding, pending, drafts⟩

/-- Leaving `running` starts no decode. -/
theorem trims_erase {seq : Sequence} (distinct : s.running.Nodup)
    (change : next.heap = (s.setSeq i seq).heap) (running : next.running = s.running.erase i) :
    Trims s next := by
  refine trims_of_change (i := i) ?_ ?_ ?_
  · intro j other
    rw [change]
    exact setSeq_heap_of_ne s other _
  · intro j among _
    rw [running] at among
    exact List.mem_of_mem_erase among
  · intro among
    rw [running] at among
    exact absurd among (distinct.not_mem_erase)

theorem Move.trims {before after : Scheduler × SchedulerOutput} (move : Move cfg before after)
    (pass : PassInv cfg before rows) : Trims before.1 after.1 := by
  cases move with
  | reorder reordered =>
      intro j member decoding
      exact ⟨reordered.mem_iff.mp member, decoding, rfl, List.prefix_rfl⟩
  | recount => exact .refl _
  | preempt member idle freed => exact trims_erase pass.inv.active_nodup rfl rfl
  | dropRunning member idle settled freed => exact trims_erase pass.inv.active_nodup rfl rfl
  | dropWaiting head => exact trims_erase pass.inv.active_nodup rfl rfl
  | trim member idle n => exact trims_renew _ member rfl rfl (List.take_prefix _ _)
  | append member idle within fits appended => exact trims_renew _ member rfl rfl List.prefix_rfl
  | serve member idle ready => exact trims_renew _ member rfl rfl List.prefix_rfl
  | @beginRun s output i bm hits fresh params budget head allocates loaded ready =>
      have queued := pass.inv.queued (List.mem_of_head? head)
      refine trims_of_change (i := i) (fun j other => setSeq_heap_of_ne s other _) ?_ ?_
      · intro j among other
        exact (List.mem_append.mp among).resolve_right (by simpa using other)
      · intro _ decoding
        have own : (s.enter i (((s.heap i).allocated cfg hits fresh).started cfg params budget)
            bm).heap i = ((s.heap i).allocated cfg hits fresh).started cfg params budget :=
          setSeq_heap_self s i _
        rw [own] at decoding
        exact absurd (queued.2.2.2.1.prefill.symm.trans decoding) (by simp)
  | @load s output i bm hits fresh head allocates connected wants =>
      have queued := pass.inv.queued (List.mem_of_head? head)
      refine trims_of_change (i := i) (fun j other => setSeq_heap_of_ne s other _)
        (fun j among _ => among) ?_
      intro among
      exact absurd among queued.2.1

theorem Moves.trims {before after : Scheduler × SchedulerOutput} (moves : Moves cfg before after)
    (pass : PassInv cfg before rows) : Trims before.1 after.1 := by
  induction moves with
  | refl => exact .refl _
  | tail earlier move ih => exact ih.trans (move.trims (Moves.passInv earlier pass))

theorem Releases.trims {active : List SeqId} {finishedSending : List RequestId}
    (releases : Releases cfg active rows s finishedSending last)
    (running : s.running = active) : Trims s last := by
  induction releases with
  | nil => exact .refl _
  | skip absent others ih => exact ih running
  | @release s last requestId rest i bm inv found freed next others ih =>
      obtain ⟨_, held⟩ := inv.sending found
      refine Trims.trans (trims_of_change (i := i) (fun j other => setSeq_heap_of_ne s other _)
        (fun j among _ => among) ?_) (ih running)
      intro among
      exact absurd (running ▸ among) held.2.1

theorem Receives.trims {finishedRecving : List RequestId} {requestId : RequestId}
    (receives : Receives cfg s finishedRecving requestId next)
    (inv : s.Inv cfg s.running rows) : Trims s next := by
  cases receives with
  | @cancelled i bm found finished freed =>
      obtain ⟨_, loading | cancelled⟩ := inv.recving found
      · exact absurd (loading.2.2.2.1.symm.trans finished) (by simp)
      · refine trims_of_change (i := i) (fun j other => setSeq_heap_of_ne s other _)
          (fun j among _ => among) ?_
        intro among
        exact absurd among cancelled.2.1
  | @loaded i n bm found unfinished reported publishes =>
      obtain ⟨_, loading | cancelled⟩ := inv.recving found
      · refine trims_of_change (i := i) (fun j other => setSeq_heap_of_ne s other _) ?_ ?_
        · intro j among other
          exact (List.mem_append.mp among).resolve_right (by simpa using other)
        · intro _ decoding
          simp only [endLoad, setSeq_heap_self] at decoding
          exact absurd (loading.2.2.2.2.1.prefill.symm.trans decoding) (by simp)
      · exact absurd (cancelled.2.2.2.1.symm.trans unfinished) (by simp)
  | @failed i found unfinished reported =>
      obtain ⟨_, loading | cancelled⟩ := inv.recving found
      · refine trims_of_change (i := i) (fun j other => setSeq_heap_of_ne s other _) ?_ ?_
        · intro j among other
          exact (List.mem_append.mp among).resolve_right (by simpa using other)
        · intro _ decoding
          simp only [endLoad, setSeq_heap_self] at decoding
          exact absurd (loading.2.2.2.2.1.prefill.symm.trans decoding) (by simp)
      · exact absurd (cancelled.2.2.2.1.symm.trans unfinished) (by simp)

theorem ReceivesAll.trims {finishedRecving order : List RequestId}
    (receives : ReceivesAll cfg rows finishedRecving s order last) : Trims s last := by
  induction receives with
  | nil => exact .refl _
  | cons inv turn nextInv others ih => exact (turn.trims inv).trans ih

theorem Launches.trims {env : StepEnv} {runner : ModelRunner} {flight : Flight} {launch : Launch}
    (launches : s.Launches cfg env runner flight launch)
    (inv : s.Inv cfg s.running flight.rows) : Trims s launch.reported := by
  refine (Moves.trims launches.moves (inv.start [])).trans ?_
  rcases launches.reports with ⟨_, same⟩ | ⟨_, middle, releases, receives⟩
  · rw [same]
    exact .refl _
  · exact Trims.trans (releases.trims rfl) receives.trims

/-! ## The log of drafts -/

/-- A row that `reconcile` would not skip. -/
def Alive (s : Scheduler) (row : LaunchedRow) : Prop :=
  (s.heap row.seq).status ≠ .finished ∧ (s.heap row.seq).numPreemptions = row.numPreemptions

/-- Each row of a flight has its drafts on record, and while it is alive the tokens
they continue are the stream of its sequence. -/
def Recorded (s : Scheduler) (flight : Flight) (records : SeqId → Option DraftRecord)
    (stream : Flight) : Prop :=
  ∀ launched ∈ flight, ∃ record, records launched.1.seq = some record ∧
    record.drafts = launched.2.drafts ∧
    (s.Alive launched.1 →
      record.tokens = (s.heap launched.1.seq).stream stream launched.1.seq)

/-- What the log says of a scheduler with two flights out, the second launched
before the first is reconciled: placeholders stand for drafts in flight, and the
drafts of a settled sequence are those of its last reconciled row. -/
structure Drafted (s : Scheduler) (flight : Flight) (records : SeqId → Option DraftRecord)
    (later : Flight) (laterRecords reconciled : SeqId → Option DraftRecord) : Prop where
  tokens : ∀ i, ∀ tokenId ∈ (s.heap i).tokenIds, 0 ≤ tokenId
  drafts : ∀ launched ∈ flight ++ later, ∀ tokenId ∈ launched.2.drafts, 0 ≤ tokenId
  saved : ∀ i record, reconciled i = some record → ∀ tokenId ∈ record.drafts, 0 ≤ tokenId
  recorded : s.Recorded flight records flight
  laterRecorded : s.Recorded later laterRecords (flight ++ later)
  pending : ∀ i ∈ s.running, (s.heap i).isPrefill = false → (s.heap i).numPendingTokens ≠ 0 →
    ∀ tokenId ∈ (s.heap i).specTokenIds, tokenId = placeholderTokenId
  settled : ∀ i ∈ s.running, (s.heap i).isPrefill = false → (s.heap i).numPendingTokens = 0 →
    ∃ record, reconciled i = some record ∧ (s.heap i).specTokenIds <+: record.drafts ∧
      (s.heap i).tokenIds = record.tokens

variable {flight later : Flight} {records laterRecords reconciled : SeqId → Option DraftRecord}

/-- A change that commits no token keeps the records of a flight. -/
theorem Recorded.keep (recorded : s.Recorded flight records flight)
    (launched : ∀ row ∈ flight.rows, s.Launched s.running row)
    (keeps : ∀ j, Sequence.Keeps (s.heap j) (next.heap j)) : next.Recorded flight records flight := by
  intro entry member
  obtain ⟨record, found, drafts, tokens⟩ := recorded entry member
  refine ⟨record, found, drafts, ?_⟩
  rintro ⟨unfinished, lives⟩
  have keep := keeps entry.1.seq
  have older := (launched entry.1 (List.mem_map_of_mem member)).2.1
  have same : (next.heap entry.1.seq).numPreemptions = (s.heap entry.1.seq).numPreemptions := by
    have := keep.numPreemptions
    omega
  rw [tokens ⟨fun done => unfinished (keep.finished done).1, same ▸ lives⟩, Sequence.stream,
    Sequence.stream, keep.same, same]

/-- Scheduling and reports keep the log true. -/
theorem Drafted.trim (drafted : s.Drafted flight records [] laterRecords reconciled)
    (launched : ∀ row ∈ flight.rows, s.Launched s.running row)
    (keeps : ∀ j, Sequence.Keeps (s.heap j) (next.heap j)) (trims : Trims s next) :
    next.Drafted flight records [] laterRecords reconciled := by
  refine ⟨?_, drafted.drafts, drafted.saved, drafted.recorded.keep launched keeps, ?_, ?_, ?_⟩
  · intro i
    rw [(keeps i).same]
    exact drafted.tokens i
  · intro entry member
    exact absurd member List.not_mem_nil
  · intro i member decoding inFlight tokenId among
    obtain ⟨before, decodes, pending, drafts⟩ := trims i member decoding
    exact drafted.pending i before decodes (pending ▸ inFlight) tokenId (drafts.subset among)
  · intro i member decoding settled
    obtain ⟨before, decodes, pending, drafts⟩ := trims i member decoding
    obtain ⟨record, found, prefixed, tokens⟩ :=
      drafted.settled i before decodes (pending ▸ settled)
    exact ⟨record, found, drafts.trans prefixed, (keeps i).same.trans tokens⟩

/-- The record a sampling row of a batch leaves. -/
theorem Launches.draftRecords {env : StepEnv} {runner : ModelRunner} {launch : Launch}
    (launches : s.Launches cfg env runner flight launch) {input : RowInput}
    (member : input ∈ launch.inputs) (samples : input.samples = true) :
    (launch.batch cfg).draftRecords env input.seq =
      some ⟨input.continued ++ (env.forward input).tokens, (env.forward input).drafts⟩ := by
  have distinct : (launch.inputs.map RowInput.seq).Nodup := by
    rw [launches.map_seq]
    exact launches.reported.nodup
  have found : launch.inputs.find? (fun other => other.samples && decide (other.seq = input.seq)) =
      some input := by
    cases search : launch.inputs.find?
        (fun other => other.samples && decide (other.seq = input.seq)) with
    | none =>
        have missed := List.find?_eq_none.mp search input member
        simp [samples] at missed
    | some other =>
        have matched := List.find?_some search
        simp only [Bool.and_eq_true, decide_eq_true_eq] at matched
        rw [List.inj_on_of_nodup_map distinct (List.mem_of_find?_eq_some search) member matched.2]
  rw [Batch.draftRecords]
  show Option.map _ (launch.inputs.find? _) = _
  rw [found]
  rfl

/-- A sampling row of a launch continues the stream of its sequence. -/
theorem Launches.continued_eq {env : StepEnv} {runner : ModelRunner} {launch : Launch}
    (launches : s.Launches cfg env runner flight launch) (wf : flight.Wf cfg)
    (device : flight = [] ∨ runner = flight.runner cfg) {input : RowInput}
    (member : input ∈ launch.inputs) (samples : input.samples = true) :
    input.continued = (launch.reported.heap input.seq).stream flight input.seq := by
  obtain ⟨_, width, drafts, feeds, _⟩ := launches.feeds wf device member
  rw [feeds.continued_eq, feeds.samples samples, List.take_length]

/-- A launch adds the drafts of its rows to the log, and plants placeholders for
them. -/
theorem Launches.drafted {env : StepEnv} {runner : ModelRunner} {launch : Launch}
    (launches : s.Launches cfg env runner flight launch)
    (inv : s.Inv cfg s.running flight.rows) (wf : flight.Wf cfg)
    (device : flight = [] ∨ runner = flight.runner cfg) (valid : env.Drafts)
    (drafted : s.Drafted flight records [] laterRecords reconciled) :
    launch.last.Drafted flight records (launch.flight env) ((launch.batch cfg).draftRecords env)
      reconciled := by
  have pass := launches.reported
  have before := drafted.trim inv.launched (launches.reported_keeps inv) (launches.trims inv)
  have keeps := fun j => launches.advances.keeps j
  obtain ⟨same, outside, inside, _⟩ := launches.advances.frame pass.nodup
  have runningEq : launch.last.running = launch.reported.running := by rw [same]
  have planted : ∀ i ∈ launch.output.scheduled, (launch.last.heap i).isPrefill = false →
      (launch.last.heap i).numPendingTokens ≠ 0 ∧
        ∀ tokenId ∈ (launch.last.heap i).specTokenIds, tokenId = placeholderTokenId := by
    intro i among decoding
    obtain ⟨n, heapEq⟩ := inside i among
    have isActive : (launch.reported.heap i).Active cfg _ :=
      (pass.inv.running (pass.running i among)).2.2.2
    have ready : (launch.reported.heap i).Ready cfg := pass.ready i among
    rw [heapEq] at decoding ⊢
    unfold Sequence.advanced at decoding ⊢
    split
    · refine ⟨?_, ?_⟩
      · show (launch.reported.heap i).numPendingTokens + _ ≠ 0
        omega
      · intro tokenId member
        exact List.eq_of_mem_replicate member
    · rename_i short
      rw [if_neg short] at decoding
      have frontier := (isActive.decoding decoding).1
      have width := (ready.decoding decoding).1
      exact absurd (show (launch.reported.heap i).Samples by rw [Sequence.Samples]; omega) short
  refine ⟨?_, ?_, before.saved, ?_, ?_, ?_, ?_⟩
  · intro i
    rw [(keeps i).1.same]
    exact before.tokens i
  · intro launched member
    rcases List.mem_append.mp member with old | new
    · exact drafted.drafts launched (by simpa using old)
    · obtain ⟨input, _, rfl⟩ := List.mem_map.mp new
      exact valid input
  · exact before.recorded.keep pass.inv.launched fun j => (keeps j).1
  · intro launched member
    obtain ⟨input, among, rfl⟩ := List.mem_map.mp member
    obtain ⟨input_mem, samples⟩ := List.mem_filter.mp among
    refine ⟨_, launches.draftRecords input_mem samples, rfl, ?_⟩
    rintro ⟨_, lives⟩
    rw [(keeps _).2.1] at lives
    have own : (launch.flight env).pendingTokens input.seq
        (launch.reported.heap input.seq).numPreemptions = (env.forward input).tokens :=
      (Flight.pendingTokens_of_mem launches.wf.distinct member).1
    show input.continued ++ (env.forward input).tokens = _
    rw [launches.continued_eq wf device input_mem samples, Sequence.stream, Sequence.stream,
      (keeps input.seq).1.same, (keeps input.seq).2.1, Flight.pendingTokens_append, own,
      List.append_assoc]
  · intro i member decoding inFlight
    by_cases among : i ∈ launch.output.scheduled
    · exact (planted i among decoding).2
    · rw [outside i among] at decoding inFlight ⊢
      exact before.pending i (runningEq ▸ member) decoding inFlight
  · intro i member decoding settled
    by_cases among : i ∈ launch.output.scheduled
    · exact absurd settled (planted i among decoding).1
    · rw [outside i among] at decoding settled ⊢
      exact before.settled i (runningEq ▸ member) decoding settled

/-- Reconciling a row of another sequence, or a void one, leaves a record true. -/
theorem recorded_of_other {row : LaunchedRow} {sample : RowSample} {entry : LaunchedRow}
    {tokens : List Token} (same : next.heap entry.seq = s.heap entry.seq)
    (other : row.seq = entry.seq → row.numPreemptions ≠ (s.heap entry.seq).numPreemptions)
    (recorded : s.Alive entry →
      tokens = (s.heap entry.seq).stream ((row, sample) :: flight) entry.seq) :
    next.Alive entry → tokens = (next.heap entry.seq).stream flight entry.seq := by
  intro alive
  rw [Alive, same] at alive
  rw [recorded alive, same]
  exact stream_cons_of_ne (fun both => other both.1 both.2) sample flight

/-- The drafts of a reconciled row are token ids. -/
theorem Drafted.saved_update {row : LaunchedRow} {sample : RowSample}
    (drafted : s.Drafted ((row, sample) :: flight) records later laterRecords reconciled) :
    ∀ i record, Function.update reconciled row.seq (records row.seq) i = some record →
      ∀ tokenId ∈ record.drafts, 0 ≤ tokenId := by
  intro i record kept
  obtain ⟨own, found, drafts, _⟩ := drafted.recorded (row, sample) List.mem_cons_self
  by_cases same : i = row.seq
  · subst same
    rw [Function.update_self, found] at kept
    obtain rfl := Option.some.inj kept
    rw [drafts]
    exact drafted.drafts (row, sample) List.mem_cons_self
  · rw [Function.update_of_ne same] at kept
    exact drafted.saved i record kept

/-- One turn of `reconcile` moves a row's record from the launch to the log of
reconciled rows. -/
theorem Reconciles.drafted {row : LaunchedRow} {sample : RowSample} {rows : List LaunchedRow}
    {drafts : Option (List (List Token))} {processed : Bool}
    (turn : Reconciles cfg s row sample.tokens drafts next processed)
    (inv : s.Inv cfg s.running (row :: rows)) (answer : Answers row sample.tokens)
    (own : ∃ others, drafts = some (sample.drafts :: others))
    (valid : ∀ tokenId ∈ sample.tokens, 0 ≤ tokenId)
    (absent : ∀ launched ∈ flight, launched.1.seq ≠ row.seq)
    (drafted : s.Drafted ((row, sample) :: flight) records later laterRecords reconciled) :
    next.Drafted flight records later laterRecords
      (if processed then Function.update reconciled row.seq (records row.seq)
        else reconciled) := by
  have laterDrafts : ∀ launched ∈ flight ++ later, ∀ tokenId ∈ launched.2.drafts, 0 ≤ tokenId :=
    fun launched member => drafted.drafts launched (List.mem_cons_of_mem _ member)
  have inFlight : ∀ launched ∈ flight, ∃ record, records launched.1.seq = some record ∧
      record.drafts = launched.2.drafts ∧ (next.Alive launched.1 →
        record.tokens = (next.heap launched.1.seq).stream flight launched.1.seq) := by
    intro launched member
    obtain ⟨record, found, same, tokens⟩ :=
      drafted.recorded launched (List.mem_cons_of_mem _ member)
    exact ⟨record, found, same, recorded_of_other (turn.heap_of_ne (absent launched member))
      (fun equal => absurd equal.symm (absent launched member)) tokens⟩
  cases turn with
  | void void =>
      refine ⟨drafted.tokens, laterDrafts, drafted.saved, inFlight, ?_, drafted.pending,
        drafted.settled⟩
      intro launched member
      obtain ⟨record, found, same, tokens⟩ := drafted.laterRecorded launched member
      refine ⟨record, found, same, fun alive => recorded_of_other rfl ?_ tokens alive⟩
      intro equal
      rcases void with done | requeued
      · exact absurd (equal ▸ done) alive.1
      · rw [← equal]
        exact fun same => requeued same.symm
  | @commit hashes spec lives member below clean hashed saved =>
      obtain ⟨others, rfl⟩ := own
      have isActive := (inv.running member).2.2.2
      obtain ⟨_, decoding, pending⟩ := inv.valid isActive.unfinished_status lives
      obtain ⟨record, found, recordDrafts, recordTokens⟩ :=
        drafted.recorded (row, sample) List.mem_cons_self
      have elsewhere : ∀ j, j ≠ row.seq →
          (s.renew row.seq { (s.heap row.seq).committed
            (row.numDraftTokens - (sample.tokens.length - 1)) sample.tokens hashes with
              specTokenIds := spec } s.blockManager).heap j = s.heap j :=
        fun j other => setSeq_heap_of_ne s other _
      have few := answer.2
      have some := answer.1
      refine ⟨?_, laterDrafts, ?_, inFlight, ?_, ?_, ?_⟩
      · intro j tokenId among
        by_cases same : j = row.seq
        · subst same
          rw [renew_heap_self] at among
          rcases List.mem_append.mp among with old | new
          · exact drafted.tokens _ tokenId old
          · exact valid tokenId new
        · rw [elsewhere j same] at among
          exact drafted.tokens j tokenId among
      · rw [if_pos rfl]
        exact drafted.saved_update
      · intro launched among
        obtain ⟨entry, entryFound, entryDrafts, tokens⟩ := drafted.laterRecorded launched among
        refine ⟨entry, entryFound, entryDrafts, ?_⟩
        by_cases same : launched.1.seq = row.seq
        · intro alive
          rw [Alive, same, renew_heap_self] at alive
          have before : s.Alive launched.1 := by
            rw [Alive, same]
            exact alive
          rw [tokens before, same, renew_heap_self]
          exact (stream_cons_self lives sample (flight ++ later)).trans
            (List.append_assoc _ _ _).symm
        · exact recorded_of_other (elsewhere _ same) (fun equal => absurd equal.symm same) tokens
      · intro j running decodes left
        by_cases same : j = row.seq
        · subst same
          rw [renew_heap_self] at left ⊢
          rcases saved with ⟨rfl, _⟩ | ⟨_, settled⟩
          · exact drafted.pending _ member decoding (by omega)
          · simp only [Sequence.committed] at left
            omega
        · rw [elsewhere j same] at decodes left ⊢
          exact drafted.pending j running decodes left
      · intro j running decodes none
        by_cases same : j = row.seq
        · subst same
          rw [renew_heap_self] at none ⊢
          rw [if_pos rfl, Function.update_self]
          refine ⟨record, found, ?_, ?_⟩
          · rcases saved with ⟨_, missing | more⟩ | ⟨⟨rest, listed⟩, _⟩
            · contradiction
            · simp only [Sequence.committed] at none
              omega
            · rw [recordDrafts]
              rw [(List.cons.inj (Option.some.inj listed)).1]
          · have nothing : flight.pendingTokens row.seq (s.heap row.seq).numPreemptions = [] :=
              Flight.pendingTokens_eq_nil fun entry among equal => by
                obtain ⟨launched, inside, rfl⟩ := List.mem_map.mp among
                exact absurd equal (absent launched inside)
            rw [recordTokens ⟨isActive.unfinished_status, lives⟩]
            refine Eq.trans ?_ (stream_cons_self lives sample flight).symm
            rw [nothing, List.append_nil]
            rfl
        · rw [elsewhere j same] at decodes none ⊢
          rw [if_pos rfl, Function.update_of_ne same]
          exact drafted.settled j running decodes none
  | @stop hashes earlier dropped final why after lives member split below clean cause ends =>
      have frame := ends.frame
      have finished : (next.heap row.seq).status = .finished := frame.status
      have tokensEq : (next.heap row.seq).tokenIds =
          (s.heap row.seq).tokenIds ++ (earlier ++ [final]) := by
        obtain ⟨result, recordEq | recordEq⟩ := frame.record <;> rw [recordEq] <;> rfl
      have distinct := inv.active_nodup
      have running : ∀ j ∈ next.running, j ≠ row.seq ∧ j ∈ s.running := by
        intro j among
        rw [frame.running] at among
        exact (distinct.mem_erase_iff).mp among
      refine ⟨?_, laterDrafts, ?_, inFlight, ?_, ?_, ?_⟩
      · intro j tokenId among
        by_cases same : j = row.seq
        · subst same
          rw [tokensEq] at among
          rcases List.mem_append.mp among with old | new
          · exact drafted.tokens _ tokenId old
          · exact valid tokenId (by rw [split]; exact List.mem_append_left _ new)
        · rw [frame.heap j same] at among
          exact drafted.tokens j tokenId among
      · rw [if_pos rfl]
        exact drafted.saved_update
      · intro launched among
        obtain ⟨entry, entryFound, entryDrafts, tokens⟩ := drafted.laterRecorded launched among
        refine ⟨entry, entryFound, entryDrafts, ?_⟩
        by_cases same : launched.1.seq = row.seq
        · intro alive
          exact absurd (same ▸ finished) alive.1
        · exact recorded_of_other (frame.heap _ same) (fun equal => absurd equal.symm same) tokens
      · intro j among decodes left
        obtain ⟨other, before⟩ := running j among
        rw [frame.heap j other] at decodes left ⊢
        exact drafted.pending j before decodes left
      · intro j among decodes none
        obtain ⟨other, before⟩ := running j among
        rw [frame.heap j other] at decodes none ⊢
        rw [if_pos rfl, Function.update_of_ne other]
        exact drafted.settled j before decodes none

/-- Reconciling a flight moves the records of its processed rows. -/
theorem ReconcilesAll.drafted {laterRows step : List LaunchedRow} {tokenIds : List (List Token)}
    {drafts : Option (List (List Token))} {stepped : List SeqId}
    (reconciles : ReconcilesAll cfg laterRows s step tokenIds drafts last stepped)
    (stepEq : step = flight.rows) (tokensEq : tokenIds = flight.tokens)
    (draftsEq : drafts = some (flight.map fun launched => launched.2.drafts))
    (valid : ∀ launched ∈ flight, ∀ tokenId ∈ launched.2.tokens, 0 ≤ tokenId)
    (distinct : (flight.map fun launched => launched.1.seq).Nodup)
    (drafted : s.Drafted flight records later laterRecords reconciled) :
    last.Drafted [] records later laterRecords
      fun i => if i ∈ stepped then records i else reconciled i := by
  induction reconciles generalizing flight reconciled with
  | nil =>
      obtain rfl := List.map_eq_nil_iff.mp stepEq.symm
      simpa using drafted
  | @cons s next last row step tokens tokenIds drafts processed stepped inv answer turn nextInv
      others ih =>
      cases flight with
      | nil => exact absurd stepEq (by simp [Flight.rows])
      | cons launched flight =>
          obtain ⟨entry, sample⟩ := launched
          obtain ⟨rfl, restEq⟩ := List.cons.inj stepEq
          obtain ⟨rfl, restTokens⟩ := List.cons.inj tokensEq
          rw [List.map_cons, List.nodup_cons] at distinct
          have absent : ∀ other ∈ flight, other.1.seq ≠ row.seq := by
            intro other member equal
            exact distinct.1 (List.mem_map.mpr ⟨other, member, equal⟩)
          have moved := turn.drafted inv answer ⟨_, draftsEq⟩
            (valid (row, sample) List.mem_cons_self) absent drafted
          have rest := ih restEq restTokens (by rw [draftsEq]; rfl)
            (fun other member => valid other (List.mem_cons_of_mem _ member)) distinct.2 moved
          have same : (fun i => if i ∈ (if processed then row.seq :: stepped else stepped)
              then records i else reconciled i) =
              fun i => if i ∈ stepped then records i else
                (if processed then Function.update reconciled row.seq (records row.seq)
                  else reconciled) i := by
            funext i
            cases processed with
            | false => simp
            | true =>
                by_cases own : i = row.seq
                · subst own
                  simp
                · simp [own]
          rw [same]
          exact rest

/-- The later flight becomes the one in flight. -/
theorem Drafted.promote (drafted : s.Drafted [] records later laterRecords reconciled)
    (others : SeqId → Option DraftRecord) : s.Drafted later laterRecords [] others reconciled := by
  refine ⟨drafted.tokens, ?_, drafted.saved, drafted.laterRecorded, ?_, drafted.pending,
    drafted.settled⟩
  · intro launched member
    exact drafted.drafts launched (by simpa using member)
  · intro launched member
    exact absurd member List.not_mem_nil

/-- A change of one record that runs in no row leaves the log true. -/
theorem Drafted.change (drafted : s.Drafted flight records [] laterRecords reconciled)
    (elsewhere : ∀ j, j ≠ i → next.heap j = s.heap j)
    (running : ∀ j ∈ next.running, j ≠ i ∧ j ∈ s.running)
    (tokens : ∀ tokenId ∈ (next.heap i).tokenIds, 0 ≤ tokenId)
    (dead : ∀ launched ∈ flight, launched.1.seq = i → ¬ next.Alive launched.1) :
    next.Drafted flight records [] laterRecords reconciled := by
  refine ⟨?_, drafted.drafts, drafted.saved, ?_, ?_, ?_, ?_⟩
  · intro j tokenId among
    by_cases same : j = i
    · subst same
      exact tokens tokenId among
    · rw [elsewhere j same] at among
      exact drafted.tokens j tokenId among
  · intro launched member
    obtain ⟨record, found, drafts, continued⟩ := drafted.recorded launched member
    refine ⟨record, found, drafts, fun alive => ?_⟩
    have other : launched.1.seq ≠ i := fun same => dead launched member same alive
    rw [Alive, elsewhere _ other] at alive
    rw [elsewhere _ other]
    exact continued alive
  · intro launched member
    exact absurd member List.not_mem_nil
  · intro j among decodes left
    obtain ⟨other, before⟩ := running j among
    rw [elsewhere j other] at decodes left ⊢
    exact drafted.pending j before decodes left
  · intro j among decodes none
    obtain ⟨other, before⟩ := running j among
    rw [elsewhere j other] at decodes none ⊢
    exact drafted.settled j before decodes none

end Scheduler

namespace LLMEngine

open Scheduler

variable {cfg : Config} {engine : LLMEngine} {flight : Flight} {log : DraftLog}

/-- An accepted prompt holds token ids. -/
theorem tokens_of_validateRequest {prompt : List Token} {params : SamplingParams}
    (valid : validateRequest cfg prompt params = .ok ()) : ∀ tokenId ∈ prompt, 0 ≤ tokenId := by
  intro tokenId member
  unfold validateRequest at valid
  split at valid
  · contradiction
  · split at valid
    · contradiction
    · rename_i none
      have inside := List.find?_eq_none.mp none tokenId member
      rw [decide_eq_true_eq, not_not] at inside
      exact inside.1

/-- The log of an engine between two actions. -/
def Logged (cfg : Config) (state : LLMEngine × DraftLog) : Prop :=
  ∃ flight, state.1.Inv cfg flight ∧
    state.1.scheduler.Drafted flight state.2.launched [] (fun _ => none) state.2.reconciled

/-- The scheduler as a launch finds it, with its log. -/
theorem Steps.launch_drafted {env : StepEnv} {s last : Scheduler} {runner : ModelRunner}
    {launch : Launch} {stepped : List SeqId} (speculates : cfg.numSpeculativeTokens ≠ 0)
    (steps : Steps cfg env s runner flight launch last stepped)
    (inv : s.Inv cfg s.running flight.rows) (wf : flight.Wf cfg)
    (device : flight = [] ∨ runner = flight.runner cfg)
    (drafted : s.Drafted flight log.launched [] (fun _ => none) log.reconciled) :
    ∃ (point : Scheduler) (before : Flight), point.Launches cfg env runner before launch ∧
      point.Inv cfg point.running before.rows ∧ before.Wf cfg ∧
      (before = [] ∨ runner = before.runner cfg) ∧
      point.Drafted before log.launched [] (fun _ => none)
        (log.atLaunch cfg stepped).reconciled := by
  cases steps with
  | sync mode reconciles settled launches =>
      have draftsEq : flight.drafts cfg = some (flight.map fun launched => launched.2.drafts) :=
        if_neg speculates
      have moved := reconciles.drafted rfl rfl draftsEq
        (fun launched member => (wf.fits launched member).valid) wf.distinct drafted
      refine ⟨_, [], launches, settled, Flight.wf_nil cfg, Or.inl rfl, ?_⟩
      rw [DraftLog.atLaunch, mode]
      exact moved
  | async mode launches reconciles =>
      refine ⟨_, flight, launches, inv, wf, device, ?_⟩
      rw [DraftLog.atLaunch, mode]
      exact drafted

/-- A step keeps the log true. -/
theorem Steps.drafted {env : StepEnv} {s last : Scheduler} {runner : ModelRunner}
    {launch : Launch} {stepped : List SeqId} (speculates : cfg.numSpeculativeTokens ≠ 0)
    (steps : Steps cfg env s runner flight launch last stepped)
    (inv : s.Inv cfg s.running flight.rows) (wf : flight.Wf cfg)
    (device : flight = [] ∨ runner = flight.runner cfg) (valid : env.Drafts)
    (drafted : s.Drafted flight log.launched [] (fun _ => none) log.reconciled) :
    last.Drafted (launch.flight env) ((launch.batch cfg).draftRecords env) [] (fun _ => none)
      (log.reconcile stepped).reconciled := by
  have draftsEq : flight.drafts cfg = some (flight.map fun launched => launched.2.drafts) :=
    if_neg speculates
  have tokens : ∀ launched ∈ flight, ∀ tokenId ∈ launched.2.tokens, 0 ≤ tokenId :=
    fun launched member => (wf.fits launched member).valid
  cases steps with
  | sync mode reconciles settled launches =>
      have moved := reconciles.drafted rfl rfl draftsEq tokens wf.distinct drafted
      exact (launches.drafted settled (Flight.wf_nil cfg) (Or.inl rfl) valid moved).promote _
  | async mode launches reconciles =>
      have launched := launches.drafted inv wf device valid drafted
      exact (reconciles.drafted rfl rfl draftsEq tokens wf.distinct launched).promote _

/-- An action keeps the log true. -/
theorem Logged.acts (speculates : cfg.numSpeculativeTokens ≠ 0) {state next : LLMEngine × DraftLog}
    {action : Action} (logged : Logged cfg state) (step : DraftNext cfg state action next) :
    Logged cfg next := by
  obtain ⟨flight, inv, drafted⟩ := logged
  have unknown : ∀ launched ∈ flight, launched.1.seq ≠ state.1.scheduler.counter := by
    intro launched member
    exact Nat.ne_of_lt (inv.scheduler.launched _ (List.mem_map_of_mem member)).1
  have fresh : ∀ j ∈ state.1.scheduler.running, j ≠ state.1.scheduler.counter ∧
      j ∈ state.1.scheduler.running := by
    intro j member
    exact ⟨Nat.ne_of_lt (inv.scheduler.plays j (Or.inr (Or.inl member))).1, member⟩
  have planted : ∀ {i : SeqId} (seq : Sequence), (∀ tokenId ∈ seq.tokenIds, 0 ≤ tokenId) →
      ∀ tokenId ∈ ((state.1.scheduler.setSeq i seq).heap i).tokenIds, 0 ≤ tokenId := by
    intro i seq valid
    rw [setSeq_heap_self]
    exact valid
  cases step with
  | @add engine next log i prompt params requestId arrivalTime result added =>
      obtain ⟨_, acts, nextInv⟩ := added.acts inv
      cases acts with
      | add adds =>
          refine ⟨flight, nextInv, ?_⟩
          cases adds with
          | refuse fault => exact drafted
          | duplicate requestId hashes valid known =>
              refine drafted.change (fun j other => setSeq_heap_of_ne _ other _) fresh ?_
                fun launched member same => absurd same (unknown launched member)
              exact planted _ (tokens_of_validateRequest valid)
          | accept requestId hashes valid isQueued stored =>
              refine drafted.change (fun j other => setSeq_heap_of_ne _ other _) fresh ?_
                fun launched member same => absurd same (unknown launched member)
              exact planted _ (tokens_of_validateRequest valid)
  | @abort engine next log i requestId reason aborted ended =>
      obtain ⟨_, acts, nextInv⟩ := ended.acts inv
      cases acts with
      | abort aborts =>
          refine ⟨flight, nextInv, ?_⟩
          cases aborts with
          | missing absent => exact drafted
          | @abort i after found ends =>
              rcases ends with ⟨plays, rfl⟩ | ⟨plays, ends⟩
              · refine drafted.change (i := i) (fun j other => setSeq_heap_of_ne _ other _) ?_ ?_ ?_
                · intro j member
                  exact ⟨fun same => plays.2.1 (same ▸ member), member⟩
                · exact planted _ (drafted.tokens i)
                · intro launched member same alive
                  apply alive.1
                  rw [same]
                  exact congrArg Sequence.status (setSeq_heap_self engine.scheduler i _)
              · have frame := ends.frame
                refine drafted.change (i := i) frame.heap ?_ ?_ ?_
                · intro j member
                  have among : j ∈ engine.scheduler.running.erase i := frame.running ▸ member
                  exact (inv.scheduler.active_nodup.mem_erase_iff).mp among
                · obtain ⟨result, recordEq | recordEq⟩ := frame.record <;>
                    exact recordEq ▸ drafted.tokens i
                · intro launched member same alive
                  exact alive.1 (same ▸ frame.status)
  | @step engine next log env outputs batch stepped taken drafts batched reconciled =>
      cases taken with
      | step valid taken =>
          obtain ⟨launch, last, processed, stepEq, steps, nextInv, batchEq, reconciledEq⟩ :=
            step_reconciles inv valid
          obtain ⟨rfl, rfl⟩ := Prod.mk.inj (Except.ok.inj (stepEq.symm.trans taken))
          obtain rfl := Except.ok.inj (batchEq.symm.trans batched)
          obtain rfl := Except.ok.inj (reconciledEq.symm.trans reconciled)
          exact ⟨launch.flight env, nextInv, steps.drafted speculates inv.scheduler inv.wf
            (inv.carried.imp And.right And.right) drafts drafted⟩

theorem Logged.create (cfg : Config) : Logged cfg (create cfg, {}) := by
  refine ⟨[], create_inv cfg, ?_⟩
  have idle : ∀ i, i ∉ (LLMEngine.create cfg).scheduler.running := by
    simp [LLMEngine.create, Scheduler.create]
  refine ⟨?_, ?_, ?_, ?_, ?_, fun i member => absurd member (idle i),
    fun i member => absurd member (idle i)⟩
  · intro i tokenId member
    exact absurd member List.not_mem_nil
  · intro launched member
    exact absurd member List.not_mem_nil
  · intro i record found
    contradiction
  · intro launched member
    exact absurd member List.not_mem_nil
  · intro launched member
    exact absurd member List.not_mem_nil

/-- The log is true along every run. -/
theorem DraftRun.logged (speculates : cfg.numSpeculativeTokens ≠ 0) {actions : List Action}
    {state : LLMEngine × DraftLog} (run : DraftRun cfg actions state) : Logged cfg state := by
  exact Transition.Run.invariant (fun _ state => Logged cfg state) (.create cfg)
    (fun _ _ _ _ logged step => logged.acts speculates step) run

/-- A run with its log is a run. -/
theorem DraftRun.run {actions : List Action} {state : LLMEngine × DraftLog}
    (run : DraftRun cfg actions state) : Run cfg actions state.1 := by
  induction run with
  | nil => exact .nil
  | snoc earlier step ih =>
      refine .snoc ih ?_
      cases step with
      | add added => exact added
      | abort ended => exact ended
      | step taken drafts batched reconciled => exact taken

/-- Every run whose drafter proposes token ids has a log. -/
theorem Run.exists_log {actions : List Action} (run : Run cfg actions engine)
    (drafts : ∀ env outputs, .step env outputs ∈ actions → env.Drafts) :
    ∃ log, DraftRun cfg actions (engine, log) := by
  induction run with
  | nil => exact ⟨_, .nil⟩
  | @snoc actions middle last action before final ih =>
      obtain ⟨log, logged⟩ := ih fun env outputs member =>
        drafts env outputs (List.mem_append_left _ member)
      cases final with
      | add added => exact ⟨_, .snoc logged (.add (.add added))⟩
      | abort ended => exact ⟨_, .snoc logged (.abort (.abort ended))⟩
      | @step _ env outputs valid taken =>
          obtain ⟨flight, inv⟩ := Reachable.inv ⟨actions, before⟩
          obtain ⟨_, _, _, _, _, _, batched, reconciled⟩ := step_reconciles inv valid
          exact ⟨_, .snoc logged (.step (.step valid taken)
            (drafts env outputs (by simp)) batched reconciled)⟩

end LLMEngine

end LeanVllm
