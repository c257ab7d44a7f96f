import LeanVllm.Engine.Records

/-!
# Streams

The device is ahead of the host: behind the committed tokens of a sequence
stand the tokens its rows in flight already returned.  Both together are its
stream.  A prepared row feeds the next tokens of its stream, then its drafts.
-/

namespace LeanVllm

open Collections

namespace Flight

/-- The tokens in flight for the `k`-th life of sequence `i`. -/
def pendingTokens (flight : Flight) (i : SeqId) (k : Nat) : List Token :=
  (flight.filter fun launched => launched.1.seq = i ∧ launched.1.numPreemptions = k).flatMap
    fun launched => launched.2.tokens

variable {flight : Flight} {i : SeqId} {k : Nat}

@[simp]
theorem pendingTokens_nil (i : SeqId) (k : Nat) : pendingTokens [] i k = [] :=
  rfl

theorem pendingTokens_cons_self {row : LaunchedRow} (sample : RowSample) (flight : Flight) :
    pendingTokens ((row, sample) :: flight) row.seq row.numPreemptions =
      sample.tokens ++ flight.pendingTokens row.seq row.numPreemptions := by
  simp [pendingTokens]

theorem pendingTokens_cons_of_ne {row : LaunchedRow} (sample : RowSample) (flight : Flight)
    (other : ¬ (row.seq = i ∧ row.numPreemptions = k)) :
    pendingTokens ((row, sample) :: flight) i k = flight.pendingTokens i k := by
  simp [pendingTokens, other]

@[simp]
theorem pendingTokens_append (first second : Flight) (i : SeqId) (k : Nat) :
    pendingTokens (first ++ second) i k = first.pendingTokens i k ++ second.pendingTokens i k := by
  simp [pendingTokens]

theorem pendingTokens_eq_nil (absent : ∀ row ∈ flight.rows, row.seq = i → row.numPreemptions ≠ k) :
    flight.pendingTokens i k = [] := by
  have none : flight.filter (fun launched => launched.1.seq = i ∧ launched.1.numPreemptions = k) =
      [] := by
    rw [List.filter_eq_nil_iff]
    intro launched member own
    simp only [decide_eq_true_eq] at own
    exact absent launched.1 (List.mem_map_of_mem member) own.1 own.2
  rw [pendingTokens, none, List.flatMap_nil]

theorem pendingTokens_of_due_eq_zero (settled : due flight.rows i k = 0) :
    flight.pendingTokens i k = [] := by
  refine pendingTokens_eq_nil fun row member own same => ?_
  have reserved : 1 + row.numDraftTokens ≤ due flight.rows i k := by
    obtain ⟨before, after, rowsEq⟩ := List.append_of_mem member
    rw [rowsEq, due_append, due_cons, if_pos ⟨own, same⟩]
    omega
  omega

/-- A flight has at most one row of a sequence. -/
theorem pendingTokens_of_mem (distinct : (flight.map fun launched => launched.1.seq).Nodup)
    {row : LaunchedRow} {sample : RowSample} (member : (row, sample) ∈ flight) :
    flight.pendingTokens row.seq row.numPreemptions = sample.tokens ∧
      due flight.rows row.seq row.numPreemptions = 1 + row.numDraftTokens := by
  obtain ⟨before, after, rfl⟩ := List.append_of_mem member
  rw [List.map_append, List.map_cons, List.nodup_append', List.nodup_cons] at distinct
  obtain ⟨_, ⟨notAfter, _⟩, apart⟩ := distinct
  have first : ∀ other ∈ rows before, other.seq = row.seq →
      other.numPreemptions ≠ row.numPreemptions := by
    intro other among own
    obtain ⟨launched, earlier, rfl⟩ := List.mem_map.mp among
    exact absurd List.mem_cons_self (apart (own ▸ List.mem_map_of_mem earlier))
  have last : ∀ other ∈ rows after, other.seq = row.seq →
      other.numPreemptions ≠ row.numPreemptions := by
    intro other among own
    obtain ⟨launched, later, rfl⟩ := List.mem_map.mp among
    exact absurd (own ▸ List.mem_map_of_mem later) notAfter
  constructor
  · rw [pendingTokens_append, pendingTokens_cons_self, pendingTokens_eq_nil first,
      pendingTokens_eq_nil last]
    simp
  · rw [show rows (before ++ (row, sample) :: after) = rows before ++ row :: rows after by
        simp [rows], due_append, due_cons, due_eq_zero first, due_eq_zero last]
    simp

theorem pendingTokens_cases (distinct : (flight.map fun launched => launched.1.seq).Nodup)
    (i : SeqId) (k : Nat) :
    flight.pendingTokens i k = [] ∨ ∃ row sample, (row, sample) ∈ flight ∧ row.seq = i ∧
      row.numPreemptions = k ∧ flight.pendingTokens i k = sample.tokens := by
  by_cases none : ∀ row ∈ flight.rows, row.seq = i → row.numPreemptions ≠ k
  · exact Or.inl (pendingTokens_eq_nil none)
  · push Not at none
    obtain ⟨row, among, rfl, rfl⟩ := none
    obtain ⟨⟨row, sample⟩, member, rfl⟩ := List.mem_map.mp among
    exact Or.inr ⟨row, sample, member, rfl, rfl, (pendingTokens_of_mem distinct member).1⟩

end Flight

namespace Sequence

/-- The committed tokens of sequence `i` and those in flight. -/
def stream (seq : Sequence) (flight : Flight) (i : SeqId) : List Token :=
  seq.tokenIds ++ flight.pendingTokens i seq.numPreemptions

end Sequence

namespace RowInput

/-- A row feeds the next `width` tokens of a stream and then `drafts`, and if it
samples it reaches the end of the stream. -/
structure Feeds (stream : List Token) (width : Nat) (drafts : List Token) (input : RowInput) :
    Prop where
  within : input.start + width ≤ stream.length
  context : input.context = stream.take input.start
  inputIds : input.inputIds = (stream.drop input.start).take width ++ drafts
  numDrafts : input.numDrafts = drafts.length
  samples : input.samples = true → input.start + width = stream.length

/-- What a row continues: its context and its inputs before the drafts. -/
def continued (input : RowInput) : List Token :=
  input.context ++ input.inputIds.take (input.inputIds.length - input.numDrafts)

variable {stream drafts : List Token} {width : Nat} {input : RowInput}

theorem Feeds.drafts_eq (feeds : input.Feeds stream width drafts) : input.drafts = drafts := by
  rw [RowInput.drafts, feeds.inputIds, feeds.numDrafts, List.length_append, Nat.add_sub_cancel,
    List.drop_left]

/-- A row continues the stream up to where its tokens end. -/
theorem Feeds.continued_eq (feeds : input.Feeds stream width drafts) :
    input.continued = stream.take (input.start + width) := by
  rw [continued, feeds.inputIds, feeds.numDrafts, List.length_append, Nat.add_sub_cancel,
    List.take_left, feeds.context, List.take_add]

end RowInput

namespace ModelRunner

open RowInput

variable {cfg : Config} {runner : ModelRunner} {i : SeqId} {seq : Sequence} {flight : Flight}
  {input : RowInput}

/-- A row that starts at the last token of a stream. -/
theorem feeds_last {stream drafts : List Token} (nonempty : 0 < stream.length)
    (start : input.start = stream.length - 1) (context : input.context = stream.dropLast)
    (inputIds : input.inputIds = stream.getLast?.getD placeholderTokenId :: drafts)
    (numDrafts : input.numDrafts = drafts.length) : input.Feeds stream 1 drafts := by
  have some := List.getLast?_eq_some_getLast (List.ne_nil_of_length_pos nonempty)
  refine ⟨by omega, ?_, ?_, numDrafts, fun _ => by omega⟩
  · rw [context, start, List.dropLast_eq_take]
  · rw [inputIds, start, List.drop_length_sub_one (List.ne_nil_of_length_pos nonempty), some,
      Option.getD_some]
    rfl

/-- A prefilling row feeds its next tokens; nothing of it is in flight. -/
theorem feeds_prefill (active : seq.Active cfg (due flight.rows i seq.numPreemptions))
    (ready : seq.Ready cfg) (prefill : seq.isPrefill = true)
    (prepared : runner.prepareRow i seq = .ok input) :
    input.Feeds (seq.stream flight i) seq.numScheduledTokens [] ∧ input.seq = i ∧
      input.start = seq.numCachedTokens := by
  obtain ⟨settled, _⟩ := active.prefilling prefill
  have streamEq : seq.stream flight i = seq.tokenIds := by
    rw [Sequence.stream, Flight.pendingTokens_of_due_eq_zero (active.pending ▸ settled),
      List.append_nil]
  have within := ready.prefilling prefill
  rw [prepareRow_prefill prefill settled] at prepared
  obtain rfl := Except.ok.inj prepared
  rw [streamEq]
  refine ⟨⟨within, rfl, by simp, rfl, ?_⟩, rfl, rfl⟩
  intro samples
  have reached : seq.Samples := by simpa using samples
  simp only [Sequence.Samples, Sequence.numPlannedTokens, Sequence.numTokens] at reached within ⊢
  omega

/-- A decoding row feeds the last token of its stream and its drafts. -/
theorem feeds_decode (active : seq.Active cfg (due flight.rows i seq.numPreemptions))
    (ready : seq.Ready cfg) (wf : flight.Wf cfg)
    (device : flight = [] ∨ runner = flight.runner cfg) (decoding : seq.isPrefill = false)
    (prepared : runner.prepareRow i seq = .ok input) :
    ∃ drafts, input.Feeds (seq.stream flight i) 1 drafts ∧ input.seq = i ∧
      input.start + 1 = (seq.stream flight i).length ∧
      seq.numScheduledTokens = 1 + drafts.length := by
  have frontier := (active.decoding decoding).1
  have few := (active.decoding decoding).2
  have width := (ready.decoding decoding).1
  have prompt := active.prompt_pos.trans_le active.prompt_le
  simp only [Sequence.numPlannedTokens] at frontier
  by_cases settled : seq.numPendingTokens = 0
  · have streamEq : seq.stream flight i = seq.tokenIds := by
      rw [Sequence.stream, Flight.pendingTokens_of_due_eq_zero (active.pending ▸ settled),
        List.append_nil]
    have start : seq.numCachedTokens = seq.tokenIds.length - 1 := by
      simp only [Sequence.numTokens] at frontier
      omega
    rw [prepareRow_settled decoding settled] at prepared
    obtain rfl := Except.ok.inj prepared
    simp only [Sequence.numTokens] at prompt
    rw [streamEq]
    refine ⟨seq.specTokenIds, feeds_last prompt start rfl rfl ?_, rfl, ?_, width⟩
    · simp only [width, Nat.add_sub_cancel_left]
    · simp only [start]
      omega
  · -- the row in flight that the pending tokens stand for
    obtain ⟨row, among, rfl, lives⟩ := exists_row_of_due_ne_zero (active.pending ▸ settled)
    obtain ⟨⟨row, sample⟩, member, rfl⟩ := List.mem_map.mp among
    obtain ⟨pendingEq, dueEq⟩ := Flight.pendingTokens_of_mem wf.distinct member
    have fits := wf.fits _ member
    have short := wf.short _ member
    simp only at lives fits short
    have streamEq : seq.stream flight row.seq = seq.tokenIds ++ sample.tokens := by
      rw [Sequence.stream, ← lives, pendingEq]
    have reserved := active.pending
    rw [← lives, dueEq] at reserved
    obtain rfl := device.resolve_left (List.ne_nil_of_mem member)
    obtain ⟨before, after, rfl, first⟩ := Flight.split wf.distinct member
    rw [prepareRow_pending decoding settled first] at prepared
    obtain rfl := Except.ok.inj prepared
    have some := fits.nonempty
    have most := fits.few
    have total : (seq.tokenIds ++ sample.tokens).length =
        seq.numTokens + sample.tokens.length := by simp [Sequence.numTokens]
    have start : seq.numCachedTokens -
        (if cfg.numSpeculativeTokens = 0 then 0
          else row.numDraftTokens - (sample.tokens.length - 1)) =
        (seq.tokenIds ++ sample.tokens).length - 1 := by
      rw [total]
      split <;> omega
    have drafts : (if cfg.numSpeculativeTokens = 0 then seq.specTokenIds
        else sample.drafts.take seq.specTokenIds.length).length = seq.specTokenIds.length := by
      split
      · rfl
      · rw [List.length_take, fits.drafts, Nat.min_eq_left few]
    rw [streamEq]
    refine ⟨_, feeds_last (by omega) start rfl rfl ?_, rfl, ?_, ?_⟩
    · simp only [width, drafts, Nat.add_sub_cancel_left]
    · simp only [start]
      omega
    · rw [width, drafts]

end ModelRunner

/-! ## What a launch keeps -/

namespace Sequence

/-- A change that commits no token, and ends a request for capacity only. -/
structure Keeps (before after : Sequence) : Prop extends Evolves before after where
  same : after.tokenIds = before.tokenIds
  numNewTokens : after.numNewTokens = before.numNewTokens
  capacity : after.status = .finished → before.status = .finished ∨
    after.finishReason = some .capacity

theorem Keeps.refl (seq : Sequence) : Keeps seq seq :=
  ⟨.refl seq, rfl, rfl, Or.inl⟩

theorem Keeps.trans {first second third : Sequence} (left : Keeps first second)
    (right : Keeps second third) : Keeps first third where
  toEvolves := left.toEvolves.trans right.toEvolves
  same := right.same.trans left.same
  numNewTokens := right.numNewTokens.trans left.numNewTokens
  capacity done := by
    rcases right.capacity done with earlier | reason
    · rcases left.capacity earlier with first | reason
      · exact Or.inl first
      · exact Or.inr ((right.finished earlier).2.1.trans reason)
    · exact Or.inr reason

end Sequence

namespace Scheduler

open Sequence

variable {cfg : Config} {s last : Scheduler} {rows : List LaunchedRow} {i : SeqId}

theorem keeps_setSeq (s : Scheduler) (i : SeqId) {seq : Sequence} {j : SeqId}
    (evolves : Evolves (s.heap j) ((s.setSeq i seq).heap j))
    (same : seq.tokenIds = (s.heap i).tokenIds)
    (numNewTokens : seq.numNewTokens = (s.heap i).numNewTokens)
    (capacity : seq.status = .finished → (s.heap i).status = .finished ∨
      seq.finishReason = some .capacity) : Keeps (s.heap j) ((s.setSeq i seq).heap j) := by
  by_cases own : j = i
  · subst own
    rw [setSeq_heap_self] at evolves ⊢
    exact ⟨evolves, same, numNewTokens, capacity⟩
  · rw [setSeq_heap_of_ne s own]
    exact .refl _

theorem Move.keeps {before after : Scheduler × SchedulerOutput} (move : Move cfg before after)
    (pass : PassInv cfg before rows) (j : SeqId) : Keeps (before.1.heap j) (after.1.heap j) := by
  have evolves := move.evolves pass j
  cases move with
  | reorder => exact .refl _
  | recount => exact .refl _
  | @preempt s output i bm member idle freed =>
      exact keeps_setSeq s i evolves rfl rfl fun done => absurd done (by simp [requeued])
  | @dropRunning s output i bm member idle settled freed =>
      exact keeps_setSeq s i evolves rfl rfl fun _ => Or.inr rfl
  | @dropWaiting s output i head => exact keeps_setSeq s i evolves rfl rfl fun _ => Or.inr rfl
  | @trim s output i member idle n => exact keeps_setSeq s i evolves rfl rfl Or.inl
  | @append s output i bm fresh numLookahead member idle within fits appended =>
      exact keeps_setSeq s i evolves rfl rfl Or.inl
  | @serve s output i n member idle ready => exact keeps_setSeq s i evolves rfl rfl Or.inl
  | @beginRun s output i bm hits fresh params budget head allocates loaded ready =>
      exact keeps_setSeq s i evolves rfl rfl fun done => absurd done (by simp [started])
  | @load s output i bm hits fresh head allocates connected wants =>
      exact keeps_setSeq s i evolves rfl rfl fun done => absurd done (by simp [loading])

theorem Moves.keeps {before after : Scheduler × SchedulerOutput} (moves : Moves cfg before after)
    (pass : PassInv cfg before rows) (j : SeqId) : Keeps (before.1.heap j) (after.1.heap j) := by
  induction moves with
  | refl => exact .refl _
  | tail earlier move ih => exact ih.trans (move.keeps (Moves.passInv earlier pass) j)

theorem Releases.keeps {active : List SeqId} {finishedSending : List RequestId}
    (releases : Releases cfg active rows s finishedSending last) (j : SeqId) :
    Keeps (s.heap j) (last.heap j) := by
  induction releases with
  | nil => exact .refl _
  | skip absent others ih => exact ih
  | @release s last requestId rest i bm inv found freed next others ih =>
      have change : Evolves (s.heap i) (s.heap i).released :=
        .of_same rfl rfl (Nat.le_refl _) (Nat.le_refl _) fun done => ⟨done, rfl⟩
      exact (keeps_setSeq s i (evolves_setSeq s i change j) rfl rfl Or.inl).trans ih

theorem Receives.keeps {finishedRecving : List RequestId} {requestId : RequestId}
    (receives : Receives cfg s finishedRecving requestId last) (j : SeqId) :
    Keeps (s.heap j) (last.heap j) := by
  have evolves := receives.evolves j
  cases receives with
  | @cancelled i bm found finished freed => exact keeps_setSeq s i evolves rfl rfl Or.inl
  | @loaded i n bm found unfinished reported publishes =>
      exact keeps_setSeq s i evolves rfl rfl fun done => absurd done (by simp)
  | @failed i found unfinished reported =>
      exact keeps_setSeq s i evolves rfl rfl fun done => absurd done (by simp)

theorem ReceivesAll.keeps {finishedRecving order : List RequestId}
    (receives : ReceivesAll cfg rows finishedRecving s order last) (j : SeqId) :
    Keeps (s.heap j) (last.heap j) := by
  induction receives with
  | nil => exact .refl _
  | cons inv turn nextInv others ih => exact (turn.keeps j).trans ih

theorem Launches.reported_keeps {env : StepEnv} {runner : ModelRunner} {flight : Flight}
    {launch : Launch} (launches : s.Launches cfg env runner flight launch)
    (inv : s.Inv cfg s.running flight.rows) (j : SeqId) :
    Keeps (s.heap j) (launch.reported.heap j) := by
  refine (Moves.keeps launches.moves (inv.start []) j).trans ?_
  rcases launches.reports with ⟨_, same⟩ | ⟨_, middle, releases, receives⟩
  · rw [same]
    exact .refl _
  · exact (releases.keeps j).trans (receives.keeps j)

/-- `advance` counts tokens but commits none. -/
theorem Advances.keeps {active seqs : List SeqId} {launched : List LaunchedRow}
    (advances : Advances cfg active rows s seqs last launched) (j : SeqId) :
    Keeps (s.heap j) (last.heap j) ∧ (last.heap j).numPreemptions = (s.heap j).numPreemptions ∧
      (last.heap j).status = (s.heap j).status := by
  induction advances with
  | nil => exact ⟨.refl _, rfl, rfl⟩
  | @cons before s last i seqs rows n bm inv member ready publishes next others ih =>
      obtain ⟨keeps, lives, status⟩ := ih
      have first : ((s.renew i ((s.heap i).advanced cfg n) bm).heap j).tokenIds =
            (s.heap j).tokenIds ∧
          ((s.renew i ((s.heap i).advanced cfg n) bm).heap j).numNewTokens =
            (s.heap j).numNewTokens ∧
          ((s.renew i ((s.heap i).advanced cfg n) bm).heap j).numPreemptions =
            (s.heap j).numPreemptions ∧
          ((s.renew i ((s.heap i).advanced cfg n) bm).heap j).status = (s.heap j).status := by
        by_cases own : j = i
        · subst own
          rw [renew_heap_self]
          simp [Sequence.advanced, apply_ite]
        · rw [show (s.renew i _ bm).heap j = s.heap j from setSeq_heap_of_ne s own _]
          simp
      obtain ⟨tokens, new, lives', status'⟩ := first
      refine ⟨⟨(Advances.cons inv member ready publishes next others).evolves j,
        keeps.same.trans tokens, keeps.numNewTokens.trans new, ?_⟩,
        lives.trans lives', status.trans status'⟩
      intro done
      rw [status, status'] at done
      exact Or.inl done

/-! ## Streams along a launch -/

/-- A requeue since the launch voids the tokens in flight. -/
theorem pendingTokens_of_keeps {flight : Flight} {after : Sequence}
    (launched : ∀ row ∈ flight.rows, s.Launched s.running row) (keeps : Keeps (s.heap i) after) :
    after.numPreemptions = (s.heap i).numPreemptions ∨
      flight.pendingTokens i after.numPreemptions = [] := by
  refine keeps.numPreemptions.eq_or_lt.imp Eq.symm fun requeued => ?_
  refine Flight.pendingTokens_eq_nil fun row member own => ?_
  subst own
  exact ((launched row member).2.1.trans_lt requeued).ne

/-- Nothing else touches the stream of a sequence. -/
theorem stream_of_keeps {flight : Flight} {after : Sequence}
    (launched : ∀ row ∈ flight.rows, s.Launched s.running row) (keeps : Keeps (s.heap i) after) :
    after.stream flight i = (s.heap i).stream flight i ∨
      after.stream flight i = (s.heap i).tokenIds := by
  refine (pendingTokens_of_keeps launched keeps).imp (fun same => ?_) fun none => ?_
  · rw [stream, stream, keeps.same, same]
  · rw [stream, none, List.append_nil, keeps.same]

theorem exists_of_forall₂ {α β : Type} {relation : α → β → Prop} {first : List α}
    {second : List β} (related : List.Forall₂ relation first second) {b : β} (member : b ∈ second) :
    ∃ a ∈ first, relation a b := by
  induction related with
  | nil => exact absurd member List.not_mem_nil
  | cons head _ ih =>
      rcases List.mem_cons.mp member with rfl | later
      · exact ⟨_, List.mem_cons_self, head⟩
      · obtain ⟨a, among, holds⟩ := ih later
        exact ⟨a, List.mem_cons_of_mem _ among, holds⟩

/-- The rows of a launch feed the streams of their sequences. -/
theorem Launches.feeds {env : StepEnv} {runner : ModelRunner} {flight : Flight} {launch : Launch}
    (launches : s.Launches cfg env runner flight launch) (wf : flight.Wf cfg)
    (device : flight = [] ∨ runner = flight.runner cfg) {input : RowInput}
    (member : input ∈ launch.inputs) :
    input.seq ∈ launch.output.scheduled ∧ ∃ width drafts,
      input.Feeds ((launch.reported.heap input.seq).stream flight input.seq) width drafts ∧
      (launch.reported.heap input.seq).numScheduledTokens = width + drafts.length ∧
      ((launch.reported.heap input.seq).isPrefill = true →
        input.start = (launch.reported.heap input.seq).numCachedTokens ∧ drafts = []) ∧
      ((launch.reported.heap input.seq).isPrefill = false → width = 1 ∧
        input.start + 1 = ((launch.reported.heap input.seq).stream flight input.seq).length) := by
  obtain ⟨i, among, prepared⟩ := exists_of_forall₂ launches.prepared member
  have pass := launches.reported
  have isActive := (pass.inv.running (pass.running i among)).2.2.2
  have ready := pass.ready i among
  cases prefill : (launch.reported.heap i).isPrefill with
  | true =>
      obtain ⟨feeds, rfl, start⟩ := ModelRunner.feeds_prefill isActive ready prefill prepared
      exact ⟨among, _, [], feeds, rfl, fun _ => ⟨start, rfl⟩,
        fun decoding => absurd (prefill.symm.trans decoding) (by simp)⟩
  | false =>
      obtain ⟨drafts, feeds, rfl, start, width⟩ :=
        ModelRunner.feeds_decode isActive ready wf device prefill prepared
      exact ⟨among, 1, drafts, feeds, width,
        fun still => absurd (prefill.symm.trans still) (by simp), fun _ => ⟨rfl, start⟩⟩

/-- A launch appends to the stream of each sampling sequence what the model
answers. -/
theorem Launches.stream {env : StepEnv} {runner : ModelRunner} {flight : Flight} {launch : Launch}
    (launches : s.Launches cfg env runner flight launch) (i : SeqId) :
    ∃ more, (launch.last.heap i).stream (flight ++ launch.flight env) i =
        (launch.reported.heap i).stream flight i ++ more ∧
      (more = [] ∨ ∃ input ∈ launch.inputs, input.seq = i ∧ input.samples = true ∧
        more = (env.forward input).tokens) := by
  obtain ⟨keeps, lives, _⟩ := launches.advances.keeps i
  refine ⟨(launch.flight env).pendingTokens i (launch.reported.heap i).numPreemptions, ?_, ?_⟩
  · rw [Sequence.stream, Sequence.stream, keeps.same, lives, Flight.pendingTokens_append,
      List.append_assoc]
  · refine (Flight.pendingTokens_cases launches.wf.distinct i _).imp_right ?_
    rintro ⟨row, sample, member, own, _, tokensEq⟩
    obtain ⟨input, among, launchedEq⟩ := List.mem_map.mp member
    obtain ⟨rfl, rfl⟩ := Prod.mk.inj launchedEq
    obtain ⟨inside, samples⟩ := List.mem_filter.mp among
    exact ⟨input, inside, own, samples, tokensEq⟩

end Scheduler

end LeanVllm
