import LeanVllm.Engine.Progress
import LeanVllm.Engine.StepLimits

/-!
# Whole prompts

With chunked prefill off, a batch is meant to hold whole prompts or decoding
rows, never both.  That holds in every step that finds no running sequence
still prefilling and no waiting request with a block list of the wrong length.
Without a connector every step is such a step.
-/

namespace LeanVllm

open Collections

namespace Sequence

/-- A row that computes all that is left of its prompt. -/
def WholePrompt (seq : Sequence) : Prop :=
  seq.isPrefill = true ∧ seq.numScheduledTokens = seq.numTokens - seq.numCachedTokens ∧
    0 < seq.numScheduledTokens

/-- A row that decodes. -/
def DecodeRow (seq : Sequence) : Prop :=
  seq.isPrefill = false ∧ 0 < seq.numScheduledTokens

variable {cfg : Config} {seq : Sequence} {reserved : Nat}

theorem Ready.decodeRow (ready : seq.Ready cfg) (decoding : seq.isPrefill = false) :
    seq.DecodeRow := by
  refine ⟨decoding, ?_⟩
  rw [(ready.decoding decoding).1]
  omega

/-- A whole prompt samples, and decodes from then on. -/
theorem Active.advanced_whole (active : seq.Active cfg reserved) (whole : seq.WholePrompt)
    (n : Nat) : (seq.advanced cfg n).isPrefill = false := by
  obtain ⟨prefill, all, _⟩ := whole
  obtain ⟨settled, _, short, _⟩ := active.prefilling prefill
  have samples : seq.Samples := by
    simp only [Samples, numPlannedTokens]
    omega
  rw [Sequence.advanced, if_pos samples]

theorem advanced_decode (decoding : seq.isPrefill = false) (n : Nat) :
    (seq.advanced cfg n).isPrefill = false := by
  unfold advanced
  split
  · rfl
  · exact decoding

end Sequence

namespace Scheduler

variable {cfg : Config} {s last : Scheduler} {rows : List LaunchedRow} {i : SeqId}

/-- No running sequence is still prefilling. -/
def Decoding (s : Scheduler) : Prop :=
  ∀ i ∈ s.running, (s.heap i).isPrefill = false

/-- No waiting request asks to load a block list of the wrong length. -/
def ListsPrompts (cfg : Config) (s : Scheduler) : Prop :=
  ∀ i ∈ s.waiting, (s.heap i).wantsRemotePrefill = true → (s.heap i).listsPrompt cfg = true

/-- Every row of the batch is a whole prompt, or every row decodes. -/
def Unmixed (s : Scheduler) (output : SchedulerOutput) : Prop :=
  (∀ i ∈ output.scheduled, (s.heap i).WholePrompt) ∨
    ∀ i ∈ output.scheduled, (s.heap i).DecodeRow

/-! ## Admitting whole prompts -/

/-- What `_schedule_whole_prompts` keeps: its rows are whole prompts, and the
waiting requests list their prompts. -/
structure Intake.Whole (cfg : Config) (q : Intake) : Prop where
  rows : ∀ i ∈ q.output.scheduled, (q.sched.heap i).WholePrompt
  lists : cfg.kvTransfer.isSome → q.sched.ListsPrompts cfg

theorem Intake.Whole.turn {q q' : Intake} (whole : q.Whole cfg)
    (unchunked : cfg.enableChunkedPrefill = false)
    (pass : PassInv cfg (q.sched, q.output) rows) (turn : Admission cfg (wholeLeft cfg) q q') :
    q'.Whole cfg := by
  have others : ∀ {i rest} (seq : Sequence), q.sched.waiting = i :: rest →
      (∀ j ∈ q.output.scheduled, ((q.sched.setSeq i seq).heap j).WholePrompt) ∧
      (cfg.kvTransfer.isSome → ∀ j ∈ q.sched.waiting.erase i,
        ((q.sched.setSeq i seq).heap j).wantsRemotePrefill = true →
        ((q.sched.setSeq i seq).heap j).listsPrompt cfg = true) := by
    intro i rest seq head
    have queued : i ∈ q.sched.waiting := by
      rw [head]
      exact List.mem_cons_self
    constructor
    · intro j scheduled
      rw [setSeq_heap_of_ne]
      · exact whole.rows j scheduled
      · rintro rfl
        exact pass.not_scheduled queued scheduled
    · intro connected j waits
      rw [setSeq_heap_of_ne]
      · exact whole.lists connected j (List.mem_of_mem_erase waits)
      · rintro rfl
        exact pass.inv.waiting_nodup.not_mem_erase waits
  cases turn with
  | drop head => exact ⟨(others _ head).1, (others _ head).2⟩
  | load head fits allocates connected wants => exact ⟨(others _ head).1, (others _ head).2⟩
  | @beginRun i rest bm hits fresh params head seats fits allocates loaded mismatch ready =>
      have queued : i ∈ q.sched.waiting := by
        rw [head]
        exact List.mem_cons_self
      have isQueued := (pass.inv.queued queued).2.2.2.1
      let seq := ((q.sched.heap i).allocated cfg hits fresh).started cfg params q.budget
      refine ⟨?_, (others seq head).2⟩
      intro j scheduled
      rcases List.mem_append.mp scheduled with old | new
      · exact (others seq head).1 j old
      · rw [List.mem_singleton] at new
        subst new
        show ((q.sched.setSeq j seq).heap j).WholePrompt
        rw [setSeq_heap_self]
        -- the head loads nothing, so the budget was checked against all its tokens
        have stays : q.sched.loadsRemotely cfg j = false := by
          cases connected : cfg.kvTransfer.isSome with
          | false => simp [loadsRemotely, connected]
          | true =>
              cases wants : (q.sched.heap j).wantsRemotePrefill with
              | false => simp [loadsRemotely, wants]
              | true =>
                  have right := whole.lists connected j queued wants
                  exact absurd (right.symm.trans (mismatch connected wants)) (by simp)
        have enough : (q.sched.heap j).numTokens - hits.length * cfg.blockSize ≤ q.budget := by
          simpa [wholeLeft, wholeTokens, stays] using fits
        have short := allocates.short
        have all : seq.numScheduledTokens = seq.numTokens - seq.numCachedTokens := by
          have prefill : ((q.sched.heap j).allocated cfg hits fresh).isPrefill = true :=
            isQueued.prefill
          show ((q.sched.heap j).allocated cfg hits fresh).numToSchedule cfg q.budget =
            (q.sched.heap j).numTokens - hits.length * cfg.blockSize
          simp only [Sequence.numToSchedule, prefill, unchunked, Bool.false_eq_true, false_and,
            if_true, if_false]
          exact min_eq_left enough
        refine ⟨isQueued.prefill, all, ?_⟩
        rw [all]
        exact Nat.sub_pos_of_lt short

/-! ## Serving what decodes -/

/-- Serving sequences that decode schedules rows that decode, and with chunked
prefill off nobody else joins them. -/
theorem Mixes.decoding {dropped : List SeqId} {p : Pass} {output : SchedulerOutput}
    (mixes : Mixes cfg s dropped p last output) (inv : s.Inv cfg s.running rows)
    (unchunked : cfg.enableChunkedPrefill = false) (decoding : s.Decoding) :
    last.Decoding ∧ ∀ i ∈ output.scheduled, (last.heap i).DecodeRow := by
  obtain ⟨rfl, rfl⟩ := mixes.relaxed (Or.inl unchunked)
  have pass := Moves.passInv mixes.serving (inv.start dropped)
  have stays : Decoding { p.sched with running := p.stillRunning } := by
    intro i running
    obtain ⟨among, spec, table, n, served⟩ := mixes.served.kept (inv.apart dropped) i
      (List.mem_append_left _ running)
    have ran : i ∈ s.running :=
      (cfg.schedulingPolicy.byUrgency_perm s.heap s.running).mem_iff.mp (by simpa using among)
    show (p.sched.heap i).isPrefill = false
    rw [served]
    exact decoding i ran
  refine ⟨stays, fun i scheduled => ?_⟩
  exact (pass.ready i scheduled).decodeRow (stays i (pass.running i scheduled))

/-! ## A call -/

/-- A batch, with what it leaves running: whole prompts, or rows that decode. -/
theorem Schedules.unmixed {output : SchedulerOutput} (schedules : Schedules cfg s last output)
    (inv : s.Inv cfg s.running rows) (unchunked : cfg.enableChunkedPrefill = false)
    (decoding : s.Decoding) (lists : cfg.kvTransfer.isSome → s.ListsPrompts cfg) :
    last.Unmixed output ∧
      ∀ i ∈ last.running, i ∈ output.scheduled ∨ (last.heap i).isPrefill = false := by
  cases schedules with
  | mixed chunked => exact absurd (unchunked.symm.trans chunked) (by simp)
  | prompts whole looped admits some =>
      have frame := admits.frame inv.queues_nodup
      obtain ⟨left, turns⟩ := scheduleWholePrompts_admissions inv looped
      have kept := (turns.keep (Intake.Whole cfg)
        (fun pass turn whole => whole.turn unchunked pass turn) (inv.start [])
        ⟨by simp, lists⟩).1
      refine ⟨Or.inl kept.rows, ?_⟩
      obtain ⟨admitted, runningEq, scheduledEq⟩ := frame.running
      intro i running
      rw [runningEq] at running
      rcases List.mem_append.mp running with old | new
      · right
        rw [frame.heap i (inv.running old).1]
        exact decoding i old
      · left
        rw [scheduledEq]
        exact List.mem_append_right _ new
  | @fallback middle _ found _ p whole looped admits none mixes =>
      have start : PassInv cfg (s, {}) rows := inv.start []
      have frame := admits.frame inv.queues_nodup
      obtain ⟨more, runningEq, scheduledEq⟩ := frame.running
      obtain rfl : more = [] := by
        rw [none] at scheduledEq
        simpa using scheduledEq.symm
      rw [List.append_nil] at runningEq
      have middleDecoding : middle.Decoding := by
        intro i running
        rw [runningEq] at running
        rw [frame.heap i (inv.running running).1]
        exact decoding i running
      obtain ⟨stays, decodes⟩ :=
        mixes.decoding (Moves.passInv admits.moves start).inv unchunked middleDecoding
      exact ⟨Or.inr decodes, fun i running => Or.inr (stays i running)⟩

/-! ## Without a connector -/

theorem Decoding.setSeq (decoding : s.Decoding) (i : SeqId) {seq : Sequence}
    (own : i ∈ s.running → seq.isPrefill = false) : (s.setSeq i seq).Decoding := by
  intro j running
  by_cases same : j = i
  · subst same
    rw [setSeq_heap_self]
    exact own running
  · rw [setSeq_heap_of_ne s same]
    exact decoding j running

theorem Decoding.ends {seq : Sequence} {after : Scheduler} (decoding : s.Decoding)
    (inv : s.Inv cfg s.running rows) (ends : Ends cfg s i seq after) : after.Decoding := by
  have frame := ends.frame
  intro j running
  rw [frame.running] at running
  rw [frame.heap j]
  · exact decoding j (List.mem_of_mem_erase running)
  · rintro rfl
    exact inv.active_nodup.not_mem_erase running

/-- A launch turns the prompts it computes into sequences that decode. -/
theorem Launches.decoding {env : StepEnv} {runner : ModelRunner} {flight : Flight}
    {launch : Launch} (launches : s.Launches cfg env runner flight launch)
    (inv : s.Inv cfg s.running flight.rows) (unchunked : cfg.enableChunkedPrefill = false)
    (isolated : cfg.kvTransfer = none) (decoding : s.Decoding) : launch.last.Decoding := by
  have reported : launch.reported = launch.planned := by
    rcases launches.reports with ⟨_, same⟩ | ⟨connected, _⟩
    · exact same
    · exact absurd connected (by simp [isolated])
  obtain ⟨same, outside, inside, _⟩ := launches.advances.frame launches.reported.nodup
  rw [reported] at same outside inside
  obtain ⟨unmixed, phases⟩ := launches.schedules.unmixed inv unchunked decoding
    (by simp [isolated])
  intro i running
  rw [same] at running
  by_cases scheduled : i ∈ launch.output.scheduled
  · obtain ⟨n, record⟩ := inside i scheduled
    rw [record]
    rcases unmixed with whole | decodes
    · have active := (launches.planned.inv.running (launches.planned.running i scheduled)).2.2.2
      exact active.advanced_whole (whole i scheduled) n
    · exact Sequence.advanced_decode (decodes i scheduled).1 n
  · rw [outside i scheduled]
    exact (phases i running).resolve_left scheduled

theorem decoding_rests (unchunked : cfg.enableChunkedPrefill = false)
    (isolated : cfg.kvTransfer = none) : Rests cfg Decoding where
  launch launches inv decoding := launches.decoding inv unchunked isolated decoding
  reconcile {s _ row _ _ _ _} inv _ _ turn decoding := by
    cases turn with
    | void => exact decoding
    | commit => exact decoding.setSeq _ (decoding row.seq)
    | stop lives member split below clean cause ends => exact decoding.ends inv ends
  cancel _ _ decoding := decoding.setSeq _ (decoding _)
  ends inv _ ends decoding := decoding.ends inv ends
  forget seq inv _ _ decoding := decoding.setSeq _ fun running =>
    absurd (Or.inr (Or.inl running)) inv.not_known_counter
  enqueue inv _ _ decoding := decoding.setSeq _ fun running =>
    absurd (Or.inr (Or.inl running)) inv.not_known_counter

end Scheduler

/-- With chunked prefill off, every batch of a step that finds no running
sequence still prefilling and no waiting request with a block list of the wrong
length is whole prompts or decoding rows; without a connector that is every
step. -/
theorem whole_prompts_unmixed (cfg : Config) (unchunked : cfg.enableChunkedPrefill = false)
    (rows : List LaunchedRow) (s : Scheduler) (launchable : Launchable cfg rows s)
    (orderly : cfg.kvTransfer.isSome → s.Decoding ∧ s.ListsPrompts cfg) :
    ∃ last output, s.schedule cfg = .ok (last, output) ∧
      ((∀ i ∈ output.scheduled, (last.heap i).isPrefill = true ∧
          (last.heap i).numScheduledTokens =
            (last.heap i).numTokens - (last.heap i).numCachedTokens) ∨
        ∀ i ∈ output.scheduled, (last.heap i).isPrefill = false) ∧
      ∀ i ∈ output.scheduled, 0 < (last.heap i).numScheduledTokens := by
  have decoding : s.Decoding := by
    cases connected : cfg.kvTransfer with
    | some kv => exact (orderly (by simp [connected])).1
    | none =>
        exact (Scheduler.decoding_rests unchunked connected).launchable
          (fun i running => absurd running (by simp [Scheduler.create])) launchable
  have inv := launchable.inv
  obtain ⟨planned, plan, metadata, scheduled, schedules, _⟩ := Scheduler.schedule_result inv
  refine ⟨_, _, scheduled, ?_⟩
  rw [planned.handedOver_heap]
  obtain ⟨whole | decodes, _⟩ :=
    schedules.unmixed inv unchunked decoding fun connected => (orderly connected).2
  · exact ⟨Or.inl fun i chosen => ⟨(whole i chosen).1, (whole i chosen).2.1⟩,
      fun i chosen => (whole i chosen).2.2⟩
  · exact ⟨Or.inr fun i chosen => (decodes i chosen).1, fun i chosen => (decodes i chosen).2⟩

/-- The sample settings with chunked prefill off. -/
def Config.unchunked : Config :=
  { Config.sample with
    enableChunkedPrefill := false
    asyncScheduling := false }

/-- A queued prompt is the whole of the first batch. -/
theorem whole_prompts_unmixed_sample :
    ∃ last output, ((LLMEngine.create .unchunked).addRequest .unchunked [1, 2, 3] .sample
        (some "a") 0).1.scheduler.schedule .unchunked = .ok (last, output) ∧
      ∀ i ∈ output.scheduled, 0 < (last.heap i).numScheduledTokens := by
  have reachable := (LLMEngine.Reachable.create .unchunked).add [1, 2, 3] .sample (some "a") 0
  obtain ⟨last, output, scheduled, _, positive⟩ :=
    whole_prompts_unmixed .unchunked rfl [] _ ⟨_, reachable, rfl, rfl⟩
      fun connected => absurd connected (by decide)
  exact ⟨last, output, scheduled, positive⟩

/-! ## A mixed batch

One request decodes while another loads its prompt.  The loaded one joins the
running sequences with one token left to compute, and the next batch serves
both. -/

def Config.consumer : Config :=
  { Config.unchunked with
    numKvcacheBlocks := 8
    kvTransfer := some ⟨.kvConsumer, "localhost", 5600, "decode"⟩ }

def SamplingParams.longer : SamplingParams :=
  { SamplingParams.sample with
    maxTokens := 4
    maxTokens_pos := by decide }

def SamplingParams.remote : SamplingParams :=
  { SamplingParams.longer with
    kvTransferParams := some
      { doRemotePrefill := true
        doRemoteDecode := false
        remoteBlockIds := [0, 1]
        remoteRequestId := "b"
        remoteEngineId := "prefill"
        remoteHost := "localhost"
        remotePort := 5600
        tpSize := 1 } }

/-- The load of request "b" ended. -/
def StepEnv.loaded : StepEnv where
  forward _ := ⟨[1], []⟩
  kvOutput := { finishedRecving := ["b"] }
  recvOrder := ["b"]

namespace LLMEngine

/-- One request decodes, the other is queued. -/
def consumerQueued : LLMEngine :=
  ((((create .consumer).addRequest .consumer [1, 2, 3] .longer (some "a") 0).1.stepped .consumer
    .sample).addRequest .consumer [4, 5, 6] .remote (some "b") 1).1

theorem sample_valid_consumer (engine : LLMEngine) : StepEnv.sample.Valid .consumer engine where
  answers _ :=
    { nonempty := Nat.le_refl 1
      few := Nat.le_add_right 1 _
      valid := by simp [StepEnv.sample]
      drafts := rfl }
  reports _ _ _ _ _ _ := ⟨List.nodup_nil, by simp [StepEnv.sample], by simp [StepEnv.sample]⟩

theorem consumerQueued_reachable : Reachable .consumer consumerQueued :=
  (((Reachable.create .consumer).add [1, 2, 3] .longer (some "a") 0).step
    (sample_valid_consumer _)).add [4, 5, 6] .remote (some "b") 1

theorem loaded_valid : StepEnv.loaded.Valid .consumer consumerQueued where
  answers _ :=
    { nonempty := Nat.le_refl 1
      few := Nat.le_add_right 1 _
      valid := by simp [StepEnv.loaded]
      drafts := rfl }
  reports point s output pointEq scheduled _ := by
    have loading : (consumerQueued.launchPoint .consumer >>= fun point =>
        (point.schedule .consumer).map fun result => decide ("b" ∈ result.1.recving)) =
          .ok true := by decide +kernel
    simp only [pointEq, scheduled, bind, Except.bind, Except.map, Except.ok.injEq,
      decide_eq_true_eq] at loading
    refine ⟨by simp [StepEnv.loaded], by simp [StepEnv.loaded], ?_⟩
    intro requestId reported
    rw [List.mem_singleton.mp reported]
    exact loading

/-- The other has loaded. -/
def consumerLoaded : LLMEngine :=
  consumerQueued.stepped .consumer .loaded

theorem consumerLoaded_reachable : Reachable .consumer consumerLoaded :=
  consumerQueued_reachable.step loaded_valid

end LLMEngine

/-- The batch holds a decoding row and a prefilling one. -/
theorem whole_prompts_mixed :
    ∃ rows s last output, Launchable .consumer rows s ∧
      Config.consumer.enableChunkedPrefill = false ∧
      s.schedule .consumer = .ok (last, output) ∧
      0 ∈ output.scheduled ∧ (last.heap 0).isPrefill = false ∧
      1 ∈ output.scheduled ∧ (last.heap 1).isPrefill = true := by
  have mixed : (LLMEngine.consumerLoaded.launchPoint .consumer >>= fun point =>
      (point.schedule .consumer).map fun result =>
        decide (0 ∈ result.2.scheduled ∧ (result.1.heap 0).isPrefill = false ∧
          1 ∈ result.2.scheduled ∧ (result.1.heap 1).isPrefill = true)) = .ok true := by
    decide +kernel
  cases found : LLMEngine.consumerLoaded.launchPoint .consumer with
  | error fault => simp [found, bind, Except.bind] at mixed
  | ok s =>
      simp only [found, bind, Except.bind] at mixed
      cases scheduled : s.schedule .consumer with
      | error fault => simp [scheduled, Except.map] at mixed
      | ok result =>
          simp only [scheduled, Except.map, Except.ok.injEq, decide_eq_true_eq] at mixed
          exact ⟨_, s, result.1, result.2,
            ⟨_, LLMEngine.consumerLoaded_reachable, found, rfl⟩, rfl, scheduled, mixed⟩

end LeanVllm
