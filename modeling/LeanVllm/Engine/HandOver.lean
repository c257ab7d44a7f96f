import LeanVllm.Engine.Finalization

/-!
# Announced hand-overs

A finished request of a prefill instance may keep its blocks in `sending` for a
decode instance to read.  A client learns where they are from the request's
finished output.  Requests that end in `reconcile` are all announced that way.
An abort returns no output, and holds the blocks all the same when its reason is
one that `request_finished` takes for a hand-over.
-/

namespace LeanVllm

open Collections

/-- `bool(params and params.get("do_remote_decode"))`. -/
def Sequence.wantsRemoteDecode (seq : Sequence) : Bool :=
  match seq.kvTransferParams with
  | none => false
  | some params => params.doRemoteDecode

/-- The finish reasons that hand over. -/
def FinishReason.HandsOver (reason : FinishReason) : Prop :=
  reason = .length ∨ reason = .stop

theorem NixlConnectorScheduler.requestFinished_hold_iff (cfg : Config) (kv : KVTransferConfig)
    (connector : NixlConnectorScheduler) (seq : Sequence) :
    (connector.requestFinished cfg kv seq).2.1 = true ↔
      seq.wantsRemoteDecode = true ∧ ∃ reason, seq.finishReason = some reason ∧
        reason.HandsOver := by
  have reasons : (∃ reason, seq.finishReason = some reason ∧ reason.HandsOver) ↔
      seq.finishReason = some .length ∨ seq.finishReason = some .stop := by
    constructor
    · rintro ⟨reason, found, rfl | rfl⟩
      · exact Or.inl found
      · exact Or.inr found
    · rintro (found | found)
      · exact ⟨.length, found, Or.inl rfl⟩
      · exact ⟨.stop, found, Or.inr rfl⟩
  rw [reasons]
  unfold requestFinished Sequence.wantsRemoteDecode
  cases seq.kvTransferParams with
  | none => simp
  | some params =>
      by_cases hands : params.doRemoteDecode = true ∧
          (seq.finishReason = some .length ∨ seq.finishReason = some .stop)
      · simp [hands]
      · simp [hands]

/-- What a held request announces: its own id, and its prompt's blocks. -/
theorem NixlConnectorScheduler.requestFinished_result {cfg : Config} {kv : KVTransferConfig}
    {connector after : NixlConnectorScheduler} {seq : Sequence}
    {result : Option KVTransferParams}
    (finished : connector.requestFinished cfg kv seq = (after, true, result)) :
    ∃ params, result = some params ∧ params.remoteRequestId = seq.requestId ∧
      params.remoteBlockIds =
        (seq.blockTable.take (cdiv seq.numPromptTokens cfg.blockSize)).map Int.ofNat := by
  unfold requestFinished at finished
  split at finished
  · simp at finished
  · split at finished
    · exact ⟨_, (congrArg (fun finished => finished.2.2) finished).symm, rfl, rfl⟩
    · simp at finished

namespace Scheduler

variable {cfg : Config} {s middle last : Scheduler} {rows : List LaunchedRow} {i : SeqId}

/-- Sequence `i` has its whole prompt computed, and `params` names the blocks its
prompt fills. -/
structure HandsOver (cfg : Config) (s : Scheduler) (i : SeqId) (params : KVTransferParams) :
    Prop where
  result : (s.heap i).kvTransferResult = some params
  named : params.remoteRequestId = (s.heap i).requestId
  blocks : params.remoteBlockIds =
    ((s.heap i).blockTable.take (cdiv (s.heap i).numPromptTokens cfg.blockSize)).map Int.ofNat
  covered : cdiv (s.heap i).numPromptTokens cfg.blockSize ≤ (s.heap i).blockTable.length
  computed : (s.heap i).numPromptTokens ≤ (s.heap i).numCachedTokens

/-! ## Launching holds nothing more -/

/-- From `s` to `last` nothing more is held, and what a finished record announces
stays. -/
structure HoldsNoMore (s last : Scheduler) : Prop where
  held : ∀ i ∈ last.sending.values, i ∈ s.sending.values ∧ last.heap i = s.heap i
  result : ∀ i, (s.heap i).status = .finished → (last.heap i).status = .finished ∧
    (last.heap i).kvTransferResult = (s.heap i).kvTransferResult

theorem HoldsNoMore.refl (s : Scheduler) : HoldsNoMore s s :=
  ⟨fun _ held => ⟨held, rfl⟩, fun _ finished => ⟨finished, rfl⟩⟩

theorem HoldsNoMore.trans (left : HoldsNoMore s middle) (right : HoldsNoMore middle last) :
    HoldsNoMore s last where
  held i held := by
    obtain ⟨before, same⟩ := right.held i held
    obtain ⟨first, same'⟩ := left.held i before
    exact ⟨first, same.trans same'⟩
  result i finished := by
    obtain ⟨still, same⟩ := left.result i finished
    obtain ⟨still', same'⟩ := right.result i still
    exact ⟨still', same'.trans same⟩

/-- Changing one record that is not held. -/
theorem HoldsNoMore.of_others (held : ∀ j ∈ last.sending.values, j ∈ s.sending.values ∧ j ≠ i)
    (own : (s.heap i).status = .finished → (last.heap i).status = .finished ∧
      (last.heap i).kvTransferResult = (s.heap i).kvTransferResult)
    (others : ∀ j, j ≠ i → last.heap j = s.heap j) : HoldsNoMore s last where
  held j member := ⟨(held j member).1, others j (held j member).2⟩
  result j finished := by
    by_cases same : j = i
    · subst same
      exact own finished
    · rw [others j same]
      exact ⟨finished, rfl⟩

theorem Roster.ne_of_held {active : List SeqId} (inv : s.Roster cfg active rows) {j : SeqId}
    (held : j ∈ s.sending.values) (absent : s.sending.lookup (s.heap i).requestId = none) :
    j ≠ i := by
  rintro rfl
  obtain ⟨requestId, found⟩ := Dict.mem_values_iff.mp held
  rw [← (inv.sending found).1] at found
  exact absurd (absent.symm.trans found) (by simp)

/-- Changing the record of a running sequence. -/
theorem Inv.holdsNoMore_running {active : List SeqId} (inv : s.Inv cfg active rows)
    (member : i ∈ active) (sendingEq : last.sending = s.sending)
    (others : ∀ j, j ≠ i → last.heap j = s.heap j) : HoldsNoMore s last := by
  have plays := inv.running member
  refine .of_others (fun j held => ?_)
    (fun finished => absurd finished plays.2.2.2.unfinished_status) others
  rw [sendingEq] at held
  exact ⟨held, inv.ne_of_held held plays.2.2.1.2.2⟩

/-- Changing the record of a waiting sequence. -/
theorem Inv.holdsNoMore_waiting {active : List SeqId} (inv : s.Inv cfg active rows)
    (member : i ∈ s.waiting) (sendingEq : last.sending = s.sending)
    (others : ∀ j, j ≠ i → last.heap j = s.heap j) : HoldsNoMore s last := by
  have plays := inv.queued member
  refine .of_others (fun j held => ?_)
    (fun finished => absurd finished plays.2.2.2.1.unfinished_status) others
  rw [sendingEq] at held
  exact ⟨held, inv.ne_of_held held plays.2.2.1.2.2⟩

theorem Move.holdsNoMore {before after : Scheduler × SchedulerOutput}
    (move : Move cfg before after) (pass : PassInv cfg before rows) :
    HoldsNoMore before.1 after.1 := by
  cases move with
  | reorder reordered => exact ⟨fun _ held => ⟨held, rfl⟩, fun _ finished => ⟨finished, rfl⟩⟩
  | recount => exact .refl _
  | preempt member idle freed =>
      exact pass.inv.holdsNoMore_running member rfl fun _ different => setSeq_heap_of_ne _ different _
  | dropRunning member idle settled freed =>
      exact pass.inv.holdsNoMore_running member rfl fun _ different => setSeq_heap_of_ne _ different _
  | trim member idle n =>
      exact pass.inv.holdsNoMore_running member rfl fun _ different => setSeq_heap_of_ne _ different _
  | append member idle within fits appended =>
      exact pass.inv.holdsNoMore_running member rfl fun _ different => setSeq_heap_of_ne _ different _
  | serve member idle ready =>
      exact pass.inv.holdsNoMore_running member rfl fun _ different => setSeq_heap_of_ne _ different _
  | dropWaiting head =>
      exact pass.inv.holdsNoMore_waiting (List.mem_of_mem_head? head) rfl
        fun _ different => setSeq_heap_of_ne _ different _
  | beginRun head allocates loaded ready =>
      exact pass.inv.holdsNoMore_waiting (List.mem_of_mem_head? head) rfl
        fun _ different => setSeq_heap_of_ne _ different _
  | load head allocates connected wants =>
      exact pass.inv.holdsNoMore_waiting (List.mem_of_mem_head? head) rfl
        fun _ different => setSeq_heap_of_ne _ different _

theorem Moves.holdsNoMore {before after : Scheduler × SchedulerOutput}
    (moves : Moves cfg before after) (pass : PassInv cfg before rows) :
    HoldsNoMore before.1 after.1 := by
  induction moves with
  | refl => exact .refl _
  | tail earlier move ih => exact ih.trans (move.holdsNoMore (Moves.passInv earlier pass))

theorem Releases.holdsNoMore {active : List SeqId} {finishedSending : List RequestId}
    (releases : Releases cfg active rows s finishedSending last) : HoldsNoMore s last := by
  induction releases with
  | nil => exact .refl _
  | skip absent others ih => exact ih
  | @release s last requestId rest i bm inv found freed next others ih =>
      refine HoldsNoMore.trans ?_ ih
      refine .of_others (i := i) ?_ ?_ fun j different => setSeq_heap_of_ne s different _
      · -- the others are held under other ids
        intro j held
        refine ⟨Dict.mem_of_mem_values_erase held, ?_⟩
        rintro rfl
        obtain ⟨other, stored⟩ := Dict.mem_values_iff.mp held
        simp only [endHold, Dict.lookup_erase_eq] at stored
        split at stored
        · contradiction
        · rename_i different
          exact different (inv.sending stored).1.symm
      · intro finished
        have record : (s.endHold i (s.heap i).released bm).heap i = (s.heap i).released :=
          setSeq_heap_self s i _
        rw [record]
        exact ⟨finished, rfl⟩

theorem ReceivesAll.holdsNoMore {finishedRecving order : List RequestId}
    (receives : ReceivesAll cfg rows finishedRecving s order last) : HoldsNoMore s last := by
  induction receives with
  | nil => exact .refl _
  | @cons s next last requestId order inv turn nextInv others ih =>
      refine HoldsNoMore.trans ?_ ih
      have apart : ∀ {i}, s.recving.lookup requestId = some i → ∀ j ∈ s.sending.values,
          j ∈ s.sending.values ∧ j ≠ i := by
        intro i found j held
        refine ⟨held, inv.ne_of_held held ?_⟩
        rcases (inv.recving found).2 with plays | plays
        · exact plays.2.2.1.2.2
        · exact plays.2.2.1.2.2
      cases turn with
      | @cancelled i bm found finished freed =>
          refine .of_others (apart found) (fun done => ?_)
            fun j different => setSeq_heap_of_ne s different _
          have record : (s.endLoad i (s.heap i).released bm s.running).heap i =
              (s.heap i).released := setSeq_heap_self s i _
          rw [record]
          exact ⟨done, rfl⟩
      | @loaded i n bm found unfinished reported publishes =>
          exact .of_others (apart found) (fun done => absurd done (by simp [unfinished]))
            fun j different => setSeq_heap_of_ne s different _
      | @failed i found unfinished reported =>
          exact .of_others (apart found) (fun done => absurd done (by simp [unfinished]))
            fun j different => setSeq_heap_of_ne s different _

theorem Advances.holdsNoMore {active seqs : List SeqId} {launched : List LaunchedRow}
    (advances : Advances cfg active rows s seqs last launched) : HoldsNoMore s last := by
  induction advances with
  | nil => exact .refl _
  | cons inv member ready publishes next others ih =>
      refine HoldsNoMore.trans ?_ ih
      exact inv.holdsNoMore_running member rfl fun _ different => setSeq_heap_of_ne _ different _

theorem Launches.holdsNoMore {env : StepEnv} {runner : ModelRunner} {flight : Flight}
    {launch : Launch} (launches : s.Launches cfg env runner flight launch)
    (inv : s.Inv cfg s.running flight.rows) : HoldsNoMore s launch.last := by
  have planned : HoldsNoMore s launch.planned := Moves.holdsNoMore launches.moves (inv.start [])
  have reported : HoldsNoMore launch.planned launch.reported := by
    rcases launches.reports with ⟨_, same⟩ | ⟨_, middle, releases, receives⟩
    · rw [same]
      exact .refl _
    · have handed : HoldsNoMore launch.planned { launch.planned with connector := {} } :=
        ⟨fun _ held => ⟨held, rfl⟩, fun _ finished => ⟨finished, rfl⟩⟩
      exact handed.trans (releases.holdsNoMore.trans receives.holdsNoMore)
  exact planned.trans (reported.trans launches.advances.holdsNoMore)

/-! ## Reconciling announces what it holds -/

/-- The table covers a computed prompt. -/
theorem cdiv_le_of_le_mul {n size length : Nat} (positive : 0 < size)
    (covered : n ≤ length * size) : cdiv n size ≤ length := by
  have shifted : n + size - 1 < (length + 1) * size := by
    rw [Nat.add_one_mul]
    omega
  exact Nat.le_of_lt_succ (Nat.div_lt_of_lt_mul (by rwa [Nat.mul_comm] at shifted))

/-- A sequence held by one turn of `reconcile` was held before, or its row is
processed and it hands over. -/
theorem Reconciles.handsOver {row : LaunchedRow} {tokens : List Token}
    {drafts : Option (List (List Token))} {after : Scheduler} {processed : Bool}
    (turn : Reconciles cfg s row tokens drafts after processed)
    (inv : s.Inv cfg s.running (row :: rows)) (held : i ∈ after.sending.values) :
    i ∈ s.sending.values ∧ after.heap i = s.heap i ∨
      processed = true ∧ i = row.seq ∧ ∃ params, HandsOver cfg after i params := by
  -- a held sequence is not the row's, which runs
  have apart : i ∈ s.sending.values → row.seq ∈ s.running → i ≠ row.seq := by
    rintro held running rfl
    obtain ⟨requestId, found⟩ := Dict.mem_values_iff.mp held
    exact (inv.sending found).2.2.1 running
  cases turn with
  | void => exact Or.inl ⟨held, rfl⟩
  | commit lives member =>
      exact Or.inl ⟨held, setSeq_heap_of_ne s (apart held member) _⟩
  | @stop hashes earlier dropped final why after lives member split below clean cause ends =>
      have isActive := (inv.running member).2.2.2
      have pending := (inv.valid isActive.unfinished_status lives).2.2
      have decoding := (inv.valid isActive.unfinished_status lives).2.1
      have frontier := (isActive.decoding decoding).1
      have prompt := isActive.prompt_le
      have covered := isActive.covered
      cases ends with
      | release bm result freed unheld =>
          exact Or.inl ⟨held, setSeq_heap_of_ne s (apart held member) _⟩
      | hold kv connector result connected finished =>
          have members : i ∈ row.seq :: Dict.values (s.sending.erase (s.heap row.seq).requestId) := by
            rw [← Dict.values_insert]
            exact held
          rcases List.mem_cons.mp members with rfl | old
          · refine Or.inr ⟨rfl, rfl, ?_⟩
            obtain ⟨params, rfl, named, blocks⟩ :=
              NixlConnectorScheduler.requestFinished_result finished
            have record := setSeq_heap_self s row.seq
              { ((s.heap row.seq).committed (row.numDraftTokens - (tokens.length - 1))
                (earlier ++ [final]) hashes).closed why with kvTransferResult := some params }
            have computed : (s.heap row.seq).numPromptTokens ≤
                (s.heap row.seq).numCachedTokens - (row.numDraftTokens - (tokens.length - 1)) := by
              simp only [Sequence.numPlannedTokens] at frontier
              omega
            refine ⟨params, ?_⟩
            constructor
            · exact congrArg Sequence.kvTransferResult record
            · exact named.trans (congrArg Sequence.requestId record).symm
            · show params.remoteBlockIds = List.map Int.ofNat
                (((s.setSeq row.seq _).heap row.seq).blockTable.take
                  (cdiv ((s.setSeq row.seq _).heap row.seq).numPromptTokens cfg.blockSize))
              rw [setSeq_heap_self]
              exact blocks
            · show cdiv ((s.setSeq row.seq _).heap row.seq).numPromptTokens cfg.blockSize ≤
                ((s.setSeq row.seq _).heap row.seq).blockTable.length
              rw [setSeq_heap_self]
              exact cdiv_le_of_le_mul cfg.blockSize_pos
                ((computed.trans (Nat.sub_le _ _)).trans covered)
            · show ((s.setSeq row.seq _).heap row.seq).numPromptTokens ≤
                ((s.setSeq row.seq _).heap row.seq).numCachedTokens
              rw [setSeq_heap_self]
              exact computed
          · have old := Dict.mem_of_mem_values_erase old
            exact Or.inl ⟨old, setSeq_heap_of_ne s (apart old member) _⟩

theorem HandsOver.congr {params : KVTransferParams} (hands : HandsOver cfg s i params)
    (same : last.heap i = s.heap i) : HandsOver cfg last i params := by
  constructor
  · rw [same]
    exact hands.result
  · rw [same]
    exact hands.named
  · rw [same]
    exact hands.blocks
  · rw [same]
    exact hands.covered
  · rw [same]
    exact hands.computed

/-- What `reconcile` leaves held was held before, or was processed and hands
over. -/
theorem ReconcilesAll.handsOver {later step : List LaunchedRow} {tokenIds : List (List Token)}
    {drafts : Option (List (List Token))} {stepped : List SeqId}
    (reconciles : ReconcilesAll cfg later s step tokenIds drafts last stepped)
    (held : i ∈ last.sending.values) :
    i ∈ s.sending.values ∧ last.heap i = s.heap i ∨
      i ∈ stepped ∧ ∃ params, HandsOver cfg last i params := by
  induction reconciles with
  | nil => exact Or.inl ⟨held, rfl⟩
  | @cons s next last row step tokens tokenIds drafts processed stepped inv answer turn nextInv
      others ih =>
      rcases ih held with ⟨early, same⟩ | ⟨late, hands⟩
      · rcases turn.handsOver inv early with ⟨before, same'⟩ | ⟨rfl, rfl, params, hands⟩
        · exact Or.inl ⟨before, same.trans same'⟩
        · exact Or.inr ⟨List.mem_cons_self, params, hands.congr same⟩
      · refine Or.inr ⟨?_, hands⟩
        split
        · exact List.mem_cons_of_mem _ late
        · exact late

end Scheduler

namespace LLMEngine

variable {cfg : Config} {engine next : LLMEngine} {flight : Flight} {action : Action}
  {i : SeqId}

/-- The scheduler states an action shows: the one it ends in, and the one a
step's launch finds. -/
inductive Shows (cfg : Config) (engine : LLMEngine) : Action → LLMEngine → Scheduler → Prop
  | last {action : Action} {next : LLMEngine} : Shows cfg engine action next next.scheduler
  | launching {env : StepEnv} {outputs : List (SeqId × RequestOutput)} {next : LLMEngine}
      {s : Scheduler} (point : engine.launchPoint cfg = .ok s) :
      Shows cfg engine (.step env outputs) next s

/-- A step that makes a request held returns a finished output of it, with the
parameters that hand it over. -/
theorem Next.hands_over {env : StepEnv} {outputs : List (SeqId × RequestOutput)}
    (step : Next cfg engine (.step env outputs) next) (inv : engine.Inv cfg flight)
    {s : Scheduler} (shown : Shows cfg engine (.step env outputs) next s)
    (held : i ∈ s.sending.values) (new : i ∉ engine.scheduler.sending.values) :
    ∃ params output, s.HandsOver cfg i params ∧ (i, output) ∈ outputs ∧
      output.finished = true ∧ output.kvTransferParams = some params := by
  cases step with
  | step valid taken =>
      obtain ⟨launch, last, stepped, stepEq, steps, nextInv, _, _, stages⟩ := step_stages inv valid
      obtain ⟨rfl, rfl⟩ := Prod.mk.inj (Except.ok.inj (stepEq.symm.trans taken))
      -- a processed record that is finished at the end is the last output's
      have announce : ∀ params, s.HandsOver cfg i params → i ∈ stepped →
          (last.heap i).status = .finished →
          (last.heap i).kvTransferResult = (s.heap i).kvTransferResult →
          ∃ params output, s.HandsOver cfg i params ∧
            (i, output) ∈ LLMEngine.outputs last stepped launch.output.dropped ∧
            output.finished = true ∧ output.kvTransferParams = some params := by
        intro params hands processed finished same
        refine ⟨params, output last i, hands, ?_, ?_, same.trans hands.result⟩
        · exact List.mem_append_left _ (List.mem_map_of_mem processed)
        · simp [output, Sequence.isFinished, finished]
      cases mode : cfg.asyncScheduling with
      | true =>
          cases steps with
          | sync sync => exact absurd (sync.symm.trans mode) (by simp)
          | async _ launches reconciles =>
              have quiet := launches.holdsNoMore inv.scheduler
              cases shown with
              | launching point =>
                  simp only [launchPoint, mode, if_true, Except.ok.injEq] at point
                  exact absurd (point ▸ held) new
              | last =>
                  have held : i ∈ last.sending.values := held
                  rcases reconciles.handsOver held with ⟨early, _⟩ | ⟨processed, params, hands⟩
                  · exact absurd (quiet.held i early).1 new
                  · obtain ⟨requestId, found⟩ := Dict.mem_values_iff.mp held
                    exact announce params hands processed
                      (nextInv.scheduler.sending found).2.2.2.2 rfl
      | false =>
          obtain ⟨point, pointEq, reconciles, settled, launches, rfl⟩ := stages mode
          have quiet := launches.holdsNoMore settled
          obtain ⟨early, same⟩ : i ∈ point.sending.values ∧ s.heap i = point.heap i := by
            cases shown with
            | launching point' =>
                obtain rfl := Except.ok.inj (pointEq.symm.trans point')
                exact ⟨held, rfl⟩
            | last => exact quiet.held i held
          rcases reconciles.handsOver early with ⟨before, _⟩ | ⟨processed, params, hands⟩
          · exact absurd before new
          · obtain ⟨requestId, found⟩ := Dict.mem_values_iff.mp early
            obtain ⟨finished, kept⟩ := quiet.result i (settled.sending found).2.2.2.2
            refine announce params (hands.congr same) processed finished ?_
            rw [kept, same]

/-! ## Aborts -/

/-- The action is an abort that hands over: of a request that asked for a remote
decode, whose blocks are not loading, for a reason that counts as a finish. -/
def StopsHandOver (cfg : Config) (engine : LLMEngine) : Action → Prop
  | .abort (some i) _ reason _ => cfg.kvTransfer.isSome ∧ reason.HandsOver ∧
      (engine.scheduler.heap i).wantsRemoteDecode = true ∧
      (engine.scheduler.heap i).status ≠ .waitingForRemoteKvs
  | _ => False

/-- An abort makes a request held exactly when it hands over. -/
theorem Aborts.holds_iff {requestId : RequestId} {reason : FinishReason} {aborted : Bool}
    (aborts : Aborts cfg engine flight requestId reason next aborted)
    (inv : engine.Inv cfg flight) :
    (∃ i ∈ next.scheduler.sending.values, i ∉ engine.scheduler.sending.values) ↔
      StopsHandOver cfg engine
        (.abort (engine.scheduler.seqs.lookup requestId) requestId reason aborted) := by
  cases aborts with
  | missing absent =>
      rw [absent]
      constructor
      · rintro ⟨i, held, new⟩
        exact new held
      · exact False.elim
  | @abort i after found ends =>
      rw [found]
      rcases ends with ⟨plays, rfl⟩ | ⟨plays, ends⟩
      · constructor
        · rintro ⟨j, held, new⟩
          exact absurd held new
        · rintro ⟨_, _, _, open'⟩
          exact absurd plays.2.2.2.1 open'
      · have settled : (engine.scheduler.heap i).status ≠ .waitingForRemoteKvs := by
          rcases plays with plays | plays
          · simp [plays.2.2.2.1.status]
          · simp [plays.2.2.2.status]
        have absent : engine.scheduler.sending.lookup (engine.scheduler.heap i).requestId =
            none := by
          rcases plays with plays | plays
          · exact plays.2.2.1.2.2
          · exact plays.2.2.1.2.2
        have holds : ∀ kv, (engine.scheduler.connector.requestFinished cfg kv
            ((engine.scheduler.heap i).closed reason)).2.1 = true ↔
              (engine.scheduler.heap i).wantsRemoteDecode = true ∧ reason.HandsOver := by
          intro kv
          rw [NixlConnectorScheduler.requestFinished_hold_iff]
          constructor
          · rintro ⟨wants, other, reasonEq, hands⟩
            exact ⟨wants, Option.some.inj reasonEq ▸ hands⟩
          · rintro ⟨wants, hands⟩
            exact ⟨wants, reason, rfl, hands⟩
        cases ends with
        | release bm result freed unheld =>
            constructor
            · rintro ⟨j, held, new⟩
              exact absurd held new
            · rintro ⟨connected, hands, wants, _⟩
              obtain ⟨kv, kvEq⟩ := Option.isSome_iff_exists.mp connected
              have unheld := unheld kv kvEq
              rw [(holds kv).mpr ⟨wants, hands⟩] at unheld
              contradiction
        | hold kv connector result connected finished =>
            have held := (holds kv).mp (by rw [finished])
            constructor
            · intro _
              exact ⟨by simp [connected], held.2, held.1, settled⟩
            · intro _
              refine ⟨i, List.mem_cons_self, fun before => ?_⟩
              exact inv.scheduler.ne_of_held before absent rfl

/-- What an abort makes held is the request it ends. -/
theorem Aborts.held_eq {requestId : RequestId} {reason : FinishReason} {aborted : Bool}
    (aborts : Aborts cfg engine flight requestId reason next aborted)
    (held : i ∈ next.scheduler.sending.values) (new : i ∉ engine.scheduler.sending.values) :
    engine.scheduler.seqs.lookup requestId = some i ∧ aborted = true := by
  cases aborts with
  | missing absent => exact absurd held new
  | @abort j after found ends =>
      refine ⟨?_, rfl⟩
      rcases ends with ⟨plays, rfl⟩ | ⟨plays, ends⟩
      · exact absurd held new
      · cases ends with
        | release bm result freed unheld => exact absurd held new
        | hold kv connector result connected finished =>
            have members : i ∈ j :: Dict.values
                (engine.scheduler.sending.erase (engine.scheduler.heap j).requestId) := by
              rw [← Dict.values_insert]
              exact held
            rcases List.mem_cons.mp members with rfl | old
            · exact found
            · exact absurd (Dict.mem_of_mem_values_erase old) new

/-- Adding a request holds nothing. -/
theorem Adds.sending_eq {prompt : List Token} {params : SamplingParams} {arrivalTime : Nat}
    {result : Except Fault RequestId}
    (adds : Adds cfg engine prompt params arrivalTime next result) :
    next.scheduler.sending = engine.scheduler.sending := by
  cases adds <;> rfl

/-! ## Runs -/

/-- The finished outputs an action returns for `i`. -/
def Action.finishedOutputs (i : SeqId) : Action → List RequestOutput
  | .step _ outputs =>
      (outputs.filter fun output => output.1 = i ∧ output.2.finished = true).map Prod.snd
  | _ => []

theorem Action.length_finishedOutputs_le (i : SeqId) (action : Action) :
    (action.finishedOutputs i).length ≤ action.ends.count i := by
  cases action with
  | add => exact Nat.zero_le _
  | abort => exact Nat.zero_le _
  | step env outputs =>
      rw [finishedOutputs, List.length_map, ← List.countP_eq_length_filter, ends, finishedIn,
        List.count_eq_countP, List.countP_map, List.countP_filter]
      exact (List.countP_congr fun output _ => by simp).le

theorem Action.length_flatMap_finishedOutputs_le (i : SeqId) (actions : List Action) :
    (actions.flatMap (Action.finishedOutputs i)).length ≤
      (actions.flatMap Action.ends).count i := by
  induction actions with
  | nil => exact Nat.le_refl 0
  | cons action actions ih =>
      rw [List.flatMap_cons, List.flatMap_cons, List.length_append, List.count_append]
      exact Nat.add_le_add (action.length_finishedOutputs_le i) ih

/-- One of the actions' finished outputs for an admission is the only one. -/
theorem Accounted.finishedOutputs_eq {actions : List Action} (account : Accounted actions engine)
    {output : RequestOutput} (member : output ∈ actions.flatMap (Action.finishedOutputs i)) :
    actions.flatMap (Action.finishedOutputs i) = [output] := by
  have nodup := (List.nodup_append'.mp (account.balance.nodup_iff.mp account.admitted)).1
  have few : (actions.flatMap (Action.finishedOutputs i)).length ≤ 1 := by
    calc (actions.flatMap (Action.finishedOutputs i)).length
        ≤ (actions.flatMap Action.ends).count i :=
          Action.length_flatMap_finishedOutputs_le i actions
      _ ≤ 1 := List.nodup_iff_count_le_one.mp nodup i
  obtain ⟨rest, split⟩ : ∃ rest, actions.flatMap (Action.finishedOutputs i) = output :: rest := by
    cases outputs : actions.flatMap (Action.finishedOutputs i) with
    | nil => simp [outputs] at member
    | cons first rest =>
        rw [outputs, List.length_cons] at few
        have none : rest = [] := List.length_eq_zero_iff.mp (by omega)
        rw [outputs, none, List.mem_singleton] at member
        exact ⟨rest, by rw [member]⟩
  rw [split, List.length_cons] at few
  rw [split, List.length_eq_zero_iff.mp (by omega : rest.length = 0)]

/-- An admission that an abort ends has no finished output. -/
theorem Accounted.finishedOutputs_eq_nil {actions : List Action}
    (account : Accounted actions engine) {requestId : RequestId} {reason : FinishReason}
    (aborted : .abort (some i) requestId reason true ∈ actions) :
    actions.flatMap (Action.finishedOutputs i) = [] := by
  have nodup := (List.nodup_append'.mp (account.balance.nodup_iff.mp account.admitted)).1
  have once := List.nodup_iff_count_le_one.mp nodup i
  obtain ⟨before, after, rfl⟩ := List.append_of_mem aborted
  have early := Action.length_flatMap_finishedOutputs_le i before
  have late := Action.length_flatMap_finishedOutputs_le i after
  simp only [List.flatMap_append, List.flatMap_cons, Action.ends, List.count_append,
    List.count_singleton_self] at once
  rw [← List.length_eq_zero_iff]
  simp only [List.flatMap_append, List.flatMap_cons, Action.finishedOutputs, List.nil_append,
    List.length_append]
  omega

/-- Over the whole run one finished output is returned for `i`, and it names the
blocks of the prompt that `i` has in `s`. -/
def Announced (cfg : Config) (actions : List Action) (s : Scheduler) (i : SeqId) : Prop :=
  ∃ params output, s.HandsOver cfg i params ∧
    actions.flatMap (Action.finishedOutputs i) = [output] ∧
    output.kvTransferParams = some params

/-- Wherever a run takes an action, every request the action makes held is
announced, if and only if the action is not an abort that hands over. -/
theorem handovers_announced (cfg : Config) (before after : List Action) (action : Action)
    (engine next final : LLMEngine) (run : Run cfg before engine)
    (step : Next cfg engine action next) (later : Transition.Run (Next cfg) next after final) :
    (∀ s i, Shows cfg engine action next s → i ∈ s.sending.values →
      i ∉ engine.scheduler.sending.values →
      Announced cfg (before ++ [action] ++ after) s i) ↔
    ¬ StopsHandOver cfg engine action := by
  obtain ⟨flight, inv⟩ := Reachable.inv ⟨before, run⟩
  have account := Run.accounted (Transition.Run.append (.snoc run step) later)
  obtain ⟨flight', acts, _⟩ := step.acts inv
  cases acts with
  | add adds =>
      refine iff_of_true ?_ id
      intro s i shown held new
      cases shown with
      | last => exact absurd (adds.sending_eq ▸ held) new
  | @abort requestId reason _ aborted aborts =>
      rw [← aborts.holds_iff inv]
      constructor
      · rintro announced ⟨i, held, new⟩
        obtain ⟨params, output, _, outputs, _⟩ := announced _ i .last held new
        obtain ⟨found, rfl⟩ := aborts.held_eq held new
        rw [found] at outputs account
        have aborted : Action.abort (some i) requestId reason true ∈
            before ++ [.abort (some i) requestId reason true] ++ after := by simp
        rw [account.finishedOutputs_eq_nil aborted] at outputs
        contradiction
      · intro quiet s i shown held new
        cases shown with
        | last => exact absurd ⟨i, held, new⟩ quiet
  | step answers steps =>
      refine iff_of_true ?_ id
      intro s i shown held new
      obtain ⟨params, output, hands, member, finished, told⟩ :=
        step.hands_over inv shown held new
      refine ⟨params, output, hands, account.finishedOutputs_eq ?_, told⟩
      simp only [List.flatMap_append, List.flatMap_singleton, List.mem_append]
      refine Or.inl (Or.inr ?_)
      exact List.mem_map.mpr ⟨_, List.mem_filter.mpr ⟨member, by simp [finished]⟩, rfl⟩

end LLMEngine

/-! ## An unannounced hand-over

A prefill instance samples one token of a request that asked for a remote decode,
and the server ends the request on a stop string. -/

def Config.producer : Config :=
  { Config.sample with
    asyncScheduling := false
    kvTransfer := some ⟨.kvProducer, "localhost", 5600, "prefill"⟩ }

def KVTransferParams.remoteDecode : KVTransferParams where
  doRemotePrefill := false
  doRemoteDecode := true
  remoteBlockIds := []
  remoteRequestId := ""
  remoteEngineId := ""
  remoteHost := ""
  remotePort := 0
  tpSize := 1

def SamplingParams.handingOver : SamplingParams :=
  { SamplingParams.sample with
    kvTransferParams := some .remoteDecode }

namespace LLMEngine

theorem sample_valid_producer (engine : LLMEngine) : StepEnv.sample.Valid .producer engine where
  answers _ :=
    { nonempty := Nat.le_refl 1
      few := Nat.le_add_right 1 _
      valid := by simp [StepEnv.sample]
      drafts := rfl }
  reports _ _ _ _ _ _ := ⟨List.nodup_nil, by simp [StepEnv.sample], by simp [StepEnv.sample]⟩

/-- The engine after it sampled the request's first token and reported it. -/
def producerAnswered : LLMEngine :=
  (((create .producer).addRequest .producer [1, 2, 3] .handingOver (some "a") 0).1.stepped
    .producer .sample).stepped .producer .sample

theorem producerAnswered_reachable : Reachable .producer producerAnswered :=
  (((Reachable.create .producer).add [1, 2, 3] .handingOver (some "a") 0).step
    (sample_valid_producer _)).step (sample_valid_producer _)

/-- The abort holds the request's two prompt blocks, and nothing was said of
them. -/
theorem handover_unannounced :
    ∃ before next, Run .producer before producerAnswered ∧
      Next .producer producerAnswered (.abort (some 0) "a" .stop true) next ∧
      0 ∈ next.scheduler.sending.values ∧ (next.scheduler.heap 0).blockTable = [0, 1] ∧
      0 ∉ producerAnswered.scheduler.sending.values ∧
      ¬ Announced .producer (before ++ [.abort (some 0) "a" .stop true]) next.scheduler 0 := by
  have live : producerAnswered.scheduler.seqs.lookup "a" = some 0 := by decide +kernel
  have fresh : 0 ∉ producerAnswered.scheduler.sending.values := by decide +kernel
  have ended : (producerAnswered.abortRequest .producer "a" .stop).map (fun result =>
      decide (0 ∈ result.1.scheduler.sending.values ∧
        (result.1.scheduler.heap 0).blockTable = [0, 1] ∧ result.2 = true)) = .ok true := by
    decide +kernel
  obtain ⟨before, run⟩ := producerAnswered_reachable
  cases aborted : producerAnswered.abortRequest .producer "a" .stop with
  | error fault => simp [aborted, Except.map] at ended
  | ok result =>
      obtain ⟨next, done⟩ := result
      simp only [aborted, Except.map, Except.ok.injEq, decide_eq_true_eq] at ended
      obtain ⟨held, table, rfl⟩ := ended
      have step : Next .producer producerAnswered (.abort (some 0) "a" .stop true) next :=
        live ▸ .abort aborted
      refine ⟨before, next, run, step, held, table, fresh, ?_⟩
      rintro ⟨params, output, _, outputs, _⟩
      have aborted : Action.abort (some 0) "a" .stop true ∈
          before ++ [.abort (some 0) "a" .stop true] := by simp
      rw [(Run.accounted (.snoc run step)).finishedOutputs_eq_nil aborted] at outputs
      contradiction

/-- The next step finishes the request instead, and announces its blocks. -/
theorem handovers_announced_finished :
    ∃ actions, Run .producer actions (producerAnswered.stepped .producer .sample) ∧
      0 ∈ (producerAnswered.stepped .producer .sample).scheduler.sending.values ∧
      Announced .producer actions (producerAnswered.stepped .producer .sample).scheduler 0 := by
  obtain ⟨before, run⟩ := producerAnswered_reachable
  obtain ⟨flight, inv⟩ := Reachable.inv ⟨before, run⟩
  obtain ⟨launch, last, processed, stepEq, _⟩ := step_spec inv (sample_valid_producer _)
  have taken : producerAnswered.step .producer .sample =
      .ok (producerAnswered.stepped .producer .sample,
        outputs last processed launch.output.dropped) := by
    rw [stepped, stepEq]
  have step := Next.step (sample_valid_producer producerAnswered) taken
  have held : 0 ∈ (producerAnswered.stepped .producer .sample).scheduler.sending.values := by
    decide +kernel
  refine ⟨_, .snoc run step, held, ?_⟩
  have announced := (handovers_announced .producer before [] _ producerAnswered _ _ run step
    .nil).mpr id _ 0 .last held (by decide +kernel)
  rwa [List.append_nil] at announced

end LLMEngine

end LeanVllm
