import LeanVllm.Engine.BlockConservation

/-!
# Queued loads

A step hands the workers the loads its admissions queued.  Each names the blocks of a
loading sequence's table past those already cached here, and, block for block, the
producer's blocks of the same prompt.
-/

namespace LeanVllm

open Collections

namespace Scheduler

variable {cfg : Config} {s last : Scheduler} {rows : List LaunchedRow} {i : SeqId}

/-- `req` reads what is missing of the prompt of sequence `i`.  The table and the
producer's list both have one block for each block of the prompt. -/
structure Loads (cfg : Config) (s : Scheduler) (i : SeqId) (req : ReqToRecv)
    (params : KVTransferParams) : Prop where
  loading : s.recving.lookup (s.heap i).requestId = some i
  asked : (s.heap i).kvTransferParams = some params
  table : (s.heap i).blockTable.length = cdiv (s.heap i).numPromptTokens cfg.blockSize
  listed : params.remoteBlockIds.length = cdiv (s.heap i).numPromptTokens cfg.blockSize
  whole : (s.heap i).numCachedTokens / cfg.blockSize * cfg.blockSize = (s.heap i).numCachedTokens
  missing : (s.heap i).numCachedTokens < (s.heap i).numPromptTokens
  localEq : req.localBlockIds =
    (s.heap i).blockTable.drop ((s.heap i).numCachedTokens / cfg.blockSize)
  remoteEq : req.remoteBlockIds =
    params.remoteBlockIds.drop ((s.heap i).numCachedTokens / cfg.blockSize)
  distinct : req.localBlockIds.Nodup
  inside : ∀ blockId ∈ req.localBlockIds, blockId < cfg.numKvcacheBlocks

/-- Every queued load is of a loading sequence. -/
def Queues (cfg : Config) (s : Scheduler) : Prop :=
  ∀ requestId req, s.connector.reqsToRecv.lookup requestId = some req →
    ∃ i params, (s.heap i).requestId = requestId ∧ Loads cfg s i req params

theorem Loads.congr {req : ReqToRecv} {params : KVTransferParams}
    (loads : Loads cfg s i req params) (same : last.heap i = s.heap i)
    (loading : last.recving.lookup (last.heap i).requestId = some i) :
    Loads cfg last i req params where
  loading := loading
  asked := by rw [same]; exact loads.asked
  table := by rw [same]; exact loads.table
  listed := by rw [same]; exact loads.listed
  whole := by rw [same]; exact loads.whole
  missing := by rw [same]; exact loads.missing
  localEq := by rw [same]; exact loads.localEq
  remoteEq := by rw [same]; exact loads.remoteEq
  distinct := loads.distinct
  inside := loads.inside

/-- Changing a record that is not loading. -/
theorem Queues.frame (queues : s.Queues cfg) (absent : s.recving.lookup (s.heap i).requestId = none)
    (connector : last.connector.reqsToRecv = s.connector.reqsToRecv)
    (recving : last.recving = s.recving) (others : ∀ j, j ≠ i → last.heap j = s.heap j) :
    last.Queues cfg := by
  intro requestId req found
  rw [connector] at found
  obtain ⟨j, params, named, loads⟩ := queues requestId req found
  have different : j ≠ i := by
    rintro rfl
    exact absurd (absent.symm.trans loads.loading) (by simp)
  have same := others j different
  refine ⟨j, params, by rw [same]; exact named, loads.congr same ?_⟩
  rw [same, recving]
  exact loads.loading

theorem Inv.absent_of_running {active : List SeqId} (inv : s.Inv cfg active rows)
    (member : i ∈ active) : s.recving.lookup (s.heap i).requestId = none :=
  (inv.running member).2.2.1.2.1

theorem Inv.absent_of_waiting {active : List SeqId} (inv : s.Inv cfg active rows)
    (member : i ∈ s.waiting) : s.recving.lookup (s.heap i).requestId = none :=
  (inv.queued member).2.2.1.2.1

/-- An admission that loads queues the blocks past its hits. -/
theorem Allocates.loads {bm : BlockManager} {hits fresh : List BlockId} {others : List BlockId}
    (allocates : s.Allocates cfg i others bm hits fresh) (plain : cfg.numSpeculativeTokens = 0)
    (isQueued : (s.heap i).Queued cfg) (connected : cfg.kvTransfer.isSome)
    (wants : (s.heap i).wantsRemotePrefill = true) (lists : (s.heap i).listsPrompt cfg = true)
    (connector : NixlConnectorScheduler) :
    ∃ req params,
      (s.connector.updateStateAfterAlloc cfg ((s.heap i).allocated cfg hits fresh)).1.reqsToRecv =
        s.connector.reqsToRecv.insert (s.heap i).requestId req ∧
      Loads cfg (s.beginLoad i ((s.heap i).allocated cfg hits fresh).loading bm connector) i req
        params := by
  have positive := cfg.blockSize_pos
  cases asked : (s.heap i).kvTransferParams with
  | none => simp [Sequence.wantsRemotePrefill, asked] at wants
  | some params =>
      have prompt := isQueued.unloaded connected wants
      have hitsEq : hits.length * cfg.blockSize / cfg.blockSize = hits.length :=
        Nat.mul_div_cancel _ positive
      have total : hits.length + fresh.length =
          cdiv (s.heap i).numPromptTokens cfg.blockSize := by
        rw [allocates.total, BlockManager.numBlocks, Sequence.numPlannedTokens, prompt,
          isQueued.settled, Config.numLookaheadTokens, plain]
        rfl
      have record : (s.beginLoad i ((s.heap i).allocated cfg hits fresh).loading bm
          connector).heap i = ((s.heap i).allocated cfg hits fresh).loading :=
        setSeq_heap_self s i _
      have listed : params.remoteBlockIds.length =
          cdiv (s.heap i).numPromptTokens cfg.blockSize := by
        simpa [Sequence.listsPrompt, asked] using lists
      refine ⟨
        { localBlockIds := (hits ++ fresh).drop (hits.length * cfg.blockSize / cfg.blockSize)
          remoteBlockIds :=
            params.remoteBlockIds.drop (hits.length * cfg.blockSize / cfg.blockSize)
          remoteRequestId := params.remoteRequestId
          remoteEngineId := params.remoteEngineId
          remoteHost := params.remoteHost
          remotePort := params.remotePort
          remoteTpSize := params.tpSize },
        { params with doRemotePrefill := false }, ?_, ?_⟩
      · simp only [NixlConnectorScheduler.updateStateAfterAlloc, Sequence.allocated, asked]
      constructor
      · rw [record]
        show (s.recving.insert (s.heap i).requestId i).lookup (s.heap i).requestId = some i
        exact AList.lookup_insert _
      · rw [record]
        simp [Sequence.loading, Sequence.clearRemotePrefill, Sequence.allocated, asked]
      · rw [record]
        show (hits ++ fresh).length = cdiv (s.heap i).numPromptTokens cfg.blockSize
        rw [List.length_append, total]
      · rw [record]
        exact listed
      · rw [record]
        show hits.length * cfg.blockSize / cfg.blockSize * cfg.blockSize =
          hits.length * cfg.blockSize
        rw [hitsEq]
      · rw [record]
        show hits.length * cfg.blockSize < (s.heap i).numPromptTokens
        rw [← prompt]
        exact allocates.short
      · rw [record]
        rfl
      · rw [record]
        rfl
      · simp only
        rw [hitsEq, List.drop_left]
        exact allocates.blocks.nodup_of_unpublished (List.sublist_append_right _ _)
          allocates.keeps.unpublished
      · intro blockId member
        exact Finset.mem_range.mp (allocates.blocks.accounts.held_mem blockId
          (List.mem_append_left _ (List.mem_of_mem_drop member)))

/-- Every move keeps the queued loads true. -/
theorem Move.queues {before after : Scheduler × SchedulerOutput}
    (plain : cfg.kvTransfer.isSome → cfg.numSpeculativeTokens = 0) (pass : PassInv cfg before rows)
    (move : Move cfg before after) (queues : before.1.Queues cfg) : after.1.Queues cfg := by
  cases move with
  | reorder reordered =>
      intro requestId req found
      obtain ⟨j, params, named, loads⟩ := queues requestId req found
      exact ⟨j, params, named, loads.congr rfl loads.loading⟩
  | recount => exact queues
  | preempt member idle freed =>
      exact queues.frame (pass.inv.absent_of_running member) rfl rfl
        fun _ different => setSeq_heap_of_ne _ different _
  | dropRunning member idle settled freed =>
      exact queues.frame (pass.inv.absent_of_running member) rfl rfl
        fun _ different => setSeq_heap_of_ne _ different _
  | trim member idle n =>
      exact queues.frame (pass.inv.absent_of_running member) rfl rfl
        fun _ different => setSeq_heap_of_ne _ different _
  | append member idle within fits appended =>
      exact queues.frame (pass.inv.absent_of_running member) rfl rfl
        fun _ different => setSeq_heap_of_ne _ different _
  | serve member idle ready =>
      exact queues.frame (pass.inv.absent_of_running member) rfl rfl
        fun _ different => setSeq_heap_of_ne _ different _
  | dropWaiting head =>
      exact queues.frame (pass.inv.absent_of_waiting (List.mem_of_mem_head? head)) rfl rfl
        fun _ different => setSeq_heap_of_ne _ different _
  | beginRun head allocates loaded ready =>
      exact queues.frame (pass.inv.absent_of_waiting (List.mem_of_mem_head? head)) rfl rfl
        fun _ different => setSeq_heap_of_ne _ different _
  | @load s output i bm hits fresh head allocates connected wants lists =>
      have member := List.mem_of_mem_head? head
      have absent := pass.inv.absent_of_waiting member
      obtain ⟨_, _, _, isQueued, _⟩ := pass.inv.queued member
      obtain ⟨own, params, queued, loads⟩ := allocates.loads (plain connected) isQueued connected
        wants lists
        (s.connector.updateStateAfterAlloc cfg ((s.heap i).allocated cfg hits fresh)).1
      have record : (s.setSeq i ((s.heap i).allocated cfg hits fresh).loading).heap i =
          ((s.heap i).allocated cfg hits fresh).loading := setSeq_heap_self s i _
      intro requestId req found
      have found : (s.connector.reqsToRecv.insert (s.heap i).requestId own).lookup requestId =
          some req := queued ▸ found
      rw [Dict.lookup_insert_eq] at found
      split at found
      · rename_i same
        obtain rfl := Option.some.inj found
        exact ⟨i, params, (congrArg Sequence.requestId record).trans same.symm, loads⟩
      · obtain ⟨j, params, named, earlier⟩ := queues requestId req found
        have different : j ≠ i := by
          rintro rfl
          exact absurd (absent.symm.trans earlier.loading) (by simp)
        have same : (s.setSeq i ((s.heap i).allocated cfg hits fresh).loading).heap j = s.heap j :=
          setSeq_heap_of_ne s different _
        refine ⟨j, params, (congrArg Sequence.requestId same).trans named, earlier.congr same ?_⟩
        show (s.recving.insert (s.heap i).requestId i).lookup
          ((s.setSeq i ((s.heap i).allocated cfg hits fresh).loading).heap j).requestId = some j
        rw [same, Dict.lookup_insert_eq, if_neg]
        · exact earlier.loading
        · intro clash
          exact absurd (absent.symm.trans (clash ▸ earlier.loading)) (by simp)

/-- Without a connector nothing is queued. -/
theorem Move.unqueued {before after : Scheduler × SchedulerOutput} (isolated : cfg.kvTransfer = none)
    (move : Move cfg before after) :
    after.1.connector.reqsToRecv = before.1.connector.reqsToRecv := by
  cases move with
  | load head allocates connected => simp [isolated] at connected
  | _ => rfl

theorem Moves.unqueued {before after : Scheduler × SchedulerOutput}
    (isolated : cfg.kvTransfer = none) (moves : Moves cfg before after) :
    after.1.connector.reqsToRecv = before.1.connector.reqsToRecv := by
  induction moves with
  | refl => rfl
  | tail _ move ih => rw [move.unqueued isolated, ih]

/-! ## Between steps nothing is queued -/

/-- `build_connector_meta` handed over what was queued. -/
def Unqueued (s : Scheduler) : Prop :=
  s.connector.reqsToRecv = ∅

theorem Ends.unqueued {seq : Sequence} {after : Scheduler} (ends : Ends cfg s i seq after)
    (unqueued : s.Unqueued) : after.Unqueued := by
  cases ends with
  | release bm result freed unheld => exact unqueued
  | hold kv connector result connected held =>
      have kept : (s.connector.requestFinished cfg kv seq).1.reqsToRecv =
          s.connector.reqsToRecv := by
        unfold NixlConnectorScheduler.requestFinished
        cases seq.kvTransferParams with
        | none => rfl
        | some params => simp only; split <;> rfl
      rw [held] at kept
      exact kept.trans unqueued

theorem Releases.unqueued {active : List SeqId} {finishedSending : List RequestId}
    (releases : Releases cfg active rows s finishedSending last) (unqueued : s.Unqueued) :
    last.Unqueued := by
  induction releases with
  | nil => exact unqueued
  | skip absent others ih => exact ih unqueued
  | release inv found freed next others ih => exact ih unqueued

theorem ReceivesAll.unqueued {finishedRecving order : List RequestId}
    (receives : ReceivesAll cfg rows finishedRecving s order last) (unqueued : s.Unqueued) :
    last.Unqueued := by
  induction receives with
  | nil => exact unqueued
  | cons inv turn nextInv others ih => exact ih (by cases turn <;> exact unqueued)

theorem Advances.unqueued {active seqs : List SeqId} {launched : List LaunchedRow}
    (advances : Advances cfg active rows s seqs last launched) (unqueued : s.Unqueued) :
    last.Unqueued := by
  induction advances with
  | nil => exact unqueued
  | cons inv member ready publishes next others ih => exact ih unqueued

theorem Launches.unqueued {env : StepEnv} {runner : ModelRunner} {flight : Flight}
    {launch : Launch} (launches : s.Launches cfg env runner flight launch)
    (unqueued : s.Unqueued) : launch.last.Unqueued := by
  refine launches.advances.unqueued ?_
  rcases launches.reports with ⟨isolated, same⟩ | ⟨_, middle, releases, receives⟩
  · rw [same]
    exact (Moves.unqueued isolated launches.moves).trans unqueued
  · exact receives.unqueued (releases.unqueued rfl)

theorem unqueued_rests (cfg : Config) : Rests cfg Unqueued where
  launch launches _ unqueued := launches.unqueued unqueued
  reconcile _ _ _ turn unqueued := by
    cases turn with
    | void | commit => exact unqueued
    | stop _ _ _ _ _ _ ends => exact ends.unqueued unqueued
  cancel _ _ unqueued := unqueued
  ends _ _ ends unqueued := ends.unqueued unqueued
  forget _ _ _ _ unqueued := unqueued
  enqueue _ _ _ unqueued := unqueued

end Scheduler

/-- What a step hands the workers to load: the missing blocks of a loading sequence's
prompt. -/
theorem Launchable.loads {cfg : Config} {rows : List LaunchedRow} {point s : Scheduler}
    {output : SchedulerOutput} {metadata : KVConnectorMetadata}
    (plain : cfg.kvTransfer.isSome → cfg.numSpeculativeTokens = 0)
    (launchable : Launchable cfg rows point) (scheduled : point.schedule cfg = .ok (s, output))
    (handed : output.kvConnectorMetadata = some metadata) {requestId : RequestId} {req : ReqToRecv}
    (found : metadata.reqsToRecv.lookup requestId = some req) :
    ∃ i params, (s.heap i).requestId = requestId ∧ s.Loads cfg i req params := by
  have inv := launchable.inv
  have unqueued : point.Unqueued := (Scheduler.unqueued_rests cfg).launchable rfl launchable
  obtain ⟨planned, plan, scheduledEq, _, moves⟩ := Scheduler.schedule_spec inv
  have start : point.Queues cfg := by
    intro requestId req found
    rw [show point.connector.reqsToRecv = ∅ from unqueued] at found
    exact absurd found (by simp)
  have queues : planned.Queues cfg :=
    Scheduler.Moves.keep (fun s => s.Queues cfg) (fun pass move => move.queues plain pass) moves
      (inv.start []) start
  have result := Except.ok.inj (scheduledEq.symm.trans scheduled)
  have stateEq : (planned.withConnectorMeta cfg plan).1 = s := congrArg Prod.fst result
  have outputEq : (planned.withConnectorMeta cfg plan).2 = output := congrArg Prod.snd result
  have none : plan.kvConnectorMetadata = none := Scheduler.Moves.metadata moves
  rw [planned.withConnectorMeta_fst, Scheduler.handedOver] at stateEq
  rw [← outputEq, Scheduler.withConnectorMeta] at handed
  split at handed
  · rename_i connected
    obtain rfl := Option.some.inj handed
    obtain ⟨i, params, named, loads⟩ := queues requestId req found
    rw [if_pos connected] at stateEq
    subst stateEq
    exact ⟨i, params, named, loads.congr rfl loads.loading⟩
  · exact absurd (none.symm.trans handed) (by simp)

end LeanVllm
