import LeanVllm.Engine.Transitions

/-!
# The scheduler's operations

What each operation returns, as a transition of the sequence it is about.
Under the invariant none of them raises.
-/

namespace LeanVllm

open Collections

namespace Sequence

/-- The number of tokens `_schedule` gives a sequence. -/
def numToSchedule (cfg : Config) (seq : Sequence) (budget : Nat) : Nat :=
  if seq.isPrefill then
    if cfg.enableChunkedPrefill ∧ cfg.longPrefillTokenThreshold ≠ 0 then
      min (min (seq.numTokens - seq.numCachedTokens) budget) cfg.longPrefillTokenThreshold
    else min (seq.numTokens - seq.numCachedTokens) budget
  else 1 + seq.specTokenIds.length

/-- The record after `allocate` with the given cached and new blocks. -/
def allocated (cfg : Config) (seq : Sequence) (hits fresh : List BlockId) : Sequence :=
  { seq with
    blockTable := hits ++ fresh
    numCachedTokens := hits.length * cfg.blockSize
    numPublishedBlocks := hits.length }

/-- The record of a sequence that starts to run, with the transfer parameters
the connector leaves it. -/
def started (cfg : Config) (seq : Sequence) (params : Option KVTransferParams) (budget : Nat) :
    Sequence :=
  { seq with
    kvTransferParams := params
    status := .running
    numScheduledTokens := seq.numToSchedule cfg budget }

/-- The record of a sequence that starts to load. -/
def loading (seq : Sequence) : Sequence :=
  { seq.clearRemotePrefill with status := .waitingForRemoteKvs }

end Sequence

/-- The output with one more admission counted. -/
def SchedulerOutput.withQueried (cfg : Config) (output : SchedulerOutput) (seq : Sequence)
    (numCachedBlocks : Nat) : SchedulerOutput :=
  { output with
    numQueriedBlocks := output.numQueriedBlocks + seq.numBlocks cfg
    numCachedBlocks := output.numCachedBlocks + numCachedBlocks }

/-- The output with one more scheduled sequence. -/
def SchedulerOutput.withScheduled (output : SchedulerOutput) (i : SeqId) (seq : Sequence)
    (numTokens : Nat) : SchedulerOutput :=
  { output with
    scheduled := output.scheduled ++ [i]
    numPrefillTokens :=
      if seq.isPrefill then output.numPrefillTokens + numTokens else output.numPrefillTokens
    numDecodeTokens :=
      if seq.isPrefill then output.numDecodeTokens else output.numDecodeTokens + numTokens }

/-- A request whose blocks are not held leaves nothing with the connector. -/
theorem NixlConnectorScheduler.connector_of_not_hold {cfg : Config} {kv : KVTransferConfig}
    {connector after : NixlConnectorScheduler} {seq : Sequence}
    {result : Option KVTransferParams}
    (finished : connector.requestFinished cfg kv seq = (after, false, result)) :
    after = connector := by
  unfold requestFinished at finished
  split at finished
  · exact (congrArg Prod.fst finished).symm
  · split at finished
    · simp at finished
    · exact (congrArg Prod.fst finished).symm

theorem NixlConnectorScheduler.updateStateAfterAlloc_snd (cfg : Config)
    (connector : NixlConnectorScheduler) (seq : Sequence) :
    (connector.updateStateAfterAlloc cfg seq).2 = seq.clearRemotePrefill := by
  unfold updateStateAfterAlloc
  split
  · rename_i none
    cases seq
    simp_all [Sequence.clearRemotePrefill]
  · rfl

namespace Scheduler

variable {cfg : Config} {s : Scheduler} {active : List SeqId} {rows : List LaunchedRow}
  {i : SeqId} {bm : BlockManager}

@[simp]
theorem setSeq_setSeq (s : Scheduler) (i : SeqId) (first second : Sequence) :
    (s.setSeq i first).setSeq i second = s.setSeq i second := by
  simp [setSeq]

@[simp]
theorem setSeq_self (s : Scheduler) (i : SeqId) : s.setSeq i (s.heap i) = s := by
  simp [setSeq]

theorem deallocate_eq
    (freed : BlockManager.dropReferences (s.heap i).blockTable.reverse s.blockManager = .ok bm) :
    s.deallocate i = .ok (s.renew i (s.heap i).released bm) := by
  simp only [deallocate, BlockManager.deallocate, bind, Except.bind, freed]
  rfl

theorem drop_eq (live : s.seqs.lookup (s.heap i).requestId = some i) (reason : FinishReason) :
    s.drop i reason = .ok
      { s.setSeq i ((s.heap i).closed reason) with
        seqs := s.seqs.erase (s.heap i).requestId } := by
  have member : (s.heap i).requestId ∈ s.seqs := by
    rw [← AList.lookup_isSome, live]
    rfl
  simp [drop, finish, setSeq, Sequence.dropPending, Sequence.closed, member]

theorem preempt_eq
    (freed : BlockManager.dropReferences (s.heap i).blockTable.reverse s.blockManager = .ok bm)
    (output : SchedulerOutput) :
    s.preempt cfg i output = .ok
      ({ s.requeue cfg i bm with running := s.running },
        { output with preempted := output.preempted ++ [i] }) := by
  let seq : Sequence :=
    { (s.heap i).dropPending with
      status := .waiting
      isPrefill := true
      numPreemptions := (s.heap i).numPreemptions + 1
      specTokenIds := [] }
  have released : (s.setSeq i seq).deallocate i =
      .ok ((s.setSeq i seq).renew i ((s.setSeq i seq).heap i).released bm) := by
    apply deallocate_eq
    rw [setSeq_heap_self]
    exact freed
  have recordEq : seq.released = (s.heap i).requeued := rfl
  simp only [preempt, bind, Except.bind]
  rw [show s.setSeq i { (s.heap i).dropPending with
      status := .waiting, isPrefill := true,
      numPreemptions := (s.heap i).numPreemptions + 1, specTokenIds := [] } = s.setSeq i seq
    from rfl, released]
  simp only [setSeq_heap_self, recordEq, renew, setSeq_setSeq]
  rfl

/-! ## Ending a request -/

/-- `i` ends with the record `seq`: its blocks are released, or held for a
remote reader if the connector asks for it. -/
inductive Ends (cfg : Config) (s : Scheduler) (i : SeqId) (seq : Sequence) : Scheduler → Prop
  | release (bm : BlockManager) (result : Option KVTransferParams)
      (freed : BlockManager.dropReferences (s.heap i).blockTable.reverse s.blockManager = .ok bm)
      (unheld : ∀ kv, cfg.kvTransfer = some kv →
        (s.connector.requestFinished cfg kv seq).2.1 = false) :
      Ends cfg s i seq (s.discard i { seq.released with kvTransferResult := result } bm)
  | hold (kv : KVTransferConfig) (connector : NixlConnectorScheduler)
      (result : Option KVTransferParams) (connected : cfg.kvTransfer = some kv)
      (held : s.connector.requestFinished cfg kv seq = (connector, true, result)) :
      Ends cfg s i seq (s.hold i { seq with kvTransferResult := result } connector)

/-- `_free` on a sequence that stands in no queue. -/
theorem free_eq (cfg : Config) (freed : BlockManager.dropReferences (s.heap i).blockTable.reverse
      s.blockManager = .ok bm) :
    (∃ result, s.free cfg i = .ok
        (s.renew i { (s.heap i).released with kvTransferResult := result } bm) ∧
      ∀ kv, cfg.kvTransfer = some kv →
        (s.connector.requestFinished cfg kv (s.heap i)).2.1 = false) ∨
    (∃ kv connector result, cfg.kvTransfer = some kv ∧
      s.connector.requestFinished cfg kv (s.heap i) = (connector, true, result) ∧
      s.free cfg i = .ok
        { s.setSeq i { s.heap i with kvTransferResult := result } with
          connector := connector
          sending := s.sending.insert (s.heap i).requestId i }) := by
  unfold free
  cases connected : cfg.kvTransfer with
  | none =>
      refine Or.inl ⟨(s.heap i).kvTransferResult, ?_, by simp⟩
      exact deallocate_eq freed
  | some kv =>
      rcases finishedEq : s.connector.requestFinished cfg kv (s.heap i) with
        ⟨connector, hold, result⟩
      cases hold with
      | true =>
          refine Or.inr ⟨kv, connector, result, rfl, finishedEq, ?_⟩
          simp only [finishedEq, if_true, setSeq_heap_self]
          rfl
      | false =>
          obtain rfl := NixlConnectorScheduler.connector_of_not_hold finishedEq
          refine Or.inl ⟨result, ?_, by simp [finishedEq]⟩
          simp only [finishedEq, Bool.false_eq_true, if_false]
          have again : BlockManager.dropReferences
              ((s.setSeq i { s.heap i with kvTransferResult := result }).heap i).blockTable.reverse
              (s.setSeq i { s.heap i with kvTransferResult := result }).blockManager = .ok bm := by
            rw [setSeq_heap_self]
            exact freed
          have released := deallocate_eq again
          rw [setSeq_heap_self, renew, setSeq_setSeq] at released
          exact released

/-- `_free` on a sequence that just left every queue ends it. -/
theorem free_discard (cfg : Config) {seq : Sequence} (table : seq.blockTable = (s.heap i).blockTable)
    (idEq : seq.requestId = (s.heap i).requestId)
    (freed : BlockManager.dropReferences (s.heap i).blockTable.reverse s.blockManager = .ok bm) :
    ∃ after, (s.discard i seq s.blockManager).free cfg i = .ok after ∧
      Ends cfg s i seq after := by
  have heapEq : (s.discard i seq s.blockManager).heap i = seq := setSeq_heap_self s i seq
  have freed' : BlockManager.dropReferences
      ((s.discard i seq s.blockManager).heap i).blockTable.reverse
      (s.discard i seq s.blockManager).blockManager = .ok bm := by
    rw [heapEq, table]
    exact freed
  rcases free_eq cfg freed' with ⟨result, released, unheld⟩ | ⟨kv, connector, result, connected,
    held, freeEq⟩
  · refine ⟨_, released, ?_⟩
    have stateEq : (s.discard i seq s.blockManager).renew i
        { ((s.discard i seq s.blockManager).heap i).released with kvTransferResult := result } bm =
        s.discard i { seq.released with kvTransferResult := result } bm := by
      simp [renew, Scheduler.discard, setSeq]
    rw [stateEq]
    rw [heapEq] at unheld
    exact Ends.release bm result freed unheld
  · refine ⟨_, freeEq, ?_⟩
    have stateEq : { (s.discard i seq s.blockManager).setSeq i
          { (s.discard i seq s.blockManager).heap i with kvTransferResult := result } with
          connector := connector
          sending := (s.discard i seq s.blockManager).sending.insert
            ((s.discard i seq s.blockManager).heap i).requestId i } =
        s.hold i { seq with kvTransferResult := result } connector := by
      simp [Scheduler.hold, Scheduler.discard, setSeq, idEq]
    rw [stateEq]
    rw [heapEq] at held
    exact Ends.hold kv connector result connected held

theorem Roster.release_live (plays : s.Plays cfg active rows i .queued ∨
      s.Plays cfg active rows i .active) :
    ∃ role, s.Plays cfg active rows i role ∧ (role = .queued ∨ role = .active) ∧
      (role.owns = true ∨ (s.heap i).blockTable = []) := by
  rcases plays with plays | plays
  · exact ⟨_, plays, Or.inl rfl, Or.inr plays.2.2.2.1.table⟩
  · exact ⟨_, plays, Or.inr rfl, Or.inl rfl⟩

theorem Ends.inv {seq : Sequence} {after : Scheduler} (ends : Ends cfg s i seq after)
    (inv : s.Inv cfg active rows)
    (plays : s.Plays cfg active rows i .queued ∨ s.Plays cfg active rows i .active)
    (finished : seq.status = .finished) (idEq : seq.requestId = (s.heap i).requestId)
    (lives : seq.numPreemptions = (s.heap i).numPreemptions)
    (table : seq.blockTable = (s.heap i).blockTable) :
    after.Inv cfg (active.erase i) rows := by
  obtain ⟨role, plays, live, owned⟩ := Roster.release_live plays
  cases ends with
  | release bm result freed =>
      obtain ⟨_, freed', blocks, keeps, _⟩ := inv.release plays owned
      obtain rfl := Except.ok.inj (freed'.symm.trans freed)
      exact inv.discard plays live finished idEq lives blocks keeps
  | hold kv connector result connected held =>
      exact inv.hold plays live connector finished idEq lives table

/-- What ending a request leaves alone, and what is left of its record. -/
structure Ends.Frame (s : Scheduler) (i : SeqId) (seq : Sequence) (after : Scheduler) : Prop where
  running : after.running = s.running.erase i
  waiting : after.waiting = s.waiting.erase i
  seqs : after.seqs = s.seqs.erase (s.heap i).requestId
  recving : after.recving = s.recving
  counter : after.counter = s.counter
  heap : ∀ j, j ≠ i → after.heap j = s.heap j
  record : ∃ result, after.heap i = { seq.released with kvTransferResult := result } ∨
    after.heap i = { seq with kvTransferResult := result }

theorem Ends.frame {seq : Sequence} {after : Scheduler} (ends : Ends cfg s i seq after) :
    Ends.Frame s i seq after := by
  cases ends with
  | release bm result freed =>
      exact ⟨rfl, rfl, rfl, rfl, rfl, fun j different => setSeq_heap_of_ne s different _,
        result, Or.inl (setSeq_heap_self s i _)⟩
  | hold kv connector result connected held =>
      exact ⟨rfl, rfl, rfl, rfl, rfl, fun j different => setSeq_heap_of_ne s different _,
        result, Or.inr (setSeq_heap_self s i _)⟩

theorem Ends.Frame.status {seq : Sequence} {after : Scheduler} (frame : Ends.Frame s i seq after) :
    (after.heap i).status = seq.status := by
  obtain ⟨result, recordEq | recordEq⟩ := frame.record
  · rw [recordEq]
    rfl
  · rw [recordEq]

/-- Dropping a request between steps: a loading one is only marked, any other
leaves its queue and ends. -/
theorem abort_spec (inv : s.Inv cfg s.running rows) (requestId : RequestId)
    (reason : FinishReason) :
    (s.seqs.lookup requestId = none ∧ s.abort cfg requestId reason = .ok (s, false)) ∨
    ∃ i after, s.seqs.lookup requestId = some i ∧
      s.abort cfg requestId reason = .ok (after, true) ∧
      ((s.Plays cfg s.running rows i .loading ∧
          after = s.cancel i { s.heap i with status := .finished, finishReason := some reason }) ∨
        ((s.Plays cfg s.running rows i .queued ∨ s.Plays cfg s.running rows i .active) ∧
          Ends cfg s i ((s.heap i).closed reason) after)) := by
  cases found : s.seqs.lookup requestId with
  | none => exact Or.inl ⟨rfl, by simp [abort, found]⟩
  | some i =>
      obtain ⟨idEq, plays⟩ := inv.live found
      rcases plays with plays | plays | plays
      · obtain ⟨queued, notRunning, _, isQueued, _⟩ := id plays
        obtain ⟨bm, freed, _⟩ := inv.release plays (Or.inr isQueued.table)
        obtain ⟨after, freeEq, ends⟩ := free_discard cfg
          (show ((s.heap i).closed reason).blockTable = (s.heap i).blockTable from rfl) rfl freed
        refine Or.inr ⟨i, after, rfl, ?_, Or.inr ⟨Or.inl plays, ends⟩⟩
        have code : s.abort cfg requestId reason = (do
            let s ← (s.discard i ((s.heap i).closed reason) s.blockManager).free cfg i
            .ok (s, true)) := by
          simp [abort, found, isQueued.status, SchedulingPolicy.remove_of_mem queued, bind,
            Except.bind, finish, Scheduler.discard, setSeq, Sequence.dropPending, Sequence.closed,
            idEq, List.erase_of_not_mem notRunning]
        rw [code, freeEq]
        rfl
      · obtain ⟨notQueued, running, _, isActive⟩ := id plays
        obtain ⟨bm, freed, _⟩ := inv.release plays (Or.inl rfl)
        obtain ⟨after, freeEq, ends⟩ := free_discard cfg
          (show ((s.heap i).closed reason).blockTable = (s.heap i).blockTable from rfl) rfl freed
        refine Or.inr ⟨i, after, rfl, ?_, Or.inr ⟨Or.inr plays, ends⟩⟩
        have code : s.abort cfg requestId reason = (do
            let s ← (s.discard i ((s.heap i).closed reason) s.blockManager).free cfg i
            .ok (s, true)) := by
          simp [abort, found, isActive.status, SchedulingPolicy.remove_of_mem running, bind,
            Except.bind, finish, Scheduler.discard, setSeq, Sequence.dropPending, Sequence.closed,
            idEq, List.erase_of_not_mem notQueued]
        rw [code, freeEq]
        rfl
      · refine Or.inr ⟨i, _, rfl, ?_, Or.inl ⟨plays, rfl⟩⟩
        simp only [abort, found]
        rw [if_pos plays.2.2.2.1, ← idEq]
        rfl

/-! ## Scheduling one sequence -/

theorem scheduleSeq_eq (cfg : Config) (s : Scheduler) (i : SeqId) (budget : Nat)
    (output : SchedulerOutput) :
    s.scheduleSeq cfg i budget output =
      (s.setSeq i
        { s.heap i with numScheduledTokens := (s.heap i).numToSchedule cfg budget },
        output.withScheduled i (s.heap i) ((s.heap i).numToSchedule cfg budget),
        (s.heap i).numToSchedule cfg budget) := by
  cases prefill : (s.heap i).isPrefill <;>
    simp [scheduleSeq, Sequence.numToSchedule, SchedulerOutput.withScheduled, prefill]

/-! ## Admission -/

/-- The head of the waiting queue gets `hits`, which are cached, and `fresh`,
which nobody held. -/
structure Allocates (cfg : Config) (s : Scheduler) (i : SeqId) (others : List BlockId)
    (bm : BlockManager) (hits fresh : List BlockId) : Prop where
  offered : s.blockManager.canAllocate cfg (s.heap i) cfg.numLookaheadTokens =
    .ok (some hits.length)
  allocated : s.blockManager.allocate cfg (s.heap i) hits.length cfg.numLookaheadTokens =
    .ok (bm, (s.heap i).allocated cfg hits fresh)
  cached : BlockManager.HitsFrom cfg s.blockManager (s.heap i) 0 hits
  short : hits.length * cfg.blockSize < (s.heap i).numTokens
  total : hits.length + fresh.length =
    BlockManager.numBlocks cfg (s.heap i) cfg.numLookaheadTokens
  blocks : bm.Inv cfg (hits ++ fresh ++ others)
  keeps : BlockManager.Keeps s.blockManager bm fresh

/-- After `can_allocate` has said yes, `allocate` succeeds. -/
theorem Inv.allocates (inv : s.Inv cfg active rows) (member : i ∈ s.waiting) {n : Nat}
    (offered : s.blockManager.canAllocate cfg (s.heap i) cfg.numLookaheadTokens =
      .ok (some n)) :
    ∃ bm hits fresh, hits.length = n ∧
      s.Allocates cfg i (s.otherHoldings active i) bm hits fresh := by
  have plays := inv.queued member
  obtain ⟨_, _, _, isQueued, _⟩ := id plays
  have nonempty : 0 < (s.heap i).numTokens := isQueued.prompt_pos.trans_le isQueued.prompt_le
  obtain ⟨result, resultEq, accepted, _⟩ := BlockManager.canAllocate_spec s.blockManager
    isQueued.hashed isQueued.settled nonempty cfg.numLookaheadTokens
  obtain rfl : result = some n := Except.ok.inj (resultEq.symm.trans offered)
  obtain ⟨hits, rfl, cached, short, enough⟩ := accepted n rfl
  have fits : hits.length ≤ BlockManager.numBlocks cfg (s.heap i) cfg.numLookaheadTokens := by
    have reach := BlockManager.le_numBlocks_mul cfg (s.heap i) cfg.numLookaheadTokens
    rw [Sequence.numPlannedTokens] at reach
    exact (Nat.lt_of_mul_lt_mul_right (short.trans_le (by omega))).le
  obtain ⟨fresh, bm, allocated, lengthEq, blocks, keeps⟩ := BlockManager.allocate_spec
    (inv.split plays) isQueued.table cached cfg.numLookaheadTokens enough fits
  exact ⟨bm, hits, fresh, rfl, offered, allocated, cached, short, lengthEq, blocks, keeps⟩

/-- The allocated record covers its tokens and the lookahead slots. -/
theorem Allocates.covered {others hits fresh : List BlockId}
    (allocates : s.Allocates cfg i others bm hits fresh) :
    (s.heap i).numTokens + cfg.numLookaheadTokens ≤
      ((s.heap i).allocated cfg hits fresh).blockTable.length * cfg.blockSize := by
  have reach := BlockManager.le_numBlocks_mul cfg (s.heap i) cfg.numLookaheadTokens
  rw [Sequence.numPlannedTokens, ← allocates.total] at reach
  simp only [Sequence.allocated, List.length_append]
  omega

theorem Allocates.unpublished {others hits fresh : List BlockId}
    (allocates : s.Allocates cfg i others bm hits fresh) :
    ∀ blockId ∈ ((s.heap i).allocated cfg hits fresh).blockTable.drop
      ((s.heap i).allocated cfg hits fresh).numPublishedBlocks, (bm.blocks blockId).hash = -1 := by
  simp only [Sequence.allocated, List.drop_left']
  exact allocates.keeps.unpublished

/-- What the connector makes of an allocated head: nothing loads, and then it
asks for no remote prefill any more, or the rest of its prompt does. -/
theorem matched_cases (cfg : Config) (seq : Sequence)
    (short : seq.numCachedTokens < seq.numPromptTokens ∨ cfg.kvTransfer.isSome = false ∨
      seq.wantsRemotePrefill = false) :
    (∃ params loadAsync,
      (if cfg.kvTransfer.isSome then
        NixlConnectorScheduler.getNumNewMatchedTokens cfg seq seq.numCachedTokens
      else (seq, 0, false)) = ({ seq with kvTransferParams := params }, 0, loadAsync) ∧
      (cfg.kvTransfer.isSome →
        { seq with kvTransferParams := params }.wantsRemotePrefill = false) ∧
      (cfg.kvTransfer.isSome → seq.wantsRemotePrefill = true → seq.listsPrompt cfg = false)) ∨
    (∃ numExternalTokens, numExternalTokens ≠ 0 ∧ cfg.kvTransfer.isSome ∧
      seq.wantsRemotePrefill = true ∧ seq.listsPrompt cfg = true ∧
      (if cfg.kvTransfer.isSome then
        NixlConnectorScheduler.getNumNewMatchedTokens cfg seq seq.numCachedTokens
      else (seq, 0, false)) = (seq, numExternalTokens, true)) := by
  cases connected : cfg.kvTransfer.isSome with
  | false => exact Or.inl ⟨seq.kvTransferParams, false, by simp, by simp, by simp⟩
  | true =>
      simp only [if_true, NixlConnectorScheduler.getNumNewMatchedTokens]
      cases asked : seq.kvTransferParams with
      | none =>
          refine Or.inl ⟨seq.kvTransferParams, false, rfl, fun _ => ?_, fun _ => ?_⟩ <;>
            simp [Sequence.wantsRemotePrefill, asked]
      | some params =>
          cases wants : params.doRemotePrefill with
          | false =>
              refine Or.inl ⟨seq.kvTransferParams, false, by simp [wants], fun _ => ?_,
                fun _ => ?_⟩ <;>
                simp [Sequence.wantsRemotePrefill, asked, wants]
          | true =>
              have wantsSeq : seq.wantsRemotePrefill = true := by
                simp [Sequence.wantsRemotePrefill, asked, wants]
              by_cases wrong : params.remoteBlockIds.length ≠ cdiv seq.numPromptTokens cfg.blockSize
              · refine Or.inl ⟨seq.clearRemotePrefill.kvTransferParams, false, ?_, fun _ => ?_,
                  fun _ _ => ?_⟩
                · simp [wants, wrong, Sequence.clearRemotePrefill]
                · simp [Sequence.wantsRemotePrefill, Sequence.clearRemotePrefill, asked]
                · simpa [Sequence.listsPrompt, asked] using wrong
              · refine Or.inr ⟨(seq.numPromptTokens : Int) - seq.numCachedTokens, ?_, trivial,
                  wantsSeq, ?_, by simp [wants, wrong]⟩
                · have reach := short.resolve_right (by simp [connected, wantsSeq])
                  omega
                · simpa [Sequence.listsPrompt, asked] using wrong

/-- Admitting the head of the waiting queue starts it, or starts its load. -/
theorem admitHead_spec (inv : s.Inv cfg active rows) {rest : List SeqId}
    (head : s.waiting = i :: rest) {hits fresh : List BlockId}
    (allocates : s.Allocates cfg i (s.otherHoldings active i) bm hits fresh) (budget : Nat)
    (output : SchedulerOutput) :
    (∃ params,
      (cfg.kvTransfer.isSome →
        { s.heap i with kvTransferParams := params }.wantsRemotePrefill = false) ∧
      (cfg.kvTransfer.isSome → (s.heap i).wantsRemotePrefill = true →
        (s.heap i).listsPrompt cfg = false) ∧
      s.admitHead cfg i hits.length budget output = .ok
        (s.enter i (((s.heap i).allocated cfg hits fresh).started cfg params budget) bm,
          (output.withQueried cfg ((s.heap i).allocated cfg hits fresh) hits.length).withScheduled
            i ((s.heap i).allocated cfg hits fresh)
            (((s.heap i).allocated cfg hits fresh).numToSchedule cfg budget),
          ((s.heap i).allocated cfg hits fresh).numToSchedule cfg budget)) ∨
    (cfg.kvTransfer.isSome ∧ (s.heap i).wantsRemotePrefill = true ∧
      (s.heap i).listsPrompt cfg = true ∧
      s.admitHead cfg i hits.length budget output = .ok
        (s.beginLoad i ((s.heap i).allocated cfg hits fresh).loading bm
          (s.connector.updateStateAfterAlloc cfg ((s.heap i).allocated cfg hits fresh)).1,
          output.withQueried cfg ((s.heap i).allocated cfg hits fresh) hits.length, 0)) := by
  obtain ⟨_, _, _, isQueued, _⟩ := inv.queued (head ▸ List.mem_cons_self)
  have short : ((s.heap i).allocated cfg hits fresh).numCachedTokens <
        ((s.heap i).allocated cfg hits fresh).numPromptTokens ∨
      cfg.kvTransfer.isSome = false ∨
      ((s.heap i).allocated cfg hits fresh).wantsRemotePrefill = false := by
    cases connected : cfg.kvTransfer.isSome with
    | false => exact Or.inr (Or.inl rfl)
    | true =>
        cases wants : ((s.heap i).allocated cfg hits fresh).wantsRemotePrefill with
        | false => exact Or.inr (Or.inr rfl)
        | true => exact Or.inl ((isQueued.unloaded connected wants) ▸ allocates.short)
  have tailEq : s.waiting.tail = s.waiting.erase i := by simp [head]
  rcases matched_cases cfg _ short with ⟨params, loadAsync, matched, loaded, mismatch⟩ |
    ⟨numExternalTokens, some, connected, wants, lists, matched⟩
  · refine Or.inl ⟨params, loaded, mismatch, ?_⟩
    simp only [admitHead, allocates.allocated, bind, Except.bind]
    simp only [matched, ne_eq, not_true_eq_false, if_false, scheduleSeq_eq, setSeq_heap_self,
      setSeq_setSeq, tailEq]
    simp [Scheduler.enter, setSeq, Sequence.started, Sequence.numToSchedule,
      SchedulerOutput.withScheduled, SchedulerOutput.withQueried, Sequence.numTokens]
  · refine Or.inr ⟨connected, wants, lists, ?_⟩
    simp only [admitHead, allocates.allocated, bind, Except.bind]
    simp only [matched, ne_eq, some, not_false_eq_true, if_true, tailEq,
      NixlConnectorScheduler.updateStateAfterAlloc_snd]
    simp [Scheduler.beginLoad, setSeq, Sequence.loading, Sequence.clearRemotePrefill,
      Sequence.allocated, SchedulerOutput.withQueried]

end Scheduler

end LeanVllm
