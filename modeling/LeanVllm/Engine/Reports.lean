import LeanVllm.Engine.Launching

/-!
# Reports of the connector

A report names sends and loads that are over.  Sent blocks are released; a
loaded sequence runs from its last prompt token, a failed one from its cached
part, and the blocks of a cancelled one are released.
-/

namespace LeanVllm

open Collections

namespace Sequence

variable {cfg : Config} {seq : Sequence}

/-- A loading sequence may run from any computed part of its prompt. -/
theorem Loading.resumed (loading : seq.Loading cfg) {computed published : Nat}
    (short : computed < seq.numTokens)
    (published_le : published * cfg.blockSize ≤ min computed seq.numTokens) :
    { seq with
      numCachedTokens := computed
      numPublishedBlocks := published
      status := .running }.Active cfg 0 where
  prompt_pos := loading.prompt_pos
  prompt_le := loading.prompt_le
  hashed := loading.hashed
  status := rfl
  pending := loading.settled
  unfinished := loading.unfinished
  planned_le := by
    have unfinished := loading.unfinished
    have settled := loading.settled
    simp only [numPlannedTokens, numCompletionTokens, numTokens] at unfinished ⊢
    omega
  prefilling _ := ⟨loading.settled, loading.drafts, short, loading.covered⟩
  decoding decoding := absurd (loading.prefill.symm.trans decoding) (by simp)
  covered := short.le.trans ((Nat.le_add_right _ _).trans loading.covered)
  published_le := published_le
  loaded _ := loading.loaded

end Sequence

namespace Scheduler

variable {cfg : Config} {s : Scheduler} {active : List SeqId} {rows : List LaunchedRow}
  {i : SeqId}

/-- The turns of the loop over `finished_sending`, each from a state that
satisfies the invariant. -/
inductive Releases (cfg : Config) (active : List SeqId) (rows : List LaunchedRow) :
    Scheduler → List RequestId → Scheduler → Prop
  | nil {s : Scheduler} : Releases cfg active rows s [] s
  | skip {s last : Scheduler} {requestId : RequestId} {rest : List RequestId}
      (absent : s.sending.lookup requestId = none)
      (others : Releases cfg active rows s rest last) :
      Releases cfg active rows s (requestId :: rest) last
  | release {s last : Scheduler} {requestId : RequestId} {rest : List RequestId} {i : SeqId}
      {bm : BlockManager} (inv : s.Inv cfg active rows)
      (found : s.sending.lookup requestId = some i)
      (freed : BlockManager.dropReferences (s.heap i).blockTable.reverse s.blockManager = .ok bm)
      (next : (s.endHold i (s.heap i).released bm).Inv cfg active rows)
      (others : Releases cfg active rows (s.endHold i (s.heap i).released bm) rest last) :
      Releases cfg active rows s (requestId :: rest) last

theorem releaseSent_spec (inv : s.Inv cfg active rows) (finishedSending : List RequestId) :
    ∃ last, s.releaseSent finishedSending = .ok last ∧ Releases cfg active rows s finishedSending last ∧
      last.Inv cfg active rows ∧ last.running = s.running := by
  induction finishedSending generalizing s with
  | nil => exact ⟨s, rfl, .nil, inv, rfl⟩
  | cons requestId rest ih =>
      rw [releaseSent]
      cases found : s.sending.lookup requestId with
      | none =>
          obtain ⟨last, looped, releases, lastInv, running⟩ := ih inv
          exact ⟨last, looped, .skip found releases, lastInv, running⟩
      | some i =>
          obtain ⟨idEq, plays⟩ := inv.sending found
          obtain ⟨bm, freed, blocks, keeps, _⟩ := inv.release plays (Or.inl rfl)
          have next : (s.endHold i (s.heap i).released bm).Inv cfg active rows :=
            inv.endHold plays plays.2.2.2 rfl rfl blocks keeps
          obtain ⟨last, looped, releases, lastInv, running⟩ := ih next
          refine ⟨last, ?_, .release inv found freed next releases, lastInv, running⟩
          have released := deallocate_eq
            (s := { s with sending := s.sending.erase requestId }) (i := i) freed
          simp only [released, bind, Except.bind]
          rw [← looped, endHold, renew, idEq]
          rfl

/-- What one reported load leads to: a cancelled request's blocks come back, a
finished load is counted and published, and a failed one is prefilled. -/
inductive Receives (cfg : Config) (s : Scheduler) (finishedRecving : List RequestId)
    (requestId : RequestId) : Scheduler → Prop
  | cancelled {i : SeqId} {bm : BlockManager} (found : s.recving.lookup requestId = some i)
      (finished : (s.heap i).status = .finished)
      (freed : BlockManager.dropReferences (s.heap i).blockTable.reverse s.blockManager = .ok bm) :
      Receives cfg s finishedRecving requestId
        (s.endLoad i (s.heap i).released bm s.running)
  | loaded {i : SeqId} {n : Nat} {bm : BlockManager} (found : s.recving.lookup requestId = some i)
      (unfinished : (s.heap i).status = .waitingForRemoteKvs)
      (reported : requestId ∈ finishedRecving)
      (publishes : BlockManager.Publishes cfg (s.heap i) (s.heap i).numPublishedBlocks n
        s.blockManager bm) :
      Receives cfg s finishedRecving requestId
        (s.endLoad i
          { s.heap i with
            numCachedTokens := (s.heap i).numPromptTokens - 1
            numPublishedBlocks := (s.heap i).numPublishedBlocks + n
            status := .running } bm (s.running ++ [i]))
  | failed {i : SeqId} (found : s.recving.lookup requestId = some i)
      (unfinished : (s.heap i).status = .waitingForRemoteKvs)
      (reported : requestId ∉ finishedRecving) :
      Receives cfg s finishedRecving requestId
        (s.endLoad i { s.heap i with status := .running } s.blockManager (s.running ++ [i]))

theorem receive_spec (inv : s.Inv cfg s.running rows) (finishedRecving : List RequestId)
    {requestId : RequestId} (loading : requestId ∈ s.recving) :
    ∃ after, s.receive cfg finishedRecving requestId = .ok after ∧
      Receives cfg s finishedRecving requestId after ∧ after.Inv cfg after.running rows := by
  obtain ⟨i, found⟩ := Option.isSome_iff_exists.mp (AList.lookup_isSome.mpr loading)
  obtain ⟨rfl, plays⟩ := inv.recving found
  rw [receive, found]
  rcases plays with plays | plays
  · obtain ⟨notQueued, notRunning, stored, status, isLoading, _⟩ := id plays
    have going : ¬ (s.heap i).isFinished := by simp [Sequence.isFinished, status]
    have blocks : s.blockManager.Inv cfg
        ((s.heap i).blockTable ++ s.otherHoldings s.running i) := inv.split plays
    have unpublished := inv.unpublished i (Or.inr (Dict.mem_values_iff.mpr ⟨_, found⟩))
    have aligned := isLoading.aligned
    have short := isLoading.cached_lt
    have fresh := isLoading.fresh
    have positive := isLoading.prompt_pos
    have covered := isLoading.covered
    by_cases reported : (s.heap i).requestId ∈ finishedRecving
    · let counted : Sequence := { s.heap i with
        numCachedTokens := (s.heap i).numPromptTokens - 1 }
      have full : min counted.numCachedTokens counted.numTokens / cfg.blockSize ≤
          counted.blockTable.length := by
        refine Nat.div_le_of_le_mul ?_
        rw [Nat.mul_comm]
        exact (Nat.min_le_right _ _).trans ((Nat.le_add_right _ _).trans covered)
      obtain ⟨n, bm, hashedEq, published, afterBlocks, publishes, rest⟩ :=
        BlockManager.hashBlocks_spec (show s.blockManager.Inv cfg
          (counted.blockTable ++ s.otherHoldings s.running i) from blocks) isLoading.hashed
          counted.numCachedTokens full unpublished
      have published_le : ((s.heap i).numPublishedBlocks + n) * cfg.blockSize ≤
          min ((s.heap i).numPromptTokens - 1) (s.heap i).numTokens :=
        Sequence.published_mul_le (by omega) published
      have isActive := isLoading.resumed
        (show (s.heap i).numPromptTokens - 1 < (s.heap i).numTokens by omega) published_le
      refine ⟨_, ?_, .loaded found status reported
        ⟨publishes.same, publishes.hash, publishes.pool⟩,
        inv.resume plays rfl rfl isActive afterBlocks ?_ rest⟩
      · simp only [going, reported, if_true, bind, Except.bind, endLoad]
        rw [if_neg (by simp), show s.blockManager.hashBlocks cfg { s.heap i with
          numCachedTokens := (s.heap i).numPromptTokens - 1 }
          ((s.heap i).numPromptTokens - 1) = _ from hashedEq]
        simp [setSeq, counted]
      · intro blockId other hashEq
        rw [publishes.same blockId, hashEq]
        intro inPart
        exact blocks.not_mem_of_unpublished
          (List.mem_of_mem_drop (List.mem_of_mem_take inPart)) hashEq other
    · have published_le : (s.heap i).numPublishedBlocks * cfg.blockSize ≤
          min (s.heap i).numCachedTokens (s.heap i).numTokens := by
        omega
      have isActive := isLoading.resumed short published_le
      refine ⟨_, ?_, .failed found status reported,
        inv.resume plays rfl rfl isActive blocks (fun _ _ unpublished => unpublished) unpublished⟩
      simp only [going, reported, if_false, bind, Except.bind, endLoad]
      rfl
  · obtain ⟨notQueued, notRunning, stored, status, isLoading⟩ := id plays
    obtain ⟨bm, freed, blocks, keeps, _⟩ := inv.release plays (Or.inl rfl)
    have next : (s.endLoad i (s.heap i).released bm s.running).Inv cfg s.running rows :=
      inv.endLoad plays status rfl rfl blocks keeps
    refine ⟨_, ?_, .cancelled found status freed, next⟩
    have released := deallocate_eq
      (s := { s with recving := s.recving.erase (s.heap i).requestId }) (i := i) freed
    have finished : (s.heap i).isFinished := by simp [Sequence.isFinished, status]
    simp only [finished, if_true, released, endLoad]
    rfl

/-- The turns of the loop over the reported loads, each from a state that
satisfies the invariant. -/
inductive ReceivesAll (cfg : Config) (rows : List LaunchedRow)
    (finishedRecving : List RequestId) : Scheduler → List RequestId → Scheduler → Prop
  | nil {s : Scheduler} : ReceivesAll cfg rows finishedRecving s [] s
  | cons {s next last : Scheduler} {requestId : RequestId} {rest : List RequestId}
      (inv : s.Inv cfg s.running rows)
      (turn : Receives cfg s finishedRecving requestId next)
      (nextInv : next.Inv cfg next.running rows)
      (others : ReceivesAll cfg rows finishedRecving next rest last) :
      ReceivesAll cfg rows finishedRecving s (requestId :: rest) last

/-- What a report leaves alone: the queues keep their order, and only loading
or held sequences change. -/
structure Reported (s last : Scheduler) : Prop where
  running : s.running <+: last.running
  waiting : last.waiting = s.waiting
  seqs : last.seqs = s.seqs
  counter : last.counter = s.counter
  heap : ∀ j, j ∉ s.recving.values → j ∉ s.sending.values → last.heap j = s.heap j
  recving : ∀ j ∈ last.recving.values, j ∈ s.recving.values
  sending : ∀ j ∈ last.sending.values, j ∈ s.sending.values

theorem Reported.refl (s : Scheduler) : Reported s s :=
  ⟨List.prefix_rfl, rfl, rfl, rfl, fun _ _ _ => rfl, fun _ => id, fun _ => id⟩

theorem Reported.trans {first second third : Scheduler} (left : Reported first second)
    (right : Reported second third) : Reported first third where
  running := left.running.trans right.running
  waiting := right.waiting.trans left.waiting
  seqs := right.seqs.trans left.seqs
  counter := right.counter.trans left.counter
  heap j notLoading notHeld := by
    rw [right.heap j (fun loading => notLoading (left.recving j loading))
      (fun held => notHeld (left.sending j held)), left.heap j notLoading notHeld]
  recving j member := left.recving j (right.recving j member)
  sending j member := left.sending j (right.sending j member)

theorem mem_values_of_erase {dict : Dict RequestId SeqId} {key : RequestId} {value : SeqId}
    (member : value ∈ Dict.values (dict.erase key)) : value ∈ dict.values := by
  obtain ⟨other, found⟩ := Dict.mem_values_iff.mp member
  rw [Dict.lookup_erase_eq] at found
  split at found
  · contradiction
  · exact Dict.mem_values_iff.mpr ⟨other, found⟩

theorem Releases.reported {finishedSending : List RequestId} {last : Scheduler}
    (releases : Releases cfg active rows s finishedSending last) : Reported s last := by
  induction releases with
  | nil => exact Reported.refl _
  | skip absent _ ih => exact ih
  | @release s last requestId rest i bm inv found freed next _ ih =>
      have turn : Reported s (s.endHold i (s.heap i).released bm) := by
        refine ⟨List.prefix_rfl, rfl, rfl, rfl, ?_, fun _ => id, fun _ => mem_values_of_erase⟩
        intro j _ notHeld
        refine setSeq_heap_of_ne s ?_ _
        rintro rfl
        exact notHeld (Dict.mem_values_iff.mpr ⟨requestId, found⟩)
      exact turn.trans ih

theorem Receives.reported {finishedRecving : List RequestId} {requestId : RequestId}
    {after : Scheduler} (receives : Receives cfg s finishedRecving requestId after) :
    Reported s after := by
  have other : ∀ i j, s.recving.lookup requestId = some i → j ∉ s.recving.values →
      ∀ seq, (s.setSeq i seq).heap j = s.heap j := by
    rintro i j found notLoading seq
    refine setSeq_heap_of_ne s ?_ _
    rintro rfl
    exact notLoading (Dict.mem_values_iff.mpr ⟨requestId, found⟩)
  cases receives with
  | @cancelled i bm found finished freed =>
      exact ⟨List.prefix_rfl, rfl, rfl, rfl, fun j notLoading _ => other i j found notLoading _,
        fun _ => mem_values_of_erase, fun _ => id⟩
  | @loaded i n bm found unfinished reported publishes =>
      exact ⟨List.prefix_append _ _, rfl, rfl, rfl,
        fun j notLoading _ => other i j found notLoading _, fun _ => mem_values_of_erase,
        fun _ => id⟩
  | @failed i found unfinished reported =>
      exact ⟨List.prefix_append _ _, rfl, rfl, rfl,
        fun j notLoading _ => other i j found notLoading _, fun _ => mem_values_of_erase,
        fun _ => id⟩

theorem ReceivesAll.reported {finishedRecving order : List RequestId} {last : Scheduler}
    (receives : ReceivesAll cfg rows finishedRecving s order last) : Reported s last := by
  induction receives with
  | nil => exact Reported.refl _
  | cons inv turn nextInv _ ih => exact turn.reported.trans ih

theorem Receives.recving_eq {finishedRecving : List RequestId} {requestId : RequestId}
    {after : Scheduler} (receives : Receives cfg s finishedRecving requestId after)
    (inv : s.Inv cfg active rows) : after.recving = s.recving.erase requestId := by
  have key : ∀ i, s.recving.lookup requestId = some i → (s.heap i).requestId = requestId :=
    fun i found => inv.keyed requestId i (Or.inr (Or.inl found))
  cases receives with
  | cancelled found finished freed => rw [endLoad, key _ found]
  | loaded found unfinished reported publishes => rw [endLoad, key _ found]
  | failed found unfinished reported => rw [endLoad, key _ found]

theorem receiveAll_spec (inv : s.Inv cfg s.running rows) (finishedRecving : List RequestId)
    {order : List RequestId} (distinct : order.Nodup)
    (loading : ∀ requestId ∈ order, requestId ∈ s.recving) :
    ∃ last, receiveAll cfg finishedRecving s order = .ok last ∧
      ReceivesAll cfg rows finishedRecving s order last ∧ last.Inv cfg last.running rows := by
  induction order generalizing s with
  | nil => exact ⟨s, rfl, .nil, inv⟩
  | cons requestId rest ih =>
      obtain ⟨notLater, later⟩ := List.nodup_cons.mp distinct
      obtain ⟨next, received, turn, nextInv⟩ := receive_spec inv finishedRecving
        (loading requestId List.mem_cons_self)
      obtain ⟨last, looped, receives, lastInv⟩ := ih nextInv later (by
        intro other member
        rw [turn.recving_eq inv, AList.mem_erase]
        refine ⟨?_, loading other (List.mem_cons_of_mem _ member)⟩
        rintro rfl
        exact notLater member)
      exact ⟨last, by simp only [receiveAll, received, looped, bind, Except.bind],
        .cons inv turn nextInv receives, lastInv⟩

theorem Releases.recving_eq {finishedSending : List RequestId} {last : Scheduler}
    (releases : Releases cfg active rows s finishedSending last) : last.recving = s.recving := by
  induction releases with
  | nil => rfl
  | skip absent _ ih => exact ih
  | release inv found freed next _ ih => exact ih

theorem Releases.heap_of_loading {finishedSending : List RequestId} {last : Scheduler}
    (releases : Releases cfg active rows s finishedSending last) (inv : s.Inv cfg active rows)
    {requestId : RequestId} (found : s.recving.lookup requestId = some i) :
    last.heap i = s.heap i := by
  induction releases with
  | nil => rfl
  | skip absent _ ih => exact ih inv found
  | @release s last released rest j bm _ held freed next _ ih =>
      have other : i ≠ j := by
        rintro rfl
        have loading := inv.keyed requestId i (Or.inr (Or.inl found))
        obtain ⟨_, plays⟩ := inv.sending held
        rw [← loading] at found
        exact absurd (found.symm.trans plays.2.2.1.2.1) (by simp)
      rw [ih next found]
      exact setSeq_heap_of_ne s other _

/-- The connector's report ends the sends and loads it names. -/
theorem updateFromKvConnectorOutput_spec (inv : s.Inv cfg s.running rows)
    (kvOutput : KVConnectorOutput) {order : List RequestId} (distinct : order.Nodup)
    (loading : ∀ requestId ∈ order, requestId ∈ s.recving) :
    ∃ middle last, s.updateFromKvConnectorOutput cfg kvOutput order = .ok last ∧
      Releases cfg s.running rows s kvOutput.finishedSending middle ∧
      ReceivesAll cfg rows kvOutput.finishedRecving middle order last ∧
      middle.Inv cfg middle.running rows ∧ last.Inv cfg last.running rows := by
  obtain ⟨middle, released, releases, middleInv, running⟩ :=
    releaseSent_spec inv kvOutput.finishedSending
  rw [← running] at middleInv
  obtain ⟨last, received, receives, lastInv⟩ := receiveAll_spec middleInv
    kvOutput.finishedRecving distinct (by rw [releases.recving_eq]; exact loading)
  exact ⟨middle, last, by
    simp only [updateFromKvConnectorOutput, released, received, bind, Except.bind], releases,
    receives, middleInv, lastInv⟩

end Scheduler

end LeanVllm
