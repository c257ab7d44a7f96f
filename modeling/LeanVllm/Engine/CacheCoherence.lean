import LeanVllm.Engine.CacheModel
import LeanVllm.Engine.TokenStreams

/-!
# Coherence of the KV cache

Three kinds of slots matter: those of a published block, those a running
sequence has computed, and those a loading sequence found in the cache.  Each
holds the prefix its reader takes it for.  The invariant says so, and every
operation of the engine and every write of the device keeps it.
-/

namespace LeanVllm

open Collections

/-- The block holds the tokens its hash is a hash of. -/
def Cache.Holds (cfg : Config) (cache : Cache) (blockId : BlockId) (hash : Hash) : Prop :=
  ∃ tokens k, hash = chainHash cfg tokens k ∧
    ∀ o < cfg.blockSize, cache (blockId, o) = tokens.take (k * cfg.blockSize + o + 1)

/-- How many positions of a running sequence are computed once its steps in
flight are. -/
def Sequence.computed (seq : Sequence) (flight : Flight) (i : SeqId) : Nat :=
  if seq.isPrefill then seq.numCachedTokens else (seq.stream flight i).length - 1

/-- Every slot that will be read holds what it will be read for. -/
structure Coherent (cfg : Config) (flight : Flight) (s : Scheduler) (cache : Cache) : Prop where
  published : ∀ blockId, (s.blockManager.blocks blockId).hash ≠ -1 →
    cache.Holds cfg blockId (s.blockManager.blocks blockId).hash
  running : ∀ i ∈ s.running, (s.heap i).Reads cfg cache ((s.heap i).stream flight i)
    ((s.heap i).computed flight i)
  loading : ∀ i ∈ s.recving.values, (s.heap i).Reads cfg cache (s.heap i).tokenIds
    (s.heap i).numCachedTokens

/-! ## Blocks -/

namespace BlockManager

variable {cfg : Config} {cache : Cache} {bm after : BlockManager} {held : List BlockId}
  {seq : Sequence}

theorem dropReference_hash {blockId : BlockId} (dropped : bm.dropReference blockId = .ok after)
    (other : BlockId) : (after.blocks other).hash = (bm.blocks other).hash := by
  have counted : (Function.update bm.blocks blockId { bm.blocks blockId with
      refCount := (bm.blocks blockId).refCount - 1 } other).hash = (bm.blocks other).hash :=
    withCount_hash bm blockId other _
  simp only [dropReference, deallocateBlock] at dropped
  split at dropped
  · split at dropped
    · contradiction
    · split at dropped
      · contradiction
      · rw [← Except.ok.inj dropped]
        exact counted
  · rw [← Except.ok.inj dropped]
    exact counted

/-- Giving blocks back unpublishes none of them. -/
theorem dropReferences_hash {table : List BlockId} (dropped : dropReferences table bm = .ok after)
    (other : BlockId) : (after.blocks other).hash = (bm.blocks other).hash := by
  induction table generalizing bm with
  | nil => rw [← Except.ok.inj dropped]
  | cons blockId table ih =>
      simp only [dropReferences, bind, Except.bind] at dropped
      split at dropped
      · contradiction
      · rename_i next first
        rw [ih dropped, dropReference_hash first]

/-- A prefix hit is a block computed from the same tokens. -/
theorem HitsFrom.reads (injective : cfg.HashInjective) (inv : bm.Inv cfg held)
    (hashed : seq.Hashed cfg) {hits : List BlockId} (cached : HitsFrom cfg bm seq 0 hits)
    (published : ∀ blockId, (bm.blocks blockId).hash ≠ -1 →
      cache.Holds cfg blockId (bm.blocks blockId).hash) (fresh : List BlockId) :
    (seq.allocated cfg hits fresh).Reads cfg cache seq.tokenIds (hits.length * cfg.blockSize) := by
  intro p below
  have index : p / cfg.blockSize < hits.length := (Nat.div_lt_iff_lt_mul cfg.blockSize_pos).mpr below
  have inside : p % cfg.blockSize < cfg.blockSize := Nat.mod_lt _ cfg.blockSize_pos
  obtain ⟨blockId, found⟩ : ∃ blockId, hits[p / cfg.blockSize]? = some blockId :=
    ⟨_, List.getElem?_eq_getElem index⟩
  obtain ⟨hash, hashEq, cachedAt, _⟩ := cached _ _ found
  obtain ⟨_, blockHash, real⟩ := inv.cached _ _ cachedAt
  obtain ⟨tokens, k, chained, holds⟩ := published blockId (by rw [blockHash]; exact real)
  rw [Nat.zero_add] at hashEq
  have own : hash = chainHash cfg seq.tokenIds (p / cfg.blockSize) := by
    rw [hashed] at hashEq
    split at hashEq
    · simp only [chainHashes, List.getElem?_map, Option.map_eq_some_iff] at hashEq
      obtain ⟨j, atIndex, hashEq⟩ := hashEq
      rw [← hashEq, ← (List.getElem?_eq_some_iff.mp atIndex).2, List.getElem_range]
    · simp at hashEq
  have chains : chainHash cfg tokens k = chainHash cfg seq.tokenIds (p / cfg.blockSize) :=
    chained.symm.trans (blockHash.trans own)
  obtain rfl := chainHash_index_inj injective chains
  have slotEq : (seq.allocated cfg hits fresh).slot cfg p =
      some (blockId, p % cfg.blockSize) := by
    rw [Sequence.slot_eq_some_iff]
    exact ⟨(List.getElem?_append_left index).trans found, rfl⟩
  have position : p / cfg.blockSize * cfg.blockSize + p % cfg.blockSize = p :=
    Nat.div_add_mod' p cfg.blockSize
  have cut := congrArg (List.take (p + 1)) (take_eq_of_chainHash_eq injective chains)
  rw [List.take_take, List.take_take, Nat.min_eq_left (by rw [Nat.succ_mul]; omega)] at cut
  rw [Sequence.read_eq slotEq, holds _ inside, position, cut]

/-- Blocks published from a sequence that reads its tokens hold them. -/
theorem Publishes.holds {i n : Nat} (publishes : Publishes cfg seq i n bm after)
    (reads : seq.Reads cfg cache seq.tokenIds ((i + n) * cfg.blockSize))
    (published : ∀ blockId, (bm.blocks blockId).hash ≠ -1 →
      cache.Holds cfg blockId (bm.blocks blockId).hash) (blockId : BlockId)
    (real : (after.blocks blockId).hash ≠ -1) :
    cache.Holds cfg blockId (after.blocks blockId).hash := by
  by_cases among : blockId ∈ (seq.blockTable.drop i).take n
  · obtain ⟨j, atIndex⟩ := List.mem_iff_getElem?.mp among
    rw [List.getElem?_take] at atIndex
    split at atIndex
    · rename_i few
      rw [List.getElem?_drop] at atIndex
      refine ⟨seq.tokenIds, i + j, publishes.hash (i + j) blockId (by omega) (by omega) atIndex, ?_⟩
      intro o inside
      have slotEq : seq.slot cfg ((i + j) * cfg.blockSize + o) = some (blockId, o) :=
        Sequence.slot_block atIndex inside
      have below : (i + j) * cfg.blockSize + o < (i + n) * cfg.blockSize := by
        have room : (i + j + 1) * cfg.blockSize ≤ (i + n) * cfg.blockSize :=
          Nat.mul_le_mul_right _ (by omega)
        rw [Nat.succ_mul] at room
        omega
      have value := reads _ below
      rw [Sequence.read_eq slotEq] at value
      exact Option.some.inj value
    · contradiction
  · rw [publishes.same blockId among] at real ⊢
    exact published blockId real

end BlockManager

/-! ## The engine's operations -/

namespace Coherent

variable {cfg : Config} {flight : Flight} {s after : Scheduler} {cache : Cache} {i : SeqId}

/-- An operation on one sequence is coherent if it is for that sequence. -/
theorem update (coherent : Coherent cfg flight s cache) (i : SeqId)
    (heap : ∀ j, j ≠ i → after.heap j = s.heap j)
    (runs : ∀ j, j ≠ i → j ∈ after.running → j ∈ s.running)
    (loads : ∀ j, j ≠ i → j ∈ after.recving.values → j ∈ s.recving.values)
    (published : ∀ blockId, (after.blockManager.blocks blockId).hash ≠ -1 →
      cache.Holds cfg blockId (after.blockManager.blocks blockId).hash)
    (running : i ∈ after.running → (after.heap i).Reads cfg cache ((after.heap i).stream flight i)
      ((after.heap i).computed flight i))
    (loading : i ∈ after.recving.values →
      (after.heap i).Reads cfg cache (after.heap i).tokenIds (after.heap i).numCachedTokens) :
    Coherent cfg flight after cache where
  published := published
  running j member := by
    by_cases own : j = i
    · subst own
      exact running member
    · rw [heap j own]
      exact coherent.running j (runs j own member)
  loading j member := by
    by_cases own : j = i
    · subst own
      exact loading member
    · rw [heap j own]
      exact coherent.loading j (loads j own member)

/-- Blocks published before and not renewed since still hold their tokens. -/
theorem keeps (coherent : Coherent cfg flight s cache) {bm : BlockManager} {fresh : List BlockId}
    (keeps : BlockManager.Keeps s.blockManager bm fresh) (blockId : BlockId)
    (real : (bm.blocks blockId).hash ≠ -1) : cache.Holds cfg blockId (bm.blocks blockId).hash := by
  by_cases new : blockId ∈ fresh
  · exact absurd (keeps.unpublished blockId new) real
  · rw [(keeps.same blockId new).1] at real ⊢
    exact coherent.published blockId real

theorem frees (coherent : Coherent cfg flight s cache) {bm : BlockManager} {table : List BlockId}
    (freed : BlockManager.dropReferences table s.blockManager = .ok bm) (blockId : BlockId)
    (real : (bm.blocks blockId).hash ≠ -1) : cache.Holds cfg blockId (bm.blocks blockId).hash := by
  rw [BlockManager.dropReferences_hash freed] at real ⊢
  exact coherent.published blockId real

/-- A prefilling sequence with nothing in flight reads its own tokens. -/
theorem reads_settled {seq : Sequence} (settled : due flight.rows i seq.numPreemptions = 0)
    (prefill : seq.isPrefill = true)
    (reads : seq.Reads cfg cache seq.tokenIds seq.numCachedTokens) :
    seq.Reads cfg cache (seq.stream flight i) (seq.computed flight i) := by
  rw [Sequence.stream, Flight.pendingTokens_of_due_eq_zero settled, List.append_nil,
    Sequence.computed, if_pos prefill]
  exact reads

end Coherent

namespace Scheduler

variable {cfg : Config} {flight : Flight} {s last : Scheduler} {cache : Cache} {i : SeqId}
  {rows : List LaunchedRow}

/-- A loading sequence is not in `running`, and the other way round. -/
theorem Roster.not_loading (inv : s.Roster cfg s.running rows) (member : i ∈ s.running) :
    i ∉ s.recving.values := by
  intro loading
  obtain ⟨requestId, found⟩ := Dict.mem_values_iff.mp loading
  obtain ⟨_, plays | plays⟩ := inv.recving found
  · exact plays.2.1 member
  · exact plays.2.1 member

theorem Roster.queued_apart (inv : s.Roster cfg s.running rows) (member : i ∈ s.waiting) :
    i ∉ s.running ∧ i ∉ s.recving.values := by
  refine ⟨(inv.queued member).2.1, ?_⟩
  intro loading
  obtain ⟨requestId, found⟩ := Dict.mem_values_iff.mp loading
  obtain ⟨_, plays | plays⟩ := inv.recving found
  · exact plays.1 member
  · exact plays.1 member

/-- A move of a scheduling pass keeps the cache coherent. -/
theorem Move.coherent {before after : Scheduler × SchedulerOutput} (injective : cfg.HashInjective)
    (move : Move cfg before after) (pass : PassInv cfg before flight.rows)
    (coherent : Coherent cfg flight before.1 cache) : Coherent cfg flight after.1 cache := by
  cases move with
  | reorder reordered =>
      exact ⟨coherent.published, fun i member => coherent.running i (reordered.mem_iff.mp member),
        coherent.loading⟩
  | recount => exact coherent
  | @preempt s output i bm member idle freed =>
      refine coherent.update i (fun j other => setSeq_heap_of_ne s other _)
        (fun j _ still => List.mem_of_mem_erase still) (fun j _ => id) (coherent.frees freed) ?_ ?_
      · intro still
        exact absurd still (List.Nodup.not_mem_erase pass.inv.active_nodup)
      · intro loading
        exact absurd loading (pass.inv.not_loading member)
  | @dropRunning s output i bm member idle settled freed =>
      refine coherent.update i (fun j other => setSeq_heap_of_ne s other _)
        (fun j _ still => List.mem_of_mem_erase still) (fun j _ => id) (coherent.frees freed) ?_ ?_
      · intro still
        exact absurd still (List.Nodup.not_mem_erase pass.inv.active_nodup)
      · intro loading
        exact absurd loading (pass.inv.not_loading member)
  | @dropWaiting s output i head =>
      obtain ⟨notRunning, notLoading⟩ := pass.inv.queued_apart (List.mem_of_mem_head? head)
      exact coherent.update i (fun j other => setSeq_heap_of_ne s other _)
        (fun j _ still => List.mem_of_mem_erase still) (fun j _ => id) coherent.published
        (fun still => absurd (List.mem_of_mem_erase still) notRunning)
        (fun loading => absurd loading notLoading)
  | @trim s output i member idle n =>
      refine coherent.update i (fun j other => setSeq_heap_of_ne s other _) (fun j _ => id)
        (fun j _ => id) coherent.published (fun _ => ?_)
        (fun loading => absurd loading (pass.inv.not_loading member))
      rw [renew_heap_self]
      exact coherent.running i member
  | @append s output i bm fresh numLookahead member idle within fits appended =>
      obtain ⟨_, keeps, _⟩ := pass.inv.append member fits appended
      refine coherent.update i (fun j other => setSeq_heap_of_ne s other _) (fun j _ => id)
        (fun j _ => id) (coherent.keeps keeps) (fun _ => ?_)
        (fun loading => absurd loading (pass.inv.not_loading member))
      rw [renew_heap_self]
      exact (coherent.running i member).extend (List.prefix_append _ _)
  | @serve s output i n member idle ready =>
      refine coherent.update i (fun j other => setSeq_heap_of_ne s other _) (fun j _ => id)
        (fun j _ => id) coherent.published (fun _ => ?_)
        (fun loading => absurd loading (pass.inv.not_loading member))
      rw [renew_heap_self]
      exact coherent.running i member
  | @beginRun s output i bm hits fresh params budget head allocates loaded ready =>
      have queued := List.mem_of_mem_head? head
      obtain ⟨_, _, _, isQueued, settled⟩ := pass.inv.queued queued
      obtain ⟨notRunning, notLoading⟩ := pass.inv.queued_apart queued
      have reads := allocates.cached.reads injective pass.inv.blocks isQueued.hashed
        coherent.published fresh
      refine coherent.update i (fun j other => setSeq_heap_of_ne s other _) ?_ (fun j _ => id)
        (coherent.keeps allocates.keeps) (fun _ => ?_) (fun loading => absurd loading notLoading)
      · intro j other member
        exact (List.mem_append.mp member).resolve_right (by simpa using other)
      · rw [enter, show Scheduler.heap { s.setSeq i _ with .. } i = _ from setSeq_heap_self s i _]
        exact Coherent.reads_settled settled isQueued.prefill reads
  | @load s output i bm hits fresh head allocates connected wants =>
      have queued := List.mem_of_mem_head? head
      obtain ⟨_, _, _, isQueued, _⟩ := pass.inv.queued queued
      obtain ⟨notRunning, _⟩ := pass.inv.queued_apart queued
      have reads := allocates.cached.reads injective pass.inv.blocks isQueued.hashed
        coherent.published fresh
      refine coherent.update i (fun j other => setSeq_heap_of_ne s other _) (fun j _ => id) ?_
        (coherent.keeps allocates.keeps) (fun running => absurd running notRunning) (fun _ => ?_)
      · intro j other member
        obtain ⟨requestId, found⟩ := Dict.mem_values_iff.mp member
        rw [beginLoad] at found
        by_cases own : requestId = (s.heap i).requestId
        · subst own
          rw [AList.lookup_insert] at found
          exact absurd (Option.some.inj found).symm other
        · rw [AList.lookup_insert_ne own] at found
          exact Dict.mem_values_iff.mpr ⟨requestId, found⟩
      · rw [beginLoad, show Scheduler.heap { s.setSeq i _ with .. } i = _ from setSeq_heap_self s i _]
        exact reads

theorem Moves.coherent {before after : Scheduler × SchedulerOutput} (injective : cfg.HashInjective)
    (moves : Moves cfg before after) (pass : PassInv cfg before flight.rows)
    (coherent : Coherent cfg flight before.1 cache) : Coherent cfg flight after.1 cache := by
  induction moves with
  | refl => exact coherent
  | tail earlier move ih => exact move.coherent injective (Moves.passInv earlier pass) ih

theorem Releases.coherent {active : List SeqId} {finishedSending : List RequestId}
    (releases : Releases cfg active rows s finishedSending last) (same : active = s.running)
    (coherent : Coherent cfg flight s cache) : Coherent cfg flight last cache := by
  induction releases with
  | nil => exact coherent
  | skip absent others ih => exact ih same coherent
  | @release s last requestId rest i bm inv found freed next others ih =>
      subst same
      obtain ⟨_, plays⟩ := inv.sending found
      refine ih rfl (coherent.update i (fun j other => setSeq_heap_of_ne s other _) (fun j _ => id)
        (fun j _ => id) (coherent.frees freed) (fun running => absurd running plays.2.1) ?_)
      intro loading
      obtain ⟨other, found'⟩ := Dict.mem_values_iff.mp loading
      have key := inv.keyed other i (Or.inr (Or.inl found'))
      subst key
      exact absurd (found'.symm.trans plays.2.2.1.2.1) (by simp)

end Scheduler

/-! ## The device's writes -/

namespace Coherent

variable {cfg : Config} {flight : Flight} {s : Scheduler} {cache after : Cache} {i : SeqId}

/-- A slot of sequence `i` that nobody reads yet. -/
def Unread (cfg : Config) (flight : Flight) (s : Scheduler) (slot : BlockId × Nat) : Prop :=
  ∃ i p, (s.heap i).slot cfg p = some slot ∧ (s.heap i).numPublishedBlocks ≤ p / cfg.blockSize ∧
    (i ∈ s.running ∧ (s.heap i).computed flight i ≤ p ∨
      i ∈ s.recving.values ∧ (s.heap i).numCachedTokens ≤ p)

/-- Slots nobody reads may be overwritten: each belongs to one sequence, past
what that sequence reads and past what it published. -/
theorem overwrite (coherent : Coherent cfg flight s cache)
    (inv : s.Inv cfg s.running flight.rows) (distinct : s.TablesNodup)
    (writes : ∀ slot : BlockId × Nat, slot.2 < cfg.blockSize →
      after slot = cache slot ∨ Unread cfg flight s slot) : Coherent cfg flight s after := by
  have offset : ∀ {j p slot}, (s.heap j).slot cfg p = some slot → slot.2 < cfg.blockSize := by
    intro j p slot found
    rw [Sequence.slot_eq_some_iff] at found
    rw [found.2]
    exact Nat.mod_lt _ cfg.blockSize_pos
  have apart : ∀ {j p slot}, j ∈ s.running ∨ j ∈ s.recving.values →
      (s.heap j).slot cfg p = some slot → Unread cfg flight s slot →
      j ∈ s.running ∧ (s.heap j).computed flight j ≤ p ∨
        j ∈ s.recving.values ∧ (s.heap j).numCachedTokens ≤ p := by
    rintro j p slot reader found ⟨i, q, foundAt, past, writer⟩
    have atIndex := (Sequence.slot_eq_some_iff.mp foundAt).1
    obtain ⟨_, _, alone⟩ := inv.exclusive (writer.imp And.left And.left) atIndex past
    obtain rfl : j = i := by
      refine alone j ?_ (List.mem_of_getElem? (Sequence.slot_eq_some_iff.mp found).1)
      simp only [Scheduler.owners, List.mem_append]
      exact Or.inl reader
    obtain rfl := Sequence.slot_inj (distinct j) found foundAt
    exact writer
  refine ⟨?_, ?_, ?_⟩
  · intro blockId real
    obtain ⟨tokens, k, chained, holds⟩ := coherent.published blockId real
    refine ⟨tokens, k, chained, fun o inside => ?_⟩
    rcases writes (blockId, o) inside with same | ⟨i, p, found, past, writer⟩
    · rw [same, holds o inside]
    · have atIndex := (Sequence.slot_eq_some_iff.mp found).1
      exact absurd (inv.exclusive (writer.imp And.left And.left) atIndex past).1 real
  · intro j running
    refine (coherent.running j running).elsewhere fun p below slot found => ?_
    refine (writes slot (offset found)).resolve_right fun unread => ?_
    rcases apart (Or.inl running) found unread with ⟨_, beyond⟩ | ⟨loading, _⟩
    · omega
    · exact inv.not_loading running loading
  · intro j loading
    refine (coherent.loading j loading).elsewhere fun p below slot found => ?_
    refine (writes slot (offset found)).resolve_right fun unread => ?_
    rcases apart (Or.inr loading) found unread with ⟨running, _⟩ | ⟨_, beyond⟩
    · exact inv.not_loading running loading
    · omega

/-- Loads write slots nobody reads. -/
theorem loaded {env : StepEnv} (coherent : Coherent cfg flight s cache)
    (inv : s.Inv cfg s.running flight.rows) (distinct : s.TablesNodup)
    (loads : Loads cfg s env cache after) : Coherent cfg flight s after := by
  refine coherent.overwrite inv distinct fun slot inside => ?_
  by_cases elsewhere : ∀ requestId ∈ env.recvOrder, ∀ i, s.recving.lookup requestId = some i →
      slot.1 ∉ (s.heap i).localBlocks cfg
  · exact Or.inl (loads.elsewhere slot elsewhere)
  · push Not at elsewhere
    obtain ⟨requestId, _, i, found, among⟩ := elsewhere
    have isLoading : (s.heap i).Loading cfg := by
      obtain ⟨_, plays | plays⟩ := inv.recving found
      · exact plays.2.2.2.2.1
      · exact plays.2.2.2.2
    obtain ⟨j, atIndex⟩ := List.mem_iff_getElem?.mp among
    rw [Sequence.localBlocks, List.getElem?_drop, isLoading.aligned,
      Nat.mul_div_cancel _ cfg.blockSize_pos] at atIndex
    refine Or.inr ⟨i, ((s.heap i).numPublishedBlocks + j) * cfg.blockSize + slot.2,
      Sequence.slot_block atIndex inside, ?_, Or.inr ⟨Dict.mem_values_iff.mpr ⟨_, found⟩, ?_⟩⟩
    · rw [Nat.mul_comm, Nat.mul_add_div cfg.blockSize_pos, Nat.div_eq_of_lt inside]
      omega
    · rw [isLoading.aligned, Nat.add_mul]
      omega

end Coherent

namespace Scheduler

variable {cfg : Config} {flight : Flight} {s last : Scheduler} {cache : Cache} {i : SeqId}

/-- A report about one load leaves the other sequences alone. -/
theorem Receives.heap_of_ne {finishedRecving : List RequestId} {requestId : RequestId}
    {rows : List LaunchedRow} (receives : Receives cfg s finishedRecving requestId last)
    (inv : s.Inv cfg s.running rows) {j : SeqId} (other : (s.heap j).requestId ≠ requestId) :
    last.heap j = s.heap j := by
  have apart : ∀ i, s.recving.lookup requestId = some i → j ≠ i := by
    rintro i found rfl
    exact other (inv.keyed requestId j (Or.inr (Or.inl found)))
  cases receives with
  | cancelled found => exact setSeq_heap_of_ne s (apart _ found) _
  | loaded found => exact setSeq_heap_of_ne s (apart _ found) _
  | failed found => exact setSeq_heap_of_ne s (apart _ found) _

/-- Ending a load is coherent if a finished load left the prompt's prefixes. -/
theorem Receives.coherent {finishedRecving : List RequestId} {requestId : RequestId}
    (receives : Receives cfg s finishedRecving requestId last)
    (inv : s.Inv cfg s.running flight.rows) (lastInv : last.Inv cfg last.running flight.rows)
    (finished : requestId ∈ finishedRecving → ∀ i, s.recving.lookup requestId = some i →
      ∀ p, (s.heap i).numCachedTokens ≤ p → p < (s.heap i).numPromptTokens →
        (s.heap i).read cfg cache p = some ((s.heap i).promptTokenIds.take (p + 1)))
    (coherent : Coherent cfg flight s cache) : Coherent cfg flight last cache := by
  have gone : ∀ i, s.recving.lookup requestId = some i →
      i ∉ Dict.values (s.recving.erase (s.heap i).requestId) := by
    intro i found member
    obtain ⟨other, found'⟩ := Dict.mem_values_iff.mp member
    rw [Dict.lookup_erase_eq] at found'
    split at found'
    · contradiction
    · rename_i different
      exact different (inv.keyed other i (Or.inr (Or.inl found'))).symm
  cases receives with
  | @cancelled i bm found ended freed =>
      refine coherent.update i (fun j other => setSeq_heap_of_ne s other _) (fun j _ => id)
        (fun j _ => mem_values_of_erase) (coherent.frees freed) ?_
        (fun loading => absurd loading (gone i found))
      intro running
      exact absurd (Dict.mem_values_iff.mpr ⟨_, found⟩) (inv.not_loading running)
  | @loaded i n bm found unfinished reported publishes =>
      obtain ⟨_, plays | plays⟩ := inv.recving found
      · obtain ⟨_, _, _, _, isLoading, settled⟩ := plays
        have whole : (s.heap i).Reads cfg cache (s.heap i).tokenIds
            (s.heap i).numPromptTokens := by
          intro p below
          by_cases cached : p < (s.heap i).numCachedTokens
          · exact coherent.loading i (Dict.mem_values_iff.mpr ⟨_, found⟩) p cached
          · rw [finished reported i found p (by omega) below, Sequence.promptTokenIds,
              List.take_take, Nat.min_eq_left below]
        have isActive := (lastInv.running (i := i)
          (List.mem_append_right _ List.mem_cons_self)).2.2.2
        rw [endLoad, show Scheduler.heap { s.setSeq i _ with .. } i = _ from
          setSeq_heap_self s i _] at isActive
        have published_le := isActive.published_le
        simp only at published_le
        refine coherent.update i (fun j other => setSeq_heap_of_ne s other _) ?_
          (fun j _ => mem_values_of_erase) ?_ (fun _ => ?_)
          (fun loading => absurd loading (gone i found))
        · intro j other member
          exact (List.mem_append.mp member).resolve_right (by simpa using other)
        · exact publishes.holds (whole.mono (by omega)) coherent.published
        · rw [endLoad, show Scheduler.heap { s.setSeq i _ with .. } i = _ from
            setSeq_heap_self s i _]
          exact Coherent.reads_settled settled isLoading.prefill (whole.mono (Nat.sub_le _ _))
      · exact absurd (unfinished.symm.trans plays.2.2.2.1) (by simp)
  | @failed i found unfinished reported =>
      obtain ⟨_, plays | plays⟩ := inv.recving found
      · obtain ⟨_, _, _, _, isLoading, settled⟩ := plays
        refine coherent.update i (fun j other => setSeq_heap_of_ne s other _) ?_
          (fun j _ => mem_values_of_erase) coherent.published (fun _ => ?_)
          (fun loading => absurd loading (gone i found))
        · intro j other member
          exact (List.mem_append.mp member).resolve_right (by simpa using other)
        · rw [endLoad, show Scheduler.heap { s.setSeq i _ with .. } i = _ from
            setSeq_heap_self s i _]
          exact Coherent.reads_settled settled isLoading.prefill
            (coherent.loading i (Dict.mem_values_iff.mpr ⟨_, found⟩))
      · exact absurd (unfinished.symm.trans plays.2.2.2.1) (by simp)

/-- The reported loads end one by one; each finds its record as the device
did. -/
theorem ReceivesAll.coherent {finishedRecving order : List RequestId}
    (receives : ReceivesAll cfg flight.rows finishedRecving s order last)
    (finished : ∀ requestId ∈ order, requestId ∈ finishedRecving →
      ∀ i, s.recving.lookup requestId = some i →
      ∀ p, (s.heap i).numCachedTokens ≤ p → p < (s.heap i).numPromptTokens →
        (s.heap i).read cfg cache p = some ((s.heap i).promptTokenIds.take (p + 1)))
    (coherent : Coherent cfg flight s cache) : Coherent cfg flight last cache := by
  induction receives with
  | nil => exact coherent
  | @cons s next last requestId rest inv turn nextInv others ih =>
      refine ih ?_ (turn.coherent inv nextInv (finished requestId List.mem_cons_self) coherent)
      intro other among reported i found
      rw [turn.recving_eq inv, Dict.lookup_erase_eq] at found
      split at found
      · contradiction
      rename_i different
      have key := inv.keyed other i (Or.inr (Or.inl found))
      have heapEq : next.heap i = s.heap i := by
        refine turn.heap_of_ne inv ?_
        rintro same
        exact different (key.symm.trans same)
      rw [heapEq]
      exact finished other (List.mem_cons_of_mem _ among) reported i found

end Scheduler

end LeanVllm
