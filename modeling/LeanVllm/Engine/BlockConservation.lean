import LeanVllm.Engine.Between

/-!
# Conservation of KV blocks

The tables of the running, loading and held sequences account for every block:
a block is free or used, and it counts one reference for each table that names
it.  Tables name no block twice, since chained hashes tell the blocks of a
prefix apart.
-/

namespace LeanVllm

open Collections

namespace BlockManager

variable {cfg : Config} {bm : BlockManager} {held : List BlockId}

/-- The cached blocks of a prefix are distinct. -/
theorem HitsFrom.nodup (inv : bm.Inv cfg held) (injective : cfg.HashInjective) {seq : Sequence}
    (hashed : seq.Hashed cfg) {hits : List BlockId} (cached : HitsFrom cfg bm seq 0 hits) :
    hits.Nodup := by
  rw [List.nodup_iff_injective_get]
  intro j k same
  have atIndex : ∀ k : Fin hits.length, hits[(k : Nat)]? = some (hits.get k) := by simp
  obtain ⟨first, firstAt, firstCached, _⟩ := cached j (hits.get j) (atIndex j)
  obtain ⟨second, secondAt, secondCached, _⟩ := cached k (hits.get k) (atIndex k)
  rw [Nat.zero_add] at firstAt secondAt
  have hashEq : first = second := by
    rw [← (inv.cached first _ firstCached).2.1, ← (inv.cached second _ secondCached).2.1, same]
  rw [hashed.eq_chainHash firstAt, hashed.eq_chainHash secondAt] at hashEq
  exact Fin.ext (chainHash_index_inj injective hashEq)

/-- A table stays free of duplicates when unpublished blocks join it. -/
theorem Inv.nodup_append {table fresh : List BlockId}
    (inv : bm.Inv cfg (table ++ fresh ++ held)) (distinct : table.Nodup)
    (unpublished : ∀ blockId ∈ fresh, (bm.blocks blockId).hash = -1) :
    (table ++ fresh).Nodup := by
  rw [List.nodup_append']
  refine ⟨distinct, inv.nodup_of_unpublished (List.sublist_append_right _ _) unpublished, ?_⟩
  intro blockId old new
  have reordered : bm.Inv cfg (fresh ++ (table ++ held)) := inv.perm (by
    rw [← List.append_assoc]
    exact List.perm_append_comm.append_right _)
  exact reordered.not_mem_of_unpublished new (unpublished blockId new)
    (List.mem_append_left _ old)

end BlockManager

namespace Scheduler

variable {cfg : Config} {s : Scheduler} {rows : List LaunchedRow}

/-- No table names a block twice. -/
def TablesNodup (s : Scheduler) : Prop :=
  ∀ i, (s.heap i).blockTable.Nodup

theorem TablesNodup.setSeq (distinct : s.TablesNodup) (i : SeqId) {seq : Sequence}
    (own : seq.blockTable.Nodup) : (s.setSeq i seq).TablesNodup := by
  intro j
  by_cases same : j = i
  · subst same
    rw [setSeq_heap_self]
    exact own
  · rw [setSeq_heap_of_ne s same]
    exact distinct j

theorem TablesNodup.ends {i : SeqId} {seq : Sequence} {after : Scheduler}
    (distinct : s.TablesNodup) (ends : Ends cfg s i seq after) (own : seq.blockTable.Nodup) :
    after.TablesNodup := by
  cases ends with
  | release bm result freed => exact distinct.setSeq i List.nodup_nil
  | hold kv connector result connected held => exact distinct.setSeq i own

theorem Move.tablesNodup {before after : Scheduler × SchedulerOutput}
    (injective : cfg.HashInjective) (pass : PassInv cfg before rows) (move : Move cfg before after)
    (distinct : before.1.TablesNodup) : after.1.TablesNodup := by
  cases move with
  | reorder reordered => exact distinct
  | recount => exact distinct
  | @preempt s output i bm member idle freed => exact distinct.setSeq i List.nodup_nil
  | @dropRunning s output i bm member idle settled freed =>
      exact distinct.setSeq i List.nodup_nil
  | @dropWaiting s output i head => exact distinct.setSeq i (distinct i)
  | @trim s output i member idle n => exact distinct.setSeq i (distinct i)
  | @serve s output i n member idle ready => exact distinct.setSeq i (distinct i)
  | @append s output i bm fresh numLookahead member idle within fits appended =>
      obtain ⟨inv, keeps, _⟩ := pass.inv.append member fits appended
      have blocks := inv.split (inv.running member)
      refine distinct.setSeq i ?_
      simp only [Role.owns, if_true, renew_heap_self] at blocks
      exact blocks.nodup_append (distinct i) keeps.unpublished
  | @beginRun s output i bm hits fresh params budget head allocates loaded ready =>
      have plays := pass.inv.queued (List.mem_of_mem_head? head)
      have hitsNodup := allocates.cached.nodup pass.inv.blocks injective plays.2.2.2.1.hashed
      exact distinct.setSeq i
        (allocates.blocks.nodup_append hitsNodup allocates.keeps.unpublished)
  | @load s output i bm hits fresh head allocates connected wants =>
      have plays := pass.inv.queued (List.mem_of_mem_head? head)
      have hitsNodup := allocates.cached.nodup pass.inv.blocks injective plays.2.2.2.1.hashed
      exact distinct.setSeq i
        (allocates.blocks.nodup_append hitsNodup allocates.keeps.unpublished)

theorem tablesNodup_stable (injective : cfg.HashInjective) : Stable cfg TablesNodup where
  move := Move.tablesNodup injective
  handOver _ distinct := distinct
  release _ _ distinct := distinct.setSeq _ List.nodup_nil
  receive _ receives distinct := by
    cases receives with
    | cancelled => exact distinct.setSeq _ List.nodup_nil
    | loaded => exact distinct.setSeq _ (distinct _)
    | failed => exact distinct.setSeq _ (distinct _)
  advance {s _ _ i n _} _ _ _ _ distinct := by
    refine distinct.setSeq i ?_
    have same : ((s.heap i).advanced cfg n).blockTable = (s.heap i).blockTable := by
      simp [Sequence.advanced, apply_ite]
    rw [same]
    exact distinct i
  reconcile _ turn distinct := by
    cases turn with
    | void => exact distinct
    | commit => exact distinct.setSeq _ (distinct _)
    | stop _ _ _ _ _ _ ends => exact distinct.ends ends (distinct _)
  cancel _ _ distinct := distinct.setSeq _ (distinct _)
  ends _ _ ends distinct := distinct.ends ends (distinct _)
  forget _ _ empty distinct := distinct.setSeq _ (by rw [empty]; exact List.nodup_nil)
  enqueue _ isQueued distinct := distinct.setSeq _ (by rw [isQueued.table]; exact List.nodup_nil)

/-- Where no table names a block twice, counting references is counting
tables. -/
theorem count_holdings (distinct : s.TablesNodup) (active : List SeqId) (blockId : BlockId) :
    (s.holdings active).count blockId =
      ((s.owners active).filter fun i => blockId ∈ (s.heap i).blockTable).length := by
  rw [holdings, List.count_flatMap, ← List.countP_eq_length_filter]
  induction s.owners active with
  | nil => rfl
  | cons i owners ih =>
      rw [List.map_cons, List.sum_cons, ih, List.countP_cons, Nat.add_comm]
      congr 1
      by_cases names : blockId ∈ (s.heap i).blockTable
      · simp [names, List.count_eq_one_of_mem (distinct i) names]
      · simp [names, List.count_eq_zero.mpr names]

end Scheduler

/-- Between two scheduler operations the free queue and the used set share the
blocks out, and each block counts the tables that name it. -/
theorem kv_blocks_conserved (cfg : Config) (injective : cfg.HashInjective) (s : Scheduler)
    (between : Between cfg s) :
    (s.blockManager.freeBlockQueue.Nodup ∧
      (∀ blockId ∈ s.blockManager.freeBlockQueue, blockId ∉ s.blockManager.usedBlockIds) ∧
      ∀ blockId, blockId < cfg.numKvcacheBlocks ↔
        blockId ∈ s.blockManager.freeBlockQueue ∨ blockId ∈ s.blockManager.usedBlockIds) ∧
    ((s.owners s.running).Nodup ∧ (∀ i, (s.heap i).blockTable.Nodup) ∧
      ∀ blockId, (s.blockManager.blocks blockId).refCount =
        ((s.owners s.running).filter fun i => blockId ∈ (s.heap i).blockTable).length) ∧
    (∀ blockId, blockId ∈ s.blockManager.usedBlockIds ↔
      0 < (s.blockManager.blocks blockId).refCount) ∧
    (∀ i ∈ s.waiting, (s.heap i).blockTable = []) ∧
    (s.isFinished = true → s.blockManager.freeBlockQueue.length = cfg.numKvcacheBlocks) := by
  obtain ⟨rows, inv⟩ := between.inv
  have distinct : s.TablesNodup :=
    (Scheduler.tablesNodup_stable injective).kept.between (fun _ => List.nodup_nil) between
  have accounts := inv.blocks.accounts
  refine ⟨⟨accounts.free_nodup, fun blockId => accounts.disjoint, ?_⟩,
    ⟨inv.owners_nodup, distinct, ?_⟩, ?_, ?_, ?_⟩
  · intro blockId
    rw [← Finset.mem_range]
    exact accounts.mem_free_or_mem_used
  · intro blockId
    rw [inv.blocks.refCount_eq, Scheduler.count_holdings distinct]
  · intro blockId
    rw [inv.blocks.mem_used_iff, inv.blocks.refCount_eq, List.count_pos_iff]
  · intro i queued
    exact (inv.queued queued).2.2.2.1.table
  · intro finished
    simp only [Scheduler.isFinished, Bool.and_eq_true, List.isEmpty_iff] at finished
    obtain ⟨⟨⟨_, running⟩, loading⟩, held⟩ := finished
    have nothing : s.holdings s.running = [] := by
      simp [Scheduler.holdings, Scheduler.owners, Dict.values, running, loading, held]
    rw [nothing] at accounts
    have all := accounts.length_free_of_nil
    rw [Finset.card_range] at all
    exact all

/-- The sample engine's four blocks while its request runs. -/
theorem kv_blocks_conserved_sample :
    LLMEngine.sampleRunning.scheduler.running = [0] ∧
    ∀ blockId, blockId < Config.sample.numKvcacheBlocks ↔
      blockId ∈ LLMEngine.sampleRunning.scheduler.blockManager.freeBlockQueue ∨
        blockId ∈ LLMEngine.sampleRunning.scheduler.blockManager.usedBlockIds :=
  ⟨by decide +kernel, (kv_blocks_conserved .sample Config.sample_hashInjective _
    (.boundary LLMEngine.sampleRunning_reachable)).1.2.2⟩

end LeanVllm
