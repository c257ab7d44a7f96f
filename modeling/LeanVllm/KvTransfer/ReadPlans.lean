import LeanVllm.Engine.WholePrompts
import LeanVllm.KvTransfer.BlockDescs
import LeanVllm.KvTransfer.QueuedLoads

/-!
# Reads of a load

The consumer ranks of a load read between them every head of every missing block
exactly once, each from the producer rank that holds it.
-/

namespace LeanVllm

open Collections

/-- Whether the plan of consumer rank `rank` reads producer rank `remoteRank`. -/
def readsRank (rank tpSize remoteTpSize numHeads remoteRank : Int) : Bool :=
  match headShares rank tpSize remoteTpSize numHeads with
  | .ok shares => shares.any fun s => s.remoteRank = remoteRank
  | .error _ => false

/-- The plan of a rank that has `share` heads, of a side whose producer ranks have
`remote` each: the local ranges are each head once, in order, and the heads of a share
are the same heads on both sides. -/
structure Plan (rank share remote : Int) (shares : List Share) : Prop where
  tiles : (shares.flatMap fun s => Int.range s.localHead (s.localHead + s.numHeads)) =
    Int.range 0 share
  inside : ∀ s ∈ shares, 0 ≤ s.remoteHead ∧ s.remoteHead + s.numHeads ≤ remote
  same : ∀ s ∈ shares, ∀ head ∈ Int.range s.localHead (s.localHead + s.numHeads),
    rank * share + head = s.remoteRank * remote + (s.remoteHead + (head - s.localHead))

/-- The block lists of a load: one entry for each block of the prompt of sequence `i`
past its `numCached` whole cached blocks, on both sides in the prompt's order. -/
structure Lists (cfg : Config) (seq : Sequence) (params : KVTransferParams) (req : ReqToRecv)
    (numCached : Nat) : Prop where
  asked : seq.kvTransferParams = some params
  cached : numCached * cfg.blockSize = seq.numCachedTokens
  table : seq.blockTable.length = cdiv seq.numPromptTokens cfg.blockSize
  listed : params.remoteBlockIds.length = cdiv seq.numPromptTokens cfg.blockSize
  equal : req.localBlockIds.length = req.remoteBlockIds.length
  count : numCached + req.localBlockIds.length = cdiv seq.numPromptTokens cfg.blockSize
  aligned : ∀ k, req.localBlockIds[k]? = seq.blockTable[numCached + k]? ∧
    req.remoteBlockIds[k]? = params.remoteBlockIds[numCached + k]?

/-- The rows of one share on the two sides. -/
structure RowsAgree (regions remoteRegions : List Region) (blockIds remoteIds : List Int)
    (rows remoteRows : List Desc) : Prop where
  counts : rows.length = remoteRows.length
  lengths : rows.map Desc.length = remoteRows.map Desc.length
  within : ∀ row ∈ rows, ∃ region ∈ regions, ∃ block ∈ blockIds,
    region.Within block row.addr row.length
  remoteWithin : ∀ row ∈ remoteRows, ∃ region ∈ remoteRegions, ∃ block ∈ remoteIds,
    region.Within block row.addr row.length

section Plans

variable {tpSize remoteTpSize numHeads : Nat} {rank remoteRank : Int}

/-- Both sides split the same heads evenly. -/
theorem splitHeads_even (positive : 0 < tpSize) (remotePositive : 0 < remoteTpSize)
    (even : numHeads ≠ 0 → tpSize ∣ numHeads ∧ remoteTpSize ∣ numHeads) :
    ∃ share remote : Nat, 0 < share ∧ 0 < remote ∧
      splitHeads numHeads tpSize remoteTpSize = (tpSize : Int) * share ∧
      (tpSize : Int) * share = remoteTpSize * remote := by
  have divides : ∀ total : Nat, 0 < total → tpSize ∣ total → remoteTpSize ∣ total →
      ∃ share remote : Nat, 0 < share ∧ 0 < remote ∧ (total : Int) = (tpSize : Int) * share ∧
        (tpSize : Int) * share = remoteTpSize * remote := by
    rintro total some ⟨share, rfl⟩ ⟨remote, same⟩
    refine ⟨share, remote, Nat.pos_of_mul_pos_left some, ?_, Int.natCast_mul _ _, ?_⟩
    · rw [same] at some
      exact Nat.pos_of_mul_pos_left some
    · exact_mod_cast same
  unfold splitHeads
  split
  · have lcm : ((Int.lcm tpSize remoteTpSize : Nat) : Int) =
        ((Nat.lcm tpSize remoteTpSize : Nat) : Int) := by simp [Int.lcm]
    rw [lcm]
    exact divides _ (Nat.lcm_pos positive remotePositive) (Nat.dvd_lcm_left _ _)
      (Nat.dvd_lcm_right _ _)
  · rename_i some
    exact divides _ (Nat.pos_of_ne_zero some) (even some).1 (even some).2

theorem plan_sharePlan {share remote : Int} (sharePositive : 0 < share)
    (remotePositive : 0 < remote) (rank : Int) :
    Plan rank share remote (sharePlan rank share remote) where
  tiles := sharePlan_tiles rank sharePositive remotePositive
  inside s member := by
    have fits := fits_of_mem_sharePlan sharePositive remotePositive member
    exact ⟨fits.remote_nonneg, fits.remote_le⟩
  same s member head _ := by
    have fits := fits_of_mem_sharePlan sharePositive remotePositive member
    have same := fits.same
    omega

/-- A consumer rank reads a producer rank if and only if it is one of its readers. -/
theorem readsRank_eq {share remote : Int} (positive : 0 < tpSize)
    (remoteTpPositive : 0 < remoteTpSize) (remotePositive : 0 < remote)
    (total : (tpSize : Int) * share = remoteTpSize * remote) (rank remoteRank : Int) :
    readsRank rank tpSize remoteTpSize ((tpSize : Int) * share) remoteRank =
      decide (remoteRank ∈ (sharePlan rank share remote).map Share.remoteRank) := by
  rw [readsRank, headShares_eq (by omega) (by omega) remotePositive total]
  rw [Bool.eq_iff_iff, List.any_eq_true, decide_eq_true_iff, List.mem_map]
  simp only [decide_eq_true_eq]

end Plans

theorem Scheduler.Loads.lists {cfg : Config} {s : Scheduler} {i : SeqId} {req : ReqToRecv}
    {params : KVTransferParams} (loads : s.Loads cfg i req params) :
    Lists cfg (s.heap i) params req ((s.heap i).numCachedTokens / cfg.blockSize) where
  asked := loads.asked
  cached := loads.whole
  table := loads.table
  listed := loads.listed
  equal := by
    rw [loads.localEq, loads.remoteEq, List.length_drop, List.length_drop, loads.table,
      loads.listed]
  count := by
    have within : (s.heap i).numCachedTokens / cfg.blockSize ≤
        cdiv (s.heap i).numPromptTokens cfg.blockSize :=
      Nat.div_le_div_right (by have := loads.missing; have := cfg.blockSize_pos; omega)
    rw [loads.localEq, List.length_drop, loads.table]
    omega
  aligned k := by
    rw [loads.localEq, loads.remoteEq, List.getElem?_drop, List.getElem?_drop]
    exact ⟨rfl, rfl⟩

section Rows

variable {elementSize : String → Nat} {tpSize remoteTpSize numBlocks remoteBlocks : Nat}
  {caches producer : List KVCache} {share remote rank : Int} {planned : Share × Nat}

/-- Block ids in range are 64-bit numbers. -/
theorem Caches.blockDescs_eq (isCaches : Caches elementSize tpSize numBlocks caches)
    {blockIds : List Int} (listed : ∀ block ∈ blockIds, 0 ≤ block ∧ block < numBlocks)
    (firstHead numHeads : Int) (latents : Bool) (device : Nat) :
    blockDescs (registered elementSize caches) blockIds firstHead numHeads latents device =
      .ok ((registered elementSize caches).flatMap fun region =>
        region.rows blockIds firstHead numHeads latents device) := by
  have below := isCaches.numBlocks_le
  rw [blockDescs, if_neg]
  simp only [Bool.not_eq_true, List.any_eq_false, decide_eq_true_eq]
  intro block member
  have inside := listed block member
  omega

/-- The rows of one share on the two sides of a load. -/
theorem rows_agree (holds : ∀ region ∈ registered elementSize caches, region.Holds share)
    (remoteHolds : ∀ region ∈ registered elementSize producer, region.Holds remote)
    (layout : caches.map (KVCache.layer tpSize) = producer.map (KVCache.layer remoteTpSize))
    (fits : planned.1.Fits rank share remote) {blockIds remoteIds : List Int}
    (aligned : blockIds.length = remoteIds.length) (device remoteDevice : Nat) :
    RowsAgree (registered elementSize caches) (registered elementSize producer) blockIds remoteIds
      (shareRows (registered elementSize caches) blockIds device planned)
      ((registered elementSize producer).flatMap fun region =>
        region.rows remoteIds planned.1.remoteHead planned.1.numHeads (planned.2 = 0)
          remoteDevice) := by
  have pairs : List.Forall₂ Region.Pairs (registered elementSize caches)
      (registered elementSize producer) := registered_pair layout
  have lengths := lengths_of_pairs pairs aligned planned.1.localHead planned.1.remoteHead
    planned.1.numHeads (planned.2 = 0) device remoteDevice
  constructor
  · have counts := congrArg List.length lengths
    rwa [List.length_map, List.length_map] at counts
  · exact lengths
  · intro row member
    obtain ⟨region, among, member⟩ := List.mem_flatMap.mp member
    obtain ⟨block, listed, within⟩ := region.within_of_mem_rows (holds region among)
      fits.local_nonneg fits.local_le member
    exact ⟨region, among, block, listed, within⟩
  · intro row member
    obtain ⟨region, among, member⟩ := List.mem_flatMap.mp member
    obtain ⟨block, listed, within⟩ := region.within_of_mem_rows (remoteHolds region among)
      fits.remote_nonneg fits.remote_le member
    exact ⟨region, among, block, listed, within⟩

end Rows

/-- Read plans split each consumer rank's heads among the producer ranks that hold them,
agree on who reads whom, and make of every load rows that fit pairwise and read each
head of each missing block once. -/
theorem reads_cover_each_head_once (tpSize remoteTpSize numHeads : Nat) (positive : 0 < tpSize)
    (remotePositive : 0 < remoteTpSize)
    (even : numHeads ≠ 0 → tpSize ∣ numHeads ∧ remoteTpSize ∣ numHeads) :
    ∃ share remote : Nat,
      splitHeads numHeads tpSize remoteTpSize = tpSize * share ∧
      splitHeads numHeads tpSize remoteTpSize = remoteTpSize * remote ∧
      ∀ rank : Int, 0 ≤ rank → rank < tpSize → ∃ shares,
        headShares rank tpSize remoteTpSize (splitHeads numHeads tpSize remoteTpSize) =
          .ok shares ∧
        Plan rank share remote shares ∧
        (∀ remoteRank : Int, 0 ≤ remoteRank → remoteRank < remoteTpSize → ∃ readers,
          headShares remoteRank remoteTpSize tpSize (splitHeads numHeads tpSize remoteTpSize) =
            .ok readers ∧
          (remoteRank ∈ shares.map Share.remoteRank ↔ rank ∈ readers.map Share.remoteRank) ∧
          readers.length = ((Int.range 0 tpSize).filter fun reader =>
            readsRank reader tpSize remoteTpSize (splitHeads numHeads tpSize remoteTpSize)
              remoteRank).length) ∧
        ∀ (cfg : Config) (rows : List LaunchedRow) (point s : Scheduler)
          (output : SchedulerOutput) (metadata : KVConnectorMetadata) (requestId : RequestId)
          (req : ReqToRecv), (cfg.kvTransfer.isSome → cfg.numSpeculativeTokens = 0) →
          Launchable cfg rows point → point.schedule cfg = .ok (s, output) →
          output.kvConnectorMetadata = some metadata →
          metadata.reqsToRecv.lookup requestId = some req →
          (∃ i params numCached, (s.heap i).requestId = requestId ∧
            Lists cfg (s.heap i) params req numCached) ∧
          ∀ (elementSize : String → Nat) (caches : List KVCache) (device : Nat),
            Caches elementSize tpSize cfg.numKvcacheBlocks caches →
            totalHeads tpSize caches = numHeads →
            (∀ planned ∈ shares.zipIdx,
              blockDescs (registered elementSize caches) (req.localBlockIds.map Int.ofNat)
                planned.1.localHead planned.1.numHeads (planned.2 = 0) device =
                .ok (shareRows (registered elementSize caches) (req.localBlockIds.map Int.ofNat)
                  device planned) ∧
              ∀ (producer : List KVCache) (numBlocks remoteDevice : Nat),
                Caches elementSize remoteTpSize numBlocks producer →
                caches.map (KVCache.layer tpSize) = producer.map (KVCache.layer remoteTpSize) →
                (∀ block ∈ req.remoteBlockIds, 0 ≤ block ∧ block < numBlocks) →
                ∃ remoteRows,
                  blockDescs (registered elementSize producer) req.remoteBlockIds
                    planned.1.remoteHead planned.1.numHeads (planned.2 = 0) remoteDevice =
                    .ok remoteRows ∧
                  RowsAgree (registered elementSize caches) (registered elementSize producer)
                    (req.localBlockIds.map Int.ofNat) req.remoteBlockIds
                    (shareRows (registered elementSize caches) (req.localBlockIds.map Int.ofNat)
                      device planned) remoteRows) ∧
            ∀ region ∈ registered elementSize caches, ∀ blockId ∈ req.localBlockIds,
              ∀ head : Int, 0 ≤ head → head < share →
                (shares.zipIdx.flatMap (shareRows (registered elementSize caches)
                  (req.localBlockIds.map Int.ofNat) device)).countP
                    (Desc.covers (region.piece blockId head)) = 1 := by
  obtain ⟨share, remote, sharePos, remotePos, headsEq, total⟩ :=
    splitHeads_even positive remotePositive even
  have shareLt : (0 : Int) < share := by omega
  have remoteLt : (0 : Int) < remote := by omega
  refine ⟨share, remote, headsEq, headsEq.trans total, fun rank nonneg below =>
    ⟨sharePlan rank share remote, ?_, plan_sharePlan shareLt remoteLt rank, ?_, ?_⟩⟩
  · rw [headsEq]
    exact headShares_eq (by omega) (by omega) remoteLt total
  · intro remoteRank remoteNonneg remoteBelow
    refine ⟨sharePlan remoteRank remote share, ?_, mem_sharePlan_symm shareLt remoteLt, ?_⟩
    · rw [headsEq, total]
      exact headShares_eq (by omega) (by omega) shareLt total.symm
    · rw [length_sharePlan_eq_readers shareLt remoteLt total remoteNonneg remoteBelow, headsEq]
      simp only [readsRank_eq positive remotePositive remoteLt total]
  · intro cfg rows point s output metadata requestId req plain launchable scheduled handed found
    obtain ⟨i, params, named, loads⟩ := launchable.loads plain scheduled handed found
    refine ⟨⟨i, params, _, named, loads.lists⟩, ?_⟩
    intro elementSize caches device isCaches headsTotal
    have listed : ∀ block ∈ req.localBlockIds.map Int.ofNat,
        0 ≤ block ∧ block < cfg.numKvcacheBlocks := by
      intro block member
      obtain ⟨blockId, among, rfl⟩ := List.mem_map.mp member
      have inside : blockId < cfg.numKvcacheBlocks := loads.inside blockId among
      simp only [Int.ofNat_eq_natCast]
      omega
    have split : numHeads ≠ 0 → tpSize * share = numHeads ∧ remoteTpSize * remote = numHeads := by
      intro some
      rw [splitHeads, if_neg some] at headsEq
      exact ⟨by exact_mod_cast headsEq.symm, by exact_mod_cast (headsEq.trans total).symm⟩
    have holds := fun region (member : region ∈ registered elementSize caches) =>
      isCaches.holds positive (headsTotal ▸ fun some => (split some).1) member
    refine ⟨fun planned among => ⟨isCaches.blockDescs_eq listed _ _ _ _, ?_⟩, ?_⟩
    · intro producer numBlocks remoteDevice isProducer layout remoteListed
      refine ⟨_, isProducer.blockDescs_eq remoteListed _ _ _ _, ?_⟩
      have fits := fits_of_mem_sharePlan shareLt remoteLt (List.fst_mem_of_mem_zipIdx among)
      refine rows_agree holds (fun region member => ?_) layout fits ?_ device remoteDevice
      · have remoteTotal := (totalHeads_eq layout).symm.trans headsTotal
        exact isProducer.holds remotePositive (remoteTotal ▸ fun some => (split some).2) member
      · rw [List.length_map]
        exact loads.lists.equal
    · intro region member blockId among head headNonneg headLt
      have distinct : (req.localBlockIds.map Int.ofNat).Nodup :=
        loads.distinct.map fun _ _ same => Int.ofNat.inj same
      have some : 0 < cfg.numKvcacheBlocks :=
        Nat.lt_of_le_of_lt (Nat.zero_le _) (loads.inside blockId among)
      exact countP_plan_eq_one shareLt remoteLt (isCaches.nodup_registered some)
        (fun first firstMem second secondMem different =>
          isCaches.apart_registered.forall firstMem secondMem different)
        holds distinct listed member (List.mem_map_of_mem among) headNonneg headLt

/-- One layer's cache of a rank with three of six heads. -/
def KVCache.sample : KVCache :=
  ⟨"bfloat16", 4096, 8, .kv 3 2 1⟩

/-- The second of two consumer ranks reads blocks 2 and 3 from three producer ranks. -/
theorem reads_cover_each_head_once_consumer :
    ∃ point s output metadata req,
      Launchable .consumer [] point ∧ point.schedule .consumer = .ok (s, output) ∧
      output.kvConnectorMetadata = some metadata ∧
      metadata.reqsToRecv.lookup "b" = some req ∧ req.localBlockIds = [2, 3] ∧
      ∃ shares, headShares 1 2 3 6 = .ok shares ∧
        shares = [⟨1, 1, 0, 1⟩, ⟨2, 0, 1, 2⟩] ∧
        ∀ region ∈ registered (fun _ => 2) [.sample], ∀ blockId ∈ req.localBlockIds,
          ∀ head : Int, 0 ≤ head → head < 3 →
            (shares.zipIdx.flatMap (shareRows (registered (fun _ => 2) [.sample])
              (req.localBlockIds.map Int.ofNat) 0)).countP
                (Desc.covers (region.piece blockId head)) = 1 := by
  have isCaches : Caches (fun _ => 2) 2 Config.consumer.numKvcacheBlocks [.sample] := by
    constructor
    · simp
    · rintro cache member heads tokens dim shape
      obtain rfl := List.mem_singleton.mp member
      obtain ⟨rfl, _⟩ := CacheShape.kv.inj shape
      rfl
    · rintro cache member
      obtain rfl := List.mem_singleton.mp member
      rfl
    · rintro cache member
      obtain rfl := List.mem_singleton.mp member
      decide
    · rintro cache member
      obtain rfl := List.mem_singleton.mp member
      decide
    · exact List.pairwise_singleton _ _
  have queued : (LLMEngine.consumerQueued.launchPoint .consumer >>= fun point =>
      (point.schedule .consumer).map fun result =>
        (result.2.kvConnectorMetadata.bind fun metadata => metadata.reqsToRecv.lookup "b").map
          ReqToRecv.localBlockIds) = .ok (some [2, 3]) := by decide +kernel
  cases found : LLMEngine.consumerQueued.launchPoint .consumer with
  | error fault => simp [found, bind, Except.bind] at queued
  | ok point =>
      simp only [found, bind, Except.bind] at queued
      cases scheduled : point.schedule .consumer with
      | error fault => simp [scheduled, Except.map] at queued
      | ok result =>
          simp only [scheduled, Except.map, Except.ok.injEq, Option.map_eq_some_iff,
            Option.bind_eq_some_iff] at queued
          obtain ⟨req, ⟨metadata, handed, loads⟩, blocks⟩ := queued
          have launchable : Launchable .consumer [] point :=
            ⟨_, LLMEngine.consumerQueued_reachable, found, by decide +kernel⟩
          obtain ⟨share, remote, total, _, plans⟩ :=
            reads_cover_each_head_once 2 3 6 (by decide) (by decide) (by decide)
          obtain rfl : share = 3 := by
            simp only [splitHeads] at total
            omega
          obtain ⟨shares, planned, _, _, reads⟩ := plans 1 (by decide) (by decide)
          have sharesEq : shares = [⟨1, 1, 0, 1⟩, ⟨2, 0, 1, 2⟩] :=
            (Except.ok.inj (planned.symm.trans (by decide +kernel)))
          obtain ⟨_, covers⟩ := reads .consumer [] point result.1 result.2 metadata "b" req
            (fun _ => rfl) launchable scheduled handed loads
          exact ⟨point, result.1, result.2, metadata, req, launchable, scheduled, handed, loads,
            blocks, shares, planned, sharesEq, (covers _ _ 0 isCaches rfl).2⟩

end LeanVllm
