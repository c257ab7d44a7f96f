import LeanVllm.Collections.Ranges
import LeanVllm.KvTransfer.Base

/-!
# Read plans

A consumer rank reads from each producer rank whose heads overlap its own just the
overlap.  `head_shares` is the plan of one rank, and `block_descs` turns a share of
it into the byte ranges of a read.  All numbers are Python integers: the sizes come
from a client.
-/

namespace LeanVllm

open Collections

/-- What starting a load can raise. -/
inductive LoadError where
  | zeroDivision
  | overflow
  deriving DecidableEq, Repr

/-- The heads one consumer rank reads from one producer rank. -/
structure Share where
  remoteRank : Int
  remoteHead : Int
  localHead : Int
  numHeads : Int
  deriving DecidableEq, Repr

/-- The overlap of the heads from `start` to `stop` with those of a remote rank. -/
def Share.overlap (start stop remote remoteRank : Int) : Share :=
  let first := max start (remoteRank * remote)
  let last := min stop ((remoteRank + 1) * remote)
  ⟨remoteRank, first - remoteRank * remote, first - start, last - first⟩

/-- `head_shares`: each remote rank holding some of this rank's heads, of `numHeads`
split evenly over each side's ranks. -/
def headShares (rank tpSize remoteTpSize numHeads : Int) : Except LoadError (List Share) :=
  if tpSize = 0 ∨ remoteTpSize = 0 then .error .zeroDivision
  else
    let share := numHeads.fdiv tpSize
    let remote := numHeads.fdiv remoteTpSize
    let start := rank * share
    let stop := (rank + 1) * share
    if remote = 0 then .error .zeroDivision
    else
      .ok ((Int.range (start.fdiv remote) (-(-stop).fdiv remote)).map
        (Share.overlap start stop remote))

/-- `_heads`: the key heads to split over both sides' ranks; for latents, just enough
to say which producer ranks each consumer rank stands for. -/
def splitHeads (numHeads : Nat) (tpSize remoteTpSize : Int) : Int :=
  if numHeads = 0 then Int.lcm tpSize remoteTpSize else numHeads

/-! ## Shares of an even split -/

section Even

variable {rank tpSize remoteTpSize share remote : Int}

/-- The cut before a remote rank's heads, within this rank's. -/
def headCut (start stop remote remoteRank : Int) : Int :=
  max start (min stop (remoteRank * remote))

theorem headCut_mono (start stop : Int) {remote : Int} (positive : 0 < remote) :
    Monotone (headCut start stop remote) := by
  intro first second le
  have scaled : first * remote ≤ second * remote := Int.mul_le_mul_of_nonneg_right le positive.le
  unfold headCut
  omega

/-- A rank is in the range of the plan if and only if it holds some of the heads. -/
theorem mem_overlapping_iff {start stop remoteRank : Int} (positive : 0 < remote) :
    remoteRank ∈ Int.range (start.fdiv remote) (-(-stop).fdiv remote) ↔
      start < (remoteRank + 1) * remote ∧ remoteRank * remote < stop := by
  rw [Int.mem_range_iff, Int.fdiv_eq_ediv_of_nonneg _ positive.le,
    Int.fdiv_eq_ediv_of_nonneg _ positive.le]
  have low : start / remote ≤ remoteRank ↔ start < (remoteRank + 1) * remote := by
    rw [← Int.lt_add_one_iff, Int.ediv_lt_iff_lt_mul positive]
  have high : remoteRank < -(-stop / remote) ↔ remoteRank * remote < stop := by
    have turned : remoteRank < -(-stop / remote) ↔ -stop / remote < -remoteRank := by omega
    rw [turned, Int.ediv_lt_iff_lt_mul positive, Int.neg_mul]
    omega
  rw [low, high]

/-- The plan of a rank, for heads split evenly over both sides. -/
def sharePlan (rank share remote : Int) : List Share :=
  (Int.range ((rank * share).fdiv remote) (-(-((rank + 1) * share)).fdiv remote)).map
    (Share.overlap (rank * share) ((rank + 1) * share) remote)

/-- The plan of a rank whose heads are `share` of those split evenly. -/
theorem headShares_eq (tpPositive : 0 < tpSize) (remoteTpPositive : 0 < remoteTpSize)
    (remotePositive : 0 < remote) (total : tpSize * share = remoteTpSize * remote) :
    headShares rank tpSize remoteTpSize (tpSize * share) =
      .ok (sharePlan rank share remote) := by
  have localShare : (tpSize * share).fdiv tpSize = share := by
    rw [Int.fdiv_eq_ediv_of_nonneg _ tpPositive.le, Int.mul_ediv_cancel_left _ tpPositive.ne']
  have remoteShare : (tpSize * share).fdiv remoteTpSize = remote := by
    rw [total, Int.fdiv_eq_ediv_of_nonneg _ remoteTpPositive.le,
      Int.mul_ediv_cancel_left _ remoteTpPositive.ne']
  rw [headShares, if_neg (by omega), localShare, remoteShare]
  simp only [if_neg remotePositive.ne', sharePlan]

/-- A share's heads lie within those of both ranks, and are the same heads. -/
structure Share.Fits (rank share remote : Int) (s : Share) : Prop where
  some : 0 < s.numHeads
  local_nonneg : 0 ≤ s.localHead
  local_le : s.localHead + s.numHeads ≤ share
  remote_nonneg : 0 ≤ s.remoteHead
  remote_le : s.remoteHead + s.numHeads ≤ remote
  same : rank * share + s.localHead = s.remoteRank * remote + s.remoteHead

theorem map_remoteRank_sharePlan (rank share remote : Int) :
    (sharePlan rank share remote).map Share.remoteRank =
      Int.range ((rank * share).fdiv remote) (-(-((rank + 1) * share)).fdiv remote) := by
  rw [sharePlan, List.map_map]
  exact List.map_id _

theorem mem_sharePlan_iff (positive : 0 < remote) {s : Share} :
    s ∈ sharePlan rank share remote ↔
      s = Share.overlap (rank * share) ((rank + 1) * share) remote s.remoteRank ∧
        rank * share < (s.remoteRank + 1) * remote ∧
        s.remoteRank * remote < (rank + 1) * share := by
  rw [sharePlan, List.mem_map]
  constructor
  · rintro ⟨remoteRank, among, rfl⟩
    exact ⟨rfl, (mem_overlapping_iff positive).mp among⟩
  · rintro ⟨shareEq, overlaps⟩
    exact ⟨s.remoteRank, (mem_overlapping_iff positive).mpr overlaps, shareEq.symm⟩

theorem fits_of_mem_sharePlan (localPositive : 0 < share) (positive : 0 < remote) {s : Share}
    (member : s ∈ sharePlan rank share remote) : s.Fits rank share remote := by
  obtain ⟨shareEq, before, after⟩ := (mem_sharePlan_iff positive).mp member
  have localWidth : (rank + 1) * share = rank * share + share := by ring
  have remoteWidth : (s.remoteRank + 1) * remote = s.remoteRank * remote + remote := by ring
  have remoteHead := congrArg Share.remoteHead shareEq
  have localHead := congrArg Share.localHead shareEq
  have numHeads := congrArg Share.numHeads shareEq
  simp only [Share.overlap] at remoteHead localHead numHeads
  constructor <;> omega

/-- The local heads of a plan are each head of the rank once, in order. -/
theorem sharePlan_tiles (rank : Int) (localPositive : 0 < share) (positive : 0 < remote) :
    ((sharePlan rank share remote).flatMap fun s =>
      Int.range s.localHead (s.localHead + s.numHeads)) = Int.range 0 share := by
  let start := rank * share
  let stop := (rank + 1) * share
  have width : stop = start + share := by simp only [start, stop]; ring
  let first := start.fdiv remote
  let last := -(-stop).fdiv remote
  have belowFirst : first * remote ≤ start := by
    simp only [first]
    rw [Int.fdiv_eq_ediv_of_nonneg _ positive.le]
    exact Int.ediv_mul_le _ positive.ne'
  have aboveLast : stop ≤ last * remote := by
    have floored : (-stop).fdiv remote * remote ≤ -stop := by
      rw [Int.fdiv_eq_ediv_of_nonneg _ positive.le]
      exact Int.ediv_mul_le _ positive.ne'
    simp only [last, Int.neg_mul]
    omega
  have ordered : first ≤ last := by
    have scaled : first * remote ≤ last * remote := by omega
    exact Int.le_of_mul_le_mul_right scaled positive
  have cuts : ∀ remoteRank ∈ Int.range first last,
      Int.range (Share.overlap start stop remote remoteRank).localHead
          ((Share.overlap start stop remote remoteRank).localHead +
            (Share.overlap start stop remote remoteRank).numHeads) =
        Int.range (-start + headCut start stop remote remoteRank)
          (-start + headCut start stop remote (remoteRank + 1)) := by
    intro remoteRank among
    obtain ⟨before, after⟩ := (mem_overlapping_iff positive).mp among
    simp only [Share.overlap, headCut]
    congr 1 <;> omega
  have mono : Monotone fun remoteRank => -start + headCut start stop remote remoteRank :=
    fun _ _ le => by
      have := headCut_mono start stop positive le
      simp only
      omega
  have tiled := flatMap_range mono ordered
  rw [sharePlan, List.flatMap_map]
  rw [List.flatMap_congr cuts, tiled]
  simp only [headCut]
  congr 1 <;> omega

/-- Two ranks overlap from either side. -/
theorem mem_sharePlan_symm (localPositive : 0 < share) (positive : 0 < remote) {rank remoteRank : Int} :
    remoteRank ∈ (sharePlan rank share remote).map Share.remoteRank ↔
      rank ∈ (sharePlan remoteRank remote share).map Share.remoteRank := by
  rw [map_remoteRank_sharePlan, map_remoteRank_sharePlan, mem_overlapping_iff positive,
    mem_overlapping_iff localPositive]
  exact and_comm

/-- The ranks a plan reads are ranks of the other side. -/
theorem remoteRank_of_mem_sharePlan (localPositive : 0 < share) (positive : 0 < remote)
    (total : tpSize * share = remoteTpSize * remote) {remoteRank : Int}
    (rankNonneg : 0 ≤ rank) (rankLt : rank < tpSize)
    (member : remoteRank ∈ (sharePlan rank share remote).map Share.remoteRank) :
    0 ≤ remoteRank ∧ remoteRank < remoteTpSize := by
  rw [map_remoteRank_sharePlan, mem_overlapping_iff positive] at member
  obtain ⟨before, after⟩ := member
  have start : 0 ≤ rank * share := Int.mul_nonneg rankNonneg localPositive.le
  have stop : (rank + 1) * share ≤ tpSize * share :=
    Int.mul_le_mul_of_nonneg_right (by omega) localPositive.le
  have below : 0 < (remoteRank + 1) * remote := by omega
  have above : remoteRank * remote < remoteTpSize * remote := by omega
  have lower := Int.pos_of_mul_pos_left below positive
  have upper := Int.lt_of_mul_lt_mul_right above positive.le
  omega

/-- The number of readers a consumer sends is the number of consumer ranks that read
the producer rank. -/
theorem length_sharePlan_eq_readers (localPositive : 0 < share) (positive : 0 < remote)
    (total : tpSize * share = remoteTpSize * remote) {remoteRank : Int}
    (rankNonneg : 0 ≤ remoteRank) (rankLt : remoteRank < remoteTpSize) :
    (sharePlan remoteRank remote share).length =
      ((Int.range 0 tpSize).filter fun rank =>
        remoteRank ∈ (sharePlan rank share remote).map Share.remoteRank).length := by
  have readers : ((sharePlan remoteRank remote share).map Share.remoteRank).Perm
      ((Int.range 0 tpSize).filter fun rank =>
        remoteRank ∈ (sharePlan rank share remote).map Share.remoteRank) := by
    refine (List.perm_ext_iff_of_nodup ?_ ((nodup_range _ _).filter _)).mpr fun rank => ?_
    · rw [map_remoteRank_sharePlan]
      exact nodup_range _ _
    · rw [List.mem_filter, decide_eq_true_iff, Int.mem_range_iff,
        mem_sharePlan_symm localPositive positive]
      constructor
      · intro member
        exact ⟨remoteRank_of_mem_sharePlan positive localPositive total.symm rankNonneg rankLt member,
          member⟩
      · exact And.right
  have lengths := readers.length_eq
  rwa [List.length_map] at lengths

end Even

end LeanVllm
