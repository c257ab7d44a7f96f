import LeanVllm.Collections.StableSort
import LeanVllm.Kernels.Buffer
import LeanVllm.Kernels.TileOrder

/-!
# Sorting pairs into blocks

`align_blocks` sorts the token-expert pairs by expert and pads each expert's run to
whole row blocks.  `align_blocks_triton` does it in three launches: the first counts
each program's pairs, the second turns the counts into offsets and fills the padding,
and the third places each pair and names each block's expert.
-/

namespace LeanVllm

open Collections Kernels

namespace FusedMoe

/-! ## The reference -/

/-- What `align_blocks` returns: each padded row's pair, each block's expert, and the row
count. -/
structure AlignedBlocks where
  sortedPairs : List Nat
  blockExperts : List Int
  numRows : Nat

/-- `align_blocks`. -/
def alignBlocks (topkIds : List Nat) (numExperts blockM : Nat) : AlignedBlocks :=
  let numPairs := topkIds.length
  let sorted := stableSort topkIds
  let expertOfPair := sorted.map Prod.fst
  let order := sorted.map Prod.snd
  let starts := (List.range numExperts).map (searchsorted expertOfPair)
  let counts := (List.range numExperts).map fun expert =>
    searchsortedRight expertOfPair expert - starts.getD expert 0
  let padded := counts.map fun count => (count + blockM - 1) / blockM * blockM
  let paddedStarts := (List.range numExperts).map fun expert =>
    (padded.take (expert + 1)).sum - padded.getD expert 0
  -- each pair keeps its rank within its expert's run, moved to where that run was padded to start
  let ranks := (List.range numPairs).map fun k => k - starts.getD (expertOfPair.getD k 0) 0
  let numBlocks := (numPairs + blockM - 1) / blockM + numExperts
  let sortedPairs := indexCopy (List.replicate (numBlocks * blockM) numPairs)
    ((List.range numPairs).map fun k =>
      paddedStarts.getD (expertOfPair.getD k 0) 0 + ranks.getD k 0) order
  let blockExperts := (List.range numBlocks).map fun block =>
    (searchsortedRight (paddedStarts.map (· / blockM)) block : Int) - 1
  ⟨sortedPairs, blockExperts,
    paddedStarts.getD (numExperts - 1) 0 + padded.getD (numExperts - 1) 0⟩

/-! ## The kernels -/

/-- The places of a flat buffer. -/
def flat (size : Nat) (i : Nat) : Bool :=
  i < size

/-- `topk_ids.flatten()`. -/
def pairIds (ids : List Nat) : Buffer Nat Int :=
  Buffer.filled (flat ids.length) fun p => (ids.getD p 0 : Int)

/-- The expert map as the kernels load it. -/
def mapBuffer (expertMap : Option (List Int)) : Option (Buffer Nat Int) :=
  expertMap.map fun map => Buffer.filled (flat map.length) fun expert => map.getD expert 0

/-- The ids one program loads, -1 past the last pair. -/
def loadIds (topkIds : Buffer Nat Int) (numPairs block pid : Nat) : Option (List Int) :=
  (List.range block).mapM fun lane =>
    topkIds.loadMasked (pid * block + lane < numPairs) (-1) (pid * block + lane)

/-- `count_experts_kernel`: how many of the program's pairs go to each expert. -/
def countExpertsKernel (topkIds : Buffer Nat Int) (numPairs expertsPow2 block pid : Nat) :
    Option (List (Nat × Nat)) := do
  let ids ← loadIds topkIds numPairs block pid
  some ((List.range expertsPow2).map fun expert =>
    (pid * expertsPow2 + expert, ids.count (expert : Int)))

/-- One turn of the loop of `scan_experts_kernel`: `rows` programs' counts become their
offsets, on top of the totals so far. -/
def scanRows (numPrograms expertsPow2 rows : Nat) (state : Buffer Nat Nat × List Nat)
    (start : Nat) : Option (Buffer Nat Nat × List Nat) := do
  let counts ← (List.range rows).mapM fun row => (List.range expertsPow2).mapM fun expert =>
    state.1.loadMasked (start + row < numPrograms) 0 ((start + row) * expertsPow2 + expert)
  let column := fun expert => counts.map fun row => row.getD expert 0
  -- `tl.cumsum(counts) - counts`: exclusive
  let earlier := fun row expert =>
    ((column expert).take (row + 1)).sum - (column expert).getD row 0 + state.2.getD expert 0
  let scanned ← state.1.storeAll (((List.range rows).filter fun row =>
    start + row < numPrograms).flatMap fun row => (List.range expertsPow2).map fun expert =>
      ((start + row) * expertsPow2 + expert, earlier row expert))
  some (scanned, (List.range expertsPow2).map fun expert =>
    state.2.getD expert 0 + (column expert).sum)

/-- What `scan_experts_kernel` leaves, and its stores to `sorted_pairs`. -/
structure Scan where
  counts : Buffer Nat Nat
  expertStarts : Buffer Nat Nat
  overhang : List (Nat × Nat)
  numRows : Nat

/-- `scan_experts_kernel`, one program. -/
def scanExpertsKernel (counts expertStarts : Buffer Nat Nat)
    (numPrograms numPairs expertsPow2 blockM rows tail : Nat) : Option Scan := do
  let (counts, totals) ← ((List.range (Kernels.cdiv numPrograms rows)).map (· * rows)).foldlM
    (scanRows numPrograms expertsPow2 rows) (counts, List.replicate expertsPow2 0)
  let padded := totals.map fun total => (total + blockM - 1) / blockM * blockM
  -- `tl.cumsum(padded) - padded`
  let starts := (List.range expertsPow2).map fun expert =>
    (padded.take (expert + 1)).sum - padded.getD expert 0
  let expertStarts ← expertStarts.storeAll ((List.range expertsPow2).map fun expert =>
    (expert, starts.getD expert 0))
  -- the overhang of each run's last block: rows the GEMMs mask out
  let overhang := ((List.range (Kernels.cdiv blockM tail)).map (· * tail)).flatMap fun offset =>
    (List.range expertsPow2).flatMap fun expert => ((List.range tail).filter fun lane =>
      totals.getD expert 0 + (offset + lane) < padded.getD expert 0).map fun lane =>
        (starts.getD expert 0 + (totals.getD expert 0 + (offset + lane)), numPairs)
  some ⟨counts, expertStarts, overhang, padded.sum⟩

/-- The lanes a mask keeps. -/
def masked {β : Type} (lanes : List (Bool × β)) : List β :=
  (lanes.filter Prod.fst).map Prod.snd

/-- One lane's pair in `scatter_pairs_kernel`: its mask, its slot and the pair. -/
def pairLane (counts expertStarts : Buffer Nat Nat) (ids : List Int)
    (numPairs expertsPow2 block pid lane : Nat) : Option (Bool × Nat × Nat) := do
  let pair := pid * block + lane
  let mask : Bool := pair < numPairs
  let id := ids.getD lane (-1)
  -- the lane's rank among this program's pairs of the expert, from 1
  let rank := (ids.take (lane + 1)).count id
  let expert := if mask then id.toNat else 0
  let start ← expertStarts.loadMasked mask 0 expert
  let earlier ← counts.loadMasked mask 0 (pid * expertsPow2 + expert)
  some (mask, start + earlier + rank - 1, pair)

/-- One lane's block: its mask, the block and its expert, which is the last one starting
at or before it. -/
def blockLane (starts : List Nat) (expertMap : Option (Buffer Nat Int))
    (numBlocks numExperts expertsPow2 blockM block pid lane : Nat) :
    Option (Bool × Nat × Int) := do
  let blockId := pid * block + lane
  let mask : Bool := blockId < numBlocks
  let owner : Int := ((List.range expertsPow2).countP fun expert =>
    starts.getD expert 0 / blockM ≤ blockId ∧ expert < numExperts) - 1
  let expert ← match expertMap with
    | none => some owner
    | some expertMap => expertMap.loadMasked mask (-1) owner.toNat
  some (mask, blockId, expert)

/-- `scatter_pairs_kernel`: each pair to its slot, and each block's expert. -/
def scatterPairsKernel (topkIds : Buffer Nat Int) (counts expertStarts : Buffer Nat Nat)
    (expertMap : Option (Buffer Nat Int))
    (numPairs numBlocks numExperts expertsPow2 blockM block pid : Nat) :
    Option (List (Nat × Nat) × List (Nat × Int)) := do
  let ids ← loadIds topkIds numPairs block pid
  let pairs ← (List.range block).mapM
    (pairLane counts expertStarts ids numPairs expertsPow2 block pid)
  let starts ← (List.range expertsPow2).mapM expertStarts.load
  let blocks ← (List.range block).mapM
    (blockLane starts expertMap numBlocks numExperts expertsPow2 blockM block pid)
  some (masked pairs, masked blocks)

/-- What `align_blocks_triton` returns: each padded row's pair, each block's expert, and
the row count. -/
structure Alignment where
  sortedPairs : Buffer Nat Nat
  blockExperts : Buffer Nat Int
  numBlocks : Nat
  numRows : Nat

/-- The three launches: each program's stores, and what is returned. -/
structure AlignRun where
  counted : List (List (Nat × Nat))
  scan : Scan
  scattered : List (List (Nat × Nat) × List (Nat × Int))
  layout : Alignment

/-- The three launches of `align_blocks_triton`, with `numPrograms` programs of `tile` pairs
and a padded number of experts. -/
def alignLaunches (topkIds : List Nat) (numExperts blockM numPrograms tile expertsPow2 : Nat)
    (expertMap : Option (List Int)) : Option AlignRun := do
  let numPairs := topkIds.length
  -- every expert wastes under one whole block
  let numBlocks := Kernels.cdiv numPairs blockM + numExperts
  let counted ← (List.range numPrograms).mapM
    (countExpertsKernel (pairIds topkIds) numPairs expertsPow2 tile)
  let counts ← (Buffer.empty (flat (numPrograms * expertsPow2))).storeAll counted.flatten
  let scan ← scanExpertsKernel counts (Buffer.empty (flat expertsPow2)) numPrograms numPairs
    expertsPow2 blockM tile (min blockM tile)
  let scattered ← (List.range (max numPrograms (Kernels.cdiv numBlocks tile))).mapM
    (scatterPairsKernel (pairIds topkIds) scan.counts scan.expertStarts (mapBuffer expertMap)
      numPairs numBlocks numExperts expertsPow2 blockM tile)
  let sortedPairs ← (Buffer.empty (flat (numBlocks * blockM))).storeAll
    (scan.overhang ++ scattered.flatMap Prod.fst)
  let blockExperts ← (Buffer.empty (flat numBlocks)).storeAll (scattered.flatMap Prod.snd)
  some ⟨counted, scan, scattered, ⟨sortedPairs, blockExperts, numBlocks, scan.numRows⟩⟩

/-- `align_blocks_triton`. -/
def alignBlocksTriton (topkIds : List Nat) (numExperts blockM : Nat)
    (expertMap : Option (List Int)) : Option Alignment :=
  let expertsPow2 := nextPowerOf2 numExperts
  -- a one-hot tile stays near 8K elements
  let tile := max 16 (8192 / expertsPow2)
  (alignLaunches topkIds numExperts blockM (Kernels.cdiv topkIds.length tile) tile expertsPow2
    expertMap).map AlignRun.layout

end FusedMoe

end LeanVllm
