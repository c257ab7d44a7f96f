import LeanVllm.Layers.FusedMoe
import Mathlib.Algebra.BigOperators.Group.List.Basic

/-!
# The blocked products

A product of `fused_moe_kernel` writes, for every pair and column, the pair's row times
its expert's column, or zero where the expert is another rank's; and nothing else.
-/

namespace LeanVllm

open Collections Kernels

namespace FusedMoe

variable {R : Type} [CommSemiring R]

/-! ## Tiles of sums -/

/-- Terms past the end are zero, so whole tiles add up to the sum. -/
theorem sum_masked (term : Nat → R) {k m : Nat} (whole : k ≤ m) :
    ((List.range m).map fun j => if j < k then term j else 0).sum =
      ((List.range k).map term).sum := by
  induction m, whole using Nat.le_induction with
  | base =>
      refine congrArg List.sum (List.map_congr_left fun j inside => ?_)
      rw [if_pos (List.mem_range.mp inside)]
  | succ m above ih =>
      rw [List.range_succ, List.map_append, List.sum_append, ih, List.map_singleton,
        List.sum_singleton, if_neg (Nat.not_lt.mpr above), add_zero]

/-- One more tile. -/
theorem sum_tile (term : Nat → R) (turn width : Nat) :
    ((List.range ((turn + 1) * width)).map term).sum =
      ((List.range (turn * width)).map term).sum +
        ((List.range width).map fun lane => term (turn * width + lane)).sum := by
  rw [Nat.succ_mul, List.range_add, List.map_append, List.sum_append, List.map_map]
  rfl

omit [CommSemiring R] in
theorem loadTile_eq {rows columns : Nat} {read : Nat → Nat → Option R} {value : Nat → Nat → R}
    (each : ∀ row < rows, ∀ column < columns, read row column = some (value row column)) :
    loadTile rows columns read =
      some ((List.range rows).map fun row => (List.range columns).map (value row)) :=
  mapM_eq_some fun row inside => mapM_eq_some fun column small =>
    each row (List.mem_range.mp inside) column (List.mem_range.mp small)

theorem dot_eq {rows width columns row column : Nat} (f g : Nat → Nat → R) (inside : row < rows)
    (small : column < columns) :
    dot ((List.range rows).map fun row => (List.range width).map (f row))
      ((List.range width).map fun lane => (List.range columns).map (g lane)) width row column =
      ((List.range width).map fun lane => f row lane * g lane column).sum := by
  refine congrArg List.sum (List.map_congr_left fun lane among => ?_)
  rw [List.mem_range] at among
  rw [getD_map_range _ _ inside, getD_map_range _ _ among, getD_map_range _ _ among,
    getD_map_range _ _ small]

/-! ## One block -/

section Accumulate

variable {a : Buffer (Nat × Nat) R} {b : Buffer (Nat × Nat × Nat) R} {launch : Launch}
  {pairs : List Nat} {expert numValidPairs n k topK pidN : Nat} {A : Nat → Nat → R}
  {B : Nat → Nat → R}

section Turns

variable (someColumn : 0 < n)
  (aLoads : ∀ p < numValidPairs, ∀ j < k, a.load (p / topK, j) = some (A p j))
  (bLoads : ∀ c < n, ∀ j < k, b.load (expert, c, j) = some (B c j))
include someColumn aLoads bLoads

/-- One turn adds one tile of products, wherever the store keeps a lane. -/
theorem accumulateTurn_eq (acc : Nat → Nat → R) (turn : Nat) :
    ∃ next, accumulateTurn a b launch pairs expert numValidPairs n k topK pidN acc turn =
        some next ∧
      ∀ row < launch.blockSizeM, ∀ column < launch.blockSizeN,
        pairs.getD row 0 < numValidPairs → pidN * launch.blockSizeN + column < n →
          next row column = acc row column + ((List.range launch.blockSizeK).map fun lane =>
            if turn * launch.blockSizeK + lane < k then
              A (pairs.getD row 0) (turn * launch.blockSizeK + lane) *
                B (pidN * launch.blockSizeN + column) (turn * launch.blockSizeK + lane)
            else 0).sum := by
  have mask : ∀ lane, decide (lane < k - turn * launch.blockSizeK) =
      decide (turn * launch.blockSizeK + lane < k) := by
    intro lane
    congr 1
    exact propext ⟨fun inside => by omega, fun inside => by omega⟩
  have aTile : loadTile launch.blockSizeM launch.blockSizeK (fun row lane =>
      a.loadMasked (decide (pairs.getD row 0 < numValidPairs) &&
        decide (lane < k - turn * launch.blockSizeK)) 0
        (pairs.getD row 0 / topK, turn * launch.blockSizeK + lane)) = _ :=
    loadTile_eq fun row _ lane _ => by
      rw [mask]
      exact Buffer.loadMasked_eq fun both => by
        obtain ⟨valid, inside⟩ := Bool.and_eq_true_iff.mp both
        exact aLoads _ (of_decide_eq_true valid) _ (of_decide_eq_true inside)
  have bTile : loadTile launch.blockSizeK launch.blockSizeN (fun lane column =>
      b.loadMasked (decide (lane < k - turn * launch.blockSizeK)) 0
        (expert, (pidN * launch.blockSizeN + column) % n, turn * launch.blockSizeK + lane)) = _ :=
    loadTile_eq fun lane _ column _ => by
      rw [mask]
      exact Buffer.loadMasked_eq fun inside =>
        bLoads _ (Nat.mod_lt _ someColumn) _ (of_decide_eq_true inside)
  refine ⟨_, by rw [accumulateTurn, aTile, bTile]; rfl, ?_⟩
  intro row inside column small valid here
  rw [dot_eq _ _ inside small]
  congr 1
  refine congrArg List.sum (List.map_congr_left fun lane _ => ?_)
  rw [decide_eq_true valid, Bool.true_and, Nat.mod_eq_of_lt here]
  by_cases within : turn * launch.blockSizeK + lane < k
  · simp only [within, decide_true, if_true]
  · simp only [within, decide_false, if_false, Bool.false_eq_true, zero_mul]

/-- The accumulator, wherever the store keeps a lane. -/
theorem accumulate_eq (someK : 0 < launch.blockSizeK) :
    ∃ acc, accumulate a b launch pairs expert numValidPairs n k topK pidN = some acc ∧
      ∀ row < launch.blockSizeM, ∀ column < launch.blockSizeN,
        pairs.getD row 0 < numValidPairs → pidN * launch.blockSizeN + column < n →
          acc row column = ((List.range k).map fun j =>
            A (pairs.getD row 0) j * B (pidN * launch.blockSizeN + column) j).sum := by
  have loop : ∀ m, ∃ acc, (List.range m).foldlM
      (accumulateTurn a b launch pairs expert numValidPairs n k topK pidN) (fun _ _ => 0) =
        some acc ∧
      ∀ row < launch.blockSizeM, ∀ column < launch.blockSizeN,
        pairs.getD row 0 < numValidPairs → pidN * launch.blockSizeN + column < n →
          acc row column = ((List.range (m * launch.blockSizeK)).map fun j => if j < k then
            A (pairs.getD row 0) j * B (pidN * launch.blockSizeN + column) j else 0).sum := by
    intro m
    induction m with
    | zero => exact ⟨_, rfl, fun row _ column _ _ _ => by simp⟩
    | succ m ih =>
        obtain ⟨acc, earlier, value⟩ := ih
        obtain ⟨next, turn, added⟩ := @accumulateTurn_eq R _ a b launch pairs expert numValidPairs
          n k topK pidN A B someColumn aLoads bLoads acc m
        refine ⟨next, ?_, ?_⟩
        · rw [List.range_succ, List.foldlM_append, earlier]
          simpa using turn
        · intro row inside column small valid here
          rw [added row inside column small valid here, value row inside column small valid here,
            sum_tile]
  obtain ⟨acc, ran, value⟩ := loop (Kernels.cdiv k launch.blockSizeK)
  refine ⟨acc, ran, fun row inside column small valid here => ?_⟩
  rw [value row inside column small valid here]
  exact sum_masked _ (le_cdiv_mul k someK)

end Turns

end Accumulate

omit [CommSemiring R] in
theorem mem_storeTile {launch : Launch} {pairs : List Nat} {numValidPairs n pidN p c : Nat}
    {value : Nat → Nat → R} {v : R} :
    ((p, c), v) ∈ storeTile launch pairs numValidPairs n pidN value ↔
      ∃ row < launch.blockSizeM, ∃ column < launch.blockSizeN, p = pairs.getD row 0 ∧
        p < numValidPairs ∧ c = pidN * launch.blockSizeN + column ∧ c < n ∧
        v = value row column := by
  simp only [storeTile, List.mem_flatMap, List.mem_map, List.mem_filter, List.mem_range,
    Prod.mk.injEq, decide_eq_true_eq]
  constructor
  · rintro ⟨row, inside, column, ⟨small, valid, here⟩, ⟨rfl, rfl⟩, rfl⟩
    exact ⟨row, inside, column, small, rfl, valid, rfl, here, rfl⟩
  · rintro ⟨row, inside, column, small, rfl, valid, rfl, here, rfl⟩
    exact ⟨row, inside, column, ⟨small, valid, here⟩, ⟨rfl, rfl⟩, rfl⟩

/-- What a product holds for a pair and a column. -/
def product (expertMap : Option (List Int)) (ids : List Nat) (k : Nat) (A : Nat → Nat → R)
    (B : Nat → Nat → Nat → R) (weight : Nat → R) (mulRoutedWeight : Bool) (p c : Nat) : R :=
  if localExpert expertMap (ids.getD p 0) = -1 then 0
  else
    let acc := ((List.range k).map fun j => A p j * B (ids.getD p 0) c j).sum
    if mulRoutedWeight then acc * weight p else acc

section Kernel

variable {ids : List Nat} {numExperts : Nat} {expertMap : Option (List Int)} {layout : Alignment}
  {launch : Launch} {a : Buffer (Nat × Nat) R} {b : Buffer (Nat × Nat × Nat) R}
  {topkWeights : Buffer Nat R} {n k topK : Nat} {mulRoutedWeight : Bool} {A : Nat → Nat → R}
  {B : Nat → Nat → Nat → R} {weight : Nat → R}

/-- What a product loads: a row for each pair, the weights of the experts of this rank, and
the routed weights. -/
structure Operands (ids : List Nat) (numExperts : Nat) (expertMap : Option (List Int))
    (a : Buffer (Nat × Nat) R) (b : Buffer (Nat × Nat × Nat) R) (topkWeights : Buffer Nat R)
    (n k topK : Nat) (A : Nat → Nat → R) (B : Nat → Nat → Nat → R) (weight : Nat → R) : Prop where
  row : ∀ p < ids.length, ∀ j < k, a.load (p / topK, j) = some (A p j)
  expert : ∀ e < numExperts, localExpert expertMap e ≠ -1 → ∀ c < n, ∀ j < k,
    b.load ((localExpert expertMap e).toNat, c, j) = some (B e c j)
  routed : ∀ p < ids.length, topkWeights.load p = some (weight p)

variable (laid : Laid ids numExperts launch.blockSizeM expertMap layout)
  (operands : Operands ids numExperts expertMap a b topkWeights n k topK A B weight)
  (small : ∀ e ∈ ids, e < numExperts) (someM : 0 < launch.blockSizeM)
  (someK : 0 < launch.blockSizeK)
include laid operands small someM someK

/-- A program writes products only, and those of its block and its columns. -/
theorem fusedMoeKernel_writes (someColumn : 0 < n) (pid : Nat) :
    ∃ writes, fusedMoeKernel a b layout topkWeights n k ids.length topK mulRoutedWeight launch pid =
        some writes ∧
      (∀ p c v, ((p, c), v) ∈ writes → p < ids.length ∧ c < n ∧
        v = product expertMap ids k A B weight mulRoutedWeight p c) ∧
      ∀ m pidN, programTile layout.numBlocks (Kernels.cdiv n launch.blockSizeN) launch.groupSizeM pid =
          (m, pidN) → m * launch.blockSizeM < layout.numRows →
        ∀ lane < launch.blockSizeM, ∀ column < launch.blockSizeN, ∀ p < ids.length,
          layout.sortedPairs.load (m * launch.blockSizeM + lane) = some p →
          pidN * launch.blockSizeN + column < n →
            ∃ v, ((p, pidN * launch.blockSizeN + column), v) ∈ writes := by
  generalize tileEq : programTile layout.numBlocks (Kernels.cdiv n launch.blockSizeN) launch.groupSizeM
    pid = tile
  obtain ⟨m, pidN⟩ := tile
  simp only [fusedMoeKernel, tileEq]
  by_cases past : m * launch.blockSizeM ≥ layout.numRows
  · rw [if_pos past]
    refine ⟨[], rfl, fun p c v among => absurd among List.not_mem_nil, ?_⟩
    rintro m' pidN' same within
    obtain ⟨rfl, rfl⟩ := Prod.mk.inj same
    omega
  · rw [if_neg past]
    obtain ⟨_, e, known, owner, rows⟩ := laid.block someM small (Nat.lt_of_not_le past)
    choose! pair read own using rows
    have pairs := mapM_eq_some fun lane among => read lane (List.mem_range.mp among)
    -- the three stores differ in the value only
    have stored : ∀ value : Nat → Nat → R, (∀ row < launch.blockSizeM,
        ∀ column < launch.blockSizeN, pair row < ids.length →
          pidN * launch.blockSizeN + column < n → value row column =
            product expertMap ids k A B weight mulRoutedWeight (pair row)
              (pidN * launch.blockSizeN + column)) →
        (∀ p c v, ((p, c), v) ∈ storeTile launch ((List.range launch.blockSizeM).map pair)
          ids.length n pidN value → p < ids.length ∧ c < n ∧
            v = product expertMap ids k A B weight mulRoutedWeight p c) ∧
        ∀ m' pidN', (m, pidN) = (m', pidN') → m' * launch.blockSizeM < layout.numRows →
          ∀ lane < launch.blockSizeM, ∀ column < launch.blockSizeN, ∀ p < ids.length,
            layout.sortedPairs.load (m' * launch.blockSizeM + lane) = some p →
            pidN' * launch.blockSizeN + column < n →
              ∃ v, ((p, pidN' * launch.blockSizeN + column), v) ∈ storeTile launch
                ((List.range launch.blockSizeM).map pair) ids.length n pidN value := by
      intro value values
      constructor
      · intro p c v among
        obtain ⟨row, inside, column, inTile, rfl, valid, rfl, here, rfl⟩ := mem_storeTile.mp among
        rw [getD_map_range _ _ inside] at valid ⊢
        exact ⟨valid, here, values row inside column inTile valid here⟩
      · intro m' pidN' same _ lane inside column inTile p valid held here
        obtain ⟨rfl, rfl⟩ := Prod.mk.inj same
        rw [read lane inside] at held
        obtain rfl := Option.some.inj held
        refine ⟨_, mem_storeTile.mpr ⟨lane, inside, column, inTile, ?_, valid, rfl, here, rfl⟩⟩
        rw [getD_map_range _ _ inside]
    have expert : ∀ row < launch.blockSizeM, pair row < ids.length →
        ids.getD (pair row) 0 = e := by
      intro row inside valid
      rw [List.getD_eq_getElem?_getD, own row inside valid, Option.getD_some]
    simp only [pairs, owner, Option.bind_eq_bind, Option.bind_some]
    by_cases elsewhere : localExpert expertMap e = -1
    · rw [if_pos elsewhere]
      refine ⟨_, rfl, stored _ fun row inside column _ valid _ => ?_⟩
      rw [product, expert row inside valid, if_pos elsewhere]
    · rw [if_neg elsewhere]
      obtain ⟨acc, ran, value⟩ := @accumulate_eq R _ a b launch
        ((List.range launch.blockSizeM).map pair) (localExpert expertMap e).toNat ids.length n k
        topK pidN A (B e) someColumn operands.row (operands.expert e known elsewhere) someK
      have lane : ∀ row < launch.blockSizeM,
          ((List.range launch.blockSizeM).map pair).getD row 0 = pair row :=
        fun row inside => getD_map_range _ _ inside
      rw [ran, Option.bind_some]
      cases mulRoutedWeight with
      | false =>
          refine ⟨_, rfl, stored _ fun row inside column inTile valid here => ?_⟩
          rw [value row inside column inTile (by rwa [lane row inside]) here, lane row inside,
            product, expert row inside valid, if_neg elsewhere]
          rfl
      | true =>
          have weights : ((List.range launch.blockSizeM).mapM fun row => topkWeights.loadMasked
              (((List.range launch.blockSizeM).map pair).getD row 0 < ids.length) 0
              (((List.range launch.blockSizeM).map pair).getD row 0)) =
              some ((List.range launch.blockSizeM).map fun row =>
                if decide (((List.range launch.blockSizeM).map pair).getD row 0 < ids.length) = true
                then weight (((List.range launch.blockSizeM).map pair).getD row 0) else 0) :=
            mapM_eq_some fun row _ => Buffer.loadMasked_eq fun valid =>
              operands.routed _ (of_decide_eq_true valid)
          rw [if_pos rfl, weights, Option.bind_some]
          refine ⟨_, rfl, stored _ fun row inside column inTile valid here => ?_⟩
          rw [value row inside column inTile (by rwa [lane row inside]) here, lane row inside,
            getD_map_range _ _ inside, lane row inside, if_pos (decide_eq_true valid),
            product, expert row inside valid, if_neg elsewhere]
          rfl

/-- Every element of a product is written, and holds the product. -/
theorem gemm_spec (someN : 0 < launch.blockSizeN) (someG : 0 < launch.groupSizeM) (rows : Nat) :
    ∃ c, gemm ⟨rows, k, a⟩ b layout topkWeights n ids.length topK mulRoutedWeight launch =
        some ⟨ids.length, n, c⟩ ∧
      ∀ p < ids.length, ∀ column < n, c.load (p, column) =
        some (product expertMap ids k A B weight mulRoutedWeight p column) := by
  have each : ∀ pid, pid < layout.numBlocks * Kernels.cdiv n launch.blockSizeN → _ := fun pid inside =>
    @fusedMoeKernel_writes R _ ids numExperts expertMap layout launch a b topkWeights n k topK
      mulRoutedWeight A B weight laid operands small someM someK (by
        have columns := (lt_cdiv_iff someN).mp (Nat.pos_of_lt_mul_left inside)
        omega) pid
  choose! writes ran sound complete using each
  obtain ⟨c, launched, written⟩ := @Buffer.launch_written _ _ _ _
    (Buffer.empty (rect ids.length n)) (List.range (layout.numBlocks * Kernels.cdiv n launch.blockSizeN))
    _ writes (fun pid among => ran pid (List.mem_range.mp among)) (by
      intro pid among entry own
      obtain ⟨inside, small, _⟩ := sound pid (List.mem_range.mp among) _ _ _ own
      exact decide_eq_true ⟨inside, small⟩)
  refine ⟨c, ?_, ?_⟩
  · rw [gemm, launched]
    rfl
  · intro p inside column here
    obtain ⟨m, lane, inBlock, active, held⟩ := laid.pair someM small inside
    obtain ⟨row, _⟩ := laid.block someM small active
    obtain ⟨pid, program, tile⟩ := exists_program row (div_lt_cdiv here someN) someG
    have place := Nat.div_add_mod' column launch.blockSizeN
    obtain ⟨v, own⟩ := complete pid program m (column / launch.blockSizeN) tile active lane inBlock
      (column % launch.blockSizeN) (Nat.mod_lt _ someN) p inside held (by rwa [place])
    rw [place] at own
    have value := (sound pid program _ _ _ own).2.2
    subst value
    refine written.stored ⟨pid, List.mem_range.mpr program, own⟩ ?_
    rintro other ⟨pid', among, again⟩
    exact (sound pid' (List.mem_range.mp among) _ _ _ again).2.2

end Kernel

/-! ## The activation -/

section Activation

variable {sigmoid : R → R} {x : Buffer (Nat × Nat) R} {X : Nat → Nat → R} {rows d block : Nat}

theorem siluAndMulKernel_eq (loads : ∀ r < rows, ∀ c < 2 * d, x.load (r, c) = some (X r c))
    {row tile : Nat} (inside : row < rows) :
    siluAndMulKernel sigmoid x d block (row, tile) =
      some (((List.range block).filter fun lane => tile * block + lane < d).map fun lane =>
        ((row, tile * block + lane), X row (tile * block + lane) *
          sigmoid (X row (tile * block + lane)) * X row (d + (tile * block + lane)))) := by
  have gate : ((List.range block).mapM fun lane => x.loadMasked
      (decide (tile * block + lane < d)) 0 (row, tile * block + lane)) = _ :=
    mapM_eq_some fun lane _ => Buffer.loadMasked_eq fun within =>
      loads row inside _ (by have small := of_decide_eq_true within; omega)
  have up : ((List.range block).mapM fun lane => x.loadMasked
      (decide (tile * block + lane < d)) 0 (row, d + (tile * block + lane))) = _ :=
    mapM_eq_some fun lane _ => Buffer.loadMasked_eq fun within =>
      loads row inside _ (by have small := of_decide_eq_true within; omega)
  simp only [siluAndMulKernel, gate, up, Option.bind_eq_bind, Option.bind_some]
  refine congrArg some (List.map_congr_left fun lane among => ?_)
  obtain ⟨inBlock, within⟩ := List.mem_filter.mp among
  rw [List.mem_range] at inBlock
  rw [getD_map_range _ _ inBlock, getD_map_range _ _ inBlock, if_pos within, if_pos within]

/-- The activation writes every element, from rows that are all written. -/
theorem siluAndMul_spec (loads : ∀ r < rows, ∀ c < 2 * d, x.load (r, c) = some (X r c)) :
    ∃ out, siluAndMul sigmoid ⟨rows, 2 * d, x⟩ = some ⟨rows, d, out⟩ ∧
      ∀ r < rows, ∀ c < d, out.load (r, c) =
        some (X r c * sigmoid (X r c) * X r (d + c)) := by
  have half : 2 * d / 2 = d := Nat.mul_div_cancel_left d (by decide)
  have someBlock : 0 < min (nextPowerOf2 d) 1024 := by
    have power := nextPowerOf2_pos d
    omega
  simp only [siluAndMul, half]
  generalize min (nextPowerOf2 d) 1024 = block at someBlock
  obtain ⟨out, launched, written⟩ := @Buffer.launch_written _ _ _ _ (Buffer.empty (rect rows d))
    ((List.range rows).flatMap fun row =>
      (List.range (Kernels.cdiv d block)).map fun tile => (row, tile))
    (siluAndMulKernel sigmoid x d block) (fun pid => ((List.range block).filter fun lane =>
      pid.2 * block + lane < d).map fun lane => ((pid.1, pid.2 * block + lane),
        X pid.1 (pid.2 * block + lane) * sigmoid (X pid.1 (pid.2 * block + lane)) *
          X pid.1 (d + (pid.2 * block + lane)))) (by
      intro pid among
      obtain ⟨row, inside, tile⟩ := List.mem_flatMap.mp among
      obtain ⟨tile, _, rfl⟩ := List.mem_map.mp tile
      exact siluAndMulKernel_eq loads (List.mem_range.mp inside)) (by
      intro pid among entry own
      obtain ⟨row, inside, tile⟩ := List.mem_flatMap.mp among
      obtain ⟨tile, _, rfl⟩ := List.mem_map.mp tile
      obtain ⟨lane, kept, rfl⟩ := List.mem_map.mp own
      exact decide_eq_true ⟨List.mem_range.mp inside, of_decide_eq_true (List.mem_filter.mp kept).2⟩)
  rw [launched]
  refine ⟨out, rfl, fun r inside c small => written.stored ?_ ?_⟩
  · refine ⟨(r, c / block), ?_, ?_⟩
    · exact List.mem_flatMap.mpr ⟨r, List.mem_range.mpr inside, List.mem_map.mpr
        ⟨_, List.mem_range.mpr (div_lt_cdiv small someBlock), rfl⟩⟩
    · have place := Nat.div_add_mod' c block
      refine List.mem_map.mpr ⟨c % block, List.mem_filter.mpr
        ⟨List.mem_range.mpr (Nat.mod_lt _ someBlock), ?_⟩, ?_⟩
      · simp only [place, small, decide_true]
      · simp only [place]
  · rintro other ⟨pid, _, own⟩
    obtain ⟨lane, _, entry⟩ := List.mem_map.mp own
    obtain ⟨place, rfl⟩ := Prod.mk.inj entry
    obtain ⟨rfl, rfl⟩ := Prod.mk.inj place
    rfl

end Activation

end FusedMoe

end LeanVllm
