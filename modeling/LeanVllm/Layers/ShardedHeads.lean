import LeanVllm.Layers.ShardedLinear

/-!
# Heads over ranks

A fused query, key and value projection holds a run of heads of each; a rank's run of
query heads uses just its run of key and value heads.
-/

namespace LeanVllm

open Collections Kernels FusedMoe

variable {R : Type}

section Heads

variable {full : QkvShard → Projection R} {hiddenSize headSize nq nk tpSize rank : Nat}
  {hasBias : Bool} {totalNumKvHeads : Option Nat}

/-- A row cut into heads. -/
theorem map_range_mul {β : Type} (f : Nat → β) (count width : Nat) :
    (List.range (count * width)).map f = ((List.range count).map fun h =>
      (List.range width).map fun d => f (h * width + d)).flatten := by
  induction count with
  | zero => simp
  | succ count ih =>
      rw [Nat.succ_mul, List.range_add, List.map_append, ih, List.range_succ, List.map_append,
        List.flatten_append, List.map_map, List.map_singleton, List.flatten_singleton]
      rfl

/-- One head of a row. -/
theorem take_drop_map_range {β : Type} (f : Nat → β) {count width h : Nat} (inside : h < count) :
    (((List.range (count * width)).map f).drop (h * width)).take width =
      (List.range width).map fun d => f (h * width + d) := by
  obtain ⟨rest, cells⟩ := Nat.exists_eq_add_of_le (Nat.mul_le_mul_right width inside)
  rw [cells, Nat.succ_mul, List.range_add, List.range_add, List.map_append, List.map_append,
    List.append_assoc, List.drop_left' (by simp), List.take_left' (by simp), List.map_map]
  rfl

/-- How many rows a projection's tensors have in the checkpoint. -/
def qkvRows (totalNumHeads kvHeads headSize : Nat) : QkvShard → Nat
  | .q => totalNumHeads * headSize
  | .k | .v => kvHeads * headSize

/-- A rank's layer, loaded, and its output for some rows. -/
def qkvPart [CommSemiring R] (full : QkvShard → Projection R)
    (hiddenSize headSize totalNumHeads : Nat) (totalNumKvHeads : Option Nat) (hasBias : Bool)
    (loads : List (ParamName × QkvShard)) (x : List (List R)) (tpSize tpRank : Nat) :
    Option (List (List R)) := do
  let kvHeads := QKVParallelLinear.kvHeads totalNumHeads totalNumKvHeads
  let (heads, layer) ← QKVParallelLinear.init hiddenSize headSize totalNumHeads totalNumKvHeads
    hasBias tpRank tpSize
  let params ← (Buffer.empty layer.inside).launch loads fun load =>
    QKVParallelLinear.weightLoader heads layer load.1
      ((full load.2).tensor (qkvRows totalNumHeads kvHeads headSize load.2) hiddenSize load.1)
      load.2
  layer.linear params layer.hasBias x

theorem QKVParallelLinear.init_eq (inside : rank < tpSize)
    (kv : kvHeads (tpSize * nq) totalNumKvHeads = tpSize * nk) :
    init hiddenSize headSize (tpSize * nq) totalNumKvHeads hasBias rank tpSize =
      some (⟨headSize, nq, nk⟩, ⟨hiddenSize, (nq + 2 * nk) * headSize, hasBias, rank, tpSize⟩) := by
  have positive := Nat.zero_lt_of_lt inside
  have output : (tpSize * nq + 2 * (tpSize * nk)) * headSize =
      tpSize * ((nq + 2 * nk) * headSize) := by
    ring
  simp [init, kv, ColumnParallelLinear.init, divide, output, Nat.mul_div_cancel_left _ positive]

theorem load_qkv {layer : LinearBase} (inside : layer.tpRank < layer.tpSize)
    (size : layer.outputSize = (nq + 2 * nk) * headSize) (full : QkvShard → Projection R)
    {loads : List (ParamName × QkvShard)}
    (all : ∀ name s, (name, s) ∈ loads ↔ (name = .bias → layer.hasBias = true)) :
    ∃ params, (Buffer.empty layer.inside).launch loads (fun load =>
        QKVParallelLinear.weightLoader ⟨headSize, nq, nk⟩ layer load.1
          ((full load.2).tensor
            (layer.tpSize * (QKVParallelLinear.shardAt ⟨headSize, nq, nk⟩ load.2).2)
            layer.inputSize load.1) load.2) = some params ∧
      ∀ s, layer.Holds params full (fun s => (QKVParallelLinear.shardAt ⟨headSize, nq, nk⟩ s).1)
        (fun s => (QKVParallelLinear.shardAt ⟨headSize, nq, nk⟩ s).2) s := by
  have whole : (nq + 2 * nk) * headSize = nq * headSize + nk * headSize + nk * headSize := by ring
  obtain ⟨params, launched, holds⟩ := @load_projections R layer QkvShard full
    (fun s => (QKVParallelLinear.shardAt ⟨headSize, nq, nk⟩ s).1)
    (fun s => (QKVParallelLinear.shardAt ⟨headSize, nq, nk⟩ s).2) inside [.q, .k, .v] loads
    (fun name s => by
      rw [all]
      cases s <;> simp)
    (fun s _ t _ r small r' small' same => by
      cases s <;> cases t <;> simp only [QKVParallelLinear.shardAt] at * <;> omega)
    (fun s _ => by
      rw [size, whole]
      cases s <;> simp only [QKVParallelLinear.shardAt] <;> omega)
    (fun load => QKVParallelLinear.weightLoader ⟨headSize, nq, nk⟩ layer load.1
      ((full load.2).tensor
        (layer.tpSize * (QKVParallelLinear.shardAt ⟨headSize, nq, nk⟩ load.2).2)
        layer.inputSize load.1) load.2)
    (fun load _ => rfl)
  exact ⟨params, launched, fun s => holds s (by cases s <;> simp)⟩

section Output

variable [CommSemiring R]

/-- Some heads of an unsharded projection, for one row. -/
def headsOf (projection : Projection R) (hasBias : Bool) (hiddenSize headSize : Nat) (x : Nat → R)
    (first count : Nat) : List (List R) :=
  (List.range count).map fun h => (List.range headSize).map fun d =>
    projection.apply hasBias hiddenSize x ((first + h) * headSize + d)

theorem flatten_headsOf (projection : Projection R) (x : Nat → R) (count : Nat) :
    (headsOf projection hasBias hiddenSize headSize x (rank * count) count).flatten =
      (List.range (count * headSize)).map fun i =>
        projection.apply hasBias hiddenSize x (rank * (count * headSize) + i) := by
  rw [map_range_mul, headsOf]
  refine congrArg List.flatten (List.map_congr_left fun h _ => List.map_congr_left fun d _ => ?_)
  refine congrArg _ ?_
  ring

/-- One rank's row: its heads of the queries, of the keys and of the values. -/
def headsRow (full : QkvShard → Projection R) (hasBias : Bool)
    (hiddenSize headSize nq nk : Nat) (x : Nat → R) (rank : Nat) : List R :=
  (headsOf (full .q) hasBias hiddenSize headSize x (rank * nq) nq).flatten ++
    (headsOf (full .k) hasBias hiddenSize headSize x (rank * nk) nk).flatten ++
      (headsOf (full .v) hasBias hiddenSize headSize x (rank * nk) nk).flatten

theorem qkvPart_eq (inside : rank < tpSize)
    (kv : QKVParallelLinear.kvHeads (tpSize * nq) totalNumKvHeads = tpSize * nk)
    {loads : List (ParamName × QkvShard)}
    (all : ∀ name s, (name, s) ∈ loads ↔ (name = .bias → hasBias = true)) (numTokens : Nat)
    (x : Nat → Nat → R) :
    qkvPart full hiddenSize headSize (tpSize * nq) totalNumKvHeads hasBias loads
        (tabulate numTokens hiddenSize x) tpSize rank =
      some ((List.range numTokens).map fun t =>
        headsRow full hasBias hiddenSize headSize nq nk (x t) rank) := by
  obtain ⟨params, launched, holds⟩ := @load_qkv R headSize nq nk
    ⟨hiddenSize, (nq + 2 * nk) * headSize, hasBias, rank, tpSize⟩ inside rfl full loads all
  have rows : ∀ s, qkvRows (tpSize * nq) (tpSize * nk) headSize s =
      tpSize * (QKVParallelLinear.shardAt ⟨headSize, nq, nk⟩ s).2 := by
    intro s
    cases s <;> exact Nat.mul_assoc _ _ _
  have whole : (nq + 2 * nk) * headSize = nq * headSize + nk * headSize + nk * headSize := by ring
  -- each row of the parameter is some shard's
  have shard : ∀ o < (nq + 2 * nk) * headSize, ∃ s, ∃ i,
      i < (QKVParallelLinear.shardAt ⟨headSize, nq, nk⟩ s).2 ∧
        o = (QKVParallelLinear.shardAt ⟨headSize, nq, nk⟩ s).1 + i := by
    intro o small
    rw [whole] at small
    by_cases queries : o < nq * headSize
    · exact ⟨.q, o, queries, (Nat.zero_add o).symm⟩
    · by_cases keys : o < nq * headSize + nk * headSize
      · exact ⟨.k, o - nq * headSize, by simp only [QKVParallelLinear.shardAt]; omega,
          by simp only [QKVParallelLinear.shardAt]; omega⟩
      · exact ⟨.v, o - (nq * headSize + nk * headSize),
          by simp only [QKVParallelLinear.shardAt]; omega,
          by simp only [QKVParallelLinear.shardAt]; omega⟩
  have out := @LinearBase.linear_eq R ⟨hiddenSize, (nq + 2 * nk) * headSize, hasBias, rank, tpSize⟩
    _ params (fun o j => (params.load (.weight, o, j)).getD 0)
    (fun o => (params.load (.bias, o, 0)).getD 0) hasBias
    (fun o small j column => by
      obtain ⟨s, i, inside, rfl⟩ := shard o small
      rw [(holds s).weight i inside j column]
      rfl)
    (fun biased o small => by
      obtain ⟨s, i, inside, rfl⟩ := shard o small
      rw [(holds s).bias biased i inside]
      rfl) numTokens x
  simp only [qkvPart, QKVParallelLinear.init_eq inside kv, Option.bind_eq_bind, Option.bind_some,
    kv, rows]
  rw [launched, Option.bind_some]
  refine out.trans (congrArg some (List.map_congr_left fun t _ => ?_))
  have entry : ∀ s, ∀ i < (QKVParallelLinear.shardAt ⟨headSize, nq, nk⟩ s).2,
      (((List.range hiddenSize).map fun j => x t j * (params.load (.weight,
        (QKVParallelLinear.shardAt ⟨headSize, nq, nk⟩ s).1 + i, j)).getD 0).sum +
          if hasBias = true then (params.load (.bias,
            (QKVParallelLinear.shardAt ⟨headSize, nq, nk⟩ s).1 + i, 0)).getD 0 else 0) =
      (full s).apply hasBias hiddenSize (x t)
        (rank * (QKVParallelLinear.shardAt ⟨headSize, nq, nk⟩ s).2 + i) := by
    intro s i inside
    rw [Projection.apply]
    refine congrArg₂ (· + ·) (congrArg List.sum (List.map_congr_left fun j column => ?_)) ?_
    · rw [(holds s).weight i inside j (List.mem_range.mp column), Option.getD_some]
    · split
      · rename_i biased
        rw [(holds s).bias biased i inside, Option.getD_some]
      · rfl
  dsimp only
  rw [whole, List.range_add, List.range_add, List.map_append, List.map_append, List.map_map,
    List.map_map, headsRow, flatten_headsOf, flatten_headsOf, flatten_headsOf]
  refine congrArg₂ (· ++ ·) (congrArg₂ (· ++ ·) (List.map_congr_left fun i among => ?_)
    (List.map_congr_left fun i among => ?_)) (List.map_congr_left fun i among => ?_)
  · have first := entry .q i (List.mem_range.mp among)
    simp only [QKVParallelLinear.shardAt, Nat.zero_add] at first
    exact first
  · exact entry .k i (List.mem_range.mp among)
  · exact entry .v i (List.mem_range.mp among)

/-- `Qwen3Attention.project` finds the rank's heads in its row. -/
theorem split_headsRow (full : QkvShard → Projection R) (x : Nat → R) :
    QkvHeads.split ⟨headSize, nq, nk⟩ (headsRow full hasBias hiddenSize headSize nq nk x rank) =
      (headsOf (full .q) hasBias hiddenSize headSize x (rank * nq) nq,
        headsOf (full .k) hasBias hiddenSize headSize x (rank * nk) nk,
        headsOf (full .v) hasBias hiddenSize headSize x (rank * nk) nk) := by
  have view : ∀ (projection : Projection R) (count : Nat), ((List.range count).map fun h =>
      (((headsOf projection hasBias hiddenSize headSize x (rank * count) count).flatten).drop
        (h * headSize)).take headSize) =
      headsOf projection hasBias hiddenSize headSize x (rank * count) count := by
    intro projection count
    refine List.map_congr_left fun h among => ?_
    rw [flatten_headsOf, take_drop_map_range _ (List.mem_range.mp among)]
    refine List.map_congr_left fun d _ => congrArg _ ?_
    ring
  have length : ∀ (projection : Projection R) (count : Nat),
      ((headsOf projection hasBias hiddenSize headSize x (rank * count) count).flatten).length =
        count * headSize := by
    intro projection count
    rw [flatten_headsOf, List.length_map, List.length_range]
  have queries := length (full .q) nq
  have keys := length (full .k) nk
  have values := length (full .v) nk
  simp only [QkvHeads.split, headsRow, List.append_assoc]
  rw [List.take_left' queries, List.drop_left' queries, List.take_left' keys, ← List.drop_drop,
    List.drop_left' queries, List.drop_left' keys, List.take_of_length_le values.le, view, view,
    view]

end Output

/-! ## Placement -/

/-- Each head is in one rank's run. -/
theorem existsUnique_rank {heads tpSize n h : Nat} (split : heads = tpSize * n)
    (inside : h < heads) : ∃! rank, rank < tpSize ∧ rank * n ≤ h ∧ h < rank * n + n := by
  have some : 0 < n := Nat.pos_of_ne_zero fun zero => by
    rw [split, zero, Nat.mul_zero] at inside
    exact Nat.not_lt_zero h inside
  have place := Nat.div_add_mod' h n
  have small := Nat.mod_lt h some
  refine ⟨h / n, ⟨?_, by omega, by omega⟩, ?_⟩
  · rw [split] at inside
    exact (Nat.div_lt_iff_lt_mul some).mpr inside
  · rintro rank ⟨_, lower, upper⟩
    exact ((Nat.div_eq_iff some).mpr ⟨lower, by omega⟩).symm

/-- The group of a rank's query head uses the rank's own key and value head. -/
theorem group_on_rank {heads kvHeads tpSize nq nk rank h : Nat} (positive : 0 < tpSize)
    (split : heads = tpSize * nq) (kvSplit : kvHeads = tpSize * nk) (groups : kvHeads ∣ heads)
    (inside : h < nq) :
    (rank * nq + h) / (heads / kvHeads) = rank * nk + h / (nq / nk) ∧ h / (nq / nk) < nk := by
  obtain ⟨g, shared⟩ := groups
  have own : nq = nk * g := by
    apply Nat.eq_of_mul_eq_mul_left positive
    rw [← split, shared, kvSplit, Nat.mul_assoc]
  have some : 0 < nk * g := by omega
  have size : 0 < g := Nat.pos_of_mul_pos_left some
  have keys : 0 < nk := Nat.pos_of_mul_pos_right some
  have width : heads / kvHeads = g := by
    rw [shared, Nat.mul_div_cancel_left g (by rw [kvSplit]; exact Nat.mul_pos positive keys)]
  have ownWidth : nq / nk = g := by rw [own, Nat.mul_div_cancel_left g keys]
  rw [width, ownWidth]
  constructor
  · rw [own, ← Nat.mul_assoc, Nat.mul_comm _ g, Nat.mul_add_div size]
  · exact (Nat.div_lt_iff_lt_mul size).mpr (by rw [← own]; exact inside)

end Heads

end LeanVllm
