import LeanVllm.Layers.ExpertParallel
import LeanVllm.Utils.Loader
import Mathlib.Data.Nat.ModEq

/-!
# Where shards go

Each shard id a loader takes fills one block of its parameter, or is another rank's expert
and fills none.  The blocks of a parameter tile it.
-/

namespace LeanVllm

open Collections Kernels FusedMoe

/-- Some rows of one matrix of a parameter. -/
structure RowBlock where
  matrix : Nat
  row : Nat
  rows : Nat
  columns : Nat

def RowBlock.Mem (block : RowBlock) (i : Place) : Prop :=
  i.1 = block.matrix ∧ block.row ≤ i.2.1 ∧ i.2.1 < block.row + block.rows ∧ i.2.2 < block.columns

/-- The stores of a whole block. -/
def RowBlock.stores {R : Type} (block : RowBlock) (value : Nat → Nat → R) : List (Place × R) :=
  (List.range block.rows).flatMap fun r => (List.range block.columns).map fun c =>
    ((block.matrix, block.row + r, c), value r c)

namespace WeightLoader

/-- The rows of a projection in the parameter it is stacked in, by its local number. -/
def stackedBlock (layer : Layer) (id : Nat) : Proj → RowBlock
  | .gateProj => ⟨id, 0, layer.intermediateSize, layer.hiddenSize⟩
  | .upProj => ⟨id, layer.intermediateSize, layer.intermediateSize, layer.hiddenSize⟩
  | .downProj => ⟨id, 0, layer.hiddenSize, layer.intermediateSize⟩

/-- Where a shard id's elements go on this rank. -/
def block : WeightLoader → Option ShardId → Option RowBlock
  | .default rows columns, none => some ⟨0, 0, rows, columns⟩
  | .replicated layer name, none | .columnParallel layer name, none
  | .rowParallel layer name, none => some ⟨0, 0, layer.outputSize, layer.columns name⟩
  | .mergedReplicated outputSizes layer name, some (.index id) =>
      outputSizes[id]?.map fun size => ⟨0, (outputSizes.take id).sum, size, layer.columns name⟩
  | .mergedColumnParallel outputSizes layer name, some (.index id) =>
      outputSizes[id]?.map fun size => ⟨0, (outputSizes.take id).sum / layer.tpSize,
        size / layer.tpSize, layer.columns name⟩
  | .qkvParallel heads layer name, some (.qkv id) =>
      some ⟨0, (QKVParallelLinear.shardAt heads id).1, (QKVParallelLinear.shardAt heads id).2,
        layer.columns name⟩
  | .vocabParallel embedding, none =>
      some ⟨0, 0, embedding.numEmbeddingsPerPartition, embedding.embeddingDim⟩
  | .stacked layer param, some (.expert expertId proj) =>
      let id := localExpert layer.expertMap expertId
      if stackedParam proj = param ∧ id ≠ -1 ∧ id.toNat < layer.localNumExperts then
        some (stackedBlock layer id.toNat proj)
      else none
  | _, _ => none

theorem block_expert (layer : Layer) (param : StackedParam) (e : Nat) (proj : Proj) :
    (WeightLoader.stacked layer param).block (some (.expert e proj)) =
      if stackedParam proj = param ∧ localExpert layer.expertMap e ≠ -1 ∧
          (localExpert layer.expertMap e).toNat < layer.localNumExperts then
        some (stackedBlock layer (localExpert layer.expertMap e).toNat proj)
      else none :=
  rfl

section Writes

variable {R : Type} {loaded : LoadedWeight R} {stores : List (Place × R)}

end Writes

/-! ## Tiling -/

/-- The blocks of a parameter: disjoint, none empty, and together the whole of it. -/
structure Tiles (loader : WeightLoader) : Prop where
  whole : ∀ i, loader.inside i = true ↔ ∃ shard block, loader.block shard = some block ∧ block.Mem i
  apart : ∀ s t block other i, loader.block s = some block → loader.block t = some other →
    block.Mem i → other.Mem i → s = t
  nonempty : ∀ s block, loader.block s = some block → ∃ i, block.Mem i

/-- A loader that takes one tensor for the whole parameter. -/
theorem Tiles.of_whole {loader : WeightLoader} {rows columns : Nat}
    (block : ∀ s, loader.block s = if s = none then some ⟨0, 0, rows, columns⟩ else none)
    (inside : ∀ i, loader.inside i = true ↔ i.1 = 0 ∧ i.2.1 < rows ∧ i.2.2 < columns)
    (someRow : 0 < rows) (someColumn : 0 < columns) : loader.Tiles := by
  have taken : ∀ s b, loader.block s = some b → s = none ∧ b = ⟨0, 0, rows, columns⟩ := by
    intro s b found
    rw [block] at found
    split at found
    · rename_i whole
      exact ⟨whole, (Option.some.inj found).symm⟩
    · exact nomatch found
  constructor
  · intro i
    rw [inside]
    constructor
    · rintro ⟨matrix, row, column⟩
      refine ⟨none, ⟨0, 0, rows, columns⟩, by rw [block, if_pos rfl], matrix, Nat.zero_le _, ?_,
        column⟩
      rw [Nat.zero_add]
      exact row
    · rintro ⟨s, b, found, mem⟩
      obtain ⟨rfl, rfl⟩ := taken s b found
      obtain ⟨matrix, _, row, column⟩ := mem
      rw [Nat.zero_add] at row
      exact ⟨matrix, row, column⟩
  · intro s t b other i first second _ _
    rw [(taken s b first).1, (taken t other second).1]
  · intro s b found
    obtain ⟨rfl, rfl⟩ := taken s b found
    exact ⟨(0, 0, 0), rfl, Nat.zero_le _, by simpa using someRow, someColumn⟩

/-- A loader whose shards' rows follow one another. -/
theorem Tiles.of_rows {loader : WeightLoader} {sizes : List Nat} {columns : Nat}
    (block : ∀ k, loader.block (some (.index k)) =
      sizes[k]?.map fun size => ⟨0, (sizes.take k).sum, size, columns⟩)
    (others : ∀ s, (∀ k, s ≠ some (.index k)) → loader.block s = none)
    (inside : ∀ i, loader.inside i = true ↔ i.1 = 0 ∧ i.2.1 < sizes.sum ∧ i.2.2 < columns)
    (someRow : ∀ size ∈ sizes, 0 < size) (someColumn : 0 < columns) : loader.Tiles := by
  have taken : ∀ s b, loader.block s = some b → ∃ k size, s = some (.index k) ∧
      sizes[k]? = some size ∧ b = ⟨0, (sizes.take k).sum, size, columns⟩ := by
    intro s b found
    by_cases index : ∃ k, s = some (.index k)
    · obtain ⟨k, rfl⟩ := index
      rw [block] at found
      obtain ⟨size, own, rfl⟩ := Option.map_eq_some_iff.mp found
      exact ⟨k, size, rfl, own, rfl⟩
    · rw [others s (not_exists.mp index)] at found
      exact nomatch found
  constructor
  · intro i
    rw [inside]
    constructor
    · rintro ⟨matrix, row, column⟩
      obtain ⟨k, size, own, lower, upper⟩ := exists_row row
      exact ⟨some (.index k), _, by rw [block, own, Option.map_some], matrix, lower, upper, column⟩
    · rintro ⟨s, b, found, matrix, _, upper, column⟩
      obtain ⟨k, size, rfl, own, rfl⟩ := taken s b found
      exact ⟨matrix, Nat.lt_of_lt_of_le upper (row_end_le own), column⟩
  · rintro s t b other i first second ⟨_, lower, upper, _⟩ ⟨_, lower', upper', _⟩
    obtain ⟨k, size, rfl, own, rfl⟩ := taken s b first
    obtain ⟨l, size', rfl, also, rfl⟩ := taken t other second
    rw [row_unique own also lower upper lower' upper']
  · intro s b found
    obtain ⟨k, size, rfl, own, rfl⟩ := taken s b found
    exact ⟨(0, (sizes.take k).sum, 0), rfl, Nat.le_refl _,
      Nat.lt_add_of_pos_right (someRow size (List.mem_of_getElem? own)), someColumn⟩

end WeightLoader

/-- What holds of a parameter of a linear layer. -/
structure LinearBase.Built (layer : LinearBase) (name : ParamName) : Prop where
  input : 0 < layer.inputSize
  output : 0 < layer.outputSize
  biased : name = .bias → layer.hasBias = true

theorem LinearBase.Built.columns_pos {layer : LinearBase} {name : ParamName}
    (built : layer.Built name) : 0 < layer.columns name := by
  cases name with
  | weight => exact built.input
  | bias => exact Nat.one_pos

theorem LinearBase.Built.inside_iff {layer : LinearBase} {name : ParamName}
    (built : layer.Built name) (i : Nat × Nat) :
    layer.inside (name, i) = true ↔ i.1 < layer.outputSize ∧ i.2 < layer.columns name := by
  rw [LinearBase.inside, decide_eq_true_iff]
  exact and_iff_right built.biased

namespace WeightLoader

/-- Parameters as the layers make them, none of them empty for want of a size. -/
def Built : WeightLoader → Prop
  | .default rows columns => 0 < rows ∧ 0 < columns
  | .replicated layer name | .columnParallel layer name | .rowParallel layer name =>
      layer.Built name
  | .mergedReplicated outputSizes layer name =>
      layer.Built name ∧ layer.outputSize = outputSizes.sum ∧ ∀ size ∈ outputSizes, 0 < size
  | .mergedColumnParallel outputSizes layer name =>
      layer.Built name ∧ layer.outputSize = outputSizes.sum / layer.tpSize ∧
        ∀ size ∈ outputSizes, 0 < size ∧ layer.tpSize ∣ size
  | .qkvParallel heads layer name =>
      layer.Built name ∧
        layer.outputSize = (heads.numHeads + 2 * heads.numKvHeads) * heads.headSize ∧
        0 < heads.numHeads ∧ 0 < heads.numKvHeads ∧ 0 < heads.headSize
  | .vocabParallel embedding =>
      0 < embedding.numEmbeddingsPerPartition ∧ 0 < embedding.embeddingDim
  | .stacked layer _ => 0 < layer.hiddenSize ∧ 0 < layer.intermediateSize ∧
      ∃ epSize epRank numExperts, epRank < epSize ∧
        (layer.localNumExperts, layer.expertMap) = determineExpertMap epSize epRank numExperts

theorem sum_div {sizes : List Nat} {n : Nat} (divides : ∀ size ∈ sizes, n ∣ size) :
    sizes.sum / n = (sizes.map (· / n)).sum := by
  induction sizes with
  | nil => exact Nat.zero_div n
  | cons size sizes ih =>
      rw [List.sum_cons, List.map_cons, List.sum_cons,
        Nat.add_div_of_dvd_right (divides size List.mem_cons_self),
        ih fun other among => divides other (List.mem_cons_of_mem _ among)]

theorem tiles_mergedColumnParallel {outputSizes : List Nat} {layer : LinearBase} {name : ParamName}
    (built : (WeightLoader.mergedColumnParallel outputSizes layer name).Built) :
    (WeightLoader.mergedColumnParallel outputSizes layer name).Tiles := by
  obtain ⟨linear, output, sizes⟩ := built
  have divides : ∀ size ∈ outputSizes, layer.tpSize ∣ size := fun size among => (sizes size among).2
  refine @Tiles.of_rows _ (outputSizes.map (· / layer.tpSize)) (layer.columns name) ?_ ?_ ?_ ?_
    linear.columns_pos
  · intro k
    rw [block, List.getElem?_map, Option.map_map, ← List.map_take,
      ← sum_div fun size among => divides size (List.mem_of_mem_take among)]
    rfl
  · intro s other
    rcases s with _ | ⟨k⟩ | _ | _
    · rfl
    · exact absurd rfl (other k)
    · rfl
    · rfl
  · intro i
    rw [inside, decide_eq_true_iff, linear.inside_iff, output, sum_div divides]
  · intro size among
    obtain ⟨full, own, rfl⟩ := List.mem_map.mp among
    obtain ⟨positive, divides⟩ := sizes full own
    exact Nat.div_pos (Nat.le_of_dvd positive divides) (Nat.pos_of_dvd_of_pos divides positive)

theorem tiles_mergedReplicated {outputSizes : List Nat} {layer : LinearBase} {name : ParamName}
    (built : (WeightLoader.mergedReplicated outputSizes layer name).Built) :
    (WeightLoader.mergedReplicated outputSizes layer name).Tiles := by
  obtain ⟨linear, output, sizes⟩ := built
  refine @Tiles.of_rows _ outputSizes (layer.columns name) (fun k => rfl) ?_ ?_ sizes
    linear.columns_pos
  · intro s other
    rcases s with _ | ⟨k⟩ | _ | _
    · rfl
    · exact absurd rfl (other k)
    · rfl
    · rfl
  · intro i
    rw [inside, decide_eq_true_iff, linear.inside_iff, output]

theorem tiles_qkvParallel {heads : QkvHeads} {layer : LinearBase} {name : ParamName}
    (built : (WeightLoader.qkvParallel heads layer name).Built) :
    (WeightLoader.qkvParallel heads layer name).Tiles := by
  obtain ⟨linear, output, queries, keys, width⟩ := built
  have taken : ∀ s b, (WeightLoader.qkvParallel heads layer name).block s = some b →
      ∃ id, s = some (.qkv id) ∧ b = ⟨0, (QKVParallelLinear.shardAt heads id).1,
        (QKVParallelLinear.shardAt heads id).2, layer.columns name⟩ := by
    intro s b found
    rcases s with _ | _ | id | _
    · exact nomatch found
    · exact nomatch found
    · exact ⟨id, rfl, (Option.some.inj found).symm⟩
    · exact nomatch found
  have qSize := Nat.mul_pos queries width
  have kvSize := Nat.mul_pos keys width
  have split : (heads.numHeads + 2 * heads.numKvHeads) * heads.headSize =
      heads.numHeads * heads.headSize + heads.numKvHeads * heads.headSize +
        heads.numKvHeads * heads.headSize := by
    ring
  rw [split] at output
  constructor
  · intro i
    rw [inside, decide_eq_true_iff, linear.inside_iff, output]
    constructor
    · rintro ⟨matrix, row, column⟩
      by_cases first : i.2.1 < heads.numHeads * heads.headSize
      · refine ⟨some (.qkv .q), _, rfl, matrix, Nat.zero_le _, ?_, column⟩
        simpa only [QKVParallelLinear.shardAt, Nat.zero_add] using first
      · by_cases second :
            i.2.1 < heads.numHeads * heads.headSize + heads.numKvHeads * heads.headSize
        · exact ⟨some (.qkv .k), _, rfl, matrix, Nat.le_of_not_lt first, second, column⟩
        · exact ⟨some (.qkv .v), _, rfl, matrix, Nat.le_of_not_lt second, row, column⟩
    · rintro ⟨s, b, found, matrix, _, upper, column⟩
      obtain ⟨id, rfl, rfl⟩ := taken s b found
      refine ⟨matrix, ?_, column⟩
      cases id <;> simp only [QKVParallelLinear.shardAt] at upper <;> omega
  · rintro s t b other i first second ⟨_, lower, upper, _⟩ ⟨_, lower', upper', _⟩
    obtain ⟨id, rfl, rfl⟩ := taken s b first
    obtain ⟨id', rfl, rfl⟩ := taken t other second
    cases id <;> cases id' <;> simp only [QKVParallelLinear.shardAt] at * <;> omega
  · intro s b found
    obtain ⟨id, rfl, rfl⟩ := taken s b found
    refine ⟨(0, (QKVParallelLinear.shardAt heads id).1, 0), rfl, Nat.le_refl _, ?_,
      linear.columns_pos⟩
    cases id <;> simp only [QKVParallelLinear.shardAt] <;> omega

theorem block_stacked {layer : Layer} {param : StackedParam} {s : Option ShardId} {b : RowBlock}
    (numbers : ∀ e, localExpert layer.expertMap e ≠ -1 → 0 ≤ localExpert layer.expertMap e) :
    (WeightLoader.stacked layer param).block s = some b ↔
      ∃ e proj, ∃ id < layer.localNumExperts, s = some (.expert e proj) ∧
        stackedParam proj = param ∧ localExpert layer.expertMap e = (id : Nat) ∧
        b = stackedBlock layer id proj := by
  constructor
  · intro found
    rcases s with _ | _ | _ | ⟨e, proj⟩
    · exact nomatch found
    · exact nomatch found
    · exact nomatch found
    · rw [block_expert] at found
      split at found
      case isTrue mine =>
        obtain ⟨stacked, own, held⟩ := mine
        exact ⟨e, proj, _, held, rfl, stacked, (Int.toNat_of_nonneg (numbers e own)).symm,
          (Option.some.inj found).symm⟩
      case isFalse => exact nomatch found
  · rintro ⟨e, proj, id, held, rfl, stacked, own, rfl⟩
    have mine : stackedParam proj = param ∧ localExpert layer.expertMap e ≠ -1 ∧
        (localExpert layer.expertMap e).toNat < layer.localNumExperts := by
      rw [own]
      exact ⟨stacked, by omega, held⟩
    rw [block_expert, if_pos mine, own]
    rfl

theorem tiles_stacked {layer : Layer} {param : StackedParam}
    (built : (WeightLoader.stacked layer param).Built) :
    (WeightLoader.stacked layer param).Tiles := by
  obtain ⟨hidden, intermediate, epSize, epRank, numExperts, rank, placed⟩ := built
  obtain ⟨count, map⟩ := Prod.mk.inj placed
  have numbers : ∀ e, localExpert layer.expertMap e ≠ -1 → 0 ≤ localExpert layer.expertMap e := by
    rw [map]
    exact fun e own => localExpert_nonneg rank own
  have expert : ∀ e, ∀ id < layer.localNumExperts, localExpert layer.expertMap e = (id : Nat) ↔
      e = firstExpert epSize numExperts epRank + id := by
    intro e id held
    rw [map]
    exact localExpert_eq_iff rank (count ▸ held)
  constructor
  · intro i
    constructor
    · intro inside
      have place : ∃ proj, stackedParam proj = param ∧ i.1 < layer.localNumExperts ∧
          (stackedBlock layer i.1 proj).Mem i := by
        cases param with
        | gateUpProj =>
            obtain ⟨held, row, column⟩ : i.1 < layer.localNumExperts ∧
              i.2.1 < 2 * layer.intermediateSize ∧ i.2.2 < layer.hiddenSize :=
                of_decide_eq_true inside
            by_cases gate : i.2.1 < layer.intermediateSize
            · exact ⟨.gateProj, rfl, held, rfl, Nat.zero_le _, by simpa [stackedBlock] using gate,
                column⟩
            · exact ⟨.upProj, rfl, held, rfl, Nat.le_of_not_lt gate,
                by simp only [stackedBlock]; omega, column⟩
        | downProj =>
            obtain ⟨held, row, column⟩ : i.1 < layer.localNumExperts ∧
              i.2.1 < layer.hiddenSize ∧ i.2.2 < layer.intermediateSize := of_decide_eq_true inside
            exact ⟨.downProj, rfl, held, rfl, Nat.zero_le _, by simpa [stackedBlock] using row,
              column⟩
      obtain ⟨proj, stacked, held, mem⟩ := place
      exact ⟨_, _, (block_stacked numbers).mpr ⟨_, proj, i.1, held, rfl, stacked,
        (expert _ i.1 held).mpr rfl, rfl⟩, mem⟩
    · rintro ⟨s, b, found, mem⟩
      obtain ⟨e, proj, id, held, rfl, rfl, own, rfl⟩ := (block_stacked numbers).mp found
      obtain ⟨matrix, lower, upper, column⟩ := mem
      cases proj with
      | gateProj =>
          simp only [stackedBlock] at matrix lower upper column
          have row : i.2.1 < 2 * layer.intermediateSize := by omega
          exact decide_eq_true ⟨matrix ▸ held, row, column⟩
      | upProj =>
          simp only [stackedBlock] at matrix lower upper column
          have row : i.2.1 < 2 * layer.intermediateSize := by omega
          exact decide_eq_true ⟨matrix ▸ held, row, column⟩
      | downProj =>
          simp only [stackedBlock] at matrix lower upper column
          have row : i.2.1 < layer.hiddenSize := by omega
          exact decide_eq_true ⟨matrix ▸ held, row, column⟩
  · intro s t b other i first second mem mem'
    obtain ⟨e, proj, id, held, rfl, stacked, own, rfl⟩ := (block_stacked numbers).mp first
    obtain ⟨e', proj', id', held', rfl, stacked', own', rfl⟩ := (block_stacked numbers).mp second
    have matrices : id = id' := by
      have one := mem.1
      have two := mem'.1
      cases proj <;> cases proj' <;> exact one.symm.trans two
    subst matrices
    have experts : e = e' := ((expert e id held).mp own).trans ((expert e' id held').mp own').symm
    subst experts
    have projs : proj = proj' := by
      obtain ⟨_, lower, upper, _⟩ := mem
      obtain ⟨_, lower', upper', _⟩ := mem'
      rw [← stacked'] at stacked
      cases proj <;> cases proj' <;> simp only [stackedBlock, stackedParam, reduceCtorEq] at * <;>
        omega
    rw [projs]
  · intro s b found
    obtain ⟨e, proj, id, held, rfl, stacked, own, rfl⟩ := (block_stacked numbers).mp found
    cases proj with
    | gateProj => exact ⟨(id, 0, 0), rfl, Nat.le_refl _, by simpa [stackedBlock], hidden⟩
    | upProj =>
        exact ⟨(id, layer.intermediateSize, 0), rfl, Nat.le_refl _,
          Nat.lt_add_of_pos_right intermediate, hidden⟩
    | downProj => exact ⟨(id, 0, 0), rfl, Nat.le_refl _, by simpa [stackedBlock], intermediate⟩

theorem Built.tiles {loader : WeightLoader} (built : loader.Built) : loader.Tiles := by
  cases loader with
  | default rows columns =>
      refine @Tiles.of_whole _ rows columns (fun s => ?_) (fun i => ?_) built.1 built.2
      · cases s <;> rfl
      · exact decide_eq_true_iff
  | replicated layer name =>
      refine @Tiles.of_whole _ layer.outputSize (layer.columns name) (fun s => ?_) (fun i => ?_)
        (LinearBase.Built.output built) (LinearBase.Built.columns_pos built)
      · cases s <;> rfl
      · rw [inside, decide_eq_true_iff, LinearBase.Built.inside_iff built]
  | mergedReplicated outputSizes layer name => exact tiles_mergedReplicated built
  | columnParallel layer name =>
      refine @Tiles.of_whole _ layer.outputSize (layer.columns name) (fun s => ?_) (fun i => ?_)
        (LinearBase.Built.output built) (LinearBase.Built.columns_pos built)
      · cases s <;> rfl
      · rw [inside, decide_eq_true_iff, LinearBase.Built.inside_iff built]
  | mergedColumnParallel outputSizes layer name => exact tiles_mergedColumnParallel built
  | qkvParallel heads layer name => exact tiles_qkvParallel built
  | rowParallel layer name =>
      refine @Tiles.of_whole _ layer.outputSize (layer.columns name) (fun s => ?_) (fun i => ?_)
        (LinearBase.Built.output built) (LinearBase.Built.columns_pos built)
      · cases s <;> rfl
      · rw [inside, decide_eq_true_iff, LinearBase.Built.inside_iff built]
  | vocabParallel embedding =>
      refine @Tiles.of_whole _ embedding.numEmbeddingsPerPartition embedding.embeddingDim
        (fun s => ?_) (fun i => ?_) built.1 built.2
      · cases s <;> rfl
      · exact decide_eq_true_iff
  | stacked layer param => exact tiles_stacked built

end WeightLoader

end LeanVllm
