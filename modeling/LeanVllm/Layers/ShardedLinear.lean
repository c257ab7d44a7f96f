import LeanVllm.Layers.ExpertParallel
import LeanVllm.Models.Qwen3

/-!
# Shards of linear layers

Each rank's parameters hold its pieces of the full weights, in whatever order they are
loaded.  The ranks' partial gated MLPs add up to the unsharded one.
-/

namespace LeanVllm

open Collections Kernels FusedMoe

variable {R : Type}

/-! ## Pieces -/

/-- A dimension that divides splits into equal pieces. -/
theorem LoadedWeight.piece_mul {chunks index : Nat} (inside : index < chunks) (m : Nat) :
    piece (chunks * m) chunks index = some (index * m, m) := by
  have positive := Nat.zero_lt_of_lt inside
  have step : Kernels.cdiv (chunks * m) chunks = m := by
    rw [Kernels.cdiv, Nat.add_sub_assoc positive, Nat.mul_add_div positive,
      Nat.div_eq_of_lt (Nat.sub_lt positive Nat.one_pos), Nat.add_zero]
  have last : m ≤ chunks * m - index * m := by
    rw [← Nat.sub_mul]
    exact Nat.le_mul_of_pos_left m (by omega)
  have pieces : index < if chunks * m = 0 then chunks else Kernels.cdiv (chunks * m) m := by
    split
    · exact inside
    · rename_i some
      have width : 0 < m := Nat.pos_of_ne_zero fun zero => some (by rw [zero, Nat.mul_zero])
      exact (lt_cdiv_iff width).mpr (Nat.mul_lt_mul_of_pos_right inside width)
  rw [piece, step, if_pos pieces, Nat.min_eq_left last]

theorem LoadedWeight.chunkRows_eq {chunks index m columns : Nat} (inside : index < chunks)
    (value : Nat → Nat → R) :
    (LoadedWeight.mk (chunks * m) columns value).chunkRows chunks index =
      some ⟨m, columns, fun r c => value (index * m + r) c⟩ := by
  have fits : index * m + m ≤ chunks * m := by
    rw [← Nat.succ_mul]
    exact Nat.mul_le_mul_right m inside
  simp only [chunkRows, piece_mul inside]
  exact if_pos fits

theorem LoadedWeight.chunkColumns_eq {chunks index m rows : Nat} (inside : index < chunks)
    (value : Nat → Nat → R) :
    (LoadedWeight.mk rows (chunks * m) value).chunkColumns chunks index =
      some ⟨rows, m, fun r c => value r (index * m + c)⟩ := by
  have fits : index * m + m ≤ chunks * m := by
    rw [← Nat.succ_mul]
    exact Nat.mul_le_mul_right m inside
  simp only [chunkColumns, piece_mul inside]
  exact if_pos fits

/-! ## Loading -/

namespace LinearBase

variable {layer : LinearBase}

/-- The stores of a piece at some rows of a parameter. -/
def rowStores (layer : LinearBase) (name : ParamName) (offset rows : Nat)
    (value : Nat → Nat → R) : Stores R :=
  (List.range rows).flatMap fun r => (List.range (layer.columns name)).map fun c =>
    ((name, offset + r, c), value r c)

theorem copyRows_eq (name : ParamName) (offset rows : Nat) (value : Nat → Nat → R) :
    layer.copyRows name offset rows ⟨rows, layer.columns name, value⟩ =
      some (layer.rowStores name offset rows value) := by
  rw [copyRows, LoadedWeight.copies, if_pos ⟨rfl, rfl⟩, Option.map_some, List.map_flatMap, rowStores]
  simp only [List.map_map]
  rfl

theorem mem_rowStores {name : ParamName} {offset rows : Nat} {value : Nat → Nat → R}
    {i : ParamName × Nat × Nat} {stored : R} :
    (i, stored) ∈ layer.rowStores name offset rows value ↔
      ∃ r < rows, ∃ c < layer.columns name, i = (name, offset + r, c) ∧ stored = value r c := by
  simp only [rowStores, List.mem_flatMap, List.mem_map, List.mem_range, Prod.mk.injEq]
  constructor
  · rintro ⟨r, inside, c, small, rfl, rfl⟩
    exact ⟨r, inside, c, small, rfl, rfl⟩
  · rintro ⟨r, inside, c, small, rfl, rfl⟩
    exact ⟨r, inside, c, small, rfl, rfl⟩

/-- Pieces that go to rows of their own all stay, in whatever order they are loaded. -/
theorem load_pieces {π : Type} {name : π → ParamName} {offset rows : π → Nat}
    {value : π → Nat → Nat → R} {loads : List π} {program : π → Option (Stores R)}
    (ran : ∀ p ∈ loads, program p = some
      (layer.rowStores (name p) (offset p) (rows p) (value p)))
    (apart : ∀ p ∈ loads, ∀ q ∈ loads, name p = name q → ∀ r < rows p, ∀ r' < rows q,
      offset p + r = offset q + r' → p = q)
    (fits : ∀ p ∈ loads, offset p + rows p ≤ layer.outputSize)
    (biased : ∀ p ∈ loads, name p = .bias → layer.hasBias = true) :
    ∃ params, (Buffer.empty layer.inside).launch loads program = some params ∧
      ∀ p ∈ loads, ∀ r < rows p, ∀ c < layer.columns (name p),
        params.load (name p, offset p + r, c) = some (value p r c) := by
  obtain ⟨params, launched, written⟩ := @Buffer.launch_written _ _ _ _
    (Buffer.empty layer.inside) _ _ _ ran (by
      intro p among entry own
      obtain ⟨r, inside, c, small, place, _⟩ := mem_rowStores.mp own
      have last := Nat.lt_of_lt_of_le (Nat.add_lt_add_left inside _) (fits p among)
      rw [place]
      exact decide_eq_true ⟨biased p among, last, small⟩)
  refine ⟨params, launched, fun p among r inside c small => written.stored ?_ ?_⟩
  · exact ⟨p, among, mem_rowStores.mpr ⟨r, inside, c, small, rfl, rfl⟩⟩
  · rintro stored ⟨q, theirs, own⟩
    obtain ⟨r', inside', c', _, place, rfl⟩ := mem_rowStores.mp own
    obtain ⟨names, rest⟩ := Prod.mk.inj place
    obtain ⟨row, rfl⟩ := Prod.mk.inj rest
    obtain rfl := apart p among q theirs names r inside r' inside' row
    rw [Nat.add_left_cancel row]

variable [CommSemiring R]

/-- A forward pass over parameters that are all loaded. -/
theorem linear_eq {params : Buffer (ParamName × Nat × Nat) R} {weight : Nat → Nat → R}
    {bias : Nat → R} {withBias : Bool}
    (weights : ∀ o < layer.outputSize, ∀ j < layer.inputSize,
      params.load (.weight, o, j) = some (weight o j))
    (biases : withBias = true → ∀ o < layer.outputSize, params.load (.bias, o, 0) = some (bias o))
    (numTokens : Nat) (x : Nat → Nat → R) :
    layer.linear params withBias (tabulate numTokens layer.inputSize x) =
      some (tabulate numTokens layer.outputSize fun t o =>
        ((List.range layer.inputSize).map fun j => x t j * weight o j).sum +
          if withBias then bias o else 0) := by
  have row : ∀ t, ((List.range layer.outputSize).mapM fun o => do
      let weights ← (List.range layer.inputSize).mapM fun j => params.load (.weight, o, j)
      let bias ← biasAt params withBias o
      some (((List.range layer.inputSize).map fun j =>
        ((List.range layer.inputSize).map (x t)).getD j 0 * weights.getD j 0).sum + bias)) =
      some ((List.range layer.outputSize).map fun o =>
        ((List.range layer.inputSize).map fun j => x t j * weight o j).sum +
          if withBias then bias o else 0) := by
    intro t
    refine mapM_eq_some fun o among => ?_
    have inside := List.mem_range.mp among
    have added : biasAt params withBias o = some (if withBias = true then bias o else 0) := by
      rw [biasAt]
      split
      · rename_i on
        exact biases on o inside
      · rfl
    rw [mapM_eq_some fun j column => weights o inside j (List.mem_range.mp column), added]
    refine congrArg some (congrArg (· + _) (congrArg List.sum ?_))
    refine List.map_congr_left fun j column => ?_
    rw [List.mem_range] at column
    rw [getD_map_range _ _ column, getD_map_range _ _ column]
  rw [linear, tabulate, List.mapM_map]
  refine mapM_eq_some fun t _ => ?_
  rw [Function.comp_apply, if_pos (by rw [List.length_map, List.length_range])]
  exact row t

end LinearBase

/-! ## The gated MLP -/

/-- A projection's full weight and bias. -/
structure Projection (R : Type) where
  weight : Nat → Nat → R
  bias : Nat → R

namespace Projection

/-- Its tensors in the checkpoint. -/
def tensor (projection : Projection R) (rows columns : Nat) : ParamName → LoadedWeight R
  | .weight => ⟨rows, columns, projection.weight⟩
  | .bias => ⟨rows, 1, fun r _ => projection.bias r⟩

/-- The value of one output. -/
def apply [CommSemiring R] (projection : Projection R) (biased : Bool) (inputSize : Nat)
    (x : Nat → R) (o : Nat) : R :=
  ((List.range inputSize).map fun j => x j * projection.weight o j).sum +
    if biased then projection.bias o else 0

end Projection

/-- What loading a rank's pieces of some projections leaves. -/
structure LinearBase.Holds {σ : Type} (layer : LinearBase)
    (params : Buffer (ParamName × Nat × Nat) R) (full : σ → Projection R) (offset rows : σ → Nat)
    (s : σ) : Prop where
  weight : ∀ i < rows s, ∀ j < layer.inputSize, params.load (.weight, offset s + i, j) =
    some ((full s).weight (layer.tpRank * rows s + i) j)
  bias : layer.hasBias = true → ∀ i < rows s, params.load (.bias, offset s + i, 0) =
    some ((full s).bias (layer.tpRank * rows s + i))

section Loads

variable {layer : LinearBase} {σ : Type} {full : σ → Projection R} {offset rows : σ → Nat}

/-- A rank's piece of a projection, cut and copied. -/
theorem copyRows_chunk (inside : layer.tpRank < layer.tpSize) (projection : Projection R)
    (name : ParamName) (offset m : Nat) :
    (do
      let loaded ← (projection.tensor (layer.tpSize * m) layer.inputSize name).chunkRows
        layer.tpSize layer.tpRank
      layer.copyRows name offset m loaded) =
      some (layer.rowStores name offset m fun r c =>
        (projection.tensor (layer.tpSize * m) layer.inputSize name).value
          (layer.tpRank * m + r) c) := by
  cases name with
  | weight =>
      rw [Projection.tensor, LoadedWeight.chunkRows_eq inside]
      exact LinearBase.copyRows_eq .weight _ _ _
  | bias =>
      rw [Projection.tensor, LoadedWeight.chunkRows_eq inside]
      exact LinearBase.copyRows_eq .bias _ _ _

/-- Every projection's pieces, loaded in any order, one parameter's among another's. -/
theorem load_projections (inside : layer.tpRank < layer.tpSize) {shards : List σ}
    {loads : List (ParamName × σ)}
    (all : ∀ name s, (name, s) ∈ loads ↔ s ∈ shards ∧ (name = .bias → layer.hasBias = true))
    (apart : ∀ s ∈ shards, ∀ t ∈ shards, ∀ r < rows s, ∀ r' < rows t,
      offset s + r = offset t + r' → s = t)
    (fits : ∀ s ∈ shards, offset s + rows s ≤ layer.outputSize)
    {program : ParamName × σ → Option (Stores R)}
    (ran : ∀ load ∈ loads, program load = (do
      let loaded ← ((full load.2).tensor (layer.tpSize * rows load.2) layer.inputSize
        load.1).chunkRows layer.tpSize layer.tpRank
      layer.copyRows load.1 (offset load.2) (rows load.2) loaded)) :
    ∃ params, (Buffer.empty layer.inside).launch loads program = some params ∧
      ∀ s ∈ shards, layer.Holds params full offset rows s := by
  obtain ⟨params, launched, loaded⟩ := @LinearBase.load_pieces R layer (ParamName × σ) Prod.fst
    (fun load => offset load.2) (fun load => rows load.2)
    (fun load r c => ((full load.2).tensor (layer.tpSize * rows load.2) layer.inputSize
      load.1).value (layer.tpRank * rows load.2 + r) c) loads program
    (fun load among => (ran load among).trans (copyRows_chunk inside _ _ _ _))
    (fun load among other theirs names r small r' small' same => Prod.ext names
      (apart load.2 ((all load.1 load.2).mp among).1 other.2 ((all other.1 other.2).mp theirs).1
        r small r' small' same))
    (fun load among => fits load.2 ((all load.1 load.2).mp among).1)
    (fun load among => ((all load.1 load.2).mp among).2)
  refine ⟨params, launched, fun s shard => ⟨fun i row j column => ?_, fun biased i row => ?_⟩⟩
  · exact loaded (.weight, s) ((all .weight s).mpr ⟨shard, nofun⟩) i row j column
  · exact loaded (.bias, s) ((all .bias s).mpr ⟨shard, fun _ => biased⟩) i row 0 Nat.one_pos

end Loads

section Mlp

variable [CommSemiring R] {sigmoid : R → R} {gate up down : Projection R}
  {gateUpBias downBias : Bool} {hiddenSize m tpSize rank : Nat}

/-- `silu(gate(x)) * up(x)`. -/
def gated (sigmoid : R → R) (gate up : Projection R) (gateUpBias : Bool) (hiddenSize : Nat)
    (x : Nat → R) (i : Nat) : R :=
  gate.apply gateUpBias hiddenSize x i * sigmoid (gate.apply gateUpBias hiddenSize x i) *
    up.apply gateUpBias hiddenSize x i

/-- A rank's pieces of the gate and the up projection. -/
def gateUpShard (gate up : Projection R) (s : Nat) : Projection R :=
  if s = 0 then gate else up

omit [CommSemiring R] in
theorem load_gateUp {layer : LinearBase} (inside : layer.tpRank < layer.tpSize)
    (size : layer.outputSize = 2 * m) (gate up : Projection R) {loads : List (ParamName × Nat)}
    (all : ∀ name s, (name, s) ∈ loads ↔ s < 2 ∧ (name = .bias → layer.hasBias = true)) :
    ∃ params, (Buffer.empty layer.inside).launch loads (fun load =>
        MergedColumnParallelLinear.weightLoader [layer.tpSize * m, layer.tpSize * m] layer load.1
          ((gateUpShard gate up load.2).tensor (layer.tpSize * m) layer.inputSize load.1) load.2) =
        some params ∧
      ∀ s < 2, layer.Holds params (gateUpShard gate up) (· * m) (fun _ => m) s := by
  have positive := Nat.zero_lt_of_lt inside
  obtain ⟨params, launched, holds⟩ := @load_projections R layer Nat (gateUpShard gate up) (· * m)
    (fun _ => m) inside (List.range 2) loads (by simpa [List.mem_range] using all)
    (fun s _ t _ r small r' small' same => (cell_inj small small' same).1)
    (fun s among => by
      rw [size, ← Nat.succ_mul]
      exact Nat.mul_le_mul_right m (List.mem_range.mp among))
    (fun load => MergedColumnParallelLinear.weightLoader [layer.tpSize * m, layer.tpSize * m] layer
      load.1 ((gateUpShard gate up load.2).tensor (layer.tpSize * m) layer.inputSize load.1) load.2)
    (by
      rintro ⟨name, s⟩ among
      obtain ⟨small, _⟩ := (all name s).mp among
      obtain rfl | rfl : s = 0 ∨ s = 1 := by omega
      · simp [MergedColumnParallelLinear.weightLoader, Nat.mul_div_cancel_left m positive]
      · simp [MergedColumnParallelLinear.weightLoader, Nat.mul_div_cancel_left m positive])
  exact ⟨params, launched, fun s small => holds s (List.mem_range.mpr small)⟩

omit [CommSemiring R] in
/-- A rank's columns of the down projection, and its whole bias. -/
theorem load_down {layer : LinearBase} (inside : layer.tpRank < layer.tpSize)
    (down : Projection R) {loads : List ParamName}
    (all : ∀ name, name ∈ loads ↔ (name = .bias → layer.hasBias = true)) :
    ∃ params, (Buffer.empty layer.inside).launch loads (fun name =>
        RowParallelLinear.weightLoader layer name
          (down.tensor layer.outputSize (layer.tpSize * layer.inputSize) name)) = some params ∧
      (∀ o < layer.outputSize, ∀ j < layer.inputSize, params.load (.weight, o, j) =
        some (down.weight o (layer.tpRank * layer.inputSize + j))) ∧
      (layer.hasBias = true → ∀ o < layer.outputSize,
        params.load (.bias, o, 0) = some (down.bias o)) := by
  have fits : layer.tpRank * layer.inputSize + layer.inputSize ≤
      layer.tpSize * layer.inputSize := by
    rw [← Nat.succ_mul]
    exact Nat.mul_le_mul_right _ inside
  obtain ⟨params, launched, loaded⟩ := @LinearBase.load_pieces R layer ParamName id
    (fun _ => 0) (fun _ => layer.outputSize) (fun name r c => match name with
      | .weight => down.weight r (layer.tpRank * layer.inputSize + c)
      | .bias => down.bias r) loads
    (fun name => RowParallelLinear.weightLoader layer name
      (down.tensor layer.outputSize (layer.tpSize * layer.inputSize) name)) (by
      intro name _
      cases name with
      | weight =>
          have cut : (down.tensor layer.outputSize (layer.tpSize * layer.inputSize)
              .weight).narrowColumns (layer.tpRank * layer.inputSize) layer.inputSize = some _ :=
            if_pos fits
          simp only [RowParallelLinear.weightLoader, cut]
          exact LinearBase.copyRows_eq .weight _ _ _
      | bias => exact LinearBase.copyRows_eq .bias _ _ _)
    (fun _ _ _ _ same _ _ _ _ _ => same) (fun _ _ => (Nat.zero_add _).le)
    (fun name among => (all name).mp among)
  refine ⟨params, launched, fun o row j column => ?_, fun biased o row => ?_⟩
  · have held := loaded .weight ((all .weight).mpr nofun) o row j column
    rwa [Nat.zero_add] at held
  · have held := loaded .bias ((all .bias).mpr fun _ => biased) o row 0 Nat.one_pos
    rwa [Nat.zero_add] at held

/-- One rank's part of the gated MLP: its parameters loaded, and a forward pass over them. -/
def mlpPart (sigmoid : R → R) (gate up down : Projection R) (hiddenSize intermediateSize : Nat)
    (gateUpBias downBias : Bool) (loads : List (ParamName × Nat)) (downLoads : List ParamName)
    (x : List (List R)) (tpSize tpRank : Nat) : Option (List (List R)) := do
  let mlp ← Qwen3MLP.init hiddenSize intermediateSize gateUpBias downBias tpRank tpSize
  let gateUpParams ← (Buffer.empty mlp.gateUpProj.inside).launch loads fun load =>
    MergedColumnParallelLinear.weightLoader [intermediateSize, intermediateSize] mlp.gateUpProj
      load.1 ((gateUpShard gate up load.2).tensor intermediateSize hiddenSize load.1) load.2
  let downParams ← (Buffer.empty mlp.downProj.inside).launch downLoads fun name =>
    RowParallelLinear.weightLoader mlp.downProj name
      (down.tensor hiddenSize intermediateSize name)
  mlp.partialForward sigmoid gateUpParams downParams x

omit [CommSemiring R] in
theorem Qwen3MLP.init_eq (inside : rank < tpSize) (hiddenSize m : Nat)
    (gateUpBias downBias : Bool) :
    Qwen3MLP.init hiddenSize (tpSize * m) gateUpBias downBias rank tpSize =
      some ⟨⟨hiddenSize, 2 * m, gateUpBias, rank, tpSize⟩,
        ⟨m, hiddenSize, downBias, rank, tpSize⟩⟩ := by
  have positive := Nat.zero_lt_of_lt inside
  have both : [tpSize * m, tpSize * m].sum = tpSize * (2 * m) := by
    simp only [List.sum_cons, List.sum_nil]
    ring
  simp [Qwen3MLP.init, MergedColumnParallelLinear.init, ColumnParallelLinear.init,
    RowParallelLinear.init, divide, both, Nat.mul_div_cancel_left _ positive]

theorem mlpPart_eq (inside : rank < tpSize) {loads : List (ParamName × Nat)}
    {downLoads : List ParamName}
    (all : ∀ name s, (name, s) ∈ loads ↔ s < 2 ∧ (name = .bias → gateUpBias = true))
    (downAll : ∀ name, name ∈ downLoads ↔ (name = .bias → downBias = true)) (numTokens : Nat)
    (x : Nat → Nat → R) :
    mlpPart sigmoid gate up down hiddenSize (tpSize * m) gateUpBias downBias loads downLoads
        (tabulate numTokens hiddenSize x) tpSize rank =
      some (tabulate numTokens hiddenSize fun t d =>
        ((List.range m).map fun i =>
          gated sigmoid gate up gateUpBias hiddenSize (x t) (rank * m + i) *
            down.weight d (rank * m + i)).sum +
          if downBias && rank = 0 then down.bias d else 0) := by
  obtain ⟨gateUpParams, gateUpLoaded, holds⟩ := @load_gateUp R m
    ⟨hiddenSize, 2 * m, gateUpBias, rank, tpSize⟩ inside rfl gate up loads all
  obtain ⟨downParams, downLoaded, weights, biases⟩ := @load_down R
    ⟨m, hiddenSize, downBias, rank, tpSize⟩ inside down downLoads downAll
  rw [mlpPart, Qwen3MLP.init_eq inside]
  simp only [Option.bind_eq_bind, Option.bind_some] at gateUpLoaded downLoaded ⊢
  rw [gateUpLoaded, downLoaded]
  have row : ∀ o < 2 * m, o / m < 2 ∧ o % m < m ∧ o / m * m + o % m = o := by
    intro o small
    have width : 0 < m := by omega
    exact ⟨(Nat.div_lt_iff_lt_mul width).mpr small, Nat.mod_lt o width, Nat.div_add_mod' o m⟩
  have hidden := @LinearBase.linear_eq R ⟨hiddenSize, 2 * m, gateUpBias, rank, tpSize⟩ _
    gateUpParams (fun o => (gateUpShard gate up (o / m)).weight (rank * m + o % m))
    (fun o => (gateUpShard gate up (o / m)).bias (rank * m + o % m)) gateUpBias
    (fun o small j column => by
      obtain ⟨shard, inside, place⟩ := row o small
      have held := (holds _ shard).weight _ inside j column
      rwa [place] at held)
    (fun biased o small => by
      obtain ⟨shard, inside, place⟩ := row o small
      have held := (holds _ shard).bias biased _ inside
      rwa [place] at held) numTokens x
  have act : (tabulate numTokens (2 * m) fun t o => ((List.range hiddenSize).map fun j =>
      x t j * (gateUpShard gate up (o / m)).weight (rank * m + o % m) j).sum +
        if gateUpBias = true then (gateUpShard gate up (o / m)).bias (rank * m + o % m) else 0).map
        (siluAndMulRow sigmoid (2 * m / 2)) =
      tabulate numTokens m fun t i =>
        gated sigmoid gate up gateUpBias hiddenSize (x t) (rank * m + i) := by
    rw [Nat.mul_div_cancel_left m Nat.two_pos, tabulate, tabulate, List.map_map]
    refine List.map_congr_left fun t _ => List.map_congr_left fun i among => ?_
    rw [List.mem_range] at among
    have width : 0 < m := Nat.zero_lt_of_lt among
    rw [getD_map_range _ _ (by omega), getD_map_range _ _ (by omega), Nat.div_eq_of_lt among,
      Nat.mod_eq_of_lt among, Nat.add_div_left _ width, Nat.add_mod_left, Nat.mod_eq_of_lt among,
      Nat.div_eq_of_lt among]
    rfl
  have out := @LinearBase.linear_eq R ⟨m, hiddenSize, downBias, rank, tpSize⟩ _ downParams
    (fun d i => down.weight d (rank * m + i)) down.bias (downBias && decide (rank = 0)) weights
    (fun added => biases (Bool.and_eq_true_iff.mp added).1) numTokens
    (fun t i => gated sigmoid gate up gateUpBias hiddenSize (x t) (rank * m + i))
  dsimp only at hidden
  simp only [Qwen3MLP.partialForward, RowParallelLinear.partialForward, Option.bind_eq_bind,
    Option.bind_some]
  rw [hidden, Option.bind_some, act]
  exact out

/-- A sum by equal runs. -/
theorem sum_runs_mul (term : Nat → R) (ranks m : Nat) :
    ((List.range ranks).map fun rank =>
      ((List.range m).map fun i => term (rank * m + i)).sum).sum =
        ((List.range (ranks * m)).map term).sum := by
  induction ranks with
  | zero => simp
  | succ ranks ih =>
      rw [List.range_succ, List.map_append, List.sum_append, ih, sum_tile, List.map_singleton,
        List.sum_singleton]

/-- What one rank adds. -/
theorem sum_rank_zero (positive : 0 < tpSize) (value : R) :
    ((List.range tpSize).map fun rank => if rank = 0 then value else 0).sum = value := by
  obtain ⟨others, rfl⟩ := Nat.exists_eq_succ_of_ne_zero positive.ne'
  rw [List.range_succ_eq_map, List.map_cons, List.map_map, List.sum_cons, if_pos rfl]
  simp [Function.comp_def]

/-- The ranks' parts add up to the unsharded MLP. -/
theorem mlpParts_sum (positive : 0 < tpSize) {intermediateSize : Nat}
    (divides : tpSize ∣ intermediateSize) {loads : Nat → List (ParamName × Nat)}
    {downLoads : Nat → List ParamName}
    (all : ∀ rank < tpSize, ∀ name s, (name, s) ∈ loads rank ↔
      s < 2 ∧ (name = .bias → gateUpBias = true))
    (downAll : ∀ rank < tpSize, ∀ name, name ∈ downLoads rank ↔ (name = .bias → downBias = true))
    (numTokens : Nat) (x : Nat → Nat → R) :
    ((List.range tpSize).mapM fun rank => mlpPart sigmoid gate up down hiddenSize intermediateSize
        gateUpBias downBias (loads rank) (downLoads rank) (tabulate numTokens hiddenSize x) tpSize
        rank).map (allReduce numTokens hiddenSize) =
      some (tabulate numTokens hiddenSize fun t => down.apply downBias intermediateSize
        (gated sigmoid gate up gateUpBias hiddenSize (x t))) := by
  obtain ⟨m, rfl⟩ := divides
  refine mapM_allReduce (fun rank inside =>
    mlpPart_eq inside (all rank inside) (downAll rank inside) numTokens x) fun t _ d => ?_
  rw [Projection.apply, List.sum_map_add, sum_runs_mul fun i =>
    gated sigmoid gate up gateUpBias hiddenSize (x t) i * down.weight d i]
  refine congrArg (_ + ·) ?_
  cases downBias with
  | true => simpa using sum_rank_zero positive (down.bias d)
  | false => simp

end Mlp

end LeanVllm
