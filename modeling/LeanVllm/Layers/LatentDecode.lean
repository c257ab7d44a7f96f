import LeanVllm.Models.DeepseekV2

/-!
# Decoding over latents

`MLAAttention._decode_latents` attends the cached latents as they are: the query is
moved into latent space by `W_UK_T`, and `W_UV` applies after attention, which is
linear in its values.  It is the attention over the keys and values the latents
expand to.
-/

namespace LeanVllm

open Collections Numeric

namespace MLAAttention

open DeepseekV2Attention TorchAttention

variable {numHeads nope rope vDim rank : Nat}

/-- `_decode_latents`. -/
noncomputable def decodeLatents (scale : ℝ) (weight : KvBProj numHeads nope vDim rank)
    (latentCache : Pages (Fin (rank + rope) → ℝ)) (q : List (Heads numHeads (nope + rope)))
    (context : AttentionContext) : Option (List (Heads numHeads vDim)) := do
  let projections := latentProjections weight
  let latentQ := q.map fun token head =>
    let qNope := fun d => token head (Fin.castAdd rope d)
    let qPe := fun d => token head (Fin.natAdd nope d)
    Fin.append (Matrix.vecMul qNope (projections.1 head)) qPe
  let o ← mlaDecode scale latentQ latentCache context
  some (o.map fun token head => Matrix.vecMul (token head) (projections.2 head))

/-- A row of a decode batch: its queries, its number of keys, and its row of the padded
block table. -/
structure PagedRow (α : Type) where
  queries : List α
  seqlenK : Nat
  table : List Int

/-- Attention over the keys and values of a row's latents, its queries at its last
positions. -/
noncomputable def expandedAttention (scale : ℝ) (weight : KvBProj numHeads nope vDim rank)
    (queries : List (Heads numHeads (nope + rope))) (seqlenK : Nat)
    (latent : Nat → Fin (rank + rope) → ℝ) : List (Heads numHeads vDim) :=
  queries.mapIdx fun j token head =>
    average ((List.range (seqlenK - queries.length + j + 1)).map fun p =>
      (dotProduct (token head) ((expand weight (latent p)).1 head) * scale,
        (expand weight (latent p)).2 head))

/-- Attention over latents between the two projections is attention over what the
latents expand to. -/
theorem latentAttention_expand (scale : ℝ) (weight : KvBProj numHeads nope vDim rank)
    (queries : List (Heads numHeads (nope + rope))) (seqlenK : Nat)
    (latent : Nat → Fin (rank + rope) → ℝ) :
    ((latentAttention scale (queries.map fun token head => Fin.append
        (Matrix.vecMul (fun d => token head (Fin.castAdd rope d))
          ((latentProjections weight).1 head))
        fun d => token head (Fin.natAdd nope d)) seqlenK latent).map fun token head =>
          Matrix.vecMul (token head) ((latentProjections weight).2 head)) =
      expandedAttention scale weight queries seqlenK latent := by
  apply List.ext_getElem
  · simp [latentAttention, expandedAttention]
  · intro j _ small
    have inside : j < queries.length := by simpa [expandedAttention] using small
    simp only [latentAttention, expandedAttention, List.getElem_map, List.getElem_mapIdx,
      List.length_map]
    funext head
    have linear := average_map (Matrix.vecMulLinear ((latentProjections weight).2 head))
      ((List.range (seqlenK - queries.length + j + 1)).map fun p =>
        (dotProduct (Fin.append (Matrix.vecMul (fun d => queries[j] head (Fin.castAdd rope d))
          ((latentProjections weight).1 head)) fun d => queries[j] head (Fin.natAdd nope d))
          (latent p) * scale, fun d => latent p (Fin.castAdd rope d)))
    rw [List.map_map] at linear
    refine linear.symm.trans (congrArg average (List.map_congr_left ?_))
    intro p _
    simp only [Function.comp_apply, Matrix.vecMulLinear_apply]
    rw [dotProduct_expand, vecMul_expand]

/-- Over every cache, block table and weight, for rows with the same number of queries
each: `_decode_latents` gives every query and head the attention over the keys and
values that the row's cached latents expand to, up to the query's own position. -/
theorem latent_decode_equals_expanded (scale : ℝ) (weight : KvBProj numHeads nope vDim rank)
    (cache : Pages (Fin (rank + rope) → ℝ)) (rows : List (PagedRow (Heads numHeads (nope + rope))))
    (some : rows ≠ []) (lq width : Nat) (context : AttentionContext)
    (tables : context.blockTables = Option.some (rows.map PagedRow.table))
    (lens : context.contextLens = rows.map PagedRow.seqlenK)
    (counted : ∀ row ∈ rows, row.queries.length = lq)
    (causal : ∀ row ∈ rows, lq ≤ row.seqlenK)
    (wide : ∀ row ∈ rows, row.table.length = width ∧ row.seqlenK ≤ width * cache.blockSize)
    (blocks : ∀ row ∈ rows, ∀ block ∈ row.table, block.toNat < cache.blocks.length) :
    decodeLatents scale weight cache (rows.flatMap PagedRow.queries) context =
      Option.some (rows.flatMap fun row => expandedAttention scale weight row.queries row.seqlenK
        (cachedAt cache row.table)) := by
  have readable : Readable cache (rows.map PagedRow.table) (width * cache.blockSize) := by
    constructor
    · intro table member
      obtain ⟨row, among, rfl⟩ := List.mem_map.mp member
      rw [(wide row among).1]
    · intro table member
      obtain ⟨row, among, rfl⟩ := List.mem_map.mp member
      exact blocks row among
  have projected : (rows.flatMap PagedRow.queries).map (fun token head => Fin.append
      (Matrix.vecMul (fun d => token head (Fin.castAdd rope d)) ((latentProjections weight).1 head))
      fun d => token head (Fin.natAdd nope d)) =
      rows.flatMap fun row => row.queries.map fun token head => Fin.append
        (Matrix.vecMul (fun d => token head (Fin.castAdd rope d))
          ((latentProjections weight).1 head)) fun d => token head (Fin.natAdd nope d) :=
    List.map_flatMap
  have attended := mlaDecode_eq scale (fun row : PagedRow (Heads numHeads (nope + rope)) =>
      row.queries.map fun token head => Fin.append
        (Matrix.vecMul (fun d => token head (Fin.castAdd rope d))
          ((latentProjections weight).1 head)) fun d => token head (Fin.natAdd nope d))
    some tables lens (fun row member => by rw [List.length_map, counted row member])
    (fun row member => (wide row member).1) causal (fun row member => (wide row member).2) readable
  simp only [decodeLatents, projected, attended, Option.bind_eq_bind, Option.bind_some,
    List.map_flatMap]
  refine congrArg Option.some (List.flatMap_congr ?_)
  intro row _
  exact latentAttention_expand scale weight row.queries row.seqlenK (cachedAt cache row.table)

theorem twoLatents_uniform : ∀ block ∈
    ([[fun _ => 1, fun _ => (2 : Nat)]] : List (List (Fin (1 + 1) → ℝ))), block.length = 2 := by
  simp

/-- Two latents in one page. -/
def twoLatents : Pages (Fin (1 + 1) → ℝ) where
  blockSize := 2
  blocks := [[fun _ => 1, fun _ => (2 : Nat)]]
  uniform := twoLatents_uniform

/-- A row that verifies a draft: two queries, of which the first sees one latent. -/
def twoQueries : PagedRow (Heads 1 (1 + 1)) where
  queries := [fun _ _ => 1, fun _ _ => (3 : Nat)]
  seqlenK := 2
  table := [0]

theorem latent_decode_equals_expanded_two_queries :
    decodeLatents 1 (fun _ _ => 1 : KvBProj 1 1 1 1) twoLatents
        ([twoQueries].flatMap PagedRow.queries)
        { isPrefill := false, cuSeqlensQ := [0, 2], cuSeqlensK := [0, 2], maxSeqlenQ := 2
          maxSeqlenK := 2, cuSeqlensQHost := [0, 2], cuSeqlensKHost := [0, 2], contextLens := [2]
          blockTables := some [[0]] } =
      some ([twoQueries].flatMap fun row => expandedAttention 1 (fun _ _ => 1 : KvBProj 1 1 1 1)
        row.queries row.seqlenK (cachedAt twoLatents row.table)) :=
  latent_decode_equals_expanded 1 _ _ [twoQueries] (by simp) 2 1 _ rfl rfl (by simp [twoQueries])
    (by simp [twoQueries]) (by simp [twoQueries, twoLatents]) (by simp [twoQueries, twoLatents])

end MLAAttention

end LeanVllm
