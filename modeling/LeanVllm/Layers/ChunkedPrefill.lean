import LeanVllm.Attention.Merge
import LeanVllm.Attention.TorchBackend
import LeanVllm.Layers.ContextChunks

/-!
# Prefill over cached latents

`MLAAttention._prefill`: the new tokens attend each other causally, and each chunk of
cached latents, expanded, without a mask.  The chunks merge among themselves and then
with the new tokens, by log-sum-exp.  What comes out is the attention of every new
token over all cached positions of its row and the new tokens up to itself.
-/

namespace LeanVllm

open Collections Numeric

namespace MLAAttention

open TorchAttention

variable {numHeads headDim vDim latentDim : Nat}

/-! ## The backend's part -/

/-- Keys and values of one token. -/
abbrev KeyValue (numHeads headDim vDim : Nat) : Type :=
  Heads numHeads headDim × Heads numHeads vDim

/-- What a backend returns for one token: per head the output and its log-sum-exp. -/
abbrev TokenState (numHeads vDim : Nat) : Type :=
  Fin numHeads → AttentionState (Fin vDim → ℝ)

/-- The backend of a layer, as far as `_prefill` calls it: `varlen_with_lse` over packed
rows, and `prefill` without a page table. -/
structure Backend (numHeads headDim vDim : Nat) where
  varlenWithLse : List (Heads numHeads headDim) → List (Heads numHeads headDim) →
    List (Heads numHeads vDim) → List Nat → List Nat → Nat → Nat → Bool →
      Option (List (TokenState numHeads vDim))
  prefill : List (Heads numHeads headDim) → List (Heads numHeads headDim) →
    List (Heads numHeads vDim) → AttentionContext → Option (List (Heads numHeads vDim))

/-- A row handed to a backend: its queries, and its keys with their values. -/
structure VarlenRow (numHeads headDim vDim : Nat) where
  queries : List (Heads numHeads headDim)
  keys : List (KeyValue numHeads headDim vDim)

/-- A query's scored values over some keys. -/
noncomputable def scored (scale : ℝ) (token : Heads numHeads headDim) (head : Fin numHeads)
    (keys : List (KeyValue numHeads headDim vDim)) : List (ℝ × (Fin vDim → ℝ)) :=
  keys.map fun key => (dotProduct (token head) (key.1 head) * scale, key.2 head)

/-- Exact attention of a row, causal ones aligned at the bottom right. -/
noncomputable def VarlenRow.attend (scale : ℝ) (causal : Bool)
    (row : VarlenRow numHeads headDim vDim) : List (TokenState numHeads vDim) :=
  row.queries.mapIdx fun j token head => attentionOf (scored scale token head
    (if causal then row.keys.take (row.keys.length - row.queries.length + j + 1) else row.keys))

/-- A backend that computes softmax attention and its log-sum-exp exactly. -/
structure Backend.Exact (backend : Backend numHeads headDim vDim) (scale : ℝ) : Prop where
  varlen : ∀ (rows : List (VarlenRow numHeads headDim vDim)) (causal : Bool),
    (causal = true → ∀ row ∈ rows, row.queries.length ≤ row.keys.length) →
    backend.varlenWithLse (rows.flatMap VarlenRow.queries)
        ((rows.flatMap VarlenRow.keys).map Prod.fst) ((rows.flatMap VarlenRow.keys).map Prod.snd)
        (cumsum (rows.map fun row => row.queries.length))
        (cumsum (rows.map fun row => row.keys.length))
        ((rows.map fun row => row.queries.length).foldl max 0)
        ((rows.map fun row => row.keys.length).foldl max 0) causal =
      some (rows.flatMap (VarlenRow.attend scale causal))
  prefill : ∀ (rows : List (VarlenRow numHeads headDim vDim)) (context : AttentionContext),
    (∀ row ∈ rows, row.queries.length ≤ row.keys.length) → context.blockTables = none →
    context.cuSeqlensQ = cumsum (rows.map fun row => row.queries.length) →
    context.cuSeqlensK = cumsum (rows.map fun row => row.keys.length) →
    context.maxSeqlenQ = (rows.map fun row => row.queries.length).foldl max 0 →
    context.maxSeqlenK = (rows.map fun row => row.keys.length).foldl max 0 →
    backend.prefill (rows.flatMap VarlenRow.queries) ((rows.flatMap VarlenRow.keys).map Prod.fst)
        ((rows.flatMap VarlenRow.keys).map Prod.snd) context =
      some ((rows.flatMap (VarlenRow.attend scale true)).map fun token head => (token head).1)

/-! ## `_prefill` -/

/-- The latent at a slot of the flat cache; a negative slot counts from the end. -/
def latentAt (cache : Pages (Fin latentDim → ℝ)) (slot : Int) : Option (Fin latentDim → ℝ) :=
  let latents := cache.blocks.flatten
  if slot < 0 then
    if slot + latents.length < 0 then none else latents[(slot + latents.length).toNat]?
  else latents[slot.toNat]?

/-- Merged results, token by token and head by head; `none` is NaN. -/
noncomputable def mergeTokens (triton : Bool)
    (context : List (Fin numHeads → Option (AttentionState (Fin vDim → ℝ))))
    (states : List (TokenState numHeads vDim)) :
    List (Fin numHeads → Option (AttentionState (Fin vDim → ℝ))) :=
  List.zipWith (fun a b head => mergeInto triton (a head) (some (b head))) context states

/-- One turn of the loop of `_prefill`: a chunk of cached keys, merged into the rows it
has queries of. -/
noncomputable def mergeChunk (backend : Backend numHeads headDim vDim) (triton : Bool)
    (expand : (Fin latentDim → ℝ) → KeyValue numHeads headDim vDim)
    (cache : Pages (Fin latentDim → ℝ)) (q : List (Heads numHeads headDim))
    (context : List (Fin numHeads → Option (AttentionState (Fin vDim → ℝ))))
    (chunk : ContextChunk) :
    Option (List (Fin numHeads → Option (AttentionState (Fin vDim → ℝ)))) := do
  let latents ← chunk.slots.mapM (latentAt cache)
  let kv := latents.map expand
  let start := chunk.queries.1
  let stop := chunk.queries.2
  let states ← backend.varlenWithLse ((q.drop start).take (stop - start)) (kv.map Prod.fst)
    (kv.map Prod.snd) chunk.cuSeqlensQ chunk.cuSeqlensK chunk.maxSeqlenQ chunk.maxSeqlenK false
  some (context.take start ++ mergeTokens triton ((context.drop start).take (stop - start)) states ++
    context.drop stop)

/-- `_prefill`, over new latents and a cache that holds the earlier ones. -/
noncomputable def prefill (backend : Backend numHeads headDim vDim) (triton : Bool)
    (expand : (Fin latentDim → ℝ) → KeyValue numHeads headDim vDim)
    (cache : Pages (Fin latentDim → ℝ)) (maxContextChunk : Nat) (q : List (Heads numHeads headDim))
    (latent : List (Fin latentDim → ℝ)) (context : AttentionContext) :
    Option (List (Fin numHeads → Option (Fin vDim → ℝ))) := do
  let kv := latent.map expand
  let chunks ← match context.blockTables with
    | none => some []
    | some tables =>
        contextChunks context.cuSeqlensQHost context.cuSeqlensKHost tables cache.blockSize
          maxContextChunk
  if chunks = [] then
    -- no row has cached context, so a plain prefill with no page table covers it
    let o ← backend.prefill q (kv.map Prod.fst) (kv.map Prod.snd)
      { context with blockTables := none }
    some (o.map fun token head => some (token head))
  else
    let states ← backend.varlenWithLse q (kv.map Prod.fst) (kv.map Prod.snd) context.cuSeqlensQ
      context.cuSeqlensQ context.maxSeqlenQ context.maxSeqlenQ true
    -- rows with no cached keys keep a log-sum-exp of `-inf`
    let merged ← chunks.foldlM (mergeChunk backend triton expand cache q)
      (List.replicate states.length fun _ => some (0, ⊥))
    some ((mergeTokens triton merged states).map fun token head => (token head).map Prod.fst)

/-! ## A chunk of a batch -/

section Batch

variable {n : Nat} {queries : Nat → List (Heads numHeads headDim)} {table : Nat → List Int}
  {numCached : Nat → Nat} {cache : Pages (Fin latentDim → ℝ)}

/-- Block tables that cover their rows' cached positions with pages of the cache. -/
structure Covers (cache : Pages (Fin latentDim → ℝ)) (n : Nat) (numCached : Nat → Nat)
    (table : Nat → List Int) : Prop where
  blockSize : 0 < cache.blockSize
  blocks : ∀ r < n, ∀ p < numCached r, ∃ block : Nat,
    (table r)[p / cache.blockSize]? = some (block : Int) ∧ block < cache.blocks.length

/-- The slot of a cached position holds the row's latent there. -/
theorem Covers.latentAt_eq (covers : Covers cache n numCached table) {r p : Nat} (row : r < n)
    (cached : p < numCached r) : ∃ block : Int, (table r)[p / cache.blockSize]? = some block ∧
      latentAt cache (block * (cache.blockSize : Int) + (p % cache.blockSize : Nat)) =
        some (cachedAt cache (table r) p) := by
  obtain ⟨block, found, inside⟩ := covers.blocks r row p cached
  refine ⟨block, found, ?_⟩
  have inPage := Nat.mod_lt p covers.blockSize
  have slot : ((block : Int) * (cache.blockSize : Int) + (p % cache.blockSize : Nat)) =
      ((block * cache.blockSize + p % cache.blockSize : Nat) : Int) := by
    push_cast
    rfl
  have own : (table r).getD (p / cache.blockSize) 0 = (block : Int) := by
    simp [List.getD_eq_getElem?_getD, found]
  obtain ⟨latent, there⟩ := Option.isSome_iff_exists.mp (cache.read_isSome inside inPage)
  rw [slot]
  unfold latentAt
  rw [if_neg (by omega), Int.toNat_natCast, cache.getElem?_flatten inPage, cachedAt, own,
    Int.toNat_natCast, there, Option.getD_some]

/-- The rows of a planned chunk. -/
def chunkRows (queries : Nat → List (Heads numHeads headDim))
    (key : Nat → Nat → KeyValue numHeads headDim vDim) (plan : ChunkPlan) :
    List (VarlenRow numHeads headDim vDim) :=
  (List.range plan.lens.length).map fun k =>
    { queries := queries (plan.first + k)
      keys := (List.range (plan.lens.getD k 0)).map fun o =>
        key (plan.first + k) (plan.starts.getD k 0 + o) }

/-- What `context_chunks` makes of a planned chunk. -/
theorem Covers.chunk_eq (covers : Covers cache n numCached table) {plan : ChunkPlan}
    (known : ∀ key ∈ plan.keys, key ∈ keysOf ((List.range n).map numCached))
    (fits : plan.first + plan.lens.length ≤ n) (queries : Nat → List (Heads numHeads headDim))
    (key : Nat → Nat → KeyValue numHeads headDim vDim) :
    ∃ slots, plan.chunk (cumsum ((List.range n).map fun r => (queries r).length))
        ((List.range n).map table) cache.blockSize = some
          { queries := ((cumsum ((List.range n).map fun r => (queries r).length)).getD plan.first 0,
              (cumsum ((List.range n).map fun r => (queries r).length)).getD
                (plan.first + plan.lens.length) 0)
            cuSeqlensQ := cumsum ((chunkRows queries key plan).map fun row => row.queries.length)
            cuSeqlensK := cumsum ((chunkRows queries key plan).map fun row => row.keys.length)
            maxSeqlenQ := ((chunkRows queries key plan).map fun row =>
              row.queries.length).foldl max 0
            maxSeqlenK := ((chunkRows queries key plan).map fun row => row.keys.length).foldl max 0
            slots := slots } ∧
      slots.mapM (latentAt cache) =
        some (plan.keys.map fun key => cachedAt cache (table key.1) key.2) := by
  have queryLens : (((List.range n).map fun r => (queries r).length).drop plan.first).take
      plan.lens.length = (chunkRows queries key plan).map fun row => row.queries.length := by
    rw [← List.map_drop, ← List.map_take, range_slice fits, chunkRows, List.map_map, List.map_map]
    rfl
  have keyLens : (chunkRows queries key plan).map (fun row => row.keys.length) = plan.lens := by
    rw [chunkRows, List.map_map]
    conv_rhs => rw [← map_getD_range plan.lens 0]
    apply List.map_congr_left
    intro k _
    simp
  have lookup : ∀ key ∈ plan.keys, (∃ row block, ((List.range n).map table)[key.1]? = some row ∧
      row[key.2 / cache.blockSize]? = some block) ∧
      latentAt cache (slotAt ((List.range n).map table) cache.blockSize key) =
        some (cachedAt cache (table key.1) key.2) := by
    intro key member
    obtain ⟨inRows, cached⟩ := mem_keysOf.mp (known _ member)
    rw [List.length_map, List.length_range] at inRows
    have width : ((List.range n).map numCached).getD key.1 0 = numCached key.1 := by
      simp [List.getD_eq_getElem?_getD, inRows]
    obtain ⟨block, found, read⟩ := covers.latentAt_eq inRows (width ▸ cached)
    have own : ((List.range n).map table)[key.1]? = some (table key.1) := by
      rw [List.getElem?_map, List.getElem?_range inRows, Option.map_some]
    exact ⟨⟨_, block, own, found⟩, (congrArg _ (slotAt_eq own found)).trans read⟩
  have inQueries : plan.first + plan.lens.length ≤
      ((List.range n).map fun r => (queries r).length).length := by simpa using fits
  refine ⟨plan.keys.map (slotAt ((List.range n).map table) cache.blockSize), ?_, ?_⟩
  · rw [plan.chunk_eq inQueries fun key member => (lookup key member).1, ChunkPlan.described,
      queryLens, keyLens, getD_cumsum inQueries,
      getD_cumsum (Nat.le_trans (Nat.le_add_right _ _) inQueries)]
  · rw [List.mapM_map]
    exact mapM_eq_some fun key member => (lookup key member).2

/-! ## Merging a chunk -/

variable {scale : ℝ} {key : Nat → Nat → KeyValue numHeads headDim vDim}

/-- The keys of one row, out of keys of all rows. -/
def keysAt (key : Nat → Nat → KeyValue numHeads headDim vDim) (keys : List (Nat × Nat)) (r : Nat) :
    List (KeyValue numHeads headDim vDim) :=
  (keys.filter fun entry => entry.1 = r).map fun entry => key entry.1 entry.2

theorem keysAt_append (keys others : List (Nat × Nat)) (r : Nat) :
    keysAt key (keys ++ others) r = keysAt key keys r ++ keysAt key others r := by
  rw [keysAt, List.filter_append, List.map_append]
  rfl

/-- A row's keys, where each row in turn lists its own. -/
theorem keysAt_flatMap (first count : Nat) (positions : Nat → List Nat) (r : Nat) :
    keysAt key ((List.range count).flatMap fun k => (positions k).map fun p => (first + k, p)) r =
      if first ≤ r ∧ r < first + count then (positions (r - first)).map (key r) else [] := by
  induction count with
  | zero => simp [keysAt]
  | succ count ih =>
      rw [List.range_succ, List.flatMap_append, List.flatMap_singleton, keysAt_append, ih]
      by_cases own : first + count = r
      · subst own
        have all : ((positions count).map fun p => (first + count, p)).filter
            (fun entry => entry.1 = first + count) =
              (positions count).map fun p => (first + count, p) := by
          rw [List.filter_eq_self]
          intro entry member
          obtain ⟨p, _, rfl⟩ := List.mem_map.mp member
          simp
        rw [if_neg (by omega), if_pos (by omega), keysAt, all, List.map_map,
          Nat.add_sub_cancel_left]
        rfl
      · have none : ((positions count).map fun p => (first + count, p)).filter
            (fun entry => entry.1 = r) = [] := by
          rw [List.filter_eq_nil_iff]
          intro entry member
          obtain ⟨p, _, rfl⟩ := List.mem_map.mp member
          simpa using own
        rw [keysAt, none, List.map_nil, List.append_nil]
        by_cases before : first ≤ r ∧ r < first + count
        · rw [if_pos before, if_pos (by omega)]
        · rw [if_neg before, if_neg (by omega)]

/-- What the merged states of a row are once some keys are merged in. -/
noncomputable def stateRow (scale : ℝ) (queries : Nat → List (Heads numHeads headDim))
    (key : Nat → Nat → KeyValue numHeads headDim vDim) (merged : List (Nat × Nat)) (r : Nat) :
    List (Fin numHeads → Option (AttentionState (Fin vDim → ℝ))) :=
  (queries r).map fun token head => some (attentionOf (scored scale token head
    (keysAt key merged r)))

theorem stateRow_congr {merged others : List (Nat × Nat)} {r : Nat}
    (same : keysAt key merged r = keysAt key others r) :
    stateRow scale queries key merged r = stateRow scale queries key others r := by
  rw [stateRow, same, stateRow]

theorem scored_append (token : Heads numHeads headDim) (head : Fin numHeads)
    (keys others : List (KeyValue numHeads headDim vDim)) :
    scored scale token head (keys ++ others) =
      scored scale token head keys ++ scored scale token head others :=
  List.map_append

theorem scored_ne_nil {token : Heads numHeads headDim} {head : Fin numHeads}
    {keys : List (KeyValue numHeads headDim vDim)} (some : keys ≠ []) :
    scored scale token head keys ≠ [] := by
  simpa [scored] using some

/-- Rows of equal lengths merge row by row. -/
theorem mergeTokens_flatMap (triton : Bool) {ρ : Type*}
    {first : ρ → List (Fin numHeads → Option (AttentionState (Fin vDim → ℝ)))}
    {second : ρ → List (TokenState numHeads vDim)} {rows : List ρ}
    (same : ∀ row ∈ rows, (first row).length = (second row).length) :
    mergeTokens triton (rows.flatMap first) (rows.flatMap second) =
      rows.flatMap fun row => mergeTokens triton (first row) (second row) := by
  rw [mergeTokens, ← List.map_uncurry_zip_eq_zipWith, zip_flatMap same, List.map_flatMap]
  apply List.flatMap_congr
  intro row _
  rw [mergeTokens, List.map_uncurry_zip_eq_zipWith]

/-- A row's states, merged with exact attention over further keys. -/
theorem mergeTokens_stateRow (triton : Bool) {merged : List (Nat × Nat)} {r : Nat}
    {states : List (TokenState numHeads vDim)}
    (others : Nat → List (KeyValue numHeads headDim vDim))
    (some : ∀ j < (queries r).length, keysAt key merged r ≠ [] ∨ others j ≠ [])
    (exact : states = (queries r).mapIdx fun j token head =>
      attentionOf (scored scale token head (others j))) :
    mergeTokens triton (stateRow scale queries key merged r) states =
      (queries r).mapIdx fun j token head => Option.some (attentionOf (scored scale token head
        (keysAt key merged r ++ others j))) := by
  subst exact
  apply List.ext_getElem
  · simp [mergeTokens, stateRow]
  · intro j inside _
    have small : j < (queries r).length := by
      simpa [mergeTokens, stateRow] using inside
    simp only [mergeTokens, stateRow, List.getElem_zipWith, List.getElem_map,
      List.getElem_mapIdx]
    funext head
    rw [mergeInto_attentionOf, scored_append]
    rcases some j small with old | new
    · exact .inl (scored_ne_nil old)
    · exact .inr (scored_ne_nil new)

theorem keysAt_plan (plan : ChunkPlan) (r : Nat) :
    keysAt key plan.keys r =
      if plan.first ≤ r ∧ r < plan.first + plan.lens.length then
        (List.range (plan.lens.getD (r - plan.first) 0)).map fun o =>
          key r (plan.starts.getD (r - plan.first) 0 + o)
      else [] := by
  have listed : plan.keys = (List.range plan.lens.length).flatMap fun k =>
      ((List.range (plan.lens.getD k 0)).map (plan.starts.getD k 0 + ·)).map fun p =>
        (plan.first + k, p) := by
    simp only [ChunkPlan.keys, List.map_map]
    rfl
  rw [listed, keysAt_flatMap plan.first plan.lens.length
    (fun k => (List.range (plan.lens.getD k 0)).map (plan.starts.getD k 0 + ·)), List.map_map]
  rfl

theorem flatMap_chunkRows_keys (plan : ChunkPlan) :
    (chunkRows queries key plan).flatMap VarlenRow.keys =
      plan.keys.map fun entry => key entry.1 entry.2 := by
  rw [chunkRows, List.flatMap_map, ChunkPlan.keys, List.map_flatMap]
  simp only [List.map_map]
  rfl

/-- The rows of the batch, cut at a chunk. -/
theorem flatMap_cut {ρ : Type*} (content : Nat → List ρ) {first count : Nat}
    (inside : first + count ≤ n) :
    (List.range n).flatMap content =
      (List.range first).flatMap content ++
        (List.range count).flatMap (fun k => content (first + k)) ++
        ((List.range n).drop (first + count)).flatMap content := by
  have front : (List.range n).take first = List.range first := by
    rw [List.take_range, Nat.min_eq_left (by omega)]
  have middle := range_slice inside
  conv_lhs =>
    rw [← List.take_append_drop first (List.range n), ← List.take_append_drop count
      ((List.range n).drop first), front, middle, List.drop_drop]
  rw [List.flatMap_append, List.flatMap_append, List.flatMap_map, List.append_assoc]

/-- A turn of the loop merges the chunk's keys into their rows and leaves the others. -/
theorem mergeChunk_eq {backend : Backend numHeads headDim vDim} (exact : backend.Exact scale)
    (triton : Bool) {expand : (Fin latentDim → ℝ) → KeyValue numHeads headDim vDim}
    (merged : List (Nat × Nat)) {plan : ChunkPlan} (wf : plan.Wf)
    (fits : plan.first + plan.lens.length ≤ n) {slots : List Int}
    (keyed : ∀ r p, key r p = expand (cachedAt cache (table r) p))
    (read : slots.mapM (latentAt cache) =
      some (plan.keys.map fun key => cachedAt cache (table key.1) key.2)) :
    let totals := cumsum ((List.range n).map fun r => (queries r).length)
    mergeChunk backend triton expand cache ((List.range n).flatMap queries)
        ((List.range n).flatMap (stateRow scale queries key merged))
        { queries := (totals.getD plan.first 0, totals.getD (plan.first + plan.lens.length) 0)
          cuSeqlensQ := cumsum ((chunkRows queries key plan).map fun row => row.queries.length)
          cuSeqlensK := cumsum ((chunkRows queries key plan).map fun row => row.keys.length)
          maxSeqlenQ := ((chunkRows queries key plan).map fun row =>
            row.queries.length).foldl max 0
          maxSeqlenK := ((chunkRows queries key plan).map fun row => row.keys.length).foldl max 0
          slots := slots } =
      some ((List.range n).flatMap (stateRow scale queries key (merged ++ plan.keys))) := by
  intro totals
  have rows : plan.first + plan.lens.length ≤ (List.range n).length := by simpa using fits
  have expanded : (plan.keys.map fun key => cachedAt cache (table key.1) key.2).map expand =
      (chunkRows queries key plan).flatMap VarlenRow.keys := by
    rw [flatMap_chunkRows_keys, List.map_map]
    apply List.map_congr_left
    intro entry _
    exact (keyed entry.1 entry.2).symm
  have asked : (((List.range n).flatMap queries).drop (totals.getD plan.first 0)).take
      (totals.getD (plan.first + plan.lens.length) 0 - totals.getD plan.first 0) =
        (chunkRows queries key plan).flatMap VarlenRow.queries := by
    rw [slice_flatMap (List.range n) queries rows, range_slice fits, List.flatMap_map, chunkRows,
      List.flatMap_map]
  have attended := exact.varlen (chunkRows queries key plan) false (by simp)
  have state : totals = cumsum ((List.range n).map fun r =>
      (stateRow scale queries key merged r).length) := by
    simp only [totals, stateRow, List.length_map]
  have own : ∀ k < plan.lens.length,
      mergeTokens triton (stateRow scale queries key merged (plan.first + k))
        (VarlenRow.attend scale false
          { queries := queries (plan.first + k)
            keys := (List.range (plan.lens.getD k 0)).map fun o =>
              key (plan.first + k) (plan.starts.getD k 0 + o) }) =
        stateRow scale queries key (merged ++ plan.keys) (plan.first + k) := by
    intro k small
    have positive := wf.getD_pos small
    rw [mergeTokens_stateRow triton (fun _ => (List.range (plan.lens.getD k 0)).map fun o =>
      key (plan.first + k) (plan.starts.getD k 0 + o))]
    · rw [stateRow, keysAt_append, keysAt_plan, if_pos (by omega), Nat.add_sub_cancel_left]
      apply List.ext_getElem <;> simp
    · intro j _
      right
      simpa using Nat.ne_of_gt positive
    · simp [VarlenRow.attend]
  have outside : ∀ r, ¬ (plan.first ≤ r ∧ r < plan.first + plan.lens.length) →
      stateRow scale queries key merged r =
        stateRow scale queries key (merged ++ plan.keys) r := by
    intro r away
    apply stateRow_congr
    rw [keysAt_append, keysAt_plan, if_neg away, List.append_nil]
  rw [mergeChunk, read]
  simp only [Option.bind_eq_bind, Option.bind_some, expanded, asked, attended]
  rw [state, slice_flatMap (List.range n) _ rows, take_flatMap (List.range n) _ (by simp; omega),
    drop_flatMap (List.range n) _ rows, range_slice fits, List.flatMap_map, chunkRows,
    List.flatMap_map, mergeTokens_flatMap triton (by simp [stateRow, VarlenRow.attend]),
    flatMap_cut (stateRow scale queries key (merged ++ plan.keys)) fits]
  congr 2
  · congr 1
    · rw [List.take_range, Nat.min_eq_left (by omega)]
      apply List.flatMap_congr
      intro r member
      exact outside r (by have := List.mem_range.mp member; omega)
    · apply List.flatMap_congr
      intro k member
      exact own k (List.mem_range.mp member)
  · apply List.flatMap_congr
    intro r member
    obtain ⟨o, inside, rfl⟩ := List.mem_iff_getElem.mp member
    exact outside _ (by simp)

/-- The loop over the chunks merges every planned key. -/
theorem foldlM_mergeChunk {backend : Backend numHeads headDim vDim} (exact : backend.Exact scale)
    (triton : Bool) {expand : (Fin latentDim → ℝ) → KeyValue numHeads headDim vDim}
    (covers : Covers cache n numCached table)
    (keyed : ∀ r p, key r p = expand (cachedAt cache (table r) p)) (plans : List ChunkPlan)
    (wf : ∀ plan ∈ plans, plan.Wf)
    (known : ∀ plan ∈ plans, ∀ key ∈ plan.keys, key ∈ keysOf ((List.range n).map numCached))
    (merged : List (Nat × Nat)) :
    ∃ chunks, plans.mapM (ChunkPlan.chunk (cumsum ((List.range n).map fun r => (queries r).length))
        ((List.range n).map table) cache.blockSize) = some chunks ∧
      chunks.length = plans.length ∧
      chunks.foldlM (mergeChunk backend triton expand cache ((List.range n).flatMap queries))
          ((List.range n).flatMap (stateRow scale queries key merged)) =
        some ((List.range n).flatMap
          (stateRow scale queries key (merged ++ plans.flatMap ChunkPlan.keys))) := by
  induction plans generalizing merged with
  | nil => exact ⟨[], rfl, rfl, by simp⟩
  | cons plan plans ih =>
      have first := known plan List.mem_cons_self
      have good := wf plan List.mem_cons_self
      have fits : plan.first + plan.lens.length ≤ n := by simpa using good.fits first
      obtain ⟨slots, made, read⟩ := covers.chunk_eq first fits queries key
      obtain ⟨chunks, rest, counted, folded⟩ := ih
        (fun plan member => wf plan (List.mem_cons_of_mem _ member))
        (fun plan member => known plan (List.mem_cons_of_mem _ member)) (merged ++ plan.keys)
      refine ⟨_ :: chunks, by rw [List.mapM_cons, made, rest]; rfl, by simp [counted], ?_⟩
      rw [List.foldlM_cons, mergeChunk_eq exact triton merged good fits keyed read,
        List.flatMap_cons, ← List.append_assoc]
      exact folded

end Batch

/-! ## The whole of `_prefill` -/

/-- A row of a prefill: the queries and latents of its new tokens, how many tokens are
cached, and its block table. -/
structure PrefillRow (numHeads headDim latentDim : Nat) where
  queries : List (Heads numHeads headDim)
  latents : List (Fin latentDim → ℝ)
  same : queries.length = latents.length
  numCached : Nat
  table : List Int

namespace PrefillRow

instance : Inhabited (PrefillRow numHeads headDim latentDim) :=
  ⟨⟨[], [], rfl, 0, []⟩⟩

/-- The cached latents of a row. -/
noncomputable def cached (cache : Pages (Fin latentDim → ℝ))
    (row : PrefillRow numHeads headDim latentDim) : List (Fin latentDim → ℝ) :=
  (List.range row.numCached).map (cachedAt cache row.table)

/-- Softmax attention of a row: each new token over all cached positions and the new
tokens up to itself. -/
noncomputable def attention (scale : ℝ)
    (expand : (Fin latentDim → ℝ) → KeyValue numHeads headDim vDim)
    (cache : Pages (Fin latentDim → ℝ)) (row : PrefillRow numHeads headDim latentDim) :
    List (Heads numHeads vDim) :=
  row.queries.mapIdx fun j token head => average (scored scale token head
    ((row.cached cache ++ row.latents.take (j + 1)).map expand))

/-- A context that tells of these rows. -/
structure Describes (rows : List (PrefillRow numHeads headDim latentDim))
    (context : AttentionContext) : Prop where
  cuSeqlensQ : context.cuSeqlensQ = cumsum (rows.map fun row => row.queries.length)
  cuSeqlensK : context.cuSeqlensK =
    cumsum (rows.map fun row => row.numCached + row.queries.length)
  cuSeqlensQHost : context.cuSeqlensQHost = context.cuSeqlensQ
  cuSeqlensKHost : context.cuSeqlensKHost = context.cuSeqlensK
  maxSeqlenQ : context.maxSeqlenQ = (rows.map fun row => row.queries.length).foldl max 0
  maxSeqlenK : context.maxSeqlenK =
    (rows.map fun row => row.numCached + row.queries.length).foldl max 0
  -- without block tables no row has cached tokens
  blockTables : context.blockTables = some (rows.map PrefillRow.table) ∨
    context.blockTables = none ∧ ∀ row ∈ rows, row.numCached = 0

variable {rows : List (PrefillRow numHeads headDim latentDim)} {scale : ℝ}
  {expand : (Fin latentDim → ℝ) → KeyValue numHeads headDim vDim}
  {cache : Pages (Fin latentDim → ℝ)} {context : AttentionContext}

/-- The new tokens of a row as a backend gets them. -/
def newTokens (expand : (Fin latentDim → ℝ) → KeyValue numHeads headDim vDim)
    (row : PrefillRow numHeads headDim latentDim) : VarlenRow numHeads headDim vDim :=
  { queries := row.queries, keys := row.latents.map expand }

theorem length_newTokens (row : PrefillRow numHeads headDim latentDim) :
    (row.newTokens expand).keys.length = row.queries.length := by
  simp [newTokens, row.same]

/-- New tokens attend each other up to themselves. -/
theorem newTokens_attend (row : PrefillRow numHeads headDim latentDim) :
    (row.newTokens expand).attend scale true = row.queries.mapIdx fun j token head =>
      attentionOf (scored scale token head ((row.latents.take (j + 1)).map expand)) := by
  simp only [VarlenRow.attend, newTokens, List.length_map, row.same, Nat.sub_self, Nat.zero_add,
    if_true, List.map_take]

theorem newTokens_keys (rows : List (PrefillRow numHeads headDim latentDim))
    (expand : (Fin latentDim → ℝ) → KeyValue numHeads headDim vDim) :
    (rows.flatMap latents).map expand = (rows.map (newTokens expand)).flatMap VarlenRow.keys := by
  rw [List.map_flatMap, List.flatMap_map]
  rfl

theorem newTokens_queries (rows : List (PrefillRow numHeads headDim latentDim))
    (expand : (Fin latentDim → ℝ) → KeyValue numHeads headDim vDim) :
    rows.flatMap queries = (rows.map (newTokens expand)).flatMap VarlenRow.queries := by
  rw [List.flatMap_map]
  rfl

theorem newTokens_queryLens (rows : List (PrefillRow numHeads headDim latentDim))
    (expand : (Fin latentDim → ℝ) → KeyValue numHeads headDim vDim) :
    (rows.map (newTokens expand)).map (fun row => row.queries.length) =
      rows.map fun row => row.queries.length := by
  rw [List.map_map]
  rfl

/-- New tokens have as many queries as keys. -/
theorem newTokens_square (row : VarlenRow numHeads headDim vDim)
    (member : row ∈ rows.map (newTokens expand)) : row.keys.length = row.queries.length := by
  obtain ⟨own, _, rfl⟩ := List.mem_map.mp member
  exact length_newTokens own

/-- The new tokens' own attention. -/
theorem Describes.attend_new {backend : Backend numHeads headDim vDim}
    (exact : backend.Exact scale)
    (expand : (Fin latentDim → ℝ) → KeyValue numHeads headDim vDim)
    (described : Describes rows context) :
    backend.varlenWithLse (rows.flatMap queries) (((rows.flatMap latents).map expand).map Prod.fst)
        (((rows.flatMap latents).map expand).map Prod.snd) context.cuSeqlensQ context.cuSeqlensQ
        context.maxSeqlenQ context.maxSeqlenQ true =
      some ((rows.map (newTokens expand)).flatMap (VarlenRow.attend scale true)) := by
  have attended := exact.varlen (rows.map (newTokens expand)) true
    fun _ row member => (newTokens_square row member).ge
  have keyLens : (rows.map (newTokens expand)).map (fun row => row.keys.length) =
      rows.map fun row => row.queries.length := by
    rw [← newTokens_queryLens rows expand]
    exact List.map_congr_left newTokens_square
  rw [← newTokens_keys, ← newTokens_queries, newTokens_queryLens, keyLens] at attended
  rw [described.cuSeqlensQ, described.maxSeqlenQ]
  exact attended

/-- Without cached tokens a plain prefill is the whole attention. -/
theorem Describes.unpaged {backend : Backend numHeads headDim vDim} (exact : backend.Exact scale)
    (expand : (Fin latentDim → ℝ) → KeyValue numHeads headDim vDim)
    (cache : Pages (Fin latentDim → ℝ)) (described : Describes rows context)
    (fresh : ∀ row ∈ rows, row.numCached = 0) :
    backend.prefill (rows.flatMap queries) (((rows.flatMap latents).map expand).map Prod.fst)
        (((rows.flatMap latents).map expand).map Prod.snd) { context with blockTables := none } =
      some (rows.flatMap (attention scale expand cache)) := by
  have keyLens : (rows.map (newTokens expand)).map (fun row => row.keys.length) =
      rows.map fun row => row.numCached + row.queries.length := by
    rw [List.map_map]
    apply List.map_congr_left
    intro row member
    simp [length_newTokens, fresh row member]
  rw [newTokens_keys, newTokens_queries rows expand,
    exact.prefill (rows.map (newTokens expand))]
  · rw [List.flatMap_map, List.map_flatMap]
    congr 1
    apply List.flatMap_congr
    intro row member
    rw [newTokens_attend, attention, cached, fresh row member]
    apply List.ext_getElem <;> simp [attentionOf]
  · exact fun row member => (newTokens_square row member).ge
  · rfl
  · rw [newTokens_queryLens]
    exact described.cuSeqlensQ
  · rw [keyLens]
    exact described.cuSeqlensK
  · rw [newTokens_queryLens]
    exact described.maxSeqlenQ
  · rw [keyLens]
    exact described.maxSeqlenK

/-- The cached keys of a row are all keys planned for it. -/
theorem keysAt_keysOf {n r : Nat} {numCached : Nat → Nat} (row : r < n)
    (key : Nat → Nat → KeyValue numHeads headDim vDim) :
    keysAt key (keysOf ((List.range n).map numCached)) r =
      (List.range (numCached r)).map (key r) := by
  have listed : keysOf ((List.range n).map numCached) =
      (List.range n).flatMap fun k => (List.range (numCached k)).map fun p => (0 + k, p) := by
    rw [keysOf, List.length_map, List.length_range]
    apply List.flatMap_congr
    intro k member
    simp [List.getD_eq_getElem?_getD, List.mem_range.mp member]
  rw [listed, keysAt_flatMap 0 n fun k => List.range (numCached k), if_pos (by omega), Nat.sub_zero]

/-- The lengths of the cached keys, as `context_chunks` reads them off the totals. -/
theorem Describes.contextLens (described : Describes rows context) :
    List.zipWith (· - ·) (AttentionContext.steps context.cuSeqlensKHost)
      (AttentionContext.steps context.cuSeqlensQHost) = rows.map numCached := by
  rw [described.cuSeqlensKHost, described.cuSeqlensQHost, described.cuSeqlensK,
    described.cuSeqlensQ, AttentionContext.steps_cumsum, AttentionContext.steps_cumsum]
  apply List.ext_getElem <;> simp

/-- The states before the first chunk. -/
theorem replicate_eq_stateRow {n : Nat} {queries : Nat → List (Heads numHeads headDim)}
    (key : Nat → Nat → KeyValue numHeads headDim vDim) :
    List.replicate ((List.range n).flatMap queries).length
        (fun _ : Fin numHeads => some ((0 : Fin vDim → ℝ), (⊥ : WithBot ℝ))) =
      (List.range n).flatMap (stateRow scale queries key []) := by
  symm
  rw [List.eq_replicate_iff]
  constructor
  · simp [List.length_flatMap, stateRow]
  · intro state member
    obtain ⟨r, _, among⟩ := List.mem_flatMap.mp member
    obtain ⟨token, _, rfl⟩ := List.mem_map.mp among
    funext head
    simp [keysAt, scored, attentionOf]

/-- The states over all cached keys, merged with the new tokens' own. -/
theorem mergeTokens_newTokens (triton : Bool) :
    mergeTokens triton
        ((List.range rows.length).flatMap (stateRow scale
          (fun r => (rows.getD r default).queries)
          (fun r p => expand (cachedAt cache (rows.getD r default).table p))
          (keysOf ((List.range rows.length).map fun r => (rows.getD r default).numCached))))
        ((rows.map (newTokens expand)).flatMap (VarlenRow.attend scale true)) =
      rows.flatMap fun row => row.queries.mapIdx fun j token head =>
        some (attentionOf (scored scale token head
          ((row.cached cache ++ row.latents.take (j + 1)).map expand))) := by
  rw [List.flatMap_map, flatMap_eq_range rows default fun row => (row.newTokens expand).attend scale true,
    mergeTokens_flatMap triton (by simp [stateRow, newTokens, VarlenRow.attend]),
    flatMap_eq_range rows default]
  apply List.flatMap_congr
  intro r member
  have inside := List.mem_range.mp member
  rw [mergeTokens_stateRow triton (fun j =>
    ((rows.getD r default).latents.take (j + 1)).map expand)]
  · rw [keysAt_keysOf inside]
    simp only [PrefillRow.cached, List.map_append, List.map_map]
    rfl
  · intro j small
    right
    rw [(rows.getD r default).same] at small
    rw [Ne, List.map_eq_nil_iff, List.take_eq_nil_iff]
    rintro (zero | empty)
    · omega
    · rw [empty] at small
      exact absurd small (Nat.not_lt_zero _)
  · exact newTokens_attend _

end PrefillRow

open PrefillRow in
/-- `_prefill` is softmax attention over exactly the row's cached positions and its new
tokens up to each one.  No output is NaN, which two log-sum-exps of `-inf` would merge
to and nothing merged later would undo. -/
theorem prefill_equals_attention {backend : Backend numHeads headDim vDim} {scale : ℝ}
    (exact : backend.Exact scale) (triton : Bool)
    (expand : (Fin latentDim → ℝ) → KeyValue numHeads headDim vDim)
    (cache : Pages (Fin latentDim → ℝ)) {maxContextChunk : Nat} (positive : 1 ≤ maxContextChunk)
    (rows : List (PrefillRow numHeads headDim latentDim)) {context : AttentionContext}
    (described : Describes rows context)
    (blockSize : 0 < cache.blockSize)
    (covered : ∀ row ∈ rows, ∀ p < row.numCached, ∃ block : Nat,
      row.table[p / cache.blockSize]? = some (block : Int) ∧ block < cache.blocks.length) :
    prefill backend triton expand cache maxContextChunk (rows.flatMap queries)
        (rows.flatMap latents) context =
      some ((rows.flatMap (attention scale expand cache)).map fun token head =>
        some (token head)) := by
  obtain ⟨plans, planned, cover, wf⟩ := planContextChunks_spec (rows.map numCached) positive
  have covers : Covers cache rows.length (fun r => (rows.getD r default).numCached)
      (fun r => (rows.getD r default).table) := by
    refine ⟨blockSize, fun r inside p cached => ?_⟩
    have own : rows.getD r default = rows[r] := by simp [List.getD_eq_getElem?_getD, inside]
    simp only [own] at cached ⊢
    exact covered _ (List.getElem_mem inside) p cached
  have known : ∀ plan ∈ plans, ∀ key ∈ plan.keys, key ∈ keysOf ((List.range rows.length).map
      fun r => (rows.getD r default).numCached) := by
    intro plan member key among
    rw [← map_eq_range rows default, ← cover]
    exact List.mem_flatMap.mpr ⟨plan, member, among⟩
  let key : Nat → Nat → KeyValue numHeads headDim vDim := fun r p =>
    expand (cachedAt cache (rows.getD r default).table p)
  obtain ⟨chunks, made, counted, merged⟩ := @foldlM_mergeChunk numHeads headDim vDim latentDim
    rows.length (fun r => (rows.getD r default).queries) (fun r => (rows.getD r default).table)
    (fun r => (rows.getD r default).numCached) cache scale key backend exact triton expand covers
    (fun _ _ => rfl) plans wf known []
  rw [List.nil_append, cover, map_eq_range rows default] at merged
  rcases described.blockTables with tables | ⟨tables, fresh⟩
  · have computed : contextChunks context.cuSeqlensQHost context.cuSeqlensKHost
        (rows.map PrefillRow.table) cache.blockSize maxContextChunk = some chunks := by
      rw [contextChunks, described.contextLens, planned, described.cuSeqlensQHost,
        described.cuSeqlensQ, map_eq_range rows default, map_eq_range rows default PrefillRow.table]
      exact made
    by_cases none : chunks = []
    · have fresh : ∀ row ∈ rows, row.numCached = 0 := by
        have unplanned : plans = [] := List.eq_nil_of_length_eq_zero (by rw [← counted, none]; rfl)
        have total := length_keysOf (rows.map numCached)
        rw [← cover, unplanned] at total
        intro row member
        exact List.sum_eq_zero_iff.mp total.symm _ (List.mem_map_of_mem member)
      simp only [prefill, tables, computed, none, Option.bind_eq_bind, Option.bind_some, if_true]
      rw [described.unpaged exact expand cache fresh, Option.bind_some]
    · have counts : ((rows.map (newTokens expand)).flatMap
          (VarlenRow.attend scale true)).length = ((List.range rows.length).flatMap fun r =>
            (rows.getD r default).queries).length := by
        rw [← flatMap_eq_range rows default, newTokens_queries rows expand, List.length_flatMap,
          List.length_flatMap]
        simp [VarlenRow.attend]
      simp only [prefill, tables, computed, none, Option.bind_eq_bind, Option.bind_some, if_false,
        described.attend_new exact expand, counts]
      rw [replicate_eq_stateRow key, flatMap_eq_range rows default queries, merged, Option.bind_some,
        mergeTokens_newTokens, List.map_flatMap, List.map_flatMap]
      congr 1
      apply List.flatMap_congr
      intro row _
      apply List.ext_getElem <;> simp [attention, attentionOf]
  · simp only [prefill, tables, Option.bind_eq_bind, Option.bind_some, if_true]
    rw [described.unpaged exact expand cache fresh, Option.bind_some]

/-! ## An exact backend -/

/-- Attention row by row, as the totals cut the packed tokens. -/
noncomputable def attendRows (scale : ℝ) (q k : List (Heads numHeads headDim))
    (v : List (Heads numHeads vDim)) (cuSeqlensQ cuSeqlensK : List Nat) (causal : Bool) :
    List (TokenState numHeads vDim) :=
  (List.range (AttentionContext.steps cuSeqlensQ).length).flatMap fun r =>
    VarlenRow.attend scale causal
      { queries := segment q (AttentionContext.steps cuSeqlensQ) r
        keys := segment (k.zip v) (AttentionContext.steps cuSeqlensK) r }

noncomputable def exactBackend (numHeads headDim vDim : Nat) (scale : ℝ) :
    Backend numHeads headDim vDim where
  varlenWithLse q k v cuSeqlensQ cuSeqlensK _ _ causal :=
    some (attendRows scale q k v cuSeqlensQ cuSeqlensK causal)
  prefill q k v context :=
    some ((attendRows scale q k v context.cuSeqlensQ context.cuSeqlensK true).map
      fun token head => (token head).1)

theorem attendRows_eq (scale : ℝ) (rows : List (VarlenRow numHeads headDim vDim)) (causal : Bool) :
    attendRows scale (rows.flatMap VarlenRow.queries) ((rows.flatMap VarlenRow.keys).map Prod.fst)
        ((rows.flatMap VarlenRow.keys).map Prod.snd)
        (cumsum (rows.map fun row => row.queries.length))
        (cumsum (rows.map fun row => row.keys.length)) causal =
      rows.flatMap (VarlenRow.attend scale causal) := by
  rw [attendRows, AttentionContext.steps_cumsum, AttentionContext.steps_cumsum, List.length_map,
    ← List.zip_of_prod rfl rfl]
  conv_rhs => rw [← map_getD_range rows ⟨[], []⟩, List.flatMap_map]
  apply List.flatMap_congr
  intro r member
  have inside := List.mem_range.mp member
  have found : rows[r]? = some (rows.getD r ⟨[], []⟩) := by
    simp [List.getD_eq_getElem?_getD, inside]
  rw [segment_flatMap rows VarlenRow.queries found, segment_flatMap rows VarlenRow.keys found]

theorem exactBackend_exact (scale : ℝ) : (exactBackend numHeads headDim vDim scale).Exact scale where
  varlen rows causal _ := congrArg some (attendRows_eq scale rows causal)
  prefill rows context _ _ queries keys _ _ := by
    simp only [exactBackend]
    rw [queries, keys, attendRows_eq]

/-- One new token over three cached ones, next to a fresh prompt. -/
noncomputable def longAndFresh : List (PrefillRow 1 1 1) :=
  [{ queries := [fun _ _ => 1], latents := [fun _ => (2 : Nat)], same := rfl, numCached := 3
     table := [1, 0] },
    { queries := [fun _ _ => (3 : Nat), fun _ _ => (4 : Nat)]
      latents := [fun _ => (5 : Nat), fun _ => (6 : Nat)], same := rfl
      numCached := 0, table := [-1, -1] }]

theorem twoPages_uniform : ∀ block ∈ ([[fun _ => 1, fun _ => (2 : Nat)],
    [fun _ => (3 : Nat), fun _ => (4 : Nat)]] : List (List (Fin 1 → ℝ))), block.length = 2 := by
  simp

noncomputable def twoPages : Pages (Fin 1 → ℝ) where
  blockSize := 2
  blocks := [[fun _ => 1, fun _ => (2 : Nat)], [fun _ => (3 : Nat), fun _ => (4 : Nat)]]
  uniform := twoPages_uniform

theorem prefill_equals_attention_longAndFresh :
    prefill (exactBackend 1 1 1 1) true (fun latent => (fun _ => latent, fun _ => latent)) twoPages
        2 (longAndFresh.flatMap PrefillRow.queries) (longAndFresh.flatMap PrefillRow.latents)
        { isPrefill := true, cuSeqlensQ := [0, 1, 3], cuSeqlensK := [0, 4, 6], maxSeqlenQ := 2
          maxSeqlenK := 4, cuSeqlensQHost := [0, 1, 3], cuSeqlensKHost := [0, 4, 6]
          contextLens := [4, 2], blockTables := some [[1, 0], [-1, -1]] } =
      some ((longAndFresh.flatMap (PrefillRow.attention 1
        (fun latent => ((fun _ => latent, fun _ => latent) : KeyValue 1 1 1)) twoPages)).map
          fun token head => some (token head)) := by
  refine prefill_equals_attention (exactBackend_exact 1) true _ twoPages (by decide) longAndFresh
    ⟨rfl, rfl, rfl, rfl, rfl, rfl, .inl rfl⟩ (by decide) ?_
  intro row member p cached
  simp only [longAndFresh, List.mem_cons, List.not_mem_nil, or_false] at member
  rcases member with rfl | rfl
  · have small : p = 0 ∨ p = 1 ∨ p = 2 := by
      simp only at cached
      omega
    rcases small with rfl | rfl | rfl
    · exact ⟨1, rfl, by decide⟩
    · exact ⟨1, rfl, by decide⟩
    · exact ⟨0, rfl, by decide⟩
  · exact absurd cached (Nat.not_lt_zero p)

end MLAAttention

end LeanVllm
