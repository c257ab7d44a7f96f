import LeanVllm.Attention.Context
import LeanVllm.Collections.Pages
import LeanVllm.Numeric.Softmax
import Mathlib.Logic.Equiv.Fin.Basic
import Mathlib.LinearAlgebra.Matrix.DotProduct

/-!
# The reference backend

`TorchAttention`: packed rows are padded to one length, keys are gathered from the
pages or padded too, query heads that share a key head are folded into one longer
query axis, and a mask hides what a query may not see.  A tensor's token axes are
lists, its head and feature axes functions; an index outside a tensor is `none`.
-/

namespace LeanVllm

open Collections Numeric

/-- A token's vectors, one per head. -/
abbrev Heads (numHeads dim : Nat) : Type :=
  Fin numHeads → Fin dim → ℝ

namespace TorchAttention

variable {α : Type*} {numKvHeads group headDim vDim : Nat}

/-! ## Rows -/

/-- `_pad_rows`.  Past a row's end are other tokens, for the mask to hide. -/
def padRows (x : List α) (cuSeqlens : List Nat) (maxSeqlen : Nat) : Option (List (List α)) :=
  cuSeqlens.dropLast.mapM fun start =>
    (List.range maxSeqlen).mapM fun j => x[min (start + j) (x.length - 1)]?

/-- `torch.searchsorted` with `right=True`. -/
def searchsortedRight (sorted : List Nat) (value : Nat) : Nat :=
  (sorted.takeWhile fun entry => entry ≤ value).length

/-- `_unpad_rows`: back to packed rows. -/
def unpadRows (x : List (List α)) (cuSeqlens : List Nat) (numTokens : Nat) : Option (List α) :=
  (List.range numTokens).mapM fun token =>
    let row := searchsortedRight cuSeqlens token - 1
    x[row]?.bind fun padded => padded[token - cuSeqlens.getD row 0]?

/-- `_gather_pages`: each row's cached tokens, with unused slots zeroed. -/
def gatherPages [Zero α] (cache : Pages α) (blockTables : List (List Int)) (seqlen : Nat)
    (seqlens : List Nat) : Option (List (List α)) :=
  let numBlocks := (seqlen + cache.blockSize - 1) / cache.blockSize
  (blockTables.zip seqlens).mapM fun row => do
    -- `clamp(min=0)`: padding reads page 0
    let pages ← (row.1.take numBlocks).mapM fun block => cache.blocks[block.toNat]?
    some ((pages.flatten.take seqlen).mapIdx fun p x => if row.2 ≤ p then 0 else x)

/-! ## Masks -/

/-- `_key_mask`: each row's own keys. -/
def keyMask (seqlensK : List Nat) (maxSeqlenK : Nat) : List (List Bool) :=
  seqlensK.map fun seqlen => (List.range maxSeqlenK).map fun p => p < seqlen

/-- A row's keys, cut after each query's own position. -/
def causalRow (keys : List Bool) (first : Int) (numQueries : Nat) : List (List Bool) :=
  (List.range numQueries).map fun (j : Nat) =>
    keys.mapIdx fun p key => key && decide ((p : Int) ≤ first + j)

/-- `_mask` with `causal=True`, aligned at the bottom right: query `j` of a row sits at
position `lk - lq + j`. -/
def mask (cuSeqlensQ cuSeqlensK : List Nat) (maxSeqlenQ maxSeqlenK : Nat) :
    List (List (List Bool)) :=
  let seqlensQ := AttentionContext.steps cuSeqlensQ
  let seqlensK := AttentionContext.steps cuSeqlensK
  List.zipWith (fun keys (lens : Nat × Nat) =>
      causalRow keys ((lens.2 : Int) - (lens.1 : Int)) maxSeqlenQ)
    (keyMask seqlensK maxSeqlenK) (seqlensQ.zip seqlensK)

/-! ## Attention -/

/-- `F.scaled_dot_product_attention`, for one row of the batch and one head. -/
noncomputable def scaledDotProductAttention (scale : ℝ) (q k : List (Fin headDim → ℝ))
    (v : List (Fin vDim → ℝ)) (mask : List (List Bool)) : List (Fin vDim → ℝ) :=
  List.zipWith (fun query visible => maskedAverage visible
    (List.zipWith (fun key value => (dotProduct query key * scale, value)) k v)) q mask

/-- `_sdpa` for one row: query heads that share a key head are packed into one longer
query sequence.  Query head `h` uses key head `h // group`. -/
noncomputable def sdpaRow (scale : ℝ) (q : List (Heads (numKvHeads * group) headDim))
    (k : List (Heads numKvHeads headDim)) (v : List (Heads numKvHeads vDim))
    (mask : List (List Bool)) : List (Heads (numKvHeads * group) vDim) :=
  let lq := q.length
  let packed := fun kvHead : Fin numKvHeads => (List.finRange group).flatMap fun g =>
    q.map fun token => token (finProdFinEquiv (kvHead, g))
  let repeated := (List.finRange group).flatMap fun _ => mask
  let o := fun kvHead : Fin numKvHeads => scaledDotProductAttention scale (packed kvHead)
    (k.map fun token => token kvHead) (v.map fun token => token kvHead) repeated
  (List.range lq).map fun j h => (o h.divNat).getD (h.modNat * lq + j) 0

/-- `_sdpa`. -/
noncomputable def sdpa (scale : ℝ) (q : List (List (Heads (numKvHeads * group) headDim)))
    (k : List (List (Heads numKvHeads headDim))) (v : List (List (Heads numKvHeads vDim)))
    (mask : List (List (List Bool))) : List (List (Heads (numKvHeads * group) vDim)) :=
  ((q.zip mask).zip (k.zip v)).map fun row =>
    sdpaRow scale row.1.1 row.2.1 row.2.2 row.1.2

/-- `prefill`: causal attention over packed rows.  With block tables every key is read
back from the pages. -/
noncomputable def prefill (scale : ℝ) (q : List (Heads (numKvHeads * group) headDim))
    (k : List (Heads numKvHeads headDim)) (v : List (Heads numKvHeads vDim))
    (kCache : Pages (Heads numKvHeads headDim)) (vCache : Pages (Heads numKvHeads vDim))
    (context : AttentionContext) : Option (List (Heads (numKvHeads * group) vDim)) := do
  let qPad ← padRows q context.cuSeqlensQ context.maxSeqlenQ
  let seqlensK := AttentionContext.steps context.cuSeqlensK
  let kPad ← match context.blockTables with
    | some tables => gatherPages kCache tables context.maxSeqlenK seqlensK
    | none => padRows k context.cuSeqlensK context.maxSeqlenK
  let vPad ← match context.blockTables with
    | some tables => gatherPages vCache tables context.maxSeqlenK seqlensK
    | none => padRows v context.cuSeqlensK context.maxSeqlenK
  let mask := mask context.cuSeqlensQ context.cuSeqlensK context.maxSeqlenQ context.maxSeqlenK
  unpadRows (sdpa scale qPad kPad vPad mask) context.cuSeqlensQ q.length

/-- The width of a padded table. -/
def tableWidth (tables : List (List Int)) : Nat :=
  (tables.headD []).length

/-- `decode`: one query a row, over all of the row's keys. -/
noncomputable def decode (scale : ℝ) (q : List (Heads (numKvHeads * group) headDim))
    (kCache : Pages (Heads numKvHeads headDim)) (vCache : Pages (Heads numKvHeads vDim))
    (context : AttentionContext) : Option (List (Heads (numKvHeads * group) vDim)) := do
  let tables ← context.blockTables
  -- the table's width, so no length is read back
  let maxSeqlenK := tableWidth tables * kCache.blockSize
  let k ← gatherPages kCache tables maxSeqlenK context.contextLens
  let v ← gatherPages vCache tables maxSeqlenK context.contextLens
  let mask := (keyMask context.contextLens maxSeqlenK).map fun keys => [keys]
  (sdpa scale (q.map fun token => [token]) k v mask).mapM fun row => row[0]?

/-! ## What the rows hold -/

section Rows

variable {ρ : Type*} {rows : List ρ}

theorem takeWhile_cumsum {lens : List Nat} {r o : Nat} (inside : r < lens.length)
    (within : o < lens.getD r 0) :
    searchsortedRight (cumsum lens) ((cumsum lens).getD r 0 + o) = r + 1 := by
  have start := getD_cumsum (Nat.le_of_lt inside)
  have stop := getD_cumsum_succ inside
  have long : r + 1 < (cumsum lens).length := by
    rw [length_cumsum]
    omega
  have first : ∀ entry ∈ (cumsum lens).take (r + 1),
      entry ≤ (cumsum lens).getD r 0 + o := by
    intro entry member
    obtain ⟨k, small, rfl⟩ := List.mem_iff_getElem.mp member
    rw [List.length_take] at small
    have earlier : (lens.take k).sum ≤ (lens.take r).sum := by
      have further : r = k + (r - k) := by omega
      rw [further, List.take_add, List.sum_append]
      exact Nat.le_add_right _ _
    simp only [List.getElem_take, cumsum, List.getElem_map, List.getElem_range]
    simp only [cumsum] at start
    omega
  have next : (cumsum lens).drop (r + 1) = (cumsum lens)[r + 1] :: (cumsum lens).drop (r + 2) :=
    List.drop_eq_getElem_cons long
  have past : ¬ (cumsum lens)[r + 1] ≤ (cumsum lens).getD r 0 + o := by
    have entry : (cumsum lens)[r + 1] = (cumsum lens).getD (r + 1) 0 := by
      simp [List.getD_eq_getElem?_getD, long]
    omega
  rw [searchsortedRight]
  conv_lhs => rw [← List.take_append_drop (r + 1) (cumsum lens)]
  rw [List.takeWhile_append_of_pos (by simpa using first), next,
    List.takeWhile_cons_of_neg (by simpa using past), List.append_nil, List.length_take]
  omega

/-- `_unpad_rows` takes each row's own entries back. -/
theorem unpadRows_eq {padded : ρ → List α} {len : ρ → Nat}
    (long : ∀ row ∈ rows, len row ≤ (padded row).length) :
    unpadRows (rows.map padded) (cumsum (rows.map len)) (rows.map len).sum =
      some (rows.flatMap fun row => (padded row).take (len row)) := by
  have lens : rows.map (fun row => ((padded row).take (len row)).length) = rows.map len := by
    apply List.map_congr_left
    intro row member
    rw [List.length_take]
    exact Nat.min_eq_left (long row member)
  apply mapM_range_eq
  · rw [List.length_flatMap, lens]
  · intro token inside
    rw [← List.mem_range, ← flatMap_positions, List.mem_flatMap] at inside
    obtain ⟨r, small, own⟩ := inside
    obtain ⟨o, within, rfl⟩ := List.mem_map.mp own
    have below := List.mem_range.mp within
    have inRows := List.mem_range.mp small
    rw [List.length_map] at inRows
    have row := List.getElem?_eq_getElem inRows
    have width : (rows.map len).getD r 0 = len rows[r] := by
      simp [List.getD_eq_getElem?_getD, inRows]
    have entry := getElem?_flatMap rows (fun row => (padded row).take (len row)) row
      (o := o) (by
        rw [List.length_take]
        have := long _ (List.getElem_mem inRows)
        omega)
    rw [lens] at entry
    simp only [takeWhile_cumsum (by simpa using inRows) below, Nat.add_sub_cancel,
      Nat.add_sub_cancel_left]
    rw [entry, List.getElem?_map, row, Option.map_some, Option.bind_some,
      List.getElem?_take_of_lt (by omega)]

/-- `_pad_rows` holds each row first. -/
theorem padRows_eq {content : ρ → List α} {maxSeqlen : Nat}
    (some : 0 < maxSeqlen → rows ≠ [] → rows.flatMap content ≠ []) :
    ∃ padded, padRows (rows.flatMap content)
        (cumsum (rows.map fun row => (content row).length)) maxSeqlen = Option.some padded ∧
      padded.length = rows.length ∧
      ∀ (r : Nat) (row : ρ), rows[r]? = Option.some row → ∃ entries,
        padded[r]? = Option.some entries ∧ entries.length = maxSeqlen ∧
        ∀ o < (content row).length, o < maxSeqlen → entries[o]? = (content row)[o]? := by
  by_cases empty : rows = []
  · subst empty
    exact ⟨[], rfl, rfl, fun r row found => by simp at found⟩
  have each : ∀ start, ∃ entries, (List.range maxSeqlen).mapM (fun j =>
      (rows.flatMap content)[min (start + j) ((rows.flatMap content).length - 1)]?) =
        Option.some entries ∧ entries.length = maxSeqlen ∧
      ∀ j < maxSeqlen, entries[j]? =
        (rows.flatMap content)[min (start + j) ((rows.flatMap content).length - 1)]? := by
    intro start
    cases packed : rows.flatMap content with
    | nil =>
        have none : maxSeqlen = 0 := by
          by_contra long
          exact some (Nat.pos_of_ne_zero long) empty packed
        subst none
        exact ⟨[], rfl, rfl, fun j inside => absurd inside (Nat.not_lt_zero j)⟩
    | cons first rest =>
        have inside : ∀ j, (first :: rest)[min (start + j) ((first :: rest).length - 1)]? =
            Option.some ((first :: rest).getD (min (start + j) rest.length) first) := by
          intro j
          have small : min (start + j) rest.length < (first :: rest).length := by
            rw [List.length_cons]
            omega
          rw [List.getD_eq_getElem?_getD, List.length_cons, Nat.add_sub_cancel,
            List.getElem?_eq_getElem small, Option.getD_some]
        refine ⟨_, mapM_eq_some fun j _ => inside j, by simp, ?_⟩
        intro j small
        rw [List.getElem?_map, List.getElem?_range small, inside j]
        rfl
  choose entries read length entry using each
  refine ⟨_, mapM_eq_some fun start _ => read start, by simp [length_cumsum], ?_⟩
  intro r row found
  have small := (List.getElem?_eq_some_iff.mp found).1
  have start : (cumsum (rows.map fun row => (content row).length)).dropLast[r]? =
      Option.some ((cumsum (rows.map fun row => (content row).length)).getD r 0) := by
    rw [List.getElem?_dropLast, if_pos (by simpa [length_cumsum] using small),
      List.getD_eq_getElem?_getD, List.getElem?_eq_getElem (by
        rw [length_cumsum, List.length_map]
        omega), Option.getD_some]
  refine ⟨_, by rw [List.getElem?_map, start]; rfl, length _, ?_⟩
  intro o within below
  have own := getElem?_flatMap rows content found within
  have inside := (List.getElem?_eq_some_iff.mp
    (own.trans (List.getElem?_eq_getElem within))).1
  rw [entry _ o below, Nat.min_eq_left (by omega), own]

end Rows

/-! ## What the pages hold -/

section Pages

variable {cache : Pages α}

/-- Tables that can be read up to a length: wide enough, with blocks the cache has. -/
structure Readable (cache : Pages α) (tables : List (List Int)) (seqlen : Nat) : Prop where
  wide : ∀ table ∈ tables, seqlen ≤ table.length * cache.blockSize
  blocks : ∀ table ∈ tables, ∀ block ∈ table, block.toNat < cache.blocks.length

theorem Readable.blockSize_pos {tables : List (List Int)} {seqlen : Nat}
    (readable : Readable cache tables seqlen) {table : List Int} (member : table ∈ tables)
    (some : 0 < seqlen) : 0 < cache.blockSize := by
  have wide := readable.wide table member
  by_contra none
  rw [Nat.eq_zero_of_not_pos none, Nat.mul_zero] at wide
  omega

variable [Zero α]

/-- The cached token at a position of a row. -/
def cachedAt (cache : Pages α) (table : List Int) (p : Nat) : α :=
  (cache.read (table.getD (p / cache.blockSize) 0).toNat (p % cache.blockSize)).getD 0

/-- The pages of one row, end to end. -/
theorem Readable.flatten_take {tables : List (List Int)} {seqlen : Nat}
    (readable : Readable cache tables seqlen) {table : List Int} (member : table ∈ tables) :
    ((table.take ((seqlen + cache.blockSize - 1) / cache.blockSize)).mapM fun block =>
        cache.blocks[block.toNat]?).map (fun pages => pages.flatten.take seqlen) =
      some ((List.range seqlen).map (cachedAt cache table)) := by
  have found : ∀ block ∈ table, cache.blocks[block.toNat]? =
      some (cache.blocks.getD block.toNat []) := by
    intro block among
    simp [List.getD_eq_getElem?_getD, readable.blocks table member block among]
  rw [mapM_eq_some fun block among => found block (List.mem_of_mem_take among), Option.map_some]
  refine congrArg some (List.ext_getElem? fun p => ?_)
  by_cases inside : p < seqlen
  · have size := readable.blockSize_pos member (Nat.zero_lt_of_lt inside)
    have wide := readable.wide table member
    have uniform : ∀ page ∈ (table.take ((seqlen + cache.blockSize - 1) / cache.blockSize)).map
        (fun block => cache.blocks.getD block.toNat []), page.length = cache.blockSize := by
      intro page among
      obtain ⟨block, own, rfl⟩ := List.mem_map.mp among
      exact cache.uniform _ (List.mem_of_getElem? (found block (List.mem_of_mem_take own)))
    have split : p = p / cache.blockSize * cache.blockSize + p % cache.blockSize := by
      rw [Nat.mul_comm]
      exact (Nat.div_add_mod p cache.blockSize).symm
    have inTable : p / cache.blockSize < table.length := by
      apply Nat.div_lt_of_lt_mul
      rw [Nat.mul_comm]
      omega
    have inTaken : p / cache.blockSize < (seqlen + cache.blockSize - 1) / cache.blockSize := by
      have lower := Nat.div_mul_le_self p cache.blockSize
      apply (Nat.le_div_iff_mul_le size).mpr
      rw [Nat.succ_mul]
      omega
    rw [List.getElem?_take_of_lt inside, List.getElem?_map, List.getElem?_range inside,
      Option.map_some]
    conv_lhs => rw [split]
    rw [getElem?_flatten_uniform uniform _ (Nat.mod_lt _ size), List.getElem?_map,
      List.getElem?_take_of_lt inTaken, List.getElem?_eq_getElem inTable]
    have page := found table[p / cache.blockSize] (List.getElem_mem inTable)
    have len := cache.uniform _ (List.mem_of_getElem? page)
    have entry : (cache.blocks.getD table[p / cache.blockSize].toNat [])[p % cache.blockSize]? =
        some _ := List.getElem?_eq_getElem (len.symm ▸ Nat.mod_lt p size)
    have own : table.getD (p / cache.blockSize) 0 = table[p / cache.blockSize] := by
      simp [List.getD_eq_getElem?_getD, inTable]
    rw [Option.map_some, Option.bind_some, cachedAt, Pages.read, own, page, Option.bind_some,
      entry, Option.getD_some]
  · rw [List.getElem?_eq_none (by rw [List.length_take]; omega),
      List.getElem?_eq_none (by simpa using inside)]

/-- `_gather_pages` row by row. -/
theorem Readable.gatherPages_eq {tables : List (List Int)} {seqlen : Nat}
    (readable : Readable cache tables seqlen) (seqlens : List Nat) :
    gatherPages cache tables seqlen seqlens =
      some ((tables.zip seqlens).map fun row => (List.range seqlen).map fun p =>
        if row.2 ≤ p then 0 else cachedAt cache row.1 p) := by
  apply mapM_eq_some
  intro row member
  have gathered := readable.flatten_take (List.of_mem_zip member).1
  obtain ⟨pages, read, taken⟩ := Option.map_eq_some_iff.mp gathered
  simp only [read, Option.bind_eq_bind, Option.bind_some, taken]
  refine congrArg some (List.ext_getElem? fun p => ?_)
  by_cases inside : p < seqlen <;> simp [inside]

end Pages

/-! ## What attention computes -/

theorem getElem?_flatMap_finRange {β : Type*} {n width : Nat} (content : Fin n → List β)
    (uniform : ∀ g, (content g).length = width) (g : Fin n) {j : Nat} (inside : j < width) :
    ((List.finRange n).flatMap content)[g * width + j]? = (content g)[j]? := by
  have rows : ∀ row ∈ (List.finRange n).map content, row.length = width := by
    intro row member
    obtain ⟨g, _, rfl⟩ := List.mem_map.mp member
    exact uniform g
  rw [List.flatMap_def, getElem?_flatten_uniform rows _ inside, List.getElem?_map]
  simp

/-- Folding the query heads and unfolding them leaves attention head by head. -/
theorem sdpaRow_eq (scale : ℝ) (q : List (Heads (numKvHeads * group) headDim))
    (k : List (Heads numKvHeads headDim)) (v : List (Heads numKvHeads vDim))
    {mask : List (List Bool)} (same : mask.length = q.length) :
    sdpaRow scale q k v mask = List.zipWith (fun token visible h => maskedAverage visible
      (List.zipWith (fun key value => (dotProduct (token h) key * scale, value))
        (k.map fun token => token h.divNat) (v.map fun token => token h.divNat))) q mask := by
  apply List.ext_getElem
  · simp [sdpaRow, same]
  · intro j small _
    have inside : j < q.length := by simpa [sdpaRow] using small
    have visible : j < mask.length := by omega
    simp only [sdpaRow, List.getElem_map, List.getElem_range, List.getElem_zipWith]
    funext h
    have query : ((List.finRange group).flatMap fun g =>
        q.map fun token => token (finProdFinEquiv (h.divNat, g)))[(h.modNat : Nat) * q.length + j]? =
        some (q[j] h) := by
      rw [getElem?_flatMap_finRange (fun g => q.map fun token =>
        token (finProdFinEquiv (h.divNat, g))) (fun g => by simp) h.modNat inside, List.getElem?_map,
        List.getElem?_eq_getElem inside, Option.map_some]
      exact congrArg (fun head => some (q[j] head)) (finProdFinEquiv.apply_symm_apply h)
    have shown : ((List.finRange group).flatMap fun _ => mask)[(h.modNat : Nat) * q.length + j]? =
        some mask[j] := by
      rw [getElem?_flatMap_finRange (fun _ => mask) (fun _ => same) h.modNat inside,
        List.getElem?_eq_getElem visible]
    rw [scaledDotProductAttention, List.getD_eq_getElem?_getD, List.getElem?_zipWith, query, shown,
      Option.getD_some]

/-- A query that sees the positions before the `t`-th, among padded keys. -/
theorem maskedAverage_keys {n t : Nat} {visible : Nat → Bool} (bound : t ≤ n)
    (exact : ∀ p < n, visible p = true ↔ p < t) {key key' : Nat → Fin headDim → ℝ}
    {value value' : Nat → Fin vDim → ℝ} (sameKey : ∀ p < t, key' p = key p)
    (sameValue : ∀ p < t, value' p = value p) (query : Fin headDim → ℝ) (scale : ℝ) :
    maskedAverage ((List.range n).map visible) (List.zipWith (fun key value =>
        (dotProduct query key * scale, value)) ((List.range n).map key')
        ((List.range n).map value')) =
      average ((List.range t).map fun p => (dotProduct query (key p) * scale, value p)) := by
  rw [List.zipWith_map, List.zipWith_self, maskedAverage_range _ bound exact]
  refine congrArg average (List.map_congr_left ?_)
  intro p member
  have small := List.mem_range.mp member
  rw [sameKey p small, sameValue p small]

/-- The keys a causal mask shows to query `j` of a row. -/
theorem causalRow_eq (seqlenK numQueries maxSeqlenK maxSeqlenQ : Nat) :
    causalRow ((List.range maxSeqlenK).map fun p => decide (p < seqlenK))
        ((seqlenK : Int) - numQueries) maxSeqlenQ =
      (List.range maxSeqlenQ).map fun (j : Nat) => (List.range maxSeqlenK).map fun p =>
        decide (p < seqlenK) && decide ((p : Int) ≤ (seqlenK : Int) - numQueries + j) := by
  apply List.map_congr_left
  intro j _
  apply List.ext_getElem <;> simp

theorem visible_iff {seqlenK numQueries j : Nat} (causal : numQueries ≤ seqlenK)
    (inside : j < numQueries) (p : Nat) :
    (decide (p < seqlenK) && decide ((p : Int) ≤ (seqlenK : Int) - numQueries + j)) = true ↔
      p < seqlenK - numQueries + j + 1 := by
  simp only [Bool.and_eq_true, decide_eq_true_eq]
  omega

/-- Causal attention of one row, whose queries stand at its last positions: a query sees
the positions up to its own, and query head `h` reads key head `h // group`. -/
noncomputable def rowAttention (scale : ℝ) (queries : List (Heads (numKvHeads * group) headDim))
    (seqlenK : Nat) (key : Nat → Heads numKvHeads headDim) (value : Nat → Heads numKvHeads vDim) :
    List (Heads (numKvHeads * group) vDim) :=
  queries.mapIdx fun j token h =>
    average ((List.range (seqlenK - queries.length + j + 1)).map fun p =>
      (dotProduct (token h) (key p h.divNat) * scale, value p h.divNat))

@[simp]
theorem length_rowAttention (scale : ℝ) (queries : List (Heads (numKvHeads * group) headDim))
    (seqlenK : Nat) (key : Nat → Heads numKvHeads headDim) (value : Nat → Heads numKvHeads vDim) :
    (rowAttention scale queries seqlenK key value).length = queries.length := by
  simp [rowAttention]

section Row

variable {scale : ℝ} {queries padded : List (Heads (numKvHeads * group) headDim)}
  {seqlenK maxSeqlenK : Nat} {key key' : Nat → Heads numKvHeads headDim}
  {value value' : Nat → Heads numKvHeads vDim}

/-- Attention over a padded row, at the row's own queries. -/
theorem sdpaRow_causal (long : queries.length ≤ padded.length)
    (own : ∀ o < queries.length, padded[o]? = queries[o]?) (fits : seqlenK ≤ maxSeqlenK)
    (causal : queries.length ≤ seqlenK) (sameKey : ∀ p < seqlenK, key' p = key p)
    (sameValue : ∀ p < seqlenK, value' p = value p) :
    (sdpaRow scale padded ((List.range maxSeqlenK).map key') ((List.range maxSeqlenK).map value')
        (causalRow ((List.range maxSeqlenK).map fun p => decide (p < seqlenK))
          ((seqlenK : Int) - queries.length) padded.length)).take queries.length =
      rowAttention scale queries seqlenK key value := by
  rw [causalRow_eq, sdpaRow_eq _ _ _ _ (by simp)]
  apply List.ext_getElem
  · simp [long]
  · intro j _ inside
    rw [length_rowAttention] at inside
    have small : j < padded.length := by omega
    have query : padded[j] = queries[j] := by
      have same := own j inside
      rwa [List.getElem?_eq_getElem small, List.getElem?_eq_getElem inside,
        Option.some.injEq] at same
    simp only [List.getElem_take, List.getElem_zipWith, List.getElem_map, List.getElem_range,
      rowAttention, List.getElem_mapIdx, query, List.map_map]
    funext h
    exact maskedAverage_keys (by omega) (fun p _ => visible_iff causal inside p)
      (fun p small => congrFun (sameKey p (by omega)) h.divNat)
      (fun p small => congrFun (sameValue p (by omega)) h.divNat) (queries[j] h) scale

/-- One query at the end of its row sees every key of the row. -/
theorem rowAttention_one (token : Heads (numKvHeads * group) headDim) (positive : 0 < seqlenK) :
    rowAttention scale [token] seqlenK key value = [fun h => average
      ((List.range seqlenK).map fun p =>
        (dotProduct (token h) (key p h.divNat) * scale, value p h.divNat))] := by
  simp [rowAttention, Nat.sub_add_cancel positive]

theorem sdpaRow_one (token : Heads (numKvHeads * group) headDim) (positive : 0 < seqlenK)
    (fits : seqlenK ≤ maxSeqlenK) (sameKey : ∀ p < seqlenK, key' p = key p)
    (sameValue : ∀ p < seqlenK, value' p = value p) :
    sdpaRow scale [token] ((List.range maxSeqlenK).map key') ((List.range maxSeqlenK).map value')
        [(List.range maxSeqlenK).map fun p => decide (p < seqlenK)] =
      rowAttention scale [token] seqlenK key value := by
  rw [sdpaRow_eq _ _ _ _ rfl, rowAttention_one token positive]
  simp only [List.zipWith_cons_cons, List.zipWith_nil_left, List.cons.injEq, and_true,
    List.map_map]
  funext h
  exact maskedAverage_keys fits (by simp) (fun p small => congrFun (sameKey p small) h.divNat)
    (fun p small => congrFun (sameValue p small) h.divNat) (token h) scale

end Row

/-! ## Whole batches -/

/-- A context of rows, each with its queries and its number of keys: the running totals
are those of the rows, and the longest lengths bound theirs. -/
structure Serves {ρ : Type*} (context : AttentionContext) (rows : List ρ)
    (queries : ρ → List α) (seqlenK : ρ → Nat) : Prop where
  cuSeqlensQ : context.cuSeqlensQ = cumsum (rows.map fun row => (queries row).length)
  cuSeqlensK : context.cuSeqlensK = cumsum (rows.map seqlenK)
  queries_le : ∀ row ∈ rows, (queries row).length ≤ context.maxSeqlenQ
  keys_le : ∀ row ∈ rows, seqlenK row ≤ context.maxSeqlenK
  filled : 0 < context.maxSeqlenQ → rows ≠ [] → rows.flatMap queries ≠ []
  causal : ∀ row ∈ rows, (queries row).length ≤ seqlenK row

section Batch

variable {ρ : Type*} {rows : List ρ} {context : AttentionContext} {scale : ℝ}
  {queries : ρ → List (Heads (numKvHeads * group) headDim)} {seqlenK : ρ → Nat}
  {kCache : Pages (Heads numKvHeads headDim)} {vCache : Pages (Heads numKvHeads vDim)}

theorem map_zip_fst {β γ : Type*} {others : List β} (same : others.length = rows.length)
    (f : ρ → γ) : ((rows.zip others).map fun entry => f entry.1) = rows.map f := by
  conv_rhs => rw [← List.map_fst_zip (Nat.le_of_eq same.symm), List.map_map]
  rfl

theorem flatMap_zip_fst {β γ : Type*} {others : List β} (same : others.length = rows.length)
    (f : ρ → List γ) : ((rows.zip others).flatMap fun entry => f entry.1) = rows.flatMap f := by
  conv_rhs => rw [← List.map_fst_zip (Nat.le_of_eq same.symm), List.flatMap_map]

/-- Rows may carry something along. -/
theorem Serves.zip {β : Type*} {others : List β} (serves : Serves context rows queries seqlenK)
    (same : others.length = rows.length) :
    Serves context (rows.zip others) (fun entry => queries entry.1)
      fun entry => seqlenK entry.1 where
  cuSeqlensQ := by rw [map_zip_fst same fun row => (queries row).length, serves.cuSeqlensQ]
  cuSeqlensK := by rw [map_zip_fst same seqlenK, serves.cuSeqlensK]
  queries_le entry member := serves.queries_le _ (List.of_mem_zip member).1
  keys_le entry member := serves.keys_le _ (List.of_mem_zip member).1
  filled long some := by
    rw [flatMap_zip_fst same queries]
    refine serves.filled long ?_
    rintro rfl
    exact some rfl
  causal entry member := serves.causal _ (List.of_mem_zip member).1

theorem Serves.mask_eq (serves : Serves context rows queries seqlenK) :
    mask context.cuSeqlensQ context.cuSeqlensK context.maxSeqlenQ context.maxSeqlenK =
      rows.map fun row => causalRow
        ((List.range context.maxSeqlenK).map fun p => decide (p < seqlenK row))
        ((seqlenK row : Int) - (queries row).length) context.maxSeqlenQ := by
  rw [mask, serves.cuSeqlensQ, serves.cuSeqlensK, AttentionContext.steps_cumsum,
    AttentionContext.steps_cumsum, keyMask, List.map_map, List.zip_map', List.zipWith_map,
    List.zipWith_self]
  rfl

/-- Padding the queries, attending over rows of keys and unpadding leaves the attention
of each row. -/
theorem Serves.attend_eq (serves : Serves context rows queries seqlenK) (scale : ℝ)
    (key key' : ρ → Nat → Heads numKvHeads headDim) (value value' : ρ → Nat → Heads numKvHeads vDim)
    (sameKey : ∀ row ∈ rows, ∀ p < seqlenK row, key' row p = key row p)
    (sameValue : ∀ row ∈ rows, ∀ p < seqlenK row, value' row p = value row p) :
    ((padRows (rows.flatMap queries) context.cuSeqlensQ context.maxSeqlenQ).bind fun qPad =>
        unpadRows (sdpa scale qPad
            (rows.map fun row => (List.range context.maxSeqlenK).map (key' row))
            (rows.map fun row => (List.range context.maxSeqlenK).map (value' row))
            (mask context.cuSeqlensQ context.cuSeqlensK context.maxSeqlenQ context.maxSeqlenK))
          context.cuSeqlensQ (rows.flatMap queries).length) =
      some (rows.flatMap fun row =>
        rowAttention scale (queries row) (seqlenK row) (key row) (value row)) := by
  obtain ⟨qPad, padded, length, entries⟩ := padRows_eq serves.filled
  rw [serves.cuSeqlensQ, padded, Option.bind_some, ← serves.cuSeqlensQ, serves.mask_eq]
  let attended := fun entry : ρ × List (Heads (numKvHeads * group) headDim) =>
    sdpaRow scale entry.2 ((List.range context.maxSeqlenK).map (key' entry.1))
      ((List.range context.maxSeqlenK).map (value' entry.1)) (causalRow
        ((List.range context.maxSeqlenK).map fun p => decide (p < seqlenK entry.1))
        ((seqlenK entry.1 : Int) - (queries entry.1).length) context.maxSeqlenQ)
  have rowsEq : sdpa scale qPad (rows.map fun row => (List.range context.maxSeqlenK).map (key' row))
      (rows.map fun row => (List.range context.maxSeqlenK).map (value' row))
      (rows.map fun row => causalRow
        ((List.range context.maxSeqlenK).map fun p => decide (p < seqlenK row))
        ((seqlenK row : Int) - (queries row).length) context.maxSeqlenQ) =
      (rows.zip qPad).map attended := by
    apply List.ext_getElem
    · simp [sdpa, length]
    · intro r _ _
      simp [sdpa, attended]
  have zipped : (rows.zip qPad).map (fun entry => (queries entry.1).length) =
      rows.map fun row => (queries row).length :=
    map_zip_fst length fun row => (queries row).length
  have own : ∀ entry ∈ rows.zip qPad, entry.1 ∈ rows ∧ entry.2.length = context.maxSeqlenQ ∧
      ∀ o < (queries entry.1).length, entry.2[o]? = (queries entry.1)[o]? := by
    intro entry member
    obtain ⟨r, found⟩ := List.mem_iff_getElem?.mp member
    obtain ⟨row, pad⟩ := List.getElem?_zip_eq_some.mp found
    obtain ⟨_, there, width, same⟩ := entries r entry.1 row
    obtain rfl := Option.some.inj (pad.symm.trans there)
    have among := List.mem_of_getElem? row
    exact ⟨among, width, fun o inside =>
      same o inside (Nat.lt_of_lt_of_le inside (serves.queries_le _ among))⟩
  have taken : ∀ entry ∈ rows.zip qPad, (attended entry).take (queries entry.1).length =
      rowAttention scale (queries entry.1) (seqlenK entry.1) (key entry.1) (value entry.1) := by
    intro entry member
    obtain ⟨among, width, same⟩ := own entry member
    simp only [attended, ← width]
    exact sdpaRow_causal (width ▸ serves.queries_le _ among) same (serves.keys_le _ among)
      (serves.causal _ among) (sameKey _ among) (sameValue _ among)
  have total : (rows.flatMap queries).length =
      ((rows.zip qPad).map fun entry => (queries entry.1).length).sum := by
    rw [zipped, List.length_flatMap]
  rw [rowsEq, serves.cuSeqlensQ, total, ← zipped, unpadRows_eq]
  · rw [List.flatMap_congr taken, flatMap_zip_fst length fun row =>
      rowAttention scale (queries row) (seqlenK row) (key row) (value row)]
  · intro entry member
    obtain ⟨among, width, _⟩ := own entry member
    simp only [attended, sdpaRow, List.length_map, List.length_range, width]
    exact serves.queries_le _ among

/-- `prefill` over pages: each row attends its own positions. -/
theorem Serves.prefill_paged (serves : Serves context rows queries seqlenK)
    {table : ρ → List Int} (tables : context.blockTables = some (rows.map table))
    (keys : Readable kCache (rows.map table) context.maxSeqlenK)
    (values : Readable vCache (rows.map table) context.maxSeqlenK)
    (k : List (Heads numKvHeads headDim)) (v : List (Heads numKvHeads vDim)) :
    prefill scale (rows.flatMap queries) k v kCache vCache context =
      some (rows.flatMap fun row => rowAttention scale (queries row) (seqlenK row)
        (cachedAt kCache (table row)) (cachedAt vCache (table row))) := by
  have seqlens : AttentionContext.steps context.cuSeqlensK = rows.map seqlenK := by
    rw [serves.cuSeqlensK, AttentionContext.steps_cumsum]
  simp only [prefill, tables, seqlens, keys.gatherPages_eq, values.gatherPages_eq,
    Option.bind_eq_bind, Option.bind_some, List.zip_map', List.map_map]
  exact serves.attend_eq scale _ _ _ _ (fun row _ p inside => if_neg (Nat.not_le.mpr inside))
    (fun row _ p inside => if_neg (Nat.not_le.mpr inside))

/-- Padded rows of keys, as rows of positions. -/
theorem padRows_positions {β : Type*} {content : ρ → List β} {maxSeqlen : Nat} (other : β)
    (filled : 0 < maxSeqlen → rows ≠ [] → rows.flatMap content ≠ []) :
    ∃ padded, padRows (rows.flatMap content)
        (cumsum (rows.map fun row => (content row).length)) maxSeqlen = some padded ∧
      padded.length = rows.length ∧
      (∀ entries ∈ padded, (List.range maxSeqlen).map (fun p => entries.getD p other) = entries) ∧
      ∀ entry ∈ rows.zip padded, ∀ p < (content entry.1).length, p < maxSeqlen →
        entry.2.getD p other = (content entry.1).getD p other := by
  obtain ⟨padded, computed, length, entries⟩ := padRows_eq filled
  refine ⟨padded, computed, length, ?_, ?_⟩
  · intro own member
    obtain ⟨r, found⟩ := List.mem_iff_getElem?.mp member
    have small : r < rows.length := length ▸ (List.getElem?_eq_some_iff.mp found).1
    obtain ⟨_, there, width, _⟩ := entries r _ (List.getElem?_eq_getElem small)
    obtain rfl := Option.some.inj (found.symm.trans there)
    rw [← width]
    exact map_getD_range _ _
  · intro entry member p inside small
    obtain ⟨r, found⟩ := List.mem_iff_getElem?.mp member
    obtain ⟨row, pad⟩ := List.getElem?_zip_eq_some.mp found
    obtain ⟨_, there, _, same⟩ := entries r entry.1 row
    obtain rfl := Option.some.inj (pad.symm.trans there)
    rw [List.getD_eq_getElem?_getD, List.getD_eq_getElem?_getD, same p inside small]

/-- `prefill` without pages: each row attends its own new keys. -/
theorem Serves.prefill_unpaged (serves : Serves context rows queries seqlenK)
    (unpaged : context.blockTables = none) {keys : ρ → List (Heads numKvHeads headDim)}
    {values : ρ → List (Heads numKvHeads vDim)}
    (keyed : ∀ row ∈ rows, (keys row).length = seqlenK row)
    (valued : ∀ row ∈ rows, (values row).length = seqlenK row)
    (filled : 0 < context.maxSeqlenK → rows ≠ [] → ∃ row ∈ rows, 0 < seqlenK row) :
    prefill scale (rows.flatMap queries) (rows.flatMap keys) (rows.flatMap values) kCache vCache
        context =
      some (rows.flatMap fun row => rowAttention scale (queries row) (seqlenK row)
        (fun p => (keys row).getD p 0) fun p => (values row).getD p 0) := by
  have some_of : ∀ {β : Type} {content : ρ → List β},
      (∀ row ∈ rows, (content row).length = seqlenK row) → 0 < context.maxSeqlenK → rows ≠ [] →
        rows.flatMap content ≠ [] := by
    intro β content counted long some
    obtain ⟨row, member, positive⟩ := filled long some
    intro none
    have empty := List.flatMap_eq_nil_iff.mp none row member
    rw [← counted row member, empty] at positive
    exact absurd positive (Nat.lt_irrefl 0)
  have keyLens : rows.map (fun row => (keys row).length) = rows.map seqlenK :=
    List.map_congr_left keyed
  have valueLens : rows.map (fun row => (values row).length) = rows.map seqlenK :=
    List.map_congr_left valued
  obtain ⟨kPad, kPadded, kLength, kRows, kSame⟩ :=
    padRows_positions (0 : Heads numKvHeads headDim) (some_of keyed)
  obtain ⟨vPad, vPadded, vLength, vRows, vSame⟩ :=
    padRows_positions (0 : Heads numKvHeads vDim) (some_of valued)
  rw [keyLens, ← serves.cuSeqlensK] at kPadded
  rw [valueLens, ← serves.cuSeqlensK] at vPadded
  simp only [prefill, unpaged, kPadded, vPadded, Option.bind_eq_bind, Option.bind_some]
  have same : (kPad.zip vPad).length = rows.length := by simp [kLength, vLength]
  have attended := (serves.zip same).attend_eq scale
    (fun entry p => (keys entry.1).getD p 0) (fun entry p => entry.2.1.getD p 0)
    (fun entry p => (values entry.1).getD p 0) (fun entry p => entry.2.2.getD p 0)
    (by
      intro entry member p inside
      obtain ⟨r, found⟩ := List.mem_iff_getElem?.mp member
      obtain ⟨row, pads⟩ := List.getElem?_zip_eq_some.mp found
      have among := List.mem_of_getElem? row
      refine kSame (entry.1, entry.2.1) ?_ p (by rwa [keyed _ among])
        (Nat.lt_of_lt_of_le inside (serves.keys_le _ among))
      exact List.mem_of_getElem? (List.getElem?_zip_eq_some.mpr
        ⟨row, (List.getElem?_zip_eq_some.mp pads).1⟩))
    (by
      intro entry member p inside
      obtain ⟨r, found⟩ := List.mem_iff_getElem?.mp member
      obtain ⟨row, pads⟩ := List.getElem?_zip_eq_some.mp found
      have among := List.mem_of_getElem? row
      refine vSame (entry.1, entry.2.2) ?_ p (by rwa [valued _ among])
        (Nat.lt_of_lt_of_le inside (serves.keys_le _ among))
      exact List.mem_of_getElem? (List.getElem?_zip_eq_some.mpr
        ⟨row, (List.getElem?_zip_eq_some.mp pads).2⟩))
  have kEq : ((rows.zip (kPad.zip vPad)).map fun entry =>
      (List.range context.maxSeqlenK).map fun p => entry.2.1.getD p 0) = kPad := by
    apply List.ext_getElem
    · simp [kLength, vLength]
    · intro r _ inside
      simp only [List.getElem_map, List.getElem_zip]
      exact kRows _ (List.getElem_mem inside)
  have vEq : ((rows.zip (kPad.zip vPad)).map fun entry =>
      (List.range context.maxSeqlenK).map fun p => entry.2.2.getD p 0) = vPad := by
    apply List.ext_getElem
    · simp [kLength, vLength]
    · intro r _ inside
      simp only [List.getElem_map, List.getElem_zip]
      exact vRows _ (List.getElem_mem inside)
  rw [kEq, vEq, flatMap_zip_fst same queries, flatMap_zip_fst same fun row =>
    rowAttention scale (queries row) (seqlenK row) (fun p => (keys row).getD p 0)
      fun p => (values row).getD p 0] at attended
  exact attended

/-- `decode`: each row's one query attends all of the row's positions. -/
theorem decode_eq {query : ρ → Heads (numKvHeads * group) headDim} {table : ρ → List Int}
    {width : Nat} (tables : context.blockTables = some (rows.map table))
    (lens : context.contextLens = rows.map seqlenK)
    (uniform : ∀ row ∈ rows, (table row).length = width)
    (positive : ∀ row ∈ rows, 0 < seqlenK row)
    (fits : ∀ row ∈ rows, seqlenK row ≤ width * kCache.blockSize)
    (keys : Readable kCache (rows.map table) (width * kCache.blockSize))
    (values : Readable vCache (rows.map table) (width * kCache.blockSize)) :
    decode scale (rows.map query) kCache vCache context =
      some (rows.flatMap fun row => rowAttention scale [query row] (seqlenK row)
        (cachedAt kCache (table row)) (cachedAt vCache (table row))) := by
  cases rows with
  | nil => simp [decode, tables, lens, gatherPages, keyMask, sdpa]
  | cons first rest =>
      have wide : tableWidth ((first :: rest).map table) = width :=
        uniform first List.mem_cons_self
      have attended : sdpa scale (((first :: rest).map query).map fun token => [token])
          ((((first :: rest).map table).zip ((first :: rest).map seqlenK)).map fun row =>
            (List.range (width * kCache.blockSize)).map fun p =>
              if row.2 ≤ p then 0 else cachedAt kCache row.1 p)
          ((((first :: rest).map table).zip ((first :: rest).map seqlenK)).map fun row =>
            (List.range (width * kCache.blockSize)).map fun p =>
              if row.2 ≤ p then 0 else cachedAt vCache row.1 p)
          ((keyMask ((first :: rest).map seqlenK) (width * kCache.blockSize)).map fun keys =>
            [keys]) =
          (first :: rest).map fun row => rowAttention scale [query row] (seqlenK row)
            (cachedAt kCache (table row)) (cachedAt vCache (table row)) := by
        simp only [sdpa, keyMask, List.zip_map', List.map_map]
        apply List.map_congr_left
        intro row member
        exact sdpaRow_one _ (positive row member) (fits row member)
          (fun p inside => if_neg (Nat.not_le.mpr inside))
          (fun p inside => if_neg (Nat.not_le.mpr inside))
      simp only [decode, tables, lens, wide, Option.bind_eq_bind, Option.bind_some,
        keys.gatherPages_eq, values.gatherPages_eq, attended]
      have heads : ∀ row ∈ first :: rest, rowAttention scale [query row] (seqlenK row)
          (cachedAt kCache (table row)) (cachedAt vCache (table row)) = [_] :=
        fun row member => rowAttention_one (query row) (positive row member)
      rw [List.mapM_map, mapM_eq_some fun row member => by
        rw [Function.comp_apply, heads row member]
        rfl, List.flatMap_congr heads, List.map_eq_flatMap]

end Batch

/-! ## Latents -/

section Latents

variable {numHeads rank rope : Nat}

/-- `mla_decode` for one row: every head attends the row's latents, whose first `rank`
entries are the values. -/
noncomputable def mlaRow (scale : ℝ) (q : List (Heads numHeads (rank + rope)))
    (latent : List (Fin (rank + rope) → ℝ)) (mask : List (List Bool)) : List (Heads numHeads rank) :=
  let o := fun head => scaledDotProductAttention scale (q.map fun token => token head) latent
    (latent.map fun token d => token (Fin.castAdd rope d)) mask
  (List.range q.length).map fun j head => (o head).getD j 0

/-- `mla_decode`. -/
noncomputable def mlaDecode (scale : ℝ) (q : List (Heads numHeads (rank + rope)))
    (latentCache : Pages (Fin (rank + rope) → ℝ)) (context : AttentionContext) :
    Option (List (Heads numHeads rank)) := do
  let tables ← context.blockTables
  let numRows := context.contextLens.length
  if numRows = 0 then none
  else
    -- queries per row, from the shapes, so no length is read back
    let lq := q.length / numRows
    let maxSeqlenK := tableWidth tables * latentCache.blockSize
    let latent ← gatherPages latentCache tables maxSeqlenK context.contextLens
    -- each row's queries are its last `lq` tokens
    let masks := List.zipWith (fun keys (seqlen : Nat) => causalRow keys ((seqlen : Int) - (lq : Int)) lq)
      (keyMask context.contextLens maxSeqlenK) context.contextLens
    let queries := (List.range numRows).map fun row => (q.drop (row * lq)).take lq
    some (((queries.zip masks).zip latent).flatMap fun row => mlaRow scale row.1.1 row.2 row.1.2)

/-- Attention over latents, of one row whose queries stand at its last positions. -/
noncomputable def latentAttention (scale : ℝ) (queries : List (Heads numHeads (rank + rope)))
    (seqlenK : Nat) (latent : Nat → Fin (rank + rope) → ℝ) : List (Heads numHeads rank) :=
  queries.mapIdx fun j token head =>
    average ((List.range (seqlenK - queries.length + j + 1)).map fun p =>
      (dotProduct (token head) (latent p) * scale, fun d => latent p (Fin.castAdd rope d)))

theorem mlaRow_eq {scale : ℝ} {queries : List (Heads numHeads (rank + rope))}
    {seqlenK maxSeqlenK : Nat} {latent latent' : Nat → Fin (rank + rope) → ℝ}
    (fits : seqlenK ≤ maxSeqlenK) (causal : queries.length ≤ seqlenK)
    (same : ∀ p < seqlenK, latent' p = latent p) :
    mlaRow scale queries ((List.range maxSeqlenK).map latent')
        (causalRow ((List.range maxSeqlenK).map fun p => decide (p < seqlenK))
          ((seqlenK : Int) - queries.length) queries.length) =
      latentAttention scale queries seqlenK latent := by
  rw [causalRow_eq]
  apply List.ext_getElem
  · simp [mlaRow, latentAttention]
  · intro j small _
    have inside : j < queries.length := by simpa [mlaRow] using small
    simp only [mlaRow, latentAttention, List.getElem_map, List.getElem_range, List.getElem_mapIdx]
    funext head
    rw [scaledDotProductAttention, List.getD_eq_getElem?_getD, List.getElem?_zipWith,
      List.getElem?_map, List.getElem?_eq_getElem inside, List.getElem?_map,
      List.getElem?_range inside, Option.map_some, Option.map_some, Option.getD_some, List.map_map]
    exact maskedAverage_keys (by omega) (fun p _ => visible_iff causal inside p)
      (fun p small => same p (by omega))
      (fun p small => by rw [Function.comp_apply, same p (by omega)]) (queries[j] head) scale

/-- Rows of one length, read back by their number. -/
theorem drop_take_flatMap {ρ β : Type*} {rows : List ρ} {content : ρ → List β} {width : Nat}
    (uniform : ∀ row ∈ rows, (content row).length = width) :
    ((List.range rows.length).map fun r => ((rows.flatMap content).drop (r * width)).take width) =
      rows.map content := by
  induction rows with
  | nil => rfl
  | cons row rows ih =>
      have len := uniform row List.mem_cons_self
      have rest := ih fun other member => uniform other (List.mem_cons_of_mem _ member)
      rw [List.length_cons, List.range_succ_eq_map, List.map_cons, List.map_cons, List.map_map,
        List.flatMap_cons, Nat.zero_mul, List.drop_zero, List.take_left' len, ← rest]
      refine congrArg (content row :: ·) (List.map_congr_left ?_)
      intro r _
      have past : (r + 1) * width = (content row).length + r * width := by
        rw [len, Nat.succ_mul, Nat.add_comm]
      rw [Function.comp_apply, Nat.succ_eq_add_one, past, List.drop_append, ← List.drop_drop]
      simp

theorem mlaDecode_eq {ρ : Type*} {rows : List ρ} {context : AttentionContext} (scale : ℝ)
    (queries : ρ → List (Heads numHeads (rank + rope))) {seqlenK : ρ → Nat} {table : ρ → List Int}
    {cache : Pages (Fin (rank + rope) → ℝ)} {lq width : Nat} (some : rows ≠ [])
    (tables : context.blockTables = Option.some (rows.map table))
    (lens : context.contextLens = rows.map seqlenK)
    (counted : ∀ row ∈ rows, (queries row).length = lq)
    (uniform : ∀ row ∈ rows, (table row).length = width)
    (causal : ∀ row ∈ rows, lq ≤ seqlenK row)
    (fits : ∀ row ∈ rows, seqlenK row ≤ width * cache.blockSize)
    (readable : Readable cache (rows.map table) (width * cache.blockSize)) :
    mlaDecode scale (rows.flatMap queries) cache context =
      Option.some (rows.flatMap fun row =>
        latentAttention scale (queries row) (seqlenK row) (cachedAt cache (table row))) := by
  obtain ⟨first, rest, rfl⟩ := List.exists_cons_of_ne_nil some
  have total : ((first :: rest).flatMap queries).length = (first :: rest).length * lq := by
    rw [List.length_flatMap, List.map_congr_left counted, List.map_const', List.sum_replicate,
      smul_eq_mul]
  have perRow : ((first :: rest).flatMap queries).length / (first :: rest).length = lq := by
    rw [total]
    exact Nat.mul_div_cancel_left lq (by simp)
  have wide : tableWidth ((first :: rest).map table) = width := uniform first List.mem_cons_self
  have rows_ne : (first :: rest).length ≠ 0 := by simp
  have split := drop_take_flatMap counted
  simp only [mlaDecode, tables, lens, wide, Option.bind_eq_bind, Option.bind_some,
    readable.gatherPages_eq, List.length_map, perRow, split, if_neg rows_ne]
  refine congrArg Option.some ?_
  simp only [keyMask, List.zipWith_map, List.zipWith_self, List.zip_map', List.map_map,
    List.flatMap_map]
  apply List.flatMap_congr
  intro row member
  have own := counted row member
  simp only [Function.comp_apply]
  rw [← own]
  exact mlaRow_eq (fits row member) (own ▸ causal row member)
    fun p inside => if_neg (Nat.not_le.mpr inside)

end Latents

end TorchAttention

end LeanVllm
