import LeanVllm.Attention.Context
import LeanVllm.Collections.Pages
import Mathlib.Data.List.GetD

/-!
# Chunks of cached keys

`plan_context_chunks` packs the cached keys of consecutive rows into chunks of at most
a budget; long rows split, and rows without cached keys are skipped.  Counted through
all rows, a chunk is a stretch of the keys that starts where the one before it ended,
so the chunks hold every cached key once.
-/

namespace LeanVllm

open Collections

/-! ## The plan -/

/-- A chunk as planned: its first row, and for each row from there on where its keys
start and how many they are. -/
structure ChunkPlan where
  first : Nat
  starts : List Nat
  lens : List Nat
  deriving DecidableEq, Repr

/-- Where packing a chunk stands. -/
structure Packing where
  row : Nat
  start : Nat
  used : Nat
  starts : List Nat
  lens : List Nat
  deriving DecidableEq, Repr

namespace Packing

/-- One more row's keys, as many as fit. -/
def takeRow (budget len : Nat) (s : Packing) : Packing :=
  let take := min (len - s.start) (budget - s.used)
  let done := s.start + take = len
  { row := if done then s.row + 1 else s.row
    start := if done then 0 else s.start + take
    used := s.used + take
    starts := s.starts ++ [s.start]
    lens := s.lens ++ [take] }

/-- The inner loop of `plan_context_chunks`. -/
def fill (contextLens : List Nat) (budget : Nat) : Nat → Packing → Packing
  | 0, s => s
  | fuel + 1, s =>
      match contextLens[s.row]? with
      | none => s
      | some len =>
          if len ≠ 0 ∧ s.used < budget then fill contextLens budget fuel (s.takeRow budget len)
          else s

end Packing

/-- The outer loop of `plan_context_chunks`. -/
def planLoop (contextLens : List Nat) (budget : Nat) : Nat → Nat → Nat → List ChunkPlan
  | 0, _, _ => []
  | fuel + 1, row, start =>
      match contextLens[row]? with
      | none => []
      | some 0 => planLoop contextLens budget fuel (row + 1) start
      | some (_ + 1) =>
          let s := Packing.fill contextLens budget (contextLens.length + 1) ⟨row, start, 0, [], []⟩
          ⟨row, s.starts, s.lens⟩ :: planLoop contextLens budget fuel s.row s.start

/-- `plan_context_chunks`. -/
def planContextChunks (contextLens : List Nat) (budget : Nat) : Option (List ChunkPlan) :=
  if budget = 0 then none
  else some (planLoop contextLens budget (contextLens.length + contextLens.sum) 0 0)

/-! ## What a plan covers -/

/-- All cached keys, each by its row and its position. -/
def keysOf (contextLens : List Nat) : List (Nat × Nat) :=
  (List.range contextLens.length).flatMap fun r =>
    (List.range (contextLens.getD r 0)).map fun p => (r, p)

/-- The keys of a planned chunk. -/
def ChunkPlan.keys (plan : ChunkPlan) : List (Nat × Nat) :=
  (List.range plan.lens.length).flatMap fun k =>
    (List.range (plan.lens.getD k 0)).map fun o => (plan.first + k, plan.starts.getD k 0 + o)

theorem ChunkPlan.keys_append {first : Nat} {starts lens : List Nat}
    (counted : starts.length = lens.length) (start len : Nat) :
    (⟨first, starts ++ [start], lens ++ [len]⟩ : ChunkPlan).keys =
      (⟨first, starts, lens⟩ : ChunkPlan).keys ++
        (List.range len).map fun o => (first + lens.length, start + o) := by
  simp only [keys, List.length_append, List.length_singleton, List.range_succ, List.flatMap_append,
    List.flatMap_singleton]
  congr 1
  · apply List.flatMap_congr
    intro k member
    have inside := List.mem_range.mp member
    rw [List.getD_append _ _ _ _ inside, List.getD_append _ _ _ _ (counted ▸ inside)]
  · have last : (lens ++ [len]).getD lens.length 0 = len := by simp [List.getD_eq_getElem?_getD]
    have lastStart : (starts ++ [start]).getD lens.length 0 = start := by
      simp [← counted, List.getD_eq_getElem?_getD]
    rw [last, lastStart]

theorem length_keysOf (contextLens : List Nat) : (keysOf contextLens).length = contextLens.sum := by
  have lens : (List.range contextLens.length).map (fun r =>
      ((List.range (contextLens.getD r 0)).map fun p => (r, p)).length) = contextLens := by
    simp only [List.length_map, List.length_range]
    exact map_getD_range contextLens 0
  rw [keysOf, List.length_flatMap, lens]

/-- A stretch of one row's keys. -/
theorem take_drop_keysOf {contextLens : List Nat} {row start len : Nat}
    (inside : row < contextLens.length) (fits : start + len ≤ contextLens.getD row 0) :
    ((keysOf contextLens).drop ((cumsum contextLens).getD row 0 + start)).take len =
      (List.range len).map fun o => (row, start + o) := by
  have lens : (List.range contextLens.length).map (fun r =>
      ((List.range (contextLens.getD r 0)).map fun p => (r, p)).length) = contextLens := by
    simp only [List.length_map, List.length_range]
    exact map_getD_range contextLens 0
  have whole := segment_flatMap (List.range contextLens.length) (fun r =>
    (List.range (contextLens.getD r 0)).map fun p => (r, p)) (List.getElem?_range inside)
  rw [lens, Collections.segment] at whole
  have part := congrArg (fun values => (values.drop start).take len) whole
  simp only [List.drop_take, List.drop_drop, List.take_take] at part
  rw [Nat.min_eq_left (by omega)] at part
  rw [keysOf, part]
  apply List.ext_getElem
  · simp only [List.length_take, List.length_drop, List.length_map, List.length_range]
    omega
  · intro o _ _
    simp

namespace Packing

variable {contextLens : List Nat} {budget first place : Nat} {s : Packing}

/-- Packing a chunk whose keys begin at `place` of all keys, at row `first`. -/
structure Fills (contextLens : List Nat) (budget first place : Nat) (s : Packing) : Prop where
  keys : (⟨first, s.starts, s.lens⟩ : ChunkPlan).keys =
    ((keysOf contextLens).drop place).take s.used
  place : (cumsum contextLens).getD s.row 0 + s.start = place + s.used
  inside : s.start = 0 ∨ s.start < contextLens.getD s.row 0
  row_le : s.row ≤ contextLens.length
  aligned : s.used < budget → s.row = first + s.lens.length
  counted : s.starts.length = s.lens.length
  positive : ∀ len ∈ s.lens, 0 < len
  used : s.used = s.lens.sum

theorem Fills.takeRow (fills : Fills contextLens budget first place s) {len : Nat}
    (found : contextLens[s.row]? = some len) (some : len ≠ 0) (room : s.used < budget) :
    Fills contextLens budget first place (s.takeRow budget len) ∧
      s.used < (s.takeRow budget len).used ∧ s.row ≤ (s.takeRow budget len).row := by
  have inRows := (List.getElem?_eq_some_iff.mp found).1
  have own : contextLens.getD s.row 0 = len := by simp [List.getD_eq_getElem?_getD, found]
  have within : s.start < len := by
    rcases fills.inside with zero | below
    · omega
    · rwa [own] at below
  have next := getD_cumsum_succ inRows
  have row := fills.aligned room
  generalize taken : min (len - s.start) (budget - s.used) = take
  have fits : s.start + take ≤ contextLens.getD s.row 0 := by omega
  have piece := take_drop_keysOf inRows fits
  rw [fills.place] at piece
  have after : s.takeRow budget len =
      { row := if s.start + take = len then s.row + 1 else s.row
        start := if s.start + take = len then 0 else s.start + take
        used := s.used + take
        starts := s.starts ++ [s.start]
        lens := s.lens ++ [take] } := by
    rw [Packing.takeRow, taken]
  rw [after]
  refine ⟨?_, by simp only; omega, by simp only; split <;> omega⟩
  constructor
  · rw [ChunkPlan.keys_append fills.counted, fills.keys, ← row, ← piece, ← List.drop_drop,
      ← List.take_add]
  · have spot := fills.place
    simp only
    split <;> omega
  · simp only
    split
    · exact .inl rfl
    · exact .inr (by omega)
  · simp only
    split
    · exact inRows
    · exact fills.row_le
  · intro room
    simp only at room ⊢
    -- a row cut short has used up the budget
    rw [if_pos (by omega), row, List.length_append, List.length_singleton]
    omega
  · simp only [List.length_append, fills.counted, List.length_singleton]
  · intro entry member
    rcases List.mem_append.mp member with earlier | last
    · exact fills.positive entry earlier
    · rw [List.mem_singleton.mp last]
      omega
  · simp only [List.sum_append, List.sum_singleton, fills.used]

/-- The inner loop keeps what packing a chunk keeps, and takes some key if it can. -/
theorem Fills.fill (fills : Fills contextLens budget first place s) (fuel : Nat) :
    Fills contextLens budget first place (Packing.fill contextLens budget fuel s) ∧
      s.used ≤ (Packing.fill contextLens budget fuel s).used ∧
      s.row ≤ (Packing.fill contextLens budget fuel s).row := by
  induction fuel generalizing s with
  | zero => exact ⟨fills, Nat.le_refl _, Nat.le_refl _⟩
  | succ fuel ih =>
      unfold Packing.fill
      split
      · exact ⟨fills, Nat.le_refl _, Nat.le_refl _⟩
      · rename_i len found
        split
        · rename_i going
          obtain ⟨next, more, lower⟩ := fills.takeRow found going.1 going.2
          obtain ⟨last, further, below⟩ := ih next
          exact ⟨last, by omega, by omega⟩
        · exact ⟨fills, Nat.le_refl _, Nat.le_refl _⟩

theorem fill_of_full (full : budget ≤ s.used) (fuel : Nat) :
    Packing.fill contextLens budget fuel s = s := by
  cases fuel with
  | zero => rfl
  | succ fuel =>
      unfold Packing.fill
      split
      · rfl
      · rw [if_neg fun going => Nat.not_lt.mpr full going.2]

/-- Some key is taken where there is one and room for it. -/
theorem Fills.fill_pos (fills : Fills contextLens budget first place s) {len : Nat}
    (found : contextLens[s.row]? = some (len + 1)) (room : s.used < budget) (fuel : Nat) :
    0 < (Packing.fill contextLens budget (fuel + 1) s).used := by
  obtain ⟨next, more, _⟩ := fills.takeRow found (Nat.succ_ne_zero _) room
  obtain ⟨_, further, _⟩ := next.fill fuel
  simp only [Packing.fill, found]
  rw [if_pos ⟨Nat.succ_ne_zero _, room⟩]
  exact Nat.lt_of_lt_of_le (Nat.zero_lt_of_lt more) further

end Packing

/-! ## Whole plans -/

section Plan

variable {contextLens : List Nat} {budget : Nat}

/-- A place between two keys: a row and a position in it, at which the keys from
`place` on begin. -/
structure KeyPlace (contextLens : List Nat) (row start place : Nat) : Prop where
  at_place : (cumsum contextLens).getD row 0 + start = place
  inside : start = 0 ∨ start < contextLens.getD row 0
  row_le : row ≤ contextLens.length

theorem KeyPlace.fills {row start place : Nat} (between : KeyPlace contextLens row start place)
    (budget : Nat) :
    Packing.Fills contextLens budget row place ⟨row, start, 0, [], []⟩ where
  keys := rfl
  place := between.at_place
  inside := between.inside
  row_le := between.row_le
  aligned _ := rfl
  counted := rfl
  positive _ member := absurd member List.not_mem_nil
  used := rfl

theorem KeyPlace.le {row start place : Nat} (between : KeyPlace contextLens row start place) :
    place ≤ contextLens.sum := by
  have spot := between.at_place
  have before : ∀ r, (contextLens.take r).sum ≤ contextLens.sum := by
    intro r
    conv_rhs => rw [← List.take_append_drop r contextLens, List.sum_append]
    exact Nat.le_add_right _ _
  rcases between.inside with zero | below
  · have total := before row
    rw [getD_cumsum between.row_le] at spot
    omega
  · have inRows : row < contextLens.length := by
      by_contra past
      rw [List.getD_eq_default _ _ (Nat.le_of_not_lt past)] at below
      exact absurd below (Nat.not_lt_zero _)
    have next := getD_cumsum_succ inRows
    rw [getD_cumsum inRows] at next
    have total := before row.succ
    omega

/-- A row without cached keys is passed over. -/
theorem KeyPlace.skip {row start place : Nat} (between : KeyPlace contextLens row start place)
    (empty : contextLens[row]? = some 0) : KeyPlace contextLens (row + 1) start place := by
  have inRows := (List.getElem?_eq_some_iff.mp empty).1
  have own : contextLens.getD row 0 = 0 := by simp [List.getD_eq_getElem?_getD, empty]
  have next := getD_cumsum_succ inRows
  have spot := between.at_place
  have inside := between.inside
  exact ⟨by omega, .inl (by omega), inRows⟩

/-- Past the last row there are no keys left. -/
theorem KeyPlace.drop_eq_nil {row start place : Nat} (between : KeyPlace contextLens row start place)
    (past : contextLens[row]? = none) : (keysOf contextLens).drop place = [] := by
  have outside := List.getElem?_eq_none_iff.mp past
  have rowEq : row = contextLens.length := Nat.le_antisymm between.row_le outside
  have spot := between.at_place
  rw [getD_cumsum between.row_le, rowEq, List.take_length] at spot
  apply List.drop_eq_nil_of_le
  rw [length_keysOf]
  omega

/-- What a chunk of a plan is. -/
structure ChunkPlan.Wf (plan : ChunkPlan) : Prop where
  counted : plan.starts.length = plan.lens.length
  positive : ∀ len ∈ plan.lens, 0 < len
  nonempty : plan.lens ≠ []

/-- The outer loop plans every key from where it stands, each once and in order. -/
theorem planLoop_keys (budget_pos : 0 < budget) {fuel row start place : Nat}
    (between : KeyPlace contextLens row start place)
    (enough : contextLens.length + contextLens.sum ≤ fuel + row + place) :
    (planLoop contextLens budget fuel row start).flatMap ChunkPlan.keys =
        (keysOf contextLens).drop place ∧
      ∀ plan ∈ planLoop contextLens budget fuel row start, plan.Wf := by
  induction fuel generalizing row start place with
  | zero =>
      have le := between.le
      have row_le := between.row_le
      refine ⟨?_, fun plan member => absurd member List.not_mem_nil⟩
      exact (List.drop_eq_nil_of_le (by rw [length_keysOf]; omega)).symm
  | succ fuel ih =>
      unfold planLoop
      split
      · rename_i past
        exact ⟨(between.drop_eq_nil past).symm, fun plan member => absurd member List.not_mem_nil⟩
      · rename_i empty
        exact ih (between.skip empty) (by omega)
      · rename_i len found
        obtain ⟨fills, _, lower⟩ := (between.fills budget).fill (contextLens.length + 1)
        have some := (between.fills budget).fill_pos found budget_pos contextLens.length
        obtain ⟨rest, wf⟩ := ih ⟨fills.place, fills.inside, fills.row_le⟩ (by
          simp only at lower
          omega)
        constructor
        · rw [List.flatMap_cons, fills.keys, rest, ← List.drop_drop, List.take_append_drop]
        · intro plan member
          rcases List.mem_cons.mp member with rfl | later
          · refine ⟨fills.counted, fills.positive, fun empty => ?_⟩
            have total := fills.used
            simp only at empty
            rw [empty, List.sum_nil] at total
            omega
          · exact wf plan later

/-- `plan_context_chunks` plans every cached key once, in chunks without empty rows. -/
theorem planContextChunks_spec (contextLens : List Nat) (budget_pos : 0 < budget) :
    ∃ plans, planContextChunks contextLens budget = some plans ∧
      plans.flatMap ChunkPlan.keys = keysOf contextLens ∧ ∀ plan ∈ plans, plan.Wf := by
  refine ⟨_, if_neg (Nat.ne_of_gt budget_pos), ?_⟩
  have start : KeyPlace contextLens 0 0 0 :=
    ⟨by rw [getD_cumsum (Nat.zero_le _)]; rfl, .inl rfl, Nat.zero_le _⟩
  exact planLoop_keys budget_pos start (by omega)

theorem mem_keysOf {row p : Nat} :
    (row, p) ∈ keysOf contextLens ↔ row < contextLens.length ∧ p < contextLens.getD row 0 := by
  simp [keysOf]

theorem ChunkPlan.Wf.getD_pos {plan : ChunkPlan} (wf : plan.Wf) {k : Nat}
    (small : k < plan.lens.length) : 0 < plan.lens.getD k 0 := by
  have own : plan.lens.getD k 0 = plan.lens[k] := by simp [List.getD_eq_getElem?_getD, small]
  rw [own]
  exact wf.positive _ (List.getElem_mem small)

/-- The rows of a planned chunk are rows of the batch. -/
theorem ChunkPlan.Wf.fits {plan : ChunkPlan} (wf : plan.Wf)
    (known : ∀ key ∈ plan.keys, key ∈ keysOf contextLens) :
    plan.first + plan.lens.length ≤ contextLens.length := by
  have some := List.length_pos_of_ne_nil wf.nonempty
  have small : plan.lens.length - 1 < plan.lens.length := by omega
  have last : (plan.first + (plan.lens.length - 1), plan.starts.getD (plan.lens.length - 1) 0) ∈
      plan.keys := by
    rw [keys, List.mem_flatMap]
    exact ⟨_, List.mem_range.mpr small,
      List.mem_map.mpr ⟨0, List.mem_range.mpr (wf.getD_pos small), rfl⟩⟩
  have inRows := (mem_keysOf.mp (known _ last)).1
  omega

end Plan

/-! ## The chunks -/

/-- `ContextChunk`: cached keys of consecutive rows, and the queries of those rows. -/
structure ContextChunk where
  queries : Nat × Nat
  cuSeqlensQ : List Nat
  cuSeqlensK : List Nat
  maxSeqlenQ : Nat
  maxSeqlenK : Nat
  slots : List Int
  deriving DecidableEq, Repr

/-- The chunk of a plan, with the cache slot of each key. -/
def ChunkPlan.chunk (cuQ : List Nat) (blockTables : List (List Int)) (blockSize : Nat)
    (plan : ChunkPlan) : Option ContextChunk := do
  let last := plan.first + plan.lens.length
  let cuSeqlensK := cumsum plan.lens
  let keyRows := repeatEach (List.range plan.lens.length) plan.lens
  let positions := List.zipWith (fun k p => p + plan.starts.getD k 0 - cuSeqlensK.getD k 0) keyRows
    (List.range plan.lens.sum)
  let slots ← (keyRows.zip positions).mapM fun key => do
    let table ← blockTables[plan.first + key.1]?
    let block ← table[key.2 / blockSize]?
    some (block * (blockSize : Int) + (key.2 % blockSize : Nat))
  some
    { queries := (cuQ.getD plan.first 0, cuQ.getD last 0)
      cuSeqlensQ := ((cuQ.drop plan.first).take (plan.lens.length + 1)).map
        (· - cuQ.getD plan.first 0)
      cuSeqlensK := cuSeqlensK
      maxSeqlenQ := (((AttentionContext.steps cuQ).drop plan.first).take
        plan.lens.length).foldl max 0
      maxSeqlenK := plan.lens.foldl max 0
      slots := slots }

/-- `context_chunks`, from the host's running totals. -/
def contextChunks (cuQ cuK : List Nat) (blockTables : List (List Int)) (blockSize budget : Nat) :
    Option (List ContextChunk) := do
  let contextLens := List.zipWith (· - ·) (AttentionContext.steps cuK) (AttentionContext.steps cuQ)
  let plans ← planContextChunks contextLens budget
  plans.mapM (ChunkPlan.chunk cuQ blockTables blockSize)

/-- The keys of a planned chunk, by the chunk's own row numbers. -/
def ChunkPlan.localKeys (plan : ChunkPlan) : List (Nat × Nat) :=
  (List.range plan.lens.length).flatMap fun k =>
    (List.range (plan.lens.getD k 0)).map fun o => (k, plan.starts.getD k 0 + o)

theorem ChunkPlan.keys_eq_map (plan : ChunkPlan) :
    plan.keys = plan.localKeys.map fun key => (plan.first + key.1, key.2) := by
  rw [keys, localKeys, List.map_flatMap]
  simp only [List.map_map]
  rfl

theorem ChunkPlan.zip_positions (plan : ChunkPlan) :
    let keyRows := repeatEach (List.range plan.lens.length) plan.lens
    keyRows.zip (List.zipWith (fun k p =>
        p + plan.starts.getD k 0 - (cumsum plan.lens).getD k 0) keyRows
        (List.range plan.lens.sum)) = plan.localKeys := by
  intro keyRows
  have zipped : keyRows.zip (List.zipWith (fun k p =>
      p + plan.starts.getD k 0 - (cumsum plan.lens).getD k 0) keyRows (List.range plan.lens.sum)) =
      List.zipWith (fun k p => (k, p + plan.starts.getD k 0 - (cumsum plan.lens).getD k 0)) keyRows
        (List.range plan.lens.sum) := by
    apply List.ext_getElem <;> simp
  rw [zipped, zipWith_rowNumbers]
  apply List.flatMap_congr
  intro k _
  apply List.map_congr_left
  intro o _
  congr 1
  omega

/-! ## Slices -/

theorem range_slice {n first count : Nat} (inside : first + count ≤ n) :
    ((List.range n).drop first).take count = (List.range count).map (first + ·) := by
  apply List.ext_getElem
  · simp only [List.length_take, List.length_drop, List.length_range, List.length_map]
    omega
  · intro k _ _
    simp

/-- The running totals of consecutive rows. -/
theorem cumsum_slice {lens : List Nat} {first count : Nat} (inside : first + count ≤ lens.length) :
    (((cumsum lens).drop first).take (count + 1)).map (· - (cumsum lens).getD first 0) =
      cumsum ((lens.drop first).take count) := by
  have totals := AttentionContext.totalsFrom_cumsum (show first ≤ lens.length by omega)
  rw [AttentionContext.totalsFrom] at totals
  rw [List.map_take, totals, AttentionContext.take_cumsum (by rw [List.length_drop]; omega)]

/-- The cache slot of a row's position. -/
def slotAt (blockTables : List (List Int)) (blockSize : Nat) (key : Nat × Nat) : Int :=
  (blockTables.getD key.1 []).getD (key.2 / blockSize) 0 * (blockSize : Int) +
    (key.2 % blockSize : Nat)

theorem slotAt_eq {blockTables : List (List Int)} {blockSize row p : Nat} {table : List Int}
    {block : Int} (own : blockTables[row]? = some table)
    (found : table[p / blockSize]? = some block) :
    slotAt blockTables blockSize (row, p) = block * (blockSize : Int) + (p % blockSize : Nat) := by
  simp [slotAt, List.getD_eq_getElem?_getD, own, found]

/-- A chunk in its rows' own terms: their queries, and the slots of the planned keys. -/
def ChunkPlan.described (queryLens : List Nat) (blockTables : List (List Int)) (blockSize : Nat)
    (plan : ChunkPlan) : ContextChunk :=
  let rows := (queryLens.drop plan.first).take plan.lens.length
  { queries := ((queryLens.take plan.first).sum,
      (queryLens.take (plan.first + plan.lens.length)).sum)
    cuSeqlensQ := cumsum rows
    cuSeqlensK := cumsum plan.lens
    maxSeqlenQ := rows.foldl max 0
    maxSeqlenK := plan.lens.foldl max 0
    slots := plan.keys.map (slotAt blockTables blockSize) }

theorem ChunkPlan.chunk_eq {plan : ChunkPlan} {queryLens : List Nat} {blockTables : List (List Int)}
    {blockSize : Nat} (fits : plan.first + plan.lens.length ≤ queryLens.length)
    (wide : ∀ key ∈ plan.keys, ∃ table block, blockTables[key.1]? = some table ∧
      table[key.2 / blockSize]? = some block) :
    plan.chunk (cumsum queryLens) blockTables blockSize =
      some (plan.described queryLens blockTables blockSize) := by
  have lookup : ∀ key ∈ plan.localKeys, (do
      let table ← blockTables[plan.first + key.1]?
      let block ← table[key.2 / blockSize]?
      some (block * (blockSize : Int) + (key.2 % blockSize : Nat)) : Option Int) =
        some (slotAt blockTables blockSize (plan.first + key.1, key.2)) := by
    intro key member
    have among : (plan.first + key.1, key.2) ∈ plan.keys := by
      rw [plan.keys_eq_map]
      exact List.mem_map_of_mem member
    obtain ⟨table, block, own, found⟩ := wide _ among
    simp only at own found
    rw [slotAt_eq own found, own, Option.bind_eq_bind, Option.bind_some, found]
    rfl
  rw [chunk, plan.zip_positions, mapM_eq_some lookup]
  simp only [Option.bind_eq_bind, Option.bind_some, AttentionContext.steps_cumsum,
    cumsum_slice fits]
  rw [getD_cumsum fits, getD_cumsum (Nat.le_trans (Nat.le_add_right _ _) fits), described,
    plan.keys_eq_map, List.map_map]
  rfl

end LeanVllm
