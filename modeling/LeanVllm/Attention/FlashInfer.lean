import LeanVllm.Attention.Context
import LeanVllm.Collections.Pages
import Mathlib

/-!
# FlashInfer's page table

FlashInfer reads a row's pages off one packed array: where each row's pages start, the
pages of all rows, and how much of its last page a row fills.  `_pages` packs them out of
the padded block tables, for as many rows as a graph was captured with.
-/

namespace LeanVllm

open Collections AttentionContext

namespace FlashInfer

/-- The block tables as one tensor: rows of one width, padded with -1. -/
structure BlockTables where
  rows : List (List Int)
  width : Nat
  rectangular : ∀ row ∈ rows, row.length = width

/-- The page table of a plan. -/
structure PageTable where
  indptr : List Nat
  indices : List Int
  lastPageLen : List Int
  deriving DecidableEq, Repr

/-- `_host_cumulative`: the host's totals, else the device's, else totals of the lengths. -/
def hostCumulative (host device lens : Option (List Nat)) : Option (List Nat) :=
  match host, device with
  | some totals, _ => some totals
  | none, some totals => some totals
  | none, none => lens.map cumsum

/-- `_pages`. -/
def pages (host device contextLens : Option (List Nat)) (blockTables : BlockTables)
    (pageSize : Nat) (numRows : Option Nat) : Option PageTable := do
  let cuK ← hostCumulative host device contextLens
  let kvLens := steps cuK
  let numPages := kvLens.map fun len => (len + pageSize - 1) / pageSize
  let indptr := cumsum numPages
  let rows := repeatEach (List.range numPages.length) numPages
  let pages := List.zipWith (fun k row => k - indptr.getD row 0) (List.range rows.length) rows
  let flat := List.zipWith (fun row page => row * blockTables.width + page) rows pages
  let indices ← flat.mapM fun i => blockTables.rows.flatten[i]?
  let lastPageLen := List.zipWith (fun len pages : Nat => (len : Int) - ((pages : Int) - 1) * pageSize)
    kvLens numPages
  match numRows with
  | none => some ⟨indptr, indices, lastPageLen⟩
  | some numRows =>
      if numRows < kvLens.length then none
      else
        let pad := numRows - kvLens.length
        some
          { indptr := indptr ++ List.replicate pad (indptr.getLastD 0)
            indices := indices
            -- a last length of 1, though an empty row reads none
            lastPageLen := lastPageLen ++ List.replicate pad 1 }

namespace PageTable

/-- The pages of a row. -/
def slice (table : PageTable) (row : Nat) : List Int :=
  (table.indices.drop (table.indptr.getD row 0)).take
    (table.indptr.getD (row + 1) 0 - table.indptr.getD row 0)

/-- The positions a row's pages hold: all of each page, and of the last as many as its
last length says. -/
def positions (table : PageTable) (pageSize row : Nat) : List Nat :=
  let numPages := (table.slice row).length
  (List.range numPages).flatMap fun page =>
    (List.range (if page + 1 = numPages then (table.lastPageLen.getD row 0).toNat
      else pageSize)).map (page * pageSize + ·)

end PageTable

/-! ## What the pages hold -/

theorem flatMap_tiles (count width : Nat) :
    ((List.range count).flatMap fun tile => (List.range width).map (tile * width + ·)) =
      List.range (count * width) := by
  induction count with
  | zero => simp
  | succ count ih =>
      rw [List.range_succ, List.flatMap_append, ih, List.flatMap_singleton, Nat.succ_mul,
        List.range_add]

/-- Whole pages and the start of one more are the first positions. -/
theorem flatMap_pages (whole pageSize last : Nat) :
    ((List.range (whole + 1)).flatMap fun page =>
      (List.range (if page + 1 = whole + 1 then last else pageSize)).map (page * pageSize + ·)) =
      List.range (whole * pageSize + last) := by
  have full : ∀ page ∈ List.range whole,
      (List.range (if page + 1 = whole + 1 then last else pageSize)).map (page * pageSize + ·) =
        (List.range pageSize).map (page * pageSize + ·) := by
    intro page among
    rw [List.mem_range] at among
    rw [if_neg (by omega)]
  rw [List.range_succ, List.flatMap_append, List.flatMap_congr full, flatMap_tiles,
    List.flatMap_singleton, if_pos rfl, List.range_add]

section Table

variable {lens : List Nat} {blockTables : BlockTables} {pageSize : Nat}

/-- The used pages of each row, packed. -/
def packed (lens : List Nat) (blockTables : BlockTables) (pageSize : Nat) : List Int :=
  (List.range lens.length).flatMap fun r =>
    (blockTables.rows.getD r []).take (lens.getD r 0 ⌈/⌉ pageSize)

/-- An entry of the flattened tables. -/
theorem getElem?_tables {r p : Nat} {row : List Int} (found : blockTables.rows[r]? = some row)
    (inside : p < blockTables.width) :
    blockTables.rows.flatten[r * blockTables.width + p]? = row[p]? := by
  rw [getElem?_flatten_uniform blockTables.rectangular r inside, found, Option.bind_some]

/-- The gather over the flattened tables reads each row's used pages. -/
theorem gather_eq (enough : lens.length ≤ blockTables.rows.length)
    (wide : ∀ len ∈ lens, len ⌈/⌉ pageSize ≤ blockTables.width) :
    let numPages := lens.map (· ⌈/⌉ pageSize)
    let rows := repeatEach (List.range numPages.length) numPages
    (List.zipWith (fun row page => row * blockTables.width + page) rows
      (List.zipWith (fun k row => k - (cumsum numPages).getD row 0) (List.range rows.length)
        rows)).mapM (fun i => blockTables.rows.flatten[i]?) =
      some (packed lens blockTables pageSize) := by
  intro numPages rows
  have nested : List.zipWith (fun row page => row * blockTables.width + page) rows
      (List.zipWith (fun k row => k - (cumsum numPages).getD row 0) (List.range rows.length) rows) =
      List.zipWith (fun row k => row * blockTables.width + (k - (cumsum numPages).getD row 0)) rows
        (List.range numPages.sum) := by
    rw [length_repeatEach_range]
    apply List.ext_getElem
    · simp [Nat.min_comm]
    · simp
  have places : (List.range numPages.length).flatMap (fun r =>
      (List.range (numPages.getD r 0)).map fun o =>
        r * blockTables.width + ((cumsum numPages).getD r 0 + o - (cumsum numPages).getD r 0)) =
      (List.range lens.length).flatMap fun r =>
        (List.range (lens.getD r 0 ⌈/⌉ pageSize)).map (r * blockTables.width + ·) := by
    rw [List.length_map]
    refine List.flatMap_congr fun r among => ?_
    have own : numPages.getD r 0 = lens.getD r 0 ⌈/⌉ pageSize := by
      simp [numPages, List.getD_eq_getElem?_getD, List.mem_range.mp among]
    rw [own]
    exact List.map_congr_left fun o _ => by rw [Nat.add_sub_cancel_left]
  have read : ∀ r < lens.length, ∃ row, blockTables.rows[r]? = some row ∧
      row.length = blockTables.width ∧ lens.getD r 0 ⌈/⌉ pageSize ≤ blockTables.width := by
    intro r inside
    have inTables : r < blockTables.rows.length := by omega
    refine ⟨_, List.getElem?_eq_getElem inTables, blockTables.rectangular _ (List.getElem_mem _), ?_⟩
    rw [List.getD_eq_getElem?_getD, List.getElem?_eq_getElem inside, Option.getD_some]
    exact wide _ (List.getElem_mem _)
  have each : ∀ i ∈ (List.range lens.length).flatMap (fun r =>
      (List.range (lens.getD r 0 ⌈/⌉ pageSize)).map (r * blockTables.width + ·)),
      blockTables.rows.flatten[i]? = some (blockTables.rows.flatten.getD i 0) := by
    intro i among
    obtain ⟨r, inside, among⟩ := List.mem_flatMap.mp among
    obtain ⟨p, small, rfl⟩ := List.mem_map.mp among
    rw [List.mem_range] at inside small
    obtain ⟨row, found, length, fits⟩ := read r inside
    have entry := getElem?_tables found (Nat.lt_of_lt_of_le small fits)
    have inRow : p < row.length := by omega
    rw [List.getElem?_eq_getElem inRow] at entry
    rw [List.getD_eq_getElem?_getD, entry, Option.getD_some]
  rw [nested, zipWith_rowNumbers, places, mapM_eq_some each, List.map_flatMap, packed]
  refine congrArg some (List.flatMap_congr fun r among => ?_)
  obtain ⟨row, found, length, fits⟩ := read r (List.mem_range.mp among)
  have own : blockTables.rows.getD r [] = row := by
    rw [List.getD_eq_getElem?_getD, found, Option.getD_some]
  rw [own, List.map_map]
  apply List.ext_getElem
  · simp only [List.length_map, List.length_range, List.length_take]
    omega
  · intro p small inRow
    rw [List.length_map, List.length_range] at small
    have entry := getElem?_tables found (Nat.lt_of_lt_of_le small fits)
    simp only [List.getElem_map, List.getElem_range, Function.comp_apply, List.getElem_take]
    have within : p < row.length := by omega
    rw [List.getD_eq_getElem?_getD, entry, List.getElem?_eq_getElem within, Option.getD_some]

/-- `_pages`, whatever the totals are read from. -/
theorem pages_eq {host device contextLens : Option (List Nat)}
    (source : hostCumulative host device contextLens = some (cumsum lens))
    (enough : lens.length ≤ blockTables.rows.length)
    (wide : ∀ len ∈ lens, len ⌈/⌉ pageSize ≤ blockTables.width) {numRows : Option Nat}
    (padded : ∀ rows, numRows = some rows → lens.length ≤ rows) :
    pages host device contextLens blockTables pageSize numRows =
      some
        { indptr := cumsum (lens.map (· ⌈/⌉ pageSize)) ++
            List.replicate (numRows.getD lens.length - lens.length)
              (lens.map (· ⌈/⌉ pageSize)).sum
          indices := packed lens blockTables pageSize
          lastPageLen := lens.map (fun (len : Nat) =>
              (len : Int) - (((len ⌈/⌉ pageSize : Nat) : Int) - 1) * pageSize) ++
            List.replicate (numRows.getD lens.length - lens.length) 1 } := by
  have formula : (fun len : Nat => (len + pageSize - 1) / pageSize) = (· ⌈/⌉ pageSize) := by
    funext len
    rw [Nat.ceilDiv_eq_add_pred_div]
  have last : (cumsum (lens.map (· ⌈/⌉ pageSize))).getLastD 0 =
      (lens.map (· ⌈/⌉ pageSize)).sum := by
    rw [List.getLastD_eq_getLast?, List.getLast?_eq_getElem?, length_cumsum, Nat.add_sub_cancel,
      ← List.getD_eq_getElem?_getD, getD_cumsum (Nat.le_refl _), List.take_length]
  have lengths : List.zipWith (fun len pages : Nat =>
      (len : Int) - ((pages : Int) - 1) * pageSize) lens (lens.map (· ⌈/⌉ pageSize)) =
      lens.map fun (len : Nat) => (len : Int) - (((len ⌈/⌉ pageSize : Nat) : Int) - 1) * pageSize := by
    rw [List.zipWith_map_right, List.zipWith_self]
  simp only [pages, source, Option.bind_eq_bind, Option.bind_some, steps_cumsum, formula,
    gather_eq enough wide, last, lengths]
  cases numRows with
  | none => simp
  | some rows =>
      simp only [Option.getD_some]
      rw [if_neg (Nat.not_lt.mpr (padded rows rfl))]

/-- What a page table says of rows of these lengths, the rows past them empty. -/
structure PageTable.Describes (table : PageTable) (lens : List Nat) (blockTables : BlockTables)
    (pageSize numRows : Nat) : Prop where
  indptr : table.indptr.length = numRows + 1
  lastPageLen : table.lastPageLen.length = numRows
  slice : ∀ i < lens.length,
    table.slice i = (blockTables.rows.getD i []).take (lens.getD i 0 ⌈/⌉ pageSize)
  last : ∀ i < lens.length, 1 ≤ table.lastPageLen.getD i 0 ∧
    table.lastPageLen.getD i 0 ≤ pageSize ∧
    (((lens.getD i 0 ⌈/⌉ pageSize : Nat) : Int) - 1) * pageSize + table.lastPageLen.getD i 0 =
      lens.getD i 0
  positions : ∀ i < lens.length, table.positions pageSize i = List.range (lens.getD i 0)
  padding : ∀ i, lens.length ≤ i → i < numRows → table.slice i = []
  indices : table.indices = (List.range lens.length).flatMap table.slice

/-- A length of at least one in pages: all but the last are whole, and that is not empty. -/
theorem ceilDiv_spec {len : Nat} (somePage : 0 < pageSize) (some : 0 < len) :
    ∃ whole last, len ⌈/⌉ pageSize = whole + 1 ∧ len = whole * pageSize + last ∧ 0 < last ∧
      last ≤ pageSize := by
  refine ⟨(len - 1) / pageSize, (len - 1) % pageSize + 1, ?_, ?_, Nat.succ_pos _,
    Nat.mod_lt _ somePage⟩
  · rw [Nat.ceilDiv_eq_add_pred_div, show len + pageSize - 1 = len - 1 + pageSize by omega,
      Nat.add_div_right _ somePage]
  · have whole := Nat.div_add_mod (len - 1) pageSize
    rw [Nat.mul_comm] at whole
    omega

/-- The table of these lengths, padded to `numRows` rows. -/
theorem describes (positive : ∀ len ∈ lens, 0 < len) (somePage : 0 < pageSize)
    (enough : lens.length ≤ blockTables.rows.length)
    (wide : ∀ len ∈ lens, len ⌈/⌉ pageSize ≤ blockTables.width) {numRows : Nat}
    (padded : lens.length ≤ numRows) :
    PageTable.Describes
      { indptr := cumsum (lens.map (· ⌈/⌉ pageSize)) ++
          List.replicate (numRows - lens.length) (lens.map (· ⌈/⌉ pageSize)).sum
        indices := packed lens blockTables pageSize
        lastPageLen := lens.map (fun (len : Nat) =>
            (len : Int) - (((len ⌈/⌉ pageSize : Nat) : Int) - 1) * pageSize) ++
          List.replicate (numRows - lens.length) 1 }
      lens blockTables pageSize numRows := by
  generalize counted : lens.map (· ⌈/⌉ pageSize) = numPages
  have count : numPages.length = lens.length := by rw [← counted, List.length_map]
  have own : ∀ i < lens.length, numPages.getD i 0 = lens.getD i 0 ⌈/⌉ pageSize := by
    intro i inside
    simp [← counted, List.getD_eq_getElem?_getD, inside]
  have start : ∀ i ≤ lens.length, (cumsum numPages ++
      List.replicate (numRows - lens.length) numPages.sum).getD i 0 = (cumsum numPages).getD i 0 := by
    intro i inside
    exact List.getD_append _ _ _ _ (by rw [length_cumsum]; omega)
  have past : ∀ i, lens.length ≤ i → i ≤ numRows → (cumsum numPages ++
      List.replicate (numRows - lens.length) numPages.sum).getD i 0 = numPages.sum := by
    intro i after inside
    rcases Nat.eq_or_lt_of_le after with rfl | more
    · rw [start _ (Nat.le_refl _), ← count, getD_cumsum (Nat.le_refl _), List.take_length]
    · rw [List.getD_append_right _ _ _ _ (by rw [length_cumsum]; omega), length_cumsum,
        List.getD_eq_getElem?_getD, List.getElem?_replicate, if_pos (by omega), Option.getD_some]
  have width : ∀ i < lens.length, (((blockTables.rows.getD i []).take
      (lens.getD i 0 ⌈/⌉ pageSize)).length = numPages.getD i 0) := by
    intro i inside
    have inTables : i < blockTables.rows.length := by omega
    rw [own i inside, List.length_take, List.getD_eq_getElem _ _ inTables,
      List.getD_eq_getElem _ _ inside, blockTables.rectangular _ (List.getElem_mem _),
      Nat.min_eq_left (wide _ (List.getElem_mem _))]
  have lengths : (List.range lens.length).map (fun r => ((blockTables.rows.getD r []).take
      (lens.getD r 0 ⌈/⌉ pageSize)).length) = numPages := by
    rw [← map_getD_range numPages 0, count]
    exact List.map_congr_left fun r among => width r (List.mem_range.mp among)
  have slices : ∀ i < lens.length, ((packed lens blockTables pageSize).drop
      ((cumsum numPages).getD i 0)).take (numPages.getD i 0) =
        (blockTables.rows.getD i []).take (lens.getD i 0 ⌈/⌉ pageSize) := by
    intro i inside
    have whole := segment_flatMap (List.range lens.length) (fun r =>
      (blockTables.rows.getD r []).take (lens.getD r 0 ⌈/⌉ pageSize)) (List.getElem?_range inside)
    rw [lengths, Collections.segment] at whole
    exact whole
  generalize tableEq : PageTable.mk _ _ _ = table
  have lastOf : ∀ i (inside : i < lens.length), table.lastPageLen.getD i 0 =
      (lens[i] : Int) - (((lens[i] ⌈/⌉ pageSize : Nat) : Int) - 1) * pageSize := by
    intro i inside
    rw [← tableEq, List.getD_append _ _ _ _ (by simpa using inside),
      List.getD_eq_getElem _ _ (by simpa using inside), List.getElem_map]
  have slice : ∀ i < lens.length,
      table.slice i = (blockTables.rows.getD i []).take (lens.getD i 0 ⌈/⌉ pageSize) := by
    intro i inside
    rw [← slices i inside, PageTable.slice, ← tableEq, start i (Nat.le_of_lt inside),
      start (i + 1) inside, getD_cumsum_succ (count ▸ inside), Nat.add_sub_cancel_left]
  constructor
  case indptr =>
    rw [← tableEq, List.length_append, length_cumsum, List.length_replicate]
    omega
  case lastPageLen =>
    rw [← tableEq, List.length_append, List.length_map, List.length_replicate]
    omega
  case slice => exact slice
  case last =>
    intro i inside
    obtain ⟨whole, last, pages, len, some, short⟩ :=
      ceilDiv_spec somePage (positive _ (List.getElem_mem inside))
    rw [lastOf i inside, List.getD_eq_getElem _ _ inside, pages, Nat.cast_succ,
      add_sub_cancel_right]
    have total : (lens[i] : Int) = whole * pageSize + last := by exact_mod_cast len
    omega
  case positions =>
    intro i inside
    obtain ⟨whole, last, pages, len, some, short⟩ :=
      ceilDiv_spec somePage (positive _ (List.getElem_mem inside))
    have ending : (table.lastPageLen.getD i 0).toNat = last := by
      have total : (lens[i] : Int) = whole * pageSize + last := by exact_mod_cast len
      rw [lastOf i inside, pages, Nat.cast_succ, add_sub_cancel_right]
      omega
    rw [PageTable.positions, slice i inside, width i inside, own i inside, ending,
      List.getD_eq_getElem _ _ inside, pages, flatMap_pages, ← len]
  case padding =>
    intro i after inside
    rw [PageTable.slice, ← tableEq, past i after (Nat.le_of_lt inside),
      past (i + 1) (Nat.le_succ_of_le after) inside, Nat.sub_self, List.take_zero]
  case indices =>
    rw [List.flatMap_congr fun i among => slice i (List.mem_range.mp among), ← tableEq]
    rfl

/-- The used pages of a row are blocks of its own, none of the padding. -/
theorem not_mem_padding {blocks : List Nat} {len pad : Nat} (somePage : 0 < pageSize)
    (held : len ≤ blocks.length * pageSize) :
    (-1 : Int) ∉ (blocks.map Int.ofNat ++ List.replicate pad (-1)).take (len ⌈/⌉ pageSize) := by
  have few : len ⌈/⌉ pageSize ≤ blocks.length := by
    rw [ceilDiv_le_iff_le_mul somePage, Nat.mul_comm]
    exact held
  rw [List.take_append_of_le_length (by simpa using few)]
  intro among
  obtain ⟨block, _, negative⟩ := List.mem_map.mp (List.mem_of_mem_take among)
  exact absurd negative (by simp)

end Table

/-- The page table of a step: each row's slice is its used pages, which hold exactly its
positions; no padding of a block table is a page, and a graph's further rows are empty. -/
theorem pages_cover_rows {host device contextLens : Option (List Nat)} {lens : List Nat}
    (source : hostCumulative host device contextLens = some (cumsum lens))
    (positive : ∀ len ∈ lens, 1 ≤ len) {pageSize : Nat} (somePage : 1 ≤ pageSize)
    {blockTables : BlockTables} (enough : lens.length ≤ blockTables.rows.length)
    (wide : ∀ len ∈ lens, len ⌈/⌉ pageSize ≤ blockTables.width) (numRows : Option Nat)
    (padded : ∀ rows, numRows = some rows → lens.length ≤ rows) :
    ∃ table, pages host device contextLens blockTables pageSize numRows = some table ∧
      table.Describes lens blockTables pageSize (numRows.getD lens.length) ∧
      ∀ blocks : List (List Nat),
        (∀ i < lens.length, ∃ pad, blockTables.rows.getD i [] =
          (blocks.getD i []).map Int.ofNat ++ List.replicate pad (-1)) →
        (∀ i < lens.length, lens.getD i 0 ≤ (blocks.getD i []).length * pageSize) →
        (-1) ∉ table.indices := by
  have rows : lens.length ≤ numRows.getD lens.length := by
    cases numRows with
    | none => exact Nat.le_refl _
    | some rows => exact padded rows rfl
  have described := describes positive somePage enough wide rows
  refine ⟨_, pages_eq source enough wide padded, described, fun blocks own held among => ?_⟩
  rw [described.indices, List.mem_flatMap] at among
  obtain ⟨i, inside, among⟩ := among
  rw [List.mem_range] at inside
  obtain ⟨pad, row⟩ := own i inside
  rw [described.slice i inside, row] at among
  exact not_mem_padding somePage (held i inside) among

/-- Three rows, one of whole pages, on a graph of five rows. -/
theorem pages_cover_rows_threeRows :
    ∃ table, pages none none (some [4, 3, 1])
        ⟨[[7, 2, -1], [5, 6, -1], [9, -1, -1]], 3, by decide⟩ 2 (some 5) = some table ∧
      table.slice 0 = [7, 2] ∧ table.slice 4 = [] ∧ table.positions 2 1 = [0, 1, 2] := by
  obtain ⟨table, made, described, _⟩ := @pages_cover_rows none none (some [4, 3, 1]) [4, 3, 1] rfl
    (by decide) 2 (by decide) ⟨[[7, 2, -1], [5, 6, -1], [9, -1, -1]], 3, by decide⟩ (by decide)
    (by decide) (some 5) (by simp)
  exact ⟨table, made, described.slice 0 (by decide), described.padding 4 (by decide) (by decide),
    described.positions 1 (by decide)⟩

end FlashInfer

end LeanVllm
