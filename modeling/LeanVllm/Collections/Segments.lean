import Mathlib.Algebra.BigOperators.Group.List.Basic
import Mathlib.Algebra.GroupWithZero.Nat
import Mathlib.Data.List.Basic
import Mathlib.Data.List.Nodup

/-!
# Rows laid end to end

Rows of different lengths are stored as one array.  The array of running totals
says where each row starts; positions are computed by repeating per-row values
and counting within each row; and a scatter writes values at listed positions.
-/

namespace LeanVllm.Collections

universe u v

variable {α : Type u} {ρ : Type v}

/-! ## Entries by their numbers -/

theorem map_getD_range (values : List α) (default : α) :
    (List.range values.length).map (fun r => values.getD r default) = values := by
  apply List.ext_getElem
  · simp
  · intro r inside _
    simp only [List.length_map, List.length_range] at inside
    simp [List.getD_eq_getElem?_getD, inside]

/-- A map over a list, as one over its positions. -/
theorem map_eq_range {β : Type*} (values : List α) (default : α) (f : α → β) :
    values.map f = (List.range values.length).map fun r => f (values.getD r default) := by
  conv_lhs => rw [← map_getD_range values default, List.map_map]
  rfl

theorem flatMap_eq_range {β : Type*} (values : List α) (default : α) (f : α → List β) :
    values.flatMap f = (List.range values.length).flatMap fun r => f (values.getD r default) := by
  conv_lhs => rw [← map_getD_range values default, List.flatMap_map]

theorem zip_eq_map_range {β γ : Type*} {values : List β} {others : List γ}
    (long : values.length ≤ others.length) (default : β) (default' : γ) :
    values.zip others =
      (List.range values.length).map fun r => (values.getD r default, others.getD r default') := by
  apply List.ext_getElem
  · simp [Nat.min_eq_left long]
  · intro r inside _
    simp only [List.length_zip, Nat.min_eq_left long] at inside
    simp [List.getD_eq_getElem?_getD, inside, Nat.lt_of_lt_of_le inside long]

theorem foldl_max_le {values : List Nat} {first bound : Nat} :
    values.foldl max first ≤ bound ↔ first ≤ bound ∧ ∀ value ∈ values, value ≤ bound := by
  induction values generalizing first with
  | nil => simp
  | cons value values ih => rw [List.foldl_cons, ih, List.forall_mem_cons, Nat.max_le, and_assoc]

/-! ## Running totals -/

/-- The running totals of a list of lengths, from zero to their sum. -/
def cumsum (lens : List Nat) : List Nat :=
  (List.range (lens.length + 1)).map fun r => (lens.take r).sum

theorem length_cumsum (lens : List Nat) : (cumsum lens).length = lens.length + 1 := by
  simp [cumsum]

theorem getD_cumsum {lens : List Nat} {r : Nat} (inside : r ≤ lens.length) :
    (cumsum lens).getD r 0 = (lens.take r).sum := by
  simp [cumsum, List.getD_eq_getElem?_getD, Nat.lt_succ_of_le inside]

theorem getD_cumsum_succ {lens : List Nat} {r : Nat} (inside : r < lens.length) :
    (cumsum lens).getD (r + 1) 0 = (cumsum lens).getD r 0 + lens.getD r 0 := by
  rw [getD_cumsum inside, getD_cumsum (Nat.le_of_lt inside), List.sum_take_succ _ _ inside,
    List.getD_eq_getElem?_getD, List.getElem?_eq_getElem inside, Option.getD_some]

/-- Some row holds each position. -/
theorem exists_row {lens : List Nat} {x : Nat} (inside : x < lens.sum) :
    ∃ r len, lens[r]? = some len ∧ (lens.take r).sum ≤ x ∧ x < (lens.take r).sum + len := by
  induction lens generalizing x with
  | nil => exact absurd inside (Nat.not_lt_zero x)
  | cons len lens ih =>
      by_cases first : x < len
      · exact ⟨0, len, rfl, Nat.zero_le x, by simpa using first⟩
      · rw [List.sum_cons] at inside
        obtain ⟨r, own, found, lower, upper⟩ := @ih (x - len) (by omega)
        refine ⟨r + 1, own, found, ?_, ?_⟩
        · rw [List.take_succ_cons, List.sum_cons]
          omega
        · rw [List.take_succ_cons, List.sum_cons]
          omega

theorem row_end_le {lens : List Nat} {r len : Nat} (found : lens[r]? = some len) :
    (lens.take r).sum + len ≤ lens.sum := by
  induction lens generalizing r with
  | nil => exact nomatch found
  | cons first lens ih =>
      cases r with
      | zero =>
          obtain rfl : first = len := Option.some.inj found
          simp
      | succ r =>
          have rest := ih found
          rw [List.take_succ_cons, List.sum_cons, List.sum_cons]
          omega

/-- One row alone holds a position. -/
theorem row_unique {lens : List Nat} {r s len other x : Nat} (found : lens[r]? = some len)
    (also : lens[s]? = some other) (lower : (lens.take r).sum ≤ x)
    (upper : x < (lens.take r).sum + len) (lower' : (lens.take s).sum ≤ x)
    (upper' : x < (lens.take s).sum + other) : r = s := by
  induction lens generalizing r s x with
  | nil => exact nomatch found
  | cons first lens ih =>
      cases r with
      | zero =>
          cases s with
          | zero => rfl
          | succ s =>
              obtain rfl : first = len := Option.some.inj found
              rw [List.take_succ_cons, List.sum_cons] at lower'
              simp only [List.take_zero, List.sum_nil] at upper
              omega
      | succ r =>
          rw [List.take_succ_cons, List.sum_cons] at lower upper
          cases s with
          | zero =>
              obtain rfl : first = other := Option.some.inj also
              simp only [List.take_zero, List.sum_nil] at upper'
              omega
          | succ s =>
              rw [List.take_succ_cons, List.sum_cons] at lower' upper'
              exact congrArg (· + 1) (@ih r s (x - first) found also (by omega) (by omega)
                (by omega) (by omega))

/-- A row of an array of rows laid end to end. -/
def segment (values : List α) (lens : List Nat) (r : Nat) : List α :=
  (values.drop ((cumsum lens).getD r 0)).take (lens.getD r 0)

/-- Reading a row back. -/
theorem segment_flatMap (rows : List ρ) (content : ρ → List α) {r : Nat} {row : ρ}
    (found : rows[r]? = some row) :
    segment (rows.flatMap content) (rows.map fun row => (content row).length) r =
      content row := by
  have inside : r < rows.length := (List.getElem?_eq_some_iff.mp found).1
  rw [segment, getD_cumsum (by simpa using Nat.le_of_lt inside)]
  induction rows generalizing r with
  | nil => simp at found
  | cons first rows ih =>
      cases r with
      | zero =>
          obtain rfl := Option.some.inj found
          simp
      | succ r =>
          rw [List.getElem?_cons_succ] at found
          have next := ih found (List.getElem?_eq_some_iff.mp found).1
          simpa [← List.drop_drop, List.drop_left'] using next

theorem length_flatMap_take (rows : List ρ) (content : ρ → List α) {n : Nat}
    (inside : n ≤ rows.length) :
    ((rows.take n).flatMap content).length =
      (cumsum (rows.map fun row => (content row).length)).getD n 0 := by
  rw [getD_cumsum (by simpa using inside), List.length_flatMap, List.map_take]

/-- The first rows of an array of rows. -/
theorem take_flatMap (rows : List ρ) (content : ρ → List α) {n : Nat} (inside : n ≤ rows.length) :
    (rows.flatMap content).take ((cumsum (rows.map fun row => (content row).length)).getD n 0) =
      (rows.take n).flatMap content := by
  conv_lhs => rw [← List.take_append_drop n rows, List.flatMap_append, List.take_append_drop]
  exact List.take_left' (length_flatMap_take rows content inside)

/-- The rows after the first ones. -/
theorem drop_flatMap (rows : List ρ) (content : ρ → List α) {n : Nat} (inside : n ≤ rows.length) :
    (rows.flatMap content).drop ((cumsum (rows.map fun row => (content row).length)).getD n 0) =
      (rows.drop n).flatMap content := by
  conv_lhs => rw [← List.take_append_drop n rows, List.flatMap_append, List.take_append_drop]
  exact List.drop_left' (length_flatMap_take rows content inside)

/-- Consecutive rows of an array of rows. -/
theorem slice_flatMap (rows : List ρ) (content : ρ → List α) {first count : Nat}
    (inside : first + count ≤ rows.length) :
    let totals := cumsum (rows.map fun row => (content row).length)
    ((rows.flatMap content).drop (totals.getD first 0)).take
        (totals.getD (first + count) 0 - totals.getD first 0) =
      ((rows.drop first).take count).flatMap content := by
  intro totals
  have taken := take_flatMap rows content inside
  have dropped := drop_flatMap (rows.take (first + count)) content
    (show first ≤ (rows.take (first + count)).length by simp only [List.length_take]; omega)
  have start : (cumsum ((rows.take (first + count)).map fun row => (content row).length)).getD
      first 0 = totals.getD first 0 := by
    rw [getD_cumsum (by simp only [List.length_map, List.length_take]; omega),
      getD_cumsum (by simp only [List.length_map]; omega), List.map_take, List.take_take,
      Nat.min_eq_left (Nat.le_add_right _ _)]
  rw [← List.drop_take, taken, ← start, dropped, List.drop_take, Nat.add_sub_cancel_left]

/-- An array is its rows laid end to end. -/
theorem flatMap_segment {values : List α} {lens : List Nat} (whole : values.length = lens.sum) :
    (List.range lens.length).flatMap (segment values lens) = values := by
  -- the first `n` rows are what comes before the `n`-th
  have before : ∀ n ≤ lens.length, (List.range n).flatMap (segment values lens) =
      values.take ((cumsum lens).getD n 0) := by
    intro n
    induction n with
    | zero =>
        intro _
        rw [getD_cumsum (Nat.zero_le _)]
        simp
    | succ n ih =>
        intro inside
        rw [List.range_succ, List.flatMap_append, ih (Nat.le_of_succ_le inside),
          getD_cumsum_succ inside, List.take_add]
        simp [segment]
  rw [before _ (Nat.le_refl _), getD_cumsum (Nat.le_refl _), List.take_length, ← whole,
    List.take_length]

theorem segment_zipWith {β γ : Type*} (f : α → β → γ) (first : List α) (second : List β)
    (lens : List Nat) (r : Nat) :
    segment (List.zipWith f first second) lens r =
      List.zipWith f (segment first lens r) (segment second lens r) := by
  rw [segment, segment, segment, List.drop_zipWith, List.take_zipWith]

theorem segment_map {β : Type*} (f : α → β) (values : List α) (lens : List Nat) (r : Nat) :
    segment (values.map f) lens r = (segment values lens r).map f := by
  rw [segment, segment, List.map_take, List.map_drop]

theorem length_segment {values : List α} {lens : List Nat} (whole : values.length = lens.sum)
    {r : Nat} (inside : r < lens.length) : (segment values lens r).length = lens.getD r 0 := by
  have total : (lens.take (r + 1)).sum ≤ lens.sum := by
    conv_rhs => rw [← List.take_append_drop (r + 1) lens, List.sum_append]
    exact Nat.le_add_right _ _
  have stop : (lens.take (r + 1)).sum = (cumsum lens).getD r 0 + lens.getD r 0 := by
    rw [← getD_cumsum inside, getD_cumsum_succ inside]
  rw [segment, List.length_take, List.length_drop]
  omega

theorem getD_segment (values : List α) (lens : List Nat) (default : α) {r o : Nat}
    (inside : o < lens.getD r 0) :
    (segment values lens r).getD o default =
      values.getD ((cumsum lens).getD r 0 + o) default := by
  have entry : (segment values lens r)[o]? = values[(cumsum lens).getD r 0 + o]? := by
    rw [segment, List.getElem?_take_of_lt inside, List.getElem?_drop]
  simp only [List.getD_eq_getElem?_getD] at entry ⊢
  rw [entry]

/-- An entry of a row, by its position in the whole array. -/
theorem getElem?_flatMap (rows : List ρ) (content : ρ → List α) {r o : Nat} {row : ρ}
    (found : rows[r]? = some row) (inside : o < (content row).length) :
    (rows.flatMap content)[(cumsum (rows.map fun row => (content row).length)).getD r 0 + o]? =
      (content row)[o]? := by
  have read := segment_flatMap rows content found
  have len : (rows.map fun row => (content row).length).getD r 0 = (content row).length := by
    simp [List.getD_eq_getElem?_getD, found]
  rw [segment, len] at read
  rw [← read] at inside ⊢
  rw [List.length_take] at inside
  rw [List.getElem?_take_of_lt (by omega), List.getElem?_drop]

/-- Rows of one length, laid end to end. -/
theorem getElem?_flatten_uniform {rows : List (List α)} {width : Nat}
    (uniform : ∀ row ∈ rows, row.length = width) (r : Nat) {o : Nat} (inside : o < width) :
    rows.flatten[r * width + o]? = rows[r]?.bind fun row => row[o]? := by
  induction rows generalizing r with
  | nil => simp
  | cons first rows ih =>
      have len := uniform first List.mem_cons_self
      cases r with
      | zero => simp [List.getElem?_append_left, len, inside]
      | succ r =>
          have further : (r + 1) * width + o - first.length = r * width + o := by
            rw [len, Nat.succ_mul]
            omega
          rw [List.flatten_cons, List.getElem?_append_right (by rw [len, Nat.succ_mul]; omega),
            further, ih fun row member => uniform row (List.mem_cons_of_mem _ member)]
          rfl

/-! ## Counting within rows -/

/-- Each value as many times as its count says. -/
def repeatEach (values : List α) (counts : List Nat) : List α :=
  (values.zip counts).flatMap fun entry => List.replicate entry.2 entry.1

/-- The offset of every entry within its row: a count over the whole array less
the start of the entry's row. -/
def offsetsWithin (lens : List Nat) : List Nat :=
  List.zipWith (· - ·) (List.range lens.sum) (repeatEach (cumsum lens) lens)

theorem cumsum_cons (len : Nat) (lens : List Nat) :
    cumsum (len :: lens) = 0 :: (cumsum lens).map (len + ·) := by
  simp [cumsum, List.range_succ_eq_map, Function.comp_def]

theorem repeatEach_cons (value : α) (values : List α) (count : Nat) (counts : List Nat) :
    repeatEach (value :: values) (count :: counts) =
      List.replicate count value ++ repeatEach values counts := by
  simp [repeatEach]

theorem repeatEach_map {β : Type v} (f : α → β) (values : List α) (counts : List Nat) :
    repeatEach (values.map f) counts = (repeatEach values counts).map f := by
  induction values generalizing counts with
  | nil => simp [repeatEach]
  | cons value values ih =>
      cases counts with
      | nil => simp [repeatEach]
      | cons count counts => simp [repeatEach_cons, ih]

theorem offsetsWithin_cons (len : Nat) (lens : List Nat) :
    offsetsWithin (len :: lens) = List.range len ++ offsetsWithin lens := by
  have first : List.zipWith (· - ·) (List.range len) (List.replicate len 0) = List.range len := by
    apply List.ext_getElem <;> simp
  have later : List.zipWith (· - ·) ((List.range lens.sum).map (len + ·))
      ((repeatEach (cumsum lens) lens).map (len + ·)) = offsetsWithin lens := by
    rw [List.zipWith_map, offsetsWithin]
    simp only [Nat.add_sub_add_left]
  rw [offsetsWithin, List.sum_cons, List.range_add, cumsum_cons, repeatEach_cons, repeatEach_map,
    List.zipWith_append (by simp), first, later]

/-- Every row counts its own entries from zero. -/
theorem offsetsWithin_eq (lens : List Nat) : offsetsWithin lens = lens.flatMap List.range := by
  induction lens with
  | nil => rfl
  | cons len lens ih => rw [offsetsWithin_cons, ih, List.flatMap_cons]

/-- Per-row values repeated along their rows meet the offsets within the rows. -/
theorem zipWith_repeatEach {β : Type v} {γ : Type*} (f : α → Nat → γ) {rows : List β}
    (value : β → α) (count : β → Nat) :
    List.zipWith f (repeatEach (rows.map value) (rows.map count))
        (offsetsWithin (rows.map count)) =
      rows.flatMap fun row => (List.range (count row)).map (f (value row)) := by
  induction rows with
  | nil => rfl
  | cons row rows ih =>
      have own : List.zipWith f (List.replicate (count row) (value row))
          (List.range (count row)) = (List.range (count row)).map (f (value row)) := by
        apply List.ext_getElem <;> simp
      rw [List.map_cons, List.map_cons, repeatEach_cons, offsetsWithin_cons,
        List.zipWith_append (by simp), own, ih, List.flatMap_cons]

theorem zipWith_zipWith_self {β γ δ : Type*} (f : α → β → γ) (g : γ → α → δ) (first : List α)
    (second : List β) :
    List.zipWith g (List.zipWith f first second) first =
      List.zipWith (fun a b => g (f a b) a) first second := by
  induction first generalizing second with
  | nil => rfl
  | cons a first ih =>
      cases second with
      | nil => rfl
      | cons b second => simp only [List.zipWith_cons_cons, ih]

/-- Row numbers repeated along their rows meet the positions of the whole array. -/
theorem zipWith_rowNumbers {γ : Type*} (f : Nat → Nat → γ) (lens : List Nat) :
    List.zipWith f (repeatEach (List.range lens.length) lens) (List.range lens.sum) =
      (List.range lens.length).flatMap fun r =>
        (List.range (lens.getD r 0)).map fun o => f r ((cumsum lens).getD r 0 + o) := by
  induction lens generalizing f with
  | nil => rfl
  | cons len lens ih =>
      have own : List.zipWith f (List.replicate len 0) (List.range len) =
          (List.range len).map (f 0) := by
        apply List.ext_getElem <;> simp
      have later := ih fun r p => f (r + 1) (len + p)
      rw [List.length_cons, List.range_succ_eq_map, repeatEach_cons, repeatEach_map,
        List.sum_cons, List.range_add, List.zipWith_append (by simp), own, List.zipWith_map,
        List.flatMap_cons, List.flatMap_map]
      have first : (cumsum (len :: lens)).getD 0 0 = 0 := by simp [cumsum_cons]
      rw [first]
      simp only [List.getD_cons_zero, Nat.zero_add, Nat.succ_eq_add_one, List.getD_cons_succ]
      congr 1
      rw [later]
      apply List.flatMap_congr
      intro r member
      have inside : r < (cumsum lens).length := by
        simp only [cumsum, List.length_map, List.length_range]
        exact Nat.lt_succ_of_lt (List.mem_range.mp member)
      have shifted : (cumsum (len :: lens)).getD (r + 1) 0 = len + (cumsum lens).getD r 0 := by
        simp [cumsum_cons, List.getD_eq_getElem?_getD, inside]
      rw [shifted]
      simp only [Nat.add_assoc]

theorem length_repeatEach {values : List α} {counts : List Nat}
    (same : values.length = counts.length) : (repeatEach values counts).length = counts.sum := by
  have zipped : (values.zip counts).map Prod.snd = counts := by
    rw [List.map_snd_zip (Nat.le_of_eq same.symm)]
  rw [repeatEach, List.length_flatMap]
  simp only [List.length_replicate]
  exact congrArg List.sum zipped

theorem length_repeatEach_range (lens : List Nat) :
    (repeatEach (List.range lens.length) lens).length = lens.sum :=
  length_repeatEach List.length_range

/-- The rows' positions, row after row, are all positions. -/
theorem flatMap_positions (lens : List Nat) :
    ((List.range lens.length).flatMap fun r =>
      (List.range (lens.getD r 0)).map fun o => (cumsum lens).getD r 0 + o) =
        List.range lens.sum := by
  rw [← zipWith_rowNumbers fun _ p => p]
  apply List.ext_getElem
  · simp [length_repeatEach_range]
  · simp

/-- Rows of equal lengths, laid end to end, pair up row by row. -/
theorem zip_flatMap {β γ : Type*} {first : ρ → List β} {second : ρ → List γ} {rows : List ρ}
    (same : ∀ row ∈ rows, (first row).length = (second row).length) :
    (rows.flatMap first).zip (rows.flatMap second) =
      rows.flatMap fun row => (first row).zip (second row) := by
  induction rows with
  | nil => rfl
  | cons row rows ih =>
      rw [List.flatMap_cons, List.flatMap_cons, List.flatMap_cons,
        List.zip_append (same row List.mem_cons_self),
        ih fun row member => same row (List.mem_cons_of_mem _ member)]

/-! ## Scatter -/

/-- Write the `k`-th value at the `k`-th listed position. -/
def indexCopy (values : List α) (dst : List Nat) (source : List α) : List α :=
  (dst.zip source).foldl (fun values write => values.set write.1 write.2) values

@[simp]
theorem indexCopy_nil (values source : List α) : indexCopy values [] source = values :=
  rfl

theorem indexCopy_cons (values : List α) (p : Nat) (dst : List Nat) (value : α)
    (source : List α) :
    indexCopy values (p :: dst) (value :: source) = indexCopy (values.set p value) dst source :=
  rfl

@[simp]
theorem length_indexCopy (values : List α) (dst : List Nat) (source : List α) :
    (indexCopy values dst source).length = values.length := by
  induction dst generalizing values source with
  | nil => rfl
  | cons p dst ih =>
      cases source with
      | nil => rfl
      | cons value source => rw [indexCopy_cons, ih, List.length_set]

theorem indexCopy_append {firstDst secondDst : List Nat} {first second : List α}
    (same : firstDst.length = first.length) (values : List α) :
    indexCopy values (firstDst ++ secondDst) (first ++ second) =
      indexCopy (indexCopy values firstDst first) secondDst second := by
  rw [indexCopy, List.zip_append same, List.foldl_append]
  rfl

/-- Writes past a first part leave it alone. -/
theorem indexCopy_shift (before values : List α) (dst : List Nat) (source : List α) :
    indexCopy (before ++ values) (dst.map (before.length + ·)) source =
      before ++ indexCopy values dst source := by
  induction dst generalizing values source with
  | nil => rfl
  | cons p dst ih =>
      cases source with
      | nil => rfl
      | cons value source =>
          rw [List.map_cons, indexCopy_cons, indexCopy_cons, ← ih,
            List.set_append_right _ _ (by omega), Nat.add_sub_cancel_left]

/-- Writes into a first part leave the rest alone. -/
theorem indexCopy_within {values : List α} {dst : List Nat}
    (inside : ∀ p ∈ dst, p < values.length) (after source : List α) :
    indexCopy (values ++ after) dst source = indexCopy values dst source ++ after := by
  induction dst generalizing values source with
  | nil => rfl
  | cons p dst ih =>
      cases source with
      | nil => rfl
      | cons value source =>
          rw [indexCopy_cons, indexCopy_cons, List.set_append_left _ _ (inside p List.mem_cons_self)]
          apply ih
          intro q member
          rw [List.length_set]
          exact inside q (List.mem_cons_of_mem _ member)

/-- A position that is not listed keeps its value. -/
theorem getElem?_indexCopy_of_not_mem {dst : List Nat} {q : Nat} (absent : q ∉ dst)
    (values source : List α) : (indexCopy values dst source)[q]? = values[q]? := by
  induction dst generalizing values source with
  | nil => rfl
  | cons p dst ih =>
      rw [List.mem_cons, not_or] at absent
      cases source with
      | nil => rfl
      | cons value source =>
          rw [indexCopy_cons, ih absent.2, List.getElem?_set_ne (Ne.symm absent.1)]

/-- Distinct positions hold the values written there. -/
theorem getElem?_indexCopy {dst : List Nat} (distinct : dst.Nodup) {values source : List α}
    (inside : ∀ p ∈ dst, p < values.length) {k p : Nat} {value : α} (position : dst[k]? = some p)
    (written : source[k]? = some value) : (indexCopy values dst source)[p]? = some value := by
  induction dst generalizing values source k with
  | nil => simp at position
  | cons q dst ih =>
      obtain ⟨notLater, later⟩ := List.nodup_cons.mp distinct
      cases source with
      | nil => simp at written
      | cons first source =>
          rw [indexCopy_cons]
          cases k with
          | zero =>
              obtain rfl := Option.some.inj position
              obtain rfl := Option.some.inj written
              rw [getElem?_indexCopy_of_not_mem notLater,
                List.getElem?_set_self (inside q List.mem_cons_self)]
          | succ k =>
              refine ih later ?_ position written
              intro r member
              rw [List.length_set]
              exact inside r (List.mem_cons_of_mem _ member)

/-- Where each entry of an ordering of the first numbers stands in it. -/
def inverseOrder (order : List Nat) : List Nat :=
  indexCopy (List.replicate order.length 0) order (List.range order.length)

theorem getElem?_inverseOrder {order : List Nat} {n i : Nat} (perm : order.Perm (List.range n))
    (inside : i < n) : ∃ r, (inverseOrder order)[i]? = some r ∧ order[r]? = some i := by
  have member : i ∈ order := perm.mem_iff.mpr (List.mem_range.mpr inside)
  obtain ⟨r, found⟩ := List.mem_iff_getElem?.mp member
  refine ⟨r, getElem?_indexCopy (perm.nodup_iff.mpr List.nodup_range) ?_ found ?_, found⟩
  · intro p among
    rw [List.length_replicate, perm.length_eq, List.length_range]
    exact List.mem_range.mp (perm.mem_iff.mp among)
  · exact List.getElem?_range (List.getElem?_eq_some_iff.mp found).1

/-- The first positions hold the first values. -/
theorem indexCopy_range {values source : List α} {n : Nat} (fits : n ≤ values.length)
    (enough : n ≤ source.length) :
    indexCopy values (List.range n) (source.take n) = source.take n ++ values.drop n := by
  apply List.ext_getElem?
  intro q
  have length : (source.take n).length = n := List.length_take_of_le enough
  by_cases inside : q < n
  · have value : (source.take n)[q]? = some source[q] := by
      rw [List.getElem?_take_of_lt inside, List.getElem?_eq_getElem]
    rw [List.getElem?_append_left (by omega), value]
    refine getElem?_indexCopy List.nodup_range ?_ (List.getElem?_range inside) value
    intro p member
    exact Nat.lt_of_lt_of_le (List.mem_range.mp member) fits
  · rw [getElem?_indexCopy_of_not_mem (by simpa using inside),
      List.getElem?_append_right (by omega), List.getElem?_drop, length]
    congr 1
    omega

/-- Positions listed row by row, as positions of the rows laid end to end. -/
def flatPositions (content : ρ → List α) (positions : ρ → List Nat) : Nat → List ρ → List Nat
  | _, [] => []
  | base, row :: rows =>
      (positions row).map (base + ·) ++
        flatPositions content positions (base + (content row).length) rows

theorem flatPositions_congr {β : Type*} {content : ρ → List α} {other : ρ → List β} {rows : List ρ}
    (same : ∀ row ∈ rows, (content row).length = (other row).length)
    (positions : ρ → List Nat) (base : Nat) :
    flatPositions content positions base rows = flatPositions other positions base rows := by
  induction rows generalizing base with
  | nil => rfl
  | cons row rows ih =>
      rw [flatPositions, flatPositions, same row List.mem_cons_self,
        ih fun row member => same row (List.mem_cons_of_mem _ member)]

theorem lt_of_mem_flatPositions {content : ρ → List α} {positions : ρ → List Nat} {rows : List ρ}
    (inside : ∀ row ∈ rows, ∀ p ∈ positions row, p < (content row).length) {base p : Nat}
    (member : p ∈ flatPositions content positions base rows) :
    p < base + (rows.flatMap content).length := by
  induction rows generalizing base with
  | nil => simp [flatPositions] at member
  | cons row rows ih =>
      rw [List.flatMap_cons, List.length_append]
      rw [flatPositions, List.mem_append, List.mem_map] at member
      rcases member with ⟨o, own, rfl⟩ | later
      · have := inside row List.mem_cons_self o own
        omega
      · have := ih (fun row member => inside row (List.mem_cons_of_mem _ member)) later
        omega

theorem le_of_mem_flatPositions {content : ρ → List α} {positions : ρ → List Nat} {rows : List ρ}
    {base p : Nat} (member : p ∈ flatPositions content positions base rows) : base ≤ p := by
  induction rows generalizing base with
  | nil => simp [flatPositions] at member
  | cons row rows ih =>
      rw [flatPositions, List.mem_append, List.mem_map] at member
      rcases member with ⟨o, _, rfl⟩ | later
      · exact Nat.le_add_right _ _
      · exact Nat.le_of_add_right_le (ih later)

/-- Positions that mark the occurrences of a value in each row mark them in the rows
laid end to end. -/
theorem mem_flatPositions_iff {content : ρ → List α} {positions : ρ → List Nat} {rows : List ρ}
    {value : α}
    (marks : ∀ row ∈ rows, ∀ o, o ∈ positions row ↔ (content row)[o]? = some value)
    (base p : Nat) :
    base + p ∈ flatPositions content positions base rows ↔
      (rows.flatMap content)[p]? = some value := by
  induction rows generalizing base p with
  | nil => simp [flatPositions]
  | cons row rows ih =>
      have rest := ih fun row member => marks row (List.mem_cons_of_mem _ member)
      have own : base + p ∈ (positions row).map (base + ·) ↔ p ∈ positions row := by
        simp
      rw [flatPositions, List.mem_append, own, marks row List.mem_cons_self, List.flatMap_cons]
      by_cases inside : p < (content row).length
      · rw [List.getElem?_append_left inside]
        refine or_iff_left ?_
        intro later
        have := le_of_mem_flatPositions later
        omega
      · rw [List.getElem?_append_right (Nat.le_of_not_lt inside),
          List.getElem?_eq_none (Nat.le_of_not_lt inside), ← rest (base + (content row).length)]
        have place : base + (content row).length + (p - (content row).length) = base + p := by
          omega
        rw [place]
        simp

/-- A scatter into rows laid end to end is a scatter into each row. -/
theorem indexCopy_flatMap {content source : ρ → List α} {positions : ρ → List Nat} {rows : List ρ}
    (inside : ∀ row ∈ rows, ∀ p ∈ positions row, p < (content row).length)
    (same : ∀ row ∈ rows, (positions row).length = (source row).length) (before : List α) :
    indexCopy (before ++ rows.flatMap content)
        (flatPositions content positions before.length rows) (rows.flatMap source) =
      before ++ rows.flatMap fun row => indexCopy (content row) (positions row) (source row) := by
  induction rows generalizing before with
  | nil => simp [flatPositions]
  | cons row rows ih =>
      have own : indexCopy (before ++ (content row ++ rows.flatMap content))
          ((positions row).map (before.length + ·)) (source row) =
            before ++ indexCopy (content row) (positions row) (source row) ++
              rows.flatMap content := by
        rw [indexCopy_shift, indexCopy_within (inside row List.mem_cons_self), List.append_assoc]
      have base : before.length + (content row).length =
          (before ++ indexCopy (content row) (positions row) (source row)).length := by
        simp
      rw [List.flatMap_cons, List.flatMap_cons, List.flatMap_cons, flatPositions,
        indexCopy_append (by simpa using same row List.mem_cons_self), own, base,
        ih (fun row member => inside row (List.mem_cons_of_mem _ member))
          fun row member => same row (List.mem_cons_of_mem _ member), List.append_assoc]

theorem flatPositions_map {β : Type v} (content : ρ → List α) (positions : ρ → List Nat)
    (f : β → ρ) (rows : List β) (base : Nat) :
    flatPositions content positions base (rows.map f) =
      flatPositions (fun row => content (f row)) (fun row => positions (f row)) base rows := by
  induction rows generalizing base with
  | nil => rfl
  | cons row rows ih => rw [List.map_cons, flatPositions, flatPositions, ih]

/-- Positions listed row by row, by the running totals. -/
theorem flatPositions_eq (content : ρ → List α) (positions : ρ → List Nat) (rows : List ρ)
    (base : Nat) :
    flatPositions content positions base rows =
      (rows.zip (cumsum (rows.map fun row => (content row).length))).flatMap fun entry =>
        (positions entry.1).map (base + entry.2 + ·) := by
  induction rows generalizing base with
  | nil => rfl
  | cons row rows ih =>
      rw [flatPositions, ih, List.map_cons, cumsum_cons, List.zip_cons_cons, List.flatMap_cons,
        List.zip_map_right, List.flatMap_map, Nat.add_zero]
      congr 1
      apply List.flatMap_congr
      intro entry _
      simp [Nat.add_assoc]

/-- Entries read at listed positions of rows laid end to end, beside the entries the
positions are for. -/
theorem zipWith_flatPositions {β γ δ : Type*} (combine : β → γ → δ) (default : β)
    {content : ρ → List α} {values : ρ → List β} {entries : ρ → List γ} {rows : List ρ}
    (same : ∀ row ∈ rows, (values row).length = (content row).length)
    (short : ∀ row ∈ rows, (entries row).length ≤ (values row).length) (before : List β) :
    List.zipWith (fun k entry => combine ((before ++ rows.flatMap values).getD k default) entry)
        (flatPositions content (fun row => List.range (entries row).length) before.length rows)
        (rows.flatMap entries) =
      rows.flatMap fun row => List.zipWith combine (values row) (entries row) := by
  induction rows generalizing before with
  | nil => rfl
  | cons row rows ih =>
      have rest := ih (fun row member => same row (List.mem_cons_of_mem _ member))
        (fun row member => short row (List.mem_cons_of_mem _ member)) (before ++ values row)
      rw [List.length_append, same row List.mem_cons_self] at rest
      have fits := short row List.mem_cons_self
      have own : List.zipWith (fun k entry =>
          combine ((before ++ (values row ++ rows.flatMap values)).getD k default) entry)
          ((List.range (entries row).length).map (before.length + ·)) (entries row) =
          List.zipWith combine (values row) (entries row) := by
        apply List.ext_getElem
        · simp [Nat.min_eq_right fits]
        · intro k inside _
          simp only [List.length_zipWith, List.length_map, List.length_range, Nat.min_self]
            at inside
          have small : k < (values row).length := Nat.lt_of_lt_of_le inside fits
          have read : (before ++ (values row ++ rows.flatMap values))[before.length + k]? =
              some (values row)[k] := by
            rw [List.getElem?_append_right (Nat.le_add_right _ _), Nat.add_sub_cancel_left,
              List.getElem?_append_left small, List.getElem?_eq_getElem small]
          simp [List.getD_eq_getElem?_getD, read]
      rw [List.flatMap_cons, List.flatMap_cons, List.flatMap_cons, flatPositions,
        List.zipWith_append (by simp), own, ← rest, List.append_assoc]

theorem repeatEach_rows {β : Type v} (rows : List β) (value : β → α) (count : β → Nat) :
    repeatEach (rows.map value) (rows.map count) =
      rows.flatMap fun row => List.replicate (count row) (value row) := by
  induction rows with
  | nil => rfl
  | cons row rows ih => rw [List.map_cons, List.map_cons, repeatEach_cons, ih, List.flatMap_cons]

/-! ## Writes into rows -/

/-- Change the listed entries, one change after the other. -/
def modifyEach {β : Type v} (change : β → α → α) (values : List α) (writes : List (Nat × β)) :
    List α :=
  writes.foldl (fun values write => values.modify write.1 (change write.2)) values

@[simp]
theorem length_modifyEach {β : Type v} (change : β → α → α) (values : List α)
    (writes : List (Nat × β)) : (modifyEach change values writes).length = values.length := by
  induction writes generalizing values with
  | nil => rfl
  | cons write writes ih =>
      have step : modifyEach change values (write :: writes) =
          modifyEach change (values.modify write.1 (change write.2)) writes := rfl
      rw [step, ih, List.length_modify]

/-- An entry after all changes: those listed for it, in order. -/
theorem getElem?_modifyEach {β : Type v} (change : β → α → α) (values : List α)
    (writes : List (Nat × β)) (r : Nat) :
    (modifyEach change values writes)[r]? = values[r]?.map fun value =>
      ((writes.filter fun write => write.1 = r).map Prod.snd).foldl
        (fun value write => change write value) value := by
  induction writes generalizing values with
  | nil => simp [modifyEach]
  | cons write writes ih =>
      have step : modifyEach change values (write :: writes) =
          modifyEach change (values.modify write.1 (change write.2)) writes := rfl
      rw [step, ih, List.getElem?_modify]
      by_cases own : write.1 = r
      · rw [List.filter_cons_of_pos (by simpa using own)]
        cases values[r]? <;> simp [own]
      · rw [List.filter_cons_of_neg (by simpa using own)]
        cases values[r]? <;> simp [own]

theorem mem_of_mem_repeatEach {values : List α} {counts : List Nat} {value : α}
    (member : value ∈ repeatEach values counts) : value ∈ values := by
  obtain ⟨entry, among, repeated⟩ := List.mem_flatMap.mp member
  rw [List.eq_of_mem_replicate repeated]
  exact (List.of_mem_zip among).1

/-- The writes into one row, out of those of rows laid end to end. -/
theorem filter_rowNumbers {β : Type v} {γ : Type*} (content : γ → List β) (rows : List γ)
    (base r : Nat) {row : γ} (found : rows[r]? = some row) :
    (((repeatEach (List.range' base rows.length)
        (rows.map fun row => (content row).length)).zip (rows.flatMap content)).filter
      fun write => write.1 = base + r).map Prod.snd = content row := by
  induction rows generalizing base r with
  | nil => simp at found
  | cons first rows ih =>
      have own : (List.replicate (content first).length base).zip (content first) =
          (content first).map fun entry => (base, entry) := by
        apply List.ext_getElem <;> simp
      rw [List.length_cons, List.range'_succ, List.map_cons, repeatEach_cons, List.flatMap_cons,
        List.zip_append (by simp), own, List.filter_append, List.map_append]
      cases r with
      | zero =>
          obtain rfl := Option.some.inj found
          have later : ∀ write ∈ (repeatEach (List.range' (base + 1) rows.length)
              (rows.map fun row => (content row).length)).zip (rows.flatMap content),
              ¬ decide (write.1 = base + 0) = true := by
            intro write member
            have number := mem_of_mem_repeatEach (List.of_mem_zip member).1
            have small := (List.mem_range'_1.mp number).1
            simp only [decide_eq_true_eq]
            omega
          rw [List.filter_eq_nil_iff.mpr later, List.filter_eq_self.mpr (by simp), List.map_map,
            List.map_nil, List.append_nil]
          exact List.map_id _
      | succ r =>
          have rest := ih (base + 1) r found
          have here : ((content first).map fun entry => (base, entry)).filter
              (fun write => write.1 = base + (r + 1)) = [] := by
            rw [List.filter_eq_nil_iff]
            intro write member
            obtain ⟨entry, _, rfl⟩ := List.mem_map.mp member
            simp
          rw [here, List.map_nil, List.nil_append, ← rest]
          simp only [Nat.add_assoc, Nat.add_comm 1 r]

end LeanVllm.Collections
