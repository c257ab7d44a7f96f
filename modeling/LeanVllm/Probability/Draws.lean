import Mathlib.Analysis.Convex.StdSimplex
import Mathlib.MeasureTheory.Measure.Lebesgue.Basic
import Mathlib.Probability.ProbabilityMassFunction.Constructions
import LeanVllm.Collections.Segments

/-!
# Independent draws

A list of laws is drawn from one after the other, each draw independent of the
others.  Part of such a list has the law of drawing that part alone.

Two draws are compared with a target: a uniform number is below it with that
probability, and a race of weights is won with probability proportional to the
weight.
-/

namespace LeanVllm.Probability

open MeasureTheory
open scoped ENNReal

universe u v

variable {α : Type u} {β : Type v}

/-- Functions that agree on all that can be drawn have the same law. -/
theorem map_congr_support {p : PMF α} {f g : α → β} (agree : ∀ a ∈ p.support, f a = g a) :
    p.map f = p.map g := by
  ext b
  rw [PMF.map_apply, PMF.map_apply]
  apply tsum_congr
  intro a
  by_cases drawn : p a = 0
  · simp [drawn]
  · rw [agree a ((PMF.mem_support_iff p a).mpr drawn)]

theorem bind_congr_support {p : PMF α} {f g : α → PMF β} (agree : ∀ a ∈ p.support, f a = g a) :
    p.bind f = p.bind g := by
  ext b
  rw [PMF.bind_apply, PMF.bind_apply]
  apply tsum_congr
  intro a
  by_cases drawn : p a = 0
  · simp [drawn]
  · rw [agree a ((PMF.mem_support_iff p a).mpr drawn)]

theorem map_apply_of_injective {f : α → β} (injective : Function.Injective f) (p : PMF α) (a : α) :
    (p.map f) (f a) = p a := by
  rw [PMF.map_apply, tsum_eq_single a]
  · rw [if_pos rfl]
  · intro other different
    rw [if_neg]
    intro equal
    exact different (injective equal).symm

/-! ## Lists of draws -/

/-- One draw from each law, in order. -/
noncomputable def drawEach : List (PMF α) → PMF (List α)
  | [] => PMF.pure []
  | law :: laws => law.bind fun a => (drawEach laws).map (a :: ·)

theorem length_of_mem_support {laws : List (PMF α)} {drawn : List α}
    (member : drawn ∈ (drawEach laws).support) : drawn.length = laws.length := by
  induction laws generalizing drawn with
  | nil =>
      rw [drawEach, PMF.mem_support_pure_iff] at member
      rw [member]
      rfl
  | cons law laws ih =>
      rw [drawEach, PMF.mem_support_bind_iff] at member
      obtain ⟨a, _, among⟩ := member
      rw [PMF.mem_support_map_iff] at among
      obtain ⟨rest, later, rfl⟩ := among
      simp [ih later]

theorem drawEach_append (first second : List (PMF α)) :
    drawEach (first ++ second) =
      (drawEach first).bind fun xs => (drawEach second).map (xs ++ ·) := by
  induction first with
  | nil =>
      rw [List.nil_append, drawEach, PMF.pure_bind]
      exact (PMF.map_id _).symm
  | cons law first ih =>
      rw [List.cons_append, drawEach, drawEach, PMF.bind_bind]
      congr 1
      funext a
      rw [ih, PMF.map_bind, PMF.bind_map]
      congr 1
      funext xs
      rw [PMF.map_comp]
      rfl

theorem map_take_drawEach (first second : List (PMF α)) :
    (drawEach (first ++ second)).map (List.take first.length) = drawEach first := by
  rw [drawEach_append, PMF.map_bind]
  have constant : ∀ xs ∈ (drawEach first).support,
      ((drawEach second).map (xs ++ ·)).map (List.take first.length) = PMF.pure xs := by
    intro xs member
    rw [PMF.map_comp, ← length_of_mem_support member]
    have taken : List.take xs.length ∘ (xs ++ ·) = Function.const (List α) xs := by
      funext ys
      simp
    rw [taken, PMF.map_const]
  rw [bind_congr_support constant, PMF.bind_pure]

theorem map_drop_drawEach (first second : List (PMF α)) :
    (drawEach (first ++ second)).map (List.drop first.length) = drawEach second := by
  rw [drawEach_append, PMF.map_bind]
  have constant : ∀ xs ∈ (drawEach first).support,
      ((drawEach second).map (xs ++ ·)).map (List.drop first.length) = drawEach second := by
    intro xs member
    rw [PMF.map_comp, ← length_of_mem_support member]
    have dropped : List.drop xs.length ∘ (xs ++ ·) = id := by
      funext ys
      simp
    rw [dropped, PMF.map_id]
  rw [bind_congr_support constant, PMF.bind_const]

/-- The draws of one row, out of rows laid end to end. -/
theorem map_segment_drawEach {ρ : Type v} (rows : List ρ) (laws : ρ → List (PMF α)) {r : Nat}
    {row : ρ} (found : rows[r]? = some row) :
    (drawEach (rows.flatMap laws)).map
        (fun drawn => Collections.segment drawn (rows.map fun row => (laws row).length) r) =
      drawEach (laws row) := by
  have inside : r < rows.length := (List.getElem?_eq_some_iff.mp found).1
  have own : rows[r] = row := (List.getElem?_eq_some_iff.mp found).2
  have split : rows.flatMap laws =
      (rows.take r).flatMap laws ++ (laws row ++ (rows.drop (r + 1)).flatMap laws) := by
    conv_lhs => rw [← List.take_append_drop r rows, List.drop_eq_getElem_cons inside, own]
    rw [List.flatMap_append, List.flatMap_cons]
  have start : (Collections.cumsum (rows.map fun row => (laws row).length)).getD r 0 =
      ((rows.take r).flatMap laws).length := by
    rw [Collections.getD_cumsum (by simpa using Nat.le_of_lt inside), ← List.map_take,
      List.length_flatMap]
  have len : (rows.map fun row => (laws row).length).getD r 0 = (laws row).length := by
    simp [List.getD_eq_getElem?_getD, found]
  have read : (fun drawn : List α =>
      Collections.segment drawn (rows.map fun row => (laws row).length) r) =
      List.take (laws row).length ∘ List.drop ((rows.take r).flatMap laws).length := by
    funext drawn
    rw [Collections.segment, start, len]
    rfl
  rw [read, split, ← PMF.map_comp, map_drop_drawEach, map_take_drawEach]

/-! ## A uniform draw below a bound -/

/-- The uniform law on `[0, 1)`. -/
noncomputable def uniform : Measure ℝ :=
  volume.restrict (Set.Ico 0 1)

instance : IsProbabilityMeasure uniform :=
  ⟨by simp [uniform]⟩

theorem measurable_below (q : ℝ) : Measurable fun u : ℝ => decide (u < q) := by
  apply measurable_to_bool
  have below : Set.preimage (fun u : ℝ => decide (u < q)) {true} = Set.Iio q := by
    ext u
    simp
  rw [below]
  exact measurableSet_Iio

instance (q : ℝ) : IsProbabilityMeasure (uniform.map fun u => decide (u < q)) :=
  Measure.isProbabilityMeasure_map (measurable_below q).aemeasurable

/-- The law of `u < q` for a uniform `u`. -/
noncomputable def below (q : ℝ) : PMF Bool :=
  (uniform.map fun u => decide (u < q)).toPMF

theorem below_true {q : ℝ} (le_one : q ≤ 1) : below q true = ENNReal.ofReal q := by
  have event : Set.preimage (fun u : ℝ => decide (u < q)) {true} ∩ Set.Ico 0 1 = Set.Ico 0 q := by
    ext u
    simp only [Set.mem_inter_iff, Set.mem_preimage, Set.mem_singleton_iff, decide_eq_true_eq,
      Set.mem_Ico]
    constructor
    · rintro ⟨less, nonneg, _⟩
      exact ⟨nonneg, less⟩
    · rintro ⟨nonneg, less⟩
      exact ⟨less, nonneg, lt_of_lt_of_le less le_one⟩
  rw [below, Measure.toPMF_apply, Measure.map_apply (measurable_below q) (measurableSet_singleton _),
    uniform, Measure.restrict_apply (measurable_below q (measurableSet_singleton _)), event,
    Real.volume_Ico, sub_zero]

theorem below_false {q : ℝ} (nonneg : 0 ≤ q) : below q false = ENNReal.ofReal (1 - q) := by
  have event : Set.preimage (fun u : ℝ => decide (u < q)) {false} ∩ Set.Ico 0 1 =
      Set.Ico q 1 := by
    ext u
    simp only [Set.mem_inter_iff, Set.mem_preimage, Set.mem_singleton_iff, decide_eq_false_iff_not,
      not_lt, Set.mem_Ico]
    constructor
    · rintro ⟨least, _, less⟩
      exact ⟨least, less⟩
    · rintro ⟨least, less⟩
      exact ⟨least, le_trans nonneg least, less⟩
  rw [below, Measure.toPMF_apply, Measure.map_apply (measurable_below q) (measurableSet_singleton _),
    uniform, Measure.restrict_apply (measurable_below q (measurableSet_singleton _)), event,
    Real.volume_Ico]

/-! ## A race -/

/-- The law of a probability vector. -/
noncomputable def law [Fintype α] (p : stdSimplex ℝ α) : PMF α :=
  PMF.ofFintype (fun a => ENNReal.ofReal (p.1 a)) (by
    rw [← ENNReal.ofReal_sum_of_nonneg fun a _ => p.2.1 a, p.2.2, ENNReal.ofReal_one])

theorem law_apply [Fintype α] (p : stdSimplex ℝ α) (a : α) : law p a = ENNReal.ofReal (p.1 a) :=
  rfl

/-- A draw with probability proportional to the weights.  If no weight is positive
there is no such draw, and `fallback` is returned. -/
noncomputable def race [Fintype α] (fallback : α) (weights : α → ℝ) : PMF α :=
  open Classical in
  if zero : (tsum fun a => ENNReal.ofReal (weights a)) = 0 then PMF.pure fallback
  else PMF.normalize (fun a => ENNReal.ofReal (weights a)) zero (by
    rw [tsum_fintype]
    exact ENNReal.sum_ne_top.mpr fun a _ => ENNReal.ofReal_ne_top)

theorem race_apply [Fintype α] {fallback : α} {weights : α → ℝ}
    (positive : (tsum fun a => ENNReal.ofReal (weights a)) ≠ 0) (a : α) :
    race fallback weights a =
      ENNReal.ofReal (weights a) * (tsum fun b => ENNReal.ofReal (weights b))⁻¹ := by
  rw [race, dif_neg positive, PMF.normalize_apply]

/-- A race of probabilities is a draw from them. -/
theorem race_eq_law [Fintype α] (fallback : α) (p : stdSimplex ℝ α) :
    race fallback p.1 = law p := by
  have total : (tsum fun a => ENNReal.ofReal (p.1 a)) = 1 := by
    rw [tsum_fintype, ← ENNReal.ofReal_sum_of_nonneg fun a _ => p.2.1 a, p.2.2,
      ENNReal.ofReal_one]
  ext a
  rw [race_apply (by rw [total]; exact one_ne_zero), total, inv_one, mul_one, law_apply]

end LeanVllm.Probability
