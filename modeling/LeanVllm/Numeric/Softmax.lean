import Mathlib.Analysis.SpecialFunctions.Log.Basic
import Mathlib.Analysis.SpecialFunctions.Sigmoid
import Mathlib.Algebra.BigOperators.Group.List.Basic
import Mathlib.Algebra.Module.BigOperators
import Mathlib.Algebra.Module.LinearMap.Basic

/-!
# Softmax averages

The average of scored values in which each counts by the exponential of its score,
and the log-sum-exp of the scores.  An average is linear in its values, does not
read their order, and over two lists of keys is decided by the averages and the
log-sum-exps of the two: each side counts by its share of the summed exponentials.
-/

namespace LeanVllm.Numeric

variable {E F : Type*} {keys others : List (ℝ × E)}

/-! ## Weights -/

/-- The summed exponentials of the scores. -/
noncomputable def mass (keys : List (ℝ × E)) : ℝ :=
  (keys.map fun key => Real.exp key.1).sum

/-- The log-sum-exp of the scores, `⊥` for no keys. -/
noncomputable def logSumExp (keys : List (ℝ × E)) : WithBot ℝ :=
  if keys = [] then ⊥ else (Real.log (mass keys) : ℝ)

@[simp]
theorem mass_nil : mass ([] : List (ℝ × E)) = 0 :=
  rfl

@[simp]
theorem logSumExp_nil : logSumExp ([] : List (ℝ × E)) = ⊥ :=
  rfl

theorem mass_append (keys others : List (ℝ × E)) :
    mass (keys ++ others) = mass keys + mass others := by
  simp [mass]

theorem mass_pos (some : keys ≠ []) : 0 < mass keys := by
  apply List.sum_pos
  · intro weight member
    obtain ⟨key, _, rfl⟩ := List.mem_map.mp member
    exact Real.exp_pos _
  · simpa using some

theorem logSumExp_of_ne_nil (some : keys ≠ []) : logSumExp keys = (Real.log (mass keys) : ℝ) :=
  if_neg some

/-! ## Averages -/

variable [AddCommGroup E] [Module ℝ E] [AddCommGroup F] [Module ℝ F]

/-- The values, each times the exponential of its score, summed. -/
noncomputable def moment (keys : List (ℝ × E)) : E :=
  (keys.map fun key => Real.exp key.1 • key.2).sum

/-- The softmax average of scored values. -/
noncomputable def average (keys : List (ℝ × E)) : E :=
  (mass keys)⁻¹ • moment keys

@[simp]
theorem moment_nil : moment ([] : List (ℝ × E)) = 0 :=
  rfl

@[simp]
theorem average_nil : average ([] : List (ℝ × E)) = 0 := by
  simp [average]

theorem moment_append (keys others : List (ℝ × E)) :
    moment (keys ++ others) = moment keys + moment others := by
  simp [moment]

/-- A moment is the average times the mass. -/
theorem mass_smul_average (some : keys ≠ []) : mass keys • average keys = moment keys := by
  rw [average, smul_smul, mul_inv_cancel₀ (mass_pos some).ne', one_smul]

/-- The average over two lists: each side counts by its share of the mass. -/
theorem average_append (some : keys ≠ []) (some' : others ≠ []) :
    average (keys ++ others) =
      (mass keys / (mass keys + mass others)) • average keys +
        (mass others / (mass keys + mass others)) • average others := by
  rw [average, mass_append, moment_append, ← mass_smul_average some, ← mass_smul_average some',
    smul_add, smul_smul, smul_smul, div_eq_inv_mul, div_eq_inv_mul]

/-- An average is linear in its values. -/
theorem average_map (f : E →ₗ[ℝ] F) (keys : List (ℝ × E)) :
    average (keys.map fun key => (key.1, f key.2)) = f (average keys) := by
  have same : mass (keys.map fun key => (key.1, f key.2)) = mass keys := by
    simp [mass, Function.comp_def]
  have mapped : moment (keys.map fun key => (key.1, f key.2)) = f (moment keys) := by
    simp [moment, map_list_sum, Function.comp_def]
  rw [average, average, same, mapped, map_smul]

/-! ## Masks -/

/-- The softmax average over the keys a mask lets through: the others get no weight. -/
noncomputable def maskedAverage (mask : List Bool) (keys : List (ℝ × E)) : E :=
  let weights := List.zipWith (fun open' (key : ℝ × E) => if open' then Real.exp key.1 else 0)
    mask keys
  (weights.sum)⁻¹ • (List.zipWith (fun (weight : ℝ) key => weight • key.2) weights keys).sum

/-- Keys without weight might as well not be there. -/
theorem maskedAverage_eq (mask : List Bool) (keys : List (ℝ × E)) :
    maskedAverage mask keys =
      average (((mask.zip keys).filter fun entry => entry.1).map Prod.snd) := by
  have weights : (List.zipWith (fun open' (key : ℝ × E) => if open' then Real.exp key.1 else 0)
      mask keys).sum = mass (((mask.zip keys).filter fun entry => entry.1).map Prod.snd) := by
    induction mask generalizing keys with
    | nil => simp
    | cons first mask ih =>
        cases keys with
        | nil => simp
        | cons key keys => cases first <;> simp [ih, mass]
  have values : (List.zipWith (fun (weight : ℝ) (key : ℝ × E) => weight • key.2)
      (List.zipWith (fun open' (key : ℝ × E) => if open' then Real.exp key.1 else 0) mask keys)
      keys).sum = moment (((mask.zip keys).filter fun entry => entry.1).map Prod.snd) := by
    clear weights
    induction mask generalizing keys with
    | nil => simp
    | cons first mask ih =>
        cases keys with
        | nil => simp
        | cons key keys => cases first <;> simp [ih, moment]
  rw [maskedAverage, average, weights, values]

theorem filter_range {n t : Nat} {visible : Nat → Bool} (bound : t ≤ n)
    (exact : ∀ p < n, visible p = true ↔ p < t) : (List.range n).filter visible = List.range t := by
  obtain ⟨rest, rfl⟩ := Nat.exists_eq_add_of_le bound
  rw [List.range_add, List.filter_append, List.filter_eq_self.mpr, List.filter_eq_nil_iff.mpr,
    List.append_nil]
  · intro p member
    obtain ⟨k, small, rfl⟩ := List.mem_map.mp member
    rw [exact _ (Nat.add_lt_add_left (List.mem_range.mp small) t)]
    omega
  · intro p member
    have small := List.mem_range.mp member
    exact (exact p (by omega)).mpr small

/-- A mask that shows the keys before the `t`-th. -/
theorem maskedAverage_range {n t : Nat} {visible : Nat → Bool} (key : Nat → ℝ × E) (bound : t ≤ n)
    (exact : ∀ p < n, visible p = true ↔ p < t) :
    maskedAverage ((List.range n).map visible) ((List.range n).map key) =
      average ((List.range t).map key) := by
  rw [maskedAverage_eq, List.zip_map', List.filter_map, List.map_map]
  refine congrArg average ?_
  show ((List.range n).filter visible).map key = _
  rw [filter_range bound exact]

end LeanVllm.Numeric
