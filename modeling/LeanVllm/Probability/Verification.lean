import LeanVllm.Probability.Draws

/-!
# Verifying guesses without changing a law

A row of guesses is checked against a row of targets, one target for each guess
and one more.  Each guess is kept with the probability its target gives it; the
first one that is not is replaced by a draw from its target without it; and if
all are kept, a last draw is added.  The list this makes has the law of drawing
from the targets in turn for as long as the draws are the guesses.
-/

namespace LeanVllm.Probability

open scoped ENNReal

universe u v

variable {α : Type u} {β : Type v} [Fintype α] [DecidableEq α]

/-! ## One guess -/

/-- What is left of a target once a guess is taken out. -/
theorem tsum_update (p : stdSimplex ℝ α) (x : α) :
    (tsum fun a => ENNReal.ofReal (Function.update p.1 x 0 a)) = ENNReal.ofReal (1 - p.1 x) := by
  have nonneg : ∀ a ∈ Finset.univ, 0 ≤ Function.update p.1 x 0 a := by
    intro a _
    by_cases same : a = x
    · rw [same, Function.update_self]
    · rw [Function.update_of_ne same]
      exact p.2.1 a
  have total : ∑ a, Function.update p.1 x 0 a = 1 - p.1 x := by
    rw [Finset.sum_update_of_mem (Finset.mem_univ x), zero_add, ← p.2.2,
      ← Finset.sum_sdiff (Finset.subset_univ {x}), Finset.sum_singleton, add_sub_cancel_right]
  rw [tsum_fintype, ← ENNReal.ofReal_sum_of_nonneg nonneg, total]

/-- A rejected guess, and a draw from what is left. -/
theorem ofReal_mul_race (fallback : α) (p : stdSimplex ℝ α) (x a : α) :
    ENNReal.ofReal (1 - p.1 x) * race fallback (Function.update p.1 x 0) a =
      ENNReal.ofReal (Function.update p.1 x 0 a) := by
  by_cases certain : ENNReal.ofReal (1 - p.1 x) = 0
  · -- the guess is all the target has
    have total := tsum_update p x
    rw [certain, ENNReal.tsum_eq_zero] at total
    rw [certain, zero_mul, total a]
  · rw [race_apply (by rw [tsum_update]; exact certain), tsum_update, mul_left_comm,
      ENNReal.mul_inv_cancel certain ENNReal.ofReal_ne_top, mul_one]

/-- A guess that can be rejected leaves something to draw from. -/
theorem exists_pos_of_rejected (p : stdSimplex ℝ α) (x : α) {u : ℝ} (below : u < 1)
    (rejected : ¬ u < p.1 x) : ∃ a, 0 < Function.update p.1 x 0 a := by
  by_contra none
  simp only [not_exists, not_lt] at none
  have total := tsum_update p x
  have zero : ∀ a, ENNReal.ofReal (Function.update p.1 x 0 a) = 0 := fun a =>
    ENNReal.ofReal_eq_zero.mpr (none a)
  rw [ENNReal.tsum_eq_zero.mpr zero] at total
  have certain := ENNReal.ofReal_eq_zero.mp total.symm
  linarith

/-- Keeping a guess with its probability, and otherwise drawing from the rest, draws
from the target and tells whether the draw is the guess. -/
theorem keep_or_replace (fallback : α) (p : stdSimplex ℝ α) (x : α) (kept : PMF β)
    (replaced : α → PMF β) :
    (below (p.1 x)).bind (fun keep => if keep then kept
        else (race fallback (Function.update p.1 x 0)).bind replaced) =
      (law p).bind fun a => if a = x then kept else replaced a := by
  ext b
  have right : (law p).bind (fun a => if a = x then kept else replaced a) b =
      ENNReal.ofReal (p.1 x) * kept b +
        ∑ a, ENNReal.ofReal (Function.update p.1 x 0 a) * replaced a b := by
    rw [PMF.bind_apply, tsum_fintype, ← Finset.add_sum_erase _ _ (Finset.mem_univ x),
      ← Finset.add_sum_erase _ (fun a => ENNReal.ofReal (Function.update p.1 x 0 a) * _)
        (Finset.mem_univ x)]
    simp only [if_true, law_apply, Function.update_self, ENNReal.ofReal_zero, zero_mul, zero_add]
    congr 1
    apply Finset.sum_congr rfl
    intro a member
    have other : a ≠ x := (Finset.mem_erase.mp member).1
    rw [if_neg other, Function.update_of_ne other]
  have left : (race fallback (Function.update p.1 x 0)).bind replaced b =
      ∑ a, race fallback (Function.update p.1 x 0) a * replaced a b := by
    rw [PMF.bind_apply, tsum_fintype]
  rw [right, PMF.bind_apply, tsum_fintype, Fintype.sum_bool, below_true (mem_Icc_of_mem_stdSimplex p.2 x).2,
    below_false (p.2.1 x)]
  simp only [if_true, Bool.false_eq_true, if_false]
  rw [left, Finset.mul_sum]
  congr 1
  apply Finset.sum_congr rfl
  intro a _
  rw [← mul_assoc, ofReal_mul_race]

/-! ## A row of guesses -/

/-- The guesses kept up to the first that is not, and the candidate in its place. -/
def verified : List α → List Bool → List α → List α
  | [], _, candidate :: _ => [candidate]
  | guess :: guesses, true :: keeps, _ :: candidates => guess :: verified guesses keeps candidates
  | _ :: _, false :: _, candidate :: _ => [candidate]
  | _, _, _ => []

/-- Draws from the targets in turn, for as long as they are the guesses. -/
noncomputable def follow : List (stdSimplex ℝ α) → List α → PMF (List α)
  | [], _ => PMF.pure []
  | p :: _, [] => (law p).map fun a => [a]
  | p :: targets, guess :: guesses =>
      (law p).bind fun a =>
        if a = guess then (follow targets guesses).map (guess :: ·) else PMF.pure [a]

/-- How each guess is kept. -/
noncomputable def keeps (targets : List (stdSimplex ℝ α)) (guesses : List α) : List (PMF Bool) :=
  List.zipWith (fun p guess => below (p.1 guess)) targets guesses

/-- How each candidate is drawn: from a target without its guess, and at last from a
whole target. -/
noncomputable def candidates (fallback : α) : List (stdSimplex ℝ α) → List α → List (PMF α)
  | [], _ => []
  | p :: _, [] => [race fallback p.1]
  | p :: targets, guess :: guesses =>
      race fallback (Function.update p.1 guess 0) :: candidates fallback targets guesses

/-- The list of a verified row has the law of following the targets. -/
theorem verified_law (fallback : α) {targets : List (stdSimplex ℝ α)} {guesses : List α}
    (one_more : targets.length = guesses.length + 1) :
    (drawEach (keeps targets guesses)).bind (fun keeps =>
        (drawEach (candidates fallback targets guesses)).map (verified guesses keeps)) =
      follow targets guesses := by
  induction guesses generalizing targets with
  | nil =>
      obtain ⟨p, rfl⟩ := List.length_eq_one_iff.mp one_more
      have single : drawEach [race fallback p.1] = (race fallback p.1).map fun a => [a] := by
        simp only [drawEach, PMF.pure_map]
        rfl
      rw [keeps, List.zipWith_nil_right, drawEach, PMF.pure_bind, candidates, single, PMF.map_comp,
        follow, race_eq_law]
      rfl
  | cons guess guesses ih =>
      cases targets with
      | nil => simp at one_more
      | cons p targets =>
          have next := ih (Nat.succ.inj one_more)
          let first := race fallback (Function.update p.1 guess 0)
          have kept : ((drawEach (keeps targets guesses)).bind fun keeps =>
              (drawEach (first :: candidates fallback targets guesses)).map
                (verified (guess :: guesses) (true :: keeps))) =
              (follow targets guesses).map (guess :: ·) := by
            rw [← next, PMF.map_bind]
            congr 1
            funext keeps
            have unread : ∀ a, verified (guess :: guesses) (true :: keeps) ∘ (a :: ·) =
                (guess :: ·) ∘ verified guesses keeps := fun _ => rfl
            rw [drawEach, PMF.map_bind]
            simp only [PMF.map_comp, unread]
            exact PMF.bind_const _ _
          have replaced : ((drawEach (keeps targets guesses)).bind fun keeps =>
              (drawEach (first :: candidates fallback targets guesses)).map
                (verified (guess :: guesses) (false :: keeps))) =
              first.bind fun a => PMF.pure [a] := by
            have constant : ∀ keeps : List Bool,
                (drawEach (first :: candidates fallback targets guesses)).map
                  (verified (guess :: guesses) (false :: keeps)) =
                first.bind fun a => PMF.pure [a] := by
              intro keeps
              rw [drawEach, PMF.map_bind]
              congr 1
              funext a
              rw [PMF.map_comp]
              exact PMF.map_const _ _
            simp only [constant]
            exact PMF.bind_const _ _
          rw [follow, ← keep_or_replace fallback p guess, keeps, List.zipWith_cons_cons, drawEach,
            PMF.bind_bind]
          congr 1
          funext keep
          rw [PMF.bind_map]
          cases keep with
          | true => exact kept
          | false => exact replaced

/-! ## The law of each draw -/

/-- A list that follows its targets is never empty. -/
theorem ne_nil_of_follow {targets : List (stdSimplex ℝ α)} {guesses : List α}
    (nonempty : targets ≠ []) {drawn : List α} (member : drawn ∈ (follow targets guesses).support) :
    drawn ≠ [] := by
  cases targets with
  | nil => exact absurd rfl nonempty
  | cons p targets =>
      cases guesses with
      | nil =>
          rw [follow, PMF.mem_support_map_iff] at member
          obtain ⟨a, _, rfl⟩ := member
          simp
      | cons guess guesses =>
          rw [follow, PMF.mem_support_bind_iff] at member
          obtain ⟨a, _, among⟩ := member
          split at among
          · rw [PMF.mem_support_map_iff] at among
            obtain ⟨rest, _, rfl⟩ := among
            simp
          · rw [PMF.mem_support_pure_iff] at among
            simp [among]

/-- What a bind of a two-way choice gives one outcome. -/
theorem bind_ite_apply (p : stdSimplex ℝ α) (guess : α) {kept : PMF β} {replaced : α → PMF β}
    {b : β} (never : ∀ a, a ≠ guess → replaced a b = 0) :
    (law p).bind (fun a => if a = guess then kept else replaced a) b =
      ENNReal.ofReal (p.1 guess) * kept b := by
  rw [PMF.bind_apply, tsum_fintype, Finset.sum_eq_single guess]
  · rw [if_pos rfl, law_apply]
  · intro a _ other
    rw [if_neg other, never a other, mul_zero]
  · intro absent
    exact absurd (Finset.mem_univ guess) absent


omit [Fintype α] in
theorem map_cons_apply (p : PMF (List α)) (x a : α) (rest : List α) :
    (p.map (x :: ·)) (a :: rest) = if a = x then p rest else 0 := by
  rw [PMF.map_apply]
  split
  · rename_i same
    subst same
    rw [tsum_eq_single rest]
    · simp
    · intro other different
      rw [if_neg]
      intro equal
      exact different (List.cons.inj equal).2.symm
  · rename_i different
    rw [ENNReal.tsum_eq_zero]
    intro other
    rw [if_neg]
    intro equal
    exact different (List.cons.inj equal).1

/-- A draw, and what it starts a list with. -/
theorem map_follow_cons {p : stdSimplex ℝ α} {targets : List (stdSimplex ℝ α)} {guess a : α}
    {guesses rest : List α} {n : Nat} (more : a = guess ∨ rest ≠ []) :
    ((follow (p :: targets) (guess :: guesses)).map (List.take (n + 1))) (a :: rest) =
      if a = guess then
        ENNReal.ofReal (p.1 guess) * ((follow targets guesses).map (List.take n)) rest
      else 0 := by
  have pushed : (follow (p :: targets) (guess :: guesses)).map (List.take (n + 1)) =
      (law p).bind fun a => if a = guess then ((follow targets guesses).map (List.take n)).map
        (guess :: ·) else PMF.pure [a] := by
    rw [follow, PMF.map_bind]
    congr 1
    funext a
    split
    · rw [PMF.map_comp, PMF.map_comp]
      rfl
    · rw [PMF.pure_map, List.take_succ_cons, List.take_nil]
  rw [pushed, bind_ite_apply, map_cons_apply]
  · split
    · rfl
    · rw [mul_zero]
  · intro other different
    rw [PMF.pure_apply_of_ne]
    intro equal
    obtain ⟨rfl, rfl⟩ := List.cons.inj equal
    exact more.elim different fun some => some rfl

/-- The first draw is one from the first target. -/
theorem map_take_one_follow (p : stdSimplex ℝ α) (targets : List (stdSimplex ℝ α))
    (guesses : List α) :
    (follow (p :: targets) guesses).map (List.take 1) = (law p).map fun a => [a] := by
  cases guesses with
  | nil =>
      rw [follow, PMF.map_comp]
      rfl
  | cons guess guesses =>
      rw [follow, PMF.map_bind]
      have single : ∀ a, PMF.map (List.take 1) (if a = guess then
          (follow targets guesses).map (guess :: ·) else PMF.pure [a]) = PMF.pure [a] := by
        intro a
        split
        · rename_i same
          have constant : List.take 1 ∘ (guess :: ·) = Function.const (List α) [guess] := by
            funext rest
            simp
          rw [PMF.map_comp, constant, PMF.map_const, same]
        · rw [PMF.pure_map]
          rfl
      simp only [single]
      rfl

/-- Each draw, given the draws before it, has the law of its own target, and it is
made only after the guesses. -/
theorem map_take_follow {targets : List (stdSimplex ℝ α)} {guesses drawn : List α}
    (one_more : targets.length = guesses.length + 1) {p : stdSimplex ℝ α}
    (target : targets[drawn.length]? = some p) (a : α) :
    ((follow targets guesses).map (List.take (drawn.length + 1))) (drawn ++ [a]) =
      if drawn = guesses.take drawn.length then
        ((follow targets guesses).map (List.take drawn.length)) drawn * law p a
      else 0 := by
  induction drawn generalizing targets guesses with
  | nil =>
      cases targets with
      | nil => simp at target
      | cons first targets =>
          obtain rfl : first = p := by simpa using target
          have none : (List.take 0 : List α → List α) = Function.const (List α) [] := rfl
          rw [List.length_nil, List.take_zero, if_pos rfl, none, PMF.map_const,
            PMF.pure_apply_self, one_mul, List.nil_append, map_take_one_follow, PMF.map_apply,
            tsum_eq_single a]
          · simp
          · intro other different
            rw [if_neg]
            intro equal
            exact different (List.cons.inj equal).1.symm
  | cons b drawn ih =>
      cases targets with
      | nil => simp at target
      | cons first targets =>
          cases guesses with
          | nil =>
              rw [List.length_cons, List.length_nil] at one_more
              have none : targets = [] := List.length_eq_zero_iff.mp (Nat.succ.inj one_more)
              simp [none] at target
          | cons guess guesses =>
              have next := ih (Nat.succ.inj one_more) (by simpa using target)
              rw [List.length_cons, List.cons_append, map_follow_cons (Or.inr (by simp)),
                List.take_succ_cons]
              simp only [List.cons.injEq]
              by_cases same : b = guess
              · rw [if_pos same, map_follow_cons (Or.inl same), if_pos same, next]
                by_cases guessed : drawn = guesses.take drawn.length
                · rw [if_pos guessed, if_pos ⟨same, guessed⟩, mul_assoc]
                · rw [if_neg guessed, if_neg fun both => guessed both.2, mul_zero]
              · rw [if_neg same, if_neg fun both => same both.1]

end LeanVllm.Probability
