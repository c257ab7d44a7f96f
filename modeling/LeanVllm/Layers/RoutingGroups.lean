import LeanVllm.Layers.BlockedProducts
import LeanVllm.Layers.SelectExperts

/-!
# Scores of experts and of groups

A token's choices count for its experts and for no padding column, and both paths score
each group by its best choices alike.
-/

namespace LeanVllm

open Collections Kernels FusedMoe Sampler

/-- Lanes past some of which nothing is left to add. -/
theorem laneSum_pad {n m : Nat} {f : Nat → ℝ} (le : n ≤ m) (zero : ∀ i, n ≤ i → f i = 0) :
    laneSum m f = laneSum n f := by
  obtain ⟨d, rfl⟩ := Nat.exists_eq_add_of_le le
  have rest : (List.range d).map (f ∘ (n + ·)) = (List.range d).map fun _ => 0 :=
    List.map_congr_left fun i _ => zero (n + i) (Nat.le_add_right n i)
  rw [laneSum, List.range_add, List.map_append, List.sum_append, List.map_map, rest]
  simp [laneSum]

/-- The one lane that counts. -/
theorem laneSum_pick {n i : Nat} (inside : i < n) (f : Nat → ℝ) :
    laneSum n (fun col => if col = i then f col else 0) = f i := by
  rw [laneSum_pad (Nat.succ_le_of_lt inside) fun col past => if_neg (by omega), laneSum,
    List.range_succ, List.map_append, List.sum_append, List.map_singleton, List.sum_singleton,
    if_pos rfl, List.map_congr_left fun col among =>
      if_neg (Nat.ne_of_lt (List.mem_range.mp among))]
  simp

namespace Router

variable {router : Router} {columns : Nat} {logits : Nat → ℝ}

/-! ## Scores -/

/-- A softmax less its peak over padded columns is the softmax. -/
theorem kernelScores_eq (wide : router.numExperts ≤ columns) (lanes : Nat → ℝ)
    (loaded : ∀ col < router.numExperts, lanes col = logits col) {col : Nat}
    (inside : col < router.numExperts) :
    router.kernelScores columns lanes col = router.scores logits col := by
  rw [kernelScores, scores]
  split
  · exact congrArg (fun value => 1 / (1 + Real.exp (-value))) (loaded col inside)
  · dsimp only
    generalize (router.padded lanes (laneArgmax columns (router.padded lanes))).unbotD 0 = peak
    have own : ∀ col < router.numExperts, weight ((router.padded lanes col).map (· - peak)) =
        Real.exp (logits col) / Real.exp peak := by
      intro col inside
      rw [padded, if_pos inside, loaded col inside, ← Real.exp_sub]
      rfl
    have total : laneSum columns (fun col => weight ((router.padded lanes col).map (· - peak))) =
        (laneSum router.numExperts fun col => Real.exp (logits col)) / Real.exp peak := by
      rw [laneSum_pad wide fun col past => by
          rw [padded, if_neg (Nat.not_lt.mpr past)]
          rfl, laneSum, laneSum, List.map_congr_left fun col among => own col (List.mem_range.mp among),
        div_eq_mul_inv, ← List.sum_map_mul_right]
      rfl
    rw [own col inside, total, div_div_div_cancel_right₀ (Real.exp_ne_zero peak)]

theorem kernelChoice_eq {lanes : Nat → ℝ} {bias : Option (Nat → ℝ)}
    (scored : ∀ col < router.numExperts, lanes col = router.scores logits col)
    (biased : ∀ values, router.correctionBias = some values → ∃ loaded, bias = some loaded ∧
      ∀ col < router.numExperts, loaded col = values col)
    (unbiased : router.correctionBias = none → bias = none) :
    router.kernelChoice lanes bias = router.padded (router.choice logits) := by
  funext col
  rw [kernelChoice, padded, padded]
  by_cases inside : col < router.numExperts
  · rw [if_pos inside, if_pos inside, choice]
    cases given : router.correctionBias with
    | none => rw [unbiased given, Option.elim_none, Option.elim_none, scored col inside]
    | some values =>
        obtain ⟨loaded, rfl, same⟩ := biased values given
        rw [Option.elim_some, Option.elim_some, scored col inside, same col inside]
  · rw [if_neg inside, if_neg inside]

/-! ## Groups -/

/-- The sizes a router can have. -/
structure Fits (router : Router) : Prop where
  someExpert : 0 < router.numExperts
  someGroup : 0 < router.numGroups
  divides : router.numGroups ∣ router.numExperts
  pairs : router.correctionBias.isSome → 1 < router.numGroups → 2 ≤ router.groupSize
  fewGroups : router.topkGroup ≤ router.numGroups
  fewExperts : router.topK ≤ router.topkGroup * router.groupSize

/-- How many of its experts score a group. -/
def scoredBy (router : Router) : Nat :=
  if router.correctionBias.isSome then 2 else 1

/-- The choices of one group. -/
noncomputable def inGroup (router : Router) (choice : Nat → WithBot ℝ) (g col : Nat) : WithBot ℝ :=
  if col / router.groupSize = g then choice col else ⊥

/-- The sum of a group's best choices. -/
noncomputable def groupScore (router : Router) (logits : Nat → ℝ) (g : Nat) : WithBot ℝ :=
  let group := router.inGroup (router.padded (router.choice logits)) g
  ((picksOf router.numExperts group router.scoredBy).map group).sum

/-- A token's choices, and its groups' scores, differ. -/
structure Distinct (router : Router) (logits : Nat → ℝ) : Prop where
  choices : ∀ e < router.numExperts, ∀ other < router.numExperts,
    router.choice logits e = router.choice logits other → e = other
  groups : 1 < router.numGroups → ∀ g < router.numGroups, ∀ other < router.numGroups,
    router.groupScore logits g = router.groupScore logits other → g = other

/-- `torch.topk` and `.topk`: positions of `k` values that no other exceeds, in any order. -/
structure Topk (topk : Nat → List (WithBot ℝ) → List Nat) : Prop where
  selects : ∀ k values, k ≤ values.length → Selects values k (topk k values)

section Groups

variable {topk : Nat → List (WithBot ℝ) → List Nat}

variable (fits : router.Fits)
include fits

theorem Fits.groupSize_pos : 0 < router.groupSize :=
  Nat.div_pos (Nat.le_of_dvd fits.someExpert fits.divides) fits.someGroup

theorem Fits.cells : router.numGroups * router.groupSize = router.numExperts :=
  Nat.mul_div_cancel' fits.divides

theorem Fits.expert_lt {g j : Nat} (group : g < router.numGroups) (inside : j < router.groupSize) :
    g * router.groupSize + j < router.numExperts := by
  rw [← fits.cells]
  exact cell_lt group inside

theorem Fits.group_of {g j : Nat} (inside : j < router.groupSize) :
    (g * router.groupSize + j) / router.groupSize = g := by
  rw [Nat.mul_comm, Nat.mul_add_div fits.groupSize_pos, Nat.div_eq_of_lt inside, Nat.add_zero]

theorem Fits.scoredBy_le (grouped : 1 < router.numGroups) : router.scoredBy ≤ router.groupSize := by
  rw [scoredBy]
  split
  · rename_i biased
    exact fits.pairs biased grouped
  · exact fits.groupSize_pos

omit fits in
theorem padded_ne_bot {values : Nat → ℝ} {col : Nat} :
    router.padded values col ≠ ⊥ ↔ col < router.numExperts := by
  rw [padded]
  split
  · rename_i inside
    exact iff_of_true WithBot.coe_ne_bot inside
  · rename_i past
    exact iff_of_false (fun absurdly => absurdly rfl) past

omit fits in
/-- Lanes that count are told apart by their choices. -/
theorem Distinct.padded (distinct : router.Distinct logits) {i j : Nat}
    (counts : router.padded (router.choice logits) i ≠ ⊥)
    (same : router.padded (router.choice logits) i = router.padded (router.choice logits) j) :
    i = j := by
  have first := padded_ne_bot.mp counts
  have second := padded_ne_bot.mp (same ▸ counts)
  rw [Router.padded, Router.padded, if_pos first, if_pos second] at same
  exact distinct.choices i first j second (WithBot.coe_inj.mp same)

/-- A group's experts as lanes. -/
theorem Fits.group_lanes (values : Nat → ℝ) {g : Nat} (group : g < router.numGroups) :
    ((List.range router.groupSize).map (g * router.groupSize + ·)).Nodup ∧
      ∀ i ∈ (List.range router.groupSize).map (g * router.groupSize + ·),
        router.inGroup (router.padded values) g i ≠ ⊥ := by
  refine ⟨List.nodup_range.map fun _ _ same => Nat.add_left_cancel same, fun i among => ?_⟩
  obtain ⟨j, inside, rfl⟩ := List.mem_map.mp among
  rw [List.mem_range] at inside
  rw [inGroup, if_pos (fits.group_of inside)]
  exact padded_ne_bot.mpr (fits.expert_lt group inside)

omit fits in
theorem inGroup_outside {values : Nat → ℝ} {g col : Nat} (past : router.numExperts ≤ col) :
    router.inGroup (router.padded values) g col = ⊥ := by
  rw [inGroup]
  split
  · exact if_neg (Nat.not_lt.mpr past)
  · rfl

/-- The best lanes of a group, however many columns are looked at. -/
theorem Fits.group_top (values : Nat → ℝ) {g : Nat} (grouped : 1 < router.numGroups)
    (group : g < router.numGroups) (wide : router.numExperts ≤ columns) :
    Top (router.inGroup (router.padded values) g) router.scoredBy
      (picksOf columns (router.inGroup (router.padded values) g) router.scoredBy) := by
  obtain ⟨nodup, counts⟩ := fits.group_lanes values group
  refine picksOf_top (fun i past => inGroup_outside (Nat.le_trans wide past)) nodup counts ?_
  rw [List.length_map, List.length_range]
  exact fits.scoredBy_le grouped

/-- Top lanes of a group add up to its score. -/
theorem Fits.groupScore_eq (distinct : router.Distinct logits) {g : Nat}
    (grouped : 1 < router.numGroups) (group : g < router.numGroups) {picks : List Nat}
    (top : Top (router.inGroup (router.padded (router.choice logits)) g) router.scoredBy picks) :
    (picks.map (router.inGroup (router.padded (router.choice logits)) g)).sum =
      router.groupScore logits g := by
  refine ((top.perm (fits.group_top _ grouped group (Nat.le_refl _)) ?_).map _).sum_eq
  intro i j counts same
  unfold inGroup at counts same
  split at counts
  · rename_i own
    rw [if_pos own] at same
    split at same
    · exact distinct.padded counts same
    · exact absurd same counts
  · exact absurd rfl counts

/-- The kernel's score of a group. -/
theorem Fits.kernelGroupScore_eq (distinct : router.Distinct logits) {g : Nat}
    (grouped : 1 < router.numGroups) (group : g < router.numGroups)
    (wide : router.numExperts ≤ columns) :
    router.kernelGroupScore columns (router.padded (router.choice logits)) g =
      router.groupScore logits g := by
  have top := fits.group_top (router.choice logits) grouped group wide
  rw [← fits.groupScore_eq distinct grouped group top]
  generalize lanes : router.inGroup (router.padded (router.choice logits)) g = f at top
  have score : router.kernelGroupScore columns (router.padded (router.choice logits)) g =
      if router.correctionBias.isSome then
        f (laneArgmax columns f) + (fun col => if col = laneArgmax columns f then ⊥ else f col)
          (laneArgmax columns fun col => if col = laneArgmax columns f then ⊥ else f col)
      else f (laneArgmax columns f) := by
    rw [← lanes]
    rfl
  rw [score, scoredBy] at *
  split
  · rename_i biased
    rw [if_pos biased, picksOf_two] at top
    have others : (fun col => if col = laneArgmax columns f then ⊥ else f col) =
        without f [laneArgmax columns f] := by
      funext col
      simp only [without, List.mem_singleton]
    have second : laneArgmax columns (without f [laneArgmax columns f]) ∉
        [laneArgmax columns f] := by
      intro among
      have differ := (List.nodup_cons.mp top.nodup).1
      exact differ (List.mem_singleton.mpr (List.mem_singleton.mp among).symm)
    rw [others, picksOf_two, without, if_neg second]
    simp
  · rw [picksOf_one]
    simp

omit fits in
/-- A choice in the list of all. -/
theorem getD_choices (values : Nat → ℝ) (e : Nat) :
    ((List.range router.numExperts).map fun e => (values e : WithBot ℝ)).getD e ⊥ =
      router.padded values e := by
  rw [padded, List.getD_eq_getElem?_getD, List.getElem?_map]
  split
  · rename_i inside
    rw [List.getElem?_range inside]
    rfl
  · rename_i past
    rw [List.getElem?_eq_none (by simpa using past)]
    rfl

/-- A group of the list, by position. -/
theorem Fits.getD_group (values : Nat → ℝ) (g j : Nat) :
    ((((List.range router.numExperts).map fun e => (values e : WithBot ℝ)).drop
      (g * router.groupSize)).take router.groupSize).getD j ⊥ =
        if j < router.groupSize then
          router.inGroup (router.padded values) g (g * router.groupSize + j) else ⊥ := by
  rw [List.getD_eq_getElem?_getD, List.getElem?_take]
  split
  · rename_i inside
    rw [List.getElem?_drop, ← List.getD_eq_getElem?_getD, getD_choices, inGroup,
      if_pos (fits.group_of inside)]
  · rfl

theorem Fits.length_group (values : Nat → ℝ) {g : Nat} (group : g < router.numGroups) :
    ((((List.range router.numExperts).map fun e => (values e : WithBot ℝ)).drop
      (g * router.groupSize)).take router.groupSize).length = router.groupSize := by
  have last := fits.expert_lt group (Nat.sub_lt fits.groupSize_pos Nat.one_pos)
  have some := fits.groupSize_pos
  rw [List.length_take, List.length_drop, List.length_map, List.length_range]
  omega

/-- Top positions of a group, as columns. -/
theorem Fits.top_columns {values : Nat → ℝ} {g k : Nat} {picks : List Nat} (top : Top (fun j => ((((List.range router.numExperts).map fun e =>
      (values e : WithBot ℝ)).drop (g * router.groupSize)).take router.groupSize).getD j ⊥) k
        picks) :
    Top (router.inGroup (router.padded values) g) k (picks.map (g * router.groupSize + ·)) := by
  have small : ∀ j ∈ picks, j < router.groupSize := by
    intro j own
    have counts := top.counts j own
    rw [fits.getD_group] at counts
    by_contra past
    exact counts (if_neg past)
  refine ⟨by rw [List.length_map, top.length],
    top.nodup.map fun _ _ same => Nat.add_left_cancel same, fun i own => ?_,
    fun i own col absent => ?_⟩
  · obtain ⟨j, among, rfl⟩ := List.mem_map.mp own
    have counts := top.counts j among
    rwa [fits.getD_group, if_pos (small j among)] at counts
  · obtain ⟨j, among, rfl⟩ := List.mem_map.mp own
    by_cases mine : col / router.groupSize = g
    · have place := Nat.div_add_mod' col router.groupSize
      rw [mine] at place
      have inside := Nat.mod_lt col fits.groupSize_pos
      have left : col % router.groupSize ∉ picks := by
        intro picked
        exact absent (List.mem_map.mpr ⟨_, picked, place⟩)
      have le := top.highest j among _ left
      rwa [fits.getD_group, fits.getD_group, if_pos inside,
        if_pos (small j among), place] at le
    · rw [inGroup, if_neg mine]
      exact bot_le

/-- The portable path's score of a group. -/
theorem Fits.torchGroupScore_eq (law : Topk topk) (distinct : router.Distinct logits) {g : Nat}
    (grouped : 1 < router.numGroups) (group : g < router.numGroups) {values : List (WithBot ℝ)}
    (viewed : values = (((List.range router.numExperts).map fun e =>
      (router.choice logits e : WithBot ℝ)).drop (g * router.groupSize)).take router.groupSize) :
    (if router.correctionBias.isSome then ((topk 2 values).map fun i => values.getD i ⊥).sum
      else values.foldr max ⊥) = router.groupScore logits g := by
  have length : values.length = router.groupSize := viewed ▸ fits.length_group _ group
  have entry : ∀ j, values.getD j ⊥ = if j < router.groupSize then router.inGroup
      (router.padded (router.choice logits)) g (g * router.groupSize + j) else ⊥ := by
    rw [viewed]
    exact fits.getD_group _ g
  have counts : ∀ j ∈ List.range router.groupSize, values.getD j ⊥ ≠ ⊥ := by
    intro j inside
    rw [entry, if_pos (List.mem_range.mp inside)]
    exact (fits.group_lanes _ group).2 _ (List.mem_map_of_mem inside)
  split
  · rename_i biased
    have enough : 2 ≤ router.groupSize := fits.pairs biased grouped
    have top := (law.selects 2 values (by omega)).top List.nodup_range counts (by simpa using enough)
    have columns : Top (router.inGroup (router.padded (router.choice logits)) g) router.scoredBy
        ((topk 2 values).map (g * router.groupSize + ·)) := by
      rw [scoredBy, if_pos biased]
      apply fits.top_columns
      rw [← viewed]
      exact top
    rw [← fits.groupScore_eq distinct grouped group columns, List.map_map]
    refine congrArg List.sum (List.map_congr_left fun j own => ?_)
    have small : j < router.groupSize := by
      by_contra past
      exact top.counts j own ((entry j).trans (if_neg past))
    rw [entry, if_pos small]
    rfl
  · rename_i unbiased
    have top := fits.group_top (router.choice logits) grouped group (Nat.le_refl _)
    rw [scoredBy, if_neg unbiased, picksOf_one] at top
    have score : router.groupScore logits g =
        router.inGroup (router.padded (router.choice logits)) g (laneArgmax router.numExperts
          (router.inGroup (router.padded (router.choice logits)) g)) := by
      rw [groupScore, scoredBy, if_neg unbiased, picksOf_one]
      simp
    rw [score]
    generalize laneArgmax router.numExperts
      (router.inGroup (router.padded (router.choice logits)) g) = best at top
    have own := top.counts best (List.mem_singleton_self best)
    have mine : best / router.groupSize = g := by
      by_contra other
      exact own (if_neg other)
    have place := Nat.div_add_mod' best router.groupSize
    rw [mine] at place
    have inside := Nat.mod_lt best fits.groupSize_pos
    apply le_antisymm
    · refine List.max_le_of_forall_le _ _ fun value among => ?_
      obtain ⟨j, small, rfl⟩ := List.mem_iff_getElem.mp among
      rw [← List.getD_eq_getElem _ ⊥ small, entry, if_pos (length ▸ small)]
      by_cases same : g * router.groupSize + j = best
      · rw [same]
      · exact top.highest best (List.mem_singleton_self best) _ fun absurdly =>
          same (List.mem_singleton.mp absurdly)
    · have found := entry (best % router.groupSize)
      rw [if_pos inside, place, List.getD_eq_getElem _ ⊥ (length.symm ▸ inside)] at found
      exact List.le_max_of_le (List.getElem_mem _) found.ge

end Groups

end Router

end LeanVllm
