import LeanVllm.Layers.RoutingGroups

/-!
# Both routings pick the same experts

With the groups scored alike the same groups are the top, and with the same experts
eligible the same experts are, in whatever order either path lists them.
-/

namespace LeanVllm

open Collections Kernels FusedMoe Sampler

theorem foldl_update {α : Type*} (value init : Nat → α) (n : Nat) :
    (List.range n).foldl (fun f i => Function.update f i (value i)) init =
      fun i => if i < n then value i else init i := by
  induction n with
  | zero => simp
  | succ n ih =>
      rw [List.range_succ, List.foldl_append, ih]
      funext i
      rw [List.foldl_cons, List.foldl_nil]
      by_cases same : i = n
      · rw [same, Function.update_self, if_pos (Nat.lt_succ_self n)]
      · rw [Function.update_of_ne same]
        have side : i < n ↔ i < n + 1 := by omega
        simp only [side]

namespace Router

variable {router : Router} {columns : Nat} {logits : Nat → ℝ}
  {topk : Nat → List (WithBot ℝ) → List Nat}

/-! ## The eligible experts -/

/-- The scores of the groups, as lanes. -/
noncomputable def groupLanes (router : Router) (logits : Nat → ℝ) (g : Nat) : WithBot ℝ :=
  if g < router.numGroups then router.groupScore logits g else ⊥

/-- The choices of the experts of some groups. -/
noncomputable def ofGroups (router : Router) (logits : Nat → ℝ) (groups : List Nat) (col : Nat) :
    WithBot ℝ :=
  if col / router.groupSize ∈ groups then router.padded (router.choice logits) col else ⊥

theorem sum_ne_bot {values : List (WithBot ℝ)} (some : ∀ value ∈ values, value ≠ ⊥) :
    values.sum ≠ ⊥ := by
  induction values with
  | nil => exact WithBot.coe_ne_bot
  | cons value values ih =>
      rw [List.sum_cons, Ne, WithBot.add_eq_bot, not_or]
      exact ⟨some value List.mem_cons_self, ih fun other among =>
        some other (List.mem_cons_of_mem _ among)⟩

section Fitting

variable (fits : router.Fits)
include fits

theorem Fits.groupLanes_ne_bot (grouped : 1 < router.numGroups) {g : Nat}
    (group : g < router.numGroups) : router.groupLanes logits g ≠ ⊥ := by
  have top := fits.group_top (router.choice logits) grouped group (Nat.le_refl _)
  rw [groupLanes, if_pos group, groupScore]
  apply sum_ne_bot
  intro value among
  obtain ⟨i, own, rfl⟩ := List.mem_map.mp among
  exact top.counts i own

/-- The kernel's picks of groups. -/
theorem Fits.groupPicks_top (grouped : 1 < router.numGroups) :
    Top (router.groupLanes logits) router.topkGroup
      (picksOf (nextPowerOf2 router.numGroups) (router.groupLanes logits) router.topkGroup) := by
  have outside : ∀ g, nextPowerOf2 router.numGroups ≤ g → router.groupLanes logits g = ⊥ :=
    fun g past => if_neg (Nat.not_lt.mpr (Nat.le_trans (le_nextPowerOf2 _) past))
  have counts : ∀ g ∈ List.range router.numGroups, router.groupLanes logits g ≠ ⊥ :=
    fun g among => fits.groupLanes_ne_bot grouped (List.mem_range.mp among)
  apply picksOf_top outside List.nodup_range counts
  rw [List.length_range]
  exact fits.fewGroups

omit fits in
theorem Distinct.group_inj (distinct : router.Distinct logits) (grouped : 1 < router.numGroups)
    (i j : Nat) (counts : router.groupLanes logits i ≠ ⊥)
    (same : router.groupLanes logits i = router.groupLanes logits j) : i = j := by
  have inside : ∀ g, router.groupLanes logits g ≠ ⊥ → g < router.numGroups := by
    intro g counts
    by_contra past
    exact counts (if_neg past)
  have first := inside i counts
  have second := inside j (same ▸ counts)
  rw [groupLanes, groupLanes, if_pos first, if_pos second] at same
  exact distinct.groups grouped i first j second same

omit fits in
/-- The group loop after some turns. -/
theorem foldl_groupTurn (groupsPow2 : Nat) (lanes : Nat → WithBot ℝ) (turns : Nat) :
    (List.range turns).foldl (router.groupTurn groupsPow2) (fun _ => 0, lanes) =
      (fun col => if col / router.groupSize ∈ picksOf groupsPow2 lanes turns then 1 else 0,
        without lanes (picksOf groupsPow2 lanes turns)) := by
  induction turns with
  | zero => simp [picksOf]
  | succ turns ih =>
      rw [List.range_succ, List.foldl_append, ih, List.foldl_cons, List.foldl_nil, groupTurn]
      refine Prod.ext (funext fun col => ?_) ?_
      · by_cases own : col / router.groupSize = laneArgmax groupsPow2
            (without lanes (picksOf groupsPow2 lanes turns))
        · simp [picksOf, own]
        · simp [picksOf, own]
      · rw [picksOf, without_concat]

/-- The columns that the kernel leaves eligible. -/
theorem Fits.kernelEligible_eq (distinct : router.Distinct logits)
    (wide : router.numExperts ≤ columns) :
    router.kernelEligible columns (router.padded (router.choice logits)) =
      if 1 < router.numGroups then router.ofGroups logits (picksOf (nextPowerOf2 router.numGroups)
        (router.groupLanes logits) router.topkGroup)
      else router.padded (router.choice logits) := by
  rw [kernelEligible]
  by_cases grouped : 1 < router.numGroups
  · rw [if_pos grouped, if_pos grouped]
    have lanes : (List.range router.numGroups).foldl (fun scores g => Function.update scores g
        (router.kernelGroupScore columns (router.padded (router.choice logits)) g)) (fun _ => ⊥) =
        router.groupLanes logits := by
      rw [foldl_update]
      funext g
      rw [groupLanes]
      split
      · rename_i group
        exact fits.kernelGroupScore_eq distinct grouped group wide
      · rfl
    simp only [lanes, foldl_groupTurn]
    funext col
    rw [ofGroups]
    split
    · rename_i own
      rw [if_pos (by simp)]
    · rename_i other
      rw [if_neg (by simp)]
  · rw [if_neg grouped, if_neg grouped]

/-- The portable path's picks of groups. -/
theorem Fits.topk_groups (law : Topk topk) (grouped : 1 < router.numGroups) :
    Top (router.groupLanes logits) router.topkGroup
      (topk router.topkGroup ((List.range router.numGroups).map (router.groupScore logits))) := by
  have lanes : (fun g => ((List.range router.numGroups).map (router.groupScore logits)).getD g ⊥) =
      router.groupLanes logits := by
    funext g
    rw [groupLanes, List.getD_eq_getElem?_getD, List.getElem?_map]
    split
    · rename_i group
      rw [List.getElem?_range group]
      rfl
    · rename_i past
      rw [List.getElem?_eq_none (by simpa using past)]
      rfl
  have top := (law.selects router.topkGroup ((List.range router.numGroups).map
    (router.groupScore logits)) (by simpa using fits.fewGroups)).top (List.nodup_range)
    (fun g among => by
      rw [congrFun lanes g]
      exact fits.groupLanes_ne_bot grouped (List.mem_range.mp among))
    (by rw [List.length_range]; exact fits.fewGroups)
  rwa [lanes] at top

omit fits in
theorem ofGroups_congr {groups others : List Nat} (perm : groups.Perm others) :
    router.ofGroups logits groups = router.ofGroups logits others := by
  funext col
  simp only [ofGroups, perm.mem_iff]

omit fits in
theorem lt_numGroups {groups : List Nat} {k : Nat} (top : Top (router.groupLanes logits) k groups)
    {g : Nat} (own : g ∈ groups) : g < router.numGroups := by
  by_contra past
  exact top.counts g own (if_neg past)

/-- The experts of the picked groups are enough. -/
theorem Fits.exists_members {groups : List Nat}
    (top : 1 < router.numGroups → Top (router.groupLanes logits) router.topkGroup groups) :
    ∃ members : List Nat, members.Nodup ∧ router.topK ≤ members.length ∧
      ∀ i ∈ members, (if 1 < router.numGroups then router.ofGroups logits groups
        else router.padded (router.choice logits)) i ≠ ⊥ := by
  by_cases grouped : 1 < router.numGroups
  · have top := top grouped
    refine ⟨groups.flatMap fun g => (List.range router.groupSize).map (g * router.groupSize + ·),
      ?_, ?_, ?_⟩
    · refine List.nodup_flatMap.mpr ⟨fun g _ => List.nodup_range.map fun _ _ same =>
        Nat.add_left_cancel same, top.nodup.imp fun {g other} differ => ?_⟩
      intro i first second
      obtain ⟨j, inside, rfl⟩ := List.mem_map.mp first
      obtain ⟨l, small, same⟩ := List.mem_map.mp second
      have quotient := congrArg (· / router.groupSize) same
      simp only [fits.group_of (List.mem_range.mp inside), fits.group_of (List.mem_range.mp small)]
        at quotient
      exact differ quotient.symm
    · have lengths : groups.map (fun g => ((List.range router.groupSize).map
          (g * router.groupSize + ·)).length) = groups.map fun _ => router.groupSize :=
        List.map_congr_left fun g _ => by rw [List.length_map, List.length_range]
      rw [List.length_flatMap, lengths, List.map_const', List.sum_replicate, top.length,
        smul_eq_mul]
      exact fits.fewExperts
    · intro i among
      obtain ⟨g, own, among⟩ := List.mem_flatMap.mp among
      obtain ⟨j, inside, rfl⟩ := List.mem_map.mp among
      rw [List.mem_range] at inside
      rw [if_pos grouped, ofGroups, fits.group_of inside, if_pos own]
      exact padded_ne_bot.mpr (fits.expert_lt (lt_numGroups top own) inside)
  · refine ⟨List.range router.numExperts, List.nodup_range, ?_, ?_⟩
    · have cells := fits.cells
      have one : router.numGroups = 1 := by have := fits.someGroup; omega
      have few := fits.fewGroups
      have experts := fits.fewExperts
      rw [one, Nat.one_mul] at cells
      rw [List.length_range, ← cells]
      rw [one] at few
      exact Nat.le_trans experts (Nat.le_trans (Nat.mul_le_mul_right _ few) (Nat.one_mul _).le)
    · intro i among
      rw [if_neg grouped]
      exact padded_ne_bot.mpr (List.mem_range.mp among)

omit fits in
/-- Eligible lanes are told apart by their choices. -/
theorem Distinct.eligible (distinct : router.Distinct logits) {groups : List Nat} (i j : Nat)
    (counts : (if 1 < router.numGroups then router.ofGroups logits groups
      else router.padded (router.choice logits)) i ≠ ⊥)
    (same : (if 1 < router.numGroups then router.ofGroups logits groups
      else router.padded (router.choice logits)) i =
        (if 1 < router.numGroups then router.ofGroups logits groups
          else router.padded (router.choice logits)) j) : i = j := by
  by_cases grouped : 1 < router.numGroups
  · rw [if_pos grouped] at counts same
    unfold ofGroups at counts same
    split at counts
    · rename_i own
      rw [if_pos own] at same
      split at same
      · exact distinct.padded counts same
      · exact absurd same counts
    · exact absurd rfl counts
  · rw [if_neg grouped] at counts same
    exact distinct.padded counts same

/-! ## The picks -/

omit fits in
/-- The choices the portable path picks experts from. -/
theorem getD_masked (groups : List Nat)
    (cells : router.numGroups * router.groupSize = router.numExperts)
    (some : 0 < router.groupSize) (col : Nat) :
    (((List.range router.numExperts).map fun e => (router.choice logits e : WithBot ℝ)).mapIdx
      fun e value => if ((List.range router.numGroups).map fun g =>
        if g ∈ groups then 1 else 0).getD (e / router.groupSize) 0 = 0 then ⊥ else value).getD col ⊥ =
      router.ofGroups logits groups col := by
  rw [List.getD_eq_getElem?_getD, List.getElem?_mapIdx, List.getElem?_map, ofGroups, padded]
  by_cases known : col < router.numExperts
  · have group : col / router.groupSize < router.numGroups := by
      rw [Nat.div_lt_iff_lt_mul some, cells]
      exact known
    rw [List.getElem?_range known, if_pos known, getD_map_range _ _ group]
    by_cases own : col / router.groupSize ∈ groups
    · rw [if_pos own]
      simp [own]
    · rw [if_neg own]
      simp [own]
  · rw [List.getElem?_eq_none (by simpa using known), if_neg known]
    simp

/-- The weight of a picked expert: of its score and the picked ones', never of a bias. -/
noncomputable def pickWeight (router : Router) (logits : Nat → ℝ) (picks : List Nat) (e : Nat) :
    ℝ :=
  (if router.renormalize then router.scores logits e / (picks.map (router.scores logits)).sum
    else router.scores logits e) * router.scaling

/-- What the portable path returns. -/
theorem Fits.torchSelectExperts_eq (law : Topk topk) (distinct : router.Distinct logits) :
    ∃ groups picks, (1 < router.numGroups → Top (router.groupLanes logits) router.topkGroup groups) ∧
      Top (if 1 < router.numGroups then router.ofGroups logits groups
        else router.padded (router.choice logits)) router.topK picks ∧
      torchSelectExperts topk router logits =
        picks.map fun e => (e, router.pickWeight logits picks e) := by
  have final : ∀ picks : List Nat, (picks.zip
      (let weights := picks.map (router.scores logits)
       let weights := if router.renormalize then weights.map (· / weights.sum) else weights
       if router.scaling ≠ 1 then weights.map (· * router.scaling) else weights)) =
      picks.map fun e => (e, router.pickWeight logits picks e) := by
    intro picks
    rw [List.map_prod_left_eq_zip]
    refine congrArg picks.zip ?_
    by_cases renormalize : router.renormalize
    · by_cases scaled : router.scaling = 1
      · simp [pickWeight, renormalize, scaled]
      · simp [pickWeight, renormalize, scaled]
    · by_cases scaled : router.scaling = 1
      · simp [pickWeight, renormalize, scaled]
      · simp [pickWeight, renormalize, scaled]
  by_cases grouped : 1 < router.numGroups
  · have groupTop := @Fits.topk_groups _ logits _ fits law grouped
    generalize picked : topk router.topkGroup ((List.range router.numGroups).map
      (router.groupScore logits)) = groups at groupTop
    have scored : ((List.range router.numGroups).map fun g =>
        (((List.range router.numExperts).map fun e => (router.choice logits e : WithBot ℝ)).drop
          (g * router.groupSize)).take router.groupSize).map (fun group =>
            if router.correctionBias.isSome then ((topk 2 group).map fun i => group.getD i ⊥).sum
            else group.foldr max ⊥) =
        (List.range router.numGroups).map (router.groupScore logits) := by
      rw [List.map_map]
      exact List.map_congr_left fun g among =>
        fits.torchGroupScore_eq law distinct grouped (List.mem_range.mp among) rfl
    obtain ⟨members, nodup, enough, counts⟩ := fits.exists_members fun _ => groupTop
    rw [if_pos grouped] at counts
    have masked := fun col => @getD_masked router logits groups fits.cells fits.groupSize_pos col
    generalize listed : ((List.range router.numExperts).map fun e =>
      (router.choice logits e : WithBot ℝ)).mapIdx (fun e value =>
        if ((List.range router.numGroups).map fun g =>
          if g ∈ groups then 1 else 0).getD (e / router.groupSize) 0 = 0 then ⊥ else value) =
            values at masked
    refine ⟨groups, topk router.topK values, fun _ => groupTop, ?_, ?_⟩
    · rw [if_pos grouped, ← funext masked]
      have short : router.topK ≤ values.length := by
        rw [← listed, List.length_mapIdx, List.length_map, List.length_range, ← fits.cells]
        exact Nat.le_trans fits.fewExperts (Nat.mul_le_mul_right _ fits.fewGroups)
      exact (law.selects _ _ short).top nodup
        (fun i own => by rw [masked]; exact counts i own) enough
    · rw [← final, torchSelectExperts]
      simp only [if_pos grouped, scored, picked, listed]
  · obtain ⟨members, nodup, enough, counts⟩ :=
      @Fits.exists_members _ logits fits [] fun absurdly => absurd absurdly grouped
    rw [if_neg grouped] at counts
    have all := fun col => @getD_choices router (router.choice logits) col
    refine ⟨[], topk router.topK ((List.range router.numExperts).map fun e =>
      (router.choice logits e : WithBot ℝ)), fun absurdly => absurd absurdly grouped, ?_, ?_⟩
    · rw [if_neg grouped, ← funext all]
      have short : router.topK ≤ ((List.range router.numExperts).map fun e =>
          (router.choice logits e : WithBot ℝ)).length := by
        rw [List.length_map, List.length_range, ← fits.cells]
        exact Nat.le_trans fits.fewExperts (Nat.mul_le_mul_right _ fits.fewGroups)
      exact (law.selects _ _ short).top nodup
        (fun i own => by rw [all]; exact counts i own) enough
    · rw [← final, torchSelectExperts]
      simp only [if_neg grouped]

omit fits in
/-- The top-k loop after some turns. -/
theorem foldl_pickTurn (some : 0 < columns) (lanes : Nat → ℝ) (choice : Nat → WithBot ℝ)
    (turns : Nat) :
    let picks := picksOf columns choice turns
    let s := (List.range turns).foldl (pickTurn columns lanes) ⟨fun _ => 0, fun _ => 0, choice⟩
    (∀ k < turns, s.ids k = picks.getD k 0) ∧
      (∀ k, s.weights k = if k < turns then lanes (picks.getD k 0) else 0) ∧
      s.choice = without choice picks := by
  induction turns with
  | zero => simp [picksOf]
  | succ turns ih =>
      obtain ⟨ids, weights, left⟩ := ih
      rw [List.range_succ, List.foldl_append, List.foldl_cons, List.foldl_nil]
      generalize (List.range turns).foldl (pickTurn columns lanes)
        ⟨fun _ => 0, fun _ => 0, choice⟩ = s at ids weights left
      have small := (laneArgmax_spec some (without choice (picksOf columns choice turns))).1
      have length := length_picksOf columns choice turns
      dsimp only [pickTurn, picksOf]
      rw [left]
      generalize laneArgmax columns (without choice (picksOf columns choice turns)) = expert at small
      have entry : ∀ k, (picksOf columns choice turns ++ [expert]).getD k 0 =
          if k < turns then (picksOf columns choice turns).getD k 0
          else if k = turns then expert else 0 := by
        intro k
        rcases Nat.lt_trichotomy k turns with less | same | more
        · rw [List.getD_append _ _ _ _ (by rw [length]; exact less), if_pos less]
        · rw [same, List.getD_append_right _ _ _ _ length.le, length]
          simp
        · rw [List.getD_eq_default _ _ (by simp [length]; omega), if_neg (by omega),
            if_neg (by omega)]
      refine ⟨fun k inside => ?_, fun k => ?_, ?_⟩
      · rw [entry]
        by_cases same : k = turns
        · rw [same, Function.update_self, if_neg (Nat.lt_irrefl _), if_pos rfl]
        · have earlier : k < turns := by omega
          rw [Function.update_of_ne same, if_pos earlier, ids k earlier]
      · rw [entry]
        by_cases same : k = turns
        · rw [same, Function.update_self, laneSum_pick small, if_pos (Nat.lt_succ_self _),
            if_neg (Nat.lt_irrefl _), if_pos rfl]
        · have side : k < turns + 1 ↔ k < turns := by omega
          rw [Function.update_of_ne same, weights]
          simp only [side, same, if_false]
          split <;> rfl
      · rw [without_concat]

/-- What a row of the kernel returns. -/
theorem Fits.kernelRow_eq (distinct : router.Distinct logits) (wide : router.numExperts ≤ columns)
    {lanes : Nat → ℝ} (loaded : ∀ col < router.numExperts, lanes col = logits col)
    {bias : Option (Nat → ℝ)}
    (biased : ∀ values, router.correctionBias = some values → ∃ loaded, bias = some loaded ∧
      ∀ col < router.numExperts, loaded col = values col)
    (unbiased : router.correctionBias = none → bias = none) :
    ∃ groups picks, (1 < router.numGroups → Top (router.groupLanes logits) router.topkGroup groups) ∧
      Top (if 1 < router.numGroups then router.ofGroups logits groups
        else router.padded (router.choice logits)) router.topK picks ∧
      ∀ k < router.topK, (router.kernelRow columns lanes bias).2 k = picks.getD k 0 ∧
        (router.kernelRow columns lanes bias).1 k =
          router.pickWeight logits picks (picks.getD k 0) := by
  have scored := fun col => @kernelScores_eq router columns logits wide lanes loaded col
  have choice := @kernelChoice_eq router logits _ bias
    (fun col inside => scored col inside) biased unbiased
  have eligible := fits.kernelEligible_eq distinct wide
  have groupTop := fun grouped => @Fits.groupPicks_top _ logits fits grouped
  generalize picksOf (nextPowerOf2 router.numGroups) (router.groupLanes logits)
    router.topkGroup = groups at eligible groupTop
  obtain ⟨members, nodup, enough, counts⟩ := fits.exists_members groupTop
  have outside : ∀ i, columns ≤ i → (if 1 < router.numGroups then router.ofGroups logits groups
      else router.padded (router.choice logits)) i = ⊥ := by
    intro i past
    have padding : router.padded (router.choice logits) i = ⊥ :=
      if_neg (Nat.not_lt.mpr (Nat.le_trans wide past))
    split
    · rw [ofGroups, padding, ite_self]
    · exact padding
  have top := picksOf_top outside nodup counts enough
  obtain ⟨ids, weights, _⟩ := foldl_pickTurn (Nat.lt_of_lt_of_le fits.someExpert wide)
    (router.kernelScores columns lanes) (if 1 < router.numGroups then router.ofGroups logits groups
      else router.padded (router.choice logits)) router.topK
  refine ⟨groups, _, groupTop, top, fun k inside => ?_⟩
  simp only [kernelRow, choice, eligible]
  generalize picksOf columns (if 1 < router.numGroups then router.ofGroups logits groups
    else router.padded (router.choice logits)) router.topK = picks at top ids weights
  have known : ∀ e ∈ picks, router.kernelScores columns lanes e = router.scores logits e := by
    intro e own
    apply scored e
    have counted := top.counts e own
    split at counted
    · unfold ofGroups at counted
      split at counted
      · exact padded_ne_bot.mp counted
      · exact absurd rfl counted
    · exact padded_ne_bot.mp counted
  have mine : picks.getD k 0 ∈ picks := by
    rw [List.getD_eq_getElem _ _ (top.length ▸ inside)]
    exact List.getElem_mem _
  refine ⟨ids k inside, ?_⟩
  rw [pickWeight]
  refine congrArg (· * router.scaling) ?_
  by_cases renormalize : router.renormalize
  · have total : laneSum (nextPowerOf2 router.topK) ((List.range router.topK).foldl
        (pickTurn columns (router.kernelScores columns lanes)) ⟨fun _ => 0, fun _ => 0,
          if 1 < router.numGroups then router.ofGroups logits groups
          else router.padded (router.choice logits)⟩).weights =
        (picks.map (router.scores logits)).sum := by
      rw [laneSum_pad (le_nextPowerOf2 _) fun k past => by
        rw [weights, if_neg (Nat.not_lt.mpr past)], laneSum]
      refine congrArg List.sum ?_
      conv_rhs => rw [← map_getD_range picks 0, top.length, List.map_map]
      refine List.map_congr_left fun k among => ?_
      rw [List.mem_range] at among
      rw [weights, if_pos among, Function.comp_apply]
      apply known
      rw [List.getD_eq_getElem _ _ (top.length ▸ among)]
      exact List.getElem_mem _
    rw [if_pos renormalize, if_pos renormalize, weights, if_pos inside, total, known _ mine]
  · rw [if_neg renormalize, if_neg renormalize, weights, if_pos inside, known _ mine]

end Fitting

end Router

end LeanVllm
