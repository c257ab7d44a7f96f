import LeanVllm.Layers.RoutingAgrees

/-!
# Routing of all tokens

The launch of `topk_softmax_kernel` over all tokens: each token's row of weights and ids is
the row that its program computes.
-/

namespace LeanVllm

open Collections Kernels FusedMoe Sampler

namespace Router

variable {router : Router} {logits : Nat → Nat → ℝ} {numTokens : Nat}

/-- What a program's stores put at a place of `weights` or `ids`. -/
def rowStores {β : Type} (router : Router) (numTokens blockT pid : Nat) (value : Nat → Nat → β) :
    List (Nat × β) :=
  ((List.range blockT).flatMap fun lane =>
    (router.outLanes numTokens (pid * blockT + lane)).map fun k => (lane, k)).map fun at_ =>
      ((pid * blockT + at_.1) * router.topK + at_.2, value at_.1 at_.2)

theorem mem_outLanes {row k : Nat} :
    k ∈ router.outLanes numTokens row ↔ row < numTokens ∧ k < router.topK := by
  rw [outLanes, List.mem_filter, List.mem_range, decide_eq_true_iff]
  constructor
  · rintro ⟨_, kept⟩
    exact kept
  · rintro ⟨inside, small⟩
    exact ⟨Nat.lt_of_lt_of_le small (le_nextPowerOf2 _), inside, small⟩

theorem mem_rowStores {β : Type} {blockT pid i : Nat} {value : Nat → Nat → β} {stored : β} :
    (i, stored) ∈ router.rowStores numTokens blockT pid value ↔
      ∃ lane < blockT, ∃ k < router.topK, pid * blockT + lane < numTokens ∧
        i = (pid * blockT + lane) * router.topK + k ∧ stored = value lane k := by
  simp only [rowStores, List.mem_map, List.mem_flatMap, List.mem_range, mem_outLanes]
  constructor
  · rintro ⟨_, ⟨lane, inside, k, ⟨row, small⟩, rfl⟩, entry⟩
    obtain ⟨rfl, rfl⟩ := Prod.mk.inj entry
    exact ⟨lane, inside, k, small, row, rfl, rfl⟩
  · rintro ⟨lane, inside, k, small, row, rfl, rfl⟩
    exact ⟨_, ⟨lane, inside, k, ⟨row, small⟩, rfl⟩, rfl⟩

/-- A launch of programs that store rows leaves each token's row. -/
theorem launch_rows {β : Type} {blockT : Nat} (positive : 0 < blockT)
    {program : Nat → Option (List (Nat × β))} {value : Nat → Nat → Nat → β}
    (ran : ∀ pid, program pid = some (router.rowStores numTokens blockT pid (value pid))) :
    ∃ out, (Buffer.empty (flat (numTokens * router.topK))).launch
        (List.range (Kernels.cdiv numTokens blockT)) program = some out ∧
      ∀ t < numTokens, ∀ k < router.topK,
        out.load (t * router.topK + k) = some (value (t / blockT) (t % blockT) k) := by
  obtain ⟨out, launched, written⟩ := @Buffer.launch_written _ _ _ _
    (Buffer.empty (flat (numTokens * router.topK))) (List.range (Kernels.cdiv numTokens blockT)) program
    (fun pid => router.rowStores numTokens blockT pid (value pid)) (fun pid _ => ran pid) (by
      intro pid _ entry own
      obtain ⟨lane, _, k, small, row, place, _⟩ := mem_rowStores.mp own
      rw [place]
      exact decide_eq_true (cell_lt row small))
  refine ⟨out, launched, fun t inside k small => written.stored ?_ ?_⟩
  · have place := Nat.div_add_mod' t blockT
    exact ⟨t / blockT, List.mem_range.mpr (div_lt_cdiv inside positive), mem_rowStores.mpr
      ⟨t % blockT, Nat.mod_lt _ positive, k, small, by rw [place]; exact inside, by rw [place], rfl⟩⟩
  · rintro other ⟨pid, _, own⟩
    obtain ⟨lane, within, k', small', _, place, rfl⟩ := mem_rowStores.mp own
    obtain ⟨rows, rfl⟩ := cell_inj small small' place
    have pids : t / blockT = pid := by
      rw [rows, Nat.mul_comm, Nat.mul_add_div positive, Nat.div_eq_of_lt within, Nat.add_zero]
    have lanes : t % blockT = lane := by
      rw [rows, Nat.mul_comm, Nat.mul_add_mod, Nat.mod_eq_of_lt within]
    rw [pids, lanes]

/-- What a program reads, and so stores. -/
theorem topkSoftmaxKernel_eq (router : Router) (logits : Nat → Nat → ℝ) (numTokens blockT : Nat)
    {expertsPow2 : Nat} (wide : router.numExperts ≤ expertsPow2) (pid : Nat) :
    ∃ (lanes : Nat → Nat → ℝ) (bias : Option (Nat → ℝ)),
      (∀ lane < blockT, pid * blockT + lane < numTokens → ∀ col < router.numExperts,
        lanes lane col = logits (pid * blockT + lane) col) ∧
      (∀ values, router.correctionBias = some values → ∃ loaded, bias = some loaded ∧
        ∀ col < router.numExperts, loaded col = values col) ∧
      (router.correctionBias = none → bias = none) ∧
      topkSoftmaxKernel router
        (Buffer.filled (rect numTokens router.numExperts) fun i => logits i.1 i.2)
        (router.correctionBias.map fun bias => Buffer.filled (flat router.numExperts) bias)
        numTokens expertsPow2 blockT pid =
        some (router.rowStores numTokens blockT pid fun lane =>
            (router.kernelRow expertsPow2 (lanes lane) bias).1,
          router.rowStores numTokens blockT pid fun lane =>
            (router.kernelRow expertsPow2 (lanes lane) bias).2) := by
  have tile : loadTile blockT expertsPow2 (fun lane col =>
      (Buffer.filled (rect numTokens router.numExperts) fun i => logits i.1 i.2).loadMasked
        (decide (pid * blockT + lane < numTokens) && decide (col < router.numExperts)) 0
        (pid * blockT + lane, col)) = _ :=
    loadTile_eq fun lane _ col _ => Buffer.loadMasked_eq fun within => by
      rw [Bool.and_eq_true, decide_eq_true_iff, decide_eq_true_iff] at within
      exact Buffer.load_filled (decide_eq_true within)
  have lanes : ∀ lane < blockT, pid * blockT + lane < numTokens → ∀ col < router.numExperts,
      (((List.range blockT).map fun lane => (List.range expertsPow2).map fun col =>
        if (decide (pid * blockT + lane < numTokens) && decide (col < router.numExperts)) = true
        then logits (pid * blockT + lane) col else 0).getD lane []).getD col 0 =
          logits (pid * blockT + lane) col := by
    intro lane inBlock row col inside
    rw [getD_map_range _ _ inBlock, getD_map_range _ _ (Nat.lt_of_lt_of_le inside wide),
      decide_eq_true row, decide_eq_true inside, Bool.and_self, if_pos rfl]
  cases given : router.correctionBias with
  | none =>
      refine ⟨_, none, lanes, ?_, fun _ => rfl, ?_⟩
      · intro values absurdly
        exact nomatch absurdly
      · rw [topkSoftmaxKernel, tile, Option.map_none]
        rfl
  | some values =>
      have read : ((List.range expertsPow2).mapM fun col => (Buffer.filled
          (flat router.numExperts) values).loadMasked (decide (col < router.numExperts)) 0 col) =
            _ :=
        mapM_eq_some fun col _ => Buffer.loadMasked_eq fun within => Buffer.load_filled within
      refine ⟨_, some fun col => ((List.range expertsPow2).map fun col =>
        if decide (col < router.numExperts) = true then values col else 0).getD col 0, lanes,
          ?_, ?_, ?_⟩
      · intro biased same
        obtain rfl := Option.some.inj same
        refine ⟨_, rfl, fun col inside => ?_⟩
        rw [getD_map_range _ _ (Nat.lt_of_lt_of_le inside wide), if_pos (decide_eq_true inside)]
      · intro absurdly
        exact nomatch absurdly
      · rw [topkSoftmaxKernel, tile, Option.map_some]
        simp only [read]
        rfl

/-- A token's experts with their weights, as the launch leaves them. -/
def routed (router : Router) (weights : Buffer Nat ℝ) (ids : Buffer Nat Nat) (t : Nat) :
    Option (List (Nat × ℝ)) :=
  (List.range router.topK).mapM fun k => do
    let e ← ids.load (t * router.topK + k)
    let weight ← weights.load (t * router.topK + k)
    some (e, weight)

theorem pickWeight_perm {logits : Nat → ℝ} {picks others : List Nat} (perm : picks.Perm others)
    (e : Nat) : router.pickWeight logits picks e = router.pickWeight logits others e := by
  rw [pickWeight, pickWeight, (perm.map (router.scores logits)).sum_eq]

theorem routed_eq {weights : Buffer Nat ℝ} {ids : Buffer Nat Nat} {t : Nat} {logits : Nat → ℝ}
    {picks : List Nat} (length : picks.length = router.topK)
    (chosen : ∀ k < router.topK, ids.load (t * router.topK + k) = some (picks.getD k 0))
    (weighed : ∀ k < router.topK, weights.load (t * router.topK + k) =
      some (router.pickWeight logits picks (picks.getD k 0))) :
    router.routed weights ids t =
      some (picks.map fun e => (e, router.pickWeight logits picks e)) := by
  have each : ∀ k ∈ List.range router.topK, (do
      let e ← ids.load (t * router.topK + k)
      let weight ← weights.load (t * router.topK + k)
      some (e, weight)) =
      some (picks.getD k 0, router.pickWeight logits picks (picks.getD k 0)) := by
    intro k among
    rw [List.mem_range] at among
    rw [chosen k among, weighed k among]
    rfl
  have listed := congrArg (List.map fun e => (e, router.pickWeight logits picks e))
    (map_getD_range picks 0)
  rw [List.map_map, length] at listed
  rw [routed, mapM_eq_some each]
  exact congrArg some listed

/-- What `topk_softmax` leaves for each token: the row of its program. -/
theorem Fits.topkSoftmax_rows (fits : router.Fits) (logits : Nat → Nat → ℝ) (numTokens : Nat) :
    ∃ weights ids, topkSoftmax router logits numTokens = some (weights, ids) ∧
      ∀ t < numTokens, ∃ (lanes : Nat → ℝ) (bias : Option (Nat → ℝ)),
        (∀ col < router.numExperts, lanes col = logits t col) ∧
        (∀ values, router.correctionBias = some values → ∃ loaded, bias = some loaded ∧
          ∀ col < router.numExperts, loaded col = values col) ∧
        (router.correctionBias = none → bias = none) ∧
        ∀ k < router.topK,
          ids.load (t * router.topK + k) =
            some ((router.kernelRow (nextPowerOf2 router.numExperts) lanes bias).2 k) ∧
          weights.load (t * router.topK + k) =
            some ((router.kernelRow (nextPowerOf2 router.numExperts) lanes bias).1 k) := by
  have positive : 0 < max 1 (4096 / nextPowerOf2 router.numExperts) :=
    Nat.lt_of_lt_of_le Nat.one_pos (Nat.le_max_left _ _)
  have split : ¬ router.numExperts % router.numGroups ≠ 0 := fun ragged =>
    ragged (Nat.mod_eq_zero_of_dvd fits.divides)
  rw [topkSoftmax, if_neg split]
  simp only
  generalize max 1 (4096 / nextPowerOf2 router.numExperts) = blockT at positive
  choose lanes bias read biased unbiased ran using
    topkSoftmaxKernel_eq router logits numTokens blockT (le_nextPowerOf2 router.numExperts)
  have weightsRan := fun pid => congrArg (Option.map Prod.fst) (ran pid)
  have idsRan := fun pid => congrArg (Option.map Prod.snd) (ran pid)
  simp only [Option.map_some] at weightsRan idsRan
  obtain ⟨weights, launched, weighed⟩ := launch_rows positive weightsRan
  obtain ⟨ids, placed, chosen⟩ := launch_rows positive idsRan
  refine ⟨weights, ids, ?_, fun t inside => ?_⟩
  · rw [launched, placed]
    rfl
  · have place := Nat.div_add_mod' t blockT
    have lane := Nat.mod_lt t positive
    refine ⟨lanes (t / blockT) (t % blockT), bias (t / blockT), ?_, biased _, unbiased _,
      fun k small => ⟨chosen t inside k small, weighed t inside k small⟩⟩
    intro col small
    rw [read _ _ lane (by rw [place]; exact inside) col small, place]

/-- The kernel and the portable path pick the same experts for every token, with the same
weights. -/
theorem routings_agree {topk : Nat → List (WithBot ℝ) → List Nat} (law : Topk topk)
    (fits : router.Fits) (distinct : ∀ t < numTokens, router.Distinct (logits t)) :
    ∃ weights ids, topkSoftmax router logits numTokens = some (weights, ids) ∧
      ∀ t < numTokens, ∃ groups picked, router.routed weights ids t = some picked ∧
        picked.Perm (torchSelectExperts topk router (logits t)) ∧
        (picked.map Prod.fst).Nodup ∧
        (1 < router.numGroups → Top (router.groupLanes (logits t)) router.topkGroup groups) ∧
        ∀ entry ∈ picked, entry.1 < router.numExperts ∧
          (1 < router.numGroups → entry.1 / router.groupSize ∈ groups) ∧
          entry.2 = pickWeight { router with correctionBias := none } (logits t)
            (picked.map Prod.fst) entry.1 := by
  obtain ⟨weights, ids, ran, rows⟩ := fits.topkSoftmax_rows logits numTokens
  refine ⟨weights, ids, ran, fun t inside => ?_⟩
  obtain ⟨lanes, bias, read, biased, unbiased, stored⟩ := rows t inside
  obtain ⟨groups, picks, best, top, row⟩ := fits.kernelRow_eq (distinct t inside)
    (le_nextPowerOf2 _) read biased unbiased
  obtain ⟨others, theirs, rivals, rival, portable⟩ := fits.torchSelectExperts_eq law
    (distinct t inside)
  -- the same groups, so the same experts eligible, so the same picks
  have eligible : (if 1 < router.numGroups then router.ofGroups (logits t) groups
      else router.padded (router.choice (logits t))) =
      if 1 < router.numGroups then router.ofGroups (logits t) others
      else router.padded (router.choice (logits t)) := by
    by_cases grouped : 1 < router.numGroups
    · rw [if_pos grouped, if_pos grouped]
      exact ofGroups_congr ((best grouped).perm (rivals grouped)
        ((distinct t inside).group_inj grouped))
    · rw [if_neg grouped, if_neg grouped]
  have perm : picks.Perm theirs :=
    top.perm (eligible ▸ rival) (distinct t inside).eligible
  have fst : (picks.map fun e => (e, router.pickWeight (logits t) picks e)).map Prod.fst = picks := by
    rw [List.map_map]
    exact List.map_id picks
  have routes : router.routed weights ids t =
      some (picks.map fun e => (e, router.pickWeight (logits t) picks e)) := by
    apply routed_eq top.length
    · intro k small
      rw [(stored k small).1, (row k small).1]
    · intro k small
      rw [(stored k small).2, (row k small).2]
  refine ⟨groups, _, routes, ?_, ?_, best, ?_⟩
  · rw [portable]
    have weights : (picks.map fun e => (e, router.pickWeight (logits t) picks e)) =
        picks.map fun e => (e, router.pickWeight (logits t) theirs e) :=
      List.map_congr_left fun e _ => by rw [pickWeight_perm perm]
    rw [weights]
    exact perm.map _
  · rw [fst]
    exact top.nodup
  · intro entry among
    obtain ⟨e, own, rfl⟩ := List.mem_map.mp among
    have counts := top.counts e own
    rw [fst]
    refine ⟨?_, fun grouped => ?_, rfl⟩
    · by_cases grouped : 1 < router.numGroups
      · rw [if_pos grouped, ofGroups] at counts
        split at counts
        · exact padded_ne_bot.mp counts
        · exact absurd rfl counts
      · rw [if_neg grouped] at counts
        exact padded_ne_bot.mp counts
    · rw [if_pos grouped] at counts
      by_contra other
      exact counts (if_neg other)

/-- Without a bias, distinct choices make distinct group scores. -/
theorem Fits.distinct (fits : router.Fits) (unbiased : router.correctionBias = none)
    {logits : Nat → ℝ} (choices : ∀ e < router.numExperts, ∀ other < router.numExperts,
      router.choice logits e = router.choice logits other → e = other) :
    router.Distinct logits := by
  constructor
  · exact choices
  · intro grouped g group other rival same
    have one : router.scoredBy = 1 := by
      rw [scoredBy, unbiased]
      rfl
    have best : ∀ g < router.numGroups, ∃ e < router.numExperts, e / router.groupSize = g ∧
        router.groupScore logits g = (router.choice logits e : WithBot ℝ) := by
      intro g group
      have top := fits.group_top (router.choice logits) grouped group (Nat.le_refl _)
      rw [one, picksOf_one] at top
      have counts := top.counts _ (List.mem_singleton_self _)
      rw [groupScore, one, picksOf_one]
      generalize laneArgmax router.numExperts
        (router.inGroup (router.padded (router.choice logits)) g) = e at counts
      rw [inGroup] at counts
      split at counts
      · rename_i own
        have inside := padded_ne_bot.mp counts
        refine ⟨e, inside, own, ?_⟩
        simp [inGroup, own, padded, inside]
      · exact absurd rfl counts
    obtain ⟨e, inside, rfl, score⟩ := best g group
    obtain ⟨e', inside', rfl, score'⟩ := best other rival
    rw [score, score', WithBot.coe_inj] at same
    rw [choices e inside e' inside' same]

/-- Six experts in three groups. -/
noncomputable def sixExperts : Router where
  numExperts := 6
  topK := 3
  renormalize := true
  scaling := 2
  numGroups := 3
  topkGroup := 2
  sigmoid := false
  correctionBias := none

theorem sixExperts_fits : sixExperts.Fits where
  someExpert := by decide
  someGroup := by decide
  divides := by decide
  pairs := nofun
  fewGroups := by decide
  fewExperts := by decide

theorem sixExperts_distinct (t : Nat) : sixExperts.Distinct fun e => (t : ℝ) + e := by
  apply sixExperts_fits.distinct rfl
  intro e _ other _ same
  have some : laneSum 6 (fun other => Real.exp ((t : ℝ) + other)) ≠ 0 := by
    have positive : 0 < laneSum 6 fun other => Real.exp ((t : ℝ) + other) := by
      simp only [laneSum, List.range_succ, List.range_zero, List.map_append, List.sum_append,
        List.nil_append, List.map_singleton, List.sum_singleton]
      positivity
    exact positive.ne'
  have scores := (div_left_inj' some).mp same
  exact_mod_cast add_left_cancel (Real.exp_injective scores)

theorem routings_agree_sixExperts :
    ∃ weights ids, topkSoftmax sixExperts (fun t e => (t : ℝ) + e) 2 = some (weights, ids) ∧
      ∀ t < 2, ∃ groups picked, sixExperts.routed weights ids t = some picked ∧
        picked.Perm (torchSelectExperts sortedPicks sixExperts fun e => (t : ℝ) + e) ∧
        (picked.map Prod.fst).Nodup ∧
        (1 < sixExperts.numGroups →
          Top (sixExperts.groupLanes fun e => (t : ℝ) + e) sixExperts.topkGroup groups) ∧
        ∀ entry ∈ picked, entry.1 < sixExperts.numExperts ∧
          (1 < sixExperts.numGroups → entry.1 / sixExperts.groupSize ∈ groups) ∧
          entry.2 = pickWeight { sixExperts with correctionBias := none } (fun e => (t : ℝ) + e)
            (picked.map Prod.fst) entry.1 :=
  routings_agree ⟨fun _ _ short => sortedPicks_selects short⟩ sixExperts_fits
    fun t _ => sixExperts_distinct t

end Router

end LeanVllm
