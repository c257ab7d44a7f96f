import LeanVllm.Layers.FusedExperts

/-!
# The portable experts are the weighted sum

After the sort a row's group is its pair's expert, and the rows of another rank's experts
come after every group.  Adding the rows back undoes the sort.
-/

namespace LeanVllm

open Collections Kernels

namespace FusedMoe

variable {R : Type} [CommSemiring R]

/-! ## Sorted rows -/

/-- `torch.sort`: the keys in order, and where each was; equal keys in any order. -/
structure Sorts (sort : List Int → List Int × List Nat) : Prop where
  perm : ∀ keys, (sort keys).2.Perm (List.range keys.length)
  keys : ∀ keys, (sort keys).1 = (sort keys).2.map fun p => keys.getD p 0
  ordered : ∀ keys, (sort keys).1.Pairwise (· ≤ ·)

/-- In a sorted list the entries up to a value come first. -/
theorem lt_countP_iff {values : List Int} (ordered : values.Pairwise (· ≤ ·)) {r : Nat}
    {value : Int} (found : values[r]? = some value) (limit : Int) :
    r < values.countP (fun v => v ≤ limit) ↔ value ≤ limit := by
  induction values generalizing r with
  | nil => simp at found
  | cons first rest ih =>
      obtain ⟨least, ordered⟩ := List.pairwise_cons.mp ordered
      cases r with
      | zero =>
          obtain rfl := Option.some.inj found
          by_cases le : first ≤ limit
          · simp [le]
          · have none : rest.countP (fun v => v ≤ limit) = 0 := by
              refine List.countP_eq_zero.mpr fun other among small => ?_
              exact le (Int.le_trans (least other among) (of_decide_eq_true small))
            simp [le, none]
      | succ r =>
          rw [List.getElem?_cons_succ] at found
          have rest := ih ordered found
          have above := least value (List.mem_of_getElem? found)
          by_cases le : first ≤ limit
          · rw [List.countP_cons, if_pos (decide_eq_true le), Nat.succ_lt_succ_iff]
            exact rest
          · rw [List.countP_cons, if_neg (by simpa using le), Nat.add_zero]
            constructor
            · intro short
              exact rest.mp (by omega)
            · intro small
              exact absurd (Int.le_trans above small) le

/-- A sorted row's group is its key, and there is none past the last group. -/
theorem findIdx?_offsets {expertIds : List Int} (ordered : expertIds.Pairwise (· ≤ ·))
    {r numExperts : Nat} {id : Nat} (found : expertIds[r]? = some (id : Int)) :
    ((List.range numExperts).map fun expert =>
      expertIds.countP fun id => id ≤ ((expert : Nat) : Int)).findIdx? (fun last => r < last) =
        if id < numExperts then some id else none := by
  have passed : ∀ expert : Nat, r < expertIds.countP (fun id => id ≤ (expert : Int)) ↔
      id ≤ expert := by
    intro expert
    rw [lt_countP_iff ordered found, Int.ofNat_le]
  split
  · rename_i inside
    rw [List.findIdx?_eq_some_iff_getElem]
    refine ⟨by simpa using inside, ?_, ?_⟩
    · simp [passed]
    · intro expert earlier
      simp [passed]
      omega
  · rename_i past
    rw [List.findIdx?_eq_none_iff]
    intro last among
    obtain ⟨expert, small, rfl⟩ := List.mem_map.mp among
    rw [List.mem_range] at small
    simp [passed]
    omega

/-! ## Adding back -/

/-- What `index_add_` adds to an element. -/
theorem indexAdd_eq (base : Nat → Nat → R) (ids : List Nat) (rows : List (List R)) (t d : Nat) :
    indexAdd base ids rows t d = base t d +
      ((ids.zip rows).map fun entry => if entry.1 = t then entry.2.getD d 0 else 0).sum := by
  rw [indexAdd]
  induction ids.zip rows generalizing base with
  | nil => simp
  | cons entry entries ih =>
      rw [List.foldl_cons, ih, List.map_cons, List.sum_cons, ← add_assoc]
      congr 1
      by_cases own : entry.1 = t
      · rw [if_pos own, ← own, Function.update_self]
      · rw [if_neg own, Function.update_of_ne (Ne.symm own), add_zero]

/-- The pairs of one token. -/
theorem sum_token (f : Nat → R) (numTokens topK t : Nat) :
    ((List.range (numTokens * topK)).map fun p => if p / topK = t then f p else 0).sum =
      if t < numTokens then ((List.range topK).map fun k => f (t * topK + k)).sum else 0 := by
  induction numTokens with
  | zero => simp
  | succ n ih =>
      have own : ∀ k ∈ List.range topK, (if (n * topK + k) / topK = t then f (n * topK + k) else 0) =
          if n = t then f (n * topK + k) else 0 := by
        intro k among
        rw [List.mem_range] at among
        rw [Nat.mul_comm, Nat.mul_add_div (Nat.zero_lt_of_lt among), Nat.div_eq_of_lt among,
          Nat.add_zero]
      rw [sum_tile, ih, List.map_congr_left own]
      by_cases here : n = t
      · subst here
        simp
      · have zero : ((List.range topK).map fun k => if n = t then f (n * topK + k) else 0).sum =
            0 := by
          simp [here]
        have side : t < n + 1 ↔ t < n := by omega
        rw [zero, add_zero]
        simp only [side]

/-! ## The path -/

section Torch

variable {sort : List Int → List Int × List Nat} {x : Nat → Nat → R} {experts : Experts R}
  {routing : Routing R} {numExperts : Nat} {expertMap : Option (List Int)}
  {weights : Nat → ExpertWeights R} {sigmoid : R → R}

/-- A rank's numbers are those of its experts; without a map every expert is one. -/
structure Experts.Numbers (experts : Experts R) (expertMap : Option (List Int))
    (numExperts : Nat) : Prop where
  maps : MapsAll expertMap numExperts
  all : expertMap = none → experts.numExperts = numExperts
  bounds : ∀ e < numExperts, localExpert expertMap e ≠ -1 →
    0 ≤ localExpert expertMap e ∧ localExpert expertMap e < experts.numExperts

/-- A pair's key in the sort. -/
def pairKey (routing : Routing R) (expertMap : Option (List Int)) (numLocal p : Nat) : Nat :=
  if localExpert expertMap (routing.ids.getD p 0) = -1 then numLocal
  else (localExpert expertMap (routing.ids.getD p 0)).toNat

/-- One pair's row before the rows are added back. -/
def pairRow (sigmoid : R → R) (x : Nat → Nat → R) (weights : Nat → ExpertWeights R)
    (routing : Routing R) (expertMap : Option (List Int)) (hiddenSize intermediateSize p : Nat) :
    List R :=
  (List.range hiddenSize).map fun d =>
    if localExpert expertMap (routing.ids.getD p 0) = -1 then 0
    else (weights (routing.ids.getD p 0)).output sigmoid hiddenSize intermediateSize
      (x (p / routing.topK)) d * routing.weights p

omit [CommSemiring R] in
theorem localIds_getD (numbers : experts.Numbers expertMap numExperts)
    (small : ∀ e ∈ routing.ids, e < numExperts) {p : Nat} (inside : p < routing.ids.length) :
    (localIds routing.ids experts.numExperts expertMap).getD p 0 =
      (pairKey routing expertMap experts.numExperts p : Int) := by
  have found := List.getElem?_eq_getElem inside
  generalize routing.ids[p] = e at found
  have known := small e (List.mem_of_getElem? found)
  have range := numbers.bounds e known
  have read : routing.ids.getD p 0 = e := by
    rw [List.getD_eq_getElem?_getD, found, Option.getD_some]
  have key : (localIds routing.ids experts.numExperts expertMap).getD p 0 =
      if localExpert expertMap e < 0 then (experts.numExperts : Int)
      else localExpert expertMap e := by
    cases expertMap with
    | none =>
        have natural : ¬ localExpert none e < 0 := Int.not_lt.mpr (Int.natCast_nonneg e)
        rw [if_neg natural, localIds, List.getD_eq_getElem?_getD, List.getElem?_map, found]
        rfl
    | some map =>
        rw [localIds, List.getD_eq_getElem?_getD, List.getElem?_map, List.getElem?_map, found]
        rfl
  rw [key, pairKey, read]
  by_cases elsewhere : localExpert expertMap e = -1
  · rw [if_pos elsewhere, elsewhere]
    rfl
  · have bounds := range elsewhere
    rw [if_neg elsewhere, if_neg (by omega)]
    omega

omit [CommSemiring R] in
theorem length_localIds : (localIds routing.ids experts.numExperts expertMap).length =
    routing.ids.length := by
  cases expertMap with
  | none => simp [localIds]
  | some map => simp [localIds]

/-- A grouped product of rows in the order of a sort. -/
theorem groupedMm_sorted {order : List Nat} {key : Nat → Nat}
    (ordered : (order.map fun p => (key p : Int)).Pairwise (· ≤ ·)) (rows : Nat → Option (List R))
    (n k numLocal : Nat) (weight : Buffer (Nat × Nat × Nat) R) :
    groupedMm (order.map rows) n k weight ((List.range numLocal).map fun expert =>
      (order.map fun p => (key p : Int)).countP fun id => id ≤ ((expert : Nat) : Int)) =
    order.map fun p => if key p < numLocal then do
        let row ← rows p
        (List.range n).mapM fun column => do
          let weights ← (List.range k).mapM fun j => weight.load (key p, column, j)
          some ((List.range k).map fun j => row.getD j 0 * weights.getD j 0).sum
      else none := by
  apply List.ext_getElem?
  intro r
  rw [groupedMm, List.getElem?_mapIdx, List.getElem?_map, List.getElem?_map]
  cases found : order[r]? with
  | none => rfl
  | some p =>
      have key : (order.map fun p => (key p : Int))[r]? = some (key p : Int) := by
        rw [List.getElem?_map, found]
        rfl
      rw [Option.map_some, Option.map_some, Option.map_some, findIdx?_offsets ordered key]
      split
      · rfl
      · rfl

omit [CommSemiring R] in
/-- A pair is in a group where its expert is this rank's. -/
theorem pairKey_lt_iff (numbers : experts.Numbers expertMap numExperts)
    (small : ∀ e ∈ routing.ids, e < numExperts) {p : Nat} (inside : p < routing.ids.length) :
    pairKey routing expertMap experts.numExperts p < experts.numExperts ↔
      localExpert expertMap (routing.ids.getD p 0) ≠ -1 := by
  have found := List.getElem?_eq_getElem inside
  have read : routing.ids.getD p 0 = routing.ids[p] := by
    rw [List.getD_eq_getElem?_getD, found, Option.getD_some]
  have range := numbers.bounds _ (small _ (List.mem_of_getElem? found))
  rw [pairKey, read]
  by_cases elsewhere : localExpert expertMap routing.ids[p] = -1
  · rw [if_pos elsewhere]
    exact ⟨fun less => absurd less (Nat.lt_irrefl _), fun mine => absurd elsewhere mine⟩
  · have bounds := range elsewhere
    rw [if_neg elsewhere]
    exact ⟨fun _ => elsewhere, fun _ => by omega⟩

section Products

variable {order : List Nat} (inside : ∀ p ∈ order, p < routing.ids.length)
  (ordered : (order.map fun p =>
    (pairKey routing expertMap experts.numExperts p : Int)).Pairwise (· ≤ ·))
  (numbers : experts.Numbers expertMap numExperts)
  (holds : experts.Holds expertMap numExperts weights)
  (small : ∀ e ∈ routing.ids, e < numExperts)
include inside ordered numbers holds small

/-- The first grouped product: the hidden values of this rank's pairs. -/
theorem first_groupedMm :
    groupedMm (order.map fun p => some ((List.range experts.hiddenSize).map (x (p / routing.topK))))
      (2 * experts.intermediateSize) experts.hiddenSize experts.gateUpProj
      ((List.range experts.numExperts).map fun expert => (order.map fun p =>
        (pairKey routing expertMap experts.numExperts p : Int)).countP fun id =>
          id ≤ ((expert : Nat) : Int)) =
    order.map fun p => if localExpert expertMap (routing.ids.getD p 0) = -1 then none
      else some ((List.range (2 * experts.intermediateSize)).map
        ((weights (routing.ids.getD p 0)).hidden experts.hiddenSize (x (p / routing.topK)))) := by
  refine (groupedMm_sorted ordered _ _ _ _ _).trans (List.map_congr_left fun p among => ?_)
  have mine := pairKey_lt_iff numbers small (inside p among)
  have known : routing.ids.getD p 0 < numExperts := by
    rw [List.getD_eq_getElem?_getD, List.getElem?_eq_getElem (inside p among), Option.getD_some]
    exact small _ (List.getElem_mem _)
  by_cases elsewhere : localExpert expertMap (routing.ids.getD p 0) = -1
  · rw [if_pos elsewhere, if_neg fun own => mine.mp own elsewhere]
  · rw [if_neg elsewhere, if_pos (mine.mpr elsewhere)]
    refine mapM_eq_some fun i own => ?_
    have loads := mapM_eq_some fun j (here : j ∈ List.range experts.hiddenSize) =>
      holds.gateUp _ known elsewhere i (List.mem_range.mp own) j (List.mem_range.mp here)
    rw [pairKey, if_neg elsewhere, loads, Option.bind_eq_bind, Option.bind_some,
      ExpertWeights.hidden]
    refine congrArg some (congrArg List.sum (List.map_congr_left fun j here => ?_))
    rw [List.mem_range] at here
    rw [getD_map_range _ _ here, getD_map_range _ _ here]

/-- The second: the outputs of this rank's pairs. -/
theorem second_groupedMm :
    groupedMm (order.map fun p => if localExpert expertMap (routing.ids.getD p 0) = -1 then none
      else some (siluAndMulRow sigmoid experts.intermediateSize
        ((List.range (2 * experts.intermediateSize)).map
          ((weights (routing.ids.getD p 0)).hidden experts.hiddenSize (x (p / routing.topK))))))
      experts.hiddenSize experts.intermediateSize experts.downProj
      ((List.range experts.numExperts).map fun expert => (order.map fun p =>
        (pairKey routing expertMap experts.numExperts p : Int)).countP fun id =>
          id ≤ ((expert : Nat) : Int)) =
    order.map fun p => if localExpert expertMap (routing.ids.getD p 0) = -1 then none
      else some ((List.range experts.hiddenSize).map
        ((weights (routing.ids.getD p 0)).output sigmoid experts.hiddenSize
          experts.intermediateSize (x (p / routing.topK)))) := by
  refine (groupedMm_sorted ordered _ _ _ _ _).trans (List.map_congr_left fun p among => ?_)
  have mine := pairKey_lt_iff numbers small (inside p among)
  have known : routing.ids.getD p 0 < numExperts := by
    rw [List.getD_eq_getElem?_getD, List.getElem?_eq_getElem (inside p among), Option.getD_some]
    exact small _ (List.getElem_mem _)
  by_cases elsewhere : localExpert expertMap (routing.ids.getD p 0) = -1
  · rw [if_pos elsewhere, if_pos elsewhere, if_neg fun own => mine.mp own elsewhere]
  · rw [if_neg elsewhere, if_neg elsewhere, if_pos (mine.mpr elsewhere)]
    refine mapM_eq_some fun i own => ?_
    have loads := mapM_eq_some fun j (here : j ∈ List.range experts.intermediateSize) =>
      holds.down _ known elsewhere i (List.mem_range.mp own) j (List.mem_range.mp here)
    rw [pairKey, if_neg elsewhere, loads, Option.bind_eq_bind, Option.bind_some,
      ExpertWeights.output]
    refine congrArg some (congrArg List.sum (List.map_congr_left fun j here => ?_))
    rw [List.mem_range] at here
    rw [siluAndMulRow, getD_map_range _ _ here, getD_map_range _ _ here,
      getD_map_range _ _ (by omega), getD_map_range _ _ (by omega)]

end Products

/-- The rows that are added back: every pair's, zeros where its expert is another rank's. -/
theorem masked_rows {order : List Nat} (inside : ∀ p ∈ order, p < routing.ids.length)
    (numbers : experts.Numbers expertMap numExperts)
    (small : ∀ e ∈ routing.ids, e < numExperts) :
    (if expertMap.isSome then List.zipWith (fun (id : Int) row =>
        if id < experts.numExperts then row else some (List.replicate experts.hiddenSize 0))
      (order.map fun p => (pairKey routing expertMap experts.numExperts p : Int))
      (order.map fun p => if localExpert expertMap (routing.ids.getD p 0) = -1 then none
        else some (pairRow sigmoid x weights routing expertMap experts.hiddenSize
          experts.intermediateSize p))
    else order.map fun p => if localExpert expertMap (routing.ids.getD p 0) = -1 then none
      else some (pairRow sigmoid x weights routing expertMap experts.hiddenSize
        experts.intermediateSize p)) =
    order.map fun p => some (pairRow sigmoid x weights routing expertMap experts.hiddenSize
      experts.intermediateSize p) := by
  cases expertMap with
  | none =>
      refine List.map_congr_left fun p among => if_neg ?_
      exact fun absent => absurd absent (Int.ne_of_gt (Int.lt_of_lt_of_le (by decide)
        (Int.natCast_nonneg _)))
  | some map =>
      rw [if_pos Option.isSome_some, List.zipWith_map_left, List.zipWith_map_right, List.zipWith_self]
      refine List.map_congr_left fun p among => ?_
      have mine := pairKey_lt_iff numbers small (inside p among)
      by_cases elsewhere : localExpert (some map) (routing.ids.getD p 0) = -1
      · have past : ¬ pairKey routing (some map) experts.numExperts p < experts.numExperts :=
          fun own => mine.mp own elsewhere
        rw [if_neg (by exact_mod_cast past), pairRow]
        simp only [elsewhere, if_true, List.map_const', List.length_range]
      · rw [if_pos (by exact_mod_cast mine.mpr elsewhere), if_neg elsewhere]

/-- The portable path computes the weighted sum, however the sort breaks its ties. -/
theorem torchExperts_eq (sorts : Sorts sort) (numbers : experts.Numbers expertMap numExperts)
    (holds : experts.Holds expertMap numExperts weights)
    (small : ∀ e ∈ routing.ids, e < numExperts) :
    torchExperts sort sigmoid x experts routing expertMap =
      some (tabulate routing.numTokens experts.hiddenSize
        (routedSum sigmoid x weights routing expertMap experts.hiddenSize
          experts.intermediateSize)) := by
  have perm := sorts.perm (localIds routing.ids experts.numExperts expertMap)
  have keys := sorts.keys (localIds routing.ids experts.numExperts expertMap)
  have ordered := sorts.ordered (localIds routing.ids experts.numExperts expertMap)
  rw [length_localIds] at perm
  rw [torchExperts]
  generalize sort (localIds routing.ids experts.numExperts expertMap) = sorted at *
  obtain ⟨expertIds, order⟩ := sorted
  have inside : ∀ p ∈ order, p < routing.ids.length := fun p among =>
    List.mem_range.mp (perm.mem_iff.mp among)
  have keysEq : expertIds = order.map fun p =>
      (pairKey routing expertMap experts.numExperts p : Int) :=
    keys.trans (List.map_congr_left fun p among => localIds_getD numbers small (inside p among))
  subst keysEq
  have tokens : (order.map (· / routing.topK)).map
      (fun t => some ((List.range experts.hiddenSize).map (x t))) =
        order.map fun p => some ((List.range experts.hiddenSize).map (x (p / routing.topK))) := by
    rw [List.map_map]
    rfl
  have activated : ∀ f : Nat → List R,
      (order.map fun p => if localExpert expertMap (routing.ids.getD p 0) = -1 then none
        else some (f p)).map (Option.map (siluAndMulRow sigmoid experts.intermediateSize)) =
      order.map fun p => if localExpert expertMap (routing.ids.getD p 0) = -1 then none
        else some (siluAndMulRow sigmoid experts.intermediateSize (f p)) := by
    intro f
    rw [List.map_map]
    refine List.map_congr_left fun p _ => ?_
    rw [Function.comp_apply, apply_ite (Option.map _), Option.map_none, Option.map_some]
  have weighted : List.zipWith (fun (row : Option (List R)) pair =>
        row.map fun row => row.map fun value => value * routing.weights pair)
      (order.map fun p => if localExpert expertMap (routing.ids.getD p 0) = -1 then none
        else some ((List.range experts.hiddenSize).map
          ((weights (routing.ids.getD p 0)).output sigmoid experts.hiddenSize
            experts.intermediateSize (x (p / routing.topK))))) order =
      order.map fun p => if localExpert expertMap (routing.ids.getD p 0) = -1 then none
        else some (pairRow sigmoid x weights routing expertMap experts.hiddenSize
          experts.intermediateSize p) := by
    rw [List.zipWith_map_left, List.zipWith_self]
    refine List.map_congr_left fun p _ => ?_
    by_cases elsewhere : localExpert expertMap (routing.ids.getD p 0) = -1
    · rw [if_pos elsewhere, if_pos elsewhere]
      rfl
    · rw [if_neg elsewhere, if_neg elsewhere, Option.map_some, List.map_map, pairRow]
      simp only [elsewhere, if_false]
      rfl
  simp only [tokens, first_groupedMm inside ordered numbers holds small, activated,
    second_groupedMm inside ordered numbers holds small, weighted,
    masked_rows inside numbers small]
  have rows : (order.map fun p => some (pairRow sigmoid x weights routing expertMap
      experts.hiddenSize experts.intermediateSize p)).mapM id = some (order.map fun p =>
        pairRow sigmoid x weights routing expertMap experts.hiddenSize experts.intermediateSize
          p) := by
    rw [List.mapM_map]
    exact mapM_eq_some fun p _ => rfl
  rw [rows, Option.bind_eq_bind, Option.bind_some]
  refine congrArg some (List.map_congr_left fun t here => List.map_congr_left fun d below => ?_)
  rw [List.mem_range] at here below
  have token := sum_token (fun p => (pairRow sigmoid x weights routing expertMap
    experts.hiddenSize experts.intermediateSize p).getD d 0) routing.numTokens routing.topK t
  rw [← routing.pairs, if_pos here] at token
  rw [indexAdd_eq, zero_add, List.zip_map', List.map_map]
  refine ((perm.map _).sum_eq.trans token).trans (congrArg List.sum ?_)
  refine List.map_congr_left fun k among => ?_
  rw [List.mem_range] at among
  have own : (t * routing.topK + k) / routing.topK = t := by
    rw [Nat.mul_comm, Nat.mul_add_div (Nat.zero_lt_of_lt among), Nat.div_eq_of_lt among,
      Nat.add_zero]
  rw [pairRow, getD_map_range _ _ below, own]

end Torch

end FusedMoe

end LeanVllm
