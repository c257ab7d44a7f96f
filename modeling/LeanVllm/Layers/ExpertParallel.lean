import LeanVllm.Layers.TorchExperts
import Mathlib.Data.List.GetD

/-!
# Experts over ranks

The ranks' runs of experts follow one another, so each expert is one rank's, and the
ranks' partial sums add up to the sum over all of a token's pairs.
-/

namespace LeanVllm

open Collections Kernels

namespace FusedMoe

/-! ## Placement -/

/-- Where a rank's run of experts starts. -/
def firstExpert (epSize numExperts epRank : Nat) : Nat :=
  epRank * (numExperts / epSize) + min epRank (numExperts % epSize)

section Placement

variable {epSize numExperts rank : Nat}

theorem firstExpert_zero (epSize numExperts : Nat) : firstExpert epSize numExperts 0 = 0 := by
  simp [firstExpert]

/-- A rank's run ends where the next one starts. -/
theorem firstExpert_succ (numExperts : Nat) (inside : rank < epSize) :
    firstExpert epSize numExperts (rank + 1) =
      firstExpert epSize numExperts rank + (determineExpertMap epSize rank numExperts).1 := by
  by_cases one : epSize = 1
  · subst one
    obtain rfl : rank = 0 := by omega
    simp [firstExpert, determineExpertMap, Nat.mod_one]
  · rw [determineExpertMap, if_neg one, firstExpert, firstExpert, Nat.succ_mul]
    dsimp only
    split <;> omega

theorem firstExpert_mono (epSize numExperts : Nat) {first last : Nat} (le : first ≤ last) :
    firstExpert epSize numExperts first ≤ firstExpert epSize numExperts last := by
  have base := Nat.mul_le_mul_right (numExperts / epSize) le
  rw [firstExpert, firstExpert]
  omega

/-- The last run ends with the experts. -/
theorem firstExpert_epSize (positive : 0 < epSize) :
    firstExpert epSize numExperts epSize = numExperts := by
  rw [firstExpert, Nat.min_eq_right (Nat.le_of_lt (Nat.mod_lt _ positive)), Nat.div_add_mod]

/-- A rank's map numbers its own run from zero. -/
theorem localExpert_determineExpertMap (inside : rank < epSize) {e : Nat} (known : e < numExperts) :
    localExpert (determineExpertMap epSize rank numExperts).2 e =
      if firstExpert epSize numExperts rank ≤ e ∧ e < firstExpert epSize numExperts (rank + 1)
      then ((e - firstExpert epSize numExperts rank : Nat) : Int) else -1 := by
  have last := firstExpert_succ numExperts inside
  have final : firstExpert epSize numExperts (rank + 1) ≤ firstExpert epSize numExperts epSize :=
    firstExpert_mono epSize numExperts inside
  rw [firstExpert_epSize (Nat.zero_lt_of_lt inside)] at final
  by_cases one : epSize = 1
  · subst one
    obtain rfl : rank = 0 := by omega
    rw [firstExpert_epSize Nat.one_pos, firstExpert_zero, if_pos ⟨Nat.zero_le e, known⟩]
    rfl
  · have run : (determineExpertMap epSize rank numExperts).2 =
        some (indexCopy (List.replicate numExperts (-1))
          ((List.range (determineExpertMap epSize rank numExperts).1).map
            (firstExpert epSize numExperts rank + ·))
          ((List.range (determineExpertMap epSize rank numExperts).1).map Int.ofNat)) := by
      rw [determineExpertMap, if_neg one]
      rfl
    rw [run, last]
    generalize (determineExpertMap epSize rank numExperts).1 = count at last
    generalize firstExpert epSize numExperts rank = start at *
    rw [localExpert, List.getD_eq_getElem?_getD]
    by_cases own : start ≤ e ∧ e < start + count
    · have here : e - start < count := by omega
      have distinct : ((List.range count).map (start + ·)).Nodup :=
        List.nodup_range.map fun _ _ same => Nat.add_left_cancel same
      have written : (indexCopy (List.replicate numExperts (-1))
          ((List.range count).map (start + ·)) ((List.range count).map Int.ofNat))[e]? =
            some ((e - start : Nat) : Int) := by
        refine getElem?_indexCopy distinct ?_ (k := e - start) ?_ ?_
        · intro p among
          obtain ⟨i, small, rfl⟩ := List.mem_map.mp among
          rw [List.mem_range] at small
          rw [List.length_replicate]
          omega
        · rw [List.getElem?_map, List.getElem?_range here, Option.map_some]
          exact congrArg some (by omega)
        · rw [List.getElem?_map, List.getElem?_range here]
          rfl
      rw [written, if_pos own, Option.getD_some]
    · have absent : e ∉ (List.range count).map (start + ·) := by
        intro among
        obtain ⟨i, small, rfl⟩ := List.mem_map.mp among
        rw [List.mem_range] at small
        exact own ⟨Nat.le_add_right _ _, by omega⟩
      rw [getElem?_indexCopy_of_not_mem absent, List.getElem?_replicate, if_pos known, if_neg own,
        Option.getD_some]

theorem length_determineExpertMap (epSize rank numExperts : Nat) :
    MapsAll (determineExpertMap epSize rank numExperts).2 numExperts := by
  intro map isMap
  rw [determineExpertMap] at isMap
  split at isMap
  · cases isMap
  · obtain rfl := Option.some.inj isMap
    rw [length_indexCopy, List.length_replicate]

theorem localExpert_nonneg (inside : rank < epSize) {e : Nat}
    (own : localExpert (determineExpertMap epSize rank numExperts).2 e ≠ -1) :
    0 ≤ localExpert (determineExpertMap epSize rank numExperts).2 e := by
  by_cases known : e < numExperts
  · rw [localExpert_determineExpertMap inside known] at own ⊢
    split at own
    · rename_i run
      rw [if_pos run]
      exact Int.natCast_nonneg _
    · exact absurd rfl own
  · have maps := length_determineExpertMap epSize rank numExperts
    cases map : (determineExpertMap epSize rank numExperts).2 with
    | none => exact Int.natCast_nonneg e
    | some ids =>
        rw [map, localExpert, List.getD_eq_default _ _ (by rw [maps ids map]; omega)] at own
        exact absurd rfl own

/-- The expert of each local number. -/
theorem localExpert_eq_iff (inside : rank < epSize) {e l : Nat}
    (held : l < (determineExpertMap epSize rank numExperts).1) :
    localExpert (determineExpertMap epSize rank numExperts).2 e = (l : Int) ↔
      e = firstExpert epSize numExperts rank + l := by
  have last := firstExpert_succ numExperts inside
  have final : firstExpert epSize numExperts (rank + 1) ≤ firstExpert epSize numExperts epSize :=
    firstExpert_mono epSize numExperts inside
  rw [firstExpert_epSize (Nat.zero_lt_of_lt inside)] at final
  by_cases known : e < numExperts
  · rw [localExpert_determineExpertMap inside known]
    split
    · omega
    · omega
  · refine iff_of_false (fun same => ?_) (by omega)
    have maps := length_determineExpertMap epSize rank numExperts
    cases map : (determineExpertMap epSize rank numExperts).2 with
    | none =>
        rw [map] at same
        have number : e = l := Int.ofNat.inj same
        omega
    | some ids =>
        rw [map, localExpert, List.getD_eq_default _ _ (by rw [maps ids map]; omega)] at same
        omega

/-- Each expert is one rank's. -/
theorem existsUnique_owner (positive : 0 < epSize) {e : Nat} (known : e < numExperts) :
    ∃! rank, rank < epSize ∧ localExpert (determineExpertMap epSize rank numExperts).2 e ≠ -1 := by
  have owns : ∀ rank < epSize, localExpert (determineExpertMap epSize rank numExperts).2 e ≠ -1 ↔
      firstExpert epSize numExperts rank ≤ e ∧ e < firstExpert epSize numExperts (rank + 1) := by
    intro rank inside
    rw [localExpert_determineExpertMap inside known]
    split
    · rename_i own
      exact ⟨fun _ => own, fun _ => by omega⟩
    · rename_i other
      exact ⟨fun absurdly => absurd rfl absurdly, fun own => absurd own other⟩
  -- the first run that ends past the expert
  have past : ∃ rank, e < firstExpert epSize numExperts (rank + 1) :=
    ⟨epSize, Nat.lt_of_lt_of_le known ((firstExpert_epSize positive).symm.le.trans
      (firstExpert_mono epSize numExperts (Nat.le_succ _)))⟩
  have least := Nat.find_spec past
  have earlier := fun rank => @Nat.find_min _ _ past rank
  generalize Nat.find past = rank at least earlier
  have start : firstExpert epSize numExperts rank ≤ e := by
    cases rank with
    | zero => exact (firstExpert_zero epSize numExperts).le.trans (Nat.zero_le e)
    | succ rank => exact Nat.not_lt.mp (earlier rank (Nat.lt_succ_self rank))
  have inside : rank < epSize := by
    rcases Nat.lt_or_ge rank epSize with inside | beyond
    · exact inside
    · have final := firstExpert_mono epSize numExperts beyond
      rw [firstExpert_epSize positive] at final
      omega
  refine ⟨rank, ⟨inside, (owns rank inside).mpr ⟨start, least⟩⟩, ?_⟩
  rintro other ⟨small, own⟩
  obtain ⟨after, before⟩ := (owns other small).mp own
  rcases Nat.lt_trichotomy other rank with less | same | more
  · exact absurd before (earlier other less)
  · exact same
  · have := firstExpert_mono epSize numExperts more
    exact absurd (Nat.lt_of_lt_of_le least this) (Nat.not_lt.mpr after)

end Placement

/-! ## The sum over ranks -/

variable {R : Type} [CommSemiring R]

/-- What an all-reduce adds up, element by element. -/
def allReduce (rows columns : Nat) (parts : List (List (List R))) : List (List R) :=
  tabulate rows columns fun r c => (parts.map fun part => (part.getD r []).getD c 0).sum

/-- The definition: a token's pairs' expert outputs, each times its pair's weight. -/
def weightedSum (sigmoid : R → R) (x : Nat → Nat → R) (weights : Nat → ExpertWeights R)
    (routing : Routing R) (hiddenSize intermediateSize t d : Nat) : R :=
  ((List.range routing.topK).map fun k =>
    routing.weights (t * routing.topK + k) *
      (weights (routing.ids.getD (t * routing.topK + k) 0)).output sigmoid hiddenSize
        intermediateSize (x t) d).sum

/-- A rank's parameters: the run of experts its map numbers. -/
structure Experts.OfRank (experts : Experts R) (epSize epRank numExperts hiddenSize
    intermediateSize : Nat) (weights : Nat → ExpertWeights R) : Prop where
  count : experts.numExperts = (determineExpertMap epSize epRank numExperts).1
  hidden : experts.hiddenSize = hiddenSize
  intermediate : experts.intermediateSize = intermediateSize
  holds : experts.Holds (determineExpertMap epSize epRank numExperts).2 numExperts weights

omit [CommSemiring R] in
theorem Experts.OfRank.numbers {experts : Experts R}
    {epSize rank numExperts hiddenSize intermediateSize : Nat} {weights : Nat → ExpertWeights R}
    (own : experts.OfRank epSize rank numExperts hiddenSize intermediateSize weights)
    (inside : rank < epSize) :
    experts.Numbers (determineExpertMap epSize rank numExperts).2 numExperts := by
  constructor
  · exact length_determineExpertMap epSize rank numExperts
  · intro noMap
    rw [own.count]
    rw [determineExpertMap] at noMap ⊢
    split at noMap
    · rename_i one
      rw [if_pos one]
    · cases noMap
  · intro e known mine
    have next := firstExpert_succ numExperts inside
    rw [localExpert_determineExpertMap inside known] at mine ⊢
    rw [own.count]
    split at mine
    · rename_i run
      rw [if_pos run]
      omega
    · exact absurd rfl mine

theorem sum_map_range_comm (term : Nat → Nat → R) (ranks n : Nat) :
    ((List.range ranks).map fun rank => ((List.range n).map (term rank)).sum).sum =
      ((List.range n).map fun k => ((List.range ranks).map fun rank => term rank k).sum).sum := by
  induction n with
  | zero => simp
  | succ n ih =>
      simp only [List.range_succ, List.map_append, List.sum_append, List.map_cons, List.map_nil,
        List.sum_cons, List.sum_nil, add_zero, List.sum_map_add, ih]

/-- Of consecutive runs, a value counts in the one it is in. -/
theorem sum_runs {start : Nat → Nat} (zero : start 0 = 0) (mono : Monotone start) (e : Nat)
    (value : R) (n : Nat) :
    ((List.range n).map fun rank =>
      if start rank ≤ e ∧ e < start (rank + 1) then value else 0).sum =
      if e < start n then value else 0 := by
  induction n with
  | zero => simp [zero]
  | succ n ih =>
      rw [List.range_succ, List.map_append, List.sum_append, ih, List.map_singleton,
        List.sum_singleton]
      have le := mono (Nat.le_succ n)
      rcases Nat.lt_or_ge e (start n) with before | after
      · rw [if_pos before, if_neg fun own => Nat.not_le.mpr before own.1,
          if_pos (Nat.lt_of_lt_of_le before le), add_zero]
      · rw [if_neg (Nat.not_lt.mpr after), zero_add]
        simp only [after, true_and]

/-- Tables summed element by element. -/
theorem mapM_allReduce {rows columns ranks : Nat} {part : Nat → Option (List (List R))}
    {value : Nat → Nat → Nat → R} {total : Nat → Nat → R}
    (parts : ∀ rank < ranks, part rank = some (tabulate rows columns (value rank)))
    (sum : ∀ t < rows, ∀ d, ((List.range ranks).map fun rank => value rank t d).sum = total t d) :
    ((List.range ranks).mapM part).map (allReduce rows columns) =
      some (tabulate rows columns total) := by
  rw [mapM_eq_some fun rank inside => parts rank (List.mem_range.mp inside), Option.map_some]
  refine congrArg some (List.map_congr_left fun t token => List.map_congr_left fun d column => ?_)
  rw [List.mem_range] at token column
  dsimp only
  rw [List.map_map, ← sum t token d]
  refine congrArg List.sum (List.map_congr_left fun rank _ => ?_)
  rw [Function.comp_apply, tabulate, getD_map_range _ _ token, getD_map_range _ _ column]

section Ranks

variable {sigmoid : R → R} {x : Nat → Nat → R} {weights : Nat → ExpertWeights R}
  {routing : Routing R} {numExperts hiddenSize intermediateSize epSize : Nat}

/-- The ranks' sums add up to the sum over all pairs. -/
theorem sum_routedSum (positive : 0 < epSize) (small : ∀ e ∈ routing.ids, e < numExperts)
    {t : Nat} (token : t < routing.numTokens) (d : Nat) :
    ((List.range epSize).map fun rank => routedSum sigmoid x weights routing
      (determineExpertMap epSize rank numExperts).2 hiddenSize intermediateSize t d).sum =
      weightedSum sigmoid x weights routing hiddenSize intermediateSize t d := by
  rw [weightedSum]
  refine (sum_map_range_comm _ _ _).trans
    (congrArg List.sum (List.map_congr_left fun k among => ?_))
  dsimp only
  have pair : t * routing.topK + k < routing.ids.length :=
    routing.pairs.symm ▸ cell_lt token (List.mem_range.mp among)
  have known : routing.ids.getD (t * routing.topK + k) 0 < numExperts := by
    rw [List.getD_eq_getElem?_getD, List.getElem?_eq_getElem pair, Option.getD_some]
    exact small _ (List.getElem_mem _)
  generalize routing.ids.getD (t * routing.topK + k) 0 = e at known
  have runs : ∀ rank ∈ List.range epSize, (if localExpert
      (determineExpertMap epSize rank numExperts).2 e = -1 then 0 else
        (weights e).output sigmoid hiddenSize intermediateSize (x t) d *
          routing.weights (t * routing.topK + k)) =
      if firstExpert epSize numExperts rank ≤ e ∧ e < firstExpert epSize numExperts (rank + 1) then
        (weights e).output sigmoid hiddenSize intermediateSize (x t) d *
          routing.weights (t * routing.topK + k) else 0 := by
    intro rank inside
    rw [localExpert_determineExpertMap (List.mem_range.mp inside) known]
    by_cases own :
        firstExpert epSize numExperts rank ≤ e ∧ e < firstExpert epSize numExperts (rank + 1)
    · rw [if_pos own, if_pos own, if_neg (by omega)]
    · rw [if_neg own, if_neg own, if_pos rfl]
  rw [List.map_congr_left runs, sum_runs (firstExpert_zero epSize numExperts)
    (fun _ _ le => firstExpert_mono epSize numExperts le), firstExpert_epSize positive,
    if_pos known, mul_comm]

/-- One rank's part, by either path. -/
theorem Experts.OfRank.part {experts : Experts R} {rank : Nat}
    {sort : List Int → List Int × List Nat} {launch : Launch}
    (own : experts.OfRank epSize rank numExperts hiddenSize intermediateSize weights)
    (inside : rank < epSize) (sorts : Sorts sort) (someExpert : 0 < numExperts)
    (small : ∀ e ∈ routing.ids, e < numExperts) (someM : 0 < launch.blockSizeM)
    (someN : 0 < launch.blockSizeN) (someK : 0 < launch.blockSizeK)
    (someG : 0 < launch.groupSizeM) :
    fusedExperts x experts routing (siluAndMul sigmoid)
        (determineExpertMap epSize rank numExperts).2 launch =
      some (tabulate routing.numTokens hiddenSize (routedSum sigmoid x weights routing
        (determineExpertMap epSize rank numExperts).2 hiddenSize intermediateSize)) ∧
    torchExperts sort sigmoid x experts routing (determineExpertMap epSize rank numExperts).2 =
      some (tabulate routing.numTokens hiddenSize (routedSum sigmoid x weights routing
        (determineExpertMap epSize rank numExperts).2 hiddenSize intermediateSize)) := by
  have numbers := own.numbers inside
  have fused := @fusedExperts_eq R _ x experts routing numExperts _ launch weights sigmoid
    someExpert numbers.maps numbers.all own.holds small someM someN someK someG
  have torch := @torchExperts_eq R _ sort x experts routing numExperts _ weights sigmoid sorts
    numbers own.holds small
  rw [own.hidden, own.intermediate] at fused torch
  exact ⟨fused, torch⟩

/-- Parts that are the ranks' sums add up to the definition. -/
theorem allReduce_parts (positive : 0 < epSize) (small : ∀ e ∈ routing.ids, e < numExperts)
    {part : Nat → Option (List (List R))}
    (parts : ∀ rank < epSize, part rank = some (tabulate routing.numTokens hiddenSize
      (routedSum sigmoid x weights routing (determineExpertMap epSize rank numExperts).2 hiddenSize
        intermediateSize))) :
    ((List.range epSize).mapM part).map (allReduce routing.numTokens hiddenSize) =
      some (tabulate routing.numTokens hiddenSize
        (weightedSum sigmoid x weights routing hiddenSize intermediateSize)) :=
  mapM_allReduce parts fun _ token d => sum_routedSum positive small token d

end Ranks

/-- Both paths compute the definition, on one rank and summed over the ranks; each expert
is one rank's, numbered in order from the rank's first. -/
theorem experts_sum_to_definition {sort : List Int → List Int × List Nat} (sorts : Sorts sort)
    (sigmoid : R → R) (x : Nat → Nat → R) (weights : Nat → ExpertWeights R) (routing : Routing R)
    {numExperts : Nat} (someExpert : 0 < numExperts) (small : ∀ e ∈ routing.ids, e < numExperts)
    (hiddenSize intermediateSize : Nat) {launch : Launch} (someM : 0 < launch.blockSizeM)
    (someN : 0 < launch.blockSizeN) (someK : 0 < launch.blockSizeK)
    (someG : 0 < launch.groupSizeM) :
    (∀ experts : Experts R, experts.OfRank 1 0 numExperts hiddenSize intermediateSize weights →
      fusedExperts x experts routing (siluAndMul sigmoid) none launch =
        some (tabulate routing.numTokens hiddenSize
          (weightedSum sigmoid x weights routing hiddenSize intermediateSize)) ∧
      torchExperts sort sigmoid x experts routing none =
        some (tabulate routing.numTokens hiddenSize
          (weightedSum sigmoid x weights routing hiddenSize intermediateSize))) ∧
    ∀ epSize > 0,
      (∀ e < numExperts, ∃! rank, rank < epSize ∧
        localExpert (determineExpertMap epSize rank numExperts).2 e ≠ -1) ∧
      (∀ rank < epSize, ∃ first,
        first + (determineExpertMap epSize rank numExperts).1 ≤ numExperts ∧
        ∀ e < numExperts, localExpert (determineExpertMap epSize rank numExperts).2 e =
          if first ≤ e ∧ e < first + (determineExpertMap epSize rank numExperts).1 then
            ((e - first : Nat) : Int) else -1) ∧
      ∀ experts : Nat → Experts R, (∀ rank < epSize,
          (experts rank).OfRank epSize rank numExperts hiddenSize intermediateSize weights) →
        ((List.range epSize).mapM fun rank => fusedExperts x (experts rank) routing
            (siluAndMul sigmoid) (determineExpertMap epSize rank numExperts).2 launch).map
              (allReduce routing.numTokens hiddenSize) =
          some (tabulate routing.numTokens hiddenSize
            (weightedSum sigmoid x weights routing hiddenSize intermediateSize)) ∧
        ((List.range epSize).mapM fun rank => torchExperts sort sigmoid x (experts rank) routing
            (determineExpertMap epSize rank numExperts).2).map
              (allReduce routing.numTokens hiddenSize) =
          some (tabulate routing.numTokens hiddenSize
            (weightedSum sigmoid x weights routing hiddenSize intermediateSize)) := by
  refine ⟨fun experts own => ?_, fun epSize positive => ⟨?_, ?_, fun experts own => ?_⟩⟩
  · have single : tabulate routing.numTokens hiddenSize (routedSum sigmoid x weights routing
        (determineExpertMap 1 0 numExperts).2 hiddenSize intermediateSize) =
        tabulate routing.numTokens hiddenSize
          (weightedSum sigmoid x weights routing hiddenSize intermediateSize) := by
      refine List.map_congr_left fun t token => List.map_congr_left fun d _ => ?_
      rw [← sum_routedSum Nat.one_pos small (List.mem_range.mp token) d, List.range_one,
        List.map_singleton, List.sum_singleton]
    rw [← single]
    exact own.part Nat.one_pos sorts someExpert small someM someN someK someG
  · exact fun e known => existsUnique_owner positive known
  · intro rank inside
    have last := firstExpert_succ numExperts inside
    have final : firstExpert epSize numExperts (rank + 1) ≤
        firstExpert epSize numExperts epSize := firstExpert_mono epSize numExperts inside
    rw [firstExpert_epSize positive, last] at final
    refine ⟨firstExpert epSize numExperts rank, final, fun e known => ?_⟩
    rw [← last]
    exact localExpert_determineExpertMap inside known
  · constructor
    · exact allReduce_parts positive small fun rank inside =>
        ((own rank inside).part inside sorts someExpert small someM someN someK someG).1
    · exact allReduce_parts positive small fun rank inside =>
        ((own rank inside).part inside sorts someExpert small someM someN someK someG).2

/-- A sort that keeps equal keys in place. -/
def stableSort (keys : List Int) : List Int × List Nat :=
  let order := (List.range keys.length).mergeSort fun a b => keys.getD a 0 ≤ keys.getD b 0
  (order.map fun p => keys.getD p 0, order)

theorem stableSort_sorts : Sorts stableSort := by
  refine ⟨fun keys => List.mergeSort_perm _ _, fun keys => rfl, fun keys => ?_⟩
  have ordered := @List.pairwise_mergeSort _ (fun a b => decide (keys.getD a 0 ≤ keys.getD b 0))
    (fun a b c first second => decide_eq_true
      (Int.le_trans (of_decide_eq_true first) (of_decide_eq_true second)))
    (fun a b => by simpa using Int.le_total _ _) (List.range keys.length)
  exact List.pairwise_map.mpr (ordered.imp fun le => of_decide_eq_true le)

/-- A rank's experts, cut from one full layer. -/
def shard (epSize numExperts hiddenSize intermediateSize : Nat) (weights : Nat → ExpertWeights R)
    (epRank : Nat) : Experts R :=
  let first := firstExpert epSize numExperts epRank
  let count := (determineExpertMap epSize epRank numExperts).1
  ⟨count, hiddenSize, intermediateSize,
    Buffer.filled (stack count (2 * intermediateSize) hiddenSize) fun i =>
      (weights (first + i.1)).gateUp i.2.1 i.2.2,
    Buffer.filled (stack count hiddenSize intermediateSize) fun i =>
      (weights (first + i.1)).down i.2.1 i.2.2⟩

omit [CommSemiring R] in
theorem shard_ofRank {epSize rank : Nat} (inside : rank < epSize)
    (numExperts hiddenSize intermediateSize : Nat) (weights : Nat → ExpertWeights R) :
    (shard epSize numExperts hiddenSize intermediateSize weights rank).OfRank epSize rank numExperts
      hiddenSize intermediateSize weights := by
  have next := firstExpert_succ numExperts inside
  have run : ∀ e < numExperts, localExpert (determineExpertMap epSize rank numExperts).2 e ≠ -1 →
      (localExpert (determineExpertMap epSize rank numExperts).2 e).toNat <
        (determineExpertMap epSize rank numExperts).1 ∧
      firstExpert epSize numExperts rank +
        (localExpert (determineExpertMap epSize rank numExperts).2 e).toNat = e := by
    intro e known mine
    rw [localExpert_determineExpertMap inside known] at mine ⊢
    split at mine
    · rename_i own
      rw [if_pos own, Int.toNat_natCast]
      omega
    · exact absurd rfl mine
  refine ⟨rfl, rfl, rfl, ?_, ?_⟩
  · intro e known mine i row j column
    obtain ⟨held, same⟩ := run e known mine
    generalize (localExpert (determineExpertMap epSize rank numExperts).2 e).toNat = number at *
    have inside : stack _ _ _ (number, i, j) = true := decide_eq_true ⟨held, row, column⟩
    refine (Buffer.load_filled inside).trans ?_
    rw [same]
  · intro e known mine i row j column
    obtain ⟨held, same⟩ := run e known mine
    generalize (localExpert (determineExpertMap epSize rank numExperts).2 e).toNat = number at *
    have inside : stack _ _ _ (number, i, j) = true := decide_eq_true ⟨held, row, column⟩
    refine (Buffer.load_filled inside).trans ?_
    rw [same]

/-- Five experts' weights. -/
def fullLayer (expert : Nat) : ExpertWeights Int :=
  ⟨fun i j => (expert + i + j : Nat), fun d i => (expert + d * i : Nat)⟩

/-- Two tokens, the second naming an expert twice. -/
def twoTokens : Routing Int :=
  ⟨2, 2, [4, 0, 3, 3], fun pair => (pair : Nat), rfl⟩

/-- Five experts on three ranks. -/
theorem experts_sum_to_definition_threeRanks :
    ((List.range 3).mapM fun rank => fusedExperts (fun t j => ((t + j : Nat) : Int))
        (shard 3 5 2 3 fullLayer rank) twoTokens (siluAndMul fun value => value)
        (determineExpertMap 3 rank 5).2 ⟨16, 2, 2, 1⟩).map (allReduce 2 2) =
      some (tabulate 2 2 (weightedSum (fun value => value) (fun t j => ((t + j : Nat) : Int))
        fullLayer twoTokens 2 3)) :=
  (((@experts_sum_to_definition Int _ stableSort stableSort_sorts (fun value => value)
    (fun t j => ((t + j : Nat) : Int)) fullLayer twoTokens 5 (by decide) (by decide) 2 3
    ⟨16, 2, 2, 1⟩ (by decide) (by decide) (by decide) (by decide)).2 3 (by decide)).2.2 _
      fun rank inside => shard_ofRank inside 5 2 3 _).1

end FusedMoe

end LeanVllm
