import LeanVllm.Layers.Sampler
import Mathlib.Order.Interval.Finset.Fin

/-!
# What top-k and top-p keep

Both filters mask a sorted row from below.  Top-k masks what is below the k-th largest
logit; top-p masks a token while the mass up to it is within `1 - p`, so the tokens it
keeps have mass `p` or more, and without the least likely of them less.
-/

namespace LeanVllm

namespace Sampler

/-- `apply_top_k_top_p`: the rows of a batch, each with its own `k` and `p`. -/
noncomputable def applyTopKTopPRows {batch vocab : Nat} [NeZero vocab] (sort : RowSort vocab)
    (logits : Fin batch → Fin vocab → ℝ) (k : Option (Fin batch → Int))
    (p : Option (Fin batch → ℝ)) (row : Fin batch) : Fin vocab → WithBot ℝ :=
  applyTopKTopP sort (logits row) (k.map fun k => k row) (p.map fun p => p row)

variable {vocab : Nat}

/-- The tokens a filter leaves. -/
noncomputable def survivors (masked : Fin vocab → WithBot ℝ) : Finset (Fin vocab) :=
  Finset.univ.filter fun token => masked token ≠ ⊥

theorem mem_survivors {masked : Fin vocab → WithBot ℝ} {token : Fin vocab} :
    token ∈ survivors masked ↔ masked token ≠ ⊥ := by
  simp [survivors]

/-- The probability of some tokens, renormalized over others. -/
noncomputable def mass (logits : Fin vocab → ℝ) (among tokens : Finset (Fin vocab)) : ℝ :=
  (∑ token ∈ tokens, Real.exp (logits token)) / ∑ token ∈ among, Real.exp (logits token)

variable [NeZero vocab] (sort : RowSort vocab) (logits : Fin vocab → ℝ) (k : Option Int)

/-! ## Sorted rows -/

/-- The sorted row after the top-k filter. -/
noncomputable def topKRow : Fin vocab → WithBot ℝ :=
  k.elim (fun i => (logits (sort.order logits i) : WithBot ℝ))
    (maskTopK fun i => logits (sort.order logits i))

theorem applyTopKTopP_order (p : Option ℝ) (i : Fin vocab) :
    applyTopKTopP sort logits k p (sort.order logits i) =
      p.elim (topKRow sort logits k) (maskTopP (topKRow sort logits k)) i := by
  rw [applyTopKTopP]
  split
  · rename_i none
    obtain ⟨rfl, rfl⟩ := none
    rfl
  · dsimp only
    rw [Equiv.symm_apply_apply]
    rfl

/-! ## Top-k -/

omit [NeZero vocab] in
theorem card_positions (holds : ℝ → Prop) [DecidablePred holds] :
    (Finset.univ.filter fun i => holds (logits (sort.order logits i))).card =
      (Finset.univ.filter fun token => holds (logits token)).card := by
  refine Finset.card_equiv (sort.order logits) fun i => ?_
  simp

/-- The k-th largest logit: fewer than `k` are above it, and `k` or more are not below. -/
structure KthLargest (logits : Fin vocab → ℝ) (k : Nat) (value : ℝ) : Prop where
  above : (Finset.univ.filter fun token => value < logits token).card < k
  reached : k ≤ (Finset.univ.filter fun token => value ≤ logits token).card

omit [NeZero vocab] in
/-- The `count`-th entry of a sorted row from its end. -/
theorem kthLargest_sorted {count : Nat} {place : Fin vocab}
    (counted : (place : Nat) + count = vocab) :
    KthLargest logits count (logits (sort.order logits place)) := by
  have mono := sort.sorted logits
  constructor
  · rw [← card_positions sort logits fun value => logits (sort.order logits place) < value]
    refine Nat.lt_of_le_of_lt (m := (Finset.Ioi place).card) (Finset.card_le_card ?_)
      (by rw [Fin.card_Ioi]; omega)
    intro i above
    rw [Finset.mem_filter] at above
    rw [Finset.mem_Ioi]
    by_contra below
    exact absurd (mono (not_lt.mp below)) (not_le.mpr above.2)
  · rw [← card_positions sort logits fun value => logits (sort.order logits place) ≤ value]
    refine Nat.le_trans (m := (Finset.Ici place).card) (by rw [Fin.card_Ici]; omega)
      (Finset.card_le_card ?_)
    intro i inside
    rw [Finset.mem_filter]
    exact ⟨Finset.mem_univ i, mono (Finset.mem_Ici.mp inside)⟩

/-- Top-k masks what is below a cutoff: the k-th largest, or nothing is below it. -/
theorem topKRow_some (k : Int) : ∃ cutoff : ℝ,
    (∀ i, topKRow sort logits (some k) i = if logits (sort.order logits i) < cutoff then ⊥
      else (logits (sort.order logits i) : WithBot ℝ)) ∧
    (k ≤ 0 ∨ (vocab : Int) ≤ k → ∀ token, cutoff ≤ logits token) ∧
    (0 < k → k < vocab → KthLargest logits k.toNat cutoff) := by
  have some := NeZero.pos vocab
  generalize counted : min (if 0 < k then k.toNat else vocab) vocab = count
  have bounds : 0 < count ∧ count ≤ vocab := by
    rw [← counted]
    split <;> omega
  have place : ((Fin.ofNat vocab (vocab - count) : Fin vocab) : Nat) = vocab - count := by
    rw [Fin.val_ofNat, Nat.mod_eq_of_lt (by omega)]
  refine ⟨logits (sort.order logits (Fin.ofNat vocab (vocab - count))), fun i => ?_, ?_, ?_⟩
  · simp only [topKRow, Option.elim_some, maskTopK, counted, WithBot.coe_lt_coe]
  · intro uncut token
    have all : count = vocab := by
      rw [← counted]
      split <;> omega
    obtain ⟨i, rfl⟩ := (sort.order logits).surjective token
    apply sort.sorted logits
    rw [Fin.le_def, place]
    omega
  · intro positive below
    have own : count = k.toNat := by
      rw [← counted, if_pos positive]
      omega
    rw [← own]
    exact kthLargest_sorted sort logits (by rw [place]; omega)

/-- Top-k masks entries and changes no other. -/
theorem topKRow_cases (i : Fin vocab) : topKRow sort logits k i = ⊥ ∨
    topKRow sort logits k i = logits (sort.order logits i) := by
  cases k with
  | none => exact .inr rfl
  | some k =>
      obtain ⟨cutoff, row, _⟩ := topKRow_some sort logits k
      rw [row]
      split
      · exact .inl rfl
      · exact .inr rfl

theorem topKRow_kept {i j : Fin vocab} (le : i ≤ j) (kept : topKRow sort logits k i ≠ ⊥) :
    topKRow sort logits k j ≠ ⊥ := by
  cases k with
  | none => exact WithBot.coe_ne_bot
  | some k =>
      obtain ⟨cutoff, row, _⟩ := topKRow_some sort logits k
      rw [row] at kept ⊢
      split at kept
      · exact absurd rfl kept
      · rename_i above
        have higher : cutoff ≤ logits (sort.order logits j) :=
          (not_lt.mp above).trans (sort.sorted logits le)
        rw [if_neg (not_lt.mpr higher)]
        exact WithBot.coe_ne_bot

theorem applyTopKTopP_cases (p : Option ℝ) (token : Fin vocab) :
    applyTopKTopP sort logits k p token = ⊥ ∨
      applyTopKTopP sort logits k p token = logits token := by
  obtain ⟨i, rfl⟩ := (sort.order logits).surjective token
  rw [applyTopKTopP_order]
  cases p with
  | none => exact topKRow_cases sort logits k i
  | some p =>
      simp only [Option.elim_some, maskTopP]
      split
      · exact .inl rfl
      · exact topKRow_cases sort logits k i

/-! ## Top-p -/

/-- The weight of a sorted entry after top-k. -/
noncomputable def topKWeight (i : Fin vocab) : ℝ :=
  weight (topKRow sort logits k i)

/-- The tokens top-k leaves. -/
noncomputable def topKTokens : Finset (Fin vocab) :=
  survivors (applyTopKTopP sort logits k none)

theorem mem_topKTokens {i : Fin vocab} :
    sort.order logits i ∈ topKTokens sort logits k ↔ topKRow sort logits k i ≠ ⊥ := by
  rw [topKTokens, mem_survivors, applyTopKTopP_order]
  rfl

/-- Sums over the tokens at some places, all of them left by top-k. -/
theorem sum_tokens {tokens : Finset (Fin vocab)} (sub : tokens ⊆ topKTokens sort logits k)
    {places : Finset (Fin vocab)}
    (at_places : ∀ i, topKRow sort logits k i ≠ ⊥ → (sort.order logits i ∈ tokens ↔ i ∈ places)) :
    ∑ token ∈ tokens, Real.exp (logits token) = ∑ i ∈ places, topKWeight sort logits k i := by
  have moved : ∑ token ∈ tokens, Real.exp (logits token) =
      ∑ i ∈ Finset.univ.filter (fun i => sort.order logits i ∈ tokens),
        topKWeight sort logits k i := by
    refine (Finset.sum_equiv (sort.order logits) (fun i => by simp) fun i inside => ?_).symm
    rw [Finset.mem_filter] at inside
    have kept := (mem_topKTokens sort logits k).mp (sub inside.2)
    rw [topKWeight, (topKRow_cases sort logits k i).resolve_left kept]
    rfl
  rw [moved]
  refine Finset.sum_subset_zero_on_sdiff ?_ ?_ fun i _ => rfl
  · intro i inside
    rw [Finset.mem_filter] at inside
    exact (at_places i ((mem_topKTokens sort logits k).mp (sub inside.2))).mp inside.2
  · intro i outside
    rw [Finset.mem_sdiff, Finset.mem_filter] at outside
    have masked : topKRow sort logits k i = ⊥ := by
      by_contra kept
      exact outside.2 ⟨Finset.mem_univ i, (at_places i kept).mpr outside.1⟩
    rw [topKWeight, masked]
    rfl

theorem topKWeight_nonneg (i : Fin vocab) : 0 ≤ topKWeight sort logits k i :=
  weight_nonneg _

/-- The last entry of the sorted row. -/
def lastPlace : Fin vocab :=
  ⟨vocab - 1, Nat.sub_lt (NeZero.pos vocab) Nat.one_pos⟩

theorem le_lastPlace (i : Fin vocab) : i ≤ lastPlace := by
  rw [Fin.le_def]
  exact Nat.le_sub_one_of_lt i.isLt

theorem topKRow_last : topKRow sort logits k lastPlace ≠ ⊥ := by
  obtain ⟨token, kept⟩ := applyTopKTopP_kept sort logits k none
  obtain ⟨i, rfl⟩ := (sort.order logits).surjective token
  rw [applyTopKTopP_order] at kept
  exact topKRow_kept sort logits k (le_lastPlace i) kept

theorem sum_topKWeight_pos : 0 < ∑ i, topKWeight sort logits k i :=
  Finset.sum_pos' (fun i _ => topKWeight_nonneg sort logits k i)
    ⟨lastPlace, Finset.mem_univ _, weight_pos (topKRow_last sort logits k)⟩

/-- An entry goes unless it is the last or the weight up to it passes `1 - p`. -/
theorem maskTopP_kept {p : ℝ} {i : Fin vocab} :
    maskTopP (topKRow sort logits k) p i ≠ ⊥ ↔ topKRow sort logits k i ≠ ⊥ ∧
      (i = lastPlace ∨ (1 - p) * ∑ j, topKWeight sort logits k j <
        ∑ j ∈ Finset.Iic i, topKWeight sort logits k j) := by
  have last : ¬ (i : Nat) + 1 < vocab ↔ i = lastPlace := by
    rw [Fin.ext_iff]
    have := i.isLt
    simp only [lastPlace]
    omega
  have total : (∑ j with j ≤ i, softmax (topKRow sort logits k) j ≤ 1 - p) ↔
      ∑ j ∈ Finset.Iic i, topKWeight sort logits k j ≤
        (1 - p) * ∑ j, topKWeight sort logits k j := by
    rw [← div_le_iff₀ (sum_topKWeight_pos sort logits k), Finset.sum_div,
      show Finset.univ.filter (· ≤ i) = Finset.Iic i by ext j; simp]
    rfl
  rw [maskTopP]
  by_cases goes : (i : Nat) + 1 < vocab ∧ ∑ j with j ≤ i, softmax (topKRow sort logits k) j ≤ 1 - p
  · rw [if_pos goes]
    refine ⟨fun absurdly => absurd rfl absurdly, fun kept => absurd goes ?_⟩
    rintro ⟨before, within⟩
    rcases kept.2 with own | more
    · exact last.mpr own before
    · exact absurd (total.mp within) (not_le.mpr more)
  · rw [if_neg goes]
    refine ⟨fun kept => ⟨kept, ?_⟩, And.left⟩
    by_cases own : i = lastPlace
    · exact .inl own
    · refine .inr (not_le.mp fun within => goes ⟨?_, total.mpr within⟩)
      by_contra past
      exact own (last.mp past)

/-! ## The law -/

/-- The tokens both filters leave. -/
noncomputable def topPTokens (p : ℝ) : Finset (Fin vocab) :=
  survivors (applyTopKTopP sort logits k (some p))

theorem mem_topPTokens {p : ℝ} {i : Fin vocab} :
    sort.order logits i ∈ topPTokens sort logits k p ↔ topKRow sort logits k i ≠ ⊥ ∧
      (i = lastPlace ∨ (1 - p) * ∑ j, topKWeight sort logits k j <
        ∑ j ∈ Finset.Iic i, topKWeight sort logits k j) := by
  rw [topPTokens, mem_survivors, applyTopKTopP_order, Option.elim_some, maskTopP_kept]

theorem topPTokens_subset (p : ℝ) : topPTokens sort logits k p ⊆ topKTokens sort logits k := by
  intro token inside
  obtain ⟨i, rfl⟩ := (sort.order logits).surjective token
  exact (mem_topKTokens sort logits k).mpr ((mem_topPTokens sort logits k).mp inside).1

/-- What is left is an upper set of the sorted order. -/
theorem topPTokens_upper {p : ℝ} {i j : Fin vocab} (le : i ≤ j)
    (kept : sort.order logits i ∈ topPTokens sort logits k p) :
    sort.order logits j ∈ topPTokens sort logits k p := by
  rw [mem_topPTokens] at kept ⊢
  refine ⟨topKRow_kept sort logits k le kept.1, ?_⟩
  rcases kept.2 with rfl | more
  · exact .inl (le_antisymm (le_lastPlace j) le)
  · exact .inr (more.trans_le (Finset.sum_le_sum_of_subset_of_nonneg
      (Finset.Iic_subset_Iic.mpr le) fun j _ _ => topKWeight_nonneg sort logits k j))

/-- The least likely place top-p leaves. -/
theorem exists_least (p : ℝ) : ∃ least, sort.order logits least ∈ topPTokens sort logits k p ∧
    ∀ i, sort.order logits i ∈ topPTokens sort logits k p → least ≤ i := by
  have some : (Finset.univ.filter fun i =>
      sort.order logits i ∈ topPTokens sort logits k p).Nonempty :=
    ⟨lastPlace, Finset.mem_filter.mpr ⟨Finset.mem_univ _, (mem_topPTokens sort logits k).mpr
      ⟨topKRow_last sort logits k, .inl rfl⟩⟩⟩
  refine ⟨Finset.min' _ some, (Finset.mem_filter.mp (Finset.min'_mem _ some)).2, ?_⟩
  exact fun i kept => Finset.min'_le _ _ (Finset.mem_filter.mpr ⟨Finset.mem_univ i, kept⟩)

/-- What is below the least place weighs at most `1 - p`. -/
theorem sum_below_least {p : ℝ} (atMost : p ≤ 1) {least : Fin vocab}
    (lower : ∀ i, sort.order logits i ∈ topPTokens sort logits k p → least ≤ i) :
    ∑ i ∈ Finset.Iio least, topKWeight sort logits k i ≤
      (1 - p) * ∑ i, topKWeight sort logits k i := by
  have room : 0 ≤ (1 - p) * ∑ i, topKWeight sort logits k i :=
    mul_nonneg (sub_nonneg.mpr atMost) (sum_topKWeight_pos sort logits k).le
  rcases Nat.eq_zero_or_pos least with first | later
  · have none : Finset.Iio least = ∅ := by
      ext i
      simp [Fin.lt_def, first]
    rwa [none, Finset.sum_empty]
  · -- the place before
    generalize before : (⟨least - 1, by omega⟩ : Fin vocab) = i
    have value : (i : Nat) = least - 1 := by rw [← before]
    have below : Finset.Iio least = Finset.Iic i := by
      ext j
      rw [Finset.mem_Iio, Finset.mem_Iic, Fin.lt_def, Fin.le_def]
      omega
    have gone : sort.order logits i ∉ topPTokens sort logits k p := by
      intro kept
      have := Fin.le_def.mp (lower i kept)
      omega
    rw [mem_topPTokens, not_and, not_or, not_lt] at gone
    rw [below]
    by_cases masked : topKRow sort logits k i = ⊥
    · rw [Finset.sum_eq_zero]
      · exact room
      · intro j inside
        have alsoMasked : topKRow sort logits k j = ⊥ := by
          by_contra kept
          exact topKRow_kept sort logits k (Finset.mem_Iic.mp inside) kept masked
        rw [topKWeight, alsoMasked]
        rfl
    · exact (gone masked).2

/-- Where the tokens left stand, from the least place on. -/
theorem mem_topPTokens_iff_le {p : ℝ} {least : Fin vocab}
    (kept : sort.order logits least ∈ topPTokens sort logits k p)
    (lower : ∀ i, sort.order logits i ∈ topPTokens sort logits k p → least ≤ i) (i : Fin vocab) :
    sort.order logits i ∈ topPTokens sort logits k p ↔ least ≤ i :=
  ⟨lower i, fun le => topPTokens_upper sort logits k le kept⟩

theorem mass_eq {tokens : Finset (Fin vocab)} (sub : tokens ⊆ topKTokens sort logits k)
    {places : Finset (Fin vocab)}
    (at_places : ∀ i, sort.order logits i ∈ tokens ↔ i ∈ places) :
    mass logits (topKTokens sort logits k) tokens =
      (∑ i ∈ places, topKWeight sort logits k i) / ∑ i, topKWeight sort logits k i := by
  rw [mass, sum_tokens sort logits k sub fun i _ => at_places i,
    sum_tokens sort logits k (Finset.Subset.refl _) fun i kept =>
      iff_of_true ((mem_topKTokens sort logits k).mpr kept) (Finset.mem_univ i)]

/-- The tokens left have mass `p`, and without the least likely of them less. -/
theorem topP_mass {p : ℝ} (atMost : p ≤ 1) :
    p ≤ mass logits (topKTokens sort logits k) (topPTokens sort logits k p) ∧
      ∃ least, sort.order logits least ∈ topPTokens sort logits k p ∧
        (∀ i, sort.order logits i ∈ topPTokens sort logits k p → least ≤ i) ∧
        (topPTokens sort logits k p = {sort.order logits least} ∨
          mass logits (topKTokens sort logits k)
            ((topPTokens sort logits k p).erase (sort.order logits least)) < p) := by
  obtain ⟨least, kept, lower⟩ := exists_least sort logits k p
  have sub := topPTokens_subset sort logits k p
  have places := mem_topPTokens_iff_le sort logits k kept lower
  have positive := sum_topKWeight_pos sort logits k
  constructor
  · rw [mass_eq sort logits k sub fun i => (places i).trans Finset.mem_Ici.symm,
      le_div_iff₀ positive]
    have below := sum_below_least sort logits k atMost lower
    have split : ∑ i ∈ Finset.Iio least, topKWeight sort logits k i +
        ∑ i ∈ Finset.Ici least, topKWeight sort logits k i = ∑ i, topKWeight sort logits k i := by
      rw [← Finset.sum_union (Finset.disjoint_left.mpr fun i before after =>
        absurd (Finset.mem_Iio.mp before) (not_lt.mpr (Finset.mem_Ici.mp after)))]
      congr 1
      ext i
      simp [lt_or_ge i least]
    linarith
  · refine ⟨least, kept, lower, ?_⟩
    rcases ((mem_topPTokens sort logits k).mp kept).2 with last | more
    · left
      ext token
      obtain ⟨i, rfl⟩ := (sort.order logits).surjective token
      rw [places, Finset.mem_singleton, (sort.order logits).injective.eq_iff, last]
      exact ⟨fun le => le_antisymm (le_lastPlace i) le, fun same => same.ge⟩
    · right
      have later : ∀ i, sort.order logits i ∈
          (topPTokens sort logits k p).erase (sort.order logits least) ↔ i ∈ Finset.Ioi least := by
        intro i
        rw [Finset.mem_erase, places, (sort.order logits).injective.ne_iff, Finset.mem_Ioi,
          lt_iff_le_and_ne, and_comm, ne_comm]
      rw [mass_eq sort logits k ((Finset.erase_subset _ _).trans sub) later, div_lt_iff₀ positive]
      have split : ∑ i ∈ Finset.Iic least, topKWeight sort logits k i +
          ∑ i ∈ Finset.Ioi least, topKWeight sort logits k i = ∑ i, topKWeight sort logits k i := by
        rw [← Finset.sum_union (Finset.disjoint_left.mpr fun i before after =>
          absurd (Finset.mem_Ioi.mp after) (not_lt.mpr (Finset.mem_Iic.mp before)))]
        congr 1
        ext i
        simp [le_or_gt i least]
      linarith

/-- What `apply_top_k_top_p` makes of a row, whose places the sort has put in order. -/
structure RowLaw (order : Equiv.Perm (Fin vocab)) (logits : Fin vocab → ℝ) (k : Option Int)
    (p : Option ℝ) (topK kept : Finset (Fin vocab)) (out : Fin vocab → WithBot ℝ) : Prop where
  values : ∀ token, out token = if token ∈ kept then (logits token : WithBot ℝ) else ⊥
  uncut : (∀ n, k = some n → n ≤ 0 ∨ (vocab : Int) ≤ n) → topK = Finset.univ
  cut : ∀ n, k = some n → 0 < n → n < vocab → ∃ cutoff, KthLargest logits n.toNat cutoff ∧
    topK = Finset.univ.filter fun token => cutoff ≤ logits token
  subset : kept ⊆ topK
  unfiltered : (∀ q, p = some q → q = 1) → kept = topK
  upper : ∀ i j, i ≤ j → order i ∈ kept → order j ∈ kept
  topP : ∀ q, p = some q → q ≤ mass logits topK kept ∧ ∃ least, order least ∈ kept ∧
    (∀ i, order i ∈ kept → least ≤ i) ∧
    (kept = {order least} ∨ mass logits topK (kept.erase (order least)) < q)
  argmax : ∃ token ∈ kept, ∀ other, logits other ≤ logits token

theorem topKTokens_uncut (uncut : ∀ n, k = some n → n ≤ 0 ∨ (vocab : Int) ≤ n) :
    topKTokens sort logits k = Finset.univ := by
  ext token
  obtain ⟨i, rfl⟩ := (sort.order logits).surjective token
  rw [mem_topKTokens]
  refine iff_of_true ?_ (Finset.mem_univ _)
  cases k with
  | none => exact WithBot.coe_ne_bot
  | some k =>
      obtain ⟨cutoff, row, all, _⟩ := topKRow_some sort logits k
      rw [row, if_neg (not_lt.mpr (all (uncut k rfl) _))]
      exact WithBot.coe_ne_bot

theorem topKTokens_cut {n : Int} (positive : 0 < n) (below : n < vocab) :
    ∃ cutoff, KthLargest logits n.toNat cutoff ∧ topKTokens sort logits (some n) =
      Finset.univ.filter fun token => cutoff ≤ logits token := by
  obtain ⟨cutoff, row, _, kth⟩ := topKRow_some sort logits n
  refine ⟨cutoff, kth positive below, ?_⟩
  ext token
  obtain ⟨i, rfl⟩ := (sort.order logits).surjective token
  rw [mem_topKTokens, row, Finset.mem_filter]
  split
  · rename_i less
    exact ⟨fun absurdly => absurd rfl absurdly, fun inside => absurd less (not_lt.mpr inside.2)⟩
  · rename_i above
    exact ⟨fun _ => ⟨Finset.mem_univ _, not_lt.mp above⟩, fun _ => WithBot.coe_ne_bot⟩

/-- A `p` of one leaves what top-k leaves. -/
theorem topPTokens_one : topPTokens sort logits k 1 = topKTokens sort logits k := by
  refine (topPTokens_subset sort logits k 1).antisymm fun token inside => ?_
  obtain ⟨i, rfl⟩ := (sort.order logits).surjective token
  have kept := (mem_topKTokens sort logits k).mp inside
  refine (mem_topPTokens sort logits k).mpr ⟨kept, .inr ?_⟩
  rw [sub_self, zero_mul]
  exact Finset.sum_pos' (fun j _ => topKWeight_nonneg sort logits k j)
    ⟨i, Finset.mem_Iic.mpr le_rfl, weight_pos kept⟩

/-- The row law holds of every row. -/
theorem rowLaw (p : Option ℝ) (within : ∀ q, p = some q → q ≤ 1) :
    RowLaw (sort.order logits) logits k p (topKTokens sort logits k)
      (survivors (applyTopKTopP sort logits k p)) (applyTopKTopP sort logits k p) := by
  constructor
  case values =>
    intro token
    rcases applyTopKTopP_cases sort logits k p token with masked | kept
    · rw [if_neg fun inside => mem_survivors.mp inside masked, masked]
    · rw [if_pos (mem_survivors.mpr (kept ▸ WithBot.coe_ne_bot)), kept]
  case uncut => exact topKTokens_uncut sort logits k
  case cut =>
    rintro n rfl positive below
    exact topKTokens_cut sort logits positive below
  case subset =>
    cases p with
    | none => exact Finset.Subset.refl _
    | some q => exact topPTokens_subset sort logits k q
  case unfiltered =>
    intro one
    cases p with
    | none => rfl
    | some q =>
        obtain rfl := one q rfl
        exact topPTokens_one sort logits k
  case upper =>
    intro i j le kept
    cases p with
    | none =>
        exact (mem_topKTokens sort logits k).mpr (topKRow_kept sort logits k le
          ((mem_topKTokens sort logits k).mp kept))
    | some q => exact topPTokens_upper sort logits k le kept
  case topP =>
    rintro q rfl
    exact topP_mass sort logits k (within q rfl)
  case argmax =>
    refine ⟨sort.order logits lastPlace, ?_, fun other => ?_⟩
    · rw [mem_survivors, applyTopKTopP_order]
      cases p with
      | none => exact topKRow_last sort logits k
      | some q =>
          exact (maskTopP_kept sort logits k).mpr ⟨topKRow_last sort logits k, .inl rfl⟩
    · obtain ⟨i, rfl⟩ := (sort.order logits).surjective other
      exact sort.sorted logits (le_lastPlace i)

/-- `apply_top_k_top_p` on a batch: each row by its own law, whatever the other rows are,
and a row with no cut and a `p` of one is left as it was. -/
theorem top_k_top_p_law {batch vocab : Nat} [NeZero vocab] (sort : RowSort vocab)
    (logits : Fin batch → Fin vocab → ℝ) (k : Option (Fin batch → Int))
    (p : Option (Fin batch → ℝ)) (within : ∀ q, p = some q → ∀ row, 0 < q row ∧ q row ≤ 1)
    (row : Fin batch) :
    Monotone (logits row ∘ sort.order (logits row)) ∧
    (∃ topK kept, RowLaw (sort.order (logits row)) (logits row) (k.map fun k => k row)
      (p.map fun p => p row) topK kept (applyTopKTopPRows sort logits k p row)) ∧
    (∀ others otherK otherP, others row = logits row →
      otherK.map (fun k => k row) = k.map (fun k => k row) →
      otherP.map (fun p => p row) = p.map (fun p => p row) →
      applyTopKTopPRows sort others otherK otherP row = applyTopKTopPRows sort logits k p row) ∧
    ((∀ n, k.map (fun k => k row) = some n → n ≤ 0 ∨ (vocab : Int) ≤ n) →
      (∀ q, p.map (fun p => p row) = some q → q = 1) →
      applyTopKTopPRows sort logits k p row = fun token => (logits row token : WithBot ℝ)) := by
  have law := rowLaw sort (logits row) (k.map fun k => k row) (p.map fun p => p row) (by
    intro q found
    obtain ⟨values, given, rfl⟩ := Option.map_eq_some_iff.mp found
    exact (within values given row).2)
  refine ⟨sort.sorted _, ⟨_, _, law⟩, ?_, ?_⟩
  · intro others otherK otherP sameRow sameK sameP
    rw [applyTopKTopPRows, applyTopKTopPRows, sameRow, sameK, sameP]
  · intro uncut one
    funext token
    refine (law.values token).trans (if_pos ?_)
    rw [law.unfiltered one, law.uncut uncut]
    exact Finset.mem_univ token

/-- Two rows, the second uncut in a mixed batch. -/
theorem top_k_top_p_law_mixed :
    applyTopKTopPRows (RowSort.stable 3)
        (fun row token => if row = (0 : Fin 2) then (token : ℝ) else 1)
        (some fun row => if row = 0 then 2 else 0) (some fun row => if row = 0 then 1 / 2 else 1)
        1 = fun _ => ((1 : ℝ) : WithBot ℝ) := by
  have unchanged := (top_k_top_p_law (RowSort.stable 3)
    (fun row token => if row = (0 : Fin 2) then (token : ℝ) else 1)
    (some fun row => if row = 0 then 2 else 0) (some fun row => if row = 0 then 1 / 2 else 1)
    (by
      rintro q ⟨⟩ row
      dsimp only
      split <;> norm_num) 1).2.2.2
  simpa using unchanged (by simp) (by simp)

end Sampler

end LeanVllm
