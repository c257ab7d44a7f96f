import LeanVllm.Probability.Verification
import LeanVllm.SpecDecode.RejectionSampler

/-!
# Verification keeps the target's law

The flat arrays of the sampler fall apart into rows, each row's output is its
drafts up to the first rejection and then its candidate, and the draws of a row
are independent of those of the others.  What a row emits therefore follows the
row's own targets: the drafts decide how many tokens come out, not which.
-/

namespace LeanVllm.RejectionSampler

open Collections Probability

/-! ## Indices -/

theorem draftCols_eq (lens : List Nat) : draftCols lens lens.sum = lens.flatMap List.range := by
  unfold draftCols draftRows
  rw [zipWith_rowNumbers]
  simp only [Nat.add_sub_cancel_left, List.map_id']
  conv_rhs => rw [← map_getD_range lens 0, List.flatMap_map]

/-- A draft is verified by the logits of its own place in its row. -/
theorem draftIndex_eq (lens : List Nat) :
    draftIndex lens lens.sum =
      flatPositions (fun len => List.replicate (len + 1) ()) List.range 0 lens := by
  unfold draftIndex draftCols draftRows first
  rw [zipWith_zipWith_self, zipWith_rowNumbers, flatPositions_eq]
  simp only [List.length_replicate, Nat.zero_add, Nat.add_sub_cancel_left]
  rw [zip_eq_map_range (by simp [length_cumsum]) 0 0, List.flatMap_map]

/-! ## One row of the output -/

/-- How many drafts come before the first rejection. -/
def leading : List Bool → Nat
  | true :: accepted => leading accepted + 1
  | _ => 0

theorem numAccepted_cons (keep : Nat) (rest : List Nat) :
    numAccepted (keep :: rest) = keep * (1 + numAccepted rest) := by
  have split : ∀ (rest : List Nat) (d : Nat), (rest.scanl (· * ·) d).sum =
      d + (rest.scanl (· * ·) d).tail.sum := by
    intro rest d
    cases rest <;> simp
  have scaled : ∀ (rest : List Nat) (c : Nat),
      (rest.scanl (· * ·) c).tail.sum = c * (rest.scanl (· * ·) 1).tail.sum := by
    intro rest
    induction rest with
    | nil => simp
    | cons keep rest ih =>
        intro c
        rw [List.scanl_cons, List.tail_cons, List.scanl_cons, List.tail_cons, split, split, ih,
          ih (1 * keep)]
        ring
  unfold numAccepted
  rw [List.scanl_cons, List.tail_cons, Nat.one_mul, split, scaled]
  ring

theorem numAccepted_eq (accepted : List Bool) (pad : Nat) :
    numAccepted ((accepted.map fun accept => if accept then 1 else 0) ++ List.replicate pad 0) =
      leading accepted := by
  induction accepted with
  | nil =>
      cases pad with
      | zero => rfl
      | succ pad =>
          rw [List.map_nil, List.nil_append, List.replicate_succ, numAccepted_cons, Nat.zero_mul]
          rfl
  | cons accept accepted ih =>
      rw [List.map_cons, List.cons_append, numAccepted_cons, ih]
      cases accept with
      | true => simp [leading, Nat.add_comm]
      | false => simp [leading]

theorem leading_le (accepted : List Bool) : leading accepted ≤ accepted.length := by
  induction accepted with
  | nil => exact Nat.le_refl _
  | cons accept accepted ih =>
      cases accept with
      | true => exact Nat.succ_le_succ ih
      | false => exact Nat.zero_le _

/-- A verified row is its leading drafts and a candidate. -/
theorem verified_eq {α : Type} {drafts candidates : List α} {accepted : List Bool} (default : α)
    (each : accepted.length = drafts.length) (one_more : candidates.length = drafts.length + 1) :
    verified drafts accepted candidates =
      drafts.take (leading accepted) ++ [candidates.getD (leading accepted) default] := by
  induction drafts generalizing accepted candidates with
  | nil =>
      obtain ⟨candidate, rfl⟩ := List.length_eq_one_iff.mp one_more
      obtain rfl := List.length_eq_zero_iff.mp each
      rfl
  | cons draft drafts ih =>
      cases accepted with
      | nil => simp at each
      | cons accept accepted =>
          cases candidates with
          | nil => simp at one_more
          | cons candidate candidates =>
              cases accept with
              | true =>
                  rw [verified, ih (Nat.succ.inj each) (Nat.succ.inj one_more)]
                  rfl
              | false => rfl

/-- A matrix of equal rows after one write for each entry of a row. -/
theorem getElem?_put {α : Type} {lens : List Nat} {values : List α} {width r : Nat} (blank : α)
    (whole : values.length = lens.sum) (inside : r < lens.length) (fits : lens.getD r 0 ≤ width) :
    (put (List.replicate lens.length (List.replicate width blank)) (draftRows lens)
        (draftCols lens lens.sum) values)[r]? =
      some (segment values lens r ++ List.replicate (width - lens.getD r 0) blank) := by
  let content : Nat → List (Nat × α) := fun r =>
    (List.range (lens.getD r 0)).zip (segment values lens r)
  have len : ∀ r ∈ List.range lens.length,
      (List.range (lens.getD r 0)).length = (segment values lens r).length := by
    intro r member
    rw [List.length_range, length_segment whole (List.mem_range.mp member)]
  have writes : (draftCols lens lens.sum).zip values = (List.range lens.length).flatMap content := by
    have cols : lens.flatMap List.range =
        (List.range lens.length).flatMap fun r => List.range (lens.getD r 0) := by
      conv_lhs => rw [← map_getD_range lens 0, List.flatMap_map]
    conv_lhs => rw [draftCols_eq, cols, ← flatMap_segment whole]
    exact zip_flatMap len
  have counts : (List.range lens.length).map (fun r => (content r).length) = lens := by
    conv_rhs => rw [← map_getD_range lens 0]
    apply List.map_congr_left
    intro r member
    simp only [content, List.length_zip, ← len r member, List.length_range, Nat.min_self]
  have own := filter_rowNumbers content (List.range lens.length) 0 r
    (List.getElem?_range inside)
  rw [counts, List.length_range, ← List.range_eq_range', Nat.zero_add] at own
  have row : (List.replicate lens.length (List.replicate width blank))[r]? =
      some (List.replicate width blank) := by
    simp [inside]
  have written : indexCopy (List.replicate width blank) (List.range (lens.getD r 0))
      (segment values lens r) =
      segment values lens r ++ List.replicate (width - lens.getD r 0) blank := by
    have all : (segment values lens r).take (lens.getD r 0) = segment values lens r := by
      rw [← length_segment whole inside, List.take_length]
    conv_lhs => rw [← all]
    rw [indexCopy_range (by simpa using fits) (by rw [length_segment whole inside]), all,
      List.drop_replicate]
  unfold put draftRows
  rw [getElem?_modifyEach, writes, own, row, Option.map_some, ← written]
  rfl

/-- Masking a row past its leading drafts and writing one token there. -/
theorem mask_set {drafts : List Token} {count width : Nat} (blank token : Token)
    (few : count ≤ drafts.length) (fits : drafts.length < width) :
    (((drafts ++ List.replicate (width - drafts.length) blank).mapIdx fun col token =>
        if count ≤ col then blank else token).set count token) =
      drafts.take count ++ [token] ++ List.replicate (width - (count + 1)) blank := by
  apply List.ext_getElem
  · simp
    omega
  · intro k inside _
    rw [List.getElem_set]
    simp only [List.length_set, List.length_mapIdx, List.length_append, List.length_replicate]
      at inside
    by_cases here : count = k
    · subst here
      rw [if_pos rfl, List.getElem_append_left (by simp; omega),
        List.getElem_append_right (by simp)]
      simp
    · rw [if_neg here, List.getElem_mapIdx]
      by_cases before : k < count
      · rw [if_neg (by omega), List.getElem_append_left (by omega),
          List.getElem_append_left (by simp; omega), List.getElem_append_left (by simp; omega)]
        simp
      · rw [if_pos (by omega), List.getElem_append_right (by simp; omega)]
        simp

/-- A row of the output: its verified drafts, padded. -/
theorem getElem?_output {lens : List Nat} {maxNumDrafts r : Nat} {drafts candidates : List Token}
    {accepted : List Bool} (draftsWhole : drafts.length = lens.sum)
    (acceptedWhole : accepted.length = lens.sum)
    (candidatesWhole : candidates.length = (lens.map (· + 1)).sum) (inside : r < lens.length)
    (few : lens.getD r 0 ≤ maxNumDrafts) :
    (output lens maxNumDrafts drafts accepted candidates)[r]? =
      some (verified (segment drafts lens r) (segment accepted lens r)
          (segment candidates (lens.map (· + 1)) r) ++
        List.replicate (maxNumDrafts - leading (segment accepted lens r)) placeholderTokenId) := by
  have lenAt : (lens.map (· + 1)).getD r 0 = lens.getD r 0 + 1 := by
    simp [List.getD_eq_getElem?_getD, inside]
  have draftsLen := length_segment draftsWhole inside
  have acceptedLen := length_segment acceptedWhole inside
  have candidatesLen := length_segment candidatesWhole (by simpa using inside)
  rw [lenAt] at candidatesLen
  have ranks := leading_le (segment accepted lens r)
  have flags : (accepted.map fun accept => if accept then 1 else 0).length = lens.sum := by
    rw [List.length_map, acceptedWhole]
  have wide : lens.getD r 0 ≤ maxNumDrafts + 1 := Nat.le_succ_of_le few
  have kept := getElem?_put 0 flags inside wide
  have drafted := getElem?_put placeholderTokenId draftsWhole inside wide
  have start : (first lens)[r]? = some ((first lens).getD r 0) := by
    have long : r < (first lens).length := by
      rw [first, length_cumsum, List.length_map]
      omega
    simp [List.getD_eq_getElem?_getD, long]
  have count : numAccepted (segment (accepted.map fun accept => if accept then 1 else 0) lens r ++
      List.replicate (maxNumDrafts + 1 - lens.getD r 0) 0) =
      leading (segment accepted lens r) := by
    rw [segment_map, numAccepted_eq]
  have paired : ((first lens).zip ((put (List.replicate lens.length
      (List.replicate (maxNumDrafts + 1) 0)) (draftRows lens) (draftCols lens lens.sum)
      (accepted.map fun accept => if accept then 1 else 0)).map numAccepted))[r]? =
      some ((first lens).getD r 0, leading (segment accepted lens r)) := by
    rw [List.getElem?_zip_eq_some]
    exact ⟨start, by rw [List.getElem?_map, kept, Option.map_some, count]⟩
  have candidate : candidates.getD ((first lens).getD r 0 + leading (segment accepted lens r))
      placeholderTokenId = (segment candidates (lens.map (· + 1)) r).getD
        (leading (segment accepted lens r)) placeholderTokenId := by
    rw [getD_segment _ _ _ (by rw [lenAt]; omega)]
    rfl
  have shape := mask_set placeholderTokenId
    ((segment candidates (lens.map (· + 1)) r).getD (leading (segment accepted lens r))
      placeholderTokenId) (by omega : leading (segment accepted lens r) ≤ (segment drafts lens r).length)
    (by omega : (segment drafts lens r).length < maxNumDrafts + 1)
  rw [draftsLen] at shape
  unfold output
  simp only [draftsWhole, List.getElem?_zipWith, List.getElem?_map, paired, kept, drafted,
    Option.map_some, count, candidate]
  rw [shape, verified_eq placeholderTokenId (by omega) (by omega), Nat.add_sub_add_right]

end LeanVllm.RejectionSampler

namespace LeanVllm

open Collections Probability

/-- A row of a batch: its drafts, the logits of each and of one more position, and
its sampling parameters. -/
structure DraftRow (vocab : Nat) where
  drafts : List (Fin vocab)
  logits : List (Fin vocab → ℝ)
  shape : logits.length = drafts.length + 1
  temperature : ℝ
  topK : Int
  topP : ℝ

/-- A batch for the rejection sampler.  The runner passes temperatures, top-k and
top-p for all rows or for none. -/
structure DraftBatch (vocab : Nat) where
  rows : List (DraftRow vocab)
  maxNumDrafts : Nat
  few : ∀ row ∈ rows, row.drafts.length ≤ maxNumDrafts
  withTemperatures : Bool
  withTopK : Bool
  withTopP : Bool

namespace DraftBatch

variable {vocab : Nat} [NeZero vocab]

def logits (batch : DraftBatch vocab) : List (Fin vocab → ℝ) :=
  batch.rows.flatMap DraftRow.logits

def draftTokenIds (batch : DraftBatch vocab) : List (Fin vocab) :=
  batch.rows.flatMap DraftRow.drafts

def numDraftTokens (batch : DraftBatch vocab) : List Nat :=
  batch.rows.map fun row => row.drafts.length

def temperatures (batch : DraftBatch vocab) : Option (List ℝ) :=
  if batch.withTemperatures then some (batch.rows.map DraftRow.temperature) else none

def topK (batch : DraftBatch vocab) : Option (List Int) :=
  if batch.withTopK then some (batch.rows.map DraftRow.topK) else none

def topP (batch : DraftBatch vocab) : Option (List ℝ) :=
  if batch.withTopP then some (batch.rows.map DraftRow.topP) else none

/-- The sampler on a batch. -/
noncomputable def forward (sort : RowSort vocab) (batch : DraftBatch vocab) :
    PMF (List (List Token)) :=
  RejectionSampler.forward sort batch.logits batch.draftTokenIds batch.numDraftTokens
    batch.temperatures batch.maxNumDrafts batch.topK batch.topP

/-- The law of the tokens a row emits: those of its output row that are not
placeholders. -/
noncomputable def emitted (sort : RowSort vocab) (batch : DraftBatch vocab) (r : Nat) :
    PMF (List Token) :=
  (batch.forward sort).map fun output => (output.getD r []).filter (0 ≤ ·)

/-- The target of each position of a row, after temperature, top-k and top-p. -/
noncomputable def targets (sort : RowSort vocab) (batch : DraftBatch vocab)
    (row : DraftRow vocab) : List (stdSimplex ℝ (Fin vocab)) :=
  row.logits.map fun logits => Sampler.target sort logits row.temperature
    (if batch.withTopK then some row.topK else none)
    (if batch.withTopP then some row.topP else none)

/-- The probabilities of all positions of a batch. -/
noncomputable def probs (sort : RowSort vocab) (batch : DraftBatch vocab) :
    List (Fin vocab → ℝ) :=
  RejectionSampler.targetProbs sort batch.logits batch.numDraftTokens
    (batch.rows.map DraftRow.temperature) batch.topK batch.topP

/-- The row of logits of each draft of a batch. -/
def index (batch : DraftBatch vocab) : List Nat :=
  RejectionSampler.draftIndex batch.numDraftTokens batch.draftTokenIds.length

/-! ## Rows of the flat arrays -/

variable (sort : RowSort vocab) (batch : DraftBatch vocab)

omit [NeZero vocab] in
theorem length_draftTokenIds : batch.draftTokenIds.length = batch.numDraftTokens.sum := by
  rw [draftTokenIds, List.length_flatMap]
  rfl

omit [NeZero vocab] in
theorem index_eq : batch.index = flatPositions DraftRow.logits
    (fun row => List.range row.drafts.length) 0 batch.rows := by
  rw [index, length_draftTokenIds, RejectionSampler.draftIndex_eq, numDraftTokens,
    flatPositions_map]
  apply flatPositions_congr
  intro row _
  simp [row.shape]

omit [NeZero vocab] in
theorem numLogits_eq : batch.numDraftTokens.map (· + 1) =
    batch.rows.map fun row => row.logits.length := by
  rw [numDraftTokens, List.map_map]
  apply List.map_congr_left
  intro row _
  exact row.shape.symm

omit [NeZero vocab] in
theorem alongLogits_eq {α : Type} (given : Bool) (value : DraftRow vocab → α) :
    RejectionSampler.alongLogits (if given then some (batch.rows.map value) else none)
        (batch.rows.map fun row => row.logits.length) batch.logits.length =
      batch.rows.flatMap fun row => List.replicate row.logits.length
        (if given then some (value row) else none) := by
  cases given with
  | true =>
      simp only [if_true, RejectionSampler.alongLogits]
      rw [repeatEach_rows, List.map_flatMap]
      simp
  | false =>
      simp only [Bool.false_eq_true, if_false, RejectionSampler.alongLogits, logits]
      symm
      rw [List.eq_replicate_iff]
      constructor
      · simp [List.length_flatMap]
      · intro entry member
        obtain ⟨row, _, among⟩ := List.mem_flatMap.mp member
        exact List.eq_of_mem_replicate among

theorem probs_eq : batch.probs sort = batch.rows.flatMap fun row =>
    (batch.targets sort row).map Subtype.val := by
  simp only [probs, RejectionSampler.targetProbs, topK, topP, numLogits_eq, alongLogits_eq,
    repeatEach_rows]
  rw [logits, zip_flatMap (by simp), zip_flatMap (by simp), ← List.map_uncurry_zip_eq_zipWith,
    zip_flatMap (by simp), List.map_flatMap]
  apply List.flatMap_congr
  intro row _
  apply List.ext_getElem
  · simp [targets]
  · intro k _ _
    simp [targets, Sampler.target]

omit [NeZero vocab] in
/-- Reading the target of each draft, beside the draft. -/
theorem zipWith_index {β δ : Type} (combine : β → Fin vocab → δ) (default : β)
    (values : DraftRow vocab → List β)
    (same : ∀ row ∈ batch.rows, (values row).length = row.logits.length) :
    List.zipWith (fun k draft => combine ((batch.rows.flatMap values).getD k default) draft)
        batch.index batch.draftTokenIds =
      batch.rows.flatMap fun row => List.zipWith combine (values row) row.drafts := by
  rw [index_eq, draftTokenIds]
  refine zipWith_flatPositions combine default same ?_ []
  intro row member
  rw [same row member, row.shape]
  exact Nat.le_succ _

theorem length_targets (row : DraftRow vocab) :
    (batch.targets sort row).length = row.drafts.length + 1 := by
  rw [targets, List.length_map, row.shape]

/-- How the drafts of each row are kept. -/
theorem keeps_eq :
    (RejectionSampler.draftProbs (batch.probs sort) batch.index batch.draftTokenIds).map below =
      batch.rows.flatMap fun row => keeps (batch.targets sort row) row.drafts := by
  have read := batch.zipWith_index (fun p draft => p draft) 0
    (fun row => (batch.targets sort row).map Subtype.val) (by simp [targets])
  rw [RejectionSampler.draftProbs, probs_eq, read, List.map_flatMap]
  apply List.flatMap_congr
  intro row _
  rw [keeps, List.map_zipWith, List.zipWith_map_left]

/-- What the races of a row run on, once its drafts are excluded. -/
theorem map_race_eq {targets : List (stdSimplex ℝ (Fin vocab))} {drafts : List (Fin vocab)}
    (one_more : targets.length = drafts.length + 1) :
    (List.zipWith (fun p draft => Function.update p draft 0) (targets.map Subtype.val) drafts ++
        (targets.map Subtype.val).drop drafts.length).map (race 0) =
      candidates 0 targets drafts := by
  induction drafts generalizing targets with
  | nil =>
      obtain ⟨p, rfl⟩ := List.length_eq_one_iff.mp one_more
      rfl
  | cons draft drafts ih =>
      cases targets with
      | nil => simp at one_more
      | cons p targets =>
          have rest := ih (Nat.succ.inj one_more)
          rw [candidates, ← rest]
          rfl

/-- The vectors the races of a batch run on. -/
theorem exclude_eq :
    RejectionSampler.exclude (batch.probs sort) batch.index batch.draftTokenIds =
      batch.rows.flatMap fun row =>
        List.zipWith (fun p draft => Function.update p draft 0)
          ((batch.targets sort row).map Subtype.val) row.drafts ++
        ((batch.targets sort row).map Subtype.val).drop row.drafts.length := by
  have read := batch.zipWith_index (fun p draft => Function.update p draft 0) 0
    (fun row => (batch.targets sort row).map Subtype.val) (by simp [targets])
  have positions : batch.index = flatPositions
      (fun row => (batch.targets sort row).map Subtype.val)
      (fun row => List.range row.drafts.length) 0 batch.rows := by
    rw [index_eq]
    apply flatPositions_congr
    intro row _
    simp [targets]
  rw [RejectionSampler.exclude, probs_eq, read, positions]
  have rows := @indexCopy_flatMap _ _ (fun row => (batch.targets sort row).map Subtype.val)
    (fun row => List.zipWith (fun p draft => Function.update p draft 0)
      ((batch.targets sort row).map Subtype.val) row.drafts)
    (fun row => List.range row.drafts.length) batch.rows
    (by
      intro row _ p member
      have inside := List.mem_range.mp member
      rw [List.length_map, length_targets]
      omega)
    (by
      intro row _
      simp [length_targets]) []
  simp only [List.nil_append, List.length_nil] at rows
  rw [rows]
  apply List.flatMap_congr
  intro row _
  have whole : (List.zipWith (fun p draft => Function.update p draft 0)
      ((batch.targets sort row).map Subtype.val) row.drafts).length = row.drafts.length := by
    simp [length_targets]
  have fits : row.drafts.length ≤ ((batch.targets sort row).map Subtype.val).length := by
    rw [List.length_map, length_targets]
    exact Nat.le_succ _
  have copied := indexCopy_range fits whole.ge
  rw [← whole, List.take_length, whole] at copied
  exact copied

theorem races_eq :
    (RejectionSampler.exclude (batch.probs sort) batch.index batch.draftTokenIds).map (race 0) =
      batch.rows.flatMap fun row => candidates 0 (batch.targets sort row) row.drafts := by
  rw [exclude_eq, List.map_flatMap]
  apply List.flatMap_congr
  intro row _
  exact map_race_eq (batch.length_targets sort row)

/-! ## One row of a batch -/

variable {batch} {r : Nat} {row : DraftRow vocab}

omit [NeZero vocab] in
theorem segment_rows {β : Type} (found : batch.rows[r]? = some row) {content : DraftRow vocab → List β}
    {len : DraftRow vocab → Nat} (same : ∀ row ∈ batch.rows, (content row).length = len row) :
    Collections.segment (batch.rows.flatMap content) (batch.rows.map len) r = content row := by
  rw [← segment_flatMap batch.rows content found]
  congr 1
  exact (List.map_congr_left same).symm

/-- Whether each draft of a row is the argmax of its logits. -/
noncomputable def matchesOf (row : DraftRow vocab) : List Bool :=
  List.zipWith (fun logits draft => decide (Sampler.argmax logits = draft)) row.logits row.drafts

theorem length_matchesOf (row : DraftRow vocab) : (matchesOf row).length = row.drafts.length := by
  simp [matchesOf, row.shape]

theorem matched_eq (batch : DraftBatch vocab) :
    RejectionSampler.matchesGreedy (batch.logits.map Sampler.argmax) batch.index
        batch.draftTokenIds = batch.rows.flatMap matchesOf := by
  have greedy : batch.logits.map Sampler.argmax =
      batch.rows.flatMap fun row => row.logits.map Sampler.argmax := by
    rw [logits, List.map_flatMap]
  have read := batch.zipWith_index (fun token draft => decide (token = draft)) 0
    (fun row => row.logits.map Sampler.argmax) (by simp)
  rw [RejectionSampler.matchesGreedy, greedy, read]
  apply List.flatMap_congr
  intro row _
  rw [matchesOf, List.zipWith_map_left]

/-- The drafts a row keeps, from its uniform draws. -/
noncomputable def acceptedRow (row : DraftRow vocab) (kept : List Bool) : List Bool :=
  if row.temperature = 0 then matchesOf row else kept

/-- The candidates of a row, from its races. -/
noncomputable def candidatesRow (row : DraftRow vocab) (sampled : List (Fin vocab)) :
    List (Fin vocab) :=
  if row.temperature = 0 then row.logits.map Sampler.argmax else sampled

theorem segment_accepted (found : batch.rows[r]? = some row) {kept : List Bool}
    (whole : kept.length = batch.numDraftTokens.sum) :
    Collections.segment (RejectionSampler.acceptedOf
        ((RejectionSampler.draftRows batch.numDraftTokens).map fun r =>
          decide ((batch.rows.map DraftRow.temperature).getD r 0 = 0))
        (RejectionSampler.matchesGreedy (batch.logits.map Sampler.argmax) batch.index
          batch.draftTokenIds) kept) batch.numDraftTokens r =
      acceptedRow row (Collections.segment kept batch.numDraftTokens r) := by
  have greedy : (RejectionSampler.draftRows batch.numDraftTokens).map (fun r =>
      decide ((batch.rows.map DraftRow.temperature).getD r 0 = 0)) =
      batch.rows.flatMap fun row => List.replicate row.drafts.length
        (decide (row.temperature = 0)) := by
    have number : batch.numDraftTokens.length = (batch.rows.map DraftRow.temperature).length := by
      simp [numDraftTokens]
    have flags : (List.range batch.numDraftTokens.length).map (fun r =>
        decide ((batch.rows.map DraftRow.temperature).getD r 0 = 0)) =
        batch.rows.map fun row => decide (row.temperature = 0) := by
      have each := congrArg (List.map fun temperature => decide (temperature = 0))
        (map_getD_range (batch.rows.map DraftRow.temperature) 0)
      rw [number]
      simpa only [List.map_map, Function.comp_def] using each
    rw [RejectionSampler.draftRows, ← repeatEach_map, flags, numDraftTokens, repeatEach_rows]
  have inside : r < batch.numDraftTokens.length := by
    simpa [numDraftTokens] using (List.getElem?_eq_some_iff.mp found).1
  have len : batch.numDraftTokens.getD r 0 = row.drafts.length := by
    simp [numDraftTokens, List.getD_eq_getElem?_getD, found]
  have keptLen := length_segment whole inside
  rw [len] at keptLen
  rw [RejectionSampler.acceptedOf, segment_zipWith, List.zip_eq_zipWith, segment_zipWith, matched_eq,
    greedy, numDraftTokens, segment_rows found (by simp),
    segment_rows found fun row _ => length_matchesOf row, ← numDraftTokens, ← List.zip_eq_zipWith]
  have matchedLen := length_matchesOf row
  apply List.ext_getElem
  · unfold acceptedRow
    split <;> simp [keptLen, matchedLen]
  · intro k _ _
    by_cases cold : row.temperature = 0
    · simp [acceptedRow, cold]
    · simp [acceptedRow, cold]

theorem segment_candidates (found : batch.rows[r]? = some row) {sampled : List (Fin vocab)}
    (whole : sampled.length = (batch.numDraftTokens.map (· + 1)).sum) :
    Collections.segment (RejectionSampler.candidatesOf
        (repeatEach (batch.rows.map DraftRow.temperature) (batch.numDraftTokens.map (· + 1)))
        (batch.logits.map Sampler.argmax) sampled) (batch.numDraftTokens.map (· + 1)) r =
      candidatesRow row (Collections.segment sampled (batch.numDraftTokens.map (· + 1)) r) := by
  have inside : r < (batch.numDraftTokens.map (· + 1)).length := by
    simpa [numDraftTokens] using (List.getElem?_eq_some_iff.mp found).1
  have len : (batch.numDraftTokens.map (· + 1)).getD r 0 = row.logits.length := by
    rw [numLogits_eq]
    simp [List.getD_eq_getElem?_getD, found]
  have sampledLen := length_segment whole inside
  rw [len] at sampledLen
  rw [numLogits_eq] at sampledLen ⊢
  rw [RejectionSampler.candidatesOf, segment_zipWith, List.zip_eq_zipWith, segment_zipWith,
    repeatEach_rows, segment_rows found (by simp), segment_map, logits,
    segment_rows found fun _ _ => rfl, ← List.zip_eq_zipWith]
  apply List.ext_getElem
  · unfold candidatesRow
    split <;> simp [sampledLen]
  · intro k _ _
    by_cases cold : row.temperature = 0
    · simp [candidatesRow, cold]
    · simp [candidatesRow, cold]

omit [NeZero vocab] in
theorem verified_map (drafts : List (Fin vocab)) (accepted : List Bool)
    (candidates : List (Fin vocab)) :
    verified (drafts.map RejectionSampler.tokenId) accepted
        (candidates.map RejectionSampler.tokenId) =
      (verified drafts accepted candidates).map RejectionSampler.tokenId := by
  induction drafts generalizing accepted candidates with
  | nil => cases candidates <;> rfl
  | cons draft drafts ih =>
      cases accepted with
      | nil => rfl
      | cons accept accepted =>
          cases candidates with
          | nil => cases accept <;> rfl
          | cons candidate candidates =>
              cases accept with
              | true =>
                  have rest := ih accepted candidates
                  simp only [List.map_cons, verified, rest]
              | false => rfl

omit [NeZero vocab] in
/-- Dropping the placeholders of a row leaves its tokens. -/
theorem filter_padded (tokens : List (Fin vocab)) (pad : Nat) :
    (tokens.map RejectionSampler.tokenId ++ List.replicate pad placeholderTokenId).filter
        (0 ≤ ·) = tokens.map RejectionSampler.tokenId := by
  have kept : (tokens.map RejectionSampler.tokenId).filter (0 ≤ ·) =
      tokens.map RejectionSampler.tokenId := by
    rw [List.filter_eq_self]
    intro token member
    obtain ⟨index, _, rfl⟩ := List.mem_map.mp member
    simp [RejectionSampler.tokenId]
  have dropped : (List.replicate pad placeholderTokenId).filter (0 ≤ ·) = [] := by
    simp [placeholderTokenId]
  rw [List.filter_append, kept, dropped, List.append_nil]

/-- The output row of some tokens. -/
def padded (batch : DraftBatch vocab) (tokens : List (Fin vocab)) : List Token :=
  tokens.map RejectionSampler.tokenId ++
    List.replicate (batch.maxNumDrafts + 1 - tokens.length) placeholderTokenId

/-- A row of the output of a batch, from what it keeps and its candidates. -/
theorem output_row (found : batch.rows[r]? = some row) {accepted : List Bool}
    {candidates : List (Fin vocab)} (acceptedWhole : accepted.length = batch.numDraftTokens.sum)
    (candidatesWhole : candidates.length = (batch.numDraftTokens.map (· + 1)).sum) :
    (RejectionSampler.output batch.numDraftTokens batch.maxNumDrafts
        (batch.draftTokenIds.map RejectionSampler.tokenId) accepted
        (candidates.map RejectionSampler.tokenId))[r]? =
      some (batch.padded (verified row.drafts
        (Collections.segment accepted batch.numDraftTokens r)
        (Collections.segment candidates (batch.numDraftTokens.map (· + 1)) r))) := by
  have inside : r < batch.numDraftTokens.length := by
    simpa [numDraftTokens] using (List.getElem?_eq_some_iff.mp found).1
  have len : batch.numDraftTokens.getD r 0 = row.drafts.length := by
    simp [numDraftTokens, List.getD_eq_getElem?_getD, found]
  have few := batch.few row (List.mem_of_getElem? found)
  have own : Collections.segment batch.draftTokenIds batch.numDraftTokens r = row.drafts :=
    segment_rows found fun _ _ => rfl
  have acceptedLen := length_segment acceptedWhole inside
  have candidatesLen := length_segment candidatesWhole (by simpa using inside)
  have lenAt : (batch.numDraftTokens.map (· + 1)).getD r 0 = row.drafts.length + 1 := by
    simp [numDraftTokens, List.getD_eq_getElem?_getD, found]
  have leads := RejectionSampler.leading_le (Collections.segment accepted batch.numDraftTokens r)
  have emits : (verified row.drafts (Collections.segment accepted batch.numDraftTokens r)
      (Collections.segment candidates (batch.numDraftTokens.map (· + 1)) r)).length =
      RejectionSampler.leading (Collections.segment accepted batch.numDraftTokens r) + 1 := by
    rw [RejectionSampler.verified_eq 0 (by omega) (by omega), List.length_append,
      List.length_take_of_le (by omega)]
    rfl
  rw [RejectionSampler.getElem?_output (by rw [List.length_map, length_draftTokenIds])
    acceptedWhole (by rw [List.length_map, candidatesWhole]) inside (by omega), segment_map,
    segment_map, own, verified_map, padded, emits, Nat.add_sub_add_right]

/-! ## Laws -/

theorem length_keeps (row : DraftRow vocab) :
    (keeps (batch.targets sort row) row.drafts).length = row.drafts.length := by
  simp [keeps, length_targets]

theorem length_candidates {targets : List (stdSimplex ℝ (Fin vocab))} {drafts : List (Fin vocab)}
    (one_more : targets.length = drafts.length + 1) :
    (candidates 0 targets drafts).length = drafts.length + 1 := by
  rw [← map_race_eq one_more]
  simp [one_more]

/-- The row of a batch that samples, with the draws of the whole batch or with its
own alone. -/
theorem forward_row (found : batch.rows[r]? = some row) (warm : batch.withTemperatures = true) :
    (batch.forward sort).map (fun output => output[r]?) =
      (drawEach (keeps (batch.targets sort row) row.drafts)).bind fun kept =>
        (drawEach (candidates 0 (batch.targets sort row) row.drafts)).map fun sampled =>
          some (batch.padded (verified row.drafts (acceptedRow row kept)
            (candidatesRow row sampled))) := by
  have temperatures : batch.temperatures = some (batch.rows.map DraftRow.temperature) :=
    if_pos warm
  have keepCounts : (batch.rows.map fun row =>
      (keeps (batch.targets sort row) row.drafts).length) = batch.numDraftTokens :=
    List.map_congr_left fun row _ => length_keeps sort row
  have raceCounts : (batch.rows.map fun row =>
      (candidates 0 (batch.targets sort row) row.drafts).length) =
      batch.numDraftTokens.map (· + 1) := by
    rw [numDraftTokens, List.map_map]
    exact List.map_congr_left fun row _ => length_candidates (batch.length_targets sort row)
  have ownKeeps := map_segment_drawEach batch.rows
    (fun row => keeps (batch.targets sort row) row.drafts) found
  have ownRaces := map_segment_drawEach batch.rows
    (fun row => candidates 0 (batch.targets sort row) row.drafts) found
  rw [keepCounts, ← keeps_eq] at ownKeeps
  rw [raceCounts, ← races_eq] at ownRaces
  have flat : batch.forward sort =
      (drawEach ((RejectionSampler.draftProbs (batch.probs sort) batch.index
        batch.draftTokenIds).map below)).bind fun kept =>
        (drawEach ((RejectionSampler.exclude (batch.probs sort) batch.index
          batch.draftTokenIds).map (race 0))).map fun sampled =>
          RejectionSampler.output batch.numDraftTokens batch.maxNumDrafts
            (batch.draftTokenIds.map RejectionSampler.tokenId)
            (RejectionSampler.acceptedOf
              ((RejectionSampler.draftRows batch.numDraftTokens).map fun r =>
                decide ((batch.rows.map DraftRow.temperature).getD r 0 = 0))
              (RejectionSampler.matchesGreedy (batch.logits.map Sampler.argmax) batch.index
                batch.draftTokenIds) kept)
            ((RejectionSampler.candidatesOf
              (repeatEach (batch.rows.map DraftRow.temperature)
                (batch.numDraftTokens.map (· + 1))) (batch.logits.map Sampler.argmax)
              sampled).map RejectionSampler.tokenId) := by
    rw [forward, temperatures]
    rfl
  rw [← ownKeeps, ← ownRaces, PMF.bind_map, flat, PMF.map_bind]
  apply bind_congr_support
  intro kept keptDrawn
  have keptWhole : kept.length = batch.numDraftTokens.sum := by
    rw [length_of_mem_support keptDrawn, keeps_eq, List.length_flatMap, keepCounts]
  rw [Function.comp_apply, PMF.map_comp, PMF.map_comp]
  apply map_congr_support
  intro sampled sampledDrawn
  have sampledWhole : sampled.length = (batch.numDraftTokens.map (· + 1)).sum := by
    rw [length_of_mem_support sampledDrawn, races_eq, List.length_flatMap, raceCounts]
  have acceptedWhole : (RejectionSampler.acceptedOf
      ((RejectionSampler.draftRows batch.numDraftTokens).map fun r =>
        decide ((batch.rows.map DraftRow.temperature).getD r 0 = 0))
      (RejectionSampler.matchesGreedy (batch.logits.map Sampler.argmax) batch.index
        batch.draftTokenIds) kept).length = batch.numDraftTokens.sum := by
    have matched : (batch.rows.flatMap matchesOf).length = batch.numDraftTokens.sum := by
      rw [List.length_flatMap, numDraftTokens]
      exact congrArg List.sum (List.map_congr_left fun row _ => length_matchesOf row)
    rw [RejectionSampler.acceptedOf, matched_eq, List.length_zipWith, List.length_zip,
      List.length_map, RejectionSampler.draftRows, length_repeatEach_range, matched, keptWhole,
      Nat.min_self, Nat.min_self]
  have candidatesWhole : (RejectionSampler.candidatesOf
      (repeatEach (batch.rows.map DraftRow.temperature) (batch.numDraftTokens.map (· + 1)))
      (batch.logits.map Sampler.argmax) sampled).length =
      (batch.numDraftTokens.map (· + 1)).sum := by
    have along : (batch.rows.flatMap DraftRow.logits).length =
        (batch.rows.map fun row => row.logits.length).sum := List.length_flatMap
    rw [RejectionSampler.candidatesOf, List.length_zipWith, List.length_zip, List.length_map,
      sampledWhole, numLogits_eq, repeatEach_rows, logits, along, List.length_flatMap]
    simp
  rw [Function.comp_apply, Function.comp_apply, output_row found acceptedWhole candidatesWhole,
    segment_accepted found keptWhole, segment_candidates found sampledWhole]

/-- The tokens of a greedy row: the argmax of each position, for as long as it is the
draft. -/
noncomputable def argmaxChain : List (Fin vocab → ℝ) → List (Fin vocab) → List (Fin vocab)
  | [], _ => []
  | logits :: _, [] => [Sampler.argmax logits]
  | logits :: rest, draft :: drafts =>
      if Sampler.argmax logits = draft then draft :: argmaxChain rest drafts
      else [Sampler.argmax logits]

theorem verified_argmax {logits : List (Fin vocab → ℝ)} {drafts : List (Fin vocab)}
    (shape : logits.length = drafts.length + 1) :
    verified drafts (List.zipWith (fun logits draft => decide (Sampler.argmax logits = draft))
        logits drafts) (logits.map Sampler.argmax) = argmaxChain logits drafts := by
  induction drafts generalizing logits with
  | nil =>
      obtain ⟨only, rfl⟩ := List.length_eq_one_iff.mp shape
      rfl
  | cons draft drafts ih =>
      cases logits with
      | nil => simp at shape
      | cons first logits =>
          have rest := ih (Nat.succ.inj shape)
          rw [List.zipWith_cons_cons, List.map_cons, argmaxChain]
          by_cases same : Sampler.argmax first = draft
          · rw [if_pos same, decide_eq_true same, verified, rest]
          · rw [if_neg same, decide_eq_false same, verified]

/-- Whether a row is decoded greedily. -/
def Greedy (batch : DraftBatch vocab) (row : DraftRow vocab) : Prop :=
  batch.withTemperatures = false ∨ row.temperature = 0

/-- A greedy row is its argmax chain, whatever is drawn. -/
theorem forward_greedy (found : batch.rows[r]? = some row) (greedy : batch.Greedy row) :
    (batch.forward sort).map (fun output => output[r]?) =
      PMF.pure (some (batch.padded (argmaxChain row.logits row.drafts))) := by
  cases warm : batch.withTemperatures with
  | true =>
      have cold : row.temperature = 0 := greedy.resolve_left (by simp [warm])
      rw [forward_row sort found warm]
      simp only [acceptedRow, candidatesRow, if_pos cold, matchesOf, verified_argmax row.shape]
      have constant : ((drawEach (candidates 0 (batch.targets sort row) row.drafts)).map fun _ =>
          some (batch.padded (argmaxChain row.logits row.drafts))) =
          PMF.pure (some (batch.padded (argmaxChain row.logits row.drafts))) :=
        PMF.map_const _ _
      rw [constant]
      exact PMF.bind_const _ _
  | false =>
      have none : batch.temperatures = none := if_neg (by simp [warm])
      have flat : batch.forward sort = PMF.pure
          (RejectionSampler.output batch.numDraftTokens batch.maxNumDrafts
            (batch.draftTokenIds.map RejectionSampler.tokenId) (batch.rows.flatMap matchesOf)
            ((batch.rows.flatMap fun row => row.logits.map Sampler.argmax).map
              RejectionSampler.tokenId)) := by
        rw [forward, none, ← matched_eq, ← List.map_flatMap]
        rfl
      have matchedWhole : (batch.rows.flatMap matchesOf).length = batch.numDraftTokens.sum := by
        rw [List.length_flatMap, numDraftTokens]
        exact congrArg List.sum (List.map_congr_left fun row _ => length_matchesOf row)
      have greedyWhole : (batch.rows.flatMap fun row => row.logits.map Sampler.argmax).length =
          (batch.numDraftTokens.map (· + 1)).sum := by
        rw [List.length_flatMap, numLogits_eq]
        simp
      have matched : Collections.segment (batch.rows.flatMap matchesOf) batch.numDraftTokens r =
          matchesOf row := segment_rows found fun row _ => length_matchesOf row
      have argmaxes : Collections.segment
          (batch.rows.flatMap fun row => row.logits.map Sampler.argmax)
          (batch.numDraftTokens.map (· + 1)) r = row.logits.map Sampler.argmax := by
        rw [numLogits_eq]
        exact segment_rows found (by simp)
      rw [flat, PMF.pure_map, output_row found matchedWhole greedyWhole, matched, argmaxes,
        matchesOf, verified_argmax row.shape]

/-- A row that samples follows its targets. -/
theorem forward_sampled (found : batch.rows[r]? = some row) (sampled : ¬ batch.Greedy row) :
    (batch.forward sort).map (fun output => output[r]?) =
      (follow (batch.targets sort row) row.drafts).map fun tokens =>
        some (batch.padded tokens) := by
  rw [Greedy, not_or] at sampled
  obtain ⟨warm, hot⟩ := sampled
  rw [forward_row sort found (by simpa using warm),
    ← verified_law 0 (batch.length_targets sort row), PMF.map_bind]
  simp only [acceptedRow, candidatesRow, if_neg hot, PMF.map_comp]
  rfl

/-- The tokens of a row of the output. -/
theorem emitted_eq {tokens : PMF (List (Fin vocab))}
    (drawn : (batch.forward sort).map (fun output => output[r]?) =
      tokens.map fun tokens => some (batch.padded tokens)) :
    batch.emitted sort r = tokens.map (List.map RejectionSampler.tokenId) := by
  have read : batch.emitted sort r = ((batch.forward sort).map fun output => output[r]?).map
      fun row => (row.getD []).filter (0 ≤ ·) := by
    rw [emitted, PMF.map_comp]
    rfl
  rw [read, drawn, PMF.map_comp]
  congr 1
  funext tokens
  exact filter_padded tokens _

omit [NeZero vocab] in
theorem tokenId_injective : Function.Injective (RejectionSampler.tokenId : Fin vocab → Token) := by
  intro first second equal
  exact Fin.ext (Int.ofNat.inj equal)

/-- Each token a row emits, given those before it, has the law of its own position. -/
theorem emitted_next (found : batch.rows[r]? = some row) (sampled : ¬ batch.Greedy row)
    {drawn : List (Fin vocab)} {p : stdSimplex ℝ (Fin vocab)}
    (target : (batch.targets sort row)[drawn.length]? = some p) (token : Fin vocab) :
    ((batch.emitted sort r).map (List.take (drawn.length + 1)))
        ((drawn ++ [token]).map RejectionSampler.tokenId) =
      if drawn = row.drafts.take drawn.length then
        ((batch.emitted sort r).map (List.take drawn.length))
          (drawn.map RejectionSampler.tokenId) * law p token
      else 0 := by
  have taken : ∀ n, (batch.emitted sort r).map (List.take n) =
      ((follow (batch.targets sort row) row.drafts).map (List.take n)).map
        (List.map RejectionSampler.tokenId) := by
    intro n
    rw [emitted_eq sort (forward_sampled sort found sampled), PMF.map_comp, PMF.map_comp]
    congr 1
    funext tokens
    exact List.map_take.symm
  have injective : Function.Injective (List.map (RejectionSampler.tokenId : Fin vocab → Token)) :=
    List.map_injective_iff.mpr tokenId_injective
  rw [taken, taken, map_apply_of_injective injective, map_apply_of_injective injective]
  exact map_take_follow (batch.length_targets sort row) target token

/-- The vector a draft's race runs on, and the probability it is kept with. -/
theorem race_of_draft (found : batch.rows[r]? = some row) {i : Nat} {draft : Fin vocab}
    (drafted : row.drafts[i]? = some draft) :
    ∃ p ∈ batch.targets sort row,
      (RejectionSampler.draftProbs (batch.probs sort) batch.index batch.draftTokenIds)[
        (cumsum batch.numDraftTokens).getD r 0 + i]? = some (p.1 draft) ∧
      (RejectionSampler.exclude (batch.probs sort) batch.index batch.draftTokenIds)[
        (RejectionSampler.first batch.numDraftTokens).getD r 0 + i]? =
          some (Function.update p.1 draft 0) := by
  have inside := (List.getElem?_eq_some_iff.mp drafted).1
  have few : i < (batch.targets sort row).length := by
    rw [length_targets]
    omega
  have target := List.getElem?_eq_getElem few
  refine ⟨(batch.targets sort row)[i], List.getElem_mem few, ?_, ?_⟩
  · have read := batch.zipWith_index (fun p draft => p draft) 0
      (fun row => (batch.targets sort row).map Subtype.val) (by simp [targets])
    have len : ∀ row : DraftRow vocab, (List.zipWith (fun p draft => p draft)
        ((batch.targets sort row).map Subtype.val) row.drafts).length = row.drafts.length := by
      intro row
      simp [length_targets]
    have entry := getElem?_flatMap batch.rows (fun row => List.zipWith (fun p draft => p draft)
      ((batch.targets sort row).map Subtype.val) row.drafts) found (by rw [len]; exact inside)
    simp only [len] at entry
    rw [RejectionSampler.draftProbs, probs_eq, read, numDraftTokens, entry]
    simp [List.getElem?_zipWith, target, drafted]
  · have len : ∀ row : DraftRow vocab, (List.zipWith (fun p draft => Function.update p draft 0)
        ((batch.targets sort row).map Subtype.val) row.drafts ++
        ((batch.targets sort row).map Subtype.val).drop row.drafts.length).length =
        row.logits.length := by
      intro row
      simp [length_targets, row.shape]
    have entry := getElem?_flatMap batch.rows (fun row =>
      List.zipWith (fun p draft => Function.update p draft 0)
        ((batch.targets sort row).map Subtype.val) row.drafts ++
        ((batch.targets sort row).map Subtype.val).drop row.drafts.length) found
      (by rw [len, row.shape]; exact Nat.lt_succ_of_lt inside)
    simp only [len] at entry
    rw [exclude_eq, RejectionSampler.first, numLogits_eq, entry,
      List.getElem?_append_left (by simpa [length_targets] using inside)]
    simp [List.getElem?_zipWith, target, drafted]

theorem argmaxChain_ne_nil {logits : List (Fin vocab → ℝ)} (nonempty : logits ≠ [])
    (drafts : List (Fin vocab)) : argmaxChain logits drafts ≠ [] := by
  cases logits with
  | nil => exact absurd rfl nonempty
  | cons first logits =>
      cases drafts with
      | nil => simp [argmaxChain]
      | cons draft drafts =>
          rw [argmaxChain]
          split <;> simp

/-- No row is empty. -/
theorem output_ne_nil (found : batch.rows[r]? = some row) {output : List (List Token)}
    (member : output ∈ (batch.forward sort).support) :
    ∃ tokens, tokens ≠ [] ∧ output[r]? = some (batch.padded tokens) := by
  have drawn : output[r]? ∈ ((batch.forward sort).map fun output => output[r]?).support :=
    (PMF.mem_support_map_iff _ _ _).mpr ⟨output, member, rfl⟩
  have positions : row.logits ≠ [] := List.ne_nil_of_length_pos (by rw [row.shape]; omega)
  by_cases greedy : batch.Greedy row
  · rw [forward_greedy sort found greedy, PMF.mem_support_pure_iff] at drawn
    exact ⟨_, argmaxChain_ne_nil positions row.drafts, drawn⟩
  · rw [forward_sampled sort found greedy, PMF.mem_support_map_iff] at drawn
    obtain ⟨tokens, among, shown⟩ := drawn
    refine ⟨tokens, ne_nil_of_follow ?_ among, shown.symm⟩
    simpa [targets] using positions

end DraftBatch

/-- For every batch and every row: the output is some tokens padded with
placeholders, at least one; a greedy row is the argmax chain of its own logits; and
what another row emits has the law of drawing from its targets in turn while the
draws are its drafts.  Each of its tokens has, given those before it, the law of its
own position, and no replacement is drawn from an all-zero vector. -/
theorem speculative_sampling_lossless {vocab : Nat} [NeZero vocab] (sort : RowSort vocab)
    (batch : DraftBatch vocab) (r : Nat) (row : DraftRow vocab)
    (found : batch.rows[r]? = some row) :
    (∀ output ∈ (batch.forward sort).support, ∃ tokens, tokens ≠ [] ∧
      output[r]? = some (batch.padded tokens)) ∧
    (batch.Greedy row → batch.emitted sort r =
      PMF.pure ((DraftBatch.argmaxChain row.logits row.drafts).map RejectionSampler.tokenId)) ∧
    (¬ batch.Greedy row →
      batch.emitted sort r = (follow (batch.targets sort row) row.drafts).map
        (List.map RejectionSampler.tokenId) ∧
      (∀ (drawn : List (Fin vocab)) p token, (batch.targets sort row)[drawn.length]? = some p →
        ((batch.emitted sort r).map (List.take (drawn.length + 1)))
            ((drawn ++ [token]).map RejectionSampler.tokenId) =
          if drawn = row.drafts.take drawn.length then
            ((batch.emitted sort r).map (List.take drawn.length))
              (drawn.map RejectionSampler.tokenId) * law p token
          else 0) ∧
      ∀ i draft, row.drafts[i]? = some draft → ∃ q weights,
        (RejectionSampler.draftProbs (batch.probs sort) batch.index batch.draftTokenIds)[
          (cumsum batch.numDraftTokens).getD r 0 + i]? = some q ∧
        (RejectionSampler.exclude (batch.probs sort) batch.index batch.draftTokenIds)[
          (RejectionSampler.first batch.numDraftTokens).getD r 0 + i]? = some weights ∧
        ∀ u : ℝ, 0 ≤ u → u < 1 → ¬ u < q → ∃ token, 0 < weights token) := by
  refine ⟨fun output member => DraftBatch.output_ne_nil sort found member, ?_, ?_⟩
  · intro greedy
    have drawn : (batch.forward sort).map (fun output => output[r]?) =
        (PMF.pure (DraftBatch.argmaxChain row.logits row.drafts)).map fun tokens =>
          some (batch.padded tokens) := by
      rw [DraftBatch.forward_greedy sort found greedy, PMF.pure_map]
    rw [DraftBatch.emitted_eq sort drawn, PMF.pure_map]
  · intro sampled
    refine ⟨DraftBatch.emitted_eq sort (DraftBatch.forward_sampled sort found sampled), ?_, ?_⟩
    · intro drawn p token target
      exact DraftBatch.emitted_next sort found sampled target token
    · intro i draft drafted
      obtain ⟨p, _, kept, raced⟩ := DraftBatch.race_of_draft sort found drafted
      refine ⟨_, _, kept, raced, ?_⟩
      intro u _ below rejected
      exact exists_pos_of_rejected p draft below rejected

/-- Two rows over two tokens: a greedy one, and one that samples with one draft. -/
noncomputable def DraftBatch.sample : DraftBatch 2 where
  rows :=
    [⟨[], [fun _ => 0], rfl, 0, 0, 1⟩, ⟨[1], [fun _ => 0, fun _ => 0], rfl, 1, 0, 1⟩]
  maxNumDrafts := 1
  few := by simp
  withTemperatures := true
  withTopK := false
  withTopP := false

theorem speculative_sampling_lossless_sample :
    DraftBatch.sample.emitted (.stable 2) 1 =
      (follow (DraftBatch.sample.targets (.stable 2)
        ⟨[1], [fun _ => 0, fun _ => 0], rfl, 1, 0, 1⟩) [1]).map
        (List.map RejectionSampler.tokenId) := by
  obtain ⟨_, _, lossless⟩ := speculative_sampling_lossless (.stable 2) .sample 1
    ⟨[1], [fun _ => 0, fun _ => 0], rfl, 1, 0, 1⟩ rfl
  exact (lossless (by simp [DraftBatch.Greedy, DraftBatch.sample])).1

end LeanVllm
