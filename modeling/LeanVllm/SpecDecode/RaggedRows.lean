import LeanVllm.Engine.ModelRunner
import LeanVllm.SpecDecode.Lossless

/-!
# Rows of a verified batch

`RejectionSampler.forward` on given draws.  Whatever is drawn, a row of its output
is the row's drafts up to the first one rejected and the candidate of the position
after them, and it is made of the row's own drafts, logits, parameters and draws.
The host takes the rows apart again with `split_sampled`.
-/

namespace LeanVllm.RejectionSampler

open Collections Probability

variable {vocab : Nat}

/-- The arguments of `forward`, the number drawn for each draft and the numbers drawn
for each row of logits. -/
structure Inputs (vocab : Nat) where
  logits : List (Fin vocab → ℝ)
  draftTokenIds : List (Fin vocab)
  numDraftTokens : List Nat
  temperatures : Option (List ℝ)
  maxNumDrafts : Nat
  topK : Option (List Int)
  topP : Option (List ℝ)
  uniforms : List ℝ
  exponentials : List (Fin vocab → ℝ)

/-- The shapes of the arguments: per-row arrays, and flat ones with a row after the
other. -/
structure Inputs.Ragged (inputs : Inputs vocab) : Prop where
  few : ∀ numDrafts ∈ inputs.numDraftTokens, numDrafts ≤ inputs.maxNumDrafts
  drafts : inputs.draftTokenIds.length = inputs.numDraftTokens.sum
  logits : inputs.logits.length = (inputs.numDraftTokens.map (· + 1)).sum
  temperatures : ∀ values ∈ inputs.temperatures, values.length = inputs.numDraftTokens.length
  topK : ∀ values ∈ inputs.topK, values.length = inputs.numDraftTokens.length
  topP : ∀ values ∈ inputs.topP, values.length = inputs.numDraftTokens.length
  uniforms : inputs.uniforms.length = inputs.draftTokenIds.length
  exponentials : inputs.exponentials.length = inputs.logits.length

/-- `probs.div_(exponentials.clamp_min_(1e-10)).argmax(dim=-1)` for one row. -/
noncomputable def raceWinner [NeZero vocab] (probs exponentials : Fin vocab → ℝ) : Fin vocab :=
  Sampler.argmax fun token => probs token / max (exponentials token) (1 / (10 : Nat) ^ 10)

/-- `forward` on given draws. -/
noncomputable def Inputs.forward [NeZero vocab] (sort : RowSort vocab) (inputs : Inputs vocab) :
    List (List Token) :=
  let index := draftIndex inputs.numDraftTokens inputs.draftTokenIds.length
  let greedy := inputs.logits.map Sampler.argmax
  let matched := matchesGreedy greedy index inputs.draftTokenIds
  match inputs.temperatures with
  | none =>
      output inputs.numDraftTokens inputs.maxNumDrafts (inputs.draftTokenIds.map tokenId) matched
        (greedy.map tokenId)
  | some temperatures =>
      let probs := targetProbs sort inputs.logits inputs.numDraftTokens temperatures inputs.topK
        inputs.topP
      let isGreedy := (draftRows inputs.numDraftTokens).map fun row =>
        decide (temperatures.getD row 0 = 0)
      let kept := List.zipWith (fun uniform p => decide (uniform < p)) inputs.uniforms
        (draftProbs probs index inputs.draftTokenIds)
      let sampled := List.zipWith raceWinner (exclude probs index inputs.draftTokenIds)
        inputs.exponentials
      output inputs.numDraftTokens inputs.maxNumDrafts (inputs.draftTokenIds.map tokenId)
        (acceptedOf isGreedy matched kept)
        ((candidatesOf (repeatEach temperatures (inputs.numDraftTokens.map (· + 1))) greedy
          sampled).map tokenId)

/-! ## A row on its own -/

/-- What `forward` has of one row. -/
structure Row (vocab : Nat) where
  drafts : List (Fin vocab)
  logits : List (Fin vocab → ℝ)
  temperature : Option ℝ
  topK : Option Int
  topP : Option ℝ
  uniforms : List ℝ
  exponentials : List (Fin vocab → ℝ)

/-- Row `r`: a slice of each flat array, and an entry of each per-row one. -/
def Inputs.row (inputs : Inputs vocab) (r : Nat) : Row vocab :=
  let firstDraft := (inputs.numDraftTokens.take r).sum
  let firstLogits := ((inputs.numDraftTokens.take r).map (· + 1)).sum
  let numDrafts := inputs.numDraftTokens.getD r 0
  { drafts := (inputs.draftTokenIds.drop firstDraft).take numDrafts
    logits := (inputs.logits.drop firstLogits).take (numDrafts + 1)
    temperature := inputs.temperatures.map fun values => values.getD r 0
    topK := inputs.topK.map fun values => values.getD r 0
    topP := inputs.topP.map fun values => values.getD r 0
    uniforms := (inputs.uniforms.drop firstDraft).take numDrafts
    exponentials := (inputs.exponentials.drop firstLogits).take (numDrafts + 1) }

namespace Row

variable [NeZero vocab] (sort : RowSort vocab) (row : Row vocab)

/-- Whether a row is decoded greedily. -/
def Greedy : Prop :=
  row.temperature = none ∨ row.temperature = some 0

/-- The probabilities of one position, after temperature, top-k and top-p. -/
noncomputable def probs (logits : Fin vocab → ℝ) : Fin vocab → ℝ :=
  Sampler.probs sort logits (row.temperature.getD 0) row.topK row.topP

open Classical in
/-- Which drafts are accepted: those that are the argmax of their own logits, or those
whose probability is above the number drawn. -/
noncomputable def accepted : List Bool :=
  if row.Greedy then
    List.zipWith (fun logits draft => decide (Sampler.argmax logits = draft)) row.logits row.drafts
  else
    List.zipWith (fun uniform p => decide (uniform < p)) row.uniforms
      (List.zipWith (fun logits draft => row.probs sort logits draft) row.logits row.drafts)

/-- The weights of position `k`, from its own logits.  A draft is no candidate for its
own position. -/
noncomputable def weights (k : Nat) : Fin vocab → ℝ :=
  match row.drafts[k]? with
  | some draft => Function.update (row.probs sort (row.logits.getD k 0)) draft 0
  | none => row.probs sort (row.logits.getD k 0)

open Classical in
/-- The candidate of position `k`, from its own logits and draws. -/
noncomputable def candidate (k : Nat) : Fin vocab :=
  if row.Greedy then Sampler.argmax (row.logits.getD k 0)
  else raceWinner (row.weights sort k) (row.exponentials.getD k 0)

/-- The number of leading accepted drafts. -/
noncomputable def numAccepted : Nat :=
  leading (row.accepted sort)

/-- The accepted drafts and the candidate behind them. -/
noncomputable def tokens : List Token :=
  (row.drafts.take (row.numAccepted sort) ++ [row.candidate sort (row.numAccepted sort)]).map tokenId

/-- A row of the output. -/
noncomputable def output (maxNumDrafts : Nat) : List Token :=
  row.tokens sort ++ List.replicate (maxNumDrafts - row.numAccepted sort) placeholderTokenId

end Row

/-! ## Cutting a batch into rows -/

namespace Inputs

variable {inputs : Inputs vocab}

/-- The rows of the flat arrays. -/
noncomputable def batch (inputs : Inputs vocab) (ragged : inputs.Ragged) : DraftBatch vocab where
  rows := (List.finRange inputs.numDraftTokens.length).map fun r : Fin inputs.numDraftTokens.length =>
    { drafts := segment inputs.draftTokenIds inputs.numDraftTokens r
      logits := segment inputs.logits (inputs.numDraftTokens.map (· + 1)) r
      shape := by
        have inside : (r : Nat) < (inputs.numDraftTokens.map (· + 1)).length := by simp
        rw [length_segment ragged.logits inside, length_segment ragged.drafts r.isLt]
        simp [List.getD_eq_getElem?_getD]
      temperature := (inputs.temperatures.getD []).getD r 0
      topK := (inputs.topK.getD []).getD r 0
      topP := (inputs.topP.getD []).getD r 0 }
  maxNumDrafts := inputs.maxNumDrafts
  few row member := by
    obtain ⟨r, _, rfl⟩ := List.mem_map.mp member
    simp only
    rw [length_segment ragged.drafts r.isLt, List.getD_eq_getElem?_getD,
      List.getElem?_eq_getElem r.isLt]
    exact ragged.few _ (List.getElem_mem r.isLt)
  withTemperatures := inputs.temperatures.isSome
  withTopK := inputs.topK.isSome
  withTopP := inputs.topP.isSome

variable (ragged : inputs.Ragged)

theorem flatMap_finRange {α : Type} {values : List α} {lens : List Nat}
    (whole : values.length = lens.sum) {n : Nat} (same : lens.length = n) :
    ((List.finRange n).flatMap fun r : Fin n => segment values lens r) = values := by
  conv_rhs => rw [← flatMap_segment whole]
  rw [same, ← List.map_coe_finRange_eq_range, List.flatMap_map]

theorem batch_draftTokenIds : (inputs.batch ragged).draftTokenIds = inputs.draftTokenIds := by
  rw [DraftBatch.draftTokenIds, batch, List.flatMap_map]
  exact flatMap_finRange ragged.drafts rfl

theorem batch_logits : (inputs.batch ragged).logits = inputs.logits := by
  rw [DraftBatch.logits, batch, List.flatMap_map]
  exact flatMap_finRange ragged.logits (by simp)

theorem batch_numDraftTokens : (inputs.batch ragged).numDraftTokens = inputs.numDraftTokens := by
  rw [DraftBatch.numDraftTokens, batch, List.map_map]
  conv_rhs => rw [← map_getD_range inputs.numDraftTokens 0, ← List.map_coe_finRange_eq_range,
    List.map_map]
  apply List.map_congr_left
  intro r _
  exact length_segment ragged.drafts r.isLt

/-- A per-row argument is that of the rows, if it is given. -/
theorem map_rows {α : Type} {given : Option (List α)} (default : α)
    (whole : ∀ values ∈ given, values.length = inputs.numDraftTokens.length)
    {value : DraftRow vocab → α}
    (own : ∀ r, ∀ row ∈ (inputs.batch ragged).rows[r]?,
      value row = (given.getD []).getD r default) :
    (if given.isSome then some ((inputs.batch ragged).rows.map value) else none) = given := by
  cases given with
  | none => rfl
  | some values =>
      simp only [Option.isSome_some, if_true, Option.some.injEq]
      have count : (inputs.batch ragged).rows.length = inputs.numDraftTokens.length := by
        simp [batch]
      apply List.ext_getElem
      · rw [List.length_map, count, whole values rfl]
      · intro r inside inside'
        rw [List.length_map] at inside
        rw [List.getElem_map, own r _ (List.getElem?_eq_getElem inside)]
        simp [List.getD_eq_getElem?_getD, inside']

theorem batch_temperatures : (inputs.batch ragged).temperatures = inputs.temperatures := by
  refine map_rows ragged 0 ragged.temperatures ?_
  intro r row found
  obtain ⟨inside, rfl⟩ := List.getElem?_eq_some_iff.mp found
  simp [batch]

theorem batch_topK : (inputs.batch ragged).topK = inputs.topK := by
  refine map_rows ragged 0 ragged.topK ?_
  intro r row found
  obtain ⟨inside, rfl⟩ := List.getElem?_eq_some_iff.mp found
  simp [batch]

theorem batch_topP : (inputs.batch ragged).topP = inputs.topP := by
  refine map_rows ragged 0 ragged.topP ?_
  intro r row found
  obtain ⟨inside, rfl⟩ := List.getElem?_eq_some_iff.mp found
  simp [batch]

variable {r : Nat}

theorem slice_eq {α : Type} (values : List α) (lens : List Nat) (inside : r < lens.length) :
    (values.drop (lens.take r).sum).take (lens.getD r 0) = segment values lens r := by
  rw [Collections.segment, getD_cumsum inside.le]

theorem row_drafts (inside : r < inputs.numDraftTokens.length) :
    (inputs.row r).drafts = segment inputs.draftTokenIds inputs.numDraftTokens r :=
  slice_eq _ _ inside

theorem row_uniforms (inside : r < inputs.numDraftTokens.length) :
    (inputs.row r).uniforms = segment inputs.uniforms inputs.numDraftTokens r :=
  slice_eq _ _ inside

theorem slice_logits_eq {α : Type} (values : List α) (lens : List Nat) (inside : r < lens.length) :
    (values.drop ((lens.take r).map (· + 1)).sum).take (lens.getD r 0 + 1) =
      segment values (lens.map (· + 1)) r := by
  rw [← slice_eq values _ (by simpa using inside), List.map_take]
  simp [List.getD_eq_getElem?_getD, inside]

theorem row_logits (inside : r < inputs.numDraftTokens.length) :
    (inputs.row r).logits = segment inputs.logits (inputs.numDraftTokens.map (· + 1)) r :=
  slice_logits_eq _ _ inside

theorem row_exponentials (inside : r < inputs.numDraftTokens.length) :
    (inputs.row r).exponentials =
      segment inputs.exponentials (inputs.numDraftTokens.map (· + 1)) r :=
  slice_logits_eq _ _ inside

/-- Row `r` of the batch. -/
theorem rows_eq (inside : r < inputs.numDraftTokens.length) :
    ∃ row, (inputs.batch ragged).rows[r]? = some row ∧ row.drafts = (inputs.row r).drafts ∧
      row.logits = (inputs.row r).logits ∧
      (inputs.temperatures.isSome → some row.temperature = (inputs.row r).temperature) ∧
      (if inputs.topK.isSome then some row.topK else none) = (inputs.row r).topK ∧
      (if inputs.topP.isSome then some row.topP else none) = (inputs.row r).topP := by
  have member : r < (inputs.batch ragged).rows.length := by simpa [batch] using inside
  refine ⟨_, List.getElem?_eq_getElem member, ?_, ?_, ?_, ?_, ?_⟩
  · rw [row_drafts inside]
    simp [batch]
  · rw [row_logits inside]
    simp [batch]
  · intro given
    obtain ⟨values, found⟩ := Option.isSome_iff_exists.mp given
    simp [batch, row, found]
  · cases found : inputs.topK <;> simp [batch, row, found]
  · cases found : inputs.topP <;> simp [batch, row, found]

variable [NeZero vocab] (sort : RowSort vocab)

/-- A row of the output, from the row's part of what is accepted and of the
candidates. -/
theorem output_of (ragged : inputs.Ragged) (inside : r < inputs.numDraftTokens.length)
    {accepted : List Bool} {candidates : List (Fin vocab)}
    (acceptedWhole : accepted.length = inputs.numDraftTokens.sum)
    (candidatesWhole : candidates.length = (inputs.numDraftTokens.map (· + 1)).sum)
    (own : Collections.segment accepted inputs.numDraftTokens r = (inputs.row r).accepted sort)
    (each : ∀ k ≤ inputs.numDraftTokens.getD r 0,
      (Collections.segment candidates (inputs.numDraftTokens.map (· + 1)) r).getD k 0 =
        (inputs.row r).candidate sort k) :
    (output inputs.numDraftTokens inputs.maxNumDrafts (inputs.draftTokenIds.map tokenId) accepted
        (candidates.map tokenId))[r]? =
      some ((inputs.row r).output sort inputs.maxNumDrafts) := by
  have few : inputs.numDraftTokens.getD r 0 ≤ inputs.maxNumDrafts := by
    rw [List.getD_eq_getElem?_getD, List.getElem?_eq_getElem inside]
    exact ragged.few _ (List.getElem_mem inside)
  have lenAt : (inputs.numDraftTokens.map (· + 1)).getD r 0 =
      inputs.numDraftTokens.getD r 0 + 1 := by
    simp [List.getD_eq_getElem?_getD, inside]
  have draftsLen := length_segment ragged.drafts inside
  have acceptedLen := length_segment acceptedWhole inside
  have candidatesLen := length_segment candidatesWhole (by simpa using inside)
  have leads := leading_le (Collections.segment accepted inputs.numDraftTokens r)
  rw [getElem?_output (by rw [List.length_map, ragged.drafts]) acceptedWhole
    (by rw [List.length_map, candidatesWhole]) inside few, segment_map, segment_map,
    DraftBatch.verified_map, verified_eq 0 (by omega) (by omega), each _ (by omega), own]
  rw [Row.output, Row.tokens, Row.numAccepted, row_drafts inside]

/-- Which drafts are the argmax of their logits, row by row. -/
theorem matched_eq (ragged : inputs.Ragged) :
    matchesGreedy (inputs.logits.map Sampler.argmax)
        (draftIndex inputs.numDraftTokens inputs.draftTokenIds.length) inputs.draftTokenIds =
      (inputs.batch ragged).rows.flatMap DraftBatch.matchesOf := by
  have batched := DraftBatch.matched_eq (inputs.batch ragged)
  rwa [DraftBatch.index, batch_logits, batch_numDraftTokens, batch_draftTokenIds] at batched

theorem segment_matched (ragged : inputs.Ragged) (inside : r < inputs.numDraftTokens.length) :
    Collections.segment (matchesGreedy (inputs.logits.map Sampler.argmax)
        (draftIndex inputs.numDraftTokens inputs.draftTokenIds.length) inputs.draftTokenIds)
        inputs.numDraftTokens r =
      List.zipWith (fun logits draft => decide (Sampler.argmax logits = draft))
        (inputs.row r).logits (inputs.row r).drafts := by
  obtain ⟨row, found, drafts, logits, _⟩ := rows_eq ragged inside
  have own := DraftBatch.segment_rows found fun row _ => DraftBatch.length_matchesOf row
  rw [← drafts, ← logits, matched_eq ragged, ← batch_numDraftTokens ragged]
  exact own

theorem segment_greedy (ragged : inputs.Ragged) (inside : r < inputs.numDraftTokens.length)
    {k : Nat} (within : k ≤ inputs.numDraftTokens.getD r 0) :
    (Collections.segment (inputs.logits.map Sampler.argmax)
        (inputs.numDraftTokens.map (· + 1)) r).getD k 0 =
      Sampler.argmax ((inputs.row r).logits.getD k 0) := by
  have lenAt : (inputs.numDraftTokens.map (· + 1)).getD r 0 =
      inputs.numDraftTokens.getD r 0 + 1 := by
    simp [List.getD_eq_getElem?_getD, inside]
  have len := length_segment ragged.logits (by simpa using inside)
  have short : k < (Collections.segment inputs.logits
      (inputs.numDraftTokens.map (· + 1)) r).length := by omega
  rw [segment_map, row_logits inside, List.getD_eq_getElem?_getD, List.getD_eq_getElem?_getD,
    List.getElem?_map, List.getElem?_eq_getElem short]
  rfl

/-- The targets of a row's positions. -/
theorem segment_probs (ragged : inputs.Ragged) (inside : r < inputs.numDraftTokens.length)
    {temperatures : List ℝ} (given : inputs.temperatures = some temperatures) :
    (∃ row, (inputs.batch ragged).rows[r]? = some row ∧
      ((inputs.batch ragged).targets sort row).map Subtype.val =
        (inputs.row r).logits.map ((inputs.row r).probs sort)) ∧
    targetProbs sort inputs.logits inputs.numDraftTokens temperatures inputs.topK inputs.topP =
      (inputs.batch ragged).probs sort := by
  have temperaturesEq : (inputs.batch ragged).rows.map DraftRow.temperature = temperatures := by
    have batched := batch_temperatures ragged
    rw [DraftBatch.temperatures, given] at batched
    have warm : (inputs.batch ragged).withTemperatures = true := by simp [batch, given]
    rw [if_pos warm] at batched
    exact Option.some.inj batched
  constructor
  · obtain ⟨row, found, drafts, logits, temperature, topK, topP⟩ := rows_eq ragged inside
    refine ⟨row, found, ?_⟩
    rw [DraftBatch.targets, List.map_map, ← logits]
    apply List.map_congr_left
    intro position _
    have warm := temperature (by simp [given])
    have kGiven : (inputs.batch ragged).withTopK = inputs.topK.isSome := rfl
    have pGiven : (inputs.batch ragged).withTopP = inputs.topP.isSome := rfl
    simp only [Function.comp_apply, Sampler.target, Row.probs, ← warm, Option.getD_some, kGiven,
      pGiven, topK, topP]
  · rw [DraftBatch.probs, batch_logits, batch_numDraftTokens, temperaturesEq, batch_topK,
      batch_topP]

/-- The probabilities of a row's drafts. -/
theorem segment_draftProbs (ragged : inputs.Ragged) (inside : r < inputs.numDraftTokens.length)
    {temperatures : List ℝ} (given : inputs.temperatures = some temperatures) :
    Collections.segment (draftProbs
        (targetProbs sort inputs.logits inputs.numDraftTokens temperatures inputs.topK inputs.topP)
        (draftIndex inputs.numDraftTokens inputs.draftTokenIds.length) inputs.draftTokenIds)
        inputs.numDraftTokens r =
      List.zipWith (fun logits draft => (inputs.row r).probs sort logits draft)
        (inputs.row r).logits (inputs.row r).drafts := by
  obtain ⟨⟨row, found, targets⟩, probsEq⟩ := segment_probs sort ragged inside given
  obtain ⟨row', found', drafts, _⟩ := rows_eq ragged inside
  obtain rfl := Option.some.inj (found.symm.trans found')
  have read := (inputs.batch ragged).zipWith_index (fun p draft => p draft) 0
    (fun row => ((inputs.batch ragged).targets sort row).map Subtype.val)
    (by simp [DraftBatch.targets])
  rw [DraftBatch.index, batch_numDraftTokens, batch_draftTokenIds, ← DraftBatch.probs_eq] at read
  have own := DraftBatch.segment_rows found (fun row _ => show
    (List.zipWith (fun (p : Fin vocab → ℝ) draft => p draft)
      (((inputs.batch ragged).targets sort row).map Subtype.val) row.drafts).length =
        row.drafts.length by simp [DraftBatch.length_targets])
  rw [draftProbs, probsEq, read, ← batch_numDraftTokens ragged]
  refine own.trans ?_
  rw [targets, drafts, List.zipWith_map_left]

/-- The candidate the races of a row give for each of its positions. -/
theorem segment_sampled (ragged : inputs.Ragged) (inside : r < inputs.numDraftTokens.length)
    {temperatures : List ℝ} (given : inputs.temperatures = some temperatures) {k : Nat}
    (within : k ≤ inputs.numDraftTokens.getD r 0) :
    (Collections.segment (List.zipWith raceWinner (exclude
        (targetProbs sort inputs.logits inputs.numDraftTokens temperatures inputs.topK inputs.topP)
        (draftIndex inputs.numDraftTokens inputs.draftTokenIds.length) inputs.draftTokenIds)
        inputs.exponentials) (inputs.numDraftTokens.map (· + 1)) r).getD k 0 =
      raceWinner ((inputs.row r).weights sort k) ((inputs.row r).exponentials.getD k 0) := by
  obtain ⟨⟨row, found, targets⟩, probsEq⟩ := segment_probs sort ragged inside given
  obtain ⟨row', found', drafts, logits, _⟩ := rows_eq ragged inside
  obtain rfl := Option.some.inj (found.symm.trans found')
  have excluded := (inputs.batch ragged).exclude_eq sort
  rw [DraftBatch.index, batch_numDraftTokens, batch_draftTokenIds] at excluded
  have own := DraftBatch.segment_rows found (fun row _ => show
    (List.zipWith (fun p draft => Function.update p draft 0)
      (((inputs.batch ragged).targets sort row).map Subtype.val) row.drafts ++
      (((inputs.batch ragged).targets sort row).map Subtype.val).drop row.drafts.length).length =
        row.drafts.length + 1 by simp [DraftBatch.length_targets])
  have lens : (inputs.batch ragged).rows.map (fun row => row.drafts.length + 1) =
      inputs.numDraftTokens.map (· + 1) := by
    rw [← batch_numDraftTokens ragged, DraftBatch.numDraftTokens, List.map_map]
    rfl
  have draftsLen : (inputs.row r).drafts.length = inputs.numDraftTokens.getD r 0 := by
    rw [row_drafts inside, length_segment ragged.drafts inside]
  have logitsLen : (inputs.row r).logits.length = (inputs.row r).drafts.length + 1 := by
    rw [← logits, ← drafts, row.shape]
  have drawnLen : (inputs.row r).exponentials.length = (inputs.row r).drafts.length + 1 := by
    rw [row_exponentials inside, length_segment (by rw [ragged.exponentials, ragged.logits])
      (by simpa using inside), draftsLen]
    simp [List.getD_eq_getElem?_getD, inside]
  rw [segment_zipWith, probsEq, excluded, ← lens, own, lens, ← row_exponentials inside, targets,
    drafts, List.getD_eq_getElem?_getD, List.getElem?_zipWith]
  have drawn : (inputs.row r).exponentials[k]? = some ((inputs.row r).exponentials.getD k 0) := by
    rw [List.getD_eq_getElem?_getD, List.getElem?_eq_getElem (by omega)]
    rfl
  have position : (inputs.row r).logits[k]? = some ((inputs.row r).logits.getD k 0) := by
    rw [List.getD_eq_getElem?_getD, List.getElem?_eq_getElem (by omega)]
    rfl
  rw [drawn, Row.weights]
  by_cases drafted : k < (inputs.row r).drafts.length
  · have draft := List.getElem?_eq_getElem drafted
    rw [List.getElem?_append_left (by simp; omega), List.getElem?_zipWith, List.getElem?_map,
      position, draft]
    rfl
  · have last : k = (inputs.row r).drafts.length := by omega
    have none := List.getElem?_eq_none (Nat.not_lt.mp drafted)
    rw [List.getElem?_append_right (by simp; omega), none]
    have width : (List.zipWith (fun p draft => Function.update p draft 0)
        ((inputs.row r).logits.map ((inputs.row r).probs sort)) (inputs.row r).drafts).length =
        (inputs.row r).drafts.length := by
      simp [logitsLen]
    rw [width, List.getElem?_drop, last, Nat.sub_self, Nat.add_zero, ← last, List.getElem?_map,
      position]
    rfl

theorem length_draftIndex (lens : List Nat) : (draftIndex lens lens.sum).length = lens.sum := by
  simp [draftIndex, draftCols, draftRows, length_repeatEach_range]

theorem length_exclude (ragged : inputs.Ragged) {temperatures : List ℝ}
    (given : inputs.temperatures = some temperatures) (inside : r < inputs.numDraftTokens.length) :
    (exclude (targetProbs sort inputs.logits inputs.numDraftTokens temperatures inputs.topK
        inputs.topP) (draftIndex inputs.numDraftTokens inputs.draftTokenIds.length)
        inputs.draftTokenIds).length = inputs.logits.length := by
  rw [exclude, length_indexCopy, (segment_probs sort ragged inside given).2, DraftBatch.probs_eq,
    ← batch_logits ragged, DraftBatch.logits, List.length_flatMap, List.length_flatMap]
  simp [DraftBatch.targets]

/-- A row of the output is made of the row alone. -/
theorem getElem?_forward (ragged : inputs.Ragged) (inside : r < inputs.numDraftTokens.length) :
    (inputs.forward sort)[r]? = some ((inputs.row r).output sort inputs.maxNumDrafts) := by
  have matchedLen : (matchesGreedy (inputs.logits.map Sampler.argmax)
      (draftIndex inputs.numDraftTokens inputs.draftTokenIds.length)
      inputs.draftTokenIds).length = inputs.numDraftTokens.sum := by
    rw [matched_eq ragged, List.length_flatMap, ← batch_numDraftTokens ragged]
    exact congrArg List.sum (List.map_congr_left fun row _ => DraftBatch.length_matchesOf row)
  have greedyLen : (inputs.logits.map Sampler.argmax).length =
      (inputs.numDraftTokens.map (· + 1)).sum := by
    rw [List.length_map, ragged.logits]
  unfold forward
  cases given : inputs.temperatures with
  | none =>
      have cold : (inputs.row r).Greedy := Or.inl (by simp [row, given])
      refine output_of sort ragged inside matchedLen greedyLen ?_ ?_
      · rw [segment_matched ragged inside, Row.accepted, if_pos cold]
      · intro k within
        rw [segment_greedy ragged inside within, Row.candidate, if_pos cold]
  | some temperatures =>
      obtain ⟨row, found, drafts, logits, temperature, _⟩ := rows_eq ragged inside
      have temperaturesEq : (inputs.batch ragged).rows.map DraftRow.temperature =
          temperatures := by
        have batched := batch_temperatures ragged
        have warm : (inputs.batch ragged).withTemperatures = true := by simp [batch, given]
        rw [DraftBatch.temperatures, given, if_pos warm] at batched
        exact Option.some.inj batched
      have warm := temperature (by simp [given])
      have greedyIff : (inputs.row r).Greedy ↔ row.temperature = 0 := by
        simp [Row.Greedy, ← warm]
      have keptLen : (List.zipWith (fun uniform p => decide (uniform < p)) inputs.uniforms
          (draftProbs (targetProbs sort inputs.logits inputs.numDraftTokens temperatures
            inputs.topK inputs.topP) (draftIndex inputs.numDraftTokens
              inputs.draftTokenIds.length) inputs.draftTokenIds)).length =
          inputs.numDraftTokens.sum := by
        simp [draftProbs, ragged.drafts, ragged.uniforms, length_draftIndex]
      have sampledLen : (List.zipWith raceWinner (exclude (targetProbs sort inputs.logits
          inputs.numDraftTokens temperatures inputs.topK inputs.topP)
            (draftIndex inputs.numDraftTokens inputs.draftTokenIds.length) inputs.draftTokenIds)
            inputs.exponentials).length = (inputs.numDraftTokens.map (· + 1)).sum := by
        rw [List.length_zipWith, length_exclude sort ragged given inside, ragged.exponentials,
          Nat.min_self, ragged.logits]
      have acceptedEq := DraftBatch.segment_accepted found
        (by rw [batch_numDraftTokens]; exact keptLen)
      have candidatesEq := DraftBatch.segment_candidates found
        (by rw [batch_numDraftTokens]; exact sampledLen)
      rw [DraftBatch.index, batch_logits, batch_numDraftTokens, batch_draftTokenIds,
        temperaturesEq] at acceptedEq
      rw [batch_logits, batch_numDraftTokens, temperaturesEq] at candidatesEq
      have count := ragged.temperatures temperatures given
      have rowsLen := length_repeatEach_range inputs.numDraftTokens
      have temperaturesLen : (repeatEach temperatures (inputs.numDraftTokens.map (· + 1))).length =
          (inputs.numDraftTokens.map (· + 1)).sum := length_repeatEach (by simpa using count)
      refine output_of sort ragged inside ?_ ?_ ?_ ?_
      · rw [acceptedOf, List.length_zipWith, List.length_zip, List.length_map, draftRows, rowsLen,
          matchedLen, keptLen, Nat.min_self, Nat.min_self]
      · rw [candidatesOf, List.length_zipWith, List.length_zip, temperaturesLen, greedyLen,
          sampledLen, Nat.min_self, Nat.min_self]
      · rw [acceptedEq, DraftBatch.acceptedRow, segment_zipWith,
          segment_draftProbs sort ragged inside given, ← row_uniforms inside, Row.accepted]
        by_cases cold : row.temperature = 0
        · rw [if_pos cold, if_pos (greedyIff.mpr cold), DraftBatch.matchesOf, drafts, logits]
        · rw [if_neg cold, if_neg (mt greedyIff.mp cold)]
      · intro k within
        rw [candidatesEq, DraftBatch.candidatesRow, Row.candidate]
        by_cases cold : row.temperature = 0
        · rw [if_pos cold, if_pos (greedyIff.mpr cold), logits, row_logits inside, ← segment_map,
            segment_greedy ragged inside within, row_logits inside]
        · rw [if_neg cold, if_neg (mt greedyIff.mp cold),
            segment_sampled sort ragged inside given within]

theorem length_forward (inputs : Inputs vocab) :
    (inputs.forward sort).length = inputs.numDraftTokens.length := by
  have shape : ∀ (lens : List Nat) (maxNumDrafts : Nat) (drafts : List Token)
      (accepted : List Bool) (candidates : List Token),
      (output lens maxNumDrafts drafts accepted candidates).length = lens.length := by
    intro lens maxNumDrafts drafts accepted candidates
    simp [output, put, first, length_cumsum]
  unfold forward
  cases inputs.temperatures with
  | none => exact shape _ _ _ _ _
  | some temperatures => exact shape _ _ _ _ _

end Inputs

/-- The leading accepted drafts are accepted, and the next one is not. -/
theorem leading_spec (accepted : List Bool) :
    (∀ k < leading accepted, accepted[k]? = some true) ∧
      (leading accepted < accepted.length → accepted[leading accepted]? = some false) := by
  induction accepted with
  | nil => simp [leading]
  | cons accept accepted ih =>
      cases accept with
      | false => simp [leading]
      | true =>
          constructor
          · rintro (_ | k) within
            · rfl
            · exact ih.1 k (Nat.lt_of_succ_lt_succ within)
          · intro short
            exact ih.2 (Nat.lt_of_succ_lt_succ short)

theorem Row.length_tokens [NeZero vocab] (sort : RowSort vocab) {row : Row vocab}
    (few : row.numAccepted sort ≤ row.drafts.length) :
    (row.tokens sort).length = row.numAccepted sort + 1 := by
  rw [tokens, List.length_map, List.length_append, List.length_take_of_le few]
  rfl

/-- What `split_sampled` makes of one row with its new drafts. -/
theorem split_row {tokens : List (Fin vocab)} {newDrafts : List Token} {pad width : Nat}
    (whole : tokens.length + pad = width) :
    (((tokens.map tokenId ++ List.replicate pad placeholderTokenId) ++ newDrafts).take width).filter
        (0 ≤ ·) = tokens.map tokenId ∧
      ((tokens.map tokenId ++ List.replicate pad placeholderTokenId) ++ newDrafts).drop width =
        newDrafts := by
  have len : (tokens.map tokenId ++ List.replicate pad placeholderTokenId).length = width := by
    rw [List.length_append, List.length_map, List.length_replicate, whole]
  rw [List.take_left' len, List.drop_left' len]
  exact ⟨DraftBatch.filter_padded tokens pad, rfl⟩

namespace Inputs

variable [NeZero vocab] {sort : RowSort vocab} {inputs : Inputs vocab} {r : Nat}

theorem numAccepted_le (ragged : inputs.Ragged) (inside : r < inputs.numDraftTokens.length) :
    (inputs.row r).numAccepted sort ≤ (inputs.row r).drafts.length ∧
      ((inputs.row r).accepted sort).length = (inputs.row r).drafts.length := by
  obtain ⟨row, _, drafts, logits, _⟩ := rows_eq ragged inside
  have shape : (inputs.row r).logits.length = (inputs.row r).drafts.length + 1 := by
    rw [← logits, ← drafts, row.shape]
  have drawn : (inputs.row r).uniforms.length = (inputs.row r).drafts.length := by
    rw [row_uniforms inside, row_drafts inside, length_segment ragged.drafts inside,
      length_segment (by rw [ragged.uniforms, ragged.drafts]) inside]
  have len : ((inputs.row r).accepted sort).length = (inputs.row r).drafts.length := by
    unfold Row.accepted
    split <;> simp [shape, drawn]
  exact ⟨(leading_le _).trans_eq len, len⟩

/-- `split_sampled` reads back each row's tokens and its new drafts. -/
theorem splitSampled_forward (ragged : inputs.Ragged) {newDrafts : List (List Token)}
    (each : newDrafts.length = inputs.numDraftTokens.length) :
    ModelRunner.splitSampled (List.zipWith (· ++ ·) (inputs.forward sort) newDrafts)
        inputs.maxNumDrafts =
      ((List.range inputs.numDraftTokens.length).map fun r => (inputs.row r).tokens sort,
        newDrafts) := by
  have count := length_forward sort inputs
  have split : ∀ r (inside : r < inputs.numDraftTokens.length) (drafts : List Token),
      (((inputs.row r).output sort inputs.maxNumDrafts ++ drafts).take
          (inputs.maxNumDrafts + 1)).filter (0 ≤ ·) = (inputs.row r).tokens sort ∧
        ((inputs.row r).output sort inputs.maxNumDrafts ++ drafts).drop
          (inputs.maxNumDrafts + 1) = drafts := by
    intro r inside drafts
    have accepted := (numAccepted_le ragged inside : (inputs.row r).numAccepted sort ≤ _ ∧ _).1
    have few : (inputs.row r).drafts.length ≤ inputs.maxNumDrafts := by
      rw [row_drafts inside, length_segment ragged.drafts inside, List.getD_eq_getElem?_getD,
        List.getElem?_eq_getElem inside]
      exact ragged.few _ (List.getElem_mem inside)
    refine split_row ?_
    rw [← List.length_map tokenId, ← Row.tokens, Row.length_tokens sort accepted]
    omega
  unfold ModelRunner.splitSampled
  refine Prod.ext ?_ ?_
  · apply List.ext_getElem?
    intro r
    rw [List.getElem?_map, List.getElem?_zipWith, List.getElem?_map]
    by_cases inside : r < inputs.numDraftTokens.length
    · rw [getElem?_forward sort ragged inside, List.getElem?_eq_getElem (by omega),
        List.getElem?_range inside]
      exact congrArg some (split r inside _).1
    · rw [List.getElem?_eq_none (by omega), List.getElem?_eq_none (by omega),
        List.getElem?_eq_none (by simpa using inside)]
      rfl
  · apply List.ext_getElem?
    intro r
    rw [List.getElem?_map, List.getElem?_zipWith]
    by_cases inside : r < inputs.numDraftTokens.length
    · rw [getElem?_forward sort ragged inside, List.getElem?_eq_getElem (by omega)]
      exact congrArg some (split r inside _).2
    · rw [List.getElem?_eq_none (by omega), List.getElem?_eq_none (by omega)]
      rfl

end Inputs

/-- A row of the output is the row's leading accepted drafts, the candidate of the
logits behind them, and placeholders.  It reads nothing of another row, and
`split_sampled` gets the same tokens and drafts out of it. -/
theorem ragged_rows_verified [NeZero vocab] (sort : RowSort vocab) (inputs : Inputs vocab)
    (ragged : inputs.Ragged) :
    (inputs.forward sort).length = inputs.numDraftTokens.length ∧
    (∀ r < inputs.numDraftTokens.length, ∃ a ≤ inputs.numDraftTokens.getD r 0,
      (∀ k < a, ((inputs.row r).accepted sort)[k]? = some true) ∧
      (a < inputs.numDraftTokens.getD r 0 →
        ((inputs.row r).accepted sort)[a]? = some false) ∧
      (inputs.row r).logits.getD a 0 =
        inputs.logits.getD (((inputs.numDraftTokens.take r).map (· + 1)).sum + a) 0 ∧
      (inputs.forward sort)[r]? = some
        (((inputs.row r).drafts.take a ++ [(inputs.row r).candidate sort a]).map tokenId ++
          List.replicate (inputs.maxNumDrafts - a) placeholderTokenId) ∧
      ((inputs.row r).tokens sort).length = 1 + a) ∧
    (∀ (other : Inputs vocab) (r s : Nat), other.Ragged → r < inputs.numDraftTokens.length →
      s < other.numDraftTokens.length → other.row s = inputs.row r →
      other.maxNumDrafts = inputs.maxNumDrafts →
      (other.forward sort)[s]? = (inputs.forward sort)[r]?) ∧
    ∀ newDrafts : List (List Token), newDrafts.length = inputs.numDraftTokens.length →
      ModelRunner.splitSampled (List.zipWith (· ++ ·) (inputs.forward sort) newDrafts)
          inputs.maxNumDrafts =
        ((List.range inputs.numDraftTokens.length).map fun r => (inputs.row r).tokens sort,
          newDrafts) := by
  refine ⟨Inputs.length_forward sort inputs, ?_, ?_, ?_⟩
  · intro r inside
    obtain ⟨few, len⟩ :=
      (Inputs.numAccepted_le ragged inside : (inputs.row r).numAccepted sort ≤ _ ∧ _)
    have leads := leading_spec ((inputs.row r).accepted sort)
    have drafts : (inputs.row r).drafts.length = inputs.numDraftTokens.getD r 0 := by
      rw [Inputs.row_drafts inside, length_segment ragged.drafts inside]
    refine ⟨(inputs.row r).numAccepted sort, by omega, leads.1, ?_, ?_, ?_, ?_⟩
    · intro short
      exact leads.2 (by rw [len, drafts]; exact short)
    · have lenAt : (inputs.numDraftTokens.map (· + 1)).getD r 0 =
          inputs.numDraftTokens.getD r 0 + 1 := by
        simp [List.getD_eq_getElem?_getD, inside]
      rw [Inputs.row_logits inside, getD_segment _ _ _ (by omega),
        getD_cumsum (by simpa using inside.le), List.map_take]
    · exact Inputs.getElem?_forward sort ragged inside
    · rw [Row.length_tokens sort few, Nat.add_comm]
  · intro other r s otherRagged inside inside' same width
    rw [Inputs.getElem?_forward sort ragged inside, Inputs.getElem?_forward sort otherRagged inside',
      same, width]
  · intro newDrafts each
    exact Inputs.splitSampled_forward ragged each

/-- A row with one draft, and a row with none, which is greedy. -/
noncomputable def Inputs.sample : Inputs 2 where
  logits := [![0, 1], ![1, 0], ![0, 1]]
  draftTokenIds := [Fin.last 1]
  numDraftTokens := [1, 0]
  temperatures := some [1, 0]
  maxNumDrafts := 2
  topK := none
  topP := some [1, 1]
  uniforms := [1 / (2 : Nat)]
  exponentials := [![1, 1], ![1, (2 : Nat)], ![(2 : Nat), 1]]

theorem Inputs.sample_ragged : Inputs.sample.Ragged where
  few := by decide
  drafts := rfl
  logits := rfl
  temperatures values given := by rw [← Option.some.inj given]; rfl
  topK values given := by simp [sample] at given
  topP values given := by rw [← Option.some.inj given]; rfl
  uniforms := rfl
  exponentials := rfl

theorem ragged_rows_verified_sample :
    Inputs.sample.Ragged ∧ (Inputs.sample.forward (.stable 2)).length = 2 ∧
      ModelRunner.splitSampled
          (List.zipWith (· ++ ·) (Inputs.sample.forward (.stable 2)) [[0, 1], [1, 1]]) 2 =
        ([(Inputs.sample.row 0).tokens (.stable 2), (Inputs.sample.row 1).tokens (.stable 2)],
          [[0, 1], [1, 1]]) := by
  have verified := ragged_rows_verified (.stable 2) Inputs.sample Inputs.sample_ragged
  exact ⟨Inputs.sample_ragged, verified.1, verified.2.2.2 [[0, 1], [1, 1]] rfl⟩

end LeanVllm.RejectionSampler
