import LeanVllm.Engine.Sequence
import LeanVllm.Layers.Sampler
import LeanVllm.Probability.Draws

/-!
# The rejection sampler

`RejectionSampler.forward` in exact arithmetic.  The rows of a batch have
different numbers of drafts, so drafts and logits come as flat arrays, row after
row, and every index into them is computed from the counts.  The uniform draws
are one for each draft and the exponential races one for each row of logits, all
independent; a race is a draw in proportion to the weights, and index 0 when
every weight is zero.
-/

namespace LeanVllm.RejectionSampler

open Collections Probability

/-! ## Where the drafts of a batch stand -/

/-- The row of each draft. -/
def draftRows (numDraftTokens : List Nat) : List Nat :=
  repeatEach (List.range numDraftTokens.length) numDraftTokens

/-- The place of each draft in its row. -/
def draftCols (numDraftTokens : List Nat) (numDrafts : Nat) : List Nat :=
  List.zipWith (fun row k => k - (cumsum numDraftTokens).getD row 0) (draftRows numDraftTokens)
    (List.range numDrafts)

/-- Each row's first row of logits. -/
def first (numDraftTokens : List Nat) : List Nat :=
  cumsum (numDraftTokens.map (· + 1))

/-- The row of logits that verifies each draft. -/
def draftIndex (numDraftTokens : List Nat) (numDrafts : Nat) : List Nat :=
  List.zipWith (fun col row => (first numDraftTokens).getD row 0 + col)
    (draftCols numDraftTokens numDrafts) (draftRows numDraftTokens)

/-! ## The output -/

/-- `matrix[rows, cols] = values`. -/
def put {α : Type} (matrix : List (List α)) (rows cols : List Nat) (values : List α) :
    List (List α) :=
  modifyEach (fun write row => row.set write.1 write.2) matrix (rows.zip (cols.zip values))

/-- `keep.cumprod(dim=1).sum(dim=1)` for one row: how many entries come before the
first zero. -/
def numAccepted (keep : List Nat) : Nat :=
  (keep.scanl (· * ·) 1).tail.sum

/-- The end of `forward`: each row's drafts up to the first rejection, then its
candidate, padded with placeholders. -/
def output (numDraftTokens : List Nat) (maxNumDrafts : Nat) (draftTokenIds : List Token)
    (accepted : List Bool) (candidates : List Token) : List (List Token) :=
  let numRows := numDraftTokens.length
  let rows := draftRows numDraftTokens
  let cols := draftCols numDraftTokens draftTokenIds.length
  let keep := put (List.replicate numRows (List.replicate (maxNumDrafts + 1) 0)) rows cols
    (accepted.map fun accept => if accept then 1 else 0)
  let counts := keep.map numAccepted
  let output := put (List.replicate numRows
    (List.replicate (maxNumDrafts + 1) placeholderTokenId)) rows cols draftTokenIds
  let masked := List.zipWith (fun row count => row.mapIdx fun col token =>
    if count ≤ col then placeholderTokenId else token) output counts
  List.zipWith (fun row place =>
    row.set place.2 (candidates.getD (place.1 + place.2) placeholderTokenId)) masked
    ((first numDraftTokens).zip counts)

/-! ## The draws -/

section

variable {vocab : Nat} [NeZero vocab]

/-- The token id of an index of the vocabulary. -/
def tokenId (token : Fin vocab) : Token :=
  (token : Nat)

/-- `probs[draft_index, draft_token_ids] = 0`.  Each draft has a row of its own. -/
noncomputable def exclude (probs : List (Fin vocab → ℝ)) (draftIndex : List Nat)
    (draftTokenIds : List (Fin vocab)) : List (Fin vocab → ℝ) :=
  indexCopy probs draftIndex (List.zipWith (fun k draft =>
    Function.update (probs.getD k 0) draft 0) draftIndex draftTokenIds)

/-- Per-row values along the rows of logits. -/
def alongLogits {α : Type} (values : Option (List α)) (numLogits : List Nat) (count : Nat) :
    List (Option α) :=
  match values with
  | none => List.replicate count none
  | some values => (repeatEach values numLogits).map some

/-- `probs` of `forward`: the target probabilities of every row of logits. -/
noncomputable def targetProbs (sort : RowSort vocab) (logits : List (Fin vocab → ℝ))
    (numDraftTokens : List Nat) (temperatures : List ℝ) (topK : Option (List Int))
    (topP : Option (List ℝ)) : List (Fin vocab → ℝ) :=
  let numLogits := numDraftTokens.map (· + 1)
  List.zipWith (fun row filter => Sampler.probs sort row.1 row.2 filter.1 filter.2)
    (logits.zip (repeatEach temperatures numLogits))
    ((alongLogits topK numLogits logits.length).zip (alongLogits topP numLogits logits.length))

/-- `probs[draft_index, draft_token_ids]`. -/
noncomputable def draftProbs (probs : List (Fin vocab → ℝ)) (draftIndex : List Nat)
    (draftTokenIds : List (Fin vocab)) : List ℝ :=
  List.zipWith (fun k draft => probs.getD k 0 draft) draftIndex draftTokenIds

/-- Whether each draft is the argmax of its row of logits. -/
noncomputable def matchesGreedy (greedy : List (Fin vocab)) (draftIndex : List Nat)
    (draftTokenIds : List (Fin vocab)) : List Bool :=
  List.zipWith (fun k draft => decide (greedy.getD k 0 = draft)) draftIndex draftTokenIds

/-- `accepted` for a batch that samples: a greedy row keeps what matches, another row
what its uniform draws keep. -/
def acceptedOf (isGreedy matched kept : List Bool) : List Bool :=
  List.zipWith (fun row keep => if row.1 then row.2 else keep) (isGreedy.zip matched) kept

/-- `candidates` for a batch that samples. -/
noncomputable def candidatesOf (rowTemperatures : List ℝ) (greedy sampled : List (Fin vocab)) :
    List (Fin vocab) :=
  List.zipWith (fun row sample => if row.1 = 0 then row.2 else sample)
    (rowTemperatures.zip greedy) sampled

/-- `RejectionSampler.forward`. -/
noncomputable def forward (sort : RowSort vocab) (logits : List (Fin vocab → ℝ))
    (draftTokenIds : List (Fin vocab)) (numDraftTokens : List Nat)
    (temperatures : Option (List ℝ)) (maxNumDrafts : Nat) (topK : Option (List Int))
    (topP : Option (List ℝ)) : PMF (List (List Token)) :=
  let index := draftIndex numDraftTokens draftTokenIds.length
  let greedy := logits.map Sampler.argmax
  let matched := matchesGreedy greedy index draftTokenIds
  match temperatures with
  | none =>
      PMF.pure (output numDraftTokens maxNumDrafts (draftTokenIds.map tokenId) matched
        (greedy.map tokenId))
  | some temperatures =>
      let probs := targetProbs sort logits numDraftTokens temperatures topK topP
      let isGreedy := (draftRows numDraftTokens).map fun row => decide (temperatures.getD row 0 = 0)
      (drawEach ((draftProbs probs index draftTokenIds).map below)).bind fun kept =>
        (drawEach ((exclude probs index draftTokenIds).map (race 0))).map fun sampled =>
          output numDraftTokens maxNumDrafts (draftTokenIds.map tokenId)
            (acceptedOf isGreedy matched kept)
            ((candidatesOf (repeatEach temperatures (numDraftTokens.map (· + 1))) greedy
              sampled).map tokenId)

end

end LeanVllm.RejectionSampler
