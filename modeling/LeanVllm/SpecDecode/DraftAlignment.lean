import LeanVllm.Engine.MoveBack
import LeanVllm.SpecDecode.MtpProposer

/-!
# The drafter lines up with the target

Rows are laid end to end, so the one roll of the first pass is right inside a row
and brings a neighbour's token to its last place.  The two scatters write there:
for a row that does not sample, the prompt's next token at the row's last place; for
one that samples, the sampled token at its last kept place.  What a row rejected
stands after that place, and is read by nobody.
-/

namespace LeanVllm

open Collections

namespace RankBatch

open ModelRunner

variable {cfg : Config} {decodesLatents : Bool} {runner : ModelRunner}
  {settings : SeqId → SamplerSettings} {heap : SeqId → Sequence} {ids : List SeqId}
  {rows : BatchRows} {host start : SeqId → Nat} {i j : SeqId} {o p : Nat}

/-! ## Flat positions -/

/-- The flat position of the `o`-th token of a sequence's row. -/
def flatIndex (rows : BatchRows) (i : SeqId) (o : Nat) : Nat :=
  (cumsum rows.lens).getD (rows.batch.idxOf i) 0 + o

theorem getElem?_idxOf {batch : List SeqId} (member : i ∈ batch) :
    batch[batch.idxOf i]? = some i := by
  rw [List.getElem?_eq_getElem (List.idxOf_lt_length_iff.mpr member), List.getElem_idxOf]

theorem getElem?_flatIndex (orders : rows.Orders heap ids) (member : i ∈ rows.batch)
    (inside : o < (heap i).numScheduledTokens) :
    (tokensOf heap rows.batch)[flatIndex rows i o]? = some (i, o) :=
  getElem?_tokensOf orders (getElem?_idxOf member) inside

theorem flatIndex_inj (orders : rows.Orders heap ids) (member : i ∈ rows.batch)
    (other : j ∈ rows.batch) (inside : o < (heap i).numScheduledTokens)
    (within : p < (heap j).numScheduledTokens)
    (same : flatIndex rows i o = flatIndex rows j p) : i = j ∧ o = p := by
  have first := getElem?_flatIndex orders member inside
  rw [same, getElem?_flatIndex orders other within] at first
  exact Prod.mk.inj (Option.some.inj first.symm)

theorem tokensOf_nodup (distinct : rows.batch.Nodup) : (tokensOf heap rows.batch).Nodup := by
  rw [tokensOf, List.nodup_flatMap]
  refine ⟨fun i _ => List.nodup_range.map fun o p same => (Prod.mk.inj same).2, ?_⟩
  refine distinct.imp ?_
  intro i j different token first second
  obtain ⟨_, _, rfl⟩ := List.mem_map.mp first
  obtain ⟨_, _, same⟩ := List.mem_map.mp second
  exact different (Prod.mk.inj same).1.symm

/-- Every token of a batch stands at its flat position and at no other. -/
theorem Arranges.flatIndex_of_getElem? (arranges : Arranges rows heap ids)
    (found : (tokensOf heap rows.batch)[p]? = some (i, o)) :
    i ∈ rows.batch ∧ o < (heap i).numScheduledTokens ∧ p = flatIndex rows i o := by
  have member := List.mem_of_getElem? found
  rw [tokensOf, List.mem_flatMap] at member
  obtain ⟨j, among, own⟩ := member
  obtain ⟨q, within, same⟩ := List.mem_map.mp own
  obtain ⟨rfl, rfl⟩ := Prod.mk.inj same
  have inside := List.mem_range.mp within
  refine ⟨among, inside, ?_⟩
  have nodup : (tokensOf heap rows.batch).Nodup :=
    tokensOf_nodup (arranges.perm.nodup_iff.mpr arranges.distinct)
  exact (List.getElem?_inj (List.getElem?_eq_some_iff.mp found).1 nodup).mp
    (found.trans (getElem?_flatIndex arranges.toOrders among inside).symm)

/-- The entry of `last_index` for a sequence's row. -/
theorem getD_lastIndex (orders : rows.Orders heap ids) (member : i ∈ rows.batch)
    (some : 0 < (heap i).numScheduledTokens) :
    ((cumsum rows.lens).tail.map fun stop : Nat => (stop : Int) - 1).getD
        (rows.batch.idxOf i) 0 =
      (flatIndex rows i ((heap i).numScheduledTokens - 1) : Nat) := by
  have own := getElem?_idxOf member
  have inside : rows.batch.idxOf i < rows.lens.length := by
    rw [orders.lens, List.length_map]
    exact List.idxOf_lt_length_iff.mpr member
  have len : rows.lens.getD (rows.batch.idxOf i) 0 = (heap i).numScheduledTokens := by
    rw [orders.lens, List.getD_eq_getElem?_getD, List.getElem?_map, own]
    rfl
  have stop := getD_cumsum_succ inside
  have long : rows.batch.idxOf i + 1 < (cumsum rows.lens).length := by
    rw [length_cumsum]
    omega
  have entry : ((cumsum rows.lens).tail.map fun stop : Nat => (stop : Int) - 1).getD
      (rows.batch.idxOf i) 0 = ((cumsum rows.lens).getD (rows.batch.idxOf i + 1) 0 : Int) - 1 := by
    simp [List.getD_eq_getElem?_getD, long]
  rw [entry, stop, len, flatIndex]
  omega

/-! ## What the drafter gets -/

/-- The drafter's inputs for a batch whose rows start at `host` for the host and at
`start` on the device. -/
def drafterAt (runner : ModelRunner) (heap : SeqId → Sequence) (rows : BatchRows)
    (host start : SeqId → Nat) : DraftInputs :=
  let len := fun i => (heap i).numScheduledTokens
  let cuQ := cumsum rows.lens
  let samplingRows := gather rows.rowOf 0 rows.sampling
  { inputIds := rows.batch.flatMap fun i => runner.deviceIds i (heap i)
    positions := rows.batch.flatMap fun i => (List.range (len i)).map (start i + ·)
    maxPosition :=
      (gather (rows.batch.flatMap fun i => (List.range (len i)).map (host i + ·)) 0
        (gather (cuQ.tail.map (· - 1)) 0 samplingRows)).foldl max 0
    lastIndex := cuQ.tail.map fun stop : Nat => (stop : Int) - 1
    nextTokenIds := rows.batch.map fun i => nextTokenOf (heap i) (host i + len i)
    samplingRows := samplingRows
    numDraftTokens := rows.samplingDrafts
    blockTable := paddedTables (rows.batch.map fun i => (heap i).blockTable) }

theorem inputsAt_draftInputs (orders : rows.Orders heap ids)
    (speculates : cfg.numSpeculativeTokens ≠ 0) :
    (inputsAt cfg runner settings heap ids rows host start).draftInputs =
      some (drafterAt runner heap rows host start) := by
  simp only [inputsAt, drafterAt, if_neg speculates, orders.lens]

/-- Rows that all have something to compute. -/
def Positive (heap : SeqId → Sequence) (ids : List SeqId) : Prop :=
  ∀ i ∈ ids, 0 < (heap i).numScheduledTokens

theorem Arranges.lastIndex_eq (arranges : Arranges rows heap ids) (positive : Positive heap ids) :
    ((cumsum rows.lens).tail.map fun stop : Nat => (stop : Int) - 1) =
      rows.batch.map fun i => ((flatIndex rows i ((heap i).numScheduledTokens - 1) : Nat) : Int) := by
  have nodup := arranges.perm.nodup_iff.mpr arranges.distinct
  apply List.ext_getElem
  · simp [length_cumsum, arranges.lens]
  · intro r inside within
    rw [List.length_map] at within
    have member := List.getElem_mem within
    have entry := getD_lastIndex arranges.toOrders member (positive _ (arranges.mem member))
    rw [nodup.idxOf_getElem r within, List.getD_eq_getElem?_getD, List.getElem?_eq_getElem inside,
      Option.getD_some] at entry
    rw [entry, List.getElem_map]

/-- The sampling rows' entries of an array over the batch. -/
theorem Arranges.gather_samplingRows {α : Type} (arranges : Arranges rows heap ids)
    (f : SeqId → α) (first : α) :
    gather (rows.batch.map f) first (gather rows.rowOf 0 rows.sampling) =
      (ids.filter fun i => decide (heap i).Samples).map f := by
  rw [← arranges.toOrders.samplingRows, gather, gather, gather, List.map_map, List.map_map]
  apply List.map_congr_left
  intro k member
  rw [arranges.sampling, List.mem_filter, List.mem_range] at member
  have here : ids[k]? = some (ids.getD k 0) := by simp [List.getD_eq_getElem?_getD, member.1]
  obtain ⟨rowEq, own⟩ := arranges.toOrders.rowOf_eq arranges.distinct here
  simp only [Function.comp_apply]
  rw [rowEq, List.getD_eq_getElem?_getD, List.getElem?_map, own]
  rfl

/-- The entries of an array over the batch at the rows that do not sample. -/
theorem gather_notSampling {α : Type} {next : SeqId → Token}
    (marks : ∀ i ∈ rows.batch, (0 ≤ next i ↔ ¬ (heap i).Samples)) (f : SeqId → α) (first : α) :
    gather (rows.batch.map f) first ((List.range (rows.batch.map next).length).filter fun r =>
        0 ≤ (rows.batch.map next).getD r (-1)) =
      (rows.batch.filter fun i => decide ¬ (heap i).Samples).map f := by
  have chosen : ((List.range (rows.batch.map next).length).filter fun r =>
      0 ≤ (rows.batch.map next).getD r (-1)) =
      (List.range rows.batch.length).filter fun r =>
        decide ¬ (heap (rows.batch.getD r 0)).Samples := by
    rw [List.length_map]
    apply List.filter_congr
    intro r member
    have inside := List.mem_range.mp member
    have entry : (rows.batch.map next).getD r (-1) = next (rows.batch.getD r 0) := by
      simp [List.getD_eq_getElem?_getD, inside]
    have among : rows.batch.getD r 0 ∈ rows.batch := by
      simp [List.getD_eq_getElem?_getD, inside]
    rw [entry]
    exact decide_eq_decide.mpr (marks _ among)
  rw [chosen]
  refine Eq.trans (gather_map ?_)
    (congrArg (List.map f) (gather_filter fun i => decide ¬ (heap i).Samples))
  intro r member
  exact List.mem_range.mp (List.mem_of_mem_filter member)

/-- The offset of a sampling row's last kept token: the drafts it did not keep come
after it. -/
def lastKept (seq : Sequence) (numAccepted : Nat) : Nat :=
  seq.numScheduledTokens - 1 - rowDrafts seq + numAccepted

/-- What a batch must be for the drafter: rows with tokens, drafts inside their rows
and no committed `-1`. -/
structure Drafted (heap : SeqId → Sequence) (ids : List SeqId) (host : SeqId → Nat) : Prop where
  positive : Positive heap ids
  enough : ∀ i ∈ ids, (heap i).Samples → rowDrafts (heap i) + 1 ≤ (heap i).numScheduledTokens
  next : ∀ i ∈ ids, ¬ (heap i).Samples →
    (heap i).tokenIds[host i + (heap i).numScheduledTokens]? =
        some (nextTokenOf (heap i) (host i + (heap i).numScheduledTokens)) ∧
      0 ≤ nextTokenOf (heap i) (host i + (heap i).numScheduledTokens)

/-- Where the first pass writes the tokens after the rows that do not sample. -/
theorem Drafted.fixedIndex_eq (drafted : Drafted heap ids host) (arranges : Arranges rows heap ids)
    (runner : ModelRunner) (start : SeqId → Nat) (n : Nat) :
    let inputs := drafterAt runner heap rows host start
    let notSampling := (List.range inputs.nextTokenIds.length).filter fun r =>
      0 ≤ inputs.nextTokenIds.getD r (-1)
    (gather inputs.lastIndex 0 notSampling).map (MTPProposer.indexInto n) =
        ((rows.batch.filter fun i => decide ¬ (heap i).Samples).map fun i =>
          flatIndex rows i ((heap i).numScheduledTokens - 1)) ∧
      gather inputs.nextTokenIds (-1) notSampling =
        (rows.batch.filter fun i => decide ¬ (heap i).Samples).map fun i =>
          nextTokenOf (heap i) (host i + (heap i).numScheduledTokens) := by
  have marks : ∀ i ∈ rows.batch,
      (0 ≤ nextTokenOf (heap i) (host i + (heap i).numScheduledTokens) ↔
        ¬ (heap i).Samples) := by
    intro i member
    constructor
    · intro token samples
      simp [nextTokenOf, samples] at token
    · exact fun silent => (drafted.next i (arranges.mem member) silent).2
  constructor
  · have gathered := gather_notSampling marks
      (fun i => ((flatIndex rows i ((heap i).numScheduledTokens - 1) : Nat) : Int)) 0
    rw [← arranges.lastIndex_eq drafted.positive] at gathered
    refine Eq.trans (congrArg (List.map (MTPProposer.indexInto n)) gathered) ?_
    rw [List.map_map]
    apply List.map_congr_left
    intro i _
    simp [MTPProposer.indexInto]
  · exact gather_notSampling marks _ _

/-- Where it reads the sampling rows' hidden states. -/
theorem Drafted.sampleIndex_eq (drafted : Drafted heap ids host)
    (arranges : Arranges rows heap ids) (runner : ModelRunner) (start : SeqId → Nat)
    (numAccepted : List Nat) (n : Nat) :
    let inputs := drafterAt runner heap rows host start
    ((List.zipWith (fun first (kept : Nat) => first + (kept : Int))
        (List.zipWith (fun last (drafts : Nat) => last - (drafts : Int))
          (gather inputs.lastIndex 0 inputs.samplingRows) inputs.numDraftTokens)
        numAccepted).map (MTPProposer.indexInto n)) =
      List.zipWith (fun i kept => flatIndex rows i (lastKept (heap i) kept))
        (ids.filter fun i => decide (heap i).Samples) numAccepted := by
  simp only [drafterAt]
  rw [arranges.lastIndex_eq drafted.positive, arranges.gather_samplingRows,
    arranges.toOrders.samplingDrafts, List.zipWith_map, List.zipWith_self, List.zipWith_map_left,
    List.map_zipWith]
  apply List.ext_getElem
  · simp
  · intro r inside _
    simp only [List.length_zipWith, Nat.lt_min] at inside
    obtain ⟨among, samples⟩ := List.mem_filter.mp (List.getElem_mem inside.1)
    have fits := drafted.enough _ among (of_decide_eq_true samples)
    simp only [List.getElem_zipWith]
    generalize (ids.filter fun i => decide (heap i).Samples)[r] = i at fits
    generalize numAccepted[r] = kept
    have shifted : ((flatIndex rows i ((heap i).numScheduledTokens - 1) : Nat) : Int) -
        (rowDrafts (heap i) : Int) + (kept : Int) =
        (flatIndex rows i (lastKept (heap i) kept) : Nat) := by
      simp only [flatIndex, lastKept]
      omega
    rw [shifted]
    simp [MTPProposer.indexInto]

/-! ## The first pass -/

section FirstPass

variable {numAccepted : List Nat} {nextTokenIds : List Token} {r kept : Nat}

/-- The sequences that sample, in scheduler order. -/
def sampled (heap : SeqId → Sequence) (ids : List SeqId) : List SeqId :=
  ids.filter fun i => decide (heap i).Samples

/-- Acceptance counts: one for each sampling row, at most its drafts. -/
def Accepts (heap : SeqId → Sequence) (ids : List SeqId) (numAccepted : List Nat) : Prop :=
  List.Forall₂ (fun i kept => kept ≤ rowDrafts (heap i)) (sampled heap ids) numAccepted

/-- Where the first pass writes the sampled tokens. -/
def sampleIndex (rows : BatchRows) (heap : SeqId → Sequence) (ids : List SeqId)
    (numAccepted : List Nat) : List Nat :=
  List.zipWith (fun i kept => flatIndex rows i (lastKept (heap i) kept)) (sampled heap ids)
    numAccepted

/-- Where it writes the tokens after prompt chunks. -/
def fixedIndex (rows : BatchRows) (heap : SeqId → Sequence) : List Nat :=
  (rows.batch.filter fun i => decide ¬ (heap i).Samples).map fun i =>
    flatIndex rows i ((heap i).numScheduledTokens - 1)

theorem Accepts.lastKept_lt (accepts : Accepts heap ids numAccepted)
    (drafted : Drafted heap ids host) (row : (sampled heap ids)[r]? = some i)
    (count : numAccepted[r]? = some kept) :
    i ∈ ids ∧ (heap i).Samples ∧ kept ≤ rowDrafts (heap i) ∧
      lastKept (heap i) kept < (heap i).numScheduledTokens := by
  obtain ⟨among, samples⟩ := List.mem_filter.mp (List.mem_of_getElem? row)
  have fits := drafted.enough i among (of_decide_eq_true samples)
  obtain ⟨inside, rfl⟩ := List.getElem?_eq_some_iff.mp row
  obtain ⟨within, rfl⟩ := List.getElem?_eq_some_iff.mp count
  have few := (List.forall₂_iff_get.mp accepts).2 r inside within
  simp only [List.get_eq_getElem] at few
  refine ⟨among, of_decide_eq_true samples, few, ?_⟩
  simp only [lastKept]
  omega

theorem getElem?_sampleIndex (row : (sampled heap ids)[r]? = some i)
    (count : numAccepted[r]? = some kept) :
    (sampleIndex rows heap ids numAccepted)[r]? =
      some (flatIndex rows i (lastKept (heap i) kept)) := by
  rw [sampleIndex, List.getElem?_zipWith, row, count]

/-- The places of the sampled tokens are those of last kept tokens. -/
theorem mem_sampleIndex (member : p ∈ sampleIndex rows heap ids numAccepted) :
    ∃ (r : Nat) (i : SeqId) (kept : Nat), (sampled heap ids)[r]? = some i ∧
      numAccepted[r]? = some kept ∧ p = flatIndex rows i (lastKept (heap i) kept) := by
  obtain ⟨r, inside, rfl⟩ := List.mem_iff_getElem.mp member
  simp only [sampleIndex, List.length_zipWith, Nat.lt_min] at inside
  exact ⟨r, _, _, List.getElem?_eq_getElem inside.1, List.getElem?_eq_getElem inside.2, by
    simp [sampleIndex]⟩

theorem Arranges.sampleIndex_nodup (arranges : Arranges rows heap ids)
    (drafted : Drafted heap ids host) (accepts : Accepts heap ids numAccepted) :
    (sampleIndex rows heap ids numAccepted).Nodup := by
  have distinct : (sampled heap ids).Nodup := arranges.distinct.filter _
  rw [List.nodup_iff_getElem?_ne_getElem?]
  intro r t before inside same
  simp only [sampleIndex, List.length_zipWith, Nat.lt_min] at inside
  have row : (sampled heap ids)[r]? = some (sampled heap ids)[r] := List.getElem?_eq_getElem _
  have count : numAccepted[r]? = some numAccepted[r] := List.getElem?_eq_getElem _
  have row' := List.getElem?_eq_getElem inside.1
  have count' := List.getElem?_eq_getElem inside.2
  rw [getElem?_sampleIndex row count, getElem?_sampleIndex row' count'] at same
  obtain ⟨among, _, _, below⟩ := accepts.lastKept_lt drafted row count
  obtain ⟨among', _, _, below'⟩ := accepts.lastKept_lt drafted row' count'
  have equal := (flatIndex_inj arranges.toOrders (arranges.perm.mem_iff.mpr among)
    (arranges.perm.mem_iff.mpr among') below below' (Option.some.inj same)).1
  exact absurd ((distinct.getElem_inj_iff).mp equal) (Nat.ne_of_lt before)

theorem Arranges.fixedIndex_nodup (arranges : Arranges rows heap ids)
    (drafted : Drafted heap ids host) : (fixedIndex rows heap).Nodup := by
  have distinct := (arranges.perm.nodup_iff.mpr arranges.distinct).filter
    fun i => decide ¬ (heap i).Samples
  refine distinct.map_on ?_
  intro i member j other same
  have first := List.mem_of_mem_filter member
  have second := List.mem_of_mem_filter other
  have some := drafted.positive i (arranges.mem first)
  have some' := drafted.positive j (arranges.mem second)
  exact (flatIndex_inj arranges.toOrders first second (by omega) (by omega) same).1

/-- The input ids of the first pass. -/
def firstIds (runner : ModelRunner) (heap : SeqId → Sequence) (ids : List SeqId)
    (rows : BatchRows) (host : SeqId → Nat) (numAccepted : List Nat)
    (nextTokenIds : List Token) : List Token :=
  indexCopy
    (indexCopy ((rows.batch.flatMap fun i => runner.deviceIds i (heap i)).rotate 1)
      (fixedIndex rows heap)
      ((rows.batch.filter fun i => decide ¬ (heap i).Samples).map fun i =>
        nextTokenOf (heap i) (host i + (heap i).numScheduledTokens)))
    (sampleIndex rows heap ids numAccepted) nextTokenIds

/-- The input at a flat position. -/
theorem Scheduled.getElem?_inputIds (scheduled : Scheduled cfg runner heap ids)
    (holds : runner.Holds cfg) (arranges : Arranges rows heap ids) (member : i ∈ rows.batch)
    (inside : o < (heap i).numScheduledTokens) :
    (rows.batch.flatMap fun i => runner.deviceIds i (heap i))[flatIndex rows i o]? =
      inputToken runner i (heap i) o := by
  have tokens := deviceIds_tokensOf scheduled.toFits holds scheduled.frontier arranges
  have read := congrArg (fun values => values[flatIndex rows i o]?) tokens
  simp only [List.getElem?_map, getElem?_flatIndex arranges.toOrders member inside,
    Option.map_some] at read
  obtain ⟨value, found, own⟩ := Option.map_eq_some_iff.mp read
  rw [found, own]

theorem Scheduled.length_inputIds (scheduled : Scheduled cfg runner heap ids)
    (holds : runner.Holds cfg) (arranges : Arranges rows heap ids) :
    (rows.batch.flatMap fun i => runner.deviceIds i (heap i)).length =
      (tokensOf heap rows.batch).length := by
  have tokens := deviceIds_tokensOf scheduled.toFits holds scheduled.frontier arranges
  simpa using congrArg List.length tokens

/-- Inside a row the roll brings each token beside the next. -/
theorem Scheduled.getElem?_rolled (scheduled : Scheduled cfg runner heap ids)
    (holds : runner.Holds cfg) (arranges : Arranges rows heap ids) (member : i ∈ rows.batch)
    (inside : o + 1 < (heap i).numScheduledTokens) :
    ((rows.batch.flatMap fun i => runner.deviceIds i (heap i)).rotate 1)[flatIndex rows i o]? =
      inputToken runner i (heap i) (o + 1) := by
  have next := getElem?_flatIndex arranges.toOrders member inside
  have small := (List.getElem?_eq_some_iff.mp next).1
  rw [← scheduled.length_inputIds holds arranges] at small
  have step : flatIndex rows i (o + 1) = flatIndex rows i o + 1 := rfl
  rw [List.getElem?_rotate (by omega), ← step, Nat.mod_eq_of_lt small]
  exact scheduled.getElem?_inputIds holds arranges member inside

/-- The two scatters do not meet a kept token of a row that is not their own. -/
theorem Arranges.notMem_fixedIndex (arranges : Arranges rows heap ids)
    (drafted : Drafted heap ids host) (member : i ∈ rows.batch)
    (inside : o < (heap i).numScheduledTokens)
    (other : (heap i).Samples ∨ o + 1 < (heap i).numScheduledTokens) :
    flatIndex rows i o ∉ fixedIndex rows heap := by
  intro among
  obtain ⟨j, found, same⟩ := List.mem_map.mp among
  obtain ⟨row, silent⟩ := List.mem_filter.mp found
  have some := drafted.positive j (arranges.mem row)
  obtain ⟨rfl, last⟩ := flatIndex_inj arranges.toOrders row member (by omega) inside same
  rcases other with samples | short
  · exact of_decide_eq_true silent samples
  · omega

theorem Arranges.notMem_sampleIndex (arranges : Arranges rows heap ids)
    (drafted : Drafted heap ids host) (accepts : Accepts heap ids numAccepted)
    (member : i ∈ rows.batch) (inside : o < (heap i).numScheduledTokens)
    (other : ∀ r kept : Nat, (sampled heap ids)[r]? = some i → numAccepted[r]? = some kept →
      o ≠ lastKept (heap i) kept) :
    flatIndex rows i o ∉ sampleIndex rows heap ids numAccepted := by
  intro among
  obtain ⟨r, j, kept, row, count, same⟩ := mem_sampleIndex among
  obtain ⟨known, _, _, below⟩ := accepts.lastKept_lt drafted row count
  obtain ⟨rfl, last⟩ := flatIndex_inj arranges.toOrders member (arranges.perm.mem_iff.mpr known)
    inside below same
  exact other r kept row count last

theorem Scheduled.fixedIndex_lt (scheduled : Scheduled cfg runner heap ids)
    (holds : runner.Holds cfg) (arranges : Arranges rows heap ids)
    (drafted : Drafted heap ids host) : ∀ q ∈ fixedIndex rows heap,
      q < ((rows.batch.flatMap fun i => runner.deviceIds i (heap i)).rotate 1).length := by
  intro q among
  obtain ⟨j, found, rfl⟩ := List.mem_map.mp among
  have row := List.mem_of_mem_filter found
  have place := getElem?_flatIndex arranges.toOrders row
    (Nat.sub_lt (drafted.positive j (arranges.mem row)) Nat.one_pos)
  rw [List.length_rotate, scheduled.length_inputIds holds arranges]
  exact (List.getElem?_eq_some_iff.mp place).1

theorem Scheduled.sampleIndex_lt (scheduled : Scheduled cfg runner heap ids)
    (holds : runner.Holds cfg) (arranges : Arranges rows heap ids)
    (drafted : Drafted heap ids host) (accepts : Accepts heap ids numAccepted) :
    ∀ q ∈ sampleIndex rows heap ids numAccepted,
      q < (rows.batch.flatMap fun i => runner.deviceIds i (heap i)).length := by
  intro q among
  obtain ⟨r, i, kept, row, count, rfl⟩ := mem_sampleIndex among
  obtain ⟨known, _, _, below⟩ := accepts.lastKept_lt drafted row count
  have place := getElem?_flatIndex arranges.toOrders (arranges.perm.mem_iff.mpr known) below
  rw [scheduled.length_inputIds holds arranges]
  exact (List.getElem?_eq_some_iff.mp place).1

/-- At every token of a prompt chunk that does not sample, the first pass has the
prompt's next token. -/
theorem Scheduled.firstIds_unsampled (scheduled : Scheduled cfg runner heap ids)
    (holds : runner.Holds cfg) (arranges : Arranges rows heap ids)
    (drafted : Drafted heap ids host) (starts : Starts heap ids host)
    (accepts : Accepts heap ids numAccepted) (member : i ∈ rows.batch)
    (silent : ¬ (heap i).Samples) (inside : o < (heap i).numScheduledTokens) :
    (firstIds runner heap ids rows host numAccepted nextTokenIds)[flatIndex rows i o]? =
      (heap i).tokenIds[(heap i).numCachedTokens + (o + 1)]? := by
  have known := arranges.mem member
  have prefill : (heap i).isPrefill = true := by
    by_contra decoding
    exact silent (scheduled.toFits.samples i known (by simpa using decoding))
  rw [firstIds, getElem?_indexCopy_of_not_mem]
  · by_cases last : o + 1 < (heap i).numScheduledTokens
    · rw [getElem?_indexCopy_of_not_mem
        (arranges.notMem_fixedIndex drafted member inside (.inr last)),
        scheduled.getElem?_rolled holds arranges member last, inputToken, if_pos prefill]
    · have stop : o + 1 = (heap i).numScheduledTokens := by omega
      obtain ⟨next, _⟩ := drafted.next i known silent
      rw [starts.prompt i known prefill] at next
      rw [stop, next]
      obtain ⟨k, row⟩ := List.mem_iff_getElem?.mp
        (List.mem_filter.mpr ⟨member, decide_eq_true silent⟩ :
          i ∈ rows.batch.filter fun i => decide ¬ (heap i).Samples)
      have place : (fixedIndex rows heap)[k]? = some (flatIndex rows i o) := by
        rw [fixedIndex, List.getElem?_map, row, Option.map_some, ← stop, Nat.add_sub_cancel]
      refine getElem?_indexCopy (arranges.fixedIndex_nodup drafted)
        (scheduled.fixedIndex_lt holds arranges drafted) place ?_
      rw [List.getElem?_map, row, Option.map_some, starts.prompt i known prefill]
  · refine arranges.notMem_sampleIndex drafted accepts member inside ?_
    intro r kept row _
    exact absurd (of_decide_eq_true (List.mem_filter.mp (List.mem_of_getElem? row)).2) silent

/-- At every kept token of a row that samples, the first pass has the row's next
input, and at the last one the sampled token. -/
theorem Scheduled.firstIds_sampled (scheduled : Scheduled cfg runner heap ids)
    (holds : runner.Holds cfg) (arranges : Arranges rows heap ids)
    (drafted : Drafted heap ids host) (accepts : Accepts heap ids numAccepted)
    (row : (sampled heap ids)[r]? = some i) (count : numAccepted[r]? = some kept) :
    (∀ o < lastKept (heap i) kept,
        (firstIds runner heap ids rows host numAccepted nextTokenIds)[flatIndex rows i o]? =
          inputToken runner i (heap i) (o + 1)) ∧
      ∀ token, nextTokenIds[r]? = some token →
        (firstIds runner heap ids rows host numAccepted nextTokenIds)[
          flatIndex rows i (lastKept (heap i) kept)]? = some token := by
  obtain ⟨known, samples, few, below⟩ := accepts.lastKept_lt drafted row count
  have member : i ∈ rows.batch := arranges.perm.mem_iff.mpr known
  have distinct : (sampled heap ids).Nodup := arranges.distinct.filter _
  constructor
  · intro o earlier
    have inside : o + 1 < (heap i).numScheduledTokens := by omega
    rw [firstIds, getElem?_indexCopy_of_not_mem, getElem?_indexCopy_of_not_mem
      (arranges.notMem_fixedIndex drafted member (by omega) (.inl samples)),
      scheduled.getElem?_rolled holds arranges member inside]
    refine arranges.notMem_sampleIndex drafted accepts member (by omega) ?_
    intro t kept' row' count'
    have same : r = t := (List.getElem?_inj (List.getElem?_eq_some_iff.mp row).1 distinct).mp
      (row.trans row'.symm)
    subst same
    obtain rfl := Option.some.inj (count.symm.trans count')
    omega
  · intro token next
    refine getElem?_indexCopy (arranges.sampleIndex_nodup drafted accepts) ?_
      (getElem?_sampleIndex row count) next
    rw [length_indexCopy, List.length_rotate]
    exact scheduled.sampleIndex_lt holds arranges drafted accepts

end FirstPass

/-! ## The later passes -/

theorem select_eq {α : Type} {values : List α} {indices : List Nat}
    (inside : ∀ k ∈ indices, k < values.length) :
    ∃ result, MTPProposer.select values indices = .ok result ∧
      result.map some = indices.map fun k => values[k]? := by
  induction indices with
  | nil => exact ⟨[], rfl, rfl⟩
  | cons k indices ih =>
      obtain ⟨rest, selected, entries⟩ := ih fun other member =>
        inside other (List.mem_cons_of_mem _ member)
      have small := inside k List.mem_cons_self
      have here := List.getElem?_eq_getElem small
      refine ⟨values[k] :: rest, ?_, ?_⟩
      · simp only [MTPProposer.select, here, selected, bind, Except.bind]
      · rw [List.map_cons, List.map_cons, entries, here]

/-- What a later pass has for a row: its position, a slot in a table, and a key
length within the bound. -/
structure StepsAt (cfg : Config) (context : MTPProposer.StepContext) (r : Nat)
    (table : List BlockId) (position : Nat) : Prop where
  place : context.positions[r]? = some position
  inside : position / cfg.blockSize < table.length
  slot : ∃ slots, context.slotMapping = some slots ∧
    slots[r]? = some (slotAt cfg table position)
  len : ∃ lens, context.contextLens = some lens ∧ lens[r]? = some (position + 1) ∧
    context.cuSeqlensK = cumsum lens
  bounded : position + 1 ≤ context.maxSeqlenK

/-- `_step_context` over rows that have blocks for its positions. -/
theorem stepContext_eq {samplePositions cuSeqlensQ : List Nat} {table : List (List Int)}
    {own : Nat → List BlockId} {maxPosition step : Nat}
    (holds : ∀ r < samplePositions.length, ∀ k < (own r).length,
      (table.getD r [])[k]? = some ((own r).getD k 0 : Int))
    (covered : ∀ r p, samplePositions[r]? = some p →
      p + step < (own r).length * cfg.blockSize)
    (most : ∀ p ∈ samplePositions, p ≤ maxPosition) :
    ∃ context, MTPProposer.stepContext cfg samplePositions (some table) cuSeqlensQ maxPosition
        step = .ok context ∧
      ∀ r p, samplePositions[r]? = some p →
        StepsAt cfg context r (own r) (min (p + step) (cfg.maxModelLen - 1)) := by
  let positions := samplePositions.map fun p => min (p + step) (cfg.maxModelLen - 1)
  have inside : ∀ r p, samplePositions[r]? = some p →
      min (p + step) (cfg.maxModelLen - 1) / cfg.blockSize < (own r).length := by
    intro r p found
    apply Nat.div_lt_of_lt_mul
    rw [Nat.mul_comm]
    exact Nat.lt_of_le_of_lt (Nat.min_le_left _ _) (covered r p found)
  have found : ∀ entry ∈ (List.range positions.length).zip positions,
      (table.getD entry.1 [])[entry.2 / cfg.blockSize]? =
        some ((own entry.1).getD (entry.2 / cfg.blockSize) 0 : Int) := by
    intro entry member
    obtain ⟨r, small, rfl⟩ := List.mem_iff_getElem.mp member
    simp only [List.length_zip, List.length_range, Nat.min_self, positions,
      List.length_map] at small
    simp only [List.getElem_zip, List.getElem_range, positions, List.getElem_map]
    exact holds r small _ (inside r _ (List.getElem?_eq_getElem small))
  have slots := slotsOf_map found
  have computed : MTPProposer.stepContext cfg samplePositions (some table) cuSeqlensQ maxPosition
      step = .ok
        { positions := positions
          cuSeqlensQ := cuSeqlensQ
          cuSeqlensK := cumsum (positions.map (· + 1))
          maxSeqlenK := min (maxPosition + step) (cfg.maxModelLen - 1) + 1
          slotMapping := some (((List.range positions.length).zip positions).map fun entry =>
            slotAt cfg (own entry.1) entry.2)
          contextLens := some (positions.map (· + 1))
          blockTables := some table } := by
    simp only [MTPProposer.stepContext, positions] at slots ⊢
    simp only [slots, bind, Except.bind]
    rfl
  refine ⟨_, computed, ?_⟩
  intro r p at_r
  have small := (List.getElem?_eq_some_iff.mp at_r).1
  have entry : positions[r]? = some (min (p + step) (cfg.maxModelLen - 1)) := by
    simp [positions, at_r]
  refine ⟨entry, inside r p at_r, ⟨_, rfl, ?_⟩, ⟨_, rfl, ?_, rfl⟩, ?_⟩
  · have zipped : ((List.range positions.length).zip positions)[r]? =
        some (r, min (p + step) (cfg.maxModelLen - 1)) := by
      rw [List.getElem?_zip_eq_some]
      exact ⟨List.getElem?_range (by simpa [positions] using small), entry⟩
    rw [List.getElem?_map, zipped]
    rfl
  · rw [List.getElem?_map, entry]
    rfl
  · have := most p (List.mem_of_getElem? at_r)
    show min (p + step) (cfg.maxModelLen - 1) + 1 ≤
      min (maxPosition + step) (cfg.maxModelLen - 1) + 1
    omega

theorem stepContexts_eq {samplePositions cuSeqlensQ : List Nat}
    {table : Option (List (List Int))} {maxPosition : Nat} {steps : List Nat}
    {good : Nat → MTPProposer.StepContext → Prop}
    (each : ∀ step ∈ steps, ∃ context, MTPProposer.stepContext cfg samplePositions table
      cuSeqlensQ maxPosition step = .ok context ∧ good step context) :
    ∃ contexts, MTPProposer.stepContexts cfg samplePositions table cuSeqlensQ maxPosition steps =
        .ok contexts ∧ List.Forall₂ good steps contexts := by
  induction steps with
  | nil => exact ⟨[], rfl, .nil⟩
  | cons step steps ih =>
      obtain ⟨context, here, fine⟩ := each step List.mem_cons_self
      obtain ⟨contexts, rest, others⟩ := ih fun other member =>
        each other (List.mem_cons_of_mem _ member)
      exact ⟨context :: contexts, by
        simp only [MTPProposer.stepContexts, here, rest, bind, Except.bind], .cons fine others⟩

/-! ## What `propose` computes -/

section Propose

variable {numAccepted : List Nat} {nextTokenIds : List Token}

/-- A value of each token of a batch, at a flat position. -/
theorem getElem?_flatMap_flatIndex {α : Type} (orders : rows.Orders heap ids)
    (f : SeqId → Nat → α) (member : i ∈ rows.batch) (inside : o < (heap i).numScheduledTokens) :
    (rows.batch.flatMap fun i => (List.range (heap i).numScheduledTokens).map (f i))[
      flatIndex rows i o]? = some (f i o) := by
  rw [← map_tokensOf f, List.getElem?_map, getElem?_flatIndex orders member inside]
  rfl

/-- The positions of the last kept tokens. -/
def samplePositions (heap : SeqId → Sequence) (ids : List SeqId) (start : SeqId → Nat)
    (numAccepted : List Nat) : List Nat :=
  List.zipWith (fun i kept => start i + lastKept (heap i) kept) (sampled heap ids) numAccepted

theorem Accepts.select_positions (accepts : Accepts heap ids numAccepted)
    (drafted : Drafted heap ids host) (arranges : Arranges rows heap ids) :
    MTPProposer.select (drafterAt runner heap rows host start).positions
        (sampleIndex rows heap ids numAccepted) =
      .ok (samplePositions heap ids start numAccepted) := by
  have at_index : ∀ (r : Nat) (i : SeqId) (kept : Nat), (sampled heap ids)[r]? = some i →
      numAccepted[r]? = some kept →
      (drafterAt runner heap rows host start).positions[
        flatIndex rows i (lastKept (heap i) kept)]? = some (start i + lastKept (heap i) kept) := by
    intro r i kept row count
    obtain ⟨known, _, _, below⟩ := accepts.lastKept_lt drafted row count
    exact getElem?_flatMap_flatIndex arranges.toOrders (fun i o => start i + o)
      (arranges.perm.mem_iff.mpr known) below
  have inside : ∀ p ∈ sampleIndex rows heap ids numAccepted,
      p < (drafterAt runner heap rows host start).positions.length := by
    intro p member
    obtain ⟨r, i, kept, row, count, rfl⟩ := mem_sampleIndex member
    exact (List.getElem?_eq_some_iff.mp (at_index r i kept row count)).1
  obtain ⟨result, selected, entries⟩ := select_eq inside
  rw [selected]
  refine congrArg Except.ok (List.map_injective_iff.mpr (Option.some_injective _) ?_)
  rw [entries, sampleIndex, samplePositions, List.map_zipWith, List.map_zipWith]
  apply List.ext_getElem
  · simp
  · intro r inside _
    simp only [List.length_zipWith, Nat.lt_min] at inside
    simp only [List.getElem_zipWith]
    exact at_index r _ _ (List.getElem?_eq_getElem inside.1) (List.getElem?_eq_getElem inside.2)

/-- `max_position` bounds the positions of the last kept tokens. -/
theorem Accepts.le_maxPosition (accepts : Accepts heap ids numAccepted)
    (drafted : Drafted heap ids host) (arranges : Arranges rows heap ids)
    (bounds : ∀ i ∈ ids, start i ≤ host i) :
    ∀ p ∈ samplePositions heap ids start numAccepted,
      p ≤ (drafterAt runner heap rows host start).maxPosition := by
  have lasts : (cumsum rows.lens).tail.map (· - 1) =
      rows.batch.map fun i => flatIndex rows i ((heap i).numScheduledTokens - 1) := by
    have signed := congrArg (List.map Int.toNat) (arranges.lastIndex_eq drafted.positive)
    rw [List.map_map, List.map_map] at signed
    refine Eq.trans (List.map_congr_left ?_) signed
    intro stop _
    show stop - 1 = ((stop : Int) - 1).toNat
    omega
  intro p member
  obtain ⟨r, small, rfl⟩ := List.mem_iff_getElem.mp member
  have within := small
  simp only [samplePositions, List.length_zipWith, Nat.lt_min] at within
  have row := List.getElem?_eq_getElem within.1
  obtain ⟨known, samples, _, below⟩ := accepts.lastKept_lt drafted row
    (List.getElem?_eq_getElem within.2)
  have entry : (samplePositions heap ids start numAccepted)[r] =
      start (sampled heap ids)[r] + lastKept (heap (sampled heap ids)[r]) numAccepted[r] := by
    simp [samplePositions]
  rw [entry]
  generalize (sampled heap ids)[r] = i at *
  have last : host i + ((heap i).numScheduledTokens - 1) ∈
      gather (rows.batch.flatMap fun i => (List.range (heap i).numScheduledTokens).map
        (host i + ·)) 0 (gather ((cumsum rows.lens).tail.map (· - 1)) 0
          (gather rows.rowOf 0 rows.sampling)) := by
    rw [lasts, arranges.gather_samplingRows, gather, List.map_map]
    refine List.mem_map.mpr ⟨i, List.mem_filter.mpr ⟨known, decide_eq_true samples⟩, ?_⟩
    have place := getElem?_flatMap_flatIndex arranges.toOrders (fun i o => host i + o)
      (arranges.perm.mem_iff.mpr known) (Nat.sub_lt (drafted.positive i known) Nat.one_pos)
    simp only [Function.comp_apply, List.getD_eq_getElem?_getD, place, Option.getD_some]
  have lower := bounds i known
  calc start i + lastKept (heap i) numAccepted[r]
      ≤ host i + ((heap i).numScheduledTokens - 1) := by omega
    _ ≤ (drafterAt runner heap rows host start).maxPosition :=
        (foldl_max_le.mp (Nat.le_refl _)).2 _ last

/-- Rows whose blocks hold what the drafter writes after them, too. -/
def Reserved (cfg : Config) (heap : SeqId → Sequence) (ids : List SeqId) : Prop :=
  ∀ i ∈ ids, (heap i).Samples →
    (heap i).numCachedTokens + (heap i).numScheduledTokens + (cfg.numSpeculativeTokens - 1) ≤
      (heap i).blockTable.length * cfg.blockSize

/-- `propose` for a batch that `prepare_batch` built. -/
theorem Drafted.propose_stages {H : Type} (drafted : Drafted heap ids host)
    (arranges : Arranges rows heap ids) (drafter : MTPProposer.Drafter H)
    (context : BatchContext) (targetHidden : List H) :
    let inputs := drafterAt runner heap rows host start
    let inputIds := firstIds runner heap ids rows host numAccepted nextTokenIds
    let index := sampleIndex rows heap ids numAccepted
    MTPProposer.propose cfg drafter inputs context targetHidden numAccepted nextTokenIds = (do
      let hidden ← MTPProposer.select (drafter.firstPass { context with logitsIndices := none }
        inputIds inputs.positions targetHidden) index
      let first := hidden.map drafter.draft
      if numAccepted.length = 0 then .ok ⟨inputIds, index, hidden, [], []⟩
      else
        let positions ← MTPProposer.select inputs.positions index
        let steps ← MTPProposer.stepContexts cfg positions
          (inputs.blockTable.map fun table => gather table [] inputs.samplingRows)
          (List.range (numAccepted.length + 1)) inputs.maxPosition
          (List.range' 1 (cfg.numSpeculativeTokens - 1))
        let passes := first :: MTPProposer.laterDrafts drafter 1 first hidden steps
        .ok ⟨inputIds, index, hidden, steps, (List.range numAccepted.length).map fun r =>
          passes.map fun drafts => drafts.getD r placeholderTokenId⟩) := by
  intro inputs inputIds index
  obtain ⟨fixedEq, fixedTokens⟩ := drafted.fixedIndex_eq arranges runner start
    inputs.inputIds.length
  have sampleEq := drafted.sampleIndex_eq arranges runner start numAccepted
    inputs.inputIds.length
  simp only [inputs] at fixedEq sampleEq
  simp only [MTPProposer.propose, inputs, fixedEq, fixedTokens, sampleEq]
  rfl

/-- The block tables of the sampling rows. -/
theorem Scheduled.sampledTables (scheduled : Scheduled cfg runner heap ids)
    (arranges : Arranges rows heap ids) (host start : SeqId → Nat) : ∃ table,
      ((drafterAt runner heap rows host start).blockTable.map fun table =>
        gather table [] (drafterAt runner heap rows host start).samplingRows) = some table ∧
      ∀ (r : Nat) (i : SeqId), (sampled heap ids)[r]? = some i →
        ∀ k < (heap i).blockTable.length,
          (table.getD r [])[k]? = some ((heap i).blockTable.getD k 0 : Int) := by
  obtain ⟨width, _, padded⟩ := scheduled.blockTables arranges.perm
  refine ⟨(sampled heap ids).map fun i => (heap i).blockTable.map Int.ofNat ++
    List.replicate (width - (heap i).blockTable.length) (-1), ?_, ?_⟩
  · show (paddedTables _).map _ = _
    rw [padded, Option.map_some]
    exact congrArg some (arranges.gather_samplingRows _ _)
  · intro r i row k inside
    simp [List.getD_eq_getElem?_getD, row, List.getElem?_append_left, inside]

/-- The contexts of the later passes. -/
theorem Scheduled.stepContexts_eq (scheduled : Scheduled cfg runner heap ids)
    (arranges : Arranges rows heap ids) (drafted : Drafted heap ids host)
    (starts : Starts heap ids start) (bounds : ∀ i ∈ ids, start i ≤ host i)
    (reserved : Reserved cfg heap ids) (accepts : Accepts heap ids numAccepted)
    (cuSeqlensQ : List Nat) :
    let inputs := drafterAt runner heap rows host start
    ∃ steps, MTPProposer.stepContexts cfg (samplePositions heap ids start numAccepted)
        (inputs.blockTable.map fun table => gather table [] inputs.samplingRows) cuSeqlensQ
        inputs.maxPosition (List.range' 1 (cfg.numSpeculativeTokens - 1)) = .ok steps ∧
      List.Forall₂ (fun step context => ∀ (r : Nat) (i : SeqId) (kept : Nat),
          (sampled heap ids)[r]? = some i → numAccepted[r]? = some kept →
            StepsAt cfg context r (heap i).blockTable
              (min (start i + lastKept (heap i) kept + step) (cfg.maxModelLen - 1)))
        (List.range' 1 (cfg.numSpeculativeTokens - 1)) steps := by
  intro inputs
  obtain ⟨table, tableEq, own⟩ := scheduled.sampledTables arranges host start
  rw [tableEq]
  apply RankBatch.stepContexts_eq
  intro step member
  have few := List.mem_range'_1.mp member
  -- what a position of a last kept token is
  have entry : ∀ r p : Nat, (samplePositions heap ids start numAccepted)[r]? = some p →
      ∃ (i : SeqId) (kept : Nat), (sampled heap ids)[r]? = some i ∧
        numAccepted[r]? = some kept ∧ p = start i + lastKept (heap i) kept := by
    intro r p found
    obtain ⟨i, kept, row, count, rfl⟩ := List.getElem?_zipWith_eq_some.mp found
    exact ⟨i, kept, row, count, rfl⟩
  have blocks : ∀ r : Nat, ∀ i, (sampled heap ids)[r]? = some i →
      (heap ((sampled heap ids).getD r 0)).blockTable = (heap i).blockTable := by
    intro r i row
    rw [List.getD_eq_getElem?_getD, row, Option.getD_some]
  obtain ⟨context, computed, places⟩ := @stepContext_eq cfg
    (samplePositions heap ids start numAccepted) cuSeqlensQ table
    (fun r => (heap ((sampled heap ids).getD r 0)).blockTable) inputs.maxPosition step
    (by
      intro r small k inside
      obtain ⟨i, kept, row, _, _⟩ := entry r _ (List.getElem?_eq_getElem small)
      simp only [blocks r i row] at inside ⊢
      exact own r i row k inside)
    (by
      intro r p found
      obtain ⟨i, kept, row, count, rfl⟩ := entry r p found
      obtain ⟨known, samples, _, below⟩ := accepts.lastKept_lt drafted row count
      have room := reserved i known samples
      have lower := starts.le i known
      simp only [blocks r i row]
      omega)
    (accepts.le_maxPosition drafted arranges bounds)
  refine ⟨context, computed, ?_⟩
  intro r i kept row count
  have found : (samplePositions heap ids start numAccepted)[r]? =
      some (start i + lastKept (heap i) kept) := by
    rw [samplePositions, List.getElem?_zipWith, row, count]
  have lies := places r _ found
  simp only [blocks r i row] at lies
  exact lies

/-- The drafter's inputs line up with the target's: which token stands at each kept
place of the first pass, whose hidden state each first draft comes from, and where
the later passes run. -/
structure LinesUp {H : Type} (cfg : Config) (runner : ModelRunner) (heap : SeqId → Sequence)
    (ids : List SeqId) (start : SeqId → Nat) (drafter : MTPProposer.Drafter H)
    (states : List H) (numAccepted : List Nat) (nextTokenIds : List Token)
    (proposal : MTPProposer.Proposal H) : Prop where
  length : proposal.inputIds.length = (tokensOf heap (batchOrder cfg heap ids)).length
  unsampled : ∀ (p : Nat) (i : SeqId) (o : Nat),
    (tokensOf heap (batchOrder cfg heap ids))[p]? = some (i, o) → ¬ (heap i).Samples →
      proposal.inputIds[p]? = (heap i).tokenIds[start i + (o + 1)]?
  kept : ∀ (p : Nat) (i : SeqId) (o r accepted : Nat),
    (tokensOf heap (batchOrder cfg heap ids))[p]? = some (i, o) →
    (sampled heap ids)[r]? = some i → numAccepted[r]? = some accepted →
      o < lastKept (heap i) accepted →
      proposal.inputIds[p]? = inputToken runner i (heap i) (o + 1)
  next : ∀ (p : Nat) (i : SeqId) (o r accepted : Nat),
    (tokensOf heap (batchOrder cfg heap ids))[p]? = some (i, o) →
    (sampled heap ids)[r]? = some i → numAccepted[r]? = some accepted →
      o = lastKept (heap i) accepted → proposal.inputIds[p]? = nextTokenIds[r]?
  hidden : ∀ (i : SeqId) (r accepted : Nat),
    (sampled heap ids)[r]? = some i → numAccepted[r]? = some accepted →
      ∃ (p : Nat) (state : H),
        (tokensOf heap (batchOrder cfg heap ids))[p]? = some (i, lastKept (heap i) accepted) ∧
        states[p]? = some state ∧ proposal.hidden[r]? = some state ∧
        (proposal.drafts[r]?).bind List.head? = some (drafter.draft state)
  steps : ∀ (i : SeqId) (r accepted s : Nat),
    (sampled heap ids)[r]? = some i → numAccepted[r]? = some accepted →
      1 ≤ s → s < cfg.numSpeculativeTokens → ∃ context, proposal.steps[s - 1]? = some context ∧
        StepsAt cfg context r (heap i).blockTable
          (min (start i + lastKept (heap i) accepted + s) (cfg.maxModelLen - 1))

/-- For a batch that `prepare_batch` built, `propose` returns and its inputs line up. -/
theorem Scheduled.linesUp {H : Type} (scheduled : Scheduled cfg runner heap ids)
    (holds : runner.Holds cfg) (arranges : Arranges rows heap ids)
    (batch : batchOrder cfg heap ids = rows.batch) (drafted : Drafted heap ids host)
    (hostStarts : Starts heap ids host) (starts : Starts heap ids start)
    (bounds : ∀ i ∈ ids, start i ≤ host i) (reserved : Reserved cfg heap ids)
    (accepts : Accepts heap ids numAccepted)
    (one : nextTokenIds.length = (sampled heap ids).length) (drafter : MTPProposer.Drafter H)
    (context : BatchContext) (targetHidden : List H) :
    let inputs := drafterAt runner heap rows host start
    ∃ proposal,
      MTPProposer.propose cfg drafter inputs context targetHidden numAccepted nextTokenIds =
        .ok proposal ∧
      LinesUp cfg runner heap ids start drafter
        (drafter.firstPass { context with logitsIndices := none } proposal.inputIds
          inputs.positions targetHidden) numAccepted nextTokenIds proposal := by
  intro inputs
  have ids_length : (firstIds runner heap ids rows host numAccepted nextTokenIds).length =
      (tokensOf heap rows.batch).length := by
    rw [firstIds, length_indexCopy, length_indexCopy, List.length_rotate,
      scheduled.length_inputIds holds arranges]
  have inside : ∀ p ∈ sampleIndex rows heap ids numAccepted,
      p < (drafter.firstPass { context with logitsIndices := none }
        (firstIds runner heap ids rows host numAccepted nextTokenIds) inputs.positions
        targetHidden).length := by
    intro p member
    rw [drafter.length_firstPass, ids_length, ← scheduled.length_inputIds holds arranges]
    exact scheduled.sampleIndex_lt holds arranges drafted accepts p member
  obtain ⟨hidden, selected, entries⟩ := select_eq inside
  obtain ⟨steps, computed, places⟩ := scheduled.stepContexts_eq arranges drafted starts bounds
    reserved accepts (List.range (numAccepted.length + 1))
  let passes := hidden.map drafter.draft ::
    MTPProposer.laterDrafts drafter 1 (hidden.map drafter.draft) hidden steps
  let proposal : MTPProposer.Proposal H :=
    { inputIds := firstIds runner heap ids rows host numAccepted nextTokenIds
      sampleIndex := sampleIndex rows heap ids numAccepted
      hidden := hidden
      steps := if numAccepted.length = 0 then [] else steps
      drafts := (List.range numAccepted.length).map fun r =>
        passes.map fun drafts => drafts.getD r placeholderTokenId }
  refine ⟨proposal, ?_, ?_⟩
  · rw [drafted.propose_stages arranges]
    simp only [inputs] at selected
    simp only [selected, accepts.select_positions drafted arranges, computed, bind, Except.bind]
    split
    · rename_i idle
      simp [proposal, idle]
    · rename_i some
      simp [proposal, some, passes]
  · have known : ∀ (i : SeqId) (r accepted : Nat), (sampled heap ids)[r]? = some i →
        numAccepted[r]? = some accepted → i ∈ rows.batch ∧
          lastKept (heap i) accepted < (heap i).numScheduledTokens := by
      intro i r accepted row count
      obtain ⟨among, _, _, below⟩ := accepts.lastKept_lt drafted row count
      exact ⟨arranges.perm.mem_iff.mpr among, below⟩
    constructor
    case length => exact batch ▸ ids_length
    case unsampled =>
      intro p i o found silent
      rw [batch] at found
      obtain ⟨member, within, rfl⟩ := arranges.flatIndex_of_getElem? found
      have among := arranges.mem member
      have prefill : (heap i).isPrefill = true := by
        by_contra decoding
        exact silent (scheduled.toFits.samples i among (by simpa using decoding))
      rw [starts.prompt i among prefill]
      exact scheduled.firstIds_unsampled holds arranges drafted hostStarts accepts member silent
        within
    case kept =>
      intro p i o r accepted found row count earlier
      rw [batch] at found
      obtain ⟨_, _, rfl⟩ := arranges.flatIndex_of_getElem? found
      exact (scheduled.firstIds_sampled holds arranges drafted accepts row count).1 o earlier
    case next =>
      intro p i o r accepted found row count last
      rw [batch] at found
      obtain ⟨_, _, rfl⟩ := arranges.flatIndex_of_getElem? found
      have small : r < nextTokenIds.length := by
        rw [one]
        exact (List.getElem?_eq_some_iff.mp row).1
      rw [last, List.getElem?_eq_getElem small]
      exact (scheduled.firstIds_sampled holds arranges drafted accepts row count).2 _
        (List.getElem?_eq_getElem small)
    case hidden =>
      intro i r accepted row count
      obtain ⟨member, below⟩ := known i r accepted row count
      have place : (sampleIndex rows heap ids numAccepted)[r]? = _ := getElem?_sampleIndex row count
      have read := congrArg (fun values => values[r]?) entries
      simp only [List.getElem?_map, place, Option.map_some] at read
      obtain ⟨state, found, same⟩ := Option.map_eq_some_iff.mp read
      refine ⟨flatIndex rows i (lastKept (heap i) accepted), state, ?_, same.symm, found, ?_⟩
      · rw [batch]
        exact getElem?_flatIndex arranges.toOrders member below
      · have small := (List.getElem?_eq_some_iff.mp count).1
        simp [proposal, passes, small, List.getD_eq_getElem?_getD, found]
    case steps =>
      intro i r accepted s row count first last
      have small := (List.getElem?_eq_some_iff.mp count).1
      have stepsEq : proposal.steps = steps := if_neg (by omega)
      rw [stepsEq]
      have length := places.length_eq
      rw [List.length_range'] at length
      have inRange : s - 1 < steps.length := by omega
      refine ⟨steps[s - 1], List.getElem?_eq_getElem inRange, ?_⟩
      have lies := (List.forall₂_iff_get.mp places).2 (s - 1)
        (by rw [List.length_range']; omega) inRange r i accepted row count
      have pass : 1 + 1 * (s - 1) = s := by omega
      simpa only [List.get_eq_getElem, List.getElem_range', pass] using lies

/-- The host has rows start at their cached tokens or before, and not before where they
start on the device. -/
theorem Fits.hostStarts (fits : Fits cfg runner heap ids) (decodesLatents : Bool)
    (rows : BatchRows) :
    Starts heap ids (hostStart decodesLatents runner heap rows) ∧
      ∀ i ∈ ids, (heap i).numCachedTokens - runner.moveBack i (heap i) ≤
        hostStart decodesLatents runner heap rows i := by
  have starts := fits.backs.starts
  refine ⟨⟨?_, ?_⟩, ?_⟩
  · intro i _
    unfold hostStart
    split
    · exact Nat.sub_le _ _
    · exact Nat.le_refl _
  · intro i member prefill
    unfold hostStart
    split
    · exact starts.prompt i member prefill
    · rfl
  · intro i _
    unfold hostStart
    split
    · exact Nat.le_refl _
    · exact Nat.sub_le _ _

end Propose

end RankBatch

/-! ## Launches -/

variable {cfg : Config} {engine : LLMEngine} {env : StepEnv} {flight : Flight}

/-- The rows of a launch have something to compute, prompt chunks are followed by the
prompt, and the blocks reach past what the rows compute. -/
theorem Scheduler.Launches.draftable {s : Scheduler} {runner : ModelRunner} {launch : Launch}
    (launches : s.Launches cfg env runner flight launch) (alone : cfg.kvTransfer = none)
    (scheduled : RankBatch.Scheduled cfg runner launch.reported.heap launch.output.scheduled)
    (tokenIds : launch.reported.TokenIds) {host : SeqId → Nat}
    (starts : RankBatch.Starts launch.reported.heap launch.output.scheduled host) :
    RankBatch.Drafted launch.reported.heap launch.output.scheduled host ∧
      RankBatch.Reserved cfg launch.reported.heap launch.output.scheduled := by
  have pass := launches.reported
  have active : ∀ i ∈ launch.output.scheduled, (launch.reported.heap i).Active cfg
      (due flight.rows i (launch.reported.heap i).numPreemptions) := fun i member =>
    (pass.inv.running (pass.running i member)).2.2.2
  have ready : ∀ i ∈ launch.output.scheduled, (launch.reported.heap i).Ready cfg := pass.ready
  refine ⟨⟨fun i member => (ready i member).positive alone, scheduled.toFits.enough, ?_⟩, ?_⟩
  · intro i member silent
    have prefill : (launch.reported.heap i).isPrefill = true := by
      by_contra decoding
      exact silent (scheduled.toFits.samples i member (by simpa using decoding))
    have settled := ((active i member).prefilling prefill).1
    have inside : (launch.reported.heap i).numCachedTokens +
        (launch.reported.heap i).numScheduledTokens <
        (launch.reported.heap i).tokenIds.length := by
      simpa only [Sequence.Samples, Sequence.numPlannedTokens, Sequence.numTokens, settled,
        Nat.add_zero, Nat.not_le] using silent
    rw [starts.prompt i member prefill, RankBatch.nextTokenOf, if_neg silent,
      List.getD_eq_getElem?_getD, List.getElem?_eq_getElem inside]
    exact ⟨rfl, tokenIds i _ (List.getElem_mem inside)⟩
  · intro i member samples
    cases prefill : (launch.reported.heap i).isPrefill with
    | true =>
        have room := ((active i member).prefilling prefill).2.2.2
        have within := (ready i member).prefilling prefill
        simp only [Config.numLookaheadTokens] at room
        omega
    | false =>
        have frontier := ((active i member).decoding prefill).1
        have room := (ready i member).decoding prefill
        simp only [Config.numLookaheadTokens] at room
        omega

/-- Every batch an engine launches under speculation is one the drafter can run on. -/
theorem LLMEngine.Reachable.draftedRows (reachable : LLMEngine.Reachable cfg engine)
    (valid : env.Valid cfg engine) (alone : cfg.kvTransfer = none) :
    ∃ batch, engine.batch cfg env = .ok batch ∧ (batch.output.scheduled ≠ [] →
      RankBatch.Scheduled cfg engine.runner batch.reported.heap batch.output.scheduled ∧
      ∀ host, RankBatch.Starts batch.reported.heap batch.output.scheduled host →
        RankBatch.Drafted batch.reported.heap batch.output.scheduled host ∧
          RankBatch.Reserved cfg batch.reported.heap batch.output.scheduled) := by
  obtain ⟨flight, inv⟩ := reachable.inv
  obtain ⟨launch, last, stepped, _, steps, _, batchEq⟩ := LLMEngine.step_spec inv valid
  have tokenIds := (steps.tokenIds inv.scheduler inv.wf reachable.tokenIds).1
  obtain ⟨s, before, launches, wf, device⟩ := steps.launches inv
  refine ⟨launch.batch cfg, batchEq, ?_⟩
  rw [launches.batch_scheduled]
  intro nonempty
  have scheduled := launches.rows wf device nonempty
  exact ⟨scheduled, fun host starts => launches.draftable alone scheduled tokenIds starts⟩

/-- For every batch an engine launches under speculation, whatever drafts of its rows
the target keeps: `propose` returns, its first pass has the next token of the same
sequence beside every kept token, each first draft comes from the hidden state of
the row's last kept token, and the later passes run at the positions after it, in the
row's own blocks and with key lengths inside the bound the host gives. -/
theorem drafter_lines_up_with_target {H : Type} (cfg : Config) (decodesLatents : Bool)
    (settings : SeqId → SamplerSettings) (engine : LLMEngine)
    (reachable : LLMEngine.Reachable cfg engine) (env : StepEnv) (valid : env.Valid cfg engine)
    (speculates : cfg.numSpeculativeTokens ≠ 0) (alone : cfg.kvTransfer = none)
    (drafter : MTPProposer.Drafter H) :
    ∃ batch, engine.batch cfg env = .ok batch ∧ (batch.output.scheduled ≠ [] →
      let heap := batch.reported.heap
      let ids := batch.output.scheduled
      let tokens := RankBatch.tokensOf heap (RankBatch.batchOrder cfg heap ids)
      let start := fun i => (heap i).numCachedTokens - engine.runner.moveBack i (heap i)
      ∃ inputs drafting,
        RankBatch.prepareBatch cfg decodesLatents engine.runner
          (RankBatch.originals settings heap ids) = .ok inputs ∧
        inputs.draftInputs = some drafting ∧
        drafting.inputIds = inputs.inputIds ∧ drafting.positions = inputs.positions ∧
        inputs.inputIds.map some = tokens.map (fun token =>
          RankBatch.inputToken engine.runner token.1 (heap token.1) token.2) ∧
        inputs.positions = tokens.map (fun token => start token.1 + token.2) ∧
        ∀ (numAccepted : List Nat) (nextTokenIds : List Token) (targetHidden : List H),
          RankBatch.Accepts heap ids numAccepted →
          nextTokenIds.length = (RankBatch.sampled heap ids).length →
          ∃ proposal,
            MTPProposer.propose cfg drafter drafting inputs.context targetHidden numAccepted
              nextTokenIds = .ok proposal ∧
            RankBatch.LinesUp cfg engine.runner heap ids start drafter
              (drafter.firstPass { inputs.context with logitsIndices := none }
                proposal.inputIds drafting.positions targetHidden)
              numAccepted nextTokenIds proposal) := by
  obtain ⟨batch, batchEq, launchRows⟩ := reachable.draftedRows valid alone
  refine ⟨batch, batchEq, ?_⟩
  intro nonempty heap ids tokens start
  obtain ⟨scheduled, drafts⟩ := launchRows nonempty
  have holds := reachable.holds
  have fits := scheduled.toFits
  let rows := ModelRunner.batchRows cfg decodesLatents heap ids
  let host := RankBatch.hostStart decodesLatents engine.runner heap rows
  have arranges : RankBatch.Arranges rows heap ids := fits.arranges
  have batchEq : RankBatch.batchOrder cfg heap ids = rows.batch := RankBatch.batchRows_batch.symm
  have starts : RankBatch.Starts heap ids start := fits.backs.starts
  obtain ⟨hostStarts, bounds⟩ : RankBatch.Starts heap ids host ∧ ∀ i ∈ ids, start i ≤ host i :=
    fits.hostStarts decodesLatents rows
  obtain ⟨drafted, reserved⟩ := drafts host hostStarts
  have specifies : RankBatch.Specifies cfg engine.runner heap ids start
      (RankBatch.inputsAt cfg engine.runner settings heap ids rows start start) :=
    scheduled.specifies holds starts rfl
  refine ⟨_, RankBatch.drafterAt engine.runner heap rows host start,
    (scheduled.prepareBatch_at holds decodesLatents settings).2,
    RankBatch.inputsAt_draftInputs arranges.toOrders speculates, rfl, rfl, specifies.inputIds,
    specifies.positions, ?_⟩
  intro numAccepted nextTokenIds targetHidden accepts one
  exact scheduled.linesUp holds arranges batchEq drafted hostStarts starts bounds reserved accepts
    one drafter _ targetHidden

/-- Layers that hand their input on, for which a draft repeats the token before it. -/
def MTPProposer.Drafter.echo : MTPProposer.Drafter Token where
  firstPass := fun _ ids _ _ => ids
  pass := fun _ _ drafts _ => drafts
  draft := id
  length_firstPass := fun _ _ _ _ => rfl

/-- The third launch of the drafting engine, if the target rejects the row's draft: the
sampled token stands at the row's first place, and the rejected draft is padding. -/
theorem drafter_lines_up_with_target_rejecting :
    ∃ batch inputs drafting proposal,
      LLMEngine.verifying.batch .drafting .tight = .ok batch ∧
      RankBatch.sampled batch.reported.heap batch.output.scheduled = [0] ∧
      ModelRunner.rowDrafts (batch.reported.heap 0) = 1 ∧
      RankBatch.prepareBatch .drafting true LLMEngine.verifying.runner (RankBatch.originals
        (fun _ => ⟨0, 0, 1⟩) batch.reported.heap batch.output.scheduled) = .ok inputs ∧
      inputs.draftInputs = some drafting ∧
      MTPProposer.propose .drafting .echo drafting inputs.context [] [0] [9] = .ok proposal ∧
      proposal.inputIds[0]? = some 9 := by
  have row : (LLMEngine.verifying.batch .drafting .tight).map (fun batch =>
      (batch.output.scheduled, RankBatch.sampled batch.reported.heap batch.output.scheduled,
        ModelRunner.rowDrafts (batch.reported.heap 0),
        RankBatch.lastKept (batch.reported.heap 0) 0)) = .ok ([0], [0], 1, 0) := by decide +kernel
  have order : (LLMEngine.verifying.batch .drafting .tight).map (fun batch =>
      RankBatch.tokensOf batch.reported.heap
        (RankBatch.batchOrder .drafting batch.reported.heap batch.output.scheduled)) =
      .ok [(0, 0), (0, 1)] := by decide +kernel
  obtain ⟨batch, batched, aligned⟩ := drafter_lines_up_with_target .drafting true
    (fun _ => ⟨0, 0, 1⟩) _ LLMEngine.verifying_reachable .tight (StepEnv.tight_drafting _)
    (by decide) rfl .echo
  rw [batched] at row order
  obtain ⟨one, rest⟩ := Prod.mk.inj (Except.ok.inj row)
  obtain ⟨samples, rest⟩ := Prod.mk.inj rest
  obtain ⟨drafts, last⟩ := Prod.mk.inj rest
  have tokens : RankBatch.tokensOf batch.reported.heap (RankBatch.batchOrder .drafting
      batch.reported.heap batch.output.scheduled) = [(0, 0), (0, 1)] := Except.ok.inj order
  obtain ⟨inputs, drafting, prepared, drafter, _, _, _, _, proposes⟩ := aligned (by simp [one])
  obtain ⟨proposal, proposed, linesUp⟩ := proposes [0] [9] []
    (by rw [RankBatch.Accepts, samples]; exact .cons (Nat.zero_le _) .nil) (by rw [samples]; rfl)
  refine ⟨batch, inputs, drafting, proposal, batched, samples, drafts, prepared, drafter, proposed,
    ?_⟩
  exact linesUp.next 0 0 0 0 0 (by rw [tokens]; rfl) (by rw [samples]; rfl) rfl last.symm

end LeanVllm
