import LeanVllm.Engine.MoveBack

/-!
# Splitting a batch loses nothing

`split_decodes_and_prefills` cuts each array of the context at one row.  Running totals
of the rows after it count from there again: the host's by what the host holds, the
device's key totals by what the device holds, which a rejection may have moved back.
-/

namespace LeanVllm

open Collections

namespace AttentionContext

/-- Both groups together have what the batch has, the first the leading `n` of it. -/
structure Cut {α : Type} (view : AttentionContext → List α) (context : AttentionContext) (n : Nat)
    (decodes prefills : Option AttentionContext) : Prop where
  joins : decodes.elim [] view ++ prefills.elim [] view = view context
  length : (decodes.elim [] view).length = n

/-- What a split of a batch keeps. -/
structure Splits (context : AttentionContext) (queryLen n : Nat)
    (decodes prefills : Option AttentionContext) : Prop where
  leading : ∀ r < n, (steps context.cuSeqlensQHost)[r]? = some queryLen
  maximal : (steps context.cuSeqlensQHost)[n]? ≠ some queryLen
  queries : Cut (fun group => steps group.cuSeqlensQ) context n decodes prefills
  hostQueries : Cut (fun group => steps group.cuSeqlensQHost) context n decodes prefills
  keys : Cut (fun group => steps group.cuSeqlensK) context n decodes prefills
  contextLens : Cut contextLens context n decodes prefills
  hostKeys : Cut (fun group => steps group.cuSeqlensKHost) context n decodes prefills
  blockTables : Cut (fun group => group.blockTables.getD []) context n decodes prefills
  splitPoint : context.cuSeqlensQHost.getD n 0 = n * queryLen ∧
    ∀ group, decodes = some group → group.maxSeqlenQ = queryLen
  starts : ∀ group, decodes = some group ∨ prefills = some group →
    group.cuSeqlensQ.head? = some 0 ∧ group.cuSeqlensK.head? = some 0 ∧
      group.cuSeqlensQHost.head? = some 0 ∧ group.cuSeqlensKHost.head? = some 0
  maxima : ∀ group, decodes = some group ∨ prefills = some group →
    group.maxSeqlenQ = (steps group.cuSeqlensQHost).foldl max 0 ∧
      group.maxSeqlenK = (steps group.cuSeqlensKHost).foldl max 0

/-- A context of rows with these lengths, the key lengths as the device and as the host
has them. -/
structure Of (context : AttentionContext) (queryLens keyLens hostLens : List Nat)
    (tables : List (List Int)) : Prop where
  cuSeqlensQ : context.cuSeqlensQ = cumsum queryLens
  cuSeqlensQHost : context.cuSeqlensQHost = cumsum queryLens
  cuSeqlensK : context.cuSeqlensK = cumsum keyLens
  cuSeqlensKHost : context.cuSeqlensKHost = cumsum hostLens
  contextLens : context.contextLens = keyLens
  maxSeqlenQ : context.maxSeqlenQ = queryLens.foldl max 0
  maxSeqlenK : context.maxSeqlenK = hostLens.foldl max 0
  blockTables : context.blockTables = some tables

section Rows

variable {context : AttentionContext} {queryLens keyLens hostLens : List Nat}
  {tables : List (List Int)} {queryLen : Nat}

theorem head?_cumsum (lens : List Nat) : (cumsum lens).head? = some 0 := by
  cases lens with
  | nil => rfl
  | cons len lens => rw [cumsum_cons, List.head?_cons]

/-- A group of these rows, or no group where there are none. -/
structure GroupOf (group : Option AttentionContext) (queryLens keyLens hostLens : List Nat)
    (tables : List (List Int)) : Prop where
  some : ∀ context, group = some context → context.Of queryLens keyLens hostLens tables
  none : group = none → queryLens = [] ∧ keyLens = [] ∧ hostLens = [] ∧ tables = []

theorem take_leading {n : Nat} (few : n ≤ queryLens.length)
    (leading : ∀ r < n, queryLens.getD r 0 = queryLen) :
    queryLens.take n = List.replicate n queryLen := by
  refine List.eq_replicate_iff.mpr ⟨List.length_take_of_le few, fun len among => ?_⟩
  obtain ⟨r, small, rfl⟩ := List.mem_iff_getElem.mp among
  rw [List.length_take] at small
  rw [List.getElem_take, ← leading r (by omega), List.getD_eq_getElem?_getD,
    List.getElem?_eq_getElem, Option.getD_some]

/-- Two groups that hold the rows before and from the `n`-th. -/
theorem Of.splits_of_groups (of : context.Of queryLens keyLens hostLens tables) {n : Nat}
    {decodes prefills : Option AttentionContext}
    (few : n ≤ queryLens.length) (sameKeys : keyLens.length = queryLens.length)
    (sameHost : hostLens.length = queryLens.length)
    (sameTables : tables.length = queryLens.length)
    (leading : ∀ r < n, queryLens.getD r 0 = queryLen)
    (maximal : n < queryLens.length → queryLens.getD n 0 ≠ queryLen)
    (first : GroupOf decodes (queryLens.take n) (keyLens.take n) (hostLens.take n) (tables.take n))
    (second : GroupOf prefills (queryLens.drop n) (keyLens.drop n) (hostLens.drop n)
      (tables.drop n))
    (uniform : ∀ group, decodes = some group → group.maxSeqlenQ = queryLen) :
    context.Splits queryLen n decodes prefills := by
  have cut : ∀ {α : Type} {view : AttentionContext → List α} {values : List α},
      values.length = queryLens.length → view context = values →
      (decodes.elim [] view = values.take n) → (prefills.elim [] view = values.drop n) →
      Cut view context n decodes prefills := by
    intro α view values same whole before after
    constructor
    · rw [before, after, whole, List.take_append_drop]
    · rw [before, List.length_take]
      omega
  have group : ∀ {α : Type} {group : Option AttentionContext} {view : AttentionContext → List α}
      {values : List α}, (∀ context, group = Option.some context → view context = values) →
      (group = Option.none → values = []) → group.elim [] view = values := by
    intro α group view values some none
    cases group with
    | none => exact (none rfl).symm
    | some context => exact some context rfl
  have steps := steps_cumsum
  have either : ∀ member, decodes = Option.some member ∨ prefills = Option.some member →
      ∃ q k h t, member.Of q k h t := by
    rintro member (own | own)
    · exact ⟨_, _, _, _, first.some member own⟩
    · exact ⟨_, _, _, _, second.some member own⟩
  constructor
  case leading =>
    intro r small
    have inside : r < queryLens.length := by omega
    rw [of.cuSeqlensQHost, steps_cumsum, List.getElem?_eq_getElem inside, ← leading r small,
      List.getD_eq_getElem?_getD, List.getElem?_eq_getElem inside, Option.getD_some]
  case maximal =>
    rw [of.cuSeqlensQHost, steps_cumsum]
    intro found
    have inside := (List.getElem?_eq_some_iff.mp found).1
    apply maximal inside
    rw [List.getD_eq_getElem?_getD, found, Option.getD_some]
  case queries =>
    refine cut rfl (by rw [of.cuSeqlensQ, steps]) (group ?_ ?_) (group ?_ ?_)
    · exact fun member own => by rw [(first.some member own).cuSeqlensQ, steps]
    · exact fun none => (first.none none).1
    · exact fun member own => by rw [(second.some member own).cuSeqlensQ, steps]
    · exact fun none => (second.none none).1
  case hostQueries =>
    refine cut rfl (by rw [of.cuSeqlensQHost, steps]) (group ?_ ?_) (group ?_ ?_)
    · exact fun member own => by rw [(first.some member own).cuSeqlensQHost, steps]
    · exact fun none => (first.none none).1
    · exact fun member own => by rw [(second.some member own).cuSeqlensQHost, steps]
    · exact fun none => (second.none none).1
  case keys =>
    refine cut sameKeys (by rw [of.cuSeqlensK, steps]) (group ?_ ?_) (group ?_ ?_)
    · exact fun member own => by rw [(first.some member own).cuSeqlensK, steps]
    · exact fun none => (first.none none).2.1
    · exact fun member own => by rw [(second.some member own).cuSeqlensK, steps]
    · exact fun none => (second.none none).2.1
  case contextLens =>
    refine cut sameKeys of.contextLens (group ?_ ?_) (group ?_ ?_)
    · exact fun member own => (first.some member own).contextLens
    · exact fun none => (first.none none).2.1
    · exact fun member own => (second.some member own).contextLens
    · exact fun none => (second.none none).2.1
  case hostKeys =>
    refine cut sameHost (by rw [of.cuSeqlensKHost, steps]) (group ?_ ?_) (group ?_ ?_)
    · exact fun member own => by rw [(first.some member own).cuSeqlensKHost, steps]
    · exact fun none => (first.none none).2.2.1
    · exact fun member own => by rw [(second.some member own).cuSeqlensKHost, steps]
    · exact fun none => (second.none none).2.2.1
  case blockTables =>
    refine cut sameTables (by rw [of.blockTables, Option.getD_some]) (group ?_ ?_) (group ?_ ?_)
    · exact fun member own => by rw [(first.some member own).blockTables, Option.getD_some]
    · exact fun none => (first.none none).2.2.2
    · exact fun member own => by rw [(second.some member own).blockTables, Option.getD_some]
    · exact fun none => (second.none none).2.2.2
  case splitPoint =>
    refine ⟨?_, uniform⟩
    rw [of.cuSeqlensQHost, getD_cumsum few, take_leading few leading, List.sum_replicate,
      Nat.nsmul_eq_mul]
  case starts =>
    intro member own
    obtain ⟨q, k, h, t, rows⟩ := either member own
    rw [rows.cuSeqlensQ, rows.cuSeqlensK, rows.cuSeqlensQHost, rows.cuSeqlensKHost]
    exact ⟨head?_cumsum q, head?_cumsum k, head?_cumsum q, head?_cumsum h⟩
  case maxima =>
    intro member own
    obtain ⟨q, k, h, t, rows⟩ := either member own
    rw [rows.cuSeqlensQHost, rows.cuSeqlensKHost, steps, steps]
    exact ⟨rows.maxSeqlenQ, rows.maxSeqlenK⟩

/-- Splitting a context of rows keeps each row's lengths and table. -/
theorem Of.splits (of : context.Of queryLens keyLens hostLens tables)
    (sameKeys : keyLens.length = queryLens.length) (sameHost : hostLens.length = queryLens.length)
    (sameTables : tables.length = queryLens.length) (queryLen : Nat) :
    context.Splits queryLen (context.splitDecodesAndPrefills queryLen).1
      (context.splitDecodesAndPrefills queryLen).2.1
      (context.splitDecodesAndPrefills queryLen).2.2 := by
  obtain ⟨few, leading, maximal⟩ := numDecodes_spec of.cuSeqlensQHost queryLen
  have numRows : context.cuSeqlensQHost.length - 1 = queryLens.length := by
    rw [of.cuSeqlensQHost, length_cumsum, Nat.add_sub_cancel]
  simp only [splitDecodesAndPrefills, of.blockTables, numRows]
  generalize context.numDecodes queryLen = n at few leading maximal
  refine of.splits_of_groups few sameKeys sameHost sameTables leading maximal ?_ ?_ ?_
  · by_cases zero : n = 0
    · rw [if_pos zero, zero]
      exact ⟨fun _ absurdly => absurd absurdly (by simp), fun _ => ⟨rfl, rfl, rfl, rfl⟩⟩
    · rw [if_neg zero]
      refine ⟨?_, fun absurdly => absurd absurdly (by simp)⟩
      rintro member ⟨⟩
      constructor
      · exact of.cuSeqlensQ ▸ take_cumsum few
      · exact of.cuSeqlensQHost ▸ take_cumsum few
      · exact of.cuSeqlensK ▸ take_cumsum (sameKeys ▸ few)
      · exact of.cuSeqlensKHost ▸ take_cumsum (sameHost ▸ few)
      · exact of.contextLens ▸ rfl
      · rw [take_leading few leading]
        apply Nat.le_antisymm
        · exact (foldl_max_le.mp (Nat.le_refl _)).2 _ (List.mem_replicate.mpr ⟨zero, rfl⟩)
        · refine foldl_max_le.mpr ⟨Nat.zero_le _, fun len among => ?_⟩
          exact (List.eq_of_mem_replicate among).le
      · rw [of.cuSeqlensKHost, steps_cumsum]
      · rfl
  · by_cases zero : n = 0
    · rw [if_pos zero, zero]
      refine ⟨?_, fun absurdly => absurd absurdly (by simp)⟩
      rintro member ⟨⟩
      exact of
    · rw [if_neg zero]
      by_cases more : n < queryLens.length
      · rw [if_pos more]
        refine ⟨?_, fun absurdly => absurd absurdly (by simp)⟩
        rintro member ⟨⟩
        constructor
        · exact of.cuSeqlensQHost ▸ of.cuSeqlensQ ▸ totalsFrom_cumsum few
        · exact of.cuSeqlensQHost ▸ totalsFrom_cumsum few
        · exact of.cuSeqlensK ▸ totalsFrom_cumsum (sameKeys ▸ few)
        · exact of.cuSeqlensKHost ▸ totalsFrom_cumsum (sameHost ▸ few)
        · exact of.contextLens ▸ rfl
        · rw [of.cuSeqlensQHost, totalsFrom_cumsum few, steps_cumsum]
        · rw [of.cuSeqlensKHost, totalsFrom_cumsum (sameHost ▸ few), steps_cumsum]
        · rfl
      · rw [if_neg more]
        refine ⟨fun _ absurdly => absurd absurdly (by simp), fun _ => ?_⟩
        refine ⟨List.drop_eq_nil_of_le ?_, List.drop_eq_nil_of_le ?_, List.drop_eq_nil_of_le ?_,
          List.drop_eq_nil_of_le ?_⟩ <;> omega
  · intro member own
    split at own
    · cases own
    · obtain rfl := Option.some.inj own
      rfl

end Rows

end AttentionContext

namespace RankBatch

open ModelRunner

variable {cfg : Config} {runner : ModelRunner} {heap : SeqId → Sequence} {ids : List SeqId}

/-- The context of a batch built at these starts. -/
theorem inputsAt_of {settings : SeqId → SamplerSettings} {rows : BatchRows}
    {host start : SeqId → Nat} {tables : List (List Int)}
    (padded : paddedTables (rows.batch.map fun i => (heap i).blockTable) = some tables) :
    (inputsAt cfg runner settings heap ids rows host start).context.attention.Of
      (rows.batch.map fun i => (heap i).numScheduledTokens)
      (rows.batch.map fun i => start i + (heap i).numScheduledTokens)
      (rows.batch.map fun i => host i + (heap i).numScheduledTokens) tables where
  cuSeqlensQ := rfl
  cuSeqlensQHost := rfl
  cuSeqlensK := rfl
  cuSeqlensKHost := rfl
  contextLens := rfl
  maxSeqlenQ := rfl
  maxSeqlenK := rfl
  blockTables := padded

end RankBatch

variable {cfg : Config} {engine : LLMEngine} {env : StepEnv}

/-- Whatever an engine launches and whatever the step in flight rejects, splitting the
context that `prepare_batch` builds at any query length loses nothing. -/
theorem batch_splits_losslessly (cfg : Config) (decodesLatents : Bool)
    (settings : SeqId → SamplerSettings) (engine : LLMEngine)
    (reachable : LLMEngine.Reachable cfg engine) (env : StepEnv) (valid : env.Valid cfg engine)
    (counts : List Nat)
    (bounded : ∀ step, engine.inFlight = some step → ∀ k row, step.rows[k]? = some row →
      counts.getD k 0 ≤ row.numDraftTokens) :
    ∃ batch, engine.batch cfg env = .ok batch ∧ (batch.output.scheduled ≠ [] →
      ∃ inputs, RankBatch.prepareBatch cfg decodesLatents (engine.runner.rejecting counts)
          (RankBatch.originals settings batch.reported.heap batch.output.scheduled) = .ok inputs ∧
        inputs.context.blockTables.isSome ∧
        ∀ queryLen,
          let context := inputs.context.attention
          context.Splits queryLen (context.splitDecodesAndPrefills queryLen).1
            (context.splitDecodesAndPrefills queryLen).2.1
            (context.splitDecodesAndPrefills queryLen).2.2) := by
  obtain ⟨batch, batchEq, launchRows⟩ := reachable.rejectingRows valid bounded
  refine ⟨batch, batchEq, fun nonempty => ?_⟩
  have scheduled := launchRows nonempty
  have holds : (engine.runner.rejecting counts).Holds cfg := reachable.holds.rejecting counts
  have arranges : RankBatch.Arranges (ModelRunner.batchRows cfg decodesLatents
      batch.reported.heap batch.output.scheduled) batch.reported.heap batch.output.scheduled :=
    scheduled.toFits.arranges
  obtain ⟨_, prepared⟩ := scheduled.prepareBatch_at holds decodesLatents settings
  obtain ⟨_, _, padded⟩ := scheduled.blockTables arranges.perm
  refine ⟨_, prepared, Option.isSome_iff_exists.mpr ⟨_, padded⟩, fun queryLen => ?_⟩
  exact (RankBatch.inputsAt_of padded).splits (by simp) (by simp) (by simp) queryLen

/-- The third launch of the drafting engine, the draft in flight rejected. -/
theorem batch_splits_losslessly_verifying :
    ∃ batch, LLMEngine.verifying.batch .drafting .tight = .ok batch ∧
      (batch.output.scheduled ≠ [] →
        ∃ inputs, RankBatch.prepareBatch .drafting true (LLMEngine.verifying.runner.rejecting [1])
            (RankBatch.originals (fun _ => ⟨0, 0, 1⟩) batch.reported.heap
              batch.output.scheduled) = .ok inputs ∧
          inputs.context.blockTables.isSome ∧
          ∀ queryLen,
            let context := inputs.context.attention
            context.Splits queryLen (context.splitDecodesAndPrefills queryLen).1
              (context.splitDecodesAndPrefills queryLen).2.1
              (context.splitDecodesAndPrefills queryLen).2.2) :=
  batch_splits_losslessly .drafting true (fun _ => ⟨0, 0, 1⟩) _ LLMEngine.verifying_reachable
    .tight (StepEnv.tight_drafting _) [1] LLMEngine.verifying_rejects

end LeanVllm
