import LeanVllm.Collections.Segments

/-!
# The attention context and its split

What an attention backend reads of a step: where the queries and the keys of
each row lie, on the device and as the host knows it, and the block tables.
`split_decodes_and_prefills` cuts the leading rows with one number of queries
each off the others.
-/

namespace LeanVllm

open Collections

/-- `Context`, as far as attention backends read it. -/
structure AttentionContext where
  isPrefill : Bool
  cuSeqlensQ : List Nat
  cuSeqlensK : List Nat
  maxSeqlenQ : Nat
  maxSeqlenK : Nat
  cuSeqlensQHost : List Nat
  cuSeqlensKHost : List Nat
  contextLens : List Nat
  blockTables : Option (List (List Int))
  deriving DecidableEq, Repr

namespace AttentionContext

/-- The lengths between running totals. -/
def steps (totals : List Nat) : List Nat :=
  List.zipWith (fun start stop => stop - start) totals totals.tail

/-- The running totals from the `n`-th on, counted from there. -/
def totalsFrom (totals : List Nat) (n : Nat) : List Nat :=
  (totals.drop n).map (· - totals.getD n 0)

/-- How many leading rows have `queryLen` queries. -/
def numDecodes (context : AttentionContext) (queryLen : Nat) : Nat :=
  let lens := steps context.cuSeqlensQHost
  ((List.range lens.length).find? fun r => lens.getD r 0 ≠ queryLen).getD lens.length

/-- `split_decodes_and_prefills`: the number of leading rows with `queryLen` queries,
their context, and the context of the others. -/
def splitDecodesAndPrefills (context : AttentionContext) (queryLen : Nat) :
    Nat × Option AttentionContext × Option AttentionContext :=
  match context.blockTables with
  -- no block tables; the batch stays in the prefill group
  | none => (0, none, some context)
  | some tables =>
      let numRows := context.cuSeqlensQHost.length - 1
      let n := context.numDecodes queryLen
      let decodes :=
        if n = 0 then none
        else some
          { isPrefill := false
            cuSeqlensQ := context.cuSeqlensQ.take (n + 1)
            cuSeqlensK := context.cuSeqlensK.take (n + 1)
            cuSeqlensQHost := context.cuSeqlensQHost.take (n + 1)
            cuSeqlensKHost := context.cuSeqlensKHost.take (n + 1)
            maxSeqlenQ := queryLen
            maxSeqlenK := ((steps context.cuSeqlensKHost).take n).foldl max 0
            contextLens := context.contextLens.take n
            blockTables := some (tables.take n) }
      let prefills :=
        if n = 0 then some context
        else if n < numRows then some
          { isPrefill := true
            cuSeqlensQ := (context.cuSeqlensQ.drop n).map (· - context.cuSeqlensQHost.getD n 0)
            -- the device's own offset: rows moved back there keep stale lengths on the host
            cuSeqlensK := totalsFrom context.cuSeqlensK n
            cuSeqlensQHost := totalsFrom context.cuSeqlensQHost n
            cuSeqlensKHost := totalsFrom context.cuSeqlensKHost n
            maxSeqlenQ := (steps (totalsFrom context.cuSeqlensQHost n)).foldl max 0
            maxSeqlenK := (steps (totalsFrom context.cuSeqlensKHost n)).foldl max 0
            contextLens := context.contextLens.drop n
            blockTables := some (tables.drop n) }
        else none
      (n, decodes, prefills)

/-! ## Running totals and the rows they are of -/

theorem steps_cumsum (lens : List Nat) : steps (cumsum lens) = lens := by
  apply List.ext_getElem
  · simp [steps, length_cumsum]
  · intro r inside within
    have stop := getD_cumsum_succ within
    have long : r + 1 < (cumsum lens).length := by rw [length_cumsum]; omega
    have first : (cumsum lens).getD r 0 = (cumsum lens)[r] := by
      simp [List.getD_eq_getElem?_getD, Nat.lt_of_succ_lt long]
    have second : (cumsum lens).getD (r + 1) 0 = (cumsum lens)[r + 1] := by
      simp [List.getD_eq_getElem?_getD, long]
    have own : lens.getD r 0 = lens[r] := by simp [List.getD_eq_getElem?_getD, within]
    simp only [steps, List.getElem_zipWith, List.getElem_tail]
    omega

theorem totalsFrom_cumsum {lens : List Nat} {n : Nat} (inside : n ≤ lens.length) :
    totalsFrom (cumsum lens) n = cumsum (lens.drop n) := by
  apply List.ext_getElem
  · simp only [totalsFrom, List.length_map, List.length_drop, length_cumsum]
    omega
  · intro r within _
    simp only [totalsFrom, List.length_map, List.length_drop, length_cumsum] at within
    have split : (lens.take (n + r)).sum = (lens.take n).sum + ((lens.drop n).take r).sum := by
      rw [List.take_add, List.sum_append]
    simp only [totalsFrom, getD_cumsum inside, List.getElem_map, List.getElem_drop]
    simp only [cumsum, List.getElem_map, List.getElem_range]
    omega

/-- The first rows' running totals. -/
theorem take_cumsum {lens : List Nat} {n : Nat} (inside : n ≤ lens.length) :
    (cumsum lens).take (n + 1) = cumsum (lens.take n) := by
  apply List.ext_getElem
  · simp only [List.length_take, length_cumsum]
    omega
  · intro r small _
    simp only [List.length_take, length_cumsum] at small
    simp only [List.getElem_take, cumsum, List.getElem_map, List.getElem_range, List.take_take]
    rw [Nat.min_eq_left (by omega)]

/-- The leading rows have `queryLen` queries, and the row after them has not. -/
theorem numDecodes_spec {context : AttentionContext} {lens : List Nat}
    (host : context.cuSeqlensQHost = cumsum lens) (queryLen : Nat) :
    context.numDecodes queryLen ≤ lens.length ∧
      (∀ r < context.numDecodes queryLen, lens.getD r 0 = queryLen) ∧
      (context.numDecodes queryLen < lens.length →
        lens.getD (context.numDecodes queryLen) 0 ≠ queryLen) := by
  simp only [numDecodes, host, steps_cumsum]
  cases found : (List.range lens.length).find? fun r => lens.getD r 0 ≠ queryLen with
  | none =>
      rw [List.find?_eq_none] at found
      refine ⟨Nat.le_refl _, ?_, fun short => absurd short (Nat.lt_irrefl _)⟩
      intro r inside
      simpa using found r (List.mem_range.mpr inside)
  | some n =>
      obtain ⟨other, first⟩ := List.find?_range_eq_some.mp found
      simp only [Option.getD_some]
      refine ⟨Nat.le_of_lt (List.mem_range.mp first.1), ?_, fun _ => by simpa using other⟩
      intro r inside
      simpa using first.2 r inside

/-- Where the host has the rows of the prefill group right, it has the group's key
lengths right. -/
theorem prefills_exact {context : AttentionContext} {lens hostLens : List Nat} {queryLen : Nat}
    (queries : context.cuSeqlensQHost = cumsum lens)
    (keys : context.cuSeqlensK = cumsum context.contextLens)
    (hostKeys : context.cuSeqlensKHost = cumsum hostLens)
    (counted : hostLens.length = lens.length ∧ context.contextLens.length = lens.length)
    (tables : context.blockTables.isSome)
    (exact : hostLens.drop (context.numDecodes queryLen) =
      context.contextLens.drop (context.numDecodes queryLen))
    {group : AttentionContext}
    (split : (context.splitDecodesAndPrefills queryLen).2.2 = some group) :
    group.contextLens = context.contextLens.drop (context.numDecodes queryLen) ∧
      group.cuSeqlensK = cumsum group.contextLens ∧
      group.cuSeqlensKHost = group.cuSeqlensK := by
  have few := (numDecodes_spec queries queryLen).1
  obtain ⟨table, found⟩ := Option.isSome_iff_exists.mp tables
  simp only [splitDecodesAndPrefills, found] at split
  split at split
  · rename_i none
    obtain rfl := Option.some.inj split
    rw [none, List.drop_zero, List.drop_zero] at exact
    rw [none, List.drop_zero, hostKeys, keys, exact]
    exact ⟨rfl, rfl, rfl⟩
  · split at split
    · obtain rfl := Option.some.inj split
      refine ⟨rfl, ?_, ?_⟩
      · simp only [keys]
        exact totalsFrom_cumsum (by omega)
      · simp only [keys, hostKeys]
        rw [totalsFrom_cumsum (by omega), totalsFrom_cumsum (by omega), exact]
    · contradiction

end AttentionContext

end LeanVllm
