import LeanVllm.Layers.ContextChunks

/-!
# Chunks cover the cached keys

The two loops of `plan_context_chunks` share a row and a place in it.  They end by their
own conditions, a chunk never takes more than the budget, and only a row that used up the
budget is left before its end: the next chunk begins there.
-/

namespace LeanVllm

open Collections

/-! ## The loops as they run -/

/-- The inner loop, until its condition fails. -/
inductive FillRun (contextLens : List Nat) (budget : Nat) : Packing → Packing → Prop
  | done {s : Packing} (stop : ∀ len, contextLens[s.row]? = some len → len = 0 ∨ budget ≤ s.used) :
      FillRun contextLens budget s s
  | turn {s t : Packing} {len : Nat} (found : contextLens[s.row]? = some len) (some : len ≠ 0)
      (room : s.used < budget) (rest : FillRun contextLens budget (s.takeRow budget len) t) :
      FillRun contextLens budget s t

/-- The outer loop from a row and a place in it, until the rows are used up. -/
inductive PlanRun (contextLens : List Nat) (budget : Nat) : Nat → Nat → List ChunkPlan → Prop
  | done {row start : Nat} (past : contextLens[row]? = none) :
      PlanRun contextLens budget row start []
  | skip {row start : Nat} {plans : List ChunkPlan} (empty : contextLens[row]? = some 0)
      (rest : PlanRun contextLens budget (row + 1) start plans) :
      PlanRun contextLens budget row start plans
  | chunk {row start len : Nat} {s : Packing} {plans : List ChunkPlan}
      (found : contextLens[row]? = some (len + 1))
      (filled : FillRun contextLens budget ⟨row, start, 0, [], []⟩ s)
      (rest : PlanRun contextLens budget s.row s.start plans) :
      PlanRun contextLens budget row start (⟨row, s.starts, s.lens⟩ :: plans)

section Plan

variable {contextLens : List Nat} {budget first place : Nat} {s : Packing}

theorem Packing.Fills.run (fills : Fills contextLens budget first place s) {fuel : Nat}
    (enough : contextLens.length < s.row + fuel) :
    FillRun contextLens budget s (Packing.fill contextLens budget fuel s) := by
  induction fuel generalizing s with
  | zero => exact absurd fills.row_le (by omega)
  | succ fuel ih =>
      unfold Packing.fill
      split
      · rename_i past
        exact .done fun len found => absurd (past.symm.trans found) (by simp)
      · rename_i len found
        split
        · rename_i going
          refine .turn found going.1 going.2 ?_
          have own : contextLens.getD s.row 0 = len := by simp [List.getD_eq_getElem?_getD, found]
          by_cases done : s.start + min (len - s.start) (budget - s.used) = len
          · refine ih (fills.takeRow found going.1 going.2).1 ?_
            simp only [Packing.takeRow, if_pos done]
            omega
          · -- a row cut short has used up the budget
            have full : budget ≤ (s.takeRow budget len).used := by
              have inside := fills.inside
              simp only [Packing.takeRow]
              omega
            rw [Packing.fill_of_full full]
            exact .done fun _ _ => .inr full
        · rename_i stop
          refine .done fun other there => ?_
          obtain rfl := Option.some.inj (found.symm.trans there)
          omega

theorem planLoop_run (budget_pos : 0 < budget) {fuel row start : Nat}
    (between : KeyPlace contextLens row start place)
    (enough : contextLens.length + contextLens.sum ≤ fuel + row + place) :
    PlanRun contextLens budget row start (planLoop contextLens budget fuel row start) := by
  induction fuel generalizing row start place with
  | zero =>
      have le := between.le
      have row_le := between.row_le
      exact .done (List.getElem?_eq_none (by omega))
  | succ fuel ih =>
      unfold planLoop
      split
      · rename_i past
        exact .done past
      · rename_i empty
        exact .skip empty (ih (between.skip empty) (by omega))
      · rename_i len found
        obtain ⟨fills, _, lower⟩ := (between.fills budget).fill (contextLens.length + 1)
        have some := (between.fills budget).fill_pos found budget_pos contextLens.length
        refine .chunk found ((between.fills budget).run (by simp only; omega)) ?_
        exact ih ⟨fills.place, fills.inside, fills.row_le⟩ (by
          simp only at lower
          omega)

/-! ## Which rows are cut -/

/-- Packing a chunk: a row begins where the chunk before left it only if it is the
chunk's first, and is left before its end only if it is the last. -/
structure Packing.Cuts (contextLens : List Nat) (budget first : Nat) (s : Packing) : Prop where
  starts : ∀ k < s.lens.length, 0 < k → s.starts.getD k 0 = 0
  ends : ∀ k < s.lens.length, k + 1 < s.lens.length ∨ s.used < budget →
    s.starts.getD k 0 + s.lens.getD k 0 = contextLens.getD (first + k) 0
  resumed : s.used < budget → s.lens ≠ [] → s.start = 0
  bounded : s.used ≤ budget

theorem Packing.Cuts.takeRow (cuts : Cuts contextLens budget first s)
    (fills : Fills contextLens budget first place s) {len : Nat}
    (found : contextLens[s.row]? = some len) (room : s.used < budget) :
    Cuts contextLens budget first (s.takeRow budget len) := by
  have own : contextLens.getD s.row 0 = len := by simp [List.getD_eq_getElem?_getD, found]
  have within := fills.inside
  have row := fills.aligned room
  have counted := fills.counted
  have added : ∀ (values : List Nat) (value k : Nat), (values ++ [value]).getD k 0 =
      if k < values.length then values.getD k 0 else if k = values.length then value else 0 := by
    intro values value k
    rcases Nat.lt_trichotomy k values.length with less | rfl | more
    · rw [List.getD_append _ _ _ _ less, if_pos less]
    · simp [List.getD_eq_getElem?_getD]
    · rw [List.getD_eq_default _ _ (by simp; omega), if_neg (by omega), if_neg (by omega)]
  constructor
  · simp only [Packing.takeRow, List.length_append, List.length_singleton, added]
    intro k small positive
    by_cases earlier : k < s.lens.length
    · rw [if_pos (counted ▸ earlier), cuts.starts k earlier positive]
    · have last : k = s.lens.length := by omega
      have nonempty : s.lens ≠ [] := List.ne_nil_of_length_pos (by omega)
      rw [if_neg (by omega), if_pos (by omega), cuts.resumed room nonempty]
  · simp only [Packing.takeRow, List.length_append, List.length_singleton, added]
    intro k small whole
    by_cases earlier : k < s.lens.length
    · rw [if_pos (counted ▸ earlier), if_pos earlier, cuts.ends k earlier (.inr room)]
    · obtain rfl : k = s.lens.length := by omega
      rw [if_neg (by omega), if_pos (by omega), if_neg (by omega), if_pos rfl, ← row, own]
      omega
  · simp only [Packing.takeRow]
    intro below _
    rw [if_pos (by omega)]
  · simp only [Packing.takeRow]
    omega

theorem Packing.Cuts.fill (cuts : Cuts contextLens budget first s)
    (fills : Fills contextLens budget first place s) (fuel : Nat) :
    Cuts contextLens budget first (Packing.fill contextLens budget fuel s) := by
  induction fuel generalizing s with
  | zero => exact cuts
  | succ fuel ih =>
      unfold Packing.fill
      split
      · exact cuts
      · rename_i len found
        split
        · rename_i going
          exact ih (cuts.takeRow fills found going.2) (fills.takeRow found going.1 going.2).1
        · exact cuts

/-- A planned chunk within its budget, cut only at its first and its last row. -/
structure ChunkPlan.Cut (contextLens : List Nat) (budget : Nat) (plan : ChunkPlan) : Prop where
  within : plan.lens.sum ≤ budget
  starts : ∀ k < plan.lens.length, 0 < k → plan.starts.getD k 0 = 0
  ends : ∀ k < plan.lens.length, k + 1 < plan.lens.length →
    plan.starts.getD k 0 + plan.lens.getD k 0 = contextLens.getD (plan.first + k) 0

theorem planLoop_cut {fuel row start : Nat}
    (between : KeyPlace contextLens row start place) :
    ∀ plan ∈ planLoop contextLens budget fuel row start, plan.Cut contextLens budget := by
  induction fuel generalizing row start place with
  | zero => exact fun plan member => absurd member List.not_mem_nil
  | succ fuel ih =>
      unfold planLoop
      split
      · exact fun plan member => absurd member List.not_mem_nil
      · rename_i empty
        exact ih (between.skip empty)
      · rename_i len found
        obtain ⟨fills, _, lower⟩ := (between.fills budget).fill (contextLens.length + 1)
        have fresh : Packing.Cuts contextLens budget row ⟨row, start, 0, [], []⟩ :=
          ⟨fun _ small => absurd small (Nat.not_lt_zero _),
            fun _ small => absurd small (Nat.not_lt_zero _), fun _ some => absurd rfl some,
            Nat.zero_le _⟩
        have cuts := fresh.fill (between.fills budget) (contextLens.length + 1)
        have after : KeyPlace contextLens _ _ _ := ⟨fills.place, fills.inside, fills.row_le⟩
        intro plan member
        rcases List.mem_cons.mp member with rfl | later
        · exact ⟨fills.used ▸ cuts.bounded, cuts.starts, fun k small more =>
            cuts.ends k small (.inl more)⟩
        · exact ih after plan later

end Plan

/-! ## The chunks of a step -/

/-- The cached keys in order: by row, and by position in a row. -/
theorem pairwise_keysOf (contextLens : List Nat) :
    (keysOf contextLens).Pairwise (Prod.Lex (· < ·) (· < ·)) := by
  refine List.pairwise_flatMap.mpr ⟨fun r _ => ?_, ?_⟩
  · exact List.pairwise_map.mpr (List.pairwise_lt_range.imp fun less => Prod.Lex.right r less)
  · refine List.pairwise_lt_range.imp fun less => ?_
    rintro first among second later
    obtain ⟨p, _, rfl⟩ := List.mem_map.mp among
    obtain ⟨q, _, rfl⟩ := List.mem_map.mp later
    exact Prod.Lex.left p q less

/-- `plan_context_chunks` ends and plans every cached key once and in order, in chunks
within the budget that cut only their first and last rows; `context_chunks` gives a chunk
its rows' queries and each key its own slot. -/
theorem context_chunks_cover (contextLens : List Nat) {budget : Nat} (budget_pos : 0 < budget) :
    ∃ plans, planContextChunks contextLens budget = some plans ∧
      PlanRun contextLens budget 0 0 plans ∧
      (∀ plan ∈ plans, plan.Wf ∧ plan.Cut contextLens budget ∧
        plan.first + plan.lens.length ≤ contextLens.length) ∧
      (plans.flatMap ChunkPlan.keys).Pairwise (Prod.Lex (· < ·) (· < ·)) ∧
      (∀ row p, (row, p) ∈ plans.flatMap ChunkPlan.keys ↔
        row < contextLens.length ∧ p < contextLens.getD row 0) ∧
      ∀ (queryLens : List Nat) (blockTables : List (List Int)) (blockSize : Nat),
        queryLens.length = contextLens.length → blockTables.length = contextLens.length →
        (∀ row < contextLens.length, ∀ p < contextLens.getD row 0,
          p / blockSize < (blockTables.getD row []).length) →
        contextChunks (cumsum queryLens) (cumsum (List.zipWith (· + ·) contextLens queryLens))
            blockTables blockSize budget =
          some (plans.map (ChunkPlan.described queryLens blockTables blockSize)) := by
  obtain ⟨plans, planned, covered, wf⟩ := planContextChunks_spec contextLens budget_pos
  have start : KeyPlace contextLens 0 0 0 :=
    ⟨by rw [getD_cumsum (Nat.zero_le _)]; rfl, .inl rfl, Nat.zero_le _⟩
  have loop : plans = planLoop contextLens budget (contextLens.length + contextLens.sum) 0 0 := by
    rw [planContextChunks, if_neg (Nat.ne_of_gt budget_pos)] at planned
    exact (Option.some.inj planned).symm
  have known : ∀ plan ∈ plans, ∀ key ∈ plan.keys, key ∈ keysOf contextLens := by
    intro plan among key own
    rw [← covered]
    exact List.mem_flatMap.mpr ⟨plan, among, own⟩
  have fits : ∀ plan ∈ plans, plan.first + plan.lens.length ≤ contextLens.length :=
    fun plan among => (wf plan among).fits (known plan among)
  refine ⟨plans, planned, ?_, fun plan among => ⟨wf plan among, ?_, fits plan among⟩, ?_, ?_, ?_⟩
  · rw [loop]
    exact planLoop_run budget_pos start (by omega)
  · rw [loop] at among
    exact planLoop_cut start plan among
  · rw [covered]
    exact pairwise_keysOf contextLens
  · intro row p
    rw [covered]
    exact mem_keysOf
  · intro queryLens blockTables blockSize sameRows sameTables wide
    have lens : List.zipWith (· - ·)
        (AttentionContext.steps (cumsum (List.zipWith (· + ·) contextLens queryLens)))
        (AttentionContext.steps (cumsum queryLens)) = contextLens := by
      rw [AttentionContext.steps_cumsum, AttentionContext.steps_cumsum]
      apply List.ext_getElem
      · simp [sameRows]
      · intro row _ _
        simp
    rw [contextChunks, lens, planned]
    refine mapM_eq_some fun plan among => plan.chunk_eq (sameRows ▸ fits plan among) ?_
    intro key own
    obtain ⟨inRows, cached⟩ := mem_keysOf.mp (known plan among key own)
    have inTable := wide _ inRows _ cached
    rw [List.getD_eq_getElem?_getD, List.getElem?_eq_getElem (sameTables ▸ inRows),
      Option.getD_some] at inTable
    exact ⟨_, _, List.getElem?_eq_getElem _, List.getElem?_eq_getElem inTable⟩

/-- Four rows, one without cached keys and one longer than the budget. -/
theorem context_chunks_cover_fourRows :
    ∃ plans, planContextChunks [3, 0, 5, 1] 4 = some plans ∧
      (∀ row p, (row, p) ∈ plans.flatMap ChunkPlan.keys ↔
        row < 4 ∧ p < [3, 0, 5, 1].getD row 0) ∧
      contextChunks (cumsum [1, 1, 2, 1]) (cumsum [4, 1, 7, 2])
          [[7, 2, -1], [8, -1, -1], [5, 6, 3], [9, -1, -1]] 2 4 =
        some (plans.map (ChunkPlan.described [1, 1, 2, 1]
          [[7, 2, -1], [8, -1, -1], [5, 6, 3], [9, -1, -1]] 2)) := by
  obtain ⟨plans, planned, _, _, _, cover, chunks⟩ :=
    context_chunks_cover [3, 0, 5, 1] (show 0 < 4 by decide)
  exact ⟨plans, planned, cover, chunks [1, 1, 2, 1]
    [[7, 2, -1], [8, -1, -1], [5, 6, 3], [9, -1, -1]] 2 rfl rfl (by decide)⟩

end LeanVllm
