import LeanVllm.Collections.Rations
import LeanVllm.Engine.Progress
import LeanVllm.Engine.Records
import LeanVllm.Engine.StepLimits

/-!
# Decode is never starved

Under `fcfs` with chunked prefill, without speculation and without a connector,
a request is admitted only behind running sequences whose demands leave some of
the step's budget and rows.  Demands never grow, so in every later step the
budget and the rows still reach everyone who runs.
-/

namespace LeanVllm

open Collections

namespace Sequence

/-- The reserved tokens reach the limit. -/
def AtLimit (seq : Sequence) : Prop :=
  seq.maxTokens ≤ seq.numPlannedTokens - seq.numPromptTokens

/-- The part of a prompt one step takes, if the budget reaches. -/
def chunk (cfg : Config) (remaining : Nat) : Nat :=
  if cfg.longPrefillTokenThreshold = 0 then remaining
  else min remaining cfg.longPrefillTokenThreshold

/-- What a step gives a running sequence if the budget reaches: nothing at its
limit, a chunk of its prompt, or one token. -/
def demand (cfg : Config) (seq : Sequence) : Nat :=
  if seq.maxTokens ≤ seq.numPlannedTokens - seq.numPromptTokens then 0
  else if seq.isPrefill then chunk cfg (seq.numTokens - seq.numCachedTokens)
  else 1

variable {cfg : Config} {seq after : Sequence} {reserved : Nat}

theorem chunk_le_chunk {first second : Nat} (le : first ≤ second) :
    chunk cfg first ≤ chunk cfg second := by
  unfold chunk
  split <;> omega

theorem chunk_pos {remaining : Nat} (some : 0 < remaining) : 0 < chunk cfg remaining := by
  unfold chunk
  split <;> omega

theorem demand_atLimit (limit : seq.AtLimit) : seq.demand cfg = 0 :=
  if_pos limit

theorem demand_prefill (below : ¬ seq.AtLimit) (prefill : seq.isPrefill = true) :
    seq.demand cfg = chunk cfg (seq.numTokens - seq.numCachedTokens) :=
  (if_neg below).trans (if_pos prefill)

theorem demand_decode (below : ¬ seq.AtLimit) (decoding : seq.isPrefill = false) :
    seq.demand cfg = 1 :=
  (if_neg below).trans (if_neg (by simp [decoding]))

/-- The demand depends on the limit, the phase and what is left to prefill. -/
theorem demand_congr (limit : after.AtLimit ↔ seq.AtLimit)
    (prefill : after.isPrefill = seq.isPrefill)
    (remaining : after.isPrefill = true →
      after.numTokens - after.numCachedTokens = seq.numTokens - seq.numCachedTokens) :
    after.demand cfg = seq.demand cfg := by
  by_cases reached : seq.AtLimit
  · rw [demand_atLimit reached, demand_atLimit (limit.mpr reached)]
  · have below : ¬ after.AtLimit := fun also => reached (limit.mp also)
    cases phase : seq.isPrefill with
    | true =>
        rw [phase] at prefill
        rw [demand_prefill reached phase, demand_prefill below prefill, remaining prefill]
    | false =>
        rw [phase] at prefill
        rw [demand_decode reached phase, demand_decode below prefill]

theorem Active.demand_pos (active : seq.Active cfg reserved) (below : ¬ seq.AtLimit) :
    0 < seq.demand cfg := by
  cases prefill : seq.isPrefill with
  | true =>
      rw [demand_prefill below prefill]
      exact chunk_pos (Nat.sub_pos_of_lt (active.prefilling prefill).2.2.1)
  | false =>
      rw [demand_decode below prefill]
      exact Nat.one_pos

/-- What is scheduled is the demand, as far as the budget reaches. -/
theorem numToSchedule_eq_min (chunked : cfg.enableChunkedPrefill = true)
    (prefill : seq.isPrefill = true) (below : ¬ seq.AtLimit) (budget : Nat) :
    seq.numToSchedule cfg budget = min (seq.demand cfg) budget := by
  rw [demand_prefill below prefill]
  simp only [numToSchedule, chunk, prefill, chunked, if_true, true_and]
  by_cases unbounded : cfg.longPrefillTokenThreshold = 0
  · simp [unbounded]
  · simp only [ne_eq, unbounded, not_false_eq_true, if_true, if_false]
    omega

/-- A launch lowers the demand. -/
theorem Active.demand_advanced (active : seq.Active cfg reserved) (n : Nat) :
    (seq.advanced cfg n).demand cfg ≤ seq.demand cfg := by
  by_cases reached : seq.AtLimit
  · have still : (seq.advanced cfg n).AtLimit := by
      simp only [AtLimit, numPlannedTokens, numTokens] at reached ⊢
      unfold Sequence.advanced
      split <;> dsimp only <;> omega
    rw [demand_atLimit still]
    exact Nat.zero_le _
  · by_cases samples : seq.Samples
    · refine le_trans ?_ (active.demand_pos reached)
      have decoding : (seq.advanced cfg n).isPrefill = false := by
        rw [Sequence.advanced, if_pos samples]
      by_cases limit : (seq.advanced cfg n).AtLimit
      · rw [demand_atLimit limit]
        exact Nat.zero_le _
      · exact (demand_decode limit decoding).le
    · have below : ¬ (seq.advanced cfg n).AtLimit := by
        rw [Sequence.advanced, if_neg samples]
        exact reached
      have phase : (seq.advanced cfg n).isPrefill = seq.isPrefill := by
        rw [Sequence.advanced, if_neg samples]
      cases prefill : seq.isPrefill with
      | true =>
          rw [prefill] at phase
          rw [demand_prefill reached prefill, demand_prefill below phase]
          apply chunk_le_chunk
          rw [Sequence.advanced, if_neg samples]
          exact Nat.sub_le_sub_left (Nat.le_add_right _ _) _
      | false =>
          rw [prefill] at phase
          rw [demand_decode reached prefill, demand_decode below phase]

/-- Committing the one token of a plain row leaves the demand as it was. -/
theorem demand_committed (cfg : Config) (decoding : seq.isPrefill = false)
    (token : Token) (some : 0 < seq.numPendingTokens) (hashes : List Hash) (spec : List Token) :
    { seq.committed 0 [token] hashes with specTokenIds := spec }.demand cfg = seq.demand cfg := by
  refine demand_congr ?_ rfl ?_
  · simp only [AtLimit, numPlannedTokens, numTokens, Sequence.committed, List.length_append,
      List.length_singleton]
    omega
  · intro prefill
    exact absurd (decoding.symm.trans prefill) (by simp)

end Sequence

namespace Scheduler

variable {cfg : Config} {s last : Scheduler} {rows : List LaunchedRow} {i : SeqId}

/-- The demands of a line of sequences. -/
def demands (cfg : Config) (s : Scheduler) (line : List SeqId) : List Nat :=
  line.map fun i => (s.heap i).demand cfg

theorem demands_congr {line : List SeqId} {after : Scheduler}
    (same : ∀ j ∈ line, (after.heap j).demand cfg = (s.heap j).demand cfg) :
    after.demands cfg line = s.demands cfg line :=
  List.map_congr_left same

/-- The step's budget and rows reach every running sequence. -/
def Provided (cfg : Config) (s : Scheduler) : Prop :=
  Suffices cfg.maxNumBatchedTokens cfg.maxNumSeqs (s.demands cfg s.running)

/-- Who leaves, and who asks for less, leaves more for the others. -/
theorem Provided.update {after : Scheduler} (provided : s.Provided cfg)
    (fewer : after.running.Sublist s.running)
    (lower : ∀ j ∈ after.running, (after.heap j).demand cfg ≤ (s.heap j).demand cfg) :
    after.Provided cfg := by
  have kept : Suffices _ _ (s.demands cfg after.running) := provided.sublist (fewer.map _)
  refine kept.lower ?_
  rw [demands, demands, List.forall₂_map_left_iff, List.forall₂_map_right_iff, List.forall₂_same]
  exact lower

/-! ## One turn -/

/-- A decoding sequence without drafts misses at most one block. -/
theorem numMissingBlocks_le_one {seq : Sequence} {reserved : Nat}
    (active : seq.Active cfg reserved) (decoding : seq.isPrefill = false) :
    BlockManager.numMissingBlocks cfg seq 0 ≤ 1 := by
  have frontier := (active.decoding decoding).1
  have covered := active.covered
  have positive := cfg.blockSize_pos
  have few : BlockManager.numBlocks cfg seq 0 ≤ seq.blockTable.length + 1 := by
    unfold BlockManager.numBlocks
    apply Nat.le_of_lt_succ
    rw [Nat.div_lt_iff_lt_mul positive, Nat.succ_eq_add_one, Nat.add_mul, Nat.add_mul]
    omega
  unfold BlockManager.numMissingBlocks
  omega

/-- The settings under which decode is never starved. -/
structure Steady (cfg : Config) : Prop where
  fcfs : cfg.schedulingPolicy = .fcfs
  chunked : cfg.enableChunkedPrefill = true
  plain : cfg.numSpeculativeTokens = 0
  isolated : cfg.kvTransfer = none

theorem MakesRoom.isolated {numLookahead : Nat} {stillRunning : List SeqId}
    {output : SchedulerOutput} {room : Room}
    (makes : MakesRoom cfg i numLookahead s stillRunning output room) (still : s.Isolated) :
    room.sched.Isolated := by
  induction makes with
  | preempt short chosen freed rest ih => exact ih still
  | grant | giveWay | defer | drop => exact still

theorem Serves.isolated {p p' : Pass} (serves : Serves cfg p i p') (still : p.sched.Isolated) :
    p'.sched.Isolated := by
  cases serves with
  | skip | limit | prefill => exact still
  | decode left below decoding makes => exact makes.isolated (s := p.sched.setSeq i _) still
  | refuse left below decoding makes => exact makes.isolated (s := p.sched.setSeq i _) still

theorem Served.demand {before after : Sequence} (served : Served before after) :
    after.demand cfg = before.demand cfg := by
  obtain ⟨spec, table, n, rfl⟩ := served
  exact Sequence.demand_congr Iff.rfl rfl fun _ => rfl

/-- The turn of a sequence the budget reaches: it gets its demand, it stands at
its limit, it gives way, or it waits for its own token while no block is
free. -/
inductive Pass.Attends (cfg : Config) (p : Pass) (i : SeqId) (p' : Pass) : Prop
  | served (kept : p'.stillRunning = p.stillRunning ++ [i])
      (scheduled : p'.output.scheduled = p.output.scheduled ++ [i])
      (budget : p'.budget = p.budget - (p.sched.heap i).demand cfg)
      (asks : 0 < (p.sched.heap i).demand cfg)
  | limit (kept : p'.stillRunning = p.stillRunning ++ [i])
      (scheduled : p'.output.scheduled = p.output.scheduled) (budget : p'.budget = p.budget)
      (reached : (p.sched.heap i).AtLimit)
  | gone (kept : p'.stillRunning = p.stillRunning)
      (scheduled : p'.output.scheduled = p.output.scheduled) (budget : p'.budget = p.budget)
      (logged : i ∈ p'.output.preempted ∨ i ∈ p'.output.dropped)
  | deferred (last : p'.sched.running = [])
      (full : p'.sched.blockManager.freeBlockQueue = [])
      (pending : (p.sched.heap i).numPendingTokens ≠ 0)

theorem Serves.attends {p p' : Pass} {reserved : Nat} (serves : Serves cfg p i p')
    (steady : Steady cfg) (distinct : (i :: p.sched.running).Nodup) (still : p.sched.Isolated)
    (active : (p.sched.heap i).Active cfg reserved)
    (reaches : 0 < (p.sched.heap i).demand cfg → ¬ p.Spent cfg) : Pass.Attends cfg p i p' := by
  cases serves with
  | skip spent =>
      refine .limit rfl rfl rfl ?_
      by_contra below
      exact reaches (active.demand_pos below) spent
  | limit left reached => exact .limit rfl rfl rfl reached
  | prefill left below prefill numEq =>
      have below' : ¬ (p.sched.heap i).AtLimit := Nat.not_le_of_lt below
      refine .served rfl rfl ?_ (active.demand_pos below')
      rw [← numEq, Sequence.numToSchedule_eq_min steady.chunked prefill below']
      dsimp only
      omega
  | @decode left below decoding room bm fresh seq makes granted seqEq appended =>
      have below' : ¬ (p.sched.heap i).AtLimit := Nat.not_le_of_lt below
      have frame := makes.frame distinct
      obtain ⟨same, heapEq, _⟩ := frame.granted granted
      rw [setSeq_heap_self] at heapEq
      have none : seq.specTokenIds.length = 0 := by
        have drafts := (active.decoding decoding).2
        rw [seqEq, heapEq, Sequence.trimmed, List.length_take]
        rw [steady.plain] at drafts
        omega
      refine .served (congrArg (· ++ [i]) same) (congrArg (· ++ [i]) frame.scheduled) ?_
        (active.demand_pos below')
      rw [Sequence.demand_decode below' decoding]
      dsimp only
      rw [none]
  | @refuse left below decoding room makes refused =>
      have frame := makes.frame distinct
      rcases (makes.outcome distinct).refused refused with
        ⟨same, logged⟩ | ⟨_, last, _, short, unsettled⟩
      · exact .gone same frame.scheduled rfl logged
      · rw [setSeq_heap_self] at short unsettled
        refine .deferred last ?_ ?_
        · have lookahead : p.lookahead cfg i = 0 := by
            have drafts := (active.decoding decoding).2
            rw [steady.plain] at drafts
            simp only [Pass.lookahead, Sequence.trimmed, List.length_take,
              Config.numLookaheadTokens, steady.plain]
            omega
          have few := numMissingBlocks_le_one active decoding
          rw [lookahead, BlockManager.canAppend, decide_eq_false_iff_not, Nat.not_le] at short
          have missing : BlockManager.numMissingBlocks cfg ((p.sched.heap i).trimmed p.budget) 0 =
            BlockManager.numMissingBlocks cfg (p.sched.heap i) 0 := rfl
          rw [missing] at short
          apply List.eq_nil_of_length_eq_zero
          dsimp only
          omega
        · rcases unsettled with pending | moving
          · exact pending
          · have still' : (p.sched.setSeq i ((p.sched.heap i).trimmed p.budget)).Isolated := still
            rw [still'.1, still'.2] at moving
            simp at moving

/-! ## The first loop -/

/-- Sequence `j` got what it could get: it is scheduled, gave way, or stood at
its limit. -/
def Settled (s : Scheduler) (output : SchedulerOutput) (j : SeqId) : Prop :=
  j ∈ output.scheduled ∨ j ∈ output.preempted ∨ j ∈ output.dropped ∨ (s.heap j).AtLimit

theorem Settled.mono {output output' : SchedulerOutput} {j : SeqId}
    (settled : s.Settled output j) (scheduled : output.scheduled ⊆ output'.scheduled)
    (preempted : output.preempted ⊆ output'.preempted)
    (dropped : output.dropped ⊆ output'.dropped) : s.Settled output' j := by
  rcases settled with old | old | old | limit
  · exact Or.inl (scheduled old)
  · exact Or.inr (Or.inl (preempted old))
  · exact Or.inr (Or.inr (Or.inl (dropped old)))
  · exact Or.inr (Or.inr (Or.inr limit))

/-- Sequence `j` waits for its own token while no block is free. -/
def Stalled (s now : Scheduler) (j : SeqId) : Prop :=
  (s.heap j).numPendingTokens ≠ 0 ∧ now.blockManager.freeBlockQueue = []

/-- The budget and the rows left are what the demands of the line leave. -/
structure Paid (cfg : Config) (s : Scheduler) (line : List SeqId) (output : SchedulerOutput)
    (budget : Nat) : Prop where
  tokens : budget = cfg.maxNumBatchedTokens - (s.demands cfg line).sum
  seats : output.scheduled.length = numAsking (s.demands cfg line)

/-- What the first loop keeps, from the scheduler `s` on. -/
structure Pass.Fair (cfg : Config) (s : Scheduler) (p : Pass) : Prop where
  isolated : p.sched.Isolated
  provided : Suffices cfg.maxNumBatchedTokens cfg.maxNumSeqs
    (p.sched.demands cfg (p.stillRunning ++ p.sched.running))
  unserved : ∀ j ∈ p.sched.running, j ∈ s.running ∧ p.sched.heap j = s.heap j
  attended : ∀ j ∈ s.running, j ∈ p.sched.running ∨ s.Settled p.output j ∨
    p.sched.running = [] ∧ s.Stalled p.sched j
  paid : Paid cfg p.sched p.stillRunning p.output p.budget ∨
    p.sched.running = [] ∧ p.sched.blockManager.freeBlockQueue = []

theorem demands_append (s : Scheduler) (first second : List SeqId) :
    s.demands cfg (first ++ second) = s.demands cfg first ++ s.demands cfg second :=
  List.map_append

/-- The budget reaches the sequence whose turn it is. -/
theorem Pass.Fair.reaches {p : Pass} {rest : List SeqId} (fair : p.Fair cfg s)
    (head : p.sched.running = i :: rest) :
    Paid cfg p.sched p.stillRunning p.output p.budget ∧
      (0 < (p.sched.heap i).demand cfg → ¬ p.Spent cfg) := by
  have paid : Paid cfg p.sched p.stillRunning p.output p.budget := by
    rcases fair.paid with paid | ⟨last, _⟩
    · exact paid
    · rw [head] at last
      contradiction
  refine ⟨paid, fun asks spent => ?_⟩
  have provided := fair.provided
  rw [head, demands_append, suffices_append, ← paid.tokens, ← paid.seats] at provided
  obtain ⟨some, free⟩ := provided.2.1 asks
  rcases spent with none | full
  · exact absurd some (by omega)
  · exact absurd free (by omega)

/-- The demands of who keeps a place do not change in a turn. -/
theorem Serves.demands {p p' : Pass} (serves : Serves cfg p i p')
    (distinct : (p.stillRunning ++ i :: p.sched.running).Nodup) :
    ∀ j ∈ p'.stillRunning ++ p'.sched.running,
      (p'.sched.heap j).demand cfg = (p.sched.heap j).demand cfg :=
  fun j kept => (serves.kept distinct j kept).demand

theorem Paid.attends {p next : Pass} (paid : Paid cfg p.sched p.stillRunning p.output p.budget)
    (attends : Pass.Attends cfg p i next)
    (same : next.sched.demands cfg next.stillRunning = p.sched.demands cfg next.stillRunning) :
    Paid cfg next.sched next.stillRunning next.output next.budget ∨
      next.sched.running = [] ∧ next.sched.blockManager.freeBlockQueue = [] := by
  obtain ⟨tokens, seats⟩ := paid
  have snoc : p.sched.demands cfg (p.stillRunning ++ [i]) =
      p.sched.demands cfg p.stillRunning ++ [(p.sched.heap i).demand cfg] :=
    demands_append p.sched p.stillRunning [i]
  have asking : numAsking (p.sched.demands cfg p.stillRunning ++ [(p.sched.heap i).demand cfg]) =
      numAsking (p.sched.demands cfg p.stillRunning) +
        if 0 < (p.sched.heap i).demand cfg then 1 else 0 := by
    simp [numAsking, List.countP_append, List.countP_singleton]
  cases attends with
  | served kept scheduled budget asks =>
      left
      rw [kept, snoc] at same
      constructor
      · rw [budget, kept, same, List.sum_append, List.sum_singleton, tokens, Nat.sub_sub]
      · rw [scheduled, kept, same, asking, if_pos asks, List.length_append, List.length_singleton,
          seats]
  | limit kept scheduled budget reached =>
      left
      rw [kept, snoc, Sequence.demand_atLimit reached] at same
      rw [Sequence.demand_atLimit reached] at asking
      constructor
      · rw [budget, kept, same, List.sum_append, List.sum_singleton, Nat.add_zero, tokens]
      · rw [scheduled, kept, same, asking, if_neg (Nat.lt_irrefl 0), Nat.add_zero, seats]
  | gone kept scheduled budget logged =>
      left
      rw [kept] at same
      constructor
      · rw [budget, kept, same, tokens]
      · rw [scheduled, kept, same, seats]
  | deferred last full pending => exact Or.inr ⟨last, full⟩

/-- A turn of the first loop keeps the pass fair. -/
theorem Pass.Fair.turn {p next : Pass} {rest : List SeqId} (fair : p.Fair cfg s)
    (steady : Steady cfg) (inv : s.Inv cfg s.running rows) (apart : p.Apart)
    (head : p.sched.running = i :: rest)
    (serves : Serves cfg { p with sched := { p.sched with running := rest } } i next)
    (frame : Pass.Frame i { p with sched := { p.sched with running := rest } } next) :
    next.Fair cfg s := by
  have distinct : (p.stillRunning ++ i :: rest).Nodup := head ▸ apart.distinct
  have behind := (apart.idle head).1
  obtain ⟨isRunning, heapEq⟩ := fair.unserved i (by rw [head]; exact List.mem_cons_self)
  have active : (p.sched.heap i).Active cfg (due rows i (s.heap i).numPreemptions) := by
    rw [heapEq]
    exact (inv.running isRunning).2.2.2
  obtain ⟨paid, reaches⟩ := fair.reaches head
  have attends := serves.attends steady behind fair.isolated active reaches
  have same := serves.demands distinct
  refine ⟨serves.isolated fair.isolated, ?_, ?_, ?_, ?_⟩
  · rw [demands_congr same]
    have provided := fair.provided
    rw [head] at provided
    exact provided.sublist (frame.sublist.map _)
  · intro j later
    have inRest := frame.running.subset later
    have other : j ≠ i := by
      rintro rfl
      exact (List.nodup_cons.mp behind).1 inRest
    obtain ⟨ran, old⟩ := fair.unserved j (by rw [head]; exact List.mem_cons_of_mem i inRest)
    exact ⟨ran, (frame.heap j other (Or.inr later)).trans old⟩
  · intro j ran
    have scheduled : p.output.scheduled ⊆ next.output.scheduled := by
      rcases frame.scheduled with unchanged | ⟨grown, _⟩
      · exact fun _ member => unchanged ▸ member
      · rw [grown]
        exact List.subset_append_left _ _
    rcases fair.attended j ran with waits | settled | ⟨last, _⟩
    · rw [head] at waits
      rcases List.mem_cons.mp waits with rfl | later
      · right
        cases attends with
        | served kept scheduled => exact Or.inl (Or.inl (by simp [scheduled]))
        | limit kept scheduled budget reached =>
            exact Or.inl (Or.inr (Or.inr (Or.inr (heapEq ▸ reached))))
        | gone kept scheduled budget logged =>
            exact Or.inl (Or.inr (logged.imp_right Or.inl))
        | deferred last full pending => exact Or.inr ⟨last, heapEq ▸ pending, full⟩
      · rcases serves.others behind j later with stays | evicted
        · exact Or.inl stays
        · exact Or.inr (Or.inl (Or.inr (Or.inl evicted)))
    · exact Or.inr (Or.inl (settled.mono scheduled frame.preempted.subset frame.dropped.subset))
    · rw [head] at last
      contradiction
  · exact Paid.attends (p := { p with sched := { p.sched with running := rest } })
      ⟨paid.tokens, paid.seats⟩ attends
      (demands_congr fun j kept => same j (List.mem_append_left _ kept))

/-- The first loop attends to everyone who ran. -/
theorem ServesAll.fair {p last : Pass} (serves : ServesAll cfg p last) (steady : Steady cfg)
    (inv : s.Inv cfg s.running rows) (apart : p.Apart) (fair : p.Fair cfg s) : last.Fair cfg s :=
  serves.keep (Pass.Fair cfg s)
    (fun apart head serves frame fair => fair.turn steady inv apart head serves frame) apart fair

/-! ## The second loop -/

/-- What the second loop keeps: the rations suffice for all who run, and either
they are accounted for or no block is free. -/
structure Intake.Fair (cfg : Config) (q : Intake) : Prop where
  provided : q.sched.Provided cfg
  paid : Paid cfg q.sched q.sched.running q.output q.budget ∨
    q.sched.blockManager.freeBlockQueue = []

/-- An admission takes at least one free block. -/
theorem Allocates.free_ne_nil {others hits fresh : List BlockId} {bm : BlockManager}
    (allocates : s.Allocates cfg i others bm hits fresh) (queued : (s.heap i).Queued cfg) :
    s.blockManager.freeBlockQueue ≠ [] := by
  intro full
  have nonempty := queued.prompt_pos.trans_le queued.prompt_le
  obtain ⟨result, resultEq, accepted, _⟩ := BlockManager.canAllocate_spec s.blockManager
    queued.hashed queued.settled nonempty cfg.numLookaheadTokens
  obtain rfl := Except.ok.inj (resultEq.symm.trans allocates.offered)
  obtain ⟨blocks, length, _, short, enough⟩ := accepted _ rfl
  have held : s.blockManager.numHeld blocks ≤ blocks.length := List.countP_le_length
  have covers := BlockManager.le_numBlocks_mul cfg (s.heap i) cfg.numLookaheadTokens
  have planned : (s.heap i).numTokens ≤ (s.heap i).numPlannedTokens := Nat.le_add_right _ _
  rw [full, List.length_nil, Nat.zero_add] at enough
  have bounded := Nat.mul_le_mul_right cfg.blockSize (enough.trans (held.trans length.le))
  omega

theorem Intake.Fair.turn {q q' : Intake} (fair : q.Fair cfg) (steady : Steady cfg)
    (pass : PassInv cfg (q.sched, q.output) rows) (turn : Admission cfg someLeft q q') :
    q'.Fair cfg := by
  have same : ∀ {i rest} (seq : Sequence), q.sched.waiting = i :: rest →
      i ∉ q.sched.running ∧ ∀ j ∈ q.sched.running,
        ((q.sched.setSeq i seq).heap j).demand cfg = (q.sched.heap j).demand cfg := by
    intro i rest seq head
    have notRunning := (pass.inv.queued (i := i) (by rw [head]; exact List.mem_cons_self)).2.1
    refine ⟨notRunning, fun j running => ?_⟩
    rw [setSeq_heap_of_ne]
    rintro rfl
    exact notRunning running
  cases turn with
  | @drop i rest head =>
      obtain ⟨notRunning, demands⟩ := same ((q.sched.heap i).closed .capacity) head
      have stays : q.sched.running.erase i = q.sched.running := List.erase_of_not_mem notRunning
      refine ⟨?_, ?_⟩
      · refine fair.provided.update List.erase_sublist ?_
        intro j running
        exact (demands j (List.mem_of_mem_erase running)).le
      · refine fair.paid.imp_left ?_
        rintro ⟨tokens, seats⟩
        have demandsEq := demands_congr demands
        simp only [discard, stays]
        exact ⟨demandsEq ▸ tokens, demandsEq ▸ seats⟩
  | load head fits allocates connected => exact absurd connected (by simp [steady.isolated])
  | @beginRun i rest bm hits fresh params head seats fits allocates loaded mismatch ready =>
      have isQueued := (pass.inv.queued (i := i) (by rw [head]; exact List.mem_cons_self)).2.2.2.1
      have paid := fair.paid.resolve_right (allocates.free_ne_nil isQueued)
      let seq := ((q.sched.heap i).allocated cfg hits fresh).started cfg params q.budget
      have active : seq.Active cfg 0 :=
        isQueued.started allocates.short allocates.covered loaded q.budget
      have below : ¬ seq.AtLimit := by
        have unfinished := active.unfinished
        have settled := active.pending
        simp only [Sequence.AtLimit, Sequence.numPlannedTokens, Sequence.numCompletionTokens]
          at unfinished ⊢
        omega
      obtain ⟨notRunning, demands⟩ := same seq head
      have demandsEq : (q.sched.setSeq i seq).demands cfg (q.sched.running ++ [i]) =
          q.sched.demands cfg q.sched.running ++ [seq.demand cfg] := by
        rw [demands_append, demands_congr demands]
        simp [Scheduler.demands, setSeq_heap_self]
      have asks := active.demand_pos below
      have numEq : ((q.sched.heap i).allocated cfg hits fresh).numToSchedule cfg q.budget =
          min (seq.demand cfg) q.budget := by
        have prefill : seq.isPrefill = true := isQueued.prefill
        exact Sequence.numToSchedule_eq_min steady.chunked prefill below q.budget
      refine ⟨?_, Or.inl ⟨?_, ?_⟩⟩
      · show Suffices _ _ ((q.sched.setSeq i seq).demands cfg (q.sched.running ++ [i]))
        rw [demandsEq, suffices_append, ← paid.tokens, ← paid.seats]
        refine ⟨fair.provided, fun _ => ⟨fits, Nat.sub_pos_of_lt seats⟩, trivial⟩
      · show _ = cfg.maxNumBatchedTokens -
          ((q.sched.setSeq i seq).demands cfg (q.sched.running ++ [i])).sum
        have tokens := paid.tokens
        rw [demandsEq, List.sum_append, List.sum_singleton]
        dsimp only
        omega
      · show (q.output.scheduled ++ [i]).length =
          numAsking ((q.sched.setSeq i seq).demands cfg (q.sched.running ++ [i]))
        have seats := paid.seats
        rw [demandsEq, List.length_append, seats]
        simp [numAsking, List.countP_append, asks]

/-- While no block is free, nobody is admitted. -/
theorem Admissions.full {allowed : Scheduler → SeqId → Nat → Nat → Prop} {q q' : Intake}
    (turns : Admissions cfg allowed q q') (pass : PassInv cfg (q.sched, q.output) rows)
    (full : q.sched.blockManager.freeBlockQueue = []) :
    q'.sched.blockManager.freeBlockQueue = [] := by
  refine (turns.keep (fun q => q.sched.blockManager.freeBlockQueue = []) ?_ pass full).1
  intro q q' pass turn full
  cases turn with
  | drop head => exact full
  | beginRun head seats fits allocates =>
      have isQueued := (pass.inv.queued (by rw [head]; exact List.mem_cons_self)).2.2.2.1
      exact absurd full (allocates.free_ne_nil isQueued)
  | load head fits allocates =>
      have isQueued := (pass.inv.queued (by rw [head]; exact List.mem_cons_self)).2.2.2.1
      exact absurd full (allocates.free_ne_nil isQueued)

/-! ## A call -/

theorem Mixes.fair {p : Pass} {output : SchedulerOutput} (mixes : Mixes cfg s [] p last output)
    (steady : Steady cfg) (inv : s.Inv cfg s.running rows) (still : s.Isolated)
    (provided : s.Provided cfg) :
    last.Provided cfg ∧ ∀ j ∈ s.running, s.Settled output j ∨ s.Stalled last j := by
  have order : cfg.schedulingPolicy.byUrgency s.heap s.running = s.running := by
    rw [steady.fcfs]
    rfl
  have apart := inv.apart []
  have served := mixes.served
  rw [order] at served apart
  have fair := served.fair steady inv apart
    ⟨still, provided, fun _ running => ⟨running, rfl⟩, fun _ => Or.inl, Or.inl ⟨rfl, rfl⟩⟩
  have pass := Moves.passInv mixes.serving (inv.start [])
  have admitted := mixes.admitted.frame pass.inv.queues_nodup
  obtain ⟨left, turns⟩ := mixes.admissions inv
  constructor
  · have intake : Intake.Fair cfg
        ⟨{ p.sched with running := p.stillRunning }, p.output, p.budget⟩ := by
      have provided := fair.provided
      rw [mixes.empty, List.append_nil] at provided
      refine ⟨provided, ?_⟩
      rcases fair.paid with paid | ⟨_, full⟩
      · exact Or.inl ⟨paid.tokens, paid.seats⟩
      · exact Or.inr full
    exact (turns.keep (Intake.Fair cfg) (fun pass turn fair => fair.turn steady pass turn) pass
      intake).1.provided
  · intro j ran
    rcases fair.attended j ran with waits | settled | ⟨_, pending, full⟩
    · rw [mixes.empty] at waits
      contradiction
    · left
      obtain ⟨more, _, scheduled⟩ := admitted.running
      refine settled.mono ?_ ?_ admitted.dropped.subset
      · rw [scheduled]
        exact List.subset_append_left _ _
      · rw [admitted.preempted]
        exact List.Subset.refl _
    · exact Or.inr ⟨pending, turns.full pass full⟩

theorem Schedules.fair {output : SchedulerOutput} (schedules : Schedules cfg s last output)
    (steady : Steady cfg) (inv : s.Inv cfg s.running rows) (still : s.Isolated)
    (provided : s.Provided cfg) :
    last.Provided cfg ∧ ∀ j ∈ s.running, s.Settled output j ∨ s.Stalled last j := by
  cases schedules with
  | mixed chunked mixes => exact mixes.fair steady inv still provided
  | prompts whole => exact absurd (whole.symm.trans steady.chunked) (by simp)
  | fallback whole => exact absurd (whole.symm.trans steady.chunked) (by simp)

/-! ## Every state -/

theorem Provided.setSeq (provided : s.Provided cfg) (i : SeqId) {seq : Sequence}
    (lower : i ∈ s.running → seq.demand cfg ≤ (s.heap i).demand cfg) :
    (s.setSeq i seq).Provided cfg := by
  refine provided.update (List.Sublist.refl _) ?_
  intro j running
  by_cases same : j = i
  · subst same
    rw [setSeq_heap_self]
    exact lower running
  · rw [setSeq_heap_of_ne s same]

theorem Provided.ends {seq : Sequence} {after : Scheduler} (provided : s.Provided cfg)
    (inv : s.Inv cfg s.running rows) (ends : Ends cfg s i seq after) : after.Provided cfg := by
  have frame := ends.frame
  refine provided.update (frame.running ▸ List.erase_sublist) ?_
  intro j running
  rw [frame.running] at running
  rw [frame.heap j]
  rintro rfl
  exact inv.active_nodup.not_mem_erase running

theorem provided_kept (steady : Steady cfg) :
    Kept cfg fun s => s.Isolated ∧ s.Provided cfg where
  schedule inv schedules moves held :=
    ⟨(isolated_stable steady.isolated).kept.schedule inv schedules moves held.1,
      (schedules.fair steady inv held.1 held.2).1⟩
  handOver _ held := held
  release _ found held := by
    rw [held.1.2] at found
    exact absurd found (by simp)
  receive _ receives held := by
    cases receives with
    | cancelled found => exact absurd (held.1.1 ▸ found) (by simp)
    | loaded found => exact absurd (held.1.1 ▸ found) (by simp)
    | failed found => exact absurd (held.1.1 ▸ found) (by simp)
  advance {s _ _ i n _} inv member _ _ held :=
    ⟨held.1, held.2.setSeq i fun _ => (inv.running member).2.2.2.demand_advanced n⟩
  reconcile {s _ row tokens _ _ _} inv answers short turn held := by
    refine ⟨(isolated_stable steady.isolated).reconcile inv turn held.1, ?_⟩
    cases turn with
    | void => exact held.2
    | commit lives member =>
        refine held.2.setSeq row.seq fun _ => le_of_eq ?_
        obtain ⟨_, decoding, pending⟩ := inv.valid (inv.running member).2.2.2.unfinished_status lives
        obtain ⟨some, few⟩ := answers
        rw [steady.plain, Nat.le_zero] at short
        rw [short] at few pending ⊢
        obtain ⟨token, rfl⟩ := List.length_eq_one_iff.mp (le_antisymm few some)
        exact Sequence.demand_committed cfg decoding token (by omega) _ _
    | stop lives member split below clean cause ends => exact held.2.ends inv ends
  cancel _ plays held := by
    have loading := plays.2.2.1.2.1
    rw [held.1.1] at loading
    exact absurd loading (by simp)
  ends inv plays ends held :=
    ⟨(isolated_stable steady.isolated).ends inv plays ends held.1, held.2.ends inv ends⟩
  forget seq inv _ _ held := by
    refine ⟨held.1, held.2.setSeq _ fun running => ?_⟩
    exact absurd (Or.inr (Or.inl running)) inv.not_known_counter
  enqueue inv _ _ held := by
    refine ⟨held.1, held.2.setSeq _ fun running => ?_⟩
    exact absurd (Or.inr (Or.inl running)) inv.not_known_counter

end Scheduler

/-- With `fcfs`, chunked prefill, no speculation and no connector, no call of
`schedule` leaves a running sequence untouched for want of budget or rows: it is
scheduled, preempted, dropped, at its limit, or waits for its own token while no
block is free. -/
theorem decode_never_starved (cfg : Config) (fcfs : cfg.schedulingPolicy = .fcfs)
    (chunked : cfg.enableChunkedPrefill = true) (plain : cfg.numSpeculativeTokens = 0)
    (isolated : cfg.kvTransfer = none) (s : Scheduler) (between : Between cfg s) :
    ∃ last output, s.schedule cfg = .ok (last, output) ∧
      ∀ i ∈ s.running, i ∈ output.scheduled ∨ i ∈ output.preempted ∨ i ∈ output.dropped ∨
        (s.heap i).maxTokens ≤ (s.heap i).numPlannedTokens - (s.heap i).numPromptTokens ∨
        (s.heap i).numPendingTokens ≠ 0 ∧ last.blockManager.freeBlockQueue = [] := by
  have steady : Scheduler.Steady cfg := ⟨fcfs, chunked, plain, isolated⟩
  obtain ⟨still, provided⟩ :=
    (Scheduler.provided_kept steady).between ⟨⟨rfl, rfl⟩, trivial⟩ between
  obtain ⟨rows, inv⟩ := between.inv
  obtain ⟨planned, plan, metadata, scheduled, schedules, _⟩ := Scheduler.schedule_result inv
  refine ⟨_, _, scheduled, ?_⟩
  intro i running
  rw [planned.handedOver_blockManager]
  rcases (schedules.fair steady inv still provided).2 i running with settled | stalled
  · rcases settled with chosen | evicted | dropped | limit
    · exact Or.inl chosen
    · exact Or.inr (Or.inl evicted)
    · exact Or.inr (Or.inr (Or.inl dropped))
    · exact Or.inr (Or.inr (Or.inr (Or.inl limit)))
  · exact Or.inr (Or.inr (Or.inr (Or.inr stalled)))

/-- The sample engine with its first token in flight. -/
theorem decode_never_starved_sample :
    ∃ last output, LLMEngine.sampleRunning.scheduler.schedule .sample = .ok (last, output) ∧
      ∀ i ∈ LLMEngine.sampleRunning.scheduler.running, i ∈ output.scheduled ∨
        i ∈ output.preempted ∨ i ∈ output.dropped ∨
        (LLMEngine.sampleRunning.scheduler.heap i).maxTokens ≤
          (LLMEngine.sampleRunning.scheduler.heap i).numPlannedTokens -
            (LLMEngine.sampleRunning.scheduler.heap i).numPromptTokens ∨
        (LLMEngine.sampleRunning.scheduler.heap i).numPendingTokens ≠ 0 ∧
          last.blockManager.freeBlockQueue = [] :=
  decode_never_starved .sample rfl rfl rfl rfl LLMEngine.sampleRunning.scheduler
    (.boundary LLMEngine.sampleRunning_reachable)

end LeanVllm
