import LeanVllm.Engine.Between

/-!
# Step limits

A step has a budget of tokens and of rows.  The loops of `schedule` account for
both: what the scheduled rows carry and what is left of the budget add up to
`max_num_batched_tokens`.  Tables grow only as far as a sequence's own limit
and one step's drafts reach, so they fit the width of the captured graphs.
-/

namespace LeanVllm

open Collections

/-- The tokens of a batch: the sum of its rows' `num_scheduled_tokens`. -/
def SchedulerOutput.numTokens (output : SchedulerOutput) (heap : SeqId → Sequence) : Nat :=
  (output.scheduled.map fun i => (heap i).numScheduledTokens).sum

/-- The output counts the tokens it schedules, and the budget is what they
leave. -/
structure Accounts (cfg : Config) (heap : SeqId → Sequence) (output : SchedulerOutput)
    (budget : Nat) : Prop where
  counted : output.numTokens heap = output.numPrefillTokens + output.numDecodeTokens
  spent : output.numTokens heap + budget = cfg.maxNumBatchedTokens
  seats : output.scheduled.length ≤ cfg.maxNumSeqs

namespace Accounts

variable {cfg : Config} {heap heap' : SeqId → Sequence} {output output' : SchedulerOutput}
  {budget : Nat}

theorem start (cfg : Config) (heap : SeqId → Sequence) (dropped : List SeqId) :
    Accounts cfg heap { dropped := dropped } cfg.maxNumBatchedTokens :=
  ⟨rfl, Nat.zero_add _, Nat.zero_le _⟩

/-- Changes to other records and other counts keep the account. -/
theorem keep (accounts : Accounts cfg heap output budget)
    (heapEq : ∀ i ∈ output.scheduled, heap' i = heap i)
    (scheduled : output'.scheduled = output.scheduled)
    (prefillTokens : output'.numPrefillTokens = output.numPrefillTokens)
    (decodeTokens : output'.numDecodeTokens = output.numDecodeTokens) :
    Accounts cfg heap' output' budget := by
  have same : output'.numTokens heap' = output.numTokens heap := by
    unfold SchedulerOutput.numTokens
    rw [scheduled]
    congr 1
    exact List.map_congr_left fun i member => by rw [heapEq i member]
  constructor
  · rw [same, prefillTokens, decodeTokens]
    exact accounts.counted
  · rw [same]
    exact accounts.spent
  · rw [scheduled]
    exact accounts.seats

/-- One more row, within the budget. -/
theorem extend (accounts : Accounts cfg heap output budget) {i : SeqId} {n : Nat}
    (seq : Sequence) (heapEq : ∀ j ∈ output.scheduled, heap' j = heap j)
    (own : (heap' i).numScheduledTokens = n) (within : n ≤ budget)
    (seat : output.scheduled.length < cfg.maxNumSeqs) :
    Accounts cfg heap' (output.withScheduled i seq n) (budget - n) := by
  have more : (output.withScheduled i seq n).numTokens heap' = output.numTokens heap + n := by
    have old := List.map_congr_left fun j member =>
      congrArg Sequence.numScheduledTokens (heapEq j member)
    simp only [SchedulerOutput.numTokens, SchedulerOutput.withScheduled, List.map_append, old,
      List.map_cons, own, List.map_nil, List.sum_append, List.sum_singleton]
  obtain ⟨counted, spent, seats⟩ := accounts
  constructor
  · rw [more, SchedulerOutput.withScheduled]
    dsimp only
    split <;> omega
  · omega
  · simp only [SchedulerOutput.withScheduled, List.length_append, List.length_singleton]
    omega

end Accounts

theorem Sequence.numToSchedule_le (cfg : Config) {seq : Sequence} (budget : Nat)
    (prefill : seq.isPrefill = true) : seq.numToSchedule cfg budget ≤ budget := by
  simp only [numToSchedule, prefill, if_true]
  split <;> omega

namespace Scheduler

variable {cfg : Config} {s last : Scheduler} {rows : List LaunchedRow} {i : SeqId}

/-! ## The account of a call -/

theorem MakesRoom.counts {numLookahead : Nat} {stillRunning : List SeqId}
    {output : SchedulerOutput} {room : Room}
    (makes : MakesRoom cfg i numLookahead s stillRunning output room) :
    room.output.numPrefillTokens = output.numPrefillTokens ∧
      room.output.numDecodeTokens = output.numDecodeTokens := by
  induction makes with
  | preempt short chosen freed rest ih => exact ih
  | grant | giveWay | defer | drop => exact ⟨rfl, rfl⟩

theorem Serves.accounts {p p' : Pass} (serves : Serves cfg p i p')
    (distinct : (i :: p.sched.running).Nodup)
    (idle : ∀ j ∈ i :: p.sched.running, j ∉ p.output.scheduled)
    (accounts : Accounts cfg p.sched.heap p.output p.budget) :
    Accounts cfg p'.sched.heap p'.output p'.budget := by
  have others : ∀ j ∈ p.output.scheduled, p'.sched.heap j = p.sched.heap j := by
    intro j scheduled
    refine (serves.frame distinct).heap j ?_ (Or.inl ?_)
    · rintro rfl
      exact idle j List.mem_cons_self scheduled
    · intro later
      exact idle j (List.mem_cons_of_mem i later) scheduled
  cases serves with
  | skip spent => exact accounts
  | limit left reached => exact accounts
  | prefill left below prefill numEq =>
      have seat := Nat.lt_of_not_le fun full => left (Or.inr full)
      refine accounts.extend _ others ?_ ?_ seat
      · rw [renew_heap_self]
      · rw [← numEq]
        exact Sequence.numToSchedule_le cfg p.budget prefill
  | @decode left below decoding room bm fresh seq makes granted seqEq appended =>
      have frame := makes.frame distinct
      have positive := Nat.pos_of_ne_zero fun none => left (Or.inl none)
      have seat := Nat.lt_of_not_le fun full => left (Or.inr full)
      have room := accounts.keep (fun _ _ => rfl) frame.scheduled makes.counts.1 makes.counts.2
      refine room.extend seq ?_ ?_ ?_ ?_
      · rw [frame.scheduled]
        exact others
      · rw [renew_heap_self]
      · have drafts : seq.specTokenIds = ((p.sched.heap i).trimmed p.budget).specTokenIds := by
          rw [seqEq, (frame.granted granted).2.1, setSeq_heap_self]
        rw [drafts, Sequence.trimmed, List.length_take]
        omega
      · rw [frame.scheduled]
        exact seat
  | @refuse left below decoding room makes refused =>
      exact accounts.keep others (makes.frame distinct).scheduled makes.counts.1 makes.counts.2

theorem ServesAll.accounts {p p' : Pass} (serves : ServesAll cfg p p') (apart : p.Apart)
    (accounts : Accounts cfg p.sched.heap p.output p.budget) :
    Accounts cfg p'.sched.heap p'.output p'.budget := by
  refine serves.keep (fun p => Accounts cfg p.sched.heap p.output p.budget) ?_ apart accounts
  intro p next i rest apart head serves frame accounts
  obtain ⟨distinct, idle⟩ := apart.idle head
  exact serves.accounts distinct idle accounts

/-- A waiting sequence is not scheduled. -/
theorem PassInv.not_scheduled {output : SchedulerOutput} (pass : PassInv cfg (s, output) rows)
    (queued : i ∈ s.waiting) : i ∉ output.scheduled :=
  fun scheduled => (pass.inv.queued queued).2.1 (pass.running i scheduled)

theorem Admission.accounts {allowed : Scheduler → SeqId → Nat → Nat → Prop} {q q' : Intake}
    (turn : Admission cfg allowed q q') (pass : PassInv cfg (q.sched, q.output) rows)
    (accounts : Accounts cfg q.sched.heap q.output q.budget) :
    Accounts cfg q'.sched.heap q'.output q'.budget := by
  have others : ∀ {i rest} (seq : Sequence), q.sched.waiting = i :: rest →
      ∀ j ∈ q.output.scheduled, (q.sched.setSeq i seq).heap j = q.sched.heap j := by
    intro i rest seq head j scheduled
    refine setSeq_heap_of_ne _ ?_ seq
    rintro rfl
    exact pass.not_scheduled (by rw [head]; exact List.mem_cons_self) scheduled
  cases turn with
  | drop head => exact accounts.keep (others _ head) rfl rfl rfl
  | load head fits allocates connected wants => exact accounts.keep (others _ head) rfl rfl rfl
  | @beginRun i rest bm hits fresh params head seats fits allocates loaded mismatch ready =>
      have isQueued := (pass.inv.queued (by rw [head]; exact List.mem_cons_self)).2.2.2.1
      let seq := (q.sched.heap i).allocated cfg hits fresh
      have queried : Accounts cfg q.sched.heap (q.output.withQueried cfg seq hits.length)
          q.budget := accounts.keep (fun _ _ => rfl) rfl rfl rfl
      refine queried.extend seq (others _ head) ?_ ?_ seats
      · exact congrArg Sequence.numScheduledTokens (setSeq_heap_self q.sched i _)
      · exact Sequence.numToSchedule_le cfg q.budget isQueued.prefill

theorem Admissions.accounts {allowed : Scheduler → SeqId → Nat → Nat → Prop} {q q' : Intake}
    (turns : Admissions cfg allowed q q') (pass : PassInv cfg (q.sched, q.output) rows)
    (accounts : Accounts cfg q.sched.heap q.output q.budget) :
    Accounts cfg q'.sched.heap q'.output q'.budget :=
  (turns.keep (fun q => Accounts cfg q.sched.heap q.output q.budget)
    (fun pass turn => turn.accounts pass) pass accounts).1

/-- A pass starts with the running sequences in the order they are served. -/
theorem Inv.apart (inv : s.Inv cfg s.running rows) (dropped : List SeqId) :
    Pass.Apart ⟨{ s with running := cfg.schedulingPolicy.byUrgency s.heap s.running }, [],
      { dropped := dropped }, cfg.maxNumBatchedTokens⟩ := by
  constructor
  · exact (cfg.schedulingPolicy.byUrgency_perm s.heap s.running).symm.nodup inv.active_nodup
  · simp

theorem Mixes.accounts {dropped : List SeqId} {p : Pass} {output : SchedulerOutput}
    (mixes : Mixes cfg s dropped p last output) (inv : s.Inv cfg s.running rows) :
    ∃ left, Accounts cfg last.heap output left := by
  have served := mixes.served.accounts (inv.apart dropped) (.start cfg s.heap dropped)
  obtain ⟨left, turns⟩ := mixes.admissions inv
  have pass := Moves.passInv mixes.serving (inv.start dropped)
  exact ⟨left, turns.accounts pass served⟩

/-- Every call accounts for the tokens it schedules. -/
theorem Schedules.accounts {output : SchedulerOutput} (schedules : Schedules cfg s last output)
    (inv : s.Inv cfg s.running rows) : ∃ left, Accounts cfg last.heap output left := by
  cases schedules with
  | mixed chunked mixes => exact mixes.accounts inv
  | prompts whole looped admits some =>
      obtain ⟨left, turns⟩ := scheduleWholePrompts_admissions inv looped
      exact ⟨left, turns.accounts (inv.start []) (.start cfg s.heap [])⟩
  | fallback whole looped admits none mixes =>
      exact mixes.accounts (Moves.passInv admits.moves (inv.start [])).inv

end Scheduler

/-! ## What a scheduled row needs -/

namespace Sequence

variable {cfg : Config} {seq : Sequence} {reserved : Nat}

/-- The table of a scheduled row covers its positions, and those its drafter
writes past them. -/
theorem Ready.row_covered (ready : seq.Ready cfg) (active : seq.Active cfg reserved) :
    seq.numCachedTokens + seq.numScheduledTokens +
        (if seq.Samples then cfg.numSpeculativeTokens - 1 else 0) ≤
      seq.blockTable.length * cfg.blockSize := by
  have ahead : (if seq.Samples then cfg.numSpeculativeTokens - 1 else 0) ≤
      cfg.numLookaheadTokens := by
    rw [Config.numLookaheadTokens]
    split <;> omega
  cases prefill : seq.isPrefill with
  | true =>
      have short := ready.prefilling prefill
      have covered := (active.prefilling prefill).2.2.2
      omega
  | false =>
      obtain ⟨scheduled, _, covered⟩ := ready.decoding prefill
      have frontier := (active.decoding prefill).1
      omega

/-- A decoding row verifies at most K drafts, and no more than its limit leaves
beside one token. -/
theorem Ready.row_drafts (ready : seq.Ready cfg) (active : seq.Active cfg reserved)
    (decoding : seq.isPrefill = false) :
    seq.specTokenIds.length ≤ cfg.numSpeculativeTokens ∧
      1 + seq.specTokenIds.length ≤
        seq.maxTokens - (seq.numPlannedTokens - seq.numPromptTokens) := by
  obtain ⟨scheduled, limit, _⟩ := ready.decoding decoding
  have prompt : seq.numPromptTokens ≤ seq.numPlannedTokens :=
    active.prompt_le.trans (Nat.le_add_right _ _)
  refine ⟨(active.decoding decoding).2, ?_⟩
  omega

end Sequence

/-! ## The width of the tables -/

namespace Sequence

variable {cfg : Config} {seq after : Sequence}

/-- The request leaves room for its tokens in the context, and its table fits
the width of the captured graphs. -/
structure Fits (cfg : Config) (seq : Sequence) : Prop where
  context : seq.numPromptTokens + seq.maxTokens ≤ cfg.maxModelLen
  table : seq.blockTable.length ≤ ModelRunner.maxNumBlocks cfg

theorem Fits.update (fits : seq.Fits cfg) (prompt : after.numPromptTokens = seq.numPromptTokens)
    (limit : after.maxTokens = seq.maxTokens)
    (table : after.blockTable.length ≤ ModelRunner.maxNumBlocks cfg) : after.Fits cfg := by
  refine ⟨?_, table⟩
  rw [prompt, limit]
  exact fits.context

/-- Slots up to the limit, and one step's drafts past it, fit the width. -/
theorem Fits.numBlocks_le (fits : seq.Fits cfg) {numLookahead : Nat}
    (within : seq.numPlannedTokens + numLookahead ≤
      seq.numPromptTokens + seq.maxTokens + cfg.numSpeculativeTokens) :
    BlockManager.numBlocks cfg seq numLookahead ≤ ModelRunner.maxNumBlocks cfg := by
  have context := fits.context
  unfold BlockManager.numBlocks ModelRunner.maxNumBlocks
  apply Nat.div_le_div_right
  omega

/-- A request's first blocks fit the width. -/
theorem Queued.numBlocks_le (queued : seq.Queued cfg) (fits : seq.Fits cfg) :
    BlockManager.numBlocks cfg seq cfg.numLookaheadTokens ≤ ModelRunner.maxNumBlocks cfg := by
  apply fits.numBlocks_le
  have unfinished := queued.unfinished
  have settled := queued.settled
  simp only [numCompletionTokens, numPlannedTokens, Config.numLookaheadTokens] at unfinished ⊢
  omega

end Sequence

namespace Scheduler

variable {cfg : Config} {s last : Scheduler} {rows : List LaunchedRow} {i : SeqId}

/-- Every record fits. -/
def TablesFit (cfg : Config) (s : Scheduler) : Prop :=
  ∀ i, (s.heap i).Fits cfg

theorem TablesFit.setSeq (fit : s.TablesFit cfg) (i : SeqId) {seq : Sequence}
    (fits : seq.Fits cfg) : (s.setSeq i seq).TablesFit cfg := by
  intro j
  by_cases same : j = i
  · subst same
    rw [setSeq_heap_self]
    exact fits
  · rw [setSeq_heap_of_ne s same]
    exact fit j

/-- An update that keeps the request and does not grow the table. -/
theorem TablesFit.keep (fit : s.TablesFit cfg) (i : SeqId) {seq : Sequence}
    (prompt : seq.numPromptTokens = (s.heap i).numPromptTokens)
    (limit : seq.maxTokens = (s.heap i).maxTokens)
    (table : seq.blockTable.length ≤ (s.heap i).blockTable.length) :
    (s.setSeq i seq).TablesFit cfg :=
  fit.setSeq i ((fit i).update prompt limit (table.trans (fit i).table))

/-- An admission gives the blocks the request needs. -/
theorem TablesFit.allocates (fit : s.TablesFit cfg) (queued : (s.heap i).Queued cfg)
    {others hits fresh : List BlockId} {bm : BlockManager}
    (allocates : s.Allocates cfg i others bm hits fresh) {seq : Sequence}
    (prompt : seq.numPromptTokens = (s.heap i).numPromptTokens)
    (limit : seq.maxTokens = (s.heap i).maxTokens) (table : seq.blockTable = hits ++ fresh) :
    (s.setSeq i seq).TablesFit cfg := by
  refine fit.setSeq i ((fit i).update prompt limit ?_)
  rw [table, List.length_append, allocates.total]
  exact queued.numBlocks_le (fit i)

theorem TablesFit.ends {seq : Sequence} {after : Scheduler} (fit : s.TablesFit cfg)
    (ends : Ends cfg s i seq after) (prompt : seq.numPromptTokens = (s.heap i).numPromptTokens)
    (limit : seq.maxTokens = (s.heap i).maxTokens)
    (table : seq.blockTable = (s.heap i).blockTable) : after.TablesFit cfg := by
  cases ends with
  | release freed => exact fit.keep i prompt limit (Nat.zero_le _)
  | hold connected => exact fit.keep i prompt limit (by simp [table])

theorem Move.tablesFit {before after : Scheduler × SchedulerOutput}
    (pass : PassInv cfg before rows) (move : Move cfg before after)
    (fit : before.1.TablesFit cfg) : after.1.TablesFit cfg := by
  cases move with
  | reorder reordered => exact fit
  | recount => exact fit
  | preempt member idle freed => exact fit.keep _ rfl rfl (Nat.zero_le _)
  | dropRunning member idle settled freed => exact fit.keep _ rfl rfl (Nat.zero_le _)
  | dropWaiting head => exact fit.keep _ rfl rfl le_rfl
  | trim member idle n => exact fit.keep _ rfl rfl le_rfl
  | serve member idle ready => exact fit.keep _ rfl rfl le_rfl
  | @append s output i bm fresh numLookahead member idle within fits appended =>
      obtain ⟨_, _, _, bounded⟩ := pass.inv.append member fits appended
      refine fit.setSeq i ((fit i).update rfl rfl (bounded.trans ?_))
      exact max_le (fit i).table ((fit i).numBlocks_le within)
  | beginRun head allocates loaded ready =>
      have plays := pass.inv.queued (List.mem_of_mem_head? head)
      exact fit.allocates plays.2.2.2.1 allocates rfl rfl rfl
  | @load s output i bm hits fresh head allocates connected wants =>
      have plays := pass.inv.queued (List.mem_of_mem_head? head)
      refine fit.allocates plays.2.2.2.1 allocates ?_ ?_ ?_ <;>
        simp [Sequence.loading, Sequence.clearRemotePrefill, Sequence.allocated]

theorem tablesFit_kept (cfg : Config) : Kept cfg (TablesFit cfg) where
  schedule inv _ moves fit := Moves.keep _ Move.tablesFit moves (inv.start []) fit
  handOver _ fit := fit
  release _ _ fit := fit.keep _ rfl rfl (Nat.zero_le _)
  receive _ receives fit := by
    cases receives with
    | cancelled => exact fit.keep _ rfl rfl (Nat.zero_le _)
    | loaded => exact fit.keep _ rfl rfl le_rfl
    | failed => exact fit.keep _ rfl rfl le_rfl
  advance _ _ _ _ fit := by
    refine fit.keep _ ?_ ?_ ?_ <;> simp [Sequence.advanced, apply_ite]
  reconcile _ _ _ turn fit := by
    cases turn with
    | void => exact fit
    | commit => exact fit.keep _ rfl rfl le_rfl
    | stop _ _ _ _ _ _ ends => exact fit.ends ends rfl rfl rfl
  cancel _ _ fit := fit.keep _ rfl rfl le_rfl
  ends _ _ ends fit := fit.ends ends rfl rfl rfl
  forget _ _ context empty fit := fit.setSeq _ ⟨context, by rw [empty]; exact Nat.zero_le _⟩
  enqueue _ context isQueued fit :=
    fit.setSeq _ ⟨context, by rw [isQueued.table]; exact Nat.zero_le _⟩

end Scheduler

/-- In every state between two operations no table is wider than the captured
graphs' buffer, and every call of `schedule` there keeps the limits of a step:
its tokens, which it counts, its rows, the table of each row, and the drafts of
each decoding row. -/
theorem step_limits (cfg : Config) (s : Scheduler) (between : Between cfg s) :
    (∀ i, (s.heap i).blockTable.length ≤ ModelRunner.maxNumBlocks cfg) ∧
      ∃ last output, s.schedule cfg = .ok (last, output) ∧
        output.numTokens last.heap ≤ cfg.maxNumBatchedTokens ∧
        output.numTokens last.heap = output.numPrefillTokens + output.numDecodeTokens ∧
        output.scheduled.length ≤ cfg.maxNumSeqs ∧ output.scheduled.Nodup ∧
        ∀ i ∈ output.scheduled,
          (last.heap i).blockTable.length ≤ ModelRunner.maxNumBlocks cfg ∧
          (last.heap i).numCachedTokens + (last.heap i).numScheduledTokens +
              (if (last.heap i).Samples then cfg.numSpeculativeTokens - 1 else 0) ≤
            (last.heap i).blockTable.length * cfg.blockSize ∧
          ((last.heap i).isPrefill = false →
            (last.heap i).specTokenIds.length ≤ cfg.numSpeculativeTokens ∧
            1 + (last.heap i).specTokenIds.length ≤ (last.heap i).maxTokens -
              ((last.heap i).numPlannedTokens - (last.heap i).numPromptTokens)) := by
  have kept := Scheduler.tablesFit_kept cfg
  have fit : s.TablesFit cfg := by
    refine kept.between ?_ between
    exact fun i => ⟨Nat.zero_le _, Nat.zero_le _⟩
  obtain ⟨rows, inv⟩ := between.inv
  obtain ⟨planned, plan, metadata, scheduled, schedules, _⟩ := Scheduler.schedule_result inv
  obtain ⟨left, counted, spent, seats⟩ := schedules.accounts inv
  have pass := Scheduler.schedule_passInv inv scheduled
  refine ⟨fun i => (fit i).table, _, _, scheduled, ?_, ?_, seats, pass.nodup, ?_⟩
  · rw [planned.handedOver_heap]
    exact Nat.le.intro spent
  · rw [planned.handedOver_heap]
    exact counted
  · intro i member
    have active := (pass.inv.running (pass.running i member)).2.2.2
    have ready := pass.ready i member
    refine ⟨(kept.schedule_ok inv scheduled fit i).table, ready.row_covered active, ?_⟩
    exact ready.row_drafts active

/-- The sample engine with its first token in flight. -/
theorem step_limits_sample :
    ∃ last output, LLMEngine.sampleRunning.scheduler.schedule .sample = .ok (last, output) ∧
      output.numTokens last.heap = output.numPrefillTokens + output.numDecodeTokens := by
  obtain ⟨_, last, output, scheduled, _, counted, _⟩ :=
    step_limits .sample LLMEngine.sampleRunning.scheduler
      (.boundary LLMEngine.sampleRunning_reachable)
  exact ⟨last, output, scheduled, counted⟩

end LeanVllm
