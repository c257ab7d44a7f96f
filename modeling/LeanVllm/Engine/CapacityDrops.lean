import LeanVllm.Engine.DecodeService

/-!
# Drops for capacity

`schedule` drops a running sequence only in the first turn of its first loop,
when the sequence is alone in the cache and still short of a block.  The demand
it was short of includes the drafts it wanted to verify, which it could have
done without.
-/

namespace LeanVllm

open Collections

/-- Nothing of the sequence is in flight, and with the lookahead it asks for more
blocks than there are. -/
structure Sequence.Exhausts (cfg : Config) (seq : Sequence) (numLookahead : Nat) : Prop where
  settled : seq.numPendingTokens = 0
  beyond : cfg.numKvcacheBlocks < BlockManager.numBlocks cfg seq numLookahead

namespace Scheduler

variable {cfg : Config} {s last : Scheduler} {rows : List LaunchedRow} {i : SeqId}

/-- Alone in the cache, a sequence that may not grow asks for more blocks than
there are. -/
theorem Inv.beyond_cache (inv : s.Inv cfg [i] rows) (still : s.Isolated) {numLookahead : Nat}
    (short : s.blockManager.canAppend cfg (s.heap i) numLookahead = false) :
    cfg.numKvcacheBlocks < BlockManager.numBlocks cfg (s.heap i) numLookahead := by
  have owned : s.holdings [i] = (s.heap i).blockTable := by
    simp [holdings, owners, still.1, still.2]
  have enough := inv.blocks.accounts.card_le
  rw [owned, Finset.card_range] at enough
  have free : s.blockManager.pool.free = s.blockManager.freeBlockQueue := rfl
  rw [free] at enough
  rw [BlockManager.canAppend, decide_eq_false_iff_not, BlockManager.numMissingBlocks] at short
  omega

theorem MakesRoom.dropped {numLookahead : Nat} {stillRunning : List SeqId}
    {output : SchedulerOutput} {room : Room}
    (makes : MakesRoom cfg i numLookahead s stillRunning output room)
    (inv : s.Inv cfg (stillRunning ++ i :: s.running) rows) (still : s.Isolated) :
    room.output.dropped = output.dropped ∨
      room.granted = false ∧ room.output.dropped = output.dropped ++ [i] ∧
        room.sched.running = [] ∧ (s.heap i).Exhausts cfg numLookahead := by
  induction makes with
  | grant fits => exact Or.inl rfl
  | @preempt s stillRunning output victim bm room short chosen freed rest ih =>
      have waits := cfg.schedulingPolicy.victim_mem s.heap chosen
      have inside : victim ∈ stillRunning ++ i :: s.running := by simp [waits]
      obtain ⟨_, freed', blocks, keeps, _⟩ := inv.release (inv.running inside) (Or.inl rfl)
      obtain rfl := Except.ok.inj (freed.symm.trans freed')
      have next := inv.preempt inside blocks keeps
      rw [erase_victim inv.active_nodup waits] at next
      have heapEq : (s.requeue cfg victim bm).heap i = s.heap i := by
        refine setSeq_heap_of_ne s ?_ _
        rintro rfl
        have distinct := (List.nodup_append'.mp inv.active_nodup).2.1
        exact (List.nodup_cons.mp distinct).1 waits
      rcases ih next still with same | ⟨refused, droppedEq, empty, settled, beyond⟩
      · exact Or.inl same
      · rw [heapEq] at settled beyond
        exact Or.inr ⟨refused, droppedEq, empty, settled, beyond⟩
  | giveWay short last others freed => exact Or.inl rfl
  | defer short last first alone unsettled => exact Or.inl rfl
  | @drop s stillRunning output bm short last first alone settled still' freed =>
      rw [first, last] at inv
      refine Or.inr ⟨rfl, rfl, ?_, settled, inv.beyond_cache still short⟩
      simp [discard, last]

/-- Once a sequence kept its place, nobody is dropped. -/
theorem MakesRoom.keeps_dropped {numLookahead : Nat} {stillRunning : List SeqId}
    {output : SchedulerOutput} {room : Room}
    (makes : MakesRoom cfg i numLookahead s stillRunning output room)
    (some : stillRunning ≠ []) : room.output.dropped = output.dropped := by
  induction makes with
  | grant | giveWay | defer => rfl
  | preempt short chosen freed rest ih => exact ih some
  | drop short last first => exact absurd first some

theorem Serves.keeps_dropped {p p' : Pass} (serves : Serves cfg p i p')
    (some : p.stillRunning ≠ []) : p'.output.dropped = p.output.dropped := by
  cases serves with
  | skip | limit | prefill => rfl
  | decode left below decoding makes => exact makes.keeps_dropped some
  | refuse left below decoding makes => exact makes.keeps_dropped some

theorem ServesAll.keeps_dropped {p last : Pass} (serves : ServesAll cfg p last) (apart : p.Apart)
    (some : p.stillRunning ≠ []) : last.output.dropped = p.output.dropped := by
  have kept := serves.keep
    (fun next => next.stillRunning ≠ [] ∧ next.output.dropped = p.output.dropped) ?_ apart
    ⟨some, rfl⟩
  · exact kept.2
  · rintro q next i rest _ head serves frame ⟨some, same⟩
    refine ⟨?_, (serves.keeps_dropped some).trans same⟩
    rcases frame.kept with unchanged | grown
    · rw [unchanged]
      exact some
    · rw [grown]
      simp

/-- The first turn of a call drops its sequence, or leaves somebody with a
place. -/
theorem Serves.dropped {p p' : Pass} (serves : Serves cfg p i p')
    (pass : PassInv cfg (p.viewIn i) rows) (still : p.sched.Isolated)
    (first : p.stillRunning = []) (alone : p.output.scheduled = []) :
    p'.output.dropped = p.output.dropped ∧ (p'.stillRunning ≠ [] ∨ p'.sched.running = []) ∨
      p'.output.dropped = p.output.dropped ++ [i] ∧ p'.sched.running = [] ∧
        (p.sched.heap i).isPrefill = false ∧ ¬ (p.sched.heap i).AtLimit ∧
        (p.sched.heap i).Exhausts cfg (p.lookahead cfg i) := by
  have member : i ∈ p.stillRunning ++ i :: p.sched.running := by simp
  have idle : i ∉ p.output.scheduled := by simp [alone]
  have trim : Move cfg (p.viewIn i)
      (Pass.viewIn { p with sched := p.sched.setSeq i ((p.sched.heap i).trimmed p.budget) } i) :=
    .trim member idle _
  have trimmed : (p.sched.setSeq i ((p.sched.heap i).trimmed p.budget)).Inv cfg
      (p.stillRunning ++ i :: p.sched.running) rows :=
    (trim.passInv pass).inv.withRunning p.sched.running
  have distinct := (List.nodup_append'.mp trimmed.active_nodup).2.1
  cases serves with
  | skip | limit | prefill => exact Or.inl ⟨rfl, Or.inl (by simp)⟩
  | decode left below decoding makes granted =>
      rcases makes.dropped trimmed still with same | ⟨refused, _⟩
      · exact Or.inl ⟨same, Or.inl (by simp)⟩
      · exact absurd (granted.symm.trans refused) (by simp)
  | @refuse left below decoding room makes refused =>
      rcases makes.dropped trimmed still with same | ⟨_, droppedEq, empty, settled, beyond⟩
      · refine Or.inl ⟨same, Or.inl ?_⟩
        rcases makes.first first alone still (List.nodup_cons.mp distinct).1 with
          granted | droppedEq | ⟨kept, _⟩
        · exact absurd (granted.symm.trans refused) (by simp)
        · rw [same] at droppedEq
          exact absurd (congrArg List.length droppedEq) (by simp)
        · simp [kept]
      · rw [setSeq_heap_self] at settled beyond
        exact Or.inr ⟨droppedEq, empty, decoding, Nat.not_le_of_lt below, settled, beyond⟩

/-! ## Who is dropped by a call -/

/-- The most urgent running sequence decodes below its limit with nothing in
flight, and with the drafts it would verify it asks for more blocks than there
are. -/
structure Overdrawn (cfg : Config) (s : Scheduler) (i : SeqId) : Prop where
  urgent : (cfg.schedulingPolicy.byUrgency s.heap s.running).head? = some i
  decoding : (s.heap i).isPrefill = false
  below : ¬ (s.heap i).AtLimit
  exhausts : (s.heap i).Exhausts cfg
    (((s.heap i).trimmed cfg.maxNumBatchedTokens).specTokenIds.length + cfg.numLookaheadTokens)

/-- The first loop drops at most the most urgent sequence. -/
theorem Mixes.dropped {dropped : List SeqId} {p : Pass} {output : SchedulerOutput}
    (mixes : Mixes cfg s dropped p last output) (inv : s.Inv cfg s.running rows)
    (still : s.Isolated) : ∀ j ∈ p.output.dropped, j ∈ dropped ∨ s.Overdrawn cfg j := by
  have apart := inv.apart dropped
  have served := mixes.served
  cases served with
  | done empty => exact fun j => Or.inl
  | @turn _ next _ i rest head serves others =>
      have reorder : Move cfg (s, { dropped := dropped })
          ({ s with running := cfg.schedulingPolicy.byUrgency s.heap s.running },
            { dropped := dropped }) :=
        .reorder (cfg.schedulingPolicy.byUrgency_perm s.heap s.running)
      have order : cfg.schedulingPolicy.byUrgency s.heap s.running = i :: rest := head
      have pass := reorder.passInv (inv.start dropped)
      rw [order] at pass
      have frame := serves.frame (apart.idle head).1
      have nextApart := apart.turn head frame
      have urgent : (cfg.schedulingPolicy.byUrgency s.heap s.running).head? = some i := by
        rw [order]
        rfl
      rcases serves.dropped pass still rfl rfl with
        ⟨same, place⟩ | ⟨droppedEq, empty, decoding, below, exhausts⟩
      · have unchanged : p.output.dropped = next.output.dropped := by
          rcases place with some | empty
          · exact others.keeps_dropped nextApart some
          · cases others with
            | done => rfl
            | turn head => exact absurd (empty.symm.trans head) (by simp)
        rw [unchanged, same]
        exact fun j => Or.inl
      · have unchanged : p = next := by
          cases others with
          | done => rfl
          | turn head => exact absurd (empty.symm.trans head) (by simp)
        rw [unchanged, droppedEq]
        intro j member
        rcases List.mem_append.mp member with old | new
        · exact Or.inl old
        · rw [List.mem_singleton] at new
          subst new
          exact Or.inr ⟨urgent, decoding, below, exhausts⟩

theorem Admits.dropped {output lastOutput : SchedulerOutput}
    (admits : Admits cfg s output last lastOutput) :
    ∀ j ∈ lastOutput.dropped, j ∈ output.dropped ∨ j ∈ s.waiting := by
  induction admits with
  | done => exact fun j => Or.inl
  | @drop s last output lastOutput i rest head others ih =>
      intro j member
      rcases ih j member with old | queued
      · rcases List.mem_append.mp old with older | new
        · exact Or.inl older
        · rw [List.mem_singleton] at new
          rw [new, head]
          exact Or.inr List.mem_cons_self
      · exact Or.inr (List.mem_of_mem_erase queued)
  | beginRun head allocates loaded ready others ih =>
      exact fun j member => (ih j member).imp_right List.mem_of_mem_erase
  | load head allocates connected wants lists others ih =>
      exact fun j member => (ih j member).imp_right List.mem_of_mem_erase

/-- Making room adds to the waiting queue only whom it preempts. -/
theorem MakesRoom.queued {numLookahead : Nat} {stillRunning : List SeqId}
    {output : SchedulerOutput} {room : Room}
    (makes : MakesRoom cfg i numLookahead s stillRunning output room)
    (distinct : (i :: s.running).Nodup) :
    ∀ j ∈ room.sched.waiting, j ∈ s.waiting ∨ j ∈ room.output.preempted := by
  induction makes with
  | grant | defer => exact fun _ => Or.inl
  | @preempt s stillRunning output victim bm room short chosen freed rest ih =>
      have fewer : (i :: s.running.erase victim).Nodup :=
        distinct.sublist (List.erase_sublist.cons_cons i)
      have logged : victim ∈ room.output.preempted :=
        (rest.frame fewer).preempted.subset (by simp)
      intro j queued
      rcases ih fewer j queued with old | evicted
      · have among := (cfg.schedulingPolicy.requeue_perm _ _ _).mem_iff.mp old
        rcases List.mem_cons.mp among with rfl | waiting
        · exact Or.inr logged
        · exact Or.inl waiting
      · exact Or.inr evicted
  | giveWay =>
      intro j queued
      have among := (cfg.schedulingPolicy.requeue_perm _ _ _).mem_iff.mp queued
      rcases List.mem_cons.mp among with rfl | waiting
      · exact Or.inr (by simp)
      · exact Or.inl waiting
  | drop => exact fun _ queued => Or.inl (List.mem_of_mem_erase queued)

theorem ServesAll.queued {p p' : Pass} (serves : ServesAll cfg p p') (apart : p.Apart) :
    ∀ j ∈ p'.sched.waiting, j ∈ p.sched.waiting ∨ j ∈ p'.output.preempted := by
  refine serves.keep (fun next => ∀ j ∈ next.sched.waiting,
    j ∈ p.sched.waiting ∨ j ∈ next.output.preempted) ?_ apart fun _ => Or.inl
  intro q next i rest apart head serves frame queued j waits
  have distinct := (apart.idle head).1
  have turn : j ∈ q.sched.waiting ∨ j ∈ next.output.preempted := by
    cases serves with
    | skip | limit | prefill => exact Or.inl waits
    | decode left below decoding makes => exact makes.queued distinct j waits
    | refuse left below decoding makes => exact makes.queued distinct j waits
  rcases turn with old | evicted
  · exact (queued j old).imp_right fun logged => frame.preempted.subset logged
  · exact Or.inr evicted

end Scheduler

def Config.tight : Config :=
  { Config.sample with
    numKvcacheBlocks := 2
    asyncScheduling := false
    numSpeculativeTokens := 1 }

def SamplingParams.tight : SamplingParams :=
  { SamplingParams.sample with
    maxTokens := 5
    maxTokens_pos := by decide }

def StepEnv.tight : StepEnv where
  forward _ := ⟨[1], [1]⟩

/-- The engine with the prompt computed and the first token in flight. -/
def LLMEngine.tight : LLMEngine :=
  ((create .tight).addRequest .tight [1, 2, 3] .tight (some "a") 0).1.stepped .tight .tight

end LeanVllm
