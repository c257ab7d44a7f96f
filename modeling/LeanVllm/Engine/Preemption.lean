import LeanVllm.Engine.Records
import LeanVllm.Engine.Progress

/-!
# Preemption

`schedule` serves the running sequences from the most urgent on and takes its
victims from the other end, so whoever is preempted stood behind everyone who
is scheduled or keeps running.  A log of the evictions of one call, kept beside
the code, records what was missing and what was free at each of them.
-/

namespace LeanVllm

open Collections

namespace SchedulingPolicy

/-- `order` is the order in which the policy serves a call that starts from
`heap`: its victim stands behind the other running sequences. -/
structure Serving (policy : SchedulingPolicy) (heap : SeqId → Sequence)
    (order : SeqId → SeqId → Prop) : Prop where
  victim : ∀ {current : SeqId → Sequence} {running : List SeqId} {v : SeqId},
    (∀ j, urgency (current j) = urgency (heap j)) → running.Pairwise order →
    policy.victim current running = some v → ∀ j ∈ running, j ≠ v → order j v

/-- Under `fcfs` the newest sequence is the victim. -/
theorem serving_fcfs (heap : SeqId → Sequence) (order : SeqId → SeqId → Prop) :
    Serving .fcfs heap order where
  victim {_ running v} _ sorted chosen j member different := by
    obtain ⟨earlier, rfl⟩ := List.getLast?_eq_some_iff.mp chosen
    rw [List.pairwise_append] at sorted
    rcases List.mem_append.mp member with early | last
    · exact sorted.2.2 j early v List.mem_cons_self
    · exact absurd (List.mem_singleton.mp last) different

/-- Under `priority` the least urgent sequence is the victim. -/
theorem serving_priority (heap : SeqId → Sequence) :
    Serving .priority heap fun j v => urgency (heap j) ≤ urgency (heap v) where
  victim {current _ v} same _ chosen j member _ := by
    have least := List.le_of_mem_argmax member (Option.mem_def.mpr chosen)
    rwa [same j, same v] at least

end SchedulingPolicy

namespace Scheduler

variable {cfg : Config} {s last : Scheduler} {rows : List LaunchedRow} {i : SeqId}
  {heap : SeqId → Sequence} {order : SeqId → SeqId → Prop} {start : List SeqId}

/-! ## The order of service -/

/-- `active`, among the sequences of `start`, stands in the order of service, and
whoever was preempted stood behind all of it. -/
structure Ranked (order : SeqId → SeqId → Prop) (start active preempted : List SeqId) : Prop where
  sorted : active.Pairwise order
  behind : ∀ v ∈ preempted, v ∉ active ∧ ∀ j ∈ active, order j v
  inside : ∀ j, j ∈ active ∨ j ∈ preempted → j ∈ start

theorem Ranked.sublist {start active fewer preempted : List SeqId}
    (ranked : Ranked order start active preempted) (sub : fewer.Sublist active) :
    Ranked order start fewer preempted where
  sorted := ranked.sorted.sublist sub
  behind v evicted := by
    obtain ⟨outside, before⟩ := ranked.behind v evicted
    exact ⟨fun inside => outside (sub.subset inside), fun j inside => before j (sub.subset inside)⟩
  inside j among := ranked.inside j (among.imp_left fun member => sub.subset member)

/-- Removing the last in the order of service keeps the ranking. -/
theorem Ranked.evict {start active fewer preempted : List SeqId}
    (ranked : Ranked order start active preempted) {v : SeqId} (member : v ∈ active)
    (sub : fewer.Sublist active) (gone : v ∉ fewer) (before : ∀ j ∈ fewer, order j v) :
    Ranked order start fewer (preempted ++ [v]) where
  sorted := ranked.sorted.sublist sub
  behind u evicted := by
    rcases List.mem_append.mp evicted with early | new
    · exact (ranked.sublist sub).behind u early
    · rw [List.mem_singleton.mp new]
      exact ⟨gone, before⟩
  inside j among := by
    rcases among with kept | evicted
    · exact ranked.inside j (Or.inl (sub.subset kept))
    · rcases List.mem_append.mp evicted with early | new
      · exact ranked.inside j (Or.inr early)
      · rw [List.mem_singleton.mp new]
        exact ranked.inside v (Or.inl member)

/-- A changed record keeps its urgency. -/
theorem urgency_setSeq (s : Scheduler) (i : SeqId) {seq : Sequence}
    (same : SchedulingPolicy.urgency seq = SchedulingPolicy.urgency (s.heap i)) (j : SeqId) :
    SchedulingPolicy.urgency ((s.setSeq i seq).heap j) = SchedulingPolicy.urgency (s.heap j) := by
  by_cases own : j = i
  · subst own
    rw [setSeq_heap_self]
    exact same
  · rw [setSeq_heap_of_ne s own]

theorem MakesRoom.urgency {numLookahead : Nat} {stillRunning : List SeqId}
    {output : SchedulerOutput} {room : Room}
    (makes : MakesRoom cfg i numLookahead s stillRunning output room) (j : SeqId) :
    SchedulingPolicy.urgency (room.sched.heap j) = SchedulingPolicy.urgency (s.heap j) := by
  induction makes with
  | grant fits => rfl
  | @preempt s _ _ victim bm room short chosen freed rest ih =>
      exact ih.trans (urgency_setSeq s victim (by rfl) j)
  | @giveWay s _ _ bm short last others freed => exact urgency_setSeq s i (by rfl) j
  | defer short last first alone unsettled => rfl
  | @drop s _ _ bm short last first alone settled still freed => exact urgency_setSeq s i (by rfl) j

theorem Serves.urgency {p p' : Pass} (serves : Serves cfg p i p') (j : SeqId) :
    SchedulingPolicy.urgency (p'.sched.heap j) = SchedulingPolicy.urgency (p.sched.heap j) := by
  cases serves with
  | skip spent => rfl
  | limit left reached => rfl
  | prefill left below prefill numEq => exact urgency_setSeq p.sched i (by rfl) j
  | @decode left below decoding room bm fresh seq makes granted seqEq appended =>
      have made := (makes.urgency j).trans (urgency_setSeq p.sched i (by rfl) j)
      refine (urgency_setSeq room.sched i ?_ j).trans made
      rw [seqEq]
      rfl
  | @refuse left below decoding room makes refused =>
      exact (makes.urgency j).trans (urgency_setSeq p.sched i (by rfl) j)

theorem MakesRoom.ranked {numLookahead : Nat} {stillRunning : List SeqId}
    {output : SchedulerOutput} {room : Room}
    (makes : MakesRoom cfg i numLookahead s stillRunning output room)
    (serving : cfg.schedulingPolicy.Serving heap order)
    (same : ∀ j, SchedulingPolicy.urgency (s.heap j) = SchedulingPolicy.urgency (heap j))
    (distinct : (stillRunning ++ i :: s.running).Nodup)
    (ranked : Ranked order start (stillRunning ++ i :: s.running) output.preempted) :
    Ranked order start (room.active i) room.output.preempted := by
  induction makes with
  | grant fits => exact ranked
  | @preempt s stillRunning output victim bm room short chosen freed rest ih =>
      have waits := cfg.schedulingPolicy.victim_mem s.heap chosen
      have shorter := erase_victim distinct waits
      have fewer : (stillRunning ++ i :: s.running.erase victim).Sublist
          (stillRunning ++ i :: s.running) := by
        rw [← shorter]
        exact List.erase_sublist
      have gone : victim ∉ stillRunning ++ i :: s.running.erase victim := by
        rw [← shorter]
        exact distinct.not_mem_erase
      have sorted := ranked.sorted
      rw [List.pairwise_append, List.pairwise_cons] at sorted
      obtain ⟨_, ⟨own, later⟩, across⟩ := sorted
      refine ih (fun j => (urgency_setSeq s victim (by rfl) j).trans (same j))
        (distinct.sublist fewer) (ranked.evict (by simp [waits]) fewer gone ?_)
      -- whoever is left was served before, is being served, or was not chosen
      intro j member
      rcases List.mem_append.mp member with early | current
      · exact across j early victim (List.mem_cons_of_mem _ waits)
      · rcases List.mem_cons.mp current with rfl | unserved
        · exact own victim waits
        · refine serving.victim same later chosen j (List.mem_of_mem_erase unserved) ?_
          rintro rfl
          exact gone member
  | @giveWay s stillRunning output bm short last others freed =>
      have active : Room.active i ⟨false, s.requeue cfg i bm, stillRunning,
          { output with preempted := output.preempted ++ [i] }⟩ = stillRunning := by
        simp [Room.active, requeue, last]
      rw [active]
      rw [last] at ranked distinct
      have sorted := List.pairwise_append.mp ranked.sorted
      refine ranked.evict (by simp) (List.sublist_append_left _ _) ?_ ?_
      · intro early
        exact (List.nodup_append'.mp distinct).2.2 early List.mem_cons_self
      · intro j early
        exact sorted.2.2 j early i List.mem_cons_self
  | @defer s stillRunning output short last first alone unsettled =>
      simpa [Room.active, last] using ranked
  | @drop s stillRunning output bm short last first alone settled still freed =>
      refine ranked.sublist ?_
      simp only [Room.active, discard, last, first, List.erase_nil, List.nil_append,
        Bool.false_eq_true, if_false]
      exact List.nil_sublist _

/-- What a turn keeps of the order of service. -/
theorem Serves.ranked {p p' : Pass} (serves : Serves cfg p i p')
    (serving : cfg.schedulingPolicy.Serving heap order)
    (same : ∀ j, SchedulingPolicy.urgency (p.sched.heap j) = SchedulingPolicy.urgency (heap j))
    (distinct : (p.stillRunning ++ i :: p.sched.running).Nodup)
    (ranked : Ranked order start (p.stillRunning ++ i :: p.sched.running) p.output.preempted) :
    Ranked order start (p'.stillRunning ++ p'.sched.running) p'.output.preempted := by
  have trimmed : ∀ j, SchedulingPolicy.urgency
      ((p.sched.setSeq i ((p.sched.heap i).trimmed p.budget)).heap j) =
        SchedulingPolicy.urgency (heap j) :=
    fun j => (urgency_setSeq p.sched i (by rfl) j).trans (same j)
  cases serves with
  | skip spent => simpa using ranked
  | limit left reached => simpa using ranked
  | prefill left below prefill numEq => simpa [renew, setSeq, SchedulerOutput.withScheduled] using ranked
  | @decode left below decoding room bm fresh seq makes granted seqEq appended =>
      have made := makes.ranked serving trimmed distinct ranked
      rw [Room.active, granted, if_pos rfl] at made
      simpa [renew, setSeq, SchedulerOutput.withScheduled] using made
  | @refuse left below decoding room makes refused =>
      have made := makes.ranked serving trimmed distinct ranked
      rw [Room.active, refused] at made
      simpa using made

theorem ServesAll.ranked {p p' : Pass} (serves : ServesAll cfg p p')
    (serving : cfg.schedulingPolicy.Serving heap order)
    (same : ∀ j, SchedulingPolicy.urgency (p.sched.heap j) = SchedulingPolicy.urgency (heap j))
    (distinct : (p.stillRunning ++ p.sched.running).Nodup)
    (ranked : Ranked order start (p.stillRunning ++ p.sched.running) p.output.preempted) :
    Ranked order start (p'.stillRunning ++ p'.sched.running) p'.output.preempted := by
  induction serves with
  | done empty => exact ranked
  | @turn p next last i rest head serves others ih =>
      rw [head] at distinct ranked
      have frame := serves.frame (List.nodup_append'.mp distinct).2.1
      exact ih (fun j => (serves.urgency j).trans (same j)) (distinct.sublist frame.sublist)
        (serves.ranked serving same distinct ranked)

/-- Whoever is preempted while the running sequences are served stood behind
all that are scheduled or keep running. -/
theorem Mixes.ranked {dropped : List SeqId} {p : Pass} {output : SchedulerOutput}
    (mixes : Mixes cfg s dropped p last output) (inv : s.Inv cfg s.running rows)
    (serving : cfg.schedulingPolicy.Serving heap order)
    (same : ∀ j, SchedulingPolicy.urgency (s.heap j) = SchedulingPolicy.urgency (heap j))
    (sorted : (cfg.schedulingPolicy.byUrgency s.heap s.running).Pairwise order) :
    Ranked order s.running p.stillRunning p.output.preempted := by
  have reordered := cfg.schedulingPolicy.byUrgency_perm s.heap s.running
  have distinct := reordered.symm.nodup inv.active_nodup
  have served := mixes.served.ranked serving same (by simpa using distinct)
    ⟨by simpa using sorted, by simp, fun j among => by simpa [reordered.mem_iff] using among⟩
  rwa [mixes.empty, List.append_nil] at served

/-! ## The waiting queue -/

theorem MakesRoom.waiting {numLookahead : Nat} {stillRunning : List SeqId}
    {output : SchedulerOutput} {room : Room}
    (makes : MakesRoom cfg i numLookahead s stillRunning output room) {j : SeqId}
    (other : j ≠ i) (queued : j ∈ s.waiting) : j ∈ room.sched.waiting := by
  induction makes with
  | grant fits => exact queued
  | @preempt s _ _ victim bm room short chosen freed rest ih =>
      exact ih ((cfg.schedulingPolicy.requeue_perm _ _ _).mem_iff.mpr
        (List.mem_cons_of_mem _ queued))
  | @giveWay s _ _ bm short last others freed =>
      exact (cfg.schedulingPolicy.requeue_perm _ _ _).mem_iff.mpr (List.mem_cons_of_mem _ queued)
  | defer short last first alone unsettled => exact queued
  | drop short last first alone settled still freed =>
      exact (List.mem_erase_of_ne other).mpr queued

/-- Serving the running sequences takes nobody out of the waiting queue. -/
theorem ServesAll.waiting {p p' : Pass} (serves : ServesAll cfg p p')
    (distinct : p.sched.running.Nodup) {j : SeqId} (idle : j ∉ p.sched.running)
    (queued : j ∈ p.sched.waiting) : j ∈ p'.sched.waiting := by
  induction serves with
  | done empty => exact queued
  | @turn p next last i rest head serves others ih =>
      rw [head] at distinct idle
      have frame := serves.frame distinct
      rw [List.mem_cons, not_or] at idle
      obtain ⟨other, later⟩ := idle
      refine ih ((List.nodup_cons.mp distinct).2.sublist frame.running)
        (fun among => later (frame.running.subset among)) ?_
      cases serves with
      | skip spent => exact queued
      | limit left reached => exact queued
      | prefill left below prefill numEq => exact queued
      | decode left below decoding makes granted seqEq appended =>
          exact makes.waiting other queued
      | refuse left below decoding makes refused => exact makes.waiting other queued

theorem Mixes.waiting {dropped : List SeqId} {p : Pass} {output : SchedulerOutput}
    (mixes : Mixes cfg s dropped p last output) (inv : s.Inv cfg s.running rows) :
    ∀ j ∈ s.waiting, j ∈ p.sched.waiting := by
  intro j queued
  have reordered := cfg.schedulingPolicy.byUrgency_perm s.heap s.running
  refine mixes.served.waiting (reordered.symm.nodup inv.active_nodup) ?_ queued
  exact fun running => (inv.queued queued).2.1 (reordered.mem_iff.mp running)

/-! ## The evictions of one call -/

/-- A call of `_preempt`: for whom it made room, whom it preempted, how many
blocks were missing and how many were free just before. -/
structure Eviction where
  current : SeqId
  victim : SeqId
  numMissing : Nat
  numFree : Nat
  deriving DecidableEq, Repr

def eviction (cfg : Config) (s : Scheduler) (i victim : SeqId) (numLookahead : Nat) : Eviction where
  current := i
  victim := victim
  numMissing := BlockManager.numMissingBlocks cfg (s.heap i) numLookahead
  numFree := s.blockManager.freeBlockQueue.length

/-- The calls of `_preempt` that `makeRoom` makes, in order. -/
def makeRoomEvictions (cfg : Config) (i : SeqId) (numLookahead : Nat) :
    Nat → Scheduler → List SeqId → SchedulerOutput → List Eviction
  | 0, _, _, _ => []
  | fuel + 1, s, stillRunning, output =>
      if s.blockManager.canAppend cfg (s.heap i) numLookahead then []
      else
        match cfg.schedulingPolicy.victim s.heap s.running with
        | some victim =>
            s.eviction cfg i victim numLookahead ::
              match SchedulingPolicy.remove s.running victim >>= fun running =>
                  preempt cfg { s with running := running } victim output with
              | .ok (s, output) => makeRoomEvictions cfg i numLookahead fuel s stillRunning output
              | .error _ => []
        | none =>
            if stillRunning ≠ [] ∨ output.scheduled ≠ [] then
              [s.eviction cfg i i numLookahead]
            else []

/-- The calls of `_preempt` in one turn of `schedule`'s first loop. -/
def serveEvictions (cfg : Config) (p : Pass) (i : SeqId) : List Eviction :=
  let seq := p.sched.heap i
  if p.budget = 0 ∨ cfg.maxNumSeqs ≤ p.output.scheduled.length then []
  else if seq.maxTokens ≤ seq.numPlannedTokens - seq.numPromptTokens then []
  else if seq.isPrefill then []
  else
    makeRoomEvictions cfg i (p.lookahead cfg i) (p.sched.running.length + 1)
      (p.sched.setSeq i (seq.trimmed p.budget)) p.stillRunning p.output

/-- A log accounts for the preemptions between two outputs, and each was made
while blocks were missing. -/
structure Logs (before after : SchedulerOutput) (log : List Eviction) : Prop where
  preempted : after.preempted = before.preempted ++ log.map Eviction.victim
  short : ∀ eviction ∈ log, eviction.numFree < eviction.numMissing

theorem Logs.nil {before after : SchedulerOutput} (same : after.preempted = before.preempted) :
    Logs before after [] :=
  ⟨by simpa using same, by simp⟩

theorem Logs.append {before middle after : SchedulerOutput} {first second : List Eviction}
    (left : Logs before middle first) (right : Logs middle after second) :
    Logs before after (first ++ second) := by
  constructor
  · rw [right.preempted, left.preempted, List.map_append, List.append_assoc]
  · intro eviction member
    rcases List.mem_append.mp member with early | late
    · exact left.short eviction early
    · exact right.short eviction late

/-- Blocks are missing when `can_append` says no. -/
theorem logs_eviction {numLookahead : Nat}
    (short : s.blockManager.canAppend cfg (s.heap i) numLookahead = false) (victim : SeqId)
    (output : SchedulerOutput) :
    Logs output { output with preempted := output.preempted ++ [victim] }
      [s.eviction cfg i victim numLookahead] := by
  constructor
  · rfl
  · intro eviction member
    rw [List.mem_singleton.mp member]
    exact Nat.lt_of_not_le (of_decide_eq_false short)

theorem MakesRoom.logs {numLookahead fuel : Nat} {stillRunning : List SeqId}
    {output : SchedulerOutput} {room : Room}
    (makes : MakesRoom cfg i numLookahead s stillRunning output room)
    (enough : s.running.length < fuel) :
    Logs output room.output (makeRoomEvictions cfg i numLookahead fuel s stillRunning output) := by
  induction makes generalizing fuel with
  | @grant s stillRunning output fits =>
      cases fuel with
      | zero => exact absurd enough (Nat.not_lt_zero _)
      | succ fuel =>
          rw [makeRoomEvictions, if_pos fits]
          exact .nil rfl
  | @preempt s stillRunning output victim bm room short chosen freed rest ih =>
      cases fuel with
      | zero => exact absurd enough (Nat.not_lt_zero _)
      | succ fuel =>
          have waits := cfg.schedulingPolicy.victim_mem s.heap chosen
          have shorter : (s.requeue cfg victim bm).running.length < fuel := by
            have length := List.length_erase_of_mem waits
            have positive := List.length_pos_of_mem waits
            simp only [requeue, length]
            omega
          simp only [makeRoomEvictions, short, Bool.false_eq_true, if_false, chosen,
            preempt_victim cfg waits freed output]
          exact (logs_eviction short victim output).append (ih shorter)
  | @giveWay s stillRunning output bm short last others freed =>
      have none := (cfg.schedulingPolicy.victim_eq_none_iff s.heap).mpr last
      cases fuel with
      | zero => exact absurd enough (Nat.not_lt_zero _)
      | succ fuel =>
          simp only [makeRoomEvictions, short, Bool.false_eq_true, if_false, none]
          rw [if_pos others]
          exact logs_eviction short i output
  | @defer s stillRunning output short last first alone unsettled =>
      have none := (cfg.schedulingPolicy.victim_eq_none_iff s.heap).mpr last
      cases fuel with
      | zero => exact absurd enough (Nat.not_lt_zero _)
      | succ fuel =>
          simp only [makeRoomEvictions, short, Bool.false_eq_true, if_false, none, first, alone,
            ne_eq, not_true_eq_false, or_self]
          exact .nil rfl
  | @drop s stillRunning output bm short last first alone settled still freed =>
      have none := (cfg.schedulingPolicy.victim_eq_none_iff s.heap).mpr last
      cases fuel with
      | zero => exact absurd enough (Nat.not_lt_zero _)
      | succ fuel =>
          simp only [makeRoomEvictions, short, Bool.false_eq_true, if_false, none, first, alone,
            ne_eq, not_true_eq_false, or_self]
          exact .nil rfl

/-- A decoding sequence with room in the batch evicts while it makes room. -/
theorem serveEvictions_decode {p : Pass} (left : ¬ p.Spent cfg)
    (below : (p.sched.heap i).numPlannedTokens - (p.sched.heap i).numPromptTokens <
      (p.sched.heap i).maxTokens)
    (decoding : (p.sched.heap i).isPrefill = false) :
    serveEvictions cfg p i =
      makeRoomEvictions cfg i (p.lookahead cfg i) (p.sched.running.length + 1)
        (p.sched.setSeq i ((p.sched.heap i).trimmed p.budget)) p.stillRunning p.output :=
  (if_neg left).trans ((if_neg (Nat.not_le_of_lt below)).trans (if_neg (by simp [decoding])))

theorem Serves.logs {p p' : Pass} (serves : Serves cfg p i p') :
    Logs p.output p'.output (serveEvictions cfg p i) := by
  cases serves with
  | skip spent =>
      have quiet : serveEvictions cfg p i = [] := if_pos spent
      rw [quiet]
      exact .nil rfl
  | limit left reached =>
      have quiet : serveEvictions cfg p i = [] := (if_neg left).trans (if_pos reached)
      rw [quiet]
      exact .nil rfl
  | prefill left below prefill numEq =>
      have quiet : serveEvictions cfg p i = [] :=
        (if_neg left).trans ((if_neg (Nat.not_le_of_lt below)).trans (if_pos prefill))
      rw [quiet]
      exact .nil rfl
  | @decode left below decoding room bm fresh seq makes granted seqEq appended =>
      rw [serveEvictions_decode left below decoding]
      have made := makes.logs (Nat.lt_succ_self _)
      exact ⟨made.preempted, made.short⟩
  | @refuse left below decoding room makes refused =>
      rw [serveEvictions_decode left below decoding]
      exact makes.logs (Nat.lt_succ_self _)

/-- `j` is to be served before `v` in a call of `schedule` that starts in `s`. -/
def Outranks (cfg : Config) (s : Scheduler) (j v : SeqId) : Prop :=
  match cfg.schedulingPolicy with
  | .fcfs => s.running.idxOf j < s.running.idxOf v
  | .priority => SchedulingPolicy.urgency (s.heap j) ≤ SchedulingPolicy.urgency (s.heap v)

theorem pairwise_idxOf {l : List SeqId} (distinct : l.Nodup) :
    l.Pairwise fun j v => l.idxOf j < l.idxOf v := by
  rw [List.pairwise_iff_getElem]
  intro j v inside inside' earlier
  rw [distinct.idxOf_getElem j inside, distinct.idxOf_getElem v inside']
  exact earlier

theorem serving_outranks (s : Scheduler) :
    cfg.schedulingPolicy.Serving s.heap (s.Outranks cfg) := by
  unfold Outranks
  cases cfg.schedulingPolicy with
  | fcfs => exact SchedulingPolicy.serving_fcfs _ _
  | priority => exact SchedulingPolicy.serving_priority _

/-- The order of service sorts the running sequences, from a scheduler with the
same running sequences and urgencies. -/
theorem byUrgency_outranks (distinct : s.running.Nodup) {middle : Scheduler}
    (running : middle.running = s.running)
    (same : ∀ j, SchedulingPolicy.urgency (middle.heap j) =
      SchedulingPolicy.urgency (s.heap j)) :
    (cfg.schedulingPolicy.byUrgency middle.heap middle.running).Pairwise (s.Outranks cfg) := by
  unfold Outranks
  cases cfg.schedulingPolicy with
  | fcfs =>
      rw [running]
      exact pairwise_idxOf distinct
  | priority =>
      have sorted := List.pairwise_insertionSort (fun a b : SeqId =>
        SchedulingPolicy.urgency (middle.heap a) ≤ SchedulingPolicy.urgency (middle.heap b))
        middle.running
      simp only [same] at sorted
      simpa only [SchedulingPolicy.byUrgency, same] using sorted

/-- What serving the running sequences comes to if someone was preempted. -/
theorem Mixes.preempted {dropped : List SeqId} {p : Pass} {output : SchedulerOutput}
    {middle : Scheduler} (mixes : Mixes cfg middle dropped p last output)
    (inv : middle.Inv cfg middle.running rows) (running : middle.running = s.running)
    (same : ∀ j, SchedulingPolicy.urgency (middle.heap j) =
      SchedulingPolicy.urgency (s.heap j)) (some : output.preempted ≠ []) :
    Ranked (s.Outranks cfg) s.running last.running output.preempted ∧
      ∀ i ∈ middle.waiting, i ∈ last.waiting := by
  have distinct : s.running.Nodup := running ▸ inv.active_nodup
  have ranked := mixes.ranked inv (serving_outranks s) same
    (byUrgency_outranks distinct running same)
  have pass := Moves.passInv mixes.serving (inv.start dropped)
  have admitted := mixes.admitted.frame pass.inv.queues_nodup
  rw [admitted.preempted] at some
  obtain ⟨rfl, rfl⟩ := mixes.relaxed (Or.inr some)
  rw [running] at ranked
  exact ⟨ranked, mixes.waiting inv⟩

/-- What a call comes to if someone was preempted. -/
theorem Schedules.preempted {output : SchedulerOutput} (schedules : Schedules cfg s last output)
    (inv : s.Inv cfg s.running rows) (some : output.preempted ≠ []) :
    Ranked (s.Outranks cfg) s.running last.running output.preempted ∧
      (cfg.enableChunkedPrefill = true → ∀ i ∈ s.waiting, i ∈ last.waiting) := by
  cases schedules with
  | mixed chunked mixes =>
      obtain ⟨ranked, waiting⟩ := mixes.preempted inv rfl (fun _ => rfl) some
      exact ⟨ranked, fun _ => waiting⟩
  | prompts whole looped admits scheduled =>
      exact absurd (admits.frame inv.queues_nodup).preempted some
  | @fallback middle _ found _ p whole looped admits none mixes =>
      have start : PassInv cfg (s, {}) rows := inv.start []
      have frame := admits.frame inv.queues_nodup
      obtain ⟨more, runningEq, scheduledEq⟩ := frame.running
      obtain rfl : more = [] := by
        rw [none] at scheduledEq
        simpa using scheduledEq.symm
      rw [List.append_nil] at runningEq
      have same : ∀ j, SchedulingPolicy.urgency (middle.heap j) =
          SchedulingPolicy.urgency (s.heap j) := by
        intro j
        have evolves := Moves.evolves admits.moves start j
        exact congrArg (fun request : Request => (toLex (request.priority, request.arrivalTime) :
          SchedulingPolicy.Urgency)) evolves.request
      obtain ⟨ranked, _⟩ := mixes.preempted (Moves.passInv admits.moves start).inv runningEq same
        some
      exact ⟨ranked, fun chunked => absurd (whole.symm.trans chunked) (by simp)⟩

end Scheduler

end LeanVllm
