import Mathlib.Algebra.GroupWithZero.Nat
import LeanVllm.Engine.BlockAccounting
import LeanVllm.Engine.LLMEngine

/-!
# The scheduler's invariant

Every sequence the scheduler still knows has one role: queued, active, loading,
cancelled while loading, or held for a remote reader.  A role fixes in which
containers the sequence stands and what its counters say.  The invariant gives
each known sequence a role, ties the blocks to the tables of the owning
sequences, and relates reservations to the rows not yet reconciled.

The active sequences are a parameter: between operations they are `running`,
and in the middle of `schedule` they are also those in its local variables.
-/

namespace LeanVllm

open Collections

/-- The tokens reserved for sequence `i`, in its `k`-th life, by the rows not
yet reconciled. -/
def due (rows : List LaunchedRow) (i : SeqId) (k : Nat) : Nat :=
  (rows.map fun row =>
    if row.seq = i ∧ row.numPreemptions = k then 1 + row.numDraftTokens else 0).sum

@[simp]
theorem due_nil (i : SeqId) (k : Nat) : due [] i k = 0 :=
  rfl

@[simp]
theorem due_cons (row : LaunchedRow) (rows : List LaunchedRow) (i : SeqId) (k : Nat) :
    due (row :: rows) i k =
      (if row.seq = i ∧ row.numPreemptions = k then 1 + row.numDraftTokens else 0) +
        due rows i k := by
  simp [due]

@[simp]
theorem due_append (first second : List LaunchedRow) (i : SeqId) (k : Nat) :
    due (first ++ second) i k = due first i k + due second i k := by
  simp [due]

theorem due_eq_zero {rows : List LaunchedRow} {i : SeqId} {k : Nat}
    (absent : ∀ row ∈ rows, row.seq = i → row.numPreemptions ≠ k) : due rows i k = 0 := by
  induction rows with
  | nil => rfl
  | cons row rows ih =>
      have first := absent row List.mem_cons_self
      rw [due_cons, ih fun other member => absent other (List.mem_cons_of_mem _ member)]
      simp only [Nat.add_zero, ite_eq_right_iff]
      exact fun both => absurd both.2 (first both.1)

theorem exists_row_of_due_ne_zero {rows : List LaunchedRow} {i : SeqId} {k : Nat}
    (reserved : due rows i k ≠ 0) : ∃ row ∈ rows, row.seq = i ∧ row.numPreemptions = k := by
  by_contra none
  push Not at none
  exact reserved (due_eq_zero none)

namespace Sequence

/-- What holds of a sequence from its creation on. -/
structure Sound (cfg : Config) (seq : Sequence) : Prop where
  prompt_pos : 0 < seq.numPromptTokens
  prompt_le : seq.numPromptTokens ≤ seq.numTokens
  hashed : seq.Hashed cfg

/-- A sequence in the waiting queue owns no block and nothing of it is in
flight.  Only its first admission may load remotely. -/
structure Queued (cfg : Config) (seq : Sequence) : Prop extends Sound cfg seq where
  status : seq.status = .waiting
  settled : seq.numPendingTokens = 0
  table : seq.blockTable = []
  prefill : seq.isPrefill = true
  drafts : seq.specTokenIds = []
  unfinished : seq.numCompletionTokens < seq.maxTokens
  unloaded : cfg.kvTransfer.isSome → seq.wantsRemotePrefill → seq.numTokens = seq.numPromptTokens

/-- A running sequence with `reserved` tokens in flight.  The write frontier
`num_cached_tokens` stays within the table and above the published blocks. -/
structure Active (cfg : Config) (seq : Sequence) (reserved : Nat) : Prop
    extends Sound cfg seq where
  status : seq.status = .running
  pending : seq.numPendingTokens = reserved
  unfinished : seq.numCompletionTokens < seq.maxTokens
  planned_le : seq.numPlannedTokens ≤ seq.numPromptTokens + seq.maxTokens
  prefilling : seq.isPrefill = true → seq.numPendingTokens = 0 ∧ seq.specTokenIds = [] ∧
    seq.numCachedTokens < seq.numTokens ∧
    seq.numTokens + cfg.numLookaheadTokens ≤ seq.blockTable.length * cfg.blockSize
  decoding : seq.isPrefill = false → seq.numCachedTokens + 1 = seq.numPlannedTokens ∧
    seq.specTokenIds.length ≤ cfg.numSpeculativeTokens
  covered : seq.numCachedTokens ≤ seq.blockTable.length * cfg.blockSize
  published_le : seq.numPublishedBlocks * cfg.blockSize ≤
    min seq.numCachedTokens seq.numTokens
  loaded : cfg.kvTransfer.isSome → seq.wantsRemotePrefill = false

/-- A sequence whose prompt loads from a prefill instance, past the blocks
already cached here. -/
structure Loading (cfg : Config) (seq : Sequence) : Prop extends Sound cfg seq where
  settled : seq.numPendingTokens = 0
  prefill : seq.isPrefill = true
  drafts : seq.specTokenIds = []
  unfinished : seq.numCompletionTokens < seq.maxTokens
  fresh : seq.numTokens = seq.numPromptTokens
  cached_lt : seq.numCachedTokens < seq.numTokens
  covered : seq.numTokens + cfg.numLookaheadTokens ≤ seq.blockTable.length * cfg.blockSize
  aligned : seq.numCachedTokens = seq.numPublishedBlocks * cfg.blockSize
  loaded : seq.wantsRemotePrefill = false

end Sequence

namespace Scheduler

/-- The part a known sequence plays; `gone` is no part at all. -/
inductive Role where
  | queued
  | active
  | loading
  | cancelled
  | held
  | gone
  deriving DecidableEq

/-- The sequences that own blocks. -/
def owners (s : Scheduler) (active : List SeqId) : List SeqId :=
  active ++ s.recving.values ++ s.sending.values

/-- One entry for each reference the owners' tables hold. -/
def holdings (s : Scheduler) (active : List SeqId) : List BlockId :=
  (s.owners active).flatMap fun i => (s.heap i).blockTable

/-- What `seqs`, `recving` and `sending` store under the sequence's id. -/
def Stored (s : Scheduler) (i : SeqId) (live loading held : Option SeqId) : Prop :=
  s.seqs.lookup (s.heap i).requestId = live ∧
    s.recving.lookup (s.heap i).requestId = loading ∧
    s.sending.lookup (s.heap i).requestId = held

/-- Sequence `i` plays the given role. -/
def Plays (cfg : Config) (s : Scheduler) (active : List SeqId) (rows : List LaunchedRow)
    (i : SeqId) : Role → Prop
  | .queued => i ∈ s.waiting ∧ i ∉ active ∧ s.Stored i (some i) none none ∧
      (s.heap i).Queued cfg ∧ due rows i (s.heap i).numPreemptions = 0
  | .active => i ∉ s.waiting ∧ i ∈ active ∧ s.Stored i (some i) none none ∧
      (s.heap i).Active cfg (due rows i (s.heap i).numPreemptions)
  | .loading => i ∉ s.waiting ∧ i ∉ active ∧ s.Stored i (some i) (some i) none ∧
      (s.heap i).status = .waitingForRemoteKvs ∧ (s.heap i).Loading cfg ∧
      due rows i (s.heap i).numPreemptions = 0
  | .cancelled => i ∉ s.waiting ∧ i ∉ active ∧ s.Stored i none (some i) none ∧
      (s.heap i).status = .finished ∧ (s.heap i).Loading cfg
  | .held => i ∉ s.waiting ∧ i ∉ active ∧ s.Stored i none none (some i) ∧
      (s.heap i).status = .finished
  | .gone => i ∉ s.waiting ∧ i ∉ active ∧ s.Stored i none none none

/-- Some container mentions `i`. -/
def Known (s : Scheduler) (active : List SeqId) (i : SeqId) : Prop :=
  i ∈ s.waiting ∨ i ∈ active ∨
    ∃ requestId, s.seqs.lookup requestId = some i ∨ s.recving.lookup requestId = some i ∨
      s.sending.lookup requestId = some i

/-- A row still in flight was launched in this or an earlier life of its
sequence, and if it is not void the sequence is active. -/
def Launched (s : Scheduler) (active : List SeqId) (row : LaunchedRow) : Prop :=
  row.seq < s.counter ∧ row.numPreemptions ≤ (s.heap row.seq).numPreemptions ∧
    ((s.heap row.seq).status ≠ .finished →
      row.numPreemptions = (s.heap row.seq).numPreemptions → row.seq ∈ active)

/-- No block of the sequence's table past the published ones is published. -/
def Unpublished (s : Scheduler) (i : SeqId) : Prop :=
  ∀ blockId ∈ (s.heap i).blockTable.drop (s.heap i).numPublishedBlocks,
    (s.blockManager.blocks blockId).hash = -1

/-- Every known sequence has a role, and every row in flight a sequence. -/
structure Roster (cfg : Config) (s : Scheduler) (active : List SeqId)
    (rows : List LaunchedRow) : Prop where
  waiting_nodup : s.waiting.Nodup
  active_nodup : active.Nodup
  keyed : ∀ requestId i, s.seqs.lookup requestId = some i ∨ s.recving.lookup requestId = some i ∨
    s.sending.lookup requestId = some i → (s.heap i).requestId = requestId
  plays : ∀ i, s.Known active i → i < s.counter ∧
    ∃ role, role ≠ .gone ∧ s.Plays cfg active rows i role
  launched : ∀ row ∈ rows, s.Launched active row

/-- The invariant: a roster whose owners account for the blocks, and publish
them in table order. -/
structure Inv (cfg : Config) (s : Scheduler) (active : List SeqId)
    (rows : List LaunchedRow) : Prop extends Roster cfg s active rows where
  blocks : s.blockManager.Inv cfg (s.holdings active)
  unpublished : ∀ i, i ∈ active ∨ i ∈ s.recving.values → s.Unpublished i

variable {cfg : Config} {s : Scheduler} {active : List SeqId} {rows : List LaunchedRow}

/-! ## Reading roles off containers -/

theorem Roster.queued (inv : s.Roster cfg active rows) {i : SeqId} (member : i ∈ s.waiting) :
    s.Plays cfg active rows i .queued := by
  obtain ⟨_, role, _, plays⟩ := inv.plays i (Or.inl member)
  cases role with
  | queued => exact plays
  | _ => exact absurd member plays.1

theorem Roster.running (inv : s.Roster cfg active rows) {i : SeqId} (member : i ∈ active) :
    s.Plays cfg active rows i .active := by
  obtain ⟨_, role, _, plays⟩ := inv.plays i (Or.inr (Or.inl member))
  cases role with
  | active => exact plays
  | _ => exact absurd member plays.2.1

theorem Roster.known_of_lookup (inv : s.Roster cfg active rows) {requestId : RequestId} {i : SeqId}
    (found : s.seqs.lookup requestId = some i ∨ s.recving.lookup requestId = some i ∨
      s.sending.lookup requestId = some i) :
    (s.heap i).requestId = requestId ∧ i < s.counter ∧
      ∃ role, role ≠ .gone ∧ s.Plays cfg active rows i role := by
  obtain ⟨below, role⟩ := inv.plays i (Or.inr (Or.inr ⟨requestId, found⟩))
  exact ⟨inv.keyed requestId i found, below, role⟩

/-- A request in `seqs` is queued, active or loading. -/
theorem Roster.live (inv : s.Roster cfg active rows) {requestId : RequestId} {i : SeqId}
    (found : s.seqs.lookup requestId = some i) :
    (s.heap i).requestId = requestId ∧
      (s.Plays cfg active rows i .queued ∨ s.Plays cfg active rows i .active ∨
        s.Plays cfg active rows i .loading) := by
  obtain ⟨idEq, _, role, _, plays⟩ := inv.known_of_lookup (Or.inl found)
  refine ⟨idEq, ?_⟩
  rw [← idEq] at found
  cases role with
  | queued => exact Or.inl plays
  | active => exact Or.inr (Or.inl plays)
  | loading => exact Or.inr (Or.inr plays)
  | cancelled => exact absurd (found.symm.trans plays.2.2.1.1) (by simp)
  | held => exact absurd (found.symm.trans plays.2.2.1.1) (by simp)
  | gone => exact absurd (found.symm.trans plays.2.2.1) (by simp)

/-- A request in `recving` is loading or was cancelled while it did. -/
theorem Roster.recving (inv : s.Roster cfg active rows) {requestId : RequestId} {i : SeqId}
    (found : s.recving.lookup requestId = some i) :
    (s.heap i).requestId = requestId ∧
      (s.Plays cfg active rows i .loading ∨ s.Plays cfg active rows i .cancelled) := by
  obtain ⟨idEq, _, role, _, plays⟩ := inv.known_of_lookup (Or.inr (Or.inl found))
  refine ⟨idEq, ?_⟩
  rw [← idEq] at found
  cases role with
  | loading => exact Or.inl plays
  | cancelled => exact Or.inr plays
  | queued => exact absurd (found.symm.trans plays.2.2.1.2.1) (by simp)
  | active => exact absurd (found.symm.trans plays.2.2.1.2.1) (by simp)
  | held => exact absurd (found.symm.trans plays.2.2.1.2.1) (by simp)
  | gone => exact absurd (found.symm.trans plays.2.2.2.1) (by simp)

/-- A request in `sending` is held for a remote reader. -/
theorem Roster.sending (inv : s.Roster cfg active rows) {requestId : RequestId} {i : SeqId}
    (found : s.sending.lookup requestId = some i) :
    (s.heap i).requestId = requestId ∧ s.Plays cfg active rows i .held := by
  obtain ⟨idEq, _, role, _, plays⟩ := inv.known_of_lookup (Or.inr (Or.inr found))
  refine ⟨idEq, ?_⟩
  rw [← idEq] at found
  cases role with
  | held => exact plays
  | queued => exact absurd (found.symm.trans plays.2.2.1.2.2) (by simp)
  | active => exact absurd (found.symm.trans plays.2.2.1.2.2) (by simp)
  | loading => exact absurd (found.symm.trans plays.2.2.1.2.2) (by simp)
  | cancelled => exact absurd (found.symm.trans plays.2.2.1.2.2) (by simp)
  | gone => exact absurd (found.symm.trans plays.2.2.2.2) (by simp)

/-! ## Changing one sequence -/

/-- The roles whose sequence owns the blocks of its table. -/
def Role.owns : Role → Bool
  | .active | .loading | .cancelled | .held => true
  | .queued | .gone => false

/-- The references held by the owners other than `i`. -/
def otherHoldings (s : Scheduler) (active : List SeqId) (i : SeqId) : List BlockId :=
  ((s.owners active).filter (· ≠ i)).flatMap fun j => (s.heap j).blockTable

/-- No other known sequence goes by the request id `requestId`, and `i` goes by
no other. -/
structure Alone (s : Scheduler) (active : List SeqId) (i : SeqId) (requestId : RequestId) :
    Prop where
  others : ∀ j, j ≠ i → s.Known active j → (s.heap j).requestId ≠ requestId
  own : ∀ other, s.seqs.lookup other = some i ∨ s.recving.lookup other = some i ∨
    s.sending.lookup other = some i → other = requestId

/-- Nothing changes but what concerns sequence `i`, which goes by
`requestId`. -/
structure SameBut (i : SeqId) (requestId : RequestId) (before after : Scheduler)
    (active active' : List SeqId) (rows rows' : List LaunchedRow) : Prop where
  heap : ∀ j, j ≠ i → after.heap j = before.heap j
  waiting : ∀ j, j ≠ i → (j ∈ after.waiting ↔ j ∈ before.waiting)
  active : ∀ j, j ≠ i → (j ∈ active' ↔ j ∈ active)
  stored : ∀ other, other ≠ requestId →
    after.seqs.lookup other = before.seqs.lookup other ∧
      after.recving.lookup other = before.recving.lookup other ∧
      after.sending.lookup other = before.sending.lookup other
  due : ∀ j, j ≠ i → ∀ k, due rows' j k = due rows j k
  launched : ∀ row ∈ rows', row.seq ≠ i → row ∈ rows

/-- Whatever role `i` plays, the maps hold nothing but `i` under its id. -/
theorem Plays.eq_of_lookup {i j : SeqId} {role : Role} (plays : s.Plays cfg active rows i role)
    (found : s.seqs.lookup (s.heap i).requestId = some j ∨
      s.recving.lookup (s.heap i).requestId = some j ∨
      s.sending.lookup (s.heap i).requestId = some j) : j = i := by
  cases role with
  | gone =>
      obtain ⟨_, _, live, loading, held⟩ := plays
      rw [live, loading, held] at found
      simp at found
  | queued | active =>
      obtain ⟨_, _, ⟨live, loading, held⟩, _⟩ := plays
      rw [live, loading, held] at found
      simpa [eq_comm] using found
  | loading | cancelled | held =>
      obtain ⟨_, _, ⟨live, loading, held⟩, _⟩ := plays
      rw [live, loading, held] at found
      simpa [eq_comm] using found

/-- A sequence with a part to play is stored under its id. -/
theorem Plays.stored {i : SeqId} {role : Role} (plays : s.Plays cfg active rows i role)
    (part : role ≠ .gone) :
    s.seqs.lookup (s.heap i).requestId = some i ∨
      s.recving.lookup (s.heap i).requestId = some i ∨
      s.sending.lookup (s.heap i).requestId = some i := by
  cases role with
  | gone => exact absurd rfl part
  | queued | active => exact Or.inl plays.2.2.1.1
  | loading | cancelled => exact Or.inr (Or.inl plays.2.2.1.2.1)
  | held => exact Or.inr (Or.inr plays.2.2.1.2.2)

theorem Roster.alone (inv : s.Roster cfg active rows) {i : SeqId} {role : Role}
    (plays : s.Plays cfg active rows i role) : s.Alone active i (s.heap i).requestId where
  others j different known idEq := by
    obtain ⟨_, otherRole, part, otherPlays⟩ := inv.plays j known
    have found := otherPlays.stored part
    rw [idEq] at found
    exact different (plays.eq_of_lookup found)
  own other found := (inv.keyed other i found).symm

theorem Roster.owners_nodup (inv : s.Roster cfg active rows) : (s.owners active).Nodup := by
  have recvingNodup : s.recving.values.Nodup :=
    Dict.values_nodup (fun i => (s.heap i).requestId) fun requestId i found =>
      inv.keyed requestId i (Or.inr (Or.inl found))
  have sendingNodup : s.sending.values.Nodup :=
    Dict.values_nodup (fun i => (s.heap i).requestId) fun requestId i found =>
      inv.keyed requestId i (Or.inr (Or.inr found))
  rw [owners, List.nodup_append', List.nodup_append']
  refine ⟨⟨inv.active_nodup, recvingNodup, ?_⟩, sendingNodup, ?_⟩
  · intro i running loading
    obtain ⟨requestId, found⟩ := Dict.mem_values_iff.mp loading
    rcases (inv.recving found).2 with plays | plays
    · exact plays.2.1 running
    · exact plays.2.1 running
  · intro i owner held
    obtain ⟨requestId, found⟩ := Dict.mem_values_iff.mp held
    obtain ⟨idEq, plays⟩ := inv.sending found
    rcases List.mem_append.mp owner with running | loading
    · exact plays.2.1 running
    · obtain ⟨other, otherFound⟩ := Dict.mem_values_iff.mp loading
      obtain ⟨otherEq, _⟩ := inv.recving otherFound
      rw [← otherEq, plays.2.2.1.2.1] at otherFound
      simp at otherFound

theorem mem_owners_iff {i : SeqId} {role : Role} (plays : s.Plays cfg active rows i role)
    (own : ∀ requestId, s.recving.lookup requestId = some i ∨ s.sending.lookup requestId = some i →
      requestId = (s.heap i).requestId) :
    i ∈ s.owners active ↔ role.owns = true := by
  have loading : i ∈ s.recving.values ↔ s.recving.lookup (s.heap i).requestId = some i := by
    rw [Dict.mem_values_iff]
    exact ⟨fun ⟨requestId, found⟩ => own requestId (Or.inl found) ▸ found,
      fun found => ⟨_, found⟩⟩
  have held : i ∈ s.sending.values ↔ s.sending.lookup (s.heap i).requestId = some i := by
    rw [Dict.mem_values_iff]
    exact ⟨fun ⟨requestId, found⟩ => own requestId (Or.inr found) ▸ found,
      fun found => ⟨_, found⟩⟩
  rw [owners, List.mem_append, List.mem_append, loading, held]
  cases role with
  | gone =>
      obtain ⟨_, notActive, _, noLoad, noHold⟩ := plays
      simp [notActive, noLoad, noHold, Role.owns]
  | queued =>
      obtain ⟨_, notActive, ⟨_, noLoad, noHold⟩, _⟩ := plays
      simp [notActive, noLoad, noHold, Role.owns]
  | active =>
      obtain ⟨_, isActive, _⟩ := plays
      simp [isActive, Role.owns]
  | loading | cancelled =>
      obtain ⟨_, _, ⟨_, isLoading, _⟩, _⟩ := plays
      simp [isLoading, Role.owns]
  | held =>
      obtain ⟨_, _, ⟨_, _, isHeld⟩, _⟩ := plays
      simp [isHeld, Role.owns]

theorem flatMap_perm_filter {α β : Type*} [DecidableEq α] (f : α → List β) {l : List α}
    (distinct : l.Nodup) (a : α) :
    (l.flatMap f).Perm ((if a ∈ l then f a else []) ++ (l.filter (· ≠ a)).flatMap f) := by
  by_cases member : a ∈ l
  · have filterEq : l.filter (· ≠ a) = l.erase a := by
      rw [distinct.erase_eq_filter]
      congr 1
      funext other
      by_cases same : other = a <;> simp [same]
    rw [if_pos member, filterEq]
    exact (List.perm_cons_erase member).flatMap_right f
  · have filterEq : l.filter (· ≠ a) = l := by
      rw [List.filter_eq_self]
      intro other otherMember
      have different : other ≠ a := by
        rintro rfl
        exact member otherMember
      simpa using different
    rw [if_neg member, filterEq, List.nil_append]

/-- The blocks, as the references of one sequence and those of the others. -/
theorem Inv.split (inv : s.Inv cfg active rows) {i : SeqId} {role : Role}
    (plays : s.Plays cfg active rows i role) :
    s.blockManager.Inv cfg
      ((if role.owns then (s.heap i).blockTable else []) ++ s.otherHoldings active i) := by
  have owner := mem_owners_iff plays fun requestId found =>
    (inv.alone plays).own requestId (Or.inr found)
  have reordered := flatMap_perm_filter (fun j => (s.heap j).blockTable) inv.owners_nodup i
  simp only [owner] at reordered
  exact inv.blocks.perm reordered

section Update

variable {after : Scheduler} {active' : List SeqId} {rows' : List LaunchedRow} {i : SeqId}
  {requestId : RequestId} {role : Role}

theorem SameBut.known (same : SameBut i requestId s after active active' rows rows')
    (idEq : (after.heap i).requestId = requestId)
    (plays : after.Plays cfg active' rows' i role) {j : SeqId} (different : j ≠ i)
    (known : after.Known active' j) : s.Known active j := by
  rcases known with queued | running | ⟨other, found⟩
  · exact Or.inl ((same.waiting j different).mp queued)
  · exact Or.inr (Or.inl ((same.active j different).mp running))
  · have otherNe : other ≠ requestId := by
      rintro rfl
      rw [← idEq] at found
      exact different (plays.eq_of_lookup found)
    obtain ⟨live, loading, held⟩ := same.stored other otherNe
    rw [live, loading, held] at found
    exact Or.inr (Or.inr ⟨other, found⟩)

/-- A role depends only on the sequence's record and on what the containers
say about it. -/
theorem Plays.transfer {j : SeqId} {otherRole : Role} (plays : s.Plays cfg active rows j otherRole)
    (heapEq : after.heap j = s.heap j) (waiting : j ∈ after.waiting ↔ j ∈ s.waiting)
    (running : j ∈ active' ↔ j ∈ active)
    (stored : after.seqs.lookup (s.heap j).requestId = s.seqs.lookup (s.heap j).requestId ∧
      after.recving.lookup (s.heap j).requestId = s.recving.lookup (s.heap j).requestId ∧
      after.sending.lookup (s.heap j).requestId = s.sending.lookup (s.heap j).requestId)
    (dueEq : due rows' j (s.heap j).numPreemptions = due rows j (s.heap j).numPreemptions) :
    after.Plays cfg active' rows' j otherRole := by
  have storedIff : ∀ live loading held,
      after.Stored j live loading held ↔ s.Stored j live loading held := by
    intro live loading held
    rw [Stored, Stored, heapEq, stored.1, stored.2.1, stored.2.2]
  cases otherRole <;>
    simpa only [Plays, storedIff, heapEq, waiting, running, dueEq] using plays

/-- The other sequences keep their roles. -/
theorem SameBut.plays (same : SameBut i requestId s after active active' rows rows')
    {j : SeqId} (different : j ≠ i) (otherId : (s.heap j).requestId ≠ requestId)
    {otherRole : Role} (plays : s.Plays cfg active rows j otherRole) :
    after.Plays cfg active' rows' j otherRole :=
  plays.transfer (same.heap j different) (same.waiting j different) (same.active j different)
    (same.stored _ otherId) (same.due j different _)

theorem SameBut.owner (same : SameBut i requestId s after active active' rows rows')
    (inv : s.Inv cfg active rows) (alone : s.Alone active i requestId)
    (idEq : (after.heap i).requestId = requestId)
    (plays : after.Plays cfg active' rows' i role) {j : SeqId} (different : j ≠ i) :
    j ∈ after.owners active' ↔ j ∈ s.owners active := by
  simp only [owners, List.mem_append, Dict.mem_values_iff, same.active j different]
  have forward : ∀ other, after.recving.lookup other = some j ∨
      after.sending.lookup other = some j → other ≠ requestId := by
    rintro other found rfl
    rw [← idEq] at found
    exact different (plays.eq_of_lookup (Or.inr found))
  have backward : ∀ other, s.recving.lookup other = some j ∨
      s.sending.lookup other = some j → other ≠ requestId := by
    rintro other found rfl
    have known : s.Known active j := Or.inr (Or.inr ⟨other, Or.inr found⟩)
    exact alone.others j different known (inv.keyed other j (Or.inr found))
  constructor
  · rintro ((running | ⟨other, found⟩) | ⟨other, found⟩)
    · exact Or.inl (Or.inl running)
    · rw [(same.stored other (forward other (Or.inl found))).2.1] at found
      exact Or.inl (Or.inr ⟨other, found⟩)
    · rw [(same.stored other (forward other (Or.inr found))).2.2] at found
      exact Or.inr ⟨other, found⟩
  · rintro ((running | ⟨other, found⟩) | ⟨other, found⟩)
    · exact Or.inl (Or.inl running)
    · rw [← (same.stored other (backward other (Or.inl found))).2.1] at found
      exact Or.inl (Or.inr ⟨other, found⟩)
    · rw [← (same.stored other (backward other (Or.inr found))).2.2] at found
      exact Or.inr ⟨other, found⟩

/-- Changing one sequence keeps the invariant if the sequence has a role
afterwards, and the blocks account for its new table. -/
theorem Inv.update (inv : s.Inv cfg active rows) (role : Role) (alone : s.Alone active i requestId)
    (same : SameBut i requestId s after active active' rows rows')
    (idEq : (after.heap i).requestId = requestId)
    (counter : s.counter ≤ after.counter) (below : i < after.counter)
    (waitingNodup : after.waiting.Nodup) (activeNodup : active'.Nodup)
    (plays : after.Plays cfg active' rows' i role)
    (launched : ∀ row ∈ rows', row.seq = i → after.Launched active' row)
    (blocks : after.blockManager.Inv cfg
      ((if role.owns then (after.heap i).blockTable else []) ++ s.otherHoldings active i))
    (kept : ∀ blockId ∈ s.otherHoldings active i,
      (s.blockManager.blocks blockId).hash = -1 → (after.blockManager.blocks blockId).hash = -1)
    (unpublished : role = .active ∨ role = .loading ∨ role = .cancelled → after.Unpublished i) :
    after.Inv cfg active' rows' := by
  have keyed : ∀ other j, after.seqs.lookup other = some j ∨ after.recving.lookup other = some j ∨
      after.sending.lookup other = some j → (after.heap j).requestId = other := by
    intro other j found
    by_cases own : other = requestId
    · subst other
      rw [← idEq] at found
      rw [plays.eq_of_lookup found, idEq]
    · obtain ⟨live, loading, held⟩ := same.stored other own
      rw [live, loading, held] at found
      have different : j ≠ i := by
        rintro rfl
        exact own (alone.own other found)
      rw [same.heap j different]
      exact inv.keyed other j found
  have allPlay : ∀ j, after.Known active' j → j < after.counter ∧
      ∃ role, role ≠ .gone ∧ after.Plays cfg active' rows' j role := by
    intro j known
    by_cases own : j = i
    · subst j
      refine ⟨below, role, ?_, plays⟩
      rintro rfl
      obtain ⟨notQueued, notActive, live, loading, held⟩ := plays
      rcases known with queued | running | ⟨other, found⟩
      · exact notQueued queued
      · exact notActive running
      · rw [← keyed other i found, live, loading, held] at found
        simp at found
    · have knownBefore := same.known idEq plays own known
      obtain ⟨belowBefore, otherRole, part, otherPlays⟩ := inv.plays j knownBefore
      exact ⟨belowBefore.trans_le counter, otherRole, part,
        same.plays own (alone.others j own knownBefore) otherPlays⟩
  have owner : ∀ j, j ≠ i → (j ∈ after.owners active' ↔ j ∈ s.owners active) :=
    fun j different => same.owner inv alone idEq plays different
  have roster : after.Roster cfg active' rows' := by
    refine ⟨waitingNodup, activeNodup, keyed, allPlay, ?_⟩
    intro row member
    by_cases own : row.seq = i
    · exact launched row member own
    · obtain ⟨rowBelow, lives, stays⟩ := inv.launched row (same.launched row member own)
      refine ⟨rowBelow.trans_le counter, ?_, ?_⟩
      · rw [same.heap _ own]
        exact lives
      · rw [same.heap _ own, same.active _ own]
        exact stays
  -- the other owners are the same, and so are their tables
  have others : (after.otherHoldings active' i).Perm (s.otherHoldings active i) := by
    have tables : after.otherHoldings active' i =
        ((after.owners active').filter (· ≠ i)).flatMap fun j => (s.heap j).blockTable := by
      apply List.flatMap_congr
      intro j member
      rw [same.heap j (by simpa using (List.mem_filter.mp member).2)]
    rw [tables]
    refine List.Perm.flatMap_right _ ?_
    rw [List.perm_ext_iff_of_nodup (roster.owners_nodup.filter _) (inv.owners_nodup.filter _)]
    intro j
    simp only [List.mem_filter, decide_eq_true_eq]
    exact and_congr_left (owner j)
  refine ⟨roster, ?_, ?_⟩
  · have owns := mem_owners_iff plays fun other found => (roster.alone plays).own other (Or.inr found)
    have reordered := flatMap_perm_filter (fun j => (after.heap j).blockTable)
      roster.owners_nodup i
    simp only [owns] at reordered
    exact blocks.perm ((others.symm.append_left _).trans reordered.symm)
  · intro j member
    by_cases own : j = i
    · subst j
      apply unpublished
      rcases member with running | loading
      · cases role with
        | active => exact Or.inl rfl
        | _ => exact absurd running plays.2.1
      · obtain ⟨other, found⟩ := Dict.mem_values_iff.mp loading
        rw [← keyed other i (Or.inr (Or.inl found))] at found
        cases role with
        | loading => exact Or.inr (Or.inl rfl)
        | cancelled => exact Or.inr (Or.inr rfl)
        | gone => exact absurd (found.symm.trans plays.2.2.2.1) (by simp)
        | queued => exact absurd (found.symm.trans plays.2.2.1.2.1) (by simp)
        | active => exact absurd (found.symm.trans plays.2.2.1.2.1) (by simp)
        | held => exact absurd (found.symm.trans plays.2.2.1.2.1) (by simp)
    · have ownerAfter : j ∈ after.owners active' := by
        rw [owners, List.mem_append]
        exact Or.inl (List.mem_append.mpr member)
      have ownerBefore := (owner j own).mp ownerAfter
      have memberBefore : j ∈ active ∨ j ∈ s.recving.values := by
        rcases member with running | loading
        · exact Or.inl ((same.active j own).mp running)
        · obtain ⟨other, found⟩ := Dict.mem_values_iff.mp loading
          have otherNe : other ≠ requestId := by
            rintro rfl
            rw [← idEq] at found
            exact own (plays.eq_of_lookup (Or.inr (Or.inl found)))
          rw [(same.stored other otherNe).2.1] at found
          exact Or.inr (Dict.mem_values_iff.mpr ⟨other, found⟩)
      intro blockId inTable
      rw [same.heap j own] at inTable
      refine kept blockId ?_ (inv.unpublished j memberBefore blockId inTable)
      exact List.mem_flatMap.mpr ⟨j, List.mem_filter.mpr ⟨ownerBefore, by simpa using own⟩,
        List.mem_of_mem_drop inTable⟩

end Update

end Scheduler

end LeanVllm
