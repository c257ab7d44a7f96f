import Mathlib.Data.Int.Order.Basic
import Mathlib.Data.List.MinMax
import Mathlib.Data.List.Sort
import Mathlib.Data.Prod.Lex
import LeanVllm.Engine.Sequence

/-!
# Scheduling policies

A policy owns the waiting queue and picks preemption victims.  `fcfs` is a
deque.  `priority` is a binary heap whose keys `(priority, arrival_time,
seq_id)` are distinct, so only its smallest entry is ever observed: the list of
its entries in key order is all the scheduler can see of it.
-/

namespace LeanVllm

namespace SchedulingPolicy

/-- `(priority, arrival_time)`, compared as Python compares tuples. -/
def Urgency := Int ×ₗ Nat

instance : LinearOrder Urgency :=
  @Prod.Lex.instLinearOrder Int Nat Int.instLinearOrder Nat.instLinearOrder

/-- `(priority, arrival_time, seq_id)`. -/
def Key := Urgency ×ₗ Nat

instance : LinearOrder Key :=
  @Prod.Lex.instLinearOrder Urgency Nat instLinearOrderUrgency Nat.instLinearOrder

/-- `Priority._urgency`. -/
def urgency (seq : Sequence) : Urgency :=
  toLex (seq.priority, seq.arrivalTime)

/-- `Priority._key`. -/
def key (heap : SeqId → Sequence) (i : SeqId) : Key :=
  toLex (urgency (heap i), i)

/-- Add a newly arrived request to the waiting queue. -/
def add (policy : SchedulingPolicy) (heap : SeqId → Sequence) (queue : List SeqId)
    (i : SeqId) : List SeqId :=
  match policy with
  | fcfs => queue ++ [i]
  | priority => queue.orderedInsert (fun a b => key heap a ≤ key heap b) i

/-- Return a preempted request to the waiting queue. -/
def requeue (policy : SchedulingPolicy) (heap : SeqId → Sequence) (queue : List SeqId)
    (i : SeqId) : List SeqId :=
  match policy with
  | fcfs => i :: queue
  | priority => queue.orderedInsert (fun a b => key heap a ≤ key heap b) i

/-- Choose the running sequence that gives up its blocks first: the newest, or
the first of the least urgent. -/
def victim (policy : SchedulingPolicy) (heap : SeqId → Sequence) (running : List SeqId) :
    Option SeqId :=
  match policy with
  | fcfs => running.getLast?
  | priority => running.argmax fun i => urgency (heap i)

/-- Order running sequences from least to most likely to be chosen by
`victim`.  Python's sort is stable, as insertion sort is. -/
def byUrgency (policy : SchedulingPolicy) (heap : SeqId → Sequence) (running : List SeqId) :
    List SeqId :=
  match policy with
  | fcfs => running
  | priority => running.insertionSort fun a b => urgency (heap a) ≤ urgency (heap b)

/-- `deque.remove` and `list.remove`: the first occurrence, or `ValueError`. -/
def remove (queue : List SeqId) (i : SeqId) : Except Fault (List SeqId) :=
  if i ∈ queue then .ok (queue.erase i) else .error .valueError

variable (policy : SchedulingPolicy) (heap : SeqId → Sequence)

theorem add_perm (queue : List SeqId) (i : SeqId) :
    (policy.add heap queue i).Perm (i :: queue) := by
  cases policy with
  | fcfs => exact List.perm_append_singleton i queue
  | priority => exact List.perm_orderedInsert _ i queue

theorem requeue_perm (queue : List SeqId) (i : SeqId) :
    (policy.requeue heap queue i).Perm (i :: queue) := by
  cases policy with
  | fcfs => exact List.Perm.refl _
  | priority => exact List.perm_orderedInsert _ i queue

theorem byUrgency_perm (running : List SeqId) :
    (policy.byUrgency heap running).Perm running := by
  cases policy with
  | fcfs => exact List.Perm.refl _
  | priority => exact List.perm_insertionSort _ running

theorem victim_mem {running : List SeqId} {i : SeqId}
    (chosen : policy.victim heap running = some i) : i ∈ running := by
  cases policy with
  | fcfs => exact List.mem_of_getLast? chosen
  | priority => exact List.argmax_mem (Option.mem_def.mpr chosen)

theorem victim_eq_none_iff {running : List SeqId} :
    policy.victim heap running = none ↔ running = [] := by
  cases policy with
  | fcfs => exact List.getLast?_eq_none_iff
  | priority => exact List.argmax_eq_none

theorem remove_of_mem {queue : List SeqId} {i : SeqId} (member : i ∈ queue) :
    remove queue i = .ok (queue.erase i) :=
  if_pos member

end SchedulingPolicy

end LeanVllm
