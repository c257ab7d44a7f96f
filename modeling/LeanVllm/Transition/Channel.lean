import Mathlib.Data.List.Infix

/-!
# Channels

A first-in first-out channel, with the log of everything ever sent through it.
Messages of several owners share a channel; `tagged` picks out those of one.
-/

namespace LeanVllm.Transition

universe u v

variable {α : Type u} {β : Type v}

structure Channel (α : Type u) where
  log : List α := []
  pending : List α := []

namespace Channel

def send (channel : Channel α) (message : α) : Channel α where
  log := channel.log ++ [message]
  pending := channel.pending ++ [message]

/-- What is left once the first message was taken. -/
def take (channel : Channel α) : Channel α :=
  { channel with pending := channel.pending.tail }

@[simp]
theorem send_log (channel : Channel α) (message : α) :
    (channel.send message).log = channel.log ++ [message] :=
  rfl

@[simp]
theorem send_pending (channel : Channel α) (message : α) :
    (channel.send message).pending = channel.pending ++ [message] :=
  rfl

@[simp]
theorem take_log (channel : Channel α) : channel.take.log = channel.log :=
  rfl

@[simp]
theorem take_pending (channel : Channel α) : channel.take.pending = channel.pending.tail :=
  rfl

end Channel

/-! ## Messages of one owner -/

section Tagged

variable [DecidableEq α]

/-- The messages of one owner, in order. -/
def tagged (owner : α) (messages : List (α × β)) : List β :=
  (messages.filter fun message => message.1 = owner).map Prod.snd

@[simp]
theorem tagged_nil (owner : α) : tagged owner ([] : List (α × β)) = [] :=
  rfl

@[simp]
theorem tagged_append (owner : α) (first second : List (α × β)) :
    tagged owner (first ++ second) = tagged owner first ++ tagged owner second := by
  rw [tagged, List.filter_append, List.map_append]
  rfl

theorem tagged_cons (owner : α) (message : α × β) (rest : List (α × β)) :
    tagged owner (message :: rest) =
      if message.1 = owner then message.2 :: tagged owner rest else tagged owner rest := by
  rw [tagged, List.filter_cons]
  split
  · rename_i equal
    rw [if_pos (of_decide_eq_true equal), List.map_cons]
    rfl
  · rename_i other
    rw [if_neg fun equal => other (decide_eq_true equal)]
    rfl

@[simp]
theorem mem_tagged_iff {owner : α} {message : β} {messages : List (α × β)} :
    message ∈ tagged owner messages ↔ (owner, message) ∈ messages := by
  simp only [tagged, List.mem_map, List.mem_filter, decide_eq_true_eq]
  constructor
  · rintro ⟨⟨_, _⟩, ⟨member, rfl⟩, rfl⟩
    exact member
  · intro member
    exact ⟨_, ⟨member, rfl⟩, rfl⟩

theorem tagged_eq_nil {owner : α} {messages : List (α × β)}
    (none : ∀ message ∈ messages, message.1 ≠ owner) : tagged owner messages = [] := by
  refine List.eq_nil_iff_forall_not_mem.mpr fun message member => ?_
  exact none _ (mem_tagged_iff.mp member) rfl

/-- One message to each of some distinct owners. -/
theorem tagged_map_const (owner : α) (message : β) {owners : List α} (distinct : owners.Nodup) :
    tagged owner (owners.map fun each => (each, message)) =
      if owner ∈ owners then [message] else [] := by
  induction owners with
  | nil => rfl
  | cons first rest ih =>
      obtain ⟨absent, distinct⟩ := List.nodup_cons.mp distinct
      rw [List.map_cons, tagged_cons, ih distinct]
      by_cases same : first = owner
      · subst same
        simp [absent]
      · simp [same, Ne.symm same]

end Tagged

end LeanVllm.Transition
