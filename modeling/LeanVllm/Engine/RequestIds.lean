import LeanVllm.Engine.StreamEnds

/-!
# Request ids in use

Messages carry request ids only, so what is still on its way under an id may reach a
later owner of it.  A call uses its id from its `add_request` until nothing of it is
left: no task, no stream, no message and no sequence in the engine.  Only an
`add_request` starts a use.
-/

namespace LeanVllm

open Collections Transition

/-- The message is about a request of the call. -/
def CoreInput.Names (requestId : RequestId) (call : CallId) : CoreInput → Prop
  | .add sender key _ _ => sender = call ∧ key = requestId
  | .abort _ _ => False
  | .shutdown => False

def CoreOutput.Names (requestId : RequestId) (call : CallId) : CoreOutput → Prop
  | .added judged key _ => judged = call ∧ key = requestId
  | .outputs batch => ∃ output, (call, output) ∈ batch ∧ output.requestId = requestId
  | .dead _ => False

/-- The outputs in a message. -/
def CoreOutput.batch : CoreOutput → List (CallId × RequestOutput)
  | .outputs batch => batch
  | .added _ _ _ => []
  | .dead _ => []

theorem CoreOutput.names_of_mem_batch {message : CoreOutput} {call : CallId}
    {output : RequestOutput} (among : (call, output) ∈ message.batch) :
    message.Names output.requestId call := by
  cases message with
  | outputs outputs => exact ⟨output, among, rfl⟩
  | added judged key error => exact absurd among List.not_mem_nil
  | dead error => exact absurd among List.not_mem_nil

namespace AsyncMPClient

variable {client : AsyncMPClient} {requestId : RequestId} {call : CallId}

theorem handleAdded_batches (judged : CallId) (error : Option Fault) :
    (client.handleAdded judged requestId error).batches = client.batches := by
  unfold handleAdded
  split
  · rfl
  · split <;> rfl

theorem handleAdded_input (judged : CallId) (error : Option Fault) :
    (client.handleAdded judged requestId error).input = client.input := by
  unfold handleAdded
  split
  · rfl
  · split <;> rfl

theorem handleAdded_up (client : AsyncMPClient) (requestId : RequestId) (judged : CallId) (error : Option Fault) :
    (client.handleAdded judged requestId error).error = client.error ∧
      (client.handleAdded judged requestId error).shutDown = client.shutDown := by
  unfold handleAdded
  split
  · exact ⟨rfl, rfl⟩
  · split <;> exact ⟨rfl, rfl⟩

theorem handleAdded_adding (judged : CallId) (error : Option Fault) (other : RequestId) :
    (client.handleAdded judged requestId error).adding.lookup other =
      if other = requestId then none else client.adding.lookup other := by
  unfold handleAdded
  split
  · rename_i absent
    split
    · rename_i same
      rw [same, absent]
    · rfl
  · split <;> simp [forgetAdding, setFuture, Dict.lookup_erase_eq]

theorem handleAdded_futures (judged : CallId) (error : Option Fault) :
    (client.handleAdded judged requestId error).futures call =
      if client.adding.lookup requestId = some call ∧ client.futures call = some .pending then
        some (.verdict error judged)
      else client.futures call := by
  unfold handleAdded
  split
  · rename_i absent
    simp [absent]
  · rename_i owner found
    have own : client.adding.lookup requestId = some call ↔ call = owner := by
      rw [found, Option.some.injEq, eq_comm]
    by_cases pending : client.futures owner = some .pending
    · simp only [if_pos pending, own, setFuture, forgetAdding]
      by_cases same : call = owner
      · subst same
        rw [Function.update_self, if_pos ⟨rfl, pending⟩]
      · rw [Function.update_of_ne same, if_neg fun both => same both.1]
    · rw [if_neg pending, if_neg]
      · rfl
      · rintro ⟨mine, waits⟩
        exact pending (own.mp mine ▸ waits)

/-- A message that is taken makes the client take up nothing but its outputs. -/
theorem handle_adding {message : CoreOutput} {other : RequestId}
    (found : (client.handle message).adding.lookup other = some call) :
    client.adding.lookup other = some call := by
  cases message with
  | outputs outputs => exact found
  | added judged key error =>
      rw [handle, handleAdded_adding] at found
      split at found
      · cases found
      · exact found
  | dead error =>
      have died : Quieter (fun _ => False) client (client.die error) := die_quieter client error
      exact died.adding _ _ found

theorem handle_input {message : CoreInput} {received : CoreOutput}
    (member : message ∈ (client.handle received).input.pending) :
    message ∈ client.input.pending := by
  cases received with
  | outputs outputs => exact member
  | added judged key error =>
      rw [handle, handleAdded_input] at member
      exact member
  | dead error =>
      simp only [handle, die] at member
      split at member
      · exact member
      · exact member

theorem handle_batches (message : CoreOutput) :
    (client.handle message).batches = client.batches ++ message.batch := by
  cases message with
  | outputs outputs => simp [handle, batches, CoreOutput.batch, Except.toOption]
  | added judged key error =>
      rw [handle, handleAdded_batches]
      exact (List.append_nil _).symm
  | dead error =>
      have died : Quieter (fun _ => False) client (client.die error) := die_quieter client error
      exact died.batches.trans (List.append_nil _).symm

end AsyncMPClient

namespace Service

variable {δ : Type} {cfg : Config} {tokenizer : Option (Tokenizer δ)}
  {service before after : Service δ} {event : Event} {requestId : RequestId} {call other : CallId}

/-- Something of the call is still on its way under the id. -/
inductive Flying (service : Service δ) (requestId : RequestId) (call : CallId) : Prop
  | sent {message : CoreInput} (among : message ∈ service.llm.engineCore.input.pending)
      (names : message.Names requestId call)
  | held (held : service.core.Holds requestId call)
  | told {message : CoreOutput} (among : message ∈ service.core.output.pending)
      (names : message.Names requestId call)
  | batched {output : RequestOutput} (among : (call, output) ∈ service.llm.engineCore.batches)
      (named : output.requestId = requestId)

/-- What makes the call use the id. -/
inductive Uses (service : Service δ) (requestId : RequestId) (call : CallId) : Prop
  | flying (flying : service.Flying requestId call)
  | registered (registered : service.llm.Registered requestId call)
  | adding (found : service.llm.engineCore.adding.lookup requestId = some call)
  | waiting (waiting : service.llm.Waiting call)
      (named : (service.llm.calls call).requestId = requestId)

/-- A client that takes nothing up starts no use. -/
theorem Flying.of_quieter {forgotten : RequestId → Prop}
    (client : AsyncMPClient.Quieter forgotten before.llm.engineCore after.llm.engineCore)
    (core : after.core = before.core) (flying : after.Flying requestId call) :
    before.Flying requestId call := by
  cases flying with
  | @sent message among names =>
      cases message with
      | add sender key prompt params => exact .sent (client.adds among) names
      | abort key reason => exact names.elim
      | shutdown => exact names.elim
  | held held => exact .held (core ▸ held)
  | told among names => exact .told (core ▸ among) names
  | batched among named => exact .batched (client.batches ▸ among) named

theorem handle_told {core : EngineCore} {arrivalTime : Nat} {message : CoreInput}
    {told : CoreOutput} (member : told ∈ (core.handle cfg arrivalTime message).output.pending)
    (names : told.Names requestId call) :
    told ∈ core.output.pending ∨ message.Names requestId call := by
  cases message with
  | add sender key prompt params =>
      simp only [EngineCore.handle, Channel.send_pending, List.mem_append,
        List.mem_singleton] at member
      rcases member with old | rfl
      · exact Or.inl old
      · exact Or.inr names
  | abort key reason =>
      simp only [EngineCore.handle] at member
      split at member
      · exact Or.inl member
      · simp only [EngineCore.raised, Channel.send_pending, List.mem_append,
          List.mem_singleton] at member
        rcases member with old | rfl
        · exact Or.inl old
        · exact names.elim
  | shutdown => exact Or.inl member

/-- Only an `add_request` that passes its checks starts a use of an id, by its own call. -/
theorem Effect.uses (effect : Effect cfg tokenizer before after event)
    (engine : LLMEngine.Reachable cfg before.core.engine) (uses : after.Uses requestId call) :
    before.Uses requestId call ∨ (call = before.llm.numCalls ∧
      ∃ tokenIds params skipSpecialTokens,
        event = .addRequest requestId tokenIds params skipSpecialTokens ∧
          before.llm.checkAdd requestId = none) := by
  cases effect with
  | ends llm core forgets =>
      refine Or.inl ?_
      cases uses with
      | flying flying => exact .flying (flying.of_quieter llm.client core)
      | registered registered => exact .registered (llm.registered registered)
      | adding found => exact .adding (llm.client.adding _ _ found)
      | waiting waiting named =>
          exact .waiting (llm.waiting waiting) ((llm.named call).symm.trans named)
  | @admits key tokenIds params skipSpecialTokens passed isOpen sent =>
      subst sent
      have client : (before.llm.sendAdd tokenizer key tokenIds params skipSpecialTokens).engineCore =
          _ := AsyncMPClient.addRequestAsync_of_open isOpen
      have own : requestId = key → call = before.llm.numCalls → before.Uses requestId call ∨
          (call = before.llm.numCalls ∧ ∃ tokenIds' params' skipSpecialTokens',
            Event.addRequest key tokenIds params skipSpecialTokens =
              .addRequest requestId tokenIds' params' skipSpecialTokens' ∧
                before.llm.checkAdd requestId = none) := by
        rintro rfl sameCall
        exact Or.inr ⟨sameCall, _, _, _, rfl, passed⟩
      cases uses with
      | flying flying =>
          cases flying with
          | @sent message among names =>
              rw [withLlm, client] at among
              simp only [Channel.send_pending, List.mem_append, List.mem_singleton] at among
              rcases among with old | rfl
              · exact Or.inl (.flying (.sent old names))
              · exact own names.2.symm names.1.symm
          | held held => exact Or.inl (.flying (.held held))
          | told among names => exact Or.inl (.flying (.told among names))
          | batched among named =>
              rw [withLlm, client] at among
              exact Or.inl (.flying (.batched among named))
      | registered registered =>
          have registered' := AsyncLLM.sendAdd_registered.mp registered
          split at registered'
          · exact own ‹_› registered'
          · exact Or.inl (.registered registered')
      | adding found =>
          rw [withLlm, client] at found
          simp only [Dict.lookup_insert_eq] at found
          split at found
          · exact own ‹_› (Option.some.inj found).symm
          · exact Or.inl (.adding found)
      | waiting waiting named =>
          obtain ⟨cancelled, task⟩ := waiting
          by_cases same : call = before.llm.numCalls
          · subst same
            refine own ?_ rfl
            simpa [withLlm, AsyncLLM.sendAdd] using named.symm
          · refine Or.inl (.waiting ⟨cancelled, ?_⟩ ?_)
            · simpa [withLlm, AsyncLLM.sendAdd, same] using task
            · simpa [withLlm, AsyncLLM.sendAdd, same] using named
  | fails passed llm core =>
      refine Or.inl ?_
      cases uses with
      | flying flying => exact .flying (flying.of_quieter llm.client core)
      | registered registered => exact .registered (llm.registered.mp registered)
      | adding found => exact .adding (llm.client.adding _ _ found)
      | waiting waiting named =>
          obtain ⟨waiting, old⟩ := llm.waiting _ waiting
          rw [llm.named, if_neg old] at named
          exact .waiting waiting named
  | @receives message rest pending taken =>
      subst taken
      refine Or.inl ?_
      have tail : ∀ told ∈ before.core.output.take.pending, told ∈ before.core.output.pending :=
        fun told member => List.mem_of_mem_tail member
      cases uses with
      | flying flying =>
          cases flying with
          | sent among names => exact .flying (.sent (AsyncMPClient.handle_input among) names)
          | held held => exact .flying (.held held)
          | told among names => exact .flying (.told (tail _ among) names)
          | batched among named =>
              rw [withClient, AsyncMPClient.handle_batches] at among
              rcases List.mem_append.mp among with old | new
              · exact .flying (.batched old named)
              · have head : message ∈ before.core.output.pending := by
                  rw [pending]
                  exact List.mem_cons_self
                exact .flying (.told head (named ▸ CoreOutput.names_of_mem_batch new))
      | registered registered => exact .registered registered
      | adding found => exact .adding (AsyncMPClient.handle_adding found)
      | waiting waiting named => exact .waiting waiting named
  | @delivers batch rest outputs llm core =>
      refine Or.inl ?_
      have client := llm.client
      cases uses with
      | flying flying =>
          cases flying with
          | sent among names => exact .flying (.sent (by rw [client] at among; exact among) names)
          | held held => exact .flying (.held (core ▸ held))
          | told among names => exact .flying (.told (core ▸ among) names)
          | batched among named =>
              rw [client] at among
              refine .flying (.batched ?_ named)
              rw [AsyncMPClient.batches, outputs, List.flatMap_cons]
              exact List.mem_append_right _ among
      | registered registered => exact .registered (llm.registered registered)
      | adding found => exact .adding (by rw [client] at found; exact found)
      | waiting waiting named =>
          rw [AsyncLLM.Waiting, llm.calls] at waiting
          rw [llm.calls] at named
          exact .waiting waiting named
  | @handles message rest arrivalTime pending taken =>
      subst taken
      refine Or.inl ?_
      have head : message ∈ before.llm.engineCore.input.pending := by
        rw [pending]
        exact List.mem_cons_self
      have tail : ∀ sent ∈ before.llm.engineCore.input.take.pending,
          sent ∈ before.llm.engineCore.input.pending :=
        fun sent member => List.mem_of_mem_tail member
      cases uses with
      | flying flying =>
          cases flying with
          | sent among names => exact .flying (.sent (tail _ among) names)
          | held held =>
              rcases (EngineCore.handle_spec engine arrivalTime message).2 _ _ held with
                old | ⟨prompt, params, rfl⟩
              · exact .flying (.held old)
              · exact .flying (.sent head ⟨rfl, rfl⟩)
          | told among names =>
              rcases handle_told among names with old | new
              · exact .flying (.told old names)
              · exact .flying (.sent head new)
          | batched among named => exact .flying (.batched among named)
      | registered registered => exact .registered registered
      | adding found => exact .adding found
      | waiting waiting named => exact .waiting waiting named
  | steps valid stepped =>
      subst stepped
      refine Or.inl ?_
      obtain ⟨engine', batch, stepEq, _, holds, produced⟩ := EngineCore.step_spec engine valid
      cases uses with
      | flying flying =>
          cases flying with
          | sent among names => exact .flying (.sent among names)
          | held held =>
              rw [stepEq] at held
              exact .flying (.held (holds _ _ held))
          | told among names =>
              rw [stepEq] at among
              simp only at among
              split at among
              · exact .flying (.told among names)
              · simp only [Channel.send_pending, List.mem_append, List.mem_singleton] at among
                rcases among with old | rfl
                · exact .flying (.told old names)
                · obtain ⟨output, member, rfl⟩ := names
                  exact .flying (.held (produced _ member).1)
          | batched among named => exact .flying (.batched among named)
      | registered registered => exact .registered registered
      | adding found => exact .adding found
      | waiting waiting named => exact .waiting waiting named
  | raises raised =>
      subst raised
      refine Or.inl ?_
      cases uses with
      | flying flying =>
          cases flying with
          | sent among names => exact .flying (.sent among names)
          | held held => exact .flying (.held held)
          | told among names =>
              simp only [EngineCore.raised, Channel.send_pending, List.mem_append,
                List.mem_singleton] at among
              rcases among with old | rfl
              · exact .flying (.told old names)
              · exact names.elim
          | batched among named => exact .flying (.batched among named)
      | registered registered => exact .registered registered
      | adding found => exact .adding found
      | waiting waiting named => exact .waiting waiting named
  | exits exited =>
      subst exited
      refine Or.inl ?_
      cases uses with
      | flying flying =>
          cases flying with
          | sent among names => exact .flying (.sent among names)
          | held held => exact .flying (.held held)
          | told among names => exact .flying (.told among names)
          | batched among named => exact .flying (.batched among named)
      | registered registered => exact .registered registered
      | adding found => exact .adding found
      | waiting waiting named => exact .waiting waiting named

end Service

end LeanVllm
