import LeanVllm.Engine.Delivery

/-!
# Steps of the service

What each event can do, said once: it ends streams, sends or fails an admission, moves
a message one place on, or is a move of the core.
-/

namespace LeanVllm

open Collections Transition

namespace AsyncMPClient

variable {forgotten : RequestId → Prop}

/-- A message that is not an admission takes nothing up. -/
theorem input_quieter (client : AsyncMPClient) {message : CoreInput}
    (other : ∀ call requestId prompt params, message ≠ .add call requestId prompt params) :
    Quieter forgotten client { client with input := client.input.send message } where
  batches := rfl
  adding _ _ found := found
  sent := .of_other _ other
  verdicts _ _ _ given := given
  waiting _ pending := pending
  kept _ _ _ found := Or.inl found
  up _ _ _ _ _ up := up

theorem beginShutdown_quieter (client : AsyncMPClient) :
    Quieter forgotten client client.beginShutdown := by
  have flagged : Quieter forgotten client { client with stopped := true, watching := false } :=
    .of_same rfl rfl rfl rfl fun up => up
  exact flagged.trans (input_quieter _ (by simp))

theorem endShutdown_quieter (client : AsyncMPClient) :
    Quieter forgotten client client.endShutdown :=
  .of_failPending .shuttingDown rfl rfl rfl rfl

theorem readerFails_quieter (client : AsyncMPClient) (error : String) :
    Quieter forgotten client (client.readerFails error) := by
  have flagged : Quieter forgotten client { client with reading := false } :=
    .of_same rfl rfl rfl rfl fun up => up
  simp only [readerFails]
  split
  · exact flagged
  · exact flagged.trans (die_quieter _ _)

theorem onProcessExit_quieter (client : AsyncMPClient) (exitcode : Int) :
    Quieter forgotten client (client.onProcessExit exitcode) := by
  have flagged : Quieter forgotten client { client with watching := false } :=
    .of_same rfl rfl rfl rfl fun up => up
  simp only [onProcessExit]
  split
  · exact flagged
  · exact flagged.trans (die_quieter _ _)

end AsyncMPClient

namespace Service

variable {δ : Type} {cfg : Config} {tokenizer : Option (Tokenizer δ)}
  {service before after : Service δ} {event : Event}

/-- What a step of the core is given is what a step of its engine can be given. -/
def Event.Valid (cfg : Config) (service : Service δ) : Event → Prop
  | .coreStep env => env.Valid cfg service.core.engine
  | _ => True

/-- One event of a run. -/
structure Next (cfg : Config) (tokenizer : Option (Tokenizer δ)) (before : Service δ)
    (event : Event) (after : Service δ) : Prop where
  valid : event.Valid cfg before
  next : before.next cfg tokenizer event = some after

/-- The states that some run reaches. -/
def Reachable (cfg : Config) (tokenizer : Option (Tokenizer δ)) (service : Service δ) : Prop :=
  ∃ events, Run (Next cfg tokenizer) (create cfg) events service

/-- What an event does.  Only a task that ends forgets an admission. -/
inductive Effect (cfg : Config) (tokenizer : Option (Tokenizer δ)) (before after : Service δ) :
    Event → Prop
  | ends {event : Event} {forgotten : RequestId → Prop}
      (llm : before.llm.Ends forgotten after.llm) (core : after.core = before.core)
      (forgets : ∀ requestId, forgotten requestId → ∃ call, event = .resumeAdd call ∧
        before.llm.Waiting call ∧ (before.llm.calls call).requestId = requestId) :
      Effect cfg tokenizer before after event
  | admits {requestId : RequestId} {tokenIds : List Token} {params : SamplingParams}
      {skipSpecialTokens : Bool} (passed : before.llm.checkAdd requestId = none)
      (isOpen : before.llm.engineCore.Open)
      (sent : after = before.withLlm
        (before.llm.sendAdd tokenizer requestId tokenIds params skipSpecialTokens)) :
      Effect cfg tokenizer before after (.addRequest requestId tokenIds params skipSpecialTokens)
  | fails {requestId : RequestId} {tokenIds : List Token} {params : SamplingParams}
      {skipSpecialTokens : Bool} (passed : before.llm.checkAdd requestId = none)
      (llm : before.llm.Fails requestId after.llm) (core : after.core = before.core) :
      Effect cfg tokenizer before after (.addRequest requestId tokenIds params skipSpecialTokens)
  | receives {message : CoreOutput} {rest : List CoreOutput}
      (pending : before.core.output.pending = message :: rest)
      (taken : after = { before.withClient (before.llm.engineCore.handle message) with
        core := { before.core with output := before.core.output.take } }) :
      Effect cfg tokenizer before after .receive
  | delivers {batch : List (CallId × RequestOutput)}
      {rest : List (Except EngineDeadError (List (CallId × RequestOutput)))}
      (outputs : before.llm.engineCore.outputs = .ok batch :: rest)
      (llm : AsyncLLM.Delivers batch { before.llm with
        engineCore := { before.llm.engineCore with outputs := rest } } after.llm)
      (core : after.core = before.core) : Effect cfg tokenizer before after .handleOutputs
  | handles {message : CoreInput} {rest : List CoreInput} {arrivalTime : Nat}
      (pending : before.llm.engineCore.input.pending = message :: rest)
      (taken : after = { before.withClient { before.llm.engineCore with
          input := before.llm.engineCore.input.take } with
        core := before.core.handle cfg arrivalTime message }) :
      Effect cfg tokenizer before after (.coreHandle arrivalTime)
  | steps {env : StepEnv} (valid : env.Valid cfg before.core.engine)
      (stepped : after = { before with core := before.core.step cfg env }) :
      Effect cfg tokenizer before after (.coreStep env)
  | raises {error : String} (raised : after = { before with core := before.core.raised error }) :
      Effect cfg tokenizer before after (.coreRaises error)
  | exits (exited : after = { before with core := { before.core with alive := false } }) :
      Effect cfg tokenizer before after .coreExits

/-- Nothing is forgotten. -/
theorem Effect.of_ends (llm : before.llm.Ends (fun _ => False) after.llm)
    (core : after.core = before.core) : Effect cfg tokenizer before after event :=
  .ends llm core fun _ absurdly => absurdly.elim

/-- An event that moves only the client's side. -/
theorem Effect.of_client {client : AsyncMPClient}
    (quieter : AsyncMPClient.Quieter (fun _ => False) before.llm.engineCore client) :
    Effect cfg tokenizer before (before.withClient client) event :=
  .of_ends (AsyncLLM.client_ends _ quieter) rfl

theorem Next.effect (keyed : before.llm.Keyed) (taken : Next cfg tokenizer before event after) :
    Effect cfg tokenizer before after event := by
  obtain ⟨valid, next⟩ := taken
  cases event with
  | addRequest requestId tokenIds params skipSpecialTokens =>
      obtain rfl := Option.some.inj next
      cases checked : before.llm.checkAdd requestId with
      | some refusal =>
          have same : before.llm.addRequest tokenizer requestId tokenIds params skipSpecialTokens =
              before.llm := by
            simp [AsyncLLM.addRequest, checked]
          rw [same]
          exact .of_ends
            (.of_same rfl rfl (fun _ => rfl) (fun _ => Or.inl rfl) rfl (.refl _ _)) rfl
      | none =>
          by_cases isOpen : before.llm.engineCore.Open
          · rw [AsyncLLM.addRequest_of_open checked isOpen]
            exact .admits checked isOpen rfl
          · exact .fails checked (AsyncLLM.addRequest_of_not_open checked isOpen) rfl
  | cancelAdd call =>
      obtain ⟨llm, cancelled, rfl⟩ := Option.map_eq_some_iff.mp next
      exact .of_ends (AsyncLLM.cancelAdd_ends cancelled) rfl
  | resumeAdd call =>
      obtain ⟨llm, resumed, rfl⟩ := Option.map_eq_some_iff.mp next
      have waited : before.llm.Waiting call := by
        simp only [AsyncLLM.resumeAdd] at resumed
        split at resumed
        · exact ⟨_, ‹_›⟩
        · cases resumed
      refine .ends (AsyncLLM.resumeAdd_ends keyed rfl resumed) rfl ?_
      rintro requestId rfl
      exact ⟨call, rfl, waited, rfl⟩
  | startGenerator call =>
      obtain ⟨llm, started, rfl⟩ := Option.map_eq_some_iff.mp next
      exact .of_ends (AsyncLLM.startGenerator_ends started) rfl
  | readItem call =>
      obtain ⟨llm, read, rfl⟩ := Option.map_eq_some_iff.mp next
      exact .of_ends (AsyncLLM.readItem_ends keyed read) rfl
  | closeGenerator call =>
      obtain ⟨llm, shut, rfl⟩ := Option.map_eq_some_iff.mp next
      exact .of_ends (AsyncLLM.closeGenerator_ends keyed shut) rfl
  | abort requestId reason =>
      obtain rfl := Option.some.inj next
      exact .of_ends (AsyncLLM.abort_ends keyed requestId reason) rfl
  | receive =>
      simp only [Service.next] at next
      split at next
      · cases next
      · rename_i message rest pending
        split at next
        · obtain rfl := Option.some.inj next
          exact .receives pending rfl
        · cases next
  | handleOutputs =>
      obtain ⟨llm, handled, rfl⟩ := Option.map_eq_some_iff.mp next
      rcases AsyncLLM.handleOutputs_cases keyed handled with
        ⟨batch, rest, outputs, delivers⟩ | ⟨dead, rest, outputs, rfl⟩
      · exact .delivers outputs delivers rfl
      · have taken : before.llm.Ends (fun _ => False) { before.llm with
            engineCore := { before.llm.engineCore with outputs := rest } } := by
          refine AsyncLLM.client_ends _ (.of_same ?_ rfl rfl rfl fun up => up)
          simp [AsyncMPClient.batches, outputs, Except.toOption]
        have died := taken.trans (AsyncLLM.die_ends (taken.keyed keyed) dead)
        exact .of_ends (died.trans
          (.of_same rfl rfl (fun _ => rfl) (fun _ => Or.inl rfl) rfl (.refl _ _))) rfl
  | readerFails error =>
      simp only [Service.next] at next
      split at next
      · obtain rfl := Option.some.inj next
        exact .of_client (AsyncMPClient.readerFails_quieter _ _)
      · cases next
  | processExit exitcode =>
      simp only [Service.next] at next
      split at next
      · obtain rfl := Option.some.inj next
        exact .of_client (AsyncMPClient.onProcessExit_quieter _ _)
      · cases next
  | disconnect =>
      simp only [Service.next] at next
      split at next
      · cases next
      · obtain rfl := Option.some.inj next
        exact .of_client (.of_same rfl rfl rfl rfl fun up => up)
  | stop =>
      obtain ⟨llm, stopped, rfl⟩ := Option.map_eq_some_iff.mp next
      simp only [AsyncLLM.beginStop] at stopped
      split at stopped
      · cases stopped
      · obtain rfl := Option.some.inj stopped
        exact .of_ends (.of_same rfl rfl (fun _ => rfl) (fun _ => Or.inl rfl) rfl
          (AsyncMPClient.beginShutdown_quieter _)) rfl
  | endShutdown =>
      simp only [Service.next] at next
      split at next
      · obtain rfl := Option.some.inj next
        exact .of_client (AsyncMPClient.endShutdown_quieter _)
      · cases next
  | shutDownStreams =>
      simp only [Service.next] at next
      split at next
      · obtain rfl := Option.some.inj next
        exact .of_ends (AsyncLLM.shutDownStreams_ends keyed) rfl
      · cases next
  | coreHandle arrivalTime =>
      simp only [Service.next] at next
      split at next
      · cases next
      · rename_i message rest pending
        split at next
        · obtain rfl := Option.some.inj next
          exact .handles pending rfl
        · cases next
  | coreStep env =>
      simp only [Service.next] at next
      split at next
      · obtain rfl := Option.some.inj next
        exact .steps valid rfl
      · cases next
  | coreRaises error =>
      simp only [Service.next] at next
      split at next
      · obtain rfl := Option.some.inj next
        exact .raises rfl
      · cases next
  | coreExits =>
      simp only [Service.next] at next
      split at next
      · obtain rfl := Option.some.inj next
        exact .exits rfl
      · cases next

/-! ## A short run

One request is taken up; the core answers it, or its client gives up before that. -/

def sampleAdded : Service Unit :=
  (create .sample).withLlm
    ((create .sample : Service Unit).llm.addRequest none "a" [1, 2, 3] .sample false)

theorem sampleAdded_run :
    Run (Next .sample none) (create .sample) [.addRequest "a" [1, 2, 3] .sample false] sampleAdded :=
  .snoc .nil ⟨trivial, rfl⟩

def sampleAnswered : Service Unit :=
  { sampleAdded.withClient { sampleAdded.llm.engineCore with
      input := sampleAdded.llm.engineCore.input.take } with
    core := sampleAdded.core.handle .sample 0 (.add 0 "a" [1, 2, 3] .sample) }

def sampleTold : Service Unit :=
  { sampleAnswered.withClient (sampleAnswered.llm.engineCore.handle (.added 0 "a" none)) with
    core := { sampleAnswered.core with output := sampleAnswered.core.output.take } }

theorem sampleTold_run :
    Run (Next .sample none) (create .sample)
      [.addRequest "a" [1, 2, 3] .sample false, .coreHandle 0, .receive] sampleTold := by
  have answered : Next .sample none sampleAdded (.coreHandle 0) sampleAnswered := ⟨trivial, rfl⟩
  have told : Next .sample none sampleAnswered .receive sampleTold := ⟨trivial, rfl⟩
  exact (sampleAdded_run.snoc answered).snoc told

def sampleAbandoned : Service Unit :=
  sampleAdded.withLlm (sampleAdded.llm.abort "a" .abort)

theorem sampleAbandoned_run :
    Run (Next .sample none) (create .sample)
      [.addRequest "a" [1, 2, 3] .sample false, .abort "a" .abort] sampleAbandoned := by
  have abandoned : Next .sample none sampleAdded (.abort "a" .abort) sampleAbandoned :=
    ⟨trivial, rfl⟩
  exact sampleAdded_run.snoc abandoned

end Service

end LeanVllm
