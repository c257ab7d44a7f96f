import LeanVllm.Engine.RequestIds

/-!
# Streams follow the core

A run is orderly if every `add_request` that is accepted finds its id unused, as it does
when ids are distinct.  Then a stream is the core's outputs for its own call, in order
and without a gap, and an admission is answered with the verdict on its own message.
-/

namespace LeanVllm

open Collections Transition

namespace EngineCore

variable {cfg : Config} {core : EngineCore}

/-- The outputs the core ever sent. -/
def emits (core : EngineCore) : List (CallId × RequestOutput) :=
  core.output.log.flatMap CoreOutput.batch

/-- The outputs the client has not received. -/
def unsent (core : EngineCore) : List (CallId × RequestOutput) :=
  core.output.pending.flatMap CoreOutput.batch

/-- The core sends some more outputs, of requests it holds. -/
structure Sends (more : List (CallId × RequestOutput)) (before after : EngineCore) : Prop where
  emits : after.emits = before.emits ++ more
  unsent : after.unsent = before.unsent ++ more
  held : ∀ produced ∈ more, before.Holds produced.2.requestId produced.1

theorem sends_message (message : CoreOutput) {before after : EngineCore}
    (output : after.output = before.output.send message)
    (held : ∀ produced ∈ message.batch, before.Holds produced.2.requestId produced.1) :
    Sends message.batch before after where
  emits := by simp [EngineCore.emits, output]
  unsent := by simp [EngineCore.unsent, output]
  held := held

theorem sends_nothing {before after : EngineCore} (output : after.output = before.output) :
    Sends [] before after where
  emits := by simp [EngineCore.emits, output]
  unsent := by simp [EngineCore.unsent, output]
  held _ absurdly := absurd absurdly List.not_mem_nil

theorem handle_sends (cfg : Config) (core : EngineCore) (arrivalTime : Nat) (message : CoreInput) :
    Sends [] core (core.handle cfg arrivalTime message) := by
  have nothing : ∀ produced ∈ ([] : List (CallId × RequestOutput)),
      core.Holds produced.2.requestId produced.1 :=
    fun _ absurdly => absurd absurdly List.not_mem_nil
  cases message with
  | add call requestId prompt params =>
      exact sends_message (.added call requestId _) rfl nothing
  | abort requestId reason =>
      simp only [handle]
      split
      · exact sends_nothing rfl
      · exact sends_message (.dead _) rfl nothing
  | shutdown => exact sends_nothing rfl

theorem step_sends {env : StepEnv} (reachable : LLMEngine.Reachable cfg core.engine)
    (valid : env.Valid cfg core.engine) : ∃ more, Sends more core (core.step cfg env) := by
  obtain ⟨engine, batch, stepEq, _, _, held⟩ := step_spec reachable valid
  rw [stepEq]
  by_cases empty : batch = []
  · exact ⟨[], sends_nothing (by simp [empty])⟩
  · exact ⟨batch, sends_message (.outputs batch) (by simp [empty]) fun _ member =>
      (held _ member).1⟩

end EngineCore

namespace AsyncLLM

variable {δ : Type} {llm before after : AsyncLLM δ} {call : CallId}

/-- The core's outputs in the call's stream. -/
def delivered (llm : AsyncLLM δ) (call : CallId) : List (CallId × RequestOutput) :=
  (llm.items call).filterMap StreamItem.produced

theorem delivered_of_items (same : after.items call = before.items call) :
    after.delivered call = before.delivered call := by
  rw [delivered, same]
  rfl

theorem delivered_of_put {item : StreamItem}
    (put : after.items call = before.items call ++ [item]) :
    after.delivered call = before.delivered call ++ item.produced.toList := by
  cases produced : item.produced <;> simp [delivered, put, produced]

/-- What the client ends a stream with is none of the core's outputs. -/
theorem Ends.delivered {forgotten : RequestId → Prop} (ends : Ends forgotten before after)
    (call : CallId) : after.delivered call = before.delivered call := by
  rcases ends.items call with ⟨same, _⟩ | ⟨_, _, item, put, _, own⟩
  · exact delivered_of_items same
  · rw [delivered_of_put put, own]
    exact List.append_nil _

end AsyncLLM

namespace Service

variable {δ : Type} {cfg : Config} {tokenizer : Option (Tokenizer δ)}
  {service before after : Service δ} {event : Event} {requestId : RequestId} {call : CallId}

/-- The core's outputs that are on their way to the handler. -/
def queued (service : Service δ) : List (CallId × RequestOutput) :=
  service.llm.engineCore.batches ++ service.core.unsent

/-- The outputs of one call. -/
def outputsOf (call : CallId) (outputs : List (CallId × RequestOutput)) :
    List (CallId × RequestOutput) :=
  outputs.filter fun produced => produced.1 = call

@[simp]
theorem outputsOf_append (call : CallId) (first second : List (CallId × RequestOutput)) :
    outputsOf call (first ++ second) = outputsOf call first ++ outputsOf call second :=
  List.filter_append _ _

/-- An event of an orderly run: an accepted `add_request` finds its id unused. -/
structure OrderlyNext (cfg : Config) (tokenizer : Option (Tokenizer δ)) (before : Service δ)
    (event : Event) (after : Service δ) : Prop where
  taken : Next cfg tokenizer before event after
  unused : ∀ requestId tokenIds params skipSpecialTokens,
    event = .addRequest requestId tokenIds params skipSpecialTokens →
      before.llm.checkAdd requestId = none → ∀ call, ¬ before.Uses requestId call

/-- Every use of an id is by one call, which has that id. -/
structure Owned (cfg : Config) (service : Service δ) : Prop where
  engine : LLMEngine.Reachable cfg service.core.engine
  streams : service.llm.Streams
  unique : ∀ requestId call other, service.Uses requestId call → service.Uses requestId other →
    call = other
  named : ∀ requestId call, service.Uses requestId call →
    call < service.llm.numCalls ∧ (service.llm.calls call).requestId = requestId

theorem Effect.engine (effect : Effect cfg tokenizer before after event)
    (engine : LLMEngine.Reachable cfg before.core.engine) :
    LLMEngine.Reachable cfg after.core.engine := by
  cases effect with
  | ends llm core forgets => exact core ▸ engine
  | admits passed isOpen sent => exact sent ▸ engine
  | fails passed llm core => exact core ▸ engine
  | receives pending taken => exact taken ▸ engine
  | delivers outputs llm core => exact core ▸ engine
  | @handles message rest arrivalTime pending taken =>
      exact taken ▸ (EngineCore.handle_spec engine arrivalTime message).1
  | steps valid stepped =>
      obtain ⟨next, batch, stepEq, reachable, _⟩ := EngineCore.step_spec engine valid
      subst stepped
      rw [stepEq]
      exact reachable
  | raises raised => exact raised ▸ engine
  | exits exited => exact exited ▸ engine

/-- The calls made stay, under their ids. -/
theorem Effect.calls (effect : Effect cfg tokenizer before after event) :
    before.llm.numCalls ≤ after.llm.numCalls ∧ ∀ call < before.llm.numCalls,
      (after.llm.calls call).requestId = (before.llm.calls call).requestId := by
  cases effect with
  | ends llm core forgets => exact ⟨llm.numCalls.ge, fun call _ => llm.named call⟩
  | admits passed isOpen sent =>
      subst sent
      refine ⟨Nat.le_succ _, fun call old => ?_⟩
      simp [withLlm, AsyncLLM.sendAdd, old.ne]
  | fails passed llm core =>
      refine ⟨llm.numCalls ▸ Nat.le_succ _, fun call old => ?_⟩
      rw [llm.named, if_neg old.ne]
  | receives pending taken => exact taken ▸ ⟨Nat.le_refl _, fun _ _ => rfl⟩
  | delivers outputs llm core =>
      exact ⟨llm.numCalls.ge, fun call _ => congrArg AddCall.requestId (congrFun llm.calls call)⟩
  | handles pending taken => exact taken ▸ ⟨Nat.le_refl _, fun _ _ => rfl⟩
  | steps valid stepped => exact stepped ▸ ⟨Nat.le_refl _, fun _ _ => rfl⟩
  | raises raised => exact raised ▸ ⟨Nat.le_refl _, fun _ _ => rfl⟩
  | exits exited => exact exited ▸ ⟨Nat.le_refl _, fun _ _ => rfl⟩

/-- The call that an accepted `add_request` makes. -/
theorem Next.made {tokenIds : List Token} {params : SamplingParams} {skipSpecialTokens : Bool}
    (taken : Next cfg tokenizer before
      (.addRequest requestId tokenIds params skipSpecialTokens) after)
    (passed : before.llm.checkAdd requestId = none) :
    after.llm.numCalls = before.llm.numCalls + 1 ∧
      (after.llm.calls before.llm.numCalls).requestId = requestId := by
  have afterEq := (Option.some.inj taken.next).symm
  subst afterEq
  by_cases isOpen : before.llm.engineCore.Open
  · rw [AsyncLLM.addRequest_of_open passed isOpen]
    exact ⟨rfl, by simp [withLlm, AsyncLLM.sendAdd]⟩
  · have fails : AsyncLLM.Fails requestId before.llm
        (before.llm.addRequest tokenizer requestId tokenIds params skipSpecialTokens) :=
      AsyncLLM.addRequest_of_not_open passed isOpen
    refine ⟨fails.numCalls, ?_⟩
    rw [withLlm, fails.named, if_pos rfl]

theorem OrderlyNext.owned (step : OrderlyNext cfg tokenizer before event after)
    (owned : Owned cfg before) : Owned cfg after := by
  have effect := step.taken.effect owned.streams.keyed
  have calls := effect.calls
  have uses : ∀ requestId call, after.Uses requestId call → before.Uses requestId call ∨
      (call = before.llm.numCalls ∧ (∀ other, ¬ before.Uses requestId other) ∧
        after.llm.numCalls = before.llm.numCalls + 1 ∧
          (after.llm.calls before.llm.numCalls).requestId = requestId) := by
    intro requestId call used
    rcases effect.uses owned.engine used with old | ⟨new, _, _, _, rfl, passed⟩
    · exact Or.inl old
    · exact Or.inr ⟨new, step.unused _ _ _ _ rfl passed,
        step.taken.made passed⟩
  refine ⟨effect.engine owned.engine, effect.streams owned.streams, ?_, ?_⟩
  · intro requestId call other first second
    rcases uses _ _ first with old | ⟨new, none, _⟩
    · rcases uses _ _ second with old' | ⟨_, none, _⟩
      · exact owned.unique _ _ _ old old'
      · exact absurd old (none call)
    · rcases uses _ _ second with old' | ⟨new', _⟩
      · exact absurd old' (none other)
      · rw [new, new']
  · intro requestId call used
    rcases uses _ _ used with old | ⟨rfl, _, made, named⟩
    · obtain ⟨below, idEq⟩ := owned.named _ _ old
      exact ⟨Nat.lt_of_lt_of_le below calls.1, (calls.2 call below).trans idEq⟩
    · exact ⟨made ▸ Nat.lt_succ_self _, named⟩

/-! ## The order of a stream -/

/-- What a stream got is the first of what the core sent for its call, and what an open
one did not get yet is on its way. -/
structure Ordered (service : Service δ) : Prop where
  made : ∀ produced ∈ service.core.emits, produced.1 < service.llm.numCalls
  order : ∀ call, ∃ past,
    outputsOf call service.core.emits = past ++ outputsOf call service.queued ∧
      service.llm.delivered call <+: past ∧
        (service.llm.Live call → service.llm.delivered call = past)

/-- Calls that were not made have no outputs. -/
theorem Ordered.unmade (ordered : Ordered service) (beyond : service.llm.numCalls ≤ call) :
    outputsOf call service.core.emits = [] := by
  refine List.filter_eq_nil_iff.mpr fun produced member => ?_
  have made := ordered.made produced member
  simp only [decide_eq_true_eq]
  rintro rfl
  exact absurd made (Nat.not_lt.mpr beyond)

/-- The core sends more, and what it sent before stays where it is. -/
theorem Ordered.sends {more : List (CallId × RequestOutput)} (ordered : Ordered before)
    (owned : Owned cfg before) (emits : after.core.emits = before.core.emits ++ more)
    (held : ∀ produced ∈ more, before.core.Holds produced.2.requestId produced.1)
    (queued : after.queued = before.queued ++ more)
    (numCalls : before.llm.numCalls ≤ after.llm.numCalls)
    (delivered : ∀ call, after.llm.delivered call = before.llm.delivered call)
    (live : ∀ call, after.llm.Live call →
      before.llm.Live call ∨ before.llm.numCalls ≤ call) : Ordered after := by
  refine ⟨fun produced member => ?_, fun call => ?_⟩
  · rw [emits] at member
    rcases List.mem_append.mp member with old | new
    · exact Nat.lt_of_lt_of_le (ordered.made produced old) numCalls
    · have used : before.Uses produced.2.requestId produced.1 :=
        .flying (.held (held produced new))
      exact Nat.lt_of_lt_of_le (owned.named _ _ used).1 numCalls
  · obtain ⟨past, sent, got, whole⟩ := ordered.order call
    refine ⟨past, ?_, (delivered call).symm ▸ got, fun isLive => ?_⟩
    · rw [emits, queued, outputsOf_append, outputsOf_append, sent, List.append_assoc]
    · rw [delivered]
      rcases live call isLive with old | beyond
      · exact whole old
      · rw [ordered.unmade beyond] at sent
        have empty := (List.append_eq_nil_iff.mp sent.symm).1
        rw [empty] at got ⊢
        exact List.prefix_nil.mp got

/-- The core sends nothing. -/
theorem Ordered.stays (ordered : Ordered before) (owned : Owned cfg before)
    (emits : after.core.emits = before.core.emits) (queued : after.queued = before.queued)
    (numCalls : before.llm.numCalls ≤ after.llm.numCalls)
    (delivered : ∀ call, after.llm.delivered call = before.llm.delivered call)
    (live : ∀ call, after.llm.Live call →
      before.llm.Live call ∨ before.llm.numCalls ≤ call) : Ordered after :=
  ordered.sends owned (emits.trans (List.append_nil _).symm)
    (fun _ absurdly => absurd absurdly List.not_mem_nil)
    (queued.trans (List.append_nil _).symm) numCalls delivered live

end Service

namespace AsyncLLM

variable {δ : Type} {before after : AsyncLLM δ} {batch : List (CallId × RequestOutput)}

/-- A batch continues the streams of the calls it is for, and no others. -/
theorem Delivers.order (delivers : Delivers batch before after)
    (own : ∀ produced ∈ batch, ∀ call, before.Registered produced.2.requestId call →
      produced.1 = call)
    (named : ∀ produced ∈ batch, ∀ requestId, before.Registered requestId produced.1 →
      produced.2.requestId = requestId) {call : CallId} {past : List (CallId × RequestOutput)}
    (got : before.delivered call <+: past) (whole : before.Live call → before.delivered call = past) :
    after.delivered call <+: past ++ Service.outputsOf call batch ∧
      (after.Live call → after.delivered call = past ++ Service.outputsOf call batch) := by
  induction delivers generalizing past with
  | nil =>
      have none : Service.outputsOf call [] = [] := rfl
      rw [none, List.append_nil]
      exact ⟨got, whole⟩
  | @cons produced rest before middle after first later ih =>
      have split : Service.outputsOf call (produced :: rest) =
          Service.outputsOf call [produced] ++ Service.outputsOf call rest :=
        Service.outputsOf_append call [produced] rest
      rw [split, ← List.append_assoc]
      have older : ∀ requestId call, middle.Registered requestId call →
          before.Registered requestId call := fun _ _ registered =>
        ((first.registered _ _).mp registered).1
      apply ih
      · intro other member call registered
        exact own other (List.mem_cons_of_mem _ member) call (older _ _ registered)
      · intro other member requestId registered
        exact named other (List.mem_cons_of_mem _ member) requestId (older _ _ registered)
      · rcases first.items call with ⟨registered, output, outputEq, put⟩ | ⟨_, same⟩
        · have mine := own produced List.mem_cons_self call registered
          have one : Service.outputsOf call [produced] = [produced] := by
            simp [Service.outputsOf, mine]
          rw [one, delivered_of_put put, whole ⟨_, registered⟩]
          simp [StreamItem.produced, outputEq]
        · rw [delivered_of_items same]
          exact got.trans (List.prefix_append _ _)
      · rintro ⟨requestId, registered⟩
        have registered' := older _ _ registered
        rcases first.items call with ⟨own', output, outputEq, put⟩ | ⟨other, same⟩
        · have mine := own produced List.mem_cons_self call own'
          have one : Service.outputsOf call [produced] = [produced] := by
            simp [Service.outputsOf, mine]
          rw [one, delivered_of_put put, whole ⟨_, own'⟩]
          simp [StreamItem.produced, outputEq]
        · have none : Service.outputsOf call [produced] = [] := by
            have theirs : produced.1 ≠ call := by
              rintro rfl
              rw [← named produced List.mem_cons_self _ registered'] at registered'
              exact other registered'
            simp [Service.outputsOf, theirs]
          rw [none, List.append_nil, delivered_of_items same]
          exact whole ⟨_, registered'⟩

end AsyncLLM

namespace Service

variable {δ : Type} {cfg : Config} {tokenizer : Option (Tokenizer δ)}
  {service before after : Service δ} {event : Event} {requestId : RequestId} {call : CallId}

/-- A message that is received keeps its outputs in line. -/
theorem receive_queued {message : CoreOutput} {rest : List CoreOutput}
    (pending : service.core.output.pending = message :: rest) :
    queued { service.withClient (service.llm.engineCore.handle message) with
      core := { service.core with output := service.core.output.take } } = service.queued := by
  rw [queued, withClient, AsyncMPClient.handle_batches, queued, EngineCore.unsent,
    EngineCore.unsent, pending, List.flatMap_cons, List.append_assoc, Channel.take_pending,
    pending]
  rfl

theorem Effect.ordered (effect : Effect cfg tokenizer before after event) (owned : Owned cfg before)
    (ordered : Ordered before) : Ordered after := by
  cases effect with
  | ends llm core forgets =>
      refine ordered.stays owned (congrArg EngineCore.emits core) ?_ llm.numCalls.ge llm.delivered
        fun call live => Or.inl ?_
      · rw [queued, llm.client.batches, core]
        rfl
      · obtain ⟨requestId, registered⟩ := live
        exact ⟨requestId, llm.registered registered⟩
  | @admits requestId tokenIds params skipSpecialTokens passed isOpen sent =>
      subst sent
      have client : (before.llm.sendAdd tokenizer requestId tokenIds params
          skipSpecialTokens).engineCore = _ := AsyncMPClient.addRequestAsync_of_open isOpen
      refine ordered.stays owned rfl ?_ (Nat.le_succ _) (fun _ => rfl) ?_
      · rw [queued, withLlm, client]
        rfl
      · rintro call ⟨other, registered⟩
        have registered' := AsyncLLM.sendAdd_registered.mp registered
        split at registered'
        · exact Or.inr registered'.ge
        · exact Or.inl ⟨other, registered'⟩
  | @fails requestId tokenIds params skipSpecialTokens passed llm core =>
      refine ordered.stays owned (congrArg EngineCore.emits core) ?_
        (llm.numCalls ▸ Nat.le_succ _) ?_ ?_
      · rw [queued, llm.client.batches, core]
        rfl
      · intro call
        rw [AsyncLLM.delivered, llm.items, List.filterMap_append]
        split
        · exact List.append_nil _
        · exact List.append_nil _
      · rintro call ⟨other, registered⟩
        exact Or.inl ⟨other, llm.registered.mp registered⟩
  | @receives message rest pending taken =>
      subst taken
      exact ordered.stays owned rfl (receive_queued pending) (Nat.le_refl _) (fun _ => rfl)
        fun _ live => Or.inl live
  | @delivers batch rest outputs llm core =>
      have batches : before.llm.engineCore.batches =
          batch ++ { before.llm.engineCore with outputs := rest }.batches := by
        rw [AsyncMPClient.batches, outputs, List.flatMap_cons]
        rfl
      have flying : ∀ produced ∈ batch, before.Flying produced.2.requestId produced.1 := by
        intro produced member
        refine .batched ?_ rfl
        rw [batches]
        exact List.mem_append_left _ member
      have own : ∀ produced ∈ batch, ∀ call,
          before.llm.Registered produced.2.requestId call → produced.1 = call :=
        fun produced member call registered =>
          owned.unique _ _ _ (.flying (flying produced member)) (.registered registered)
      have named : ∀ produced ∈ batch, ∀ requestId,
          before.llm.Registered requestId produced.1 → produced.2.requestId = requestId :=
        fun produced member requestId registered =>
          (owned.named _ _ (.flying (flying produced member))).2.symm.trans
            (owned.named _ _ (.registered registered)).2
      refine ⟨fun produced member => ?_, fun call => ?_⟩
      · rw [core] at member
        rw [llm.numCalls]
        exact ordered.made produced member
      · obtain ⟨past, sent, got, whole⟩ := ordered.order call
        obtain ⟨got', whole'⟩ := llm.order own named got whole
        refine ⟨past ++ outputsOf call batch, ?_, got', whole'⟩
        have queuedEq : before.queued = batch ++ after.queued := by
          rw [queued, queued, batches, llm.client, core, List.append_assoc]
        rw [core, sent, queuedEq, outputsOf_append, List.append_assoc]
  | @handles message rest arrivalTime pending taken =>
      subst taken
      have sends := EngineCore.handle_sends cfg before.core arrivalTime message
      refine ordered.sends owned sends.emits sends.held ?_ (Nat.le_refl _) (fun _ => rfl)
        fun _ live => Or.inl live
      rw [queued, sends.unsent, ← List.append_assoc]
      rfl
  | steps valid stepped =>
      subst stepped
      obtain ⟨more, sends⟩ := EngineCore.step_sends owned.engine valid
      refine ordered.sends owned sends.emits sends.held ?_ (Nat.le_refl _) (fun _ => rfl)
        fun _ live => Or.inl live
      rw [queued, sends.unsent, ← List.append_assoc]
      rfl
  | @raises error raised =>
      subst raised
      have sends : EngineCore.Sends [] before.core (before.core.raised error) :=
        EngineCore.sends_message (.dead error) rfl
          fun _ absurdly => absurd absurdly List.not_mem_nil
      refine ordered.sends owned sends.emits sends.held ?_ (Nat.le_refl _) (fun _ => rfl)
        fun _ live => Or.inl live
      rw [queued, sends.unsent, ← List.append_assoc]
      rfl
  | exits exited =>
      subst exited
      exact ordered.stays owned rfl rfl (Nat.le_refl _) (fun _ => rfl) fun _ live => Or.inl live

/-! ## Orderly runs -/

theorem create_owned (cfg : Config) : Owned cfg (create cfg : Service δ) := by
  have none : ∀ requestId call, ¬ (create cfg : Service δ).Uses requestId call := by
    intro requestId call used
    cases used with
    | flying flying =>
        cases flying with
        | sent among names => exact absurd among List.not_mem_nil
        | held held =>
            obtain ⟨i, found, _⟩ := held
            simp [create, LLMEngine.create, Scheduler.create] at found
        | told among names => exact absurd among List.not_mem_nil
        | batched among named => exact absurd among List.not_mem_nil
    | registered registered =>
        obtain ⟨state, found, _⟩ := registered
        simp [create] at found
    | adding found => simp [create] at found
    | waiting waiting named =>
        obtain ⟨cancelled, task⟩ := waiting
        cases task
  exact ⟨.create cfg, create_streams cfg, fun _ _ _ used => absurd used (none _ _),
    fun _ _ used => absurd used (none _ _)⟩

theorem create_ordered (cfg : Config) : Ordered (create cfg : Service δ) :=
  ⟨fun _ absurdly => absurd absurdly List.not_mem_nil,
    fun _ => ⟨[], rfl, List.prefix_rfl, fun _ => rfl⟩⟩

theorem orderly_invariant {events : List Event}
    (run : Run (OrderlyNext cfg tokenizer) (create cfg) events service) :
    Owned cfg service ∧ Ordered service := by
  refine run.invariant (fun _ service => Owned cfg service ∧ Ordered service)
    ⟨create_owned cfg, create_ordered cfg⟩ ?_
  rintro _ _ _ _ ⟨owned, ordered⟩ step
  exact ⟨step.owned owned, (step.taken.effect owned.streams.keyed).ordered owned ordered⟩

/-- The id an event asks for. -/
def Event.asks : Event → List RequestId
  | .addRequest requestId _ _ _ => [requestId]
  | _ => []

/-- A run whose `add_request`s ask for distinct ids is orderly. -/
theorem orderly_of_distinct {events : List Event}
    (run : Run (Next cfg tokenizer) (create cfg) events service)
    (distinct : (events.flatMap Event.asks).Nodup) :
    Run (OrderlyNext cfg tokenizer) (create cfg) events service := by
  suffices both : Run (OrderlyNext cfg tokenizer) (create cfg) events service ∧
      ∀ requestId call, service.Uses requestId call → requestId ∈ events.flatMap Event.asks from
    both.1
  induction run with
  | nil =>
      refine ⟨.nil, fun requestId call used => ?_⟩
      exact absurd ((create_owned cfg).named _ _ used).1 (Nat.not_lt_zero _)
  | @snoc events middle last event before taken ih =>
      rw [List.flatMap_append, List.nodup_append] at distinct
      obtain ⟨orderly, asked⟩ := ih distinct.1
      have owned := (orderly_invariant orderly).1
      refine ⟨.snoc orderly ⟨taken, ?_⟩, fun requestId call used => ?_⟩
      · rintro requestId tokenIds params skipSpecialTokens rfl _ call used
        refine distinct.2.2 requestId (asked _ _ used) requestId ?_ rfl
        simp [Event.asks]
      · rw [List.flatMap_append]
        rcases (taken.effect owned.streams.keyed).uses owned.engine used with
          old | ⟨_, _, _, _, rfl, _⟩
        · exact List.mem_append_left _ (asked _ _ old)
        · exact List.mem_append_right _ (by simp [Event.asks])

end Service

end LeanVllm
