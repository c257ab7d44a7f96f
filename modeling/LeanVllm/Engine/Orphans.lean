import LeanVllm.Engine.Shutdown

/-!
# No orphans

While the engine serves, a stream that ends before the core's last output leaves an abort
behind.  So whatever the core still runs has a stream, or is about to be aborted.
-/

namespace LeanVllm

open Collections Transition

namespace AsyncMPClient

variable {client : AsyncMPClient} {requestId : RequestId}

theorem die_input (client : AsyncMPClient) (error : String) :
    (client.die error).input = client.input := by
  unfold die
  split <;> rfl

theorem handle_pending (message : CoreOutput) :
    (client.handle message).input = client.input := by
  cases message with
  | outputs outputs => rfl
  | added judged key error => exact handleAdded_input judged error
  | dead error => exact die_input client error

/-- An abort is sent by a client that notices no death over it. -/
theorem abortRequest_pending {reason : FinishReason} (running : client.stopped = false)
    (alive : (client.abortRequest requestId reason).error = none) :
    (client.abortRequest requestId reason).input.pending =
      client.input.pending ++ [.abort requestId reason] := by
  unfold abortRequest at alive ⊢
  split at alive
  · rename_i down
    rcases down with dead | stopped
    · rw [alive] at dead
      cases dead
    · cases running.symm.trans stopped
  · rename_i up
    rw [if_neg up]
    unfold send at alive ⊢
    split at alive
    · rename_i connected
      rw [if_pos connected]
      rfl
    · have first := Option.not_isSome_iff_eq_none.mp fun dead => up (Or.inl dead)
      rw [die_of_alive first] at alive
      cases alive

end AsyncMPClient

namespace AsyncLLM

variable {δ : Type} {tokenizer : Option (Tokenizer δ)} {llm before middle after : AsyncLLM δ}
  {requestId : RequestId} {call : CallId}

/-- Neither layer noticed a death or a stop. -/
structure Serving (llm : AsyncLLM δ) : Prop where
  alive : llm.error = none
  running : llm.stopped = false
  clientAlive : llm.engineCore.error = none
  clientRunning : llm.engineCore.stopped = false

theorem Steady.serving (steady : Steady before after) (serving : after.Serving) :
    before.Serving where
  alive := steady.error.symm.trans serving.alive
  running := steady.stopped.symm.trans serving.running
  clientAlive := steady.client.error serving.clientAlive
  clientRunning := steady.client.stopped.symm.trans serving.clientRunning

/-- An engine that took a death serves no more. -/
theorem die_not_serving (llm : AsyncLLM δ) (dead : EngineDeadError) : ¬ (llm.die dead).Serving := by
  intro serving
  have alive := serving.alive
  have running := serving.running
  simp only [die] at alive running
  split at alive
  · rename_i down
    rw [if_pos down] at running
    rcases down with died | stopped
    · rw [alive] at died
      cases died
    · cases running.symm.trans stopped
  · cases alive

/-- Streams that end leave an abort behind. -/
def Minds (before after : AsyncLLM δ) : Prop :=
  ∃ more, after.engineCore.input.pending = before.engineCore.input.pending ++ more ∧
    (∀ message ∈ more, ∀ requestId call, ¬ message.Names requestId call) ∧
    ∀ requestId call, before.Registered requestId call →
      after.Registered requestId call ∨ ∃ reason, CoreInput.abort requestId reason ∈ more

theorem Minds.of_same (states : after.outputProcessor = before.outputProcessor)
    (input : after.engineCore.input = before.engineCore.input) : Minds before after := by
  refine ⟨[], by rw [input, List.append_nil], fun _ absurdly => absurd absurdly List.not_mem_nil,
    fun requestId call registered => Or.inl ?_⟩
  rw [Registered, states]
  exact registered

theorem Minds.trans (first : Minds before middle) (second : Minds middle after) :
    Minds before after := by
  obtain ⟨more, pending, others, kept⟩ := first
  obtain ⟨more', pending', others', kept'⟩ := second
  refine ⟨more ++ more', by rw [pending', pending, List.append_assoc], fun message member => ?_,
    fun requestId call registered => ?_⟩
  · exact (List.mem_append.mp member).elim (others message) (others' message)
  · rcases kept requestId call registered with still | ⟨reason, sent⟩
    · rcases kept' requestId call still with still' | ⟨reason, sent⟩
      · exact Or.inl still'
      · exact Or.inr ⟨reason, List.mem_append_right _ sent⟩
    · exact Or.inr ⟨reason, List.mem_append_left _ sent⟩

/-- Aborting one id leaves the streams of the others. -/
theorem abortRequest_registered (llm : AsyncLLM δ) {other : RequestId} (different : other ≠ requestId)
    (registered : llm.Registered other call) :
    (llm.apply (llm.outputProcessor.abortRequest requestId)).Registered other call := by
  obtain ⟨state, found, stream⟩ := registered
  refine ⟨state, ?_, stream⟩
  simp only [apply, OutputProcessor.abortRequest]
  split
  · exact found
  · simp only [Dict.lookup_erase_eq, if_neg different, found]

theorem abort_minds {reason : FinishReason} (serving : (llm.abort requestId reason).Serving) :
    Minds llm (llm.abort requestId reason) := by
  have served := (abort_steady llm requestId reason).serving serving
  have sends : ¬ (llm.error.isSome = true ∨ llm.stopped = true) := by
    rw [served.alive, served.running]
    simp
  have abortEq : llm.abort requestId reason =
      { llm.apply (llm.outputProcessor.abortRequest requestId) with
        engineCore := llm.engineCore.abortRequest requestId reason } := by
    simp only [abort]
    exact if_neg sends
  rw [abortEq] at serving ⊢
  refine ⟨_, AsyncMPClient.abortRequest_pending served.clientRunning serving.clientAlive, ?_, ?_⟩
  · intro message member
    rw [List.mem_singleton.mp member]
    exact fun _ _ names => names
  · intro other call registered
    by_cases same : other = requestId
    · exact Or.inr ⟨reason, same ▸ List.mem_singleton_self _⟩
    · exact Or.inl (abortRequest_registered llm same registered)

theorem cleanUp_minds (serving : (llm.cleanUp call).Serving) : Minds llm (llm.cleanUp call) := by
  simp only [cleanUp] at serving ⊢
  split at serving
  · exact .of_same rfl rfl
  · rename_i state found
    split at serving
    · rename_i own
      rw [if_pos own]
      exact abort_minds serving
    · rename_i other
      rw [if_neg other]
      exact .of_same rfl rfl

theorem cancelAdd_minds (cancelled : llm.cancelAdd call = some after) : Minds llm after := by
  simp only [cancelAdd] at cancelled
  split at cancelled
  · split at cancelled
    · obtain rfl := Option.some.inj cancelled
      exact .of_same rfl rfl
    · obtain rfl := Option.some.inj cancelled
      exact .of_same rfl rfl
  · cases cancelled

/-- A task whose admission failed is about to resume. -/
def Refused (llm : AsyncLLM δ) (call : CallId) : Prop :=
  ∃ fault judged, llm.engineCore.futures call = some (.verdict (some fault) judged)

/-- Only the core's refusal ends a stream with no abort. -/
theorem resumeAdd_minds (fails : llm.engineCore.Fails)
    (resumed : llm.resumeAdd call = some after) (serving : after.Serving) :
    Minds llm after ∨ (llm.Waiting call ∧ llm.Refused call ∧
      after.engineCore = llm.engineCore ∧ ∀ requestId other, llm.Registered requestId other →
        after.Registered requestId other ∨ requestId = (llm.calls call).requestId) := by
  have served := (resumeAdd_steady resumed).serving serving
  simp only [resumeAdd] at resumed
  split at resumed
  · rename_i cancelled task
    split at resumed
    · obtain rfl := Option.some.inj resumed
      let forgotten : AsyncLLM δ :=
        { llm with engineCore := llm.engineCore.forgetAdding (llm.calls call).requestId }
      have forgot : Minds llm forgotten := .of_same rfl rfl
      have aborted : Minds forgotten (forgotten.abort (llm.calls call).requestId .abort) :=
        abort_minds ⟨serving.alive, serving.running, serving.clientAlive, serving.clientRunning⟩
      exact Or.inl ((forgot.trans aborted).trans (.of_same rfl rfl))
    · split at resumed
      · obtain rfl := Option.some.inj resumed
        exact Or.inl (.of_same rfl rfl)
      · rename_i fault judged given
        obtain rfl := Option.some.inj resumed
        refine Or.inr ⟨⟨_, task⟩, ⟨fault, judged, given⟩, rfl, fun requestId other registered => ?_⟩
        by_cases same : requestId = (llm.calls call).requestId
        · exact Or.inr same
        · exact Or.inl (abortRequest_registered llm same registered)
      · rename_i error given
        rcases fails call error given with dead | stopped
        · rw [served.clientAlive] at dead
          cases dead
        · cases served.clientRunning.symm.trans stopped
      · cases resumed
  · cases resumed

theorem startGenerator_minds (started : llm.startGenerator call = some after) : Minds llm after := by
  simp only [startGenerator] at started
  split at started
  · obtain rfl := Option.some.inj started
    exact .of_same rfl rfl
  · cases started

theorem readItem_minds (read : llm.readItem call = some after) (serving : after.Serving) :
    Minds llm after := by
  simp only [readItem] at read
  split at read
  · split at read
    · cases read
    · split at read
      · obtain rfl := Option.some.inj read
        exact Minds.trans (.of_same rfl rfl) (cleanUp_minds serving)
      · obtain rfl := Option.some.inj read
        exact .of_same rfl rfl
  · cases read

theorem closeGenerator_minds (shut : llm.closeGenerator call = some after)
    (serving : after.Serving) : Minds llm after := by
  simp only [closeGenerator] at shut
  split at shut
  · split at shut
    · obtain rfl := Option.some.inj shut
      exact .of_same rfl rfl
    · obtain rfl := Option.some.inj shut
      exact Minds.trans (.of_same rfl rfl) (cleanUp_minds serving)
    · cases shut
  · cases shut

/-- A delivery ends the streams of finished outputs only. -/
theorem Delivers.ended {batch : List (CallId × RequestOutput)}
    (delivers : Delivers batch before after) (registered : before.Registered requestId call) :
    after.Registered requestId call ∨
      ∃ produced ∈ batch, produced.2.finished = true ∧ produced.2.requestId = requestId := by
  induction delivers with
  | nil => exact Or.inl registered
  | @cons produced rest before middle after first later ih =>
      by_cases ends : produced.2.finished = true ∧ produced.2.requestId = requestId
      · exact Or.inr ⟨produced, List.mem_cons_self, ends⟩
      · rcases ih ((first.registered _ _).mpr ⟨registered, ends⟩) with still | ⟨other, among, ended⟩
        · exact Or.inl still
        · exact Or.inr ⟨other, List.mem_cons_of_mem _ among, ended⟩

end AsyncLLM

namespace EngineCore

variable {cfg : Config} {core : EngineCore} {requestId : RequestId} {call : CallId}

/-- A refused admission leaves nothing behind. -/
theorem handle_refused (reachable : LLMEngine.Reachable cfg core.engine) {arrivalTime : Nat}
    {sender : CallId} {key : RequestId} {prompt : List Token} {params : SamplingParams}
    {fault : Fault}
    (refused : refusal (core.engine.addRequest cfg prompt params (some key) arrivalTime).2 =
      some fault)
    (held : (core.handle cfg arrivalTime (.add sender key prompt params)).Holds requestId call) :
    core.Holds requestId call := by
  have adds := LLMEngine.addRequest_spec cfg core.engine prompt params (some key) arrivalTime
  obtain ⟨i, found, origin⟩ := held
  have same : (core.engine.addRequest cfg prompt params (some key) arrivalTime).1.scheduler.seqs =
      core.engine.scheduler.seqs := by
    cases added : core.engine.addRequest cfg prompt params (some key) arrivalTime with
    | mk next outcome =>
        rw [added] at adds refused
        cases adds with
        | refuse fault => rfl
        | duplicate other hashes valid known => rfl
        | accept other hashes valid isQueued fresh => cases refused
  have before : core.engine.scheduler.seqs.lookup requestId = some i := same ▸ found
  refine ⟨i, before, ?_⟩
  have apart := (reachable.named before).1.ne
  simpa [handle, apart] using origin

/-- An aborted request is no longer held. -/
theorem handle_abort (reachable : LLMEngine.Reachable cfg core.engine) (arrivalTime : Nat)
    (reason : FinishReason) :
    ¬ (core.handle cfg arrivalTime (.abort requestId reason)).Holds requestId call := by
  obtain ⟨flight, inv⟩ := reachable.inv
  obtain ⟨next, aborted, ended, aborts⟩ := LLMEngine.abortRequest_spec inv requestId reason
  have handled : core.handle cfg arrivalTime (.abort requestId reason) =
      { core with engine := next } := by
    simp [handle, ended]
  rw [handled]
  rintro ⟨i, found, _⟩
  cases aborts with
  | missing absent => cases absent.symm.trans found
  | @abort j after before ends =>
      have erased : after.seqs = core.engine.scheduler.seqs.erase requestId := by
        have idEq := (reachable.named before).2
        rcases ends with ⟨_, rfl⟩ | ⟨_, ends⟩
        · simp only [Scheduler.cancel, idEq]
        · rw [ends.frame.seqs, idEq]
      rw [erased, Dict.lookup_erase_eq, if_pos rfl] at found
      cases found

end EngineCore

/-- An abort of the id, and no admission of the call behind it. -/
def Doomed (messages : List CoreInput) (requestId : RequestId) (call : CallId) : Prop :=
  ∃ front reason back, messages = front ++ .abort requestId reason :: back ∧
    ∀ message ∈ back, ¬ message.Names requestId call

theorem Doomed.append {messages more : List CoreInput} {requestId : RequestId} {call : CallId}
    (doomed : Doomed messages requestId call)
    (others : ∀ message ∈ more, ¬ message.Names requestId call) :
    Doomed (messages ++ more) requestId call := by
  obtain ⟨front, reason, back, rfl, clear⟩ := doomed
  refine ⟨front, reason, back ++ more, by rw [List.append_assoc, List.cons_append], ?_⟩
  exact fun message member => (List.mem_append.mp member).elim (clear message) (others message)

namespace Service

variable {δ : Type} {cfg : Config} {tokenizer : Option (Tokenizer δ)}
  {service before after : Service δ} {event : Event} {requestId : RequestId} {call : CallId}

/-- The core runs the call's request, or was sent it. -/
inductive Hot (service : Service δ) (requestId : RequestId) (call : CallId) : Prop
  | held (held : service.core.Holds requestId call)
  | sent {message : CoreInput} (among : message ∈ service.llm.engineCore.input.pending)
      (names : message.Names requestId call)

theorem Hot.uses (hot : service.Hot requestId call) : service.Uses requestId call := by
  cases hot with
  | held held => exact .flying (.held held)
  | sent among names => exact .flying (.sent among names)

/-- The core said its last word on the call's request. -/
inductive Over (service : Service δ) (requestId : RequestId) (call : CallId) : Prop
  | finished {output : RequestOutput} (among : (call, output) ∈ service.queued)
      (named : output.requestId = requestId) (finished : output.finished = true)
  | answered {fault : Fault}
      (among : CoreOutput.added call requestId (some fault) ∈ service.core.output.pending)
  | refused (refused : service.llm.Refused call)
      (named : (service.llm.calls call).requestId = requestId)

theorem Over.made (owned : Owned cfg service) (admissions : Admissions service)
    (ended : service.Over requestId call) : call < service.llm.numCalls := by
  cases ended with
  | @finished output among named finished =>
      rcases List.mem_append.mp among with batched | unsent
      · exact (owned.named _ _ (.flying (.batched batched named))).1
      · obtain ⟨message, told, member⟩ := List.mem_flatMap.mp unsent
        exact (owned.named _ _ (.flying (.told told (CoreOutput.names_of_mem_batch member)))).1
  | answered among => exact (owned.named _ _ (.flying (.told among ⟨rfl, rfl⟩))).1
  | refused refused named =>
      obtain ⟨fault, judged, given⟩ := refused
      exact (admissions.verdicts _ _ _ given).2.1

/-- No admission is sent twice, or sent of what the core holds. -/
structure SentOnce (service : Service δ) : Prop where
  once : service.llm.engineCore.input.pending.Pairwise fun message later =>
    ∀ requestId call, message.Names requestId call → ¬ later.Names requestId call
  apart : ∀ requestId call, service.core.Holds requestId call →
    ∀ message ∈ service.llm.engineCore.input.pending, ¬ message.Names requestId call

theorem silent_of_other {message : CoreInput}
    (other : ∀ call requestId prompt params, message ≠ .add call requestId prompt params)
    (requestId : RequestId) (call : CallId) : ¬ message.Names requestId call := by
  intro names
  cases message with
  | add sender key prompt params => exact other _ _ _ _ rfl
  | abort key reason => exact names
  | shutdown => exact names

theorem SentOnce.of_trails (sentOnce : SentOnce before) (core : after.core = before.core)
    (trails : AsyncMPClient.Trails before.llm.engineCore.input.pending
      after.llm.engineCore.input.pending) : SentOnce after := by
  obtain ⟨more, pending, others⟩ := trails
  refine ⟨?_, fun requestId call held message member names => ?_⟩
  · rw [pending, List.pairwise_append]
    refine ⟨sentOnce.once, ?_, fun message _ later member requestId call _ names => ?_⟩
    · refine List.pairwise_of_forall_mem_list fun message member later _ requestId call names => ?_
      exact absurd names (silent_of_other (others message member) _ _)
    · exact silent_of_other (others later member) _ _ names
  · rw [pending] at member
    rcases List.mem_append.mp member with old | new
    · exact sentOnce.apart _ _ (core ▸ held) message old names
    · exact silent_of_other (others message new) _ _ names

theorem SentOnce.of_same (sentOnce : SentOnce before)
    (holds : ∀ requestId call, after.core.Holds requestId call → before.core.Holds requestId call)
    (input : after.llm.engineCore.input.pending = before.llm.engineCore.input.pending) :
    SentOnce after :=
  ⟨input ▸ sentOnce.once, fun _ _ held => input ▸ sentOnce.apart _ _ (holds _ _ held)⟩

theorem Effect.sentOnce (effect : Effect cfg tokenizer before after event)
    (owned : Owned cfg before) (sentOnce : SentOnce before) : SentOnce after := by
  cases effect with
  | ends llm core forgets => exact sentOnce.of_trails core llm.client.sent
  | @admits key tokenIds params skipSpecialTokens passed isOpen sent =>
      subst sent
      have client : (before.llm.sendAdd tokenizer key tokenIds params skipSpecialTokens).engineCore =
          _ := AsyncMPClient.addRequestAsync_of_open isOpen
      -- the call is new, and names no request yet
      have fresh : ∀ requestId call, before.Hot requestId call →
          ¬ (CoreInput.add before.llm.numCalls key tokenIds params).Names requestId call := by
        rintro requestId call hot ⟨rfl, _⟩
        exact Nat.lt_irrefl _ (owned.named _ _ hot.uses).1
      refine ⟨?_, fun requestId call held message member => ?_⟩
      · rw [withLlm, client]
        simp only [Channel.send_pending]
        refine List.pairwise_append.mpr ⟨sentOnce.once, List.pairwise_singleton _ _, ?_⟩
        intro message member later new requestId call names
        rw [List.mem_singleton.mp new]
        exact fresh requestId call (.sent member names)
      · rw [withLlm, client] at member
        simp only [Channel.send_pending, List.mem_append, List.mem_singleton] at member
        rcases member with old | rfl
        · exact sentOnce.apart _ _ held message old
        · exact fresh requestId call (.held held)
  | fails passed llm core => exact sentOnce.of_trails core llm.client.sent
  | @receives message rest pending taken =>
      subst taken
      refine sentOnce.of_same (fun _ _ held => held) ?_
      rw [withClient, AsyncMPClient.handle_pending]
  | delivers outputs llm core =>
      refine sentOnce.of_same (fun _ _ held => core ▸ held) ?_
      rw [llm.client]
  | @handles message rest arrivalTime pending taken =>
      subst taken
      have once := sentOnce.once
      rw [pending, List.pairwise_cons] at once
      refine ⟨?_, fun requestId call held later member => ?_⟩
      · simp only [withClient, Channel.take_pending, pending, List.tail_cons]
        exact once.2
      · simp only [withClient, Channel.take_pending, pending, List.tail_cons] at member
        rcases (EngineCore.handle_spec owned.engine arrivalTime message).2 _ _ held with
          old | ⟨prompt, params, rfl⟩
        · refine sentOnce.apart _ _ old later ?_
          rw [pending]
          exact List.mem_cons_of_mem _ member
        · exact once.1 later member _ _ ⟨rfl, rfl⟩
  | steps valid stepped =>
      subst stepped
      obtain ⟨engine', batch, stepEq, _, holds, _⟩ := EngineCore.step_spec owned.engine valid
      refine sentOnce.of_same (fun requestId call held => ?_) rfl
      rw [stepEq] at held
      exact holds _ _ held
  | raises raised =>
      subst raised
      exact sentOnce.of_same (fun _ _ held => held) rfl
  | exits exited =>
      subst exited
      exact sentOnce.of_same (fun _ _ held => held) rfl

/-- Only a new call's request comes to the core. -/
theorem Effect.hot (effect : Effect cfg tokenizer before after event) (owned : Owned cfg before)
    (hot : after.Hot requestId call) : before.Hot requestId call ∨ call = before.llm.numCalls := by
  have trailed : ∀ {messages : List CoreInput} {message : CoreInput},
      AsyncMPClient.Trails before.llm.engineCore.input.pending messages → message ∈ messages →
        message.Names requestId call → before.Hot requestId call := by
    rintro _ message ⟨more, rfl, others⟩ member names
    rcases List.mem_append.mp member with old | new
    · exact .sent old names
    · exact absurd names (silent_of_other (others message new) _ _)
  cases effect with
  | ends llm core forgets =>
      cases hot with
      | held held => exact Or.inl (.held (core ▸ held))
      | sent among names => exact Or.inl (trailed llm.client.sent among names)
  | @admits key tokenIds params skipSpecialTokens passed isOpen sent =>
      subst sent
      have client : (before.llm.sendAdd tokenizer key tokenIds params skipSpecialTokens).engineCore =
          _ := AsyncMPClient.addRequestAsync_of_open isOpen
      cases hot with
      | held held => exact Or.inl (.held held)
      | sent among names =>
          rw [withLlm, client] at among
          simp only [Channel.send_pending, List.mem_append, List.mem_singleton] at among
          rcases among with old | rfl
          · exact Or.inl (.sent old names)
          · exact Or.inr names.1.symm
  | fails passed llm core =>
      cases hot with
      | held held => exact Or.inl (.held (core ▸ held))
      | sent among names => exact Or.inl (trailed llm.client.sent among names)
  | receives pending taken =>
      subst taken
      cases hot with
      | held held => exact Or.inl (.held held)
      | sent among names =>
          rw [withClient, AsyncMPClient.handle_pending] at among
          exact Or.inl (.sent among names)
  | delivers outputs llm core =>
      cases hot with
      | held held => exact Or.inl (.held (core ▸ held))
      | sent among names =>
          rw [llm.client] at among
          exact Or.inl (.sent among names)
  | @handles message rest arrivalTime pending taken =>
      subst taken
      have head : message ∈ before.llm.engineCore.input.pending := by
        rw [pending]
        exact List.mem_cons_self
      cases hot with
      | held held =>
          rcases (EngineCore.handle_spec owned.engine arrivalTime message).2 _ _ held with
            old | ⟨prompt, params, rfl⟩
          · exact Or.inl (.held old)
          · exact Or.inl (.sent head ⟨rfl, rfl⟩)
      | sent among names => exact Or.inl (.sent (List.mem_of_mem_tail among) names)
  | steps valid stepped =>
      subst stepped
      obtain ⟨engine', batch, stepEq, _, holds, _⟩ := EngineCore.step_spec owned.engine valid
      cases hot with
      | held held =>
          rw [stepEq] at held
          exact Or.inl (.held (holds _ _ held))
      | sent among names => exact Or.inl (.sent among names)
  | raises raised =>
      subst raised
      cases hot with
      | held held => exact Or.inl (.held held)
      | sent among names => exact Or.inl (.sent among names)
  | exits exited =>
      subst exited
      cases hot with
      | held held => exact Or.inl (.held held)
      | sent among names => exact Or.inl (.sent among names)

/-- The core says its last word only on a request that it then holds no more. -/
theorem Effect.ended (effect : Effect cfg tokenizer before after event) (owned : Owned cfg before)
    (admissions : Admissions before) (sentOnce : SentOnce before)
    (ended : after.Over requestId call) : before.Over requestId call ∨ ¬ after.Hot requestId call := by
  cases effect with
  | ends llm core forgets =>
      refine Or.inl ?_
      cases ended with
      | finished among named finished =>
          rw [queued, llm.client.batches, core] at among
          exact .finished among named finished
      | answered among => exact .answered (core ▸ among)
      | refused refused named =>
          obtain ⟨fault, judged, given⟩ := refused
          exact .refused ⟨fault, judged, llm.client.verdicts _ _ _ given⟩
            ((llm.named call).symm.trans named)
  | @admits key tokenIds params skipSpecialTokens passed isOpen sent =>
      subst sent
      refine Or.inl ?_
      have client : (before.llm.sendAdd tokenizer key tokenIds params skipSpecialTokens).engineCore =
          _ := AsyncMPClient.addRequestAsync_of_open isOpen
      cases ended with
      | finished among named finished =>
          rw [queued, withLlm, client] at among
          exact .finished among named finished
      | answered among => exact .answered among
      | refused refused named =>
          obtain ⟨fault, judged, given⟩ := refused
          rw [withLlm, client] at given
          by_cases new : call = before.llm.numCalls
          · subst new
            simp at given
          · simp only [Function.update_of_ne new] at given
            refine .refused ⟨fault, judged, given⟩ ?_
            simpa [withLlm, AsyncLLM.sendAdd, new] using named
  | fails passed llm core =>
      refine Or.inl ?_
      cases ended with
      | finished among named finished =>
          rw [queued, llm.client.batches, core] at among
          exact .finished among named finished
      | answered among => exact .answered (core ▸ among)
      | refused refused named =>
          obtain ⟨fault, judged, given⟩ := refused
          have given' := llm.client.verdicts _ _ _ given
          have old := (admissions.verdicts _ _ _ given').2.1.ne
          rw [llm.named, if_neg old] at named
          exact .refused ⟨fault, judged, given'⟩ named
  | @receives message rest pending taken =>
      subst taken
      refine Or.inl ?_
      have head : message ∈ before.core.output.pending := by
        rw [pending]
        exact List.mem_cons_self
      cases ended with
      | finished among named finished =>
          rw [receive_queued pending] at among
          exact .finished among named finished
      | answered among => exact .answered (List.mem_of_mem_tail among)
      | refused refused named =>
          obtain ⟨fault, judged, given⟩ := refused
          cases message with
          | outputs batch => exact .refused ⟨fault, judged, given⟩ named
          | dead error =>
              have died : AsyncMPClient.Quieter (fun _ => False) before.llm.engineCore
                  (before.llm.engineCore.die error) := AsyncMPClient.die_quieter _ error
              exact .refused ⟨fault, judged, died.verdicts _ _ _ given⟩ named
          | added told key verdict =>
              rw [withClient, AsyncMPClient.handle, AsyncMPClient.handleAdded_futures] at given
              split at given
              · rename_i both
                obtain rfl := owned.unique _ _ _ (.flying (.told head ⟨rfl, rfl⟩)) (.adding both.1)
                obtain ⟨rfl, _⟩ := AddFuture.verdict.inj (Option.some.inj given)
                have own := (owned.named _ _ (.adding both.1)).2
                obtain rfl : key = requestId := own.symm.trans named
                exact .answered head
              · exact .refused ⟨fault, judged, given⟩ named
  | @delivers batch rest outputs llm core =>
      refine Or.inl ?_
      cases ended with
      | finished among named finished =>
          refine .finished ?_ named finished
          rw [queued, llm.client, core] at among
          rw [queued, AsyncMPClient.batches, outputs, List.flatMap_cons, List.append_assoc]
          exact List.mem_append_right _ among
      | answered among => exact .answered (core ▸ among)
      | refused refused named =>
          obtain ⟨fault, judged, given⟩ := refused
          rw [llm.client] at given
          rw [llm.calls] at named
          exact .refused ⟨fault, judged, given⟩ named
  | @handles message rest arrivalTime pending taken =>
      subst taken
      have sends := EngineCore.handle_sends cfg before.core arrivalTime message
      cases ended with
      | finished among named finished =>
          rw [queued, sends.unsent, List.append_nil] at among
          exact Or.inl (.finished among named finished)
      | @answered fault among =>
          cases message with
          | add sender key prompt params =>
              simp only [EngineCore.handle, Channel.send_pending, List.mem_append,
                List.mem_singleton] at among
              rcases among with old | new
              · exact Or.inl (.answered old)
              · obtain ⟨rfl, rfl, refusal⟩ := CoreOutput.added.inj new
                have head : CoreInput.add call requestId prompt params ∈
                    before.llm.engineCore.input.pending := by
                  rw [pending]
                  exact List.mem_cons_self
                have once := sentOnce.once
                rw [pending, List.pairwise_cons] at once
                refine Or.inr fun hot => ?_
                cases hot with
                | held held =>
                    have old := EngineCore.handle_refused owned.engine refusal.symm held
                    exact sentOnce.apart _ _ old _ head ⟨rfl, rfl⟩
                | @sent later member names =>
                    simp only [withClient, Channel.take_pending, pending, List.tail_cons] at member
                    exact once.1 later member _ _ ⟨rfl, rfl⟩ names
          | abort key reason =>
              simp only [EngineCore.handle] at among
              split at among
              · exact Or.inl (.answered among)
              · simp only [EngineCore.raised, Channel.send_pending, List.mem_append,
                  List.mem_singleton, reduceCtorEq, or_false] at among
                exact Or.inl (.answered among)
          | shutdown => exact Or.inl (.answered among)
      | refused refused named => exact Or.inl (.refused refused named)
  | @steps env valid stepped =>
      subst stepped
      obtain ⟨engine', batch, stepEq, _, holds, produced⟩ := EngineCore.step_spec owned.engine valid
      cases ended with
      | @finished output among named finished =>
          have sends : (before.core.step cfg env).unsent = before.core.unsent ++ batch := by
            rw [stepEq]
            by_cases empty : batch = []
            · simp [EngineCore.unsent, empty]
            · simp [EngineCore.unsent, empty, CoreOutput.batch]
          rw [queued, sends, ← List.append_assoc] at among
          rcases List.mem_append.mp among with old | new
          · exact Or.inl (.finished old named finished)
          · obtain ⟨held, gone⟩ := produced _ new
            subst named
            refine Or.inr fun hot => ?_
            cases hot with
            | held still =>
                rw [stepEq] at still
                exact gone finished still
            | sent member names => exact sentOnce.apart _ _ held _ member names
      | answered among =>
          rw [stepEq] at among
          simp only at among
          split at among
          · exact Or.inl (.answered among)
          · simp only [Channel.send_pending, List.mem_append, List.mem_singleton, reduceCtorEq,
              or_false] at among
            exact Or.inl (.answered among)
      | refused refused named => exact Or.inl (.refused refused named)
  | raises raised =>
      subst raised
      refine Or.inl ?_
      cases ended with
      | finished among named finished =>
          refine .finished ?_ named finished
          simpa [queued, EngineCore.unsent, EngineCore.raised, CoreOutput.batch] using among
      | answered among =>
          simp only [EngineCore.raised, Channel.send_pending, List.mem_append,
            List.mem_singleton, reduceCtorEq, or_false] at among
          exact .answered among
      | refused refused named => exact .refused refused named
  | exits exited =>
      subst exited
      refine Or.inl ?_
      cases ended with
      | finished among named finished => exact .finished among named finished
      | answered among => exact .answered among
      | refused refused named => exact .refused refused named

/-- Whatever the core runs or was sent has a stream, or is about to be aborted. -/
def Kept (service : Service δ) : Prop :=
  ∀ requestId call, service.Hot requestId call → service.llm.Registered requestId call ∨
    Doomed service.llm.engineCore.input.pending requestId call

theorem Kept.of_minds (kept : Kept before) (minds : before.llm.Minds after.llm)
    (holds : ∀ requestId call, after.core.Holds requestId call →
      before.core.Holds requestId call) : Kept after := by
  intro requestId call hot
  obtain ⟨more, pending, others, registered⟩ := minds
  have hot' : before.Hot requestId call := by
    cases hot with
    | held held => exact .held (holds _ _ held)
    | @sent message among names =>
        rw [pending] at among
        rcases List.mem_append.mp among with old | new
        · exact .sent old names
        · exact absurd names (others message new _ _)
  rcases kept requestId call hot' with stream | doomed
  · rcases registered requestId call stream with still | ⟨reason, sent⟩
    · exact Or.inl still
    · obtain ⟨front, back, rfl⟩ := List.append_of_mem sent
      refine Or.inr ⟨before.llm.engineCore.input.pending ++ front, reason, back, ?_, ?_⟩
      · rw [pending, List.append_assoc]
      · exact fun message member => others message
          (List.mem_append_right _ (List.mem_cons_of_mem _ member)) _ _
  · refine Or.inr ?_
    rw [pending]
    exact doomed.append fun message member => others message member _ _

/-- An engine that serves did so before. -/
theorem Turn.serving (turn : Turn before after) (flags : Flags before)
    (serving : after.llm.Serving) : before.llm.Serving := by
  cases turn with
  | steady steady => exact steady.serving serving
  | dies llm =>
      rw [llm] at serving
      exact absurd ⟨serving.alive, serving.running, serving.clientAlive, serving.clientRunning⟩
        (AsyncLLM.die_not_serving _ _)
  | stops llm =>
      have running := serving.running
      rw [llm] at running
      cases running
  | clientEnds down llm =>
      have running := serving.clientRunning
      rw [llm] at running
      cases running.symm.trans down
  | streamsEnd down llm =>
      have running := serving.running
      rw [llm] at running
      cases running.symm.trans (flags.clientDown down)

/-- A request that is taken up while the engine serves was sent. -/
theorem addRequest_open {llm : AsyncLLM δ} {tokenIds : List Token} {params : SamplingParams}
    {skipSpecialTokens : Bool} (passed : llm.checkAdd requestId = none)
    (serving : (llm.addRequest tokenizer requestId tokenIds params skipSpecialTokens).Serving) :
    llm.engineCore.Open := by
  have served := (AsyncLLM.addRequest_steady llm requestId tokenIds params _).serving serving
  refine ⟨served.clientAlive, served.clientRunning, ?_⟩
  by_contra lost
  have dead : (llm.sendAdd tokenizer requestId tokenIds params
      skipSpecialTokens).engineCore.error ≠ none := by
    simp [AsyncLLM.sendAdd, AsyncMPClient.addRequestAsync, served.clientRunning,
      served.clientAlive, AsyncMPClient.send, AsyncMPClient.setFuture, lost, AsyncMPClient.die,
      AsyncMPClient.failPending]
  have alive := serving.clientAlive
  simp only [AsyncLLM.addRequest, passed] at alive
  cases resumed : (llm.sendAdd tokenizer requestId tokenIds params skipSpecialTokens).resumeAdd
      llm.numCalls with
  | none =>
      rw [resumed] at alive
      exact dead alive
  | some later =>
      rw [resumed] at alive
      exact dead ((AsyncLLM.resumeAdd_steady resumed).client.error alive)

/-- What the service keeps so that nothing is orphaned. -/
structure Attended (service : Service δ) : Prop where
  fails : service.llm.engineCore.Fails
  sentOnce : SentOnce service
  ended : ∀ requestId call, service.Over requestId call → ¬ service.Hot requestId call
  kept : service.llm.Serving → Kept service

/-- An admission that is sent has its stream. -/
theorem Kept.send (kept : Kept before) (owned : Owned cfg before) {key : RequestId}
    {tokenIds : List Token} {params : SamplingParams} {skipSpecialTokens : Bool}
    (passed : before.llm.checkAdd key = none) (isOpen : before.llm.engineCore.Open) :
    Kept (before.withLlm
      (before.llm.sendAdd tokenizer key tokenIds params skipSpecialTokens)) := by
  have client : (before.llm.sendAdd tokenizer key tokenIds params skipSpecialTokens).engineCore =
      _ := AsyncMPClient.addRequestAsync_of_open isOpen
  intro requestId call hot
  have old : before.Hot requestId call → (before.llm.sendAdd tokenizer key tokenIds params
      skipSpecialTokens).Registered requestId call ∨
        Doomed (before.llm.sendAdd tokenizer key tokenIds params
          skipSpecialTokens).engineCore.input.pending requestId call := by
    intro hot'
    rcases kept requestId call hot' with stream | doomed
    · refine Or.inl (AsyncLLM.sendAdd_registered.mpr ?_)
      rw [if_neg]
      · exact stream
      · rintro rfl
        obtain ⟨state, found, _⟩ := stream
        cases (AsyncLLM.checkAdd_eq_none passed).1.symm.trans found
    · refine Or.inr ?_
      rw [client]
      refine doomed.append fun message member names => ?_
      rw [List.mem_singleton.mp member] at names
      exact (owned.named _ _ hot'.uses).1.ne names.1.symm
  cases hot with
  | held held => exact old (.held held)
  | @sent message among names =>
      rw [withLlm, client] at among
      simp only [Channel.send_pending, List.mem_append, List.mem_singleton] at among
      rcases among with earlier | rfl
      · exact old (.sent earlier names)
      · refine Or.inl (AsyncLLM.sendAdd_registered.mpr ?_)
        rw [if_pos names.2.symm]
        exact names.1.symm

/-- A refused task takes down only its own stream. -/
theorem Kept.resume (kept : Kept before) (owned : Owned cfg before)
    (fails : before.llm.engineCore.Fails)
    (cold : ∀ requestId call, before.Over requestId call → ¬ before.Hot requestId call)
    {other : CallId} {llm : AsyncLLM δ} (resumed : before.llm.resumeAdd other = some llm)
    (serving : llm.Serving) : Kept (before.withLlm llm) := by
  rcases AsyncLLM.resumeAdd_minds fails resumed serving with
    minds | ⟨waiting, refused, client, registered⟩
  · exact kept.of_minds minds fun _ _ held => held
  · intro requestId call hot
    have hot' : before.Hot requestId call := by
      cases hot with
      | held held => exact .held held
      | sent among names =>
          rw [withLlm, client] at among
          exact .sent among names
    rcases kept requestId call hot' with stream | doomed
    · rcases registered requestId call stream with still | rfl
      · exact Or.inl still
      · obtain rfl := owned.unique _ _ _ (.registered stream) (.waiting waiting rfl)
        exact absurd hot' (cold _ _ (.refused refused rfl))
    · refine Or.inr ?_
      rw [withLlm, client]
      exact doomed

/-- A delivery takes down only streams whose requests are over. -/
theorem Kept.deliver (kept : Kept before) (owned : Owned cfg before)
    (cold : ∀ requestId call, before.Over requestId call → ¬ before.Hot requestId call)
    {batch : List (CallId × RequestOutput)}
    {rest : List (Except EngineDeadError (List (CallId × RequestOutput)))} {llm : AsyncLLM δ}
    (outputs : before.llm.engineCore.outputs = .ok batch :: rest)
    (delivers : AsyncLLM.Delivers batch { before.llm with
      engineCore := { before.llm.engineCore with outputs := rest } } llm) :
    Kept (before.withLlm llm) := by
  intro requestId call hot
  have hot' : before.Hot requestId call := by
    cases hot with
    | held held => exact .held held
    | sent among names =>
        rw [withLlm, delivers.client] at among
        exact .sent among names
  rcases kept requestId call hot' with stream | doomed
  · rcases delivers.ended stream with still | ⟨produced, among, finished, named⟩
    · exact Or.inl still
    · have batched : produced ∈ before.llm.engineCore.batches := by
        rw [AsyncMPClient.batches, outputs, List.flatMap_cons]
        exact List.mem_append_left _ among
      have own : produced.1 = call := owned.unique _ _ _
        (.flying (.batched batched named)) (.registered stream)
      subst own
      exact absurd hot' (cold _ _ (.finished (List.mem_append_left _ batched) named finished))
  · refine Or.inr ?_
    rw [withLlm, delivers.client]
    exact doomed

/-- The core takes the next message. -/
theorem Kept.take (kept : Kept before) (owned : Owned cfg before) {message : CoreInput}
    {rest : List CoreInput} {arrivalTime : Nat}
    (pending : before.llm.engineCore.input.pending = message :: rest) :
    Kept { before.withClient { before.llm.engineCore with
        input := before.llm.engineCore.input.take } with
      core := before.core.handle cfg arrivalTime message } := by
  intro requestId call hot
  have head : message ∈ before.llm.engineCore.input.pending := by
    rw [pending]
    exact List.mem_cons_self
  have hot' : before.Hot requestId call := by
    cases hot with
    | held held =>
        rcases (EngineCore.handle_spec owned.engine arrivalTime message).2 _ _ held with
          old | ⟨prompt, params, rfl⟩
        · exact .held old
        · exact .sent head ⟨rfl, rfl⟩
    | sent among names => exact .sent (List.mem_of_mem_tail among) names
  rcases kept requestId call hot' with stream | ⟨front, reason, back, split, clear⟩
  · exact Or.inl stream
  · rw [pending] at split
    cases front with
    | nil =>
        -- the abort itself is handled, and nothing of the call is left behind it
        obtain ⟨rfl, rfl⟩ := List.cons.inj split
        cases hot with
        | held held =>
            exact absurd held (EngineCore.handle_abort owned.engine arrivalTime reason)
        | @sent later among names =>
            simp only [withClient, Channel.take_pending, pending, List.tail_cons] at among
            exact absurd names (clear later among)
    | cons first front =>
        obtain ⟨rfl, rfl⟩ := List.cons.inj split
        refine Or.inr ⟨front, reason, back, ?_, clear⟩
        simp only [withClient, Channel.take_pending, pending, List.tail_cons]
        rfl

theorem OrderlyNext.kept (step : OrderlyNext cfg tokenizer before event after)
    (owned : Owned cfg before) (flags : Flags before) (attended : Attended before)
    (serving : after.llm.Serving) : Kept after := by
  have served := step.taken.turn.serving flags serving
  have kept := attended.kept served
  have next := step.taken.next
  cases event with
  | addRequest requestId tokenIds params skipSpecialTokens =>
      obtain rfl := Option.some.inj next
      cases checked : before.llm.checkAdd requestId with
      | some refusal =>
          have same : before.llm.addRequest tokenizer requestId tokenIds params skipSpecialTokens =
              before.llm := by
            simp [AsyncLLM.addRequest, checked]
          rw [same]
          exact kept
      | none =>
          have isOpen := addRequest_open checked serving
          rw [AsyncLLM.addRequest_of_open checked isOpen]
          exact kept.send owned checked isOpen
  | cancelAdd other =>
      obtain ⟨llm, cancelled, rfl⟩ := Option.map_eq_some_iff.mp next
      exact kept.of_minds (AsyncLLM.cancelAdd_minds cancelled) fun _ _ held => held
  | resumeAdd other =>
      obtain ⟨llm, resumed, rfl⟩ := Option.map_eq_some_iff.mp next
      exact kept.resume owned attended.fails attended.ended resumed serving
  | startGenerator other =>
      obtain ⟨llm, started, rfl⟩ := Option.map_eq_some_iff.mp next
      exact kept.of_minds (AsyncLLM.startGenerator_minds started) fun _ _ held => held
  | readItem other =>
      obtain ⟨llm, read, rfl⟩ := Option.map_eq_some_iff.mp next
      exact kept.of_minds (AsyncLLM.readItem_minds read serving) fun _ _ held => held
  | closeGenerator other =>
      obtain ⟨llm, shut, rfl⟩ := Option.map_eq_some_iff.mp next
      exact kept.of_minds (AsyncLLM.closeGenerator_minds shut serving) fun _ _ held => held
  | abort requestId reason =>
      obtain rfl := Option.some.inj next
      exact kept.of_minds (AsyncLLM.abort_minds serving) fun _ _ held => held
  | handleOutputs =>
      obtain ⟨llm, handled, rfl⟩ := Option.map_eq_some_iff.mp next
      rcases AsyncLLM.handleOutputs_cases owned.streams.keyed handled with
        ⟨batch, rest, outputs, delivers⟩ | ⟨dead, rest, outputs, rfl⟩
      · exact kept.deliver owned attended.ended outputs delivers
      · exact absurd ⟨serving.alive, serving.running, serving.clientAlive, serving.clientRunning⟩
          (AsyncLLM.die_not_serving _ _)
  | stop =>
      obtain ⟨llm, stopped, rfl⟩ := Option.map_eq_some_iff.mp next
      simp only [AsyncLLM.beginStop] at stopped
      split at stopped
      · cases stopped
      · obtain rfl := Option.some.inj stopped
        cases serving.running
  | receive =>
      simp only [Service.next] at next
      split at next
      · cases next
      · split at next
        · obtain rfl := Option.some.inj next
          exact kept.of_minds (.of_same rfl (AsyncMPClient.handle_pending _)) fun _ _ held => held
        · cases next
  | coreHandle arrivalTime =>
      simp only [Service.next] at next
      split at next
      · cases next
      · rename_i message rest pending
        split at next
        · obtain rfl := Option.some.inj next
          exact kept.take owned pending
        · cases next
  | disconnect =>
      simp only [Service.next] at next
      split at next
      · cases next
      · obtain rfl := Option.some.inj next
        exact kept.of_minds (.of_same rfl rfl) fun _ _ held => held
  | readerFails error =>
      simp only [Service.next] at next
      split at next
      · obtain rfl := Option.some.inj next
        refine kept.of_minds (.of_same rfl ?_) fun _ _ held => held
        simp only [withClient, AsyncMPClient.readerFails]
        split
        · rfl
        · exact AsyncMPClient.die_input _ _
      · cases next
  | processExit exitcode =>
      simp only [Service.next] at next
      split at next
      · obtain rfl := Option.some.inj next
        refine kept.of_minds (.of_same rfl ?_) fun _ _ held => held
        simp only [withClient, AsyncMPClient.onProcessExit]
        split
        · rfl
        · exact AsyncMPClient.die_input _ _
      · cases next
  | endShutdown =>
      simp only [Service.next] at next
      split at next
      · obtain rfl := Option.some.inj next
        exact kept.of_minds (.of_same rfl rfl) fun _ _ held => held
      · cases next
  | shutDownStreams =>
      simp only [Service.next] at next
      split at next
      · rename_i down
        cases served.running.symm.trans (flags.clientDown down)
      · cases next
  | coreStep env =>
      simp only [Service.next] at next
      split at next
      · obtain rfl := Option.some.inj next
        obtain ⟨engine', batch, stepEq, _, holds, _⟩ :=
          EngineCore.step_spec owned.engine step.taken.valid
        refine kept.of_minds (.of_same rfl rfl) fun requestId call held => ?_
        rw [stepEq] at held
        exact holds _ _ held
      · cases next
  | coreRaises error | coreExits =>
      simp only [Service.next] at next
      split at next
      · obtain rfl := Option.some.inj next
        exact kept.of_minds (.of_same rfl rfl) fun _ _ held => held
      · cases next

theorem Turn.fails (turn : Turn before after) (fails : before.llm.engineCore.Fails) :
    after.llm.engineCore.Fails := by
  cases turn with
  | steady steady => exact steady.client.fails fails
  | dies llm =>
      rw [llm]
      simp only [AsyncLLM.die]
      split
      · exact fails
      · exact fails
  | stops llm =>
      rw [llm]
      exact fun _ _ _ => Or.inr rfl
  | clientEnds down llm =>
      rw [llm]
      exact fun _ _ _ => Or.inr down
  | streamsEnd down llm =>
      rw [llm]
      exact fails

theorem OrderlyNext.attended (step : OrderlyNext cfg tokenizer before event after)
    (sound : Sound cfg before) (attended : Attended before) : Attended after := by
  obtain ⟨owned, flags, admissions⟩ := sound
  have effect := step.taken.effect owned.streams.keyed
  refine ⟨step.taken.turn.fails attended.fails, effect.sentOnce owned attended.sentOnce, ?_,
    step.kept owned flags attended⟩
  intro requestId call ended hot
  rcases effect.ended owned admissions attended.sentOnce ended with ended' | cold
  · rcases effect.hot owned hot with hot' | new
    · exact attended.ended _ _ ended' hot'
    · exact (ended'.made owned admissions).ne new
  · exact cold hot

end Service

end LeanVllm
