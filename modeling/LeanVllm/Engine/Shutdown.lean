import LeanVllm.Engine.Admissions

/-!
# Deaths and shutdowns

A death that the client notices is queued for the handler, which fails every stream; a
stop does the same at its end.  Once either has been processed nobody waits: neither an
adder for its future nor a reader for its stream.
-/

namespace LeanVllm

open Collections Transition

namespace AsyncMPClient

variable {client before middle after : AsyncMPClient}

/-- A death that the client noticed is on its way to the handler. -/
def Tells (client : AsyncMPClient) : Prop :=
  client.error.isSome = true → ∃ dead, Except.error dead ∈ client.outputs

/-- A future fails only where the client is dead or stopped. -/
def Fails (client : AsyncMPClient) : Prop :=
  ∀ call error, client.futures call = some (.exception error) →
    client.error.isSome = true ∨ client.stopped = true

/-- Nothing is shut down, and no death is lost. -/
structure Steady (before after : AsyncMPClient) : Prop where
  stopped : after.stopped = before.stopped
  shutDown : after.shutDown = before.shutDown
  connected : after.connected = true → before.connected = true
  error : after.error = none → before.error = none
  tells : before.Tells → after.Tells
  fails : before.Fails → after.Fails

theorem Steady.trans (first : Steady before middle) (second : Steady middle after) :
    Steady before after where
  stopped := second.stopped.trans first.stopped
  shutDown := second.shutDown.trans first.shutDown
  connected connected := first.connected (second.connected connected)
  error alive := first.error (second.error alive)
  tells tells := second.tells (first.tells tells)
  fails fails := second.fails (first.fails fails)

/-- What touches neither flags nor outputs, and fails no future. -/
theorem Steady.of_futures (stopped : after.stopped = before.stopped)
    (shutDown : after.shutDown = before.shutDown)
    (connected : after.connected = true → before.connected = true)
    (error : after.error = before.error) (outputs : after.outputs = before.outputs)
    (futures : ∀ call error, after.futures call = some (.exception error) →
      before.futures call = some (.exception error) ∨ before.error.isSome = true ∨
        before.stopped = true) : Steady before after where
  stopped := stopped
  shutDown := shutDown
  connected := connected
  error alive := error ▸ alive
  tells := by
    intro tells dead
    rw [error] at dead
    rw [outputs]
    exact tells dead
  fails := by
    intro fails call failure failed
    rw [error, stopped]
    rcases futures call failure failed with old | dead
    · exact fails call failure old
    · exact dead

theorem Steady.of_same (stopped : after.stopped = before.stopped)
    (shutDown : after.shutDown = before.shutDown) (connected : after.connected = before.connected)
    (error : after.error = before.error) (outputs : after.outputs = before.outputs)
    (futures : after.futures = before.futures) : Steady before after :=
  .of_futures stopped shutDown (fun kept => connected ▸ kept) error outputs
    fun _ _ failed => Or.inl (futures ▸ failed)

theorem setFuture_steady (client : AsyncMPClient) (call : CallId) {future : AddFuture}
    (safe : ∀ error, future = .exception error → client.error.isSome = true ∨ client.stopped = true) :
    Steady client (client.setFuture call future) := by
  refine .of_futures rfl rfl id rfl rfl fun other error failed => ?_
  by_cases same : other = call
  · subst same
    simp only [setFuture, Function.update_self, Option.some.injEq] at failed
    exact Or.inr (safe error failed)
  · simp only [setFuture, Function.update_of_ne same] at failed
    exact Or.inl failed

theorem die_steady (client : AsyncMPClient) (error : String) : Steady client (client.die error) := by
  unfold die
  split
  · exact .of_same rfl rfl rfl rfl rfl rfl
  · refine ⟨rfl, rfl, id, nofun, fun _ _ => ⟨.coreDied error, ?_⟩,
      fun _ _ _ _ => Or.inl rfl⟩
    exact List.mem_append_right _ (List.mem_singleton_self _)

theorem send_steady (client : AsyncMPClient) (message : CoreInput) :
    Steady client (client.send message) := by
  unfold send
  split
  · exact .of_same rfl rfl rfl rfl rfl rfl
  · exact die_steady _ _

theorem abortRequest_steady (client : AsyncMPClient) (requestId : RequestId)
    (reason : FinishReason) : Steady client (client.abortRequest requestId reason) := by
  unfold abortRequest
  split
  · exact .of_same rfl rfl rfl rfl rfl rfl
  · exact send_steady _ _

theorem addRequestAsync_steady (client : AsyncMPClient) (call : CallId) (requestId : RequestId)
    (prompt : List Token) (params : SamplingParams) :
    Steady client (client.addRequestAsync call requestId prompt params) := by
  unfold addRequestAsync
  split
  · rename_i stopped
    exact setFuture_steady _ _ fun _ _ => Or.inr stopped
  · split
    · rename_i error dead
      exact setFuture_steady _ _ fun _ _ => Or.inl (by rw [dead]; rfl)
    · have made : Steady client { client with adding := client.adding.insert requestId call } :=
        .of_same rfl rfl rfl rfl rfl rfl
      exact (made.trans (setFuture_steady _ _ (by simp))).trans (send_steady _ _)

theorem handleAdded_steady (client : AsyncMPClient) (judged : CallId) (requestId : RequestId)
    (error : Option Fault) : Steady client (client.handleAdded judged requestId error) := by
  unfold handleAdded
  split
  · exact .of_same rfl rfl rfl rfl rfl rfl
  · have forgot : Steady client (client.forgetAdding requestId) := .of_same rfl rfl rfl rfl rfl rfl
    split
    · exact forgot.trans (setFuture_steady _ _ (by simp))
    · exact forgot

theorem handle_steady (client : AsyncMPClient) (message : CoreOutput) :
    Steady client (client.handle message) := by
  cases message with
  | outputs outputs =>
      refine ⟨rfl, rfl, id, id, fun tells dead => ?_, id⟩
      obtain ⟨error, queued⟩ := tells dead
      exact ⟨error, List.mem_append_left _ queued⟩
  | added judged requestId error => exact handleAdded_steady _ _ _ _
  | dead error =>
      have last : Steady (client.die error) { client.die error with reading := false } :=
        .of_same rfl rfl rfl rfl rfl rfl
      exact (die_steady client error).trans last

theorem readerFails_steady (client : AsyncMPClient) (error : String) :
    Steady client (client.readerFails error) := by
  have flagged : Steady client { client with reading := false } := .of_same rfl rfl rfl rfl rfl rfl
  simp only [readerFails]
  split
  · exact flagged
  · exact flagged.trans (die_steady _ _)

theorem onProcessExit_steady (client : AsyncMPClient) (exitcode : Int) :
    Steady client (client.onProcessExit exitcode) := by
  have flagged : Steady client { client with watching := false } := .of_same rfl rfl rfl rfl rfl rfl
  simp only [onProcessExit]
  split
  · exact flagged
  · exact flagged.trans (die_steady _ _)

end AsyncMPClient

namespace AsyncLLM

variable {δ : Type} {tokenizer : Option (Tokenizer δ)} {llm before middle after : AsyncLLM δ}
  {requestId : RequestId} {call : CallId}

/-- The engine neither dies nor stops. -/
structure Steady (before after : AsyncLLM δ) : Prop where
  error : after.error = before.error
  stopped : after.stopped = before.stopped
  shutDown : after.shutDown = before.shutDown
  handling : after.handling = before.handling
  client : AsyncMPClient.Steady before.engineCore after.engineCore

theorem Steady.trans (first : Steady before middle) (second : Steady middle after) :
    Steady before after where
  error := second.error.trans first.error
  stopped := second.stopped.trans first.stopped
  shutDown := second.shutDown.trans first.shutDown
  handling := second.handling.trans first.handling
  client := first.client.trans second.client

theorem Steady.refl (llm : AsyncLLM δ) : Steady llm llm :=
  ⟨rfl, rfl, rfl, rfl, .of_same rfl rfl rfl rfl rfl rfl⟩

theorem setCall_steady (llm : AsyncLLM δ) (call : CallId) (value : AddCall) :
    Steady llm (llm.setCall call value) :=
  ⟨rfl, rfl, rfl, rfl, .of_same rfl rfl rfl rfl rfl rfl⟩

theorem apply_steady (llm : AsyncLLM δ)
    (effect : OutputProcessor δ × List (CallId × StreamItem)) : Steady llm (llm.apply effect) :=
  ⟨rfl, rfl, rfl, rfl, .of_same rfl rfl rfl rfl rfl rfl⟩

theorem client_steady (llm : AsyncLLM δ) {client : AsyncMPClient}
    (steady : llm.engineCore.Steady client) : Steady llm { llm with engineCore := client } :=
  ⟨rfl, rfl, rfl, rfl, steady⟩

theorem abort_steady (llm : AsyncLLM δ) (requestId : RequestId) (reason : FinishReason) :
    Steady llm (llm.abort requestId reason) := by
  have applied := apply_steady llm (llm.outputProcessor.abortRequest requestId)
  simp only [abort]
  split
  · exact applied
  · exact applied.trans (client_steady _ (AsyncMPClient.abortRequest_steady _ _ _))

theorem cleanUp_steady (llm : AsyncLLM δ) (call : CallId) : Steady llm (llm.cleanUp call) := by
  simp only [cleanUp]
  split
  · exact .refl _
  · split
    · exact abort_steady _ _ _
    · exact .refl _

theorem resumeAdd_steady (resumed : llm.resumeAdd call = some after) : Steady llm after := by
  have forget : Steady llm
      { llm with engineCore := llm.engineCore.forgetAdding (llm.calls call).requestId } :=
    client_steady llm (.of_same rfl rfl rfl rfl rfl rfl)
  simp only [resumeAdd] at resumed
  split at resumed
  · split at resumed
    · obtain rfl := Option.some.inj resumed
      exact (forget.trans (abort_steady _ _ _)).trans (setCall_steady _ _ _)
    · split at resumed
      · obtain rfl := Option.some.inj resumed
        exact setCall_steady _ _ _
      · obtain rfl := Option.some.inj resumed
        exact (apply_steady _ _).trans (setCall_steady _ _ _)
      · obtain rfl := Option.some.inj resumed
        exact (forget.trans (apply_steady _ _)).trans (setCall_steady _ _ _)
      · cases resumed
  · cases resumed

theorem cancelAdd_steady (cancelled : llm.cancelAdd call = some after) : Steady llm after := by
  simp only [cancelAdd] at cancelled
  split at cancelled
  · split at cancelled
    · obtain rfl := Option.some.inj cancelled
      exact (setCall_steady _ _ _).trans
        (client_steady _ (AsyncMPClient.setFuture_steady _ _ (by simp)))
    · obtain rfl := Option.some.inj cancelled
      exact setCall_steady _ _ _
  · cases cancelled

theorem addRequest_steady (llm : AsyncLLM δ) (requestId : RequestId) (tokenIds : List Token)
    (params : SamplingParams) (skipSpecialTokens : Bool) :
    Steady llm (llm.addRequest tokenizer requestId tokenIds params skipSpecialTokens) := by
  have sent : Steady llm (llm.sendAdd tokenizer requestId tokenIds params skipSpecialTokens) :=
    ⟨rfl, rfl, rfl, rfl, AsyncMPClient.addRequestAsync_steady _ _ _ _ _⟩
  simp only [addRequest]
  split
  · exact .refl _
  · cases resumed : (llm.sendAdd tokenizer requestId tokenIds params skipSpecialTokens).resumeAdd
        llm.numCalls with
    | none => exact sent
    | some after => exact sent.trans (resumeAdd_steady resumed)

theorem startGenerator_steady (started : llm.startGenerator call = some after) :
    Steady llm after := by
  simp only [startGenerator] at started
  split at started
  · obtain rfl := Option.some.inj started
    exact setCall_steady _ _ _
  · cases started

theorem readItem_steady (read : llm.readItem call = some after) : Steady llm after := by
  simp only [readItem] at read
  split at read
  · split at read
    · cases read
    · split at read
      · obtain rfl := Option.some.inj read
        exact (setCall_steady _ _ _).trans (cleanUp_steady _ _)
      · obtain rfl := Option.some.inj read
        exact setCall_steady _ _ _
  · cases read

theorem closeGenerator_steady (shut : llm.closeGenerator call = some after) : Steady llm after := by
  simp only [closeGenerator] at shut
  split at shut
  · split at shut
    · obtain rfl := Option.some.inj shut
      exact setCall_steady _ _ _
    · obtain rfl := Option.some.inj shut
      exact (setCall_steady _ _ _).trans (cleanUp_steady _ _)
    · cases shut
  · cases shut

end AsyncLLM

namespace Service

variable {δ : Type} {cfg : Config} {tokenizer : Option (Tokenizer δ)}
  {service before after : Service δ} {event : Event} {requestId : RequestId} {call : CallId}

/-- What the flags of the two layers say about each other and about the streams. -/
structure Flags (service : Service δ) : Prop where
  stopped : service.llm.stopped = service.llm.engineCore.stopped
  clientDown : service.llm.engineCore.shutDown = true → service.llm.stopped = true
  streamsDown : service.llm.shutDown = true → service.llm.stopped = true
  ended : service.llm.error.isSome = true ∨ service.llm.shutDown = true →
    ∀ call, ¬ service.llm.Live call
  handling : service.llm.error = none → service.llm.stopped = false →
    service.llm.handling = true ∧ service.llm.engineCore.Tells

/-- An engine that neither dies nor stops, and registers no stream. -/
theorem Flags.of_steady (flags : Flags before) (steady : before.llm.Steady after.llm)
    (live : ∀ call, after.llm.Live call →
      before.llm.Live call ∨ before.llm.error = none ∧ before.llm.stopped = false) :
    Flags after := by
  have stoppedEq := steady.stopped
  refine ⟨?_, ?_, ?_, ?_, ?_⟩
  · rw [steady.stopped, steady.client.stopped]
    exact flags.stopped
  · rw [steady.stopped, steady.client.shutDown]
    exact flags.clientDown
  · rw [steady.stopped, steady.shutDown]
    exact flags.streamsDown
  · rw [steady.error, steady.shutDown]
    intro ended call isLive
    rcases live call isLive with old | ⟨alive, running⟩
    · exact flags.ended ended call old
    · rcases ended with dead | down
      · rw [alive] at dead
        cases dead
      · cases running.symm.trans (flags.streamsDown down)
  · rw [steady.error, steady.stopped, steady.handling]
    intro alive running
    obtain ⟨handling, tells⟩ := flags.handling alive running
    exact ⟨handling, steady.client.tells tells⟩

/-- A stream is registered only by an `add_request` that passed its checks. -/
theorem Effect.live (effect : Effect cfg tokenizer before after event) (call : CallId)
    (isLive : after.llm.Live call) :
    before.llm.Live call ∨ before.llm.error = none ∧ before.llm.stopped = false := by
  obtain ⟨requestId, registered⟩ := isLive
  cases effect with
  | ends llm core forgets => exact Or.inl ⟨requestId, llm.registered registered⟩
  | admits passed isOpen sent =>
      obtain ⟨_, running, alive⟩ := AsyncLLM.checkAdd_eq_none passed
      exact Or.inr ⟨alive, running⟩
  | fails passed llm core => exact Or.inl ⟨requestId, llm.registered.mp registered⟩
  | receives pending taken =>
      subst taken
      exact Or.inl ⟨requestId, registered⟩
  | delivers outputs llm core => exact Or.inl ⟨requestId, llm.registered registered⟩
  | handles pending taken =>
      subst taken
      exact Or.inl ⟨requestId, registered⟩
  | steps valid stepped =>
      subst stepped
      exact Or.inl ⟨requestId, registered⟩
  | raises raised =>
      subst raised
      exact Or.inl ⟨requestId, registered⟩
  | exits exited =>
      subst exited
      exact Or.inl ⟨requestId, registered⟩

/-- The handler takes the death: every stream ends with it. -/
theorem Flags.die (flags : Flags before) {dead : EngineDeadError}
    {rest : List (Except EngineDeadError (List (CallId × RequestOutput)))}
    (llm : after.llm = { AsyncLLM.die { before.llm with
      engineCore := { before.llm.engineCore with outputs := rest } } dead with
        handling := false }) : Flags after := by
  simp only [AsyncLLM.die] at llm
  split at llm
  · rename_i ended
    refine ⟨?_, ?_, ?_, ?_, ?_⟩ <;> rw [llm]
    · exact flags.stopped
    · exact flags.clientDown
    · exact flags.streamsDown
    · exact flags.ended
    · intro alive running
      rcases ended with died | stopped
      · rw [show before.llm.error = none from alive] at died
        cases died
      · cases (show before.llm.stopped = false from running).symm.trans stopped
  · refine ⟨?_, ?_, ?_, ?_, ?_⟩ <;> rw [llm]
    · exact flags.stopped
    · exact flags.clientDown
    · exact flags.streamsDown
    · rintro _ call ⟨requestId, state, found, _⟩
      simp [AsyncLLM.apply, OutputProcessor.failAll] at found
    · intro alive _
      cases alive

/-- An event leaves the flags, or the engine dies or stops with it. -/
inductive Turn (before after : Service δ) : Prop
  | steady (steady : before.llm.Steady after.llm)
  | dies {dead : EngineDeadError}
      {rest : List (Except EngineDeadError (List (CallId × RequestOutput)))}
      (llm : after.llm = { AsyncLLM.die { before.llm with
        engineCore := { before.llm.engineCore with outputs := rest } } dead with
          handling := false })
  | stops (llm : after.llm = { before.llm with
      stopped := true, engineCore := before.llm.engineCore.beginShutdown })
  | clientEnds (down : before.llm.engineCore.stopped = true)
      (llm : after.llm = { before.llm with engineCore := before.llm.engineCore.endShutdown })
  | streamsEnd (down : before.llm.engineCore.shutDown = true)
      (llm : after.llm = before.llm.shutDownStreams)

theorem Next.turn (taken : Next cfg tokenizer before event after) : Turn before after := by
  have next := taken.next
  cases event with
  | addRequest requestId tokenIds params skipSpecialTokens =>
      obtain rfl := Option.some.inj next
      exact .steady (AsyncLLM.addRequest_steady _ _ _ _ _)
  | cancelAdd other =>
      obtain ⟨llm, cancelled, rfl⟩ := Option.map_eq_some_iff.mp next
      exact .steady (AsyncLLM.cancelAdd_steady cancelled)
  | resumeAdd other =>
      obtain ⟨llm, resumed, rfl⟩ := Option.map_eq_some_iff.mp next
      exact .steady (AsyncLLM.resumeAdd_steady resumed)
  | startGenerator other =>
      obtain ⟨llm, started, rfl⟩ := Option.map_eq_some_iff.mp next
      exact .steady (AsyncLLM.startGenerator_steady started)
  | readItem other =>
      obtain ⟨llm, read, rfl⟩ := Option.map_eq_some_iff.mp next
      exact .steady (AsyncLLM.readItem_steady read)
  | closeGenerator other =>
      obtain ⟨llm, shut, rfl⟩ := Option.map_eq_some_iff.mp next
      exact .steady (AsyncLLM.closeGenerator_steady shut)
  | abort requestId reason =>
      obtain rfl := Option.some.inj next
      exact .steady (AsyncLLM.abort_steady _ _ _)
  | handleOutputs =>
      obtain ⟨llm, handled, rfl⟩ := Option.map_eq_some_iff.mp next
      simp only [AsyncLLM.handleOutputs] at handled
      split at handled
      · split at handled
        · cases handled
        · rename_i item rest outputs
          cases item with
          | ok batch =>
              obtain rfl := Option.some.inj handled
              refine .steady ⟨rfl, rfl, rfl, rfl, rfl, rfl, id, id, fun tells dead => ?_, id⟩
              obtain ⟨error, queued⟩ := tells dead
              simp only [outputs, List.mem_cons, reduceCtorEq, false_or] at queued
              exact ⟨error, queued⟩
          | error dead =>
              obtain rfl := Option.some.inj handled
              exact .dies rfl
      · cases handled
  | stop =>
      obtain ⟨llm, stopped, rfl⟩ := Option.map_eq_some_iff.mp next
      simp only [AsyncLLM.beginStop] at stopped
      split at stopped
      · cases stopped
      · obtain rfl := Option.some.inj stopped
        exact .stops rfl
  | receive =>
      simp only [Service.next] at next
      split at next
      · cases next
      · split at next
        · obtain rfl := Option.some.inj next
          exact .steady (AsyncLLM.client_steady _ (AsyncMPClient.handle_steady _ _))
        · cases next
  | coreHandle arrivalTime =>
      simp only [Service.next] at next
      split at next
      · cases next
      · split at next
        · obtain rfl := Option.some.inj next
          exact .steady (AsyncLLM.client_steady _ (.of_same rfl rfl rfl rfl rfl rfl))
        · cases next
  | disconnect =>
      simp only [Service.next] at next
      split at next
      · cases next
      · obtain rfl := Option.some.inj next
        refine .steady (AsyncLLM.client_steady _
          (.of_futures rfl rfl ?_ rfl rfl fun _ _ failed => Or.inl failed))
        intro connected
        cases connected
  | readerFails error =>
      simp only [Service.next] at next
      split at next
      · obtain rfl := Option.some.inj next
        exact .steady (AsyncLLM.client_steady _ (AsyncMPClient.readerFails_steady _ _))
      · cases next
  | processExit exitcode =>
      simp only [Service.next] at next
      split at next
      · obtain rfl := Option.some.inj next
        exact .steady (AsyncLLM.client_steady _ (AsyncMPClient.onProcessExit_steady _ _))
      · cases next
  | endShutdown =>
      simp only [Service.next] at next
      split at next
      · rename_i down
        obtain rfl := Option.some.inj next
        exact .clientEnds down.1 rfl
      · cases next
  | shutDownStreams =>
      simp only [Service.next] at next
      split at next
      · rename_i down
        obtain rfl := Option.some.inj next
        exact .streamsEnd down rfl
      · cases next
  | coreStep env | coreRaises error | coreExits =>
      simp only [Service.next] at next
      split at next
      · obtain rfl := Option.some.inj next
        exact .steady (.refl _)
      · cases next

theorem Turn.flags (turn : Turn before after) (flags : Flags before)
    (live : ∀ call, after.llm.Live call →
      before.llm.Live call ∨ before.llm.error = none ∧ before.llm.stopped = false) :
    Flags after := by
  cases turn with
  | steady steady => exact flags.of_steady steady live
  | dies llm => exact flags.die llm
  | stops llm =>
      refine ⟨?_, ?_, ?_, ?_, ?_⟩ <;> rw [llm]
      · rfl
      · exact fun _ => rfl
      · exact fun _ => rfl
      · exact flags.ended
      · intro _ running
        cases running
  | clientEnds down llm =>
      have stopped : before.llm.stopped = true := flags.stopped.trans down
      refine ⟨?_, ?_, ?_, ?_, ?_⟩ <;> rw [llm]
      · exact flags.stopped
      · exact fun _ => stopped
      · exact flags.streamsDown
      · exact flags.ended
      · intro _ running
        cases stopped.symm.trans running
  | streamsEnd down llm =>
      have stopped : before.llm.stopped = true := flags.clientDown down
      refine ⟨?_, ?_, ?_, ?_, ?_⟩ <;> rw [llm]
      · exact flags.stopped
      · exact fun _ => stopped
      · exact fun _ => stopped
      · rintro _ call ⟨requestId, state, found, _⟩
        simp [AsyncLLM.shutDownStreams, AsyncLLM.apply, OutputProcessor.failAll] at found
      · intro _ running
        cases stopped.symm.trans running

theorem Next.flags (taken : Next cfg tokenizer before event after) (streams : before.llm.Streams)
    (flags : Flags before) : Flags after :=
  taken.turn.flags flags (taken.effect streams.keyed).live

theorem create_flags (cfg : Config) : Flags (create cfg : Service δ) := by
  refine ⟨rfl, nofun, nofun, fun ended => ?_, fun _ _ => ⟨rfl, nofun⟩⟩
  rcases ended with dead | down
  · cases dead
  · cases down

theorem create_admissions (cfg : Config) : Admissions (create cfg : Service δ) :=
  ⟨fun _ absurdly => absurd absurdly List.not_mem_nil, nofun, nofun⟩

/-- What orderly runs keep. -/
structure Sound (cfg : Config) (service : Service δ) : Prop where
  owned : Owned cfg service
  flags : Flags service
  admissions : Admissions service

theorem OrderlyNext.sound (step : OrderlyNext cfg tokenizer before event after)
    (sound : Sound cfg before) : Sound cfg after := by
  obtain ⟨owned, flags, admissions⟩ := sound
  have noShutDown : before.llm.engineCore.stopped = false →
      before.llm.engineCore.shutDown = false := by
    intro running
    by_contra down
    have stopped := flags.clientDown (Bool.eq_true_of_not_eq_false down)
    cases (flags.stopped.symm.trans stopped).symm.trans running
  exact ⟨step.owned owned, step.taken.flags owned.streams flags,
    step.admissions owned noShutDown admissions⟩

theorem create_sound (cfg : Config) : Sound cfg (create cfg : Service δ) :=
  ⟨create_owned cfg, create_flags cfg, create_admissions cfg⟩

theorem orderly_sound {events : List Event}
    (run : Run (OrderlyNext cfg tokenizer) (create cfg) events service) : Sound cfg service := by
  refine run.invariant (fun _ service => Sound cfg service) (create_sound cfg) ?_
  exact fun _ _ _ _ sound step => step.sound sound

/-- In an orderly run each verdict is about the admission it answers: the core sent it for
that call and id. -/
theorem verdicts_are_own {events : List Event}
    (run : Run (OrderlyNext cfg tokenizer) (create cfg) events service) {call judged : CallId}
    {error : Option Fault}
    (given : service.llm.engineCore.futures call = some (.verdict error judged)) :
    judged = call ∧ CoreOutput.added call (service.llm.calls call).requestId error ∈
      service.core.output.log := by
  obtain ⟨own, _, logged⟩ := (orderly_sound run).admissions.verdicts call error judged given
  exact ⟨own, logged⟩

theorem verdicts_are_own_told : CoreOutput.added 0 "a" none ∈ sampleTold.core.output.log := by
  have run := orderly_of_distinct sampleTold_run (by simp [Event.asks])
  have given : sampleTold.llm.engineCore.futures 0 = some (.verdict none 0) := rfl
  exact (verdicts_are_own run given).2

/-- In an orderly run nobody is left waiting: a client that noticed a death or was shut down
has no pending future, an engine that handled either has no open stream, and a death that
only the client noticed is queued for a handler that still runs. -/
theorem nobody_left_waiting {events : List Event}
    (run : Run (OrderlyNext cfg tokenizer) (create cfg) events service) :
    (service.llm.engineCore.error.isSome = true ∨ service.llm.engineCore.shutDown = true →
      ∀ call, service.llm.engineCore.futures call ≠ some .pending) ∧
    (service.llm.error.isSome = true ∨ service.llm.shutDown = true →
      ∀ call < service.llm.numCalls, service.llm.Closed call) ∧
    (service.llm.engineCore.error.isSome = true → service.llm.error = none →
      service.llm.stopped = false → service.llm.handling = true ∧
        ∃ dead, Except.error dead ∈ service.llm.engineCore.outputs) := by
  obtain ⟨owned, flags, admissions⟩ := orderly_sound run
  refine ⟨fun down call waits => ?_, fun ended call made => ?_, fun dead alive running => ?_⟩
  · obtain ⟨_, _, alive, running⟩ := admissions.pending call waits
    rcases down with dead | down
    · rw [alive] at dead
      cases dead
    · cases running.symm.trans down
  · exact owned.streams.closed call made (flags.ended ended call)
  · obtain ⟨handling, tells⟩ := flags.handling alive running
    exact ⟨handling, tells dead⟩

def sampleLost : Service Unit :=
  sampleAdded.withClient (sampleAdded.llm.engineCore.readerFails "lost")

/-- A death that the reader noticed reaches the handler. -/
theorem nobody_left_waiting_lost :
    ∃ dead, Except.error dead ∈ sampleLost.llm.engineCore.outputs := by
  have lost : Next .sample none sampleAdded (.readerFails "lost") sampleLost := ⟨trivial, rfl⟩
  have run := orderly_of_distinct (sampleAdded_run.snoc lost) (by simp [Event.asks])
  exact ((nobody_left_waiting run).2.2 rfl rfl rfl).2

end Service

end LeanVllm
