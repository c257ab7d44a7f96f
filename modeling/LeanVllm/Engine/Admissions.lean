import LeanVllm.Engine.StreamOrder

/-!
# Admissions are answered

In an orderly run a pending future stands in the client's table under its own id, so the
verdict on its message finds it, and a death or a shutdown fails it.
-/

namespace LeanVllm

open Collections Transition

namespace AsyncLLM

variable {δ : Type} {tokenizer : Option (Tokenizer δ)} {llm after : AsyncLLM δ}
  {requestId : RequestId} {call other : CallId}

theorem abort_calls (llm : AsyncLLM δ) (requestId : RequestId) (reason : FinishReason) :
    (llm.abort requestId reason).calls = llm.calls := by
  simp only [abort]
  split <;> rfl

theorem cleanUp_calls (llm : AsyncLLM δ) (call : CallId) : (llm.cleanUp call).calls = llm.calls := by
  simp only [cleanUp]
  split
  · rfl
  · split
    · exact abort_calls _ _ _
    · rfl

theorem die_calls (llm : AsyncLLM δ) (dead : EngineDeadError) : (llm.die dead).calls = llm.calls := by
  simp only [die]
  split <;> rfl

theorem resumeAdd_calls (resumed : llm.resumeAdd call = some after) (different : other ≠ call) :
    after.calls other = llm.calls other := by
  simp only [resumeAdd] at resumed
  split at resumed
  · split at resumed
    · obtain rfl := Option.some.inj resumed
      simp [setCall, different, abort_calls]
    · split at resumed
      · obtain rfl := Option.some.inj resumed
        simp [setCall, different]
      · obtain rfl := Option.some.inj resumed
        simp [setCall, different, apply]
      · obtain rfl := Option.some.inj resumed
        simp [setCall, different, apply]
      · cases resumed
  · cases resumed

/-- A pending future does not let its task resume. -/
theorem resumeAdd_pending (task : (llm.calls call).task = .waiting false)
    (pending : llm.engineCore.futures call = some .pending) : llm.resumeAdd call = none := by
  simp [resumeAdd, task, pending]

theorem addRequest_calls {tokenIds : List Token} {params : SamplingParams}
    {skipSpecialTokens : Bool} (old : other < llm.numCalls) :
    (llm.addRequest tokenizer requestId tokenIds params skipSpecialTokens).calls other =
      llm.calls other := by
  simp only [addRequest]
  split
  · rfl
  · have sent : (llm.sendAdd tokenizer requestId tokenIds params skipSpecialTokens).calls other =
        llm.calls other := by
      simp [sendAdd, old.ne]
    cases resumed : (llm.sendAdd tokenizer requestId tokenIds params skipSpecialTokens).resumeAdd
        llm.numCalls with
    | none => exact sent
    | some after => exact (resumeAdd_calls resumed old.ne).trans sent

end AsyncLLM

namespace Service

variable {δ : Type} {cfg : Config} {tokenizer : Option (Tokenizer δ)}
  {service before after : Service δ} {event : Event} {requestId : RequestId} {call : CallId}

/-- Tasks change only where they are cancelled or resume. -/
theorem Next.task (taken : Next cfg tokenizer before event after)
    (old : call < before.llm.numCalls) :
    (after.llm.calls call).task = (before.llm.calls call).task ∨ event = .cancelAdd call ∨
      event = .resumeAdd call := by
  obtain ⟨_, next⟩ := taken
  cases event with
  | addRequest requestId tokenIds params skipSpecialTokens =>
      obtain rfl := Option.some.inj next
      exact Or.inl (congrArg AddCall.task (AsyncLLM.addRequest_calls old))
  | cancelAdd other =>
      obtain ⟨llm, cancelled, rfl⟩ := Option.map_eq_some_iff.mp next
      by_cases same : other = call
      · exact Or.inr (Or.inl (same ▸ rfl))
      · refine Or.inl ?_
        simp only [AsyncLLM.cancelAdd] at cancelled
        split at cancelled
        · split at cancelled
          · obtain rfl := Option.some.inj cancelled
            simp [withLlm, AsyncLLM.setCall, Ne.symm same]
          · obtain rfl := Option.some.inj cancelled
            simp [withLlm, AsyncLLM.setCall, Ne.symm same]
        · cases cancelled
  | resumeAdd other =>
      obtain ⟨llm, resumed, rfl⟩ := Option.map_eq_some_iff.mp next
      by_cases same : other = call
      · exact Or.inr (Or.inr (same ▸ rfl))
      · exact Or.inl (congrArg AddCall.task (AsyncLLM.resumeAdd_calls resumed (Ne.symm same)))
  | startGenerator other =>
      obtain ⟨llm, started, rfl⟩ := Option.map_eq_some_iff.mp next
      refine Or.inl ?_
      simp only [AsyncLLM.startGenerator] at started
      split at started
      · obtain rfl := Option.some.inj started
        by_cases same : call = other
        · subst same
          simp [withLlm, AsyncLLM.setCall]
        · simp [withLlm, AsyncLLM.setCall, same]
      · cases started
  | readItem other =>
      obtain ⟨llm, read, rfl⟩ := Option.map_eq_some_iff.mp next
      refine Or.inl ?_
      simp only [AsyncLLM.readItem] at read
      split at read
      · split at read
        · cases read
        · split at read
          · obtain rfl := Option.some.inj read
            by_cases same : call = other
            · subst same
              simp [withLlm, AsyncLLM.setCall, AsyncLLM.cleanUp_calls]
            · simp [withLlm, AsyncLLM.setCall, AsyncLLM.cleanUp_calls, same]
          · obtain rfl := Option.some.inj read
            by_cases same : call = other
            · subst same
              simp [withLlm, AsyncLLM.setCall]
            · simp [withLlm, AsyncLLM.setCall, same]
      · cases read
  | closeGenerator other =>
      obtain ⟨llm, shut, rfl⟩ := Option.map_eq_some_iff.mp next
      refine Or.inl ?_
      simp only [AsyncLLM.closeGenerator] at shut
      split at shut
      · split at shut
        · obtain rfl := Option.some.inj shut
          by_cases same : call = other
          · subst same
            simp [withLlm, AsyncLLM.setCall]
          · simp [withLlm, AsyncLLM.setCall, same]
        · obtain rfl := Option.some.inj shut
          by_cases same : call = other
          · subst same
            simp [withLlm, AsyncLLM.setCall, AsyncLLM.cleanUp_calls]
          · simp [withLlm, AsyncLLM.setCall, AsyncLLM.cleanUp_calls, same]
        · cases shut
      · cases shut
  | abort requestId reason =>
      obtain rfl := Option.some.inj next
      rw [withLlm, AsyncLLM.abort_calls]
      exact Or.inl rfl
  | handleOutputs =>
      obtain ⟨llm, handled, rfl⟩ := Option.map_eq_some_iff.mp next
      refine Or.inl ?_
      simp only [AsyncLLM.handleOutputs] at handled
      split at handled
      · split at handled
        · cases handled
        · split at handled
          · obtain rfl := Option.some.inj handled
            rfl
          · obtain rfl := Option.some.inj handled
            rw [withLlm]
            simp only [AsyncLLM.die_calls]
      · cases handled
  | stop =>
      obtain ⟨llm, stopped, rfl⟩ := Option.map_eq_some_iff.mp next
      simp only [AsyncLLM.beginStop] at stopped
      split at stopped
      · cases stopped
      · obtain rfl := Option.some.inj stopped
        exact Or.inl rfl
  | receive =>
      simp only [Service.next] at next
      split at next
      · cases next
      · split at next
        · obtain rfl := Option.some.inj next
          exact Or.inl rfl
        · cases next
  | coreHandle arrivalTime =>
      simp only [Service.next] at next
      split at next
      · cases next
      · split at next
        · obtain rfl := Option.some.inj next
          exact Or.inl rfl
        · cases next
  | disconnect =>
      simp only [Service.next] at next
      split at next
      · cases next
      · obtain rfl := Option.some.inj next
        exact Or.inl rfl
  | readerFails error | processExit exitcode | endShutdown | shutDownStreams | coreStep env
  | coreRaises error | coreExits =>
      simp only [Service.next] at next
      split at next
      · obtain rfl := Option.some.inj next
        exact Or.inl rfl
      · cases next

/-- Pending futures can be found, and verdicts are about their own call. -/
structure Admissions (service : Service δ) : Prop where
  told : ∀ message ∈ service.core.output.pending, message ∈ service.core.output.log
  verdicts : ∀ call error judged,
    service.llm.engineCore.futures call = some (.verdict error judged) → judged = call ∧
      call < service.llm.numCalls ∧ CoreOutput.added call (service.llm.calls call).requestId error ∈
        service.core.output.log
  pending : ∀ call, service.llm.engineCore.futures call = some .pending →
    service.llm.engineCore.adding.lookup (service.llm.calls call).requestId = some call ∧
      (service.llm.calls call).task = .waiting false ∧ service.llm.engineCore.Up

/-- The output channel stays, or one message is sent. -/
def Logs (before after : EngineCore) : Prop :=
  after.output = before.output ∨ ∃ message, after.output = before.output.send message

theorem handle_logs (cfg : Config) (core : EngineCore) (arrivalTime : Nat) (message : CoreInput) :
    Logs core (core.handle cfg arrivalTime message) := by
  cases message with
  | add call requestId prompt params => exact Or.inr ⟨_, rfl⟩
  | abort requestId reason =>
      simp only [EngineCore.handle]
      split
      · exact Or.inl rfl
      · exact Or.inr ⟨_, rfl⟩
  | shutdown => exact Or.inl rfl

theorem step_logs (cfg : Config) (core : EngineCore) (env : StepEnv) :
    Logs core (core.step cfg env) := by
  simp only [EngineCore.step]
  split
  · rename_i stepped _
    by_cases empty : stepped.2 = []
    · exact Or.inl (by simp [empty])
    · exact Or.inr ⟨_, by simp only [if_neg empty]; rfl⟩
  · exact Or.inr ⟨_, rfl⟩

/-- A core that only sends changes nothing about the admissions. -/
theorem Admissions.of_logs (admissions : Admissions before)
    (client : after.llm.engineCore.futures = before.llm.engineCore.futures ∧
      after.llm.engineCore.adding = before.llm.engineCore.adding ∧
        (before.llm.engineCore.Up → after.llm.engineCore.Up))
    (calls : after.llm.calls = before.llm.calls) (numCalls : after.llm.numCalls = before.llm.numCalls)
    (logs : Logs before.core after.core) : Admissions after := by
  obtain ⟨futures, adding, up⟩ := client
  have grown : ∀ message ∈ before.core.output.log, message ∈ after.core.output.log := by
    intro message member
    rcases logs with same | ⟨sent, same⟩
    · rw [same]
      exact member
    · rw [same]
      exact List.mem_append_left _ member
  refine ⟨fun message member => ?_, fun call error judged given => ?_, fun call pending => ?_⟩
  · rcases logs with same | ⟨sent, same⟩
    · rw [same] at member
      exact grown message (admissions.told message member)
    · rw [same] at member ⊢
      rcases List.mem_append.mp member with old | new
      · exact List.mem_append_left _ (admissions.told message old)
      · exact List.mem_append_right _ new
  · rw [futures] at given
    obtain ⟨own, made, logged⟩ := admissions.verdicts call error judged given
    rw [calls, numCalls]
    exact ⟨own, made, grown _ logged⟩
  · rw [futures] at pending
    obtain ⟨found, task, isUp⟩ := admissions.pending call pending
    rw [adding, calls]
    exact ⟨found, task, up isUp⟩

/-- A client that takes nothing up, and forgets nobody who waits. -/
theorem Admissions.of_quieter {forgotten : RequestId → Prop} (admissions : Admissions before)
    (owned : Owned cfg before)
    (client : AsyncMPClient.Quieter forgotten before.llm.engineCore after.llm.engineCore)
    (core : after.core = before.core) (numCalls : before.llm.numCalls ≤ after.llm.numCalls)
    (named : ∀ call < before.llm.numCalls,
      (after.llm.calls call).requestId = (before.llm.calls call).requestId)
    (spared : ∀ call < before.llm.numCalls,
      before.llm.engineCore.futures call = some .pending →
      after.llm.engineCore.futures call = some .pending →
        ¬ forgotten (before.llm.calls call).requestId ∧
          (after.llm.calls call).task = .waiting false) : Admissions after := by
  refine ⟨fun message member => ?_, fun call error judged given => ?_, fun call pending => ?_⟩
  · rw [core] at member ⊢
    exact admissions.told message member
  · obtain ⟨own, made, logged⟩ :=
      admissions.verdicts call error judged (client.verdicts call error judged given)
    rw [core, named call made]
    exact ⟨own, Nat.lt_of_lt_of_le made numCalls, logged⟩
  · have waited := client.waiting call pending
    obtain ⟨found, task, isUp⟩ := admissions.pending call waited
    have made := (owned.named _ _ (.adding found)).1
    obtain ⟨remembered, task'⟩ := spared call made waited pending
    rw [named call made]
    refine ⟨?_, task', client.up call _ pending found remembered isUp⟩
    rcases client.kept call _ pending found with still | gone
    · exact still
    · exact absurd gone remembered

/-- A verdict reaches the future of the call it is about. -/
theorem Admissions.handle (admissions : Admissions before) (owned : Owned cfg before)
    {message : CoreOutput} {rest : List CoreOutput}
    (pending : before.core.output.pending = message :: rest)
    (taken : after = { before.withClient (before.llm.engineCore.handle message) with
      core := { before.core with output := before.core.output.take } }) : Admissions after := by
  subst taken
  have head : message ∈ before.core.output.pending := by
    rw [pending]
    exact List.mem_cons_self
  have told : ∀ other ∈ before.core.output.take.pending, other ∈ before.core.output.log :=
    fun other member => admissions.told other (List.mem_of_mem_tail member)
  cases message with
  | outputs batch => exact ⟨told, admissions.verdicts, admissions.pending⟩
  | dead error =>
      have died : AsyncMPClient.Quieter (fun _ => False) before.llm.engineCore
          (before.llm.engineCore.die error) := AsyncMPClient.die_quieter _ error
      refine ⟨told, fun call fault judged given => ?_, fun call waits => ?_⟩
      · exact admissions.verdicts call fault judged (died.verdicts call fault judged given)
      · have waited := died.waiting call waits
        obtain ⟨found, task, isUp⟩ := admissions.pending call waited
        refine ⟨?_, task, died.up call _ waits found not_false isUp⟩
        exact (died.kept call _ waits found).resolve_right not_false
  | added judged key fault =>
      have flying : before.Uses key judged := .flying (.told head ⟨rfl, rfl⟩)
      refine ⟨told, fun call error judged' given => ?_, fun call waits => ?_⟩
      · rw [withClient, AsyncMPClient.handle, AsyncMPClient.handleAdded_futures] at given
        split at given
        · rename_i both
          obtain rfl := owned.unique _ _ _ flying (.adding both.1)
          obtain ⟨rfl, rfl⟩ := AddFuture.verdict.inj (Option.some.inj given)
          obtain ⟨made, named⟩ := owned.named _ _ flying
          refine ⟨rfl, made, ?_⟩
          simp only [withClient, named]
          exact admissions.told _ head
        · exact admissions.verdicts call error judged' given
      · rw [withClient, AsyncMPClient.handle, AsyncMPClient.handleAdded_futures] at waits
        split at waits
        · cases waits
        · rename_i spared
          obtain ⟨found, task, isUp⟩ := admissions.pending call waits
          have apart : (before.llm.calls call).requestId ≠ key := by
            rintro rfl
            exact spared ⟨found, waits⟩
          refine ⟨?_, task, ?_⟩
          · simp only [withClient, AsyncMPClient.handle, AsyncMPClient.handleAdded_adding]
            rw [if_neg apart]
            exact found
          · obtain ⟨error, shutDown⟩ :=
              AsyncMPClient.handleAdded_up before.llm.engineCore key judged fault
            exact ⟨error.trans isUp.1, shutDown.trans isUp.2⟩

/-- An `add_request` that is sent waits in the table. -/
theorem Admissions.send (admissions : Admissions before)
    {tokenIds : List Token} {params : SamplingParams} {skipSpecialTokens : Bool}
    (unused : ∀ call, ¬ before.Uses requestId call) (isOpen : before.llm.engineCore.Open)
    (noShutDown : before.llm.engineCore.shutDown = false)
    (sent : after = before.withLlm
      (before.llm.sendAdd tokenizer requestId tokenIds params skipSpecialTokens)) :
    Admissions after := by
  subst sent
  have client : (before.llm.sendAdd tokenizer requestId tokenIds params
      skipSpecialTokens).engineCore = _ := AsyncMPClient.addRequestAsync_of_open isOpen
  refine ⟨admissions.told, fun call error judged given => ?_, fun call waits => ?_⟩
  · rw [withLlm, client] at given
    by_cases new : call = before.llm.numCalls
    · subst new
      simp at given
    · simp only [Function.update_of_ne new] at given
      obtain ⟨own, made, logged⟩ := admissions.verdicts call error judged given
      refine ⟨own, Nat.lt_succ_of_lt made, ?_⟩
      simpa [withLlm, AsyncLLM.sendAdd, new] using logged
  · rw [withLlm, client] at waits
    rw [withLlm, client]
    by_cases new : call = before.llm.numCalls
    · subst new
      simp only [AsyncLLM.sendAdd]
      rw [Function.update_self, Dict.lookup_insert_eq, if_pos rfl]
      exact ⟨rfl, rfl, isOpen.1, noShutDown⟩
    · simp only [Function.update_of_ne new] at waits
      obtain ⟨found, task, isUp⟩ := admissions.pending call waits
      have apart : (before.llm.calls call).requestId ≠ requestId := by
        rintro rfl
        exact unused call (.adding found)
      simp only [AsyncLLM.sendAdd]
      rw [Function.update_of_ne new, Dict.lookup_insert_eq, if_neg apart]
      exact ⟨found, task, isUp⟩

theorem OrderlyNext.admissions (step : OrderlyNext cfg tokenizer before event after)
    (owned : Owned cfg before) (noShutDown : before.llm.engineCore.stopped = false →
      before.llm.engineCore.shutDown = false) (admissions : Admissions before) :
    Admissions after := by
  have effect := step.taken.effect owned.streams.keyed
  have calls := effect.calls
  cases effect with
  | ends llm core forgets =>
      refine admissions.of_quieter owned llm.client core calls.1 calls.2
        fun call made waited waits => ?_
      obtain ⟨found, task, _⟩ := admissions.pending call waited
      -- a pending future keeps its task from resuming
      have stuck : event ≠ .resumeAdd call := by
        rintro rfl
        have next := step.taken.next
        rw [Service.next, AsyncLLM.resumeAdd_pending task waited] at next
        cases next
      constructor
      · intro forgotten
        obtain ⟨other, rfl, waiting, named⟩ := forgets _ forgotten
        have same := owned.unique _ _ _ (.waiting waiting named) (.adding found)
        exact stuck (same ▸ rfl)
      · rcases step.taken.task made with same | rfl | resumed
        · exact same.trans task
        · have next := step.taken.next
          obtain ⟨llm', cancelled, rfl⟩ := Option.map_eq_some_iff.mp next
          simp only [AsyncLLM.cancelAdd, task] at cancelled
          split at cancelled
          · obtain rfl := Option.some.inj cancelled
            simp [withLlm, AsyncMPClient.setFuture] at waits
          · rename_i done
            exact absurd waited done
        · exact absurd resumed stuck
  | admits passed isOpen sent =>
      exact admissions.send (step.unused _ _ _ _ rfl passed) isOpen
        (noShutDown isOpen.2.1) sent
  | fails passed llm core =>
      refine admissions.of_quieter owned llm.client core calls.1 calls.2
        fun call made waited waits => ?_
      obtain ⟨found, task, _⟩ := admissions.pending call waited
      constructor
      · rintro rfl
        exact step.unused _ _ _ _ rfl passed call (.adding found)
      · rcases step.taken.task made with same | absurdly | absurdly
        · exact same.trans task
        · cases absurdly
        · cases absurdly
  | receives pending taken => exact admissions.handle owned pending taken
  | delivers outputs llm core =>
      refine admissions.of_logs ?_ llm.calls llm.numCalls (Or.inl (congrArg EngineCore.output core))
      rw [llm.client]
      exact ⟨rfl, rfl, fun up => up⟩
  | handles pending taken =>
      subst taken
      exact admissions.of_logs ⟨rfl, rfl, fun up => up⟩ rfl rfl (handle_logs _ _ _ _)
  | steps valid stepped =>
      subst stepped
      exact admissions.of_logs ⟨rfl, rfl, fun up => up⟩ rfl rfl (step_logs _ _ _)
  | raises raised =>
      subst raised
      exact admissions.of_logs ⟨rfl, rfl, fun up => up⟩ rfl rfl (Or.inr ⟨_, rfl⟩)
  | exits exited =>
      subst exited
      exact admissions.of_logs ⟨rfl, rfl, fun up => up⟩ rfl rfl (Or.inl rfl)

end Service

end LeanVllm
