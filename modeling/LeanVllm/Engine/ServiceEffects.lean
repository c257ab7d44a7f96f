import LeanVllm.Engine.AsyncLLM

/-!
# What the event loop does

Most events of the loop end some streams and do nothing else to the others: an
abort, a cancel, a death, a shutdown.  Such an event puts one terminal item in each
stream it ends and lets no message, no admission and no request state appear.
-/

namespace LeanVllm

open Collections Transition

namespace AsyncMPClient

variable {client before middle after : AsyncMPClient} {forgotten : RequestId → Prop}

/-- The outputs waiting for the handler. -/
def batches (client : AsyncMPClient) : List (CallId × RequestOutput) :=
  client.outputs.flatMap fun item => (item.toOption).getD []

/-- Futures can still be resolved: the client has seen no death and was not shut down. -/
def Up (client : AsyncMPClient) : Prop :=
  client.error = none ∧ client.shutDown = false

/-- Some messages follow, none of them an admission. -/
def Trails (before after : List CoreInput) : Prop :=
  ∃ more, after = before ++ more ∧
    ∀ message ∈ more, ∀ call requestId prompt params,
      message ≠ CoreInput.add call requestId prompt params

theorem Trails.refl (messages : List CoreInput) : Trails messages messages :=
  ⟨[], (List.append_nil _).symm, fun _ absurdly => absurd absurdly List.not_mem_nil⟩

theorem Trails.trans {first second third : List CoreInput} (head : Trails first second)
    (tail : Trails second third) : Trails first third := by
  obtain ⟨more, rfl, others⟩ := head
  obtain ⟨more', rfl, others'⟩ := tail
  refine ⟨more ++ more', List.append_assoc _ _ _, fun message member => ?_⟩
  rcases List.mem_append.mp member with old | new
  · exact others message old
  · exact others' message new

theorem Trails.of_other (messages : List CoreInput) {message : CoreInput}
    (other : ∀ call requestId prompt params, message ≠ .add call requestId prompt params) :
    Trails messages (messages ++ [message]) :=
  ⟨[message], rfl, fun _ member => List.mem_singleton.mp member ▸ other⟩

/-- The client takes nothing up; it may give up admissions, and forget those of some
ids. -/
structure Quieter (forgotten : RequestId → Prop) (before after : AsyncMPClient) : Prop where
  batches : after.batches = before.batches
  adding : ∀ requestId call, after.adding.lookup requestId = some call →
    before.adding.lookup requestId = some call
  sent : Trails before.input.pending after.input.pending
  verdicts : ∀ call error judged, after.futures call = some (.verdict error judged) →
    before.futures call = some (.verdict error judged)
  waiting : ∀ call, after.futures call = some .pending → before.futures call = some .pending
  kept : ∀ call requestId, after.futures call = some .pending →
    before.adding.lookup requestId = some call →
      after.adding.lookup requestId = some call ∨ forgotten requestId
  up : ∀ call requestId, after.futures call = some .pending →
    before.adding.lookup requestId = some call → ¬ forgotten requestId → before.Up → after.Up

theorem Quieter.adds (quieter : Quieter forgotten before after) {call : CallId}
    {requestId : RequestId} {prompt : List Token} {params : SamplingParams}
    (member : CoreInput.add call requestId prompt params ∈ after.input.pending) :
    CoreInput.add call requestId prompt params ∈ before.input.pending := by
  obtain ⟨more, pending, others⟩ := quieter.sent
  rw [pending] at member
  exact (List.mem_append.mp member).resolve_right fun new => others _ new _ _ _ _ rfl

theorem Quieter.refl (forgotten : RequestId → Prop) (client : AsyncMPClient) :
    Quieter forgotten client client where
  batches := rfl
  adding _ _ found := found
  sent := .refl _
  verdicts _ _ _ given := given
  waiting _ pending := pending
  kept _ _ _ found := Or.inl found
  up _ _ _ _ _ up := up

theorem Quieter.trans (first : Quieter forgotten before middle)
    (second : Quieter forgotten middle after) : Quieter forgotten before after where
  batches := second.batches.trans first.batches
  adding _ _ found := first.adding _ _ (second.adding _ _ found)
  sent := first.sent.trans second.sent
  verdicts _ _ _ given := first.verdicts _ _ _ (second.verdicts _ _ _ given)
  waiting _ pending := first.waiting _ (second.waiting _ pending)
  kept call requestId pending found := by
    rcases first.kept call requestId (second.waiting _ pending) found with still | gone
    · exact second.kept call requestId pending still
    · exact Or.inr gone
  up call requestId pending found remembered up := by
    have waiting := second.waiting _ pending
    rcases first.kept call requestId waiting found with still | gone
    · exact second.up call requestId pending still remembered
        (first.up call requestId waiting found remembered up)
    · exact absurd gone remembered

/-- Flags, and errors queued behind the outputs, take nothing up. -/
theorem Quieter.of_same (batches : after.batches = before.batches)
    (adding : after.adding = before.adding) (input : after.input = before.input)
    (futures : after.futures = before.futures) (up : before.Up → after.Up) :
    Quieter forgotten before after where
  batches := batches
  adding _ _ found := adding ▸ found
  sent := input ▸ .refl _
  verdicts _ _ _ given := futures ▸ given
  waiting _ pending := futures ▸ pending
  kept _ _ _ found := Or.inl (adding ▸ found)
  up _ _ _ _ _ isUp := up isUp

/-- A client whose pending admissions all fail, whatever else becomes of it. -/
theorem Quieter.of_failPending (error : EngineDeadError) (batches : after.batches = before.batches)
    (adding : after.adding = ∅) (input : after.input = before.input)
    (futures : after.futures = (before.failPending error).futures) :
    Quieter forgotten before after := by
  have spared : ∀ call, after.futures call = some .pending →
      before.futures call = some .pending ∧ call ∉ before.adding.values := by
    intro call pending
    rw [futures] at pending
    simp only [failPending] at pending
    split at pending
    · cases pending
    · rename_i spared
      exact ⟨pending, fun among => spared ⟨among, pending⟩⟩
  have listed : ∀ call requestId, before.adding.lookup requestId = some call →
      call ∈ before.adding.values := fun call requestId found =>
    Dict.mem_values_iff.mpr ⟨requestId, found⟩
  refine ⟨batches, fun _ _ found => absurd found (by simp [adding]),
    input ▸ .refl _, fun call _ _ given => ?_,
    fun call pending => (spared call pending).1, fun call requestId pending found => ?_,
    fun call requestId pending found => ?_⟩
  · rw [futures] at given
    simp only [failPending] at given
    split at given
    · cases given
    · exact given
  · exact absurd (listed _ _ found) (spared call pending).2
  · exact absurd (listed _ _ found) (spared call pending).2

/-- A death fails what is pending and queues its error. -/
theorem die_quieter (client : AsyncMPClient) (error : String) :
    Quieter forgotten client (client.die error) := by
  unfold die
  split
  · exact .refl _ _
  · refine .of_failPending (.coreDied error) ?_ rfl rfl rfl
    simp [batches, failPending, Except.toOption]

theorem send_quieter (client : AsyncMPClient) {message : CoreInput}
    (other : ∀ call requestId prompt params, message ≠ .add call requestId prompt params) :
    Quieter forgotten client (client.send message) := by
  unfold send
  split
  · exact ⟨rfl, fun _ _ found => found, .of_other _ other, fun _ _ _ given => given,
      fun _ pending => pending, fun _ _ _ found => Or.inl found, fun _ _ _ _ _ up => up⟩
  · exact die_quieter client _

theorem abortRequest_quieter (client : AsyncMPClient) (requestId : RequestId)
    (reason : FinishReason) : Quieter forgotten client (client.abortRequest requestId reason) := by
  unfold abortRequest
  split
  · exact .refl _ _
  · exact send_quieter client (by simp)

/-- An admission that is given up is forgotten. -/
theorem forgetAdding_quieter (client : AsyncMPClient) {requestId : RequestId}
    (forgets : forgotten requestId) : Quieter forgotten client (client.forgetAdding requestId) where
  batches := rfl
  adding other call found := by
    simp only [forgetAdding, Dict.lookup_erase_eq] at found
    split at found
    · contradiction
    · exact found
  sent := .refl _
  verdicts _ _ _ given := given
  waiting _ pending := pending
  kept call other pending found := by
    simp only [forgetAdding, Dict.lookup_erase_eq]
    split
    · rename_i same
      exact Or.inr (same ▸ forgets)
    · exact Or.inl found
  up _ _ _ _ _ up := up

/-- A cancelled future is no longer pending. -/
theorem setFuture_cancelled_quieter (client : AsyncMPClient) (call : CallId) :
    Quieter forgotten client (client.setFuture call .cancelled) where
  batches := rfl
  adding _ _ found := found
  sent := .refl _
  verdicts other error judged given := by
    by_cases same : other = call
    · subst same
      simp [setFuture] at given
    · simpa [setFuture, same] using given
  waiting other pending := by
    by_cases same : other = call
    · subst same
      simp [setFuture] at pending
    · simpa [setFuture, same] using pending
  kept _ _ _ found := Or.inl found
  up _ _ _ _ _ up := up

end AsyncMPClient

namespace AsyncLLM

variable {δ : Type} {llm before middle after : AsyncLLM δ} {forgotten : RequestId → Prop}

/-- The request id's state feeds the call's stream. -/
def Registered (llm : AsyncLLM δ) (requestId : RequestId) (call : CallId) : Prop :=
  ∃ state, llm.outputProcessor.requestStates.lookup requestId = some state ∧
    state.stream = some call

/-- Some request state feeds the call's stream. -/
def Live (llm : AsyncLLM δ) (call : CallId) : Prop :=
  ∃ requestId, llm.Registered requestId call

/-- Every request state has a stream, under the id its call asked for. -/
structure Keyed (llm : AsyncLLM δ) : Prop where
  streamed : ∀ requestId state, llm.outputProcessor.requestStates.lookup requestId = some state →
    ∃ call, state.stream = some call
  named : ∀ requestId call, llm.Registered requestId call →
    (llm.calls call).requestId = requestId
  made : ∀ requestId call, llm.Registered requestId call → call < llm.numCalls

theorem Registered.unique {requestId : RequestId} {call other : CallId}
    (first : llm.Registered requestId call) (second : llm.Registered requestId other) :
    call = other := by
  obtain ⟨state, found, stream⟩ := first
  obtain ⟨state', found', stream'⟩ := second
  obtain rfl := Option.some.inj (found.symm.trans found')
  exact Option.some.inj (stream.symm.trans stream')

/-- The call's task awaits its admission. -/
def Waiting (llm : AsyncLLM δ) (call : CallId) : Prop :=
  ∃ cancelled, (llm.calls call).task = .waiting cancelled

/-- Some streams end, each with one terminal item of the client's own. -/
structure Ends (forgotten : RequestId → Prop) (before after : AsyncLLM δ) : Prop where
  states : ∀ requestId state,
    after.outputProcessor.requestStates.lookup requestId = some state →
      before.outputProcessor.requestStates.lookup requestId = some state
  items : ∀ call,
    (after.items call = before.items call ∧ (after.Live call ↔ before.Live call)) ∨
    (before.Live call ∧ ¬ after.Live call ∧ ∃ item, after.items call = before.items call ++ [item] ∧
      item.terminal = true ∧ item.produced = none)
  named : ∀ call, (after.calls call).requestId = (before.calls call).requestId
  tasks : ∀ call, (after.calls call).task = (before.calls call).task ∨ before.Waiting call
  numCalls : after.numCalls = before.numCalls
  client : AsyncMPClient.Quieter forgotten before.engineCore after.engineCore

theorem Ends.waiting (ends : Ends forgotten before after) {call : CallId}
    (waiting : after.Waiting call) : before.Waiting call := by
  obtain ⟨cancelled, task⟩ := waiting
  rcases ends.tasks call with same | waited
  · exact ⟨cancelled, same.symm.trans task⟩
  · exact waited

theorem Ends.registered (ends : Ends forgotten before after) {requestId : RequestId}
    {call : CallId} (registered : after.Registered requestId call) :
    before.Registered requestId call := by
  obtain ⟨state, found, stream⟩ := registered
  exact ⟨state, ends.states _ _ found, stream⟩

theorem Ends.keyed (ends : Ends forgotten before after) (keyed : before.Keyed) : after.Keyed where
  streamed _ _ found := keyed.streamed _ _ (ends.states _ _ found)
  named _ _ registered := (ends.named _).trans (keyed.named _ _ (ends.registered registered))
  made _ _ registered := ends.numCalls ▸ keyed.made _ _ (ends.registered registered)

theorem Ends.trans (first : Ends forgotten before middle) (second : Ends forgotten middle after) :
    Ends forgotten before after where
  states _ _ found := first.states _ _ (second.states _ _ found)
  items call := by
    rcases second.items call with ⟨same, live⟩ | ⟨live, ended, item, put, terminal, own⟩
    · rw [same, live]
      exact first.items call
    · rcases first.items call with ⟨same', live'⟩ | ⟨_, ended', _⟩
      · rw [same'] at put
        exact Or.inr ⟨live'.mp live, ended, item, put, terminal, own⟩
      · exact absurd live ended'
  named call := (second.named call).trans (first.named call)
  tasks call := by
    rcases second.tasks call with same | waited
    · rw [same]
      exact first.tasks call
    · exact Or.inr (first.waiting waited)
  numCalls := second.numCalls.trans first.numCalls
  client := first.client.trans second.client

/-- What leaves the request states and the streams alone. -/
theorem Ends.of_same (states : after.outputProcessor = before.outputProcessor)
    (puts : after.puts = before.puts)
    (named : ∀ call, (after.calls call).requestId = (before.calls call).requestId)
    (tasks : ∀ call, (after.calls call).task = (before.calls call).task ∨ before.Waiting call)
    (numCalls : after.numCalls = before.numCalls)
    (client : AsyncMPClient.Quieter forgotten before.engineCore after.engineCore) :
    Ends forgotten before after where
  states _ _ found := states ▸ found
  items call := Or.inl ⟨by rw [AsyncLLM.items, puts]; rfl, by simp only [Live, Registered, states]⟩
  named := named
  tasks := tasks
  numCalls := numCalls
  client := client

theorem setCall_ends (llm : AsyncLLM δ) (call : CallId) {value : AddCall}
    (same : value.requestId = (llm.calls call).requestId)
    (task : value.task = (llm.calls call).task ∨ llm.Waiting call) :
    Ends forgotten llm (llm.setCall call value) := by
  refine .of_same rfl rfl (fun other => ?_) (fun other => ?_) rfl (.refl _ _)
  · by_cases equal : other = call
    · subst equal
      simpa [setCall] using same
    · simp [setCall, equal]
  · by_cases equal : other = call
    · subst equal
      simpa [setCall] using task
    · simp [setCall, equal]

/-- The end of an `add_request`: a stream may have ended with it. -/
theorem Ends.setTask (ends : Ends forgotten before after) {call : CallId}
    (waited : before.Waiting call) {task : AddTask} :
    Ends forgotten before (after.setCall call { before.calls call with task := task }) where
  states := ends.states
  items := ends.items
  named other := by
    by_cases equal : other = call
    · subst equal
      simp [setCall]
    · simpa [setCall, equal] using ends.named other
  tasks other := by
    by_cases equal : other = call
    · exact Or.inr (equal ▸ waited)
    · simpa [setCall, equal] using ends.tasks other
  numCalls := ends.numCalls
  client := ends.client

theorem client_ends (llm : AsyncLLM δ) {client : AsyncMPClient}
    (quieter : AsyncMPClient.Quieter forgotten llm.engineCore client) :
    Ends forgotten llm { llm with engineCore := client } :=
  .of_same rfl rfl (fun _ => rfl) (fun _ => Or.inl rfl) rfl quieter

/-- An aborted request's stream ends. -/
theorem abortRequest_ends (keyed : llm.Keyed) (requestId : RequestId) :
    Ends forgotten llm (llm.apply (llm.outputProcessor.abortRequest requestId)) := by
  unfold OutputProcessor.abortRequest
  cases found : llm.outputProcessor.requestStates.lookup requestId with
  | none => exact .of_same rfl (List.append_nil _) (fun _ => rfl) (fun _ => Or.inl rfl) rfl (.refl _ _)
  | some state =>
      obtain ⟨call, stream⟩ := keyed.streamed _ _ found
      have kept : ∀ other state',
          (llm.outputProcessor.requestStates.erase requestId).lookup other = some state' ↔
            other ≠ requestId ∧ llm.outputProcessor.requestStates.lookup other = some state' := by
        intro other state'
        rw [Dict.lookup_erase_eq]
        by_cases same : other = requestId <;> simp [same]
      refine ⟨fun other state' found' => ((kept _ _).mp found').2, fun other => ?_, fun _ => rfl,
        fun _ => Or.inl rfl, rfl, .refl _ _⟩
      have registered : llm.Registered requestId call := ⟨state, found, stream⟩
      have items : (llm.apply (⟨llm.outputProcessor.requestStates.erase requestId⟩,
            state.stream.toList.map fun stream =>
              (stream, .output (OutputProcessor.abortedOutput requestId) none))).items other =
          llm.items other ++ if call = other then
            [.output (OutputProcessor.abortedOutput requestId) none] else [] := by
        rw [stream, AsyncLLM.items, apply, tagged_append]
        simp [tagged_cons, AsyncLLM.items]
      by_cases same : call = other
      · subst same
        refine Or.inr ⟨⟨_, registered⟩, ?_, _, by rw [items, if_pos rfl], rfl, rfl⟩
        rintro ⟨other, state', found', stream'⟩
        obtain ⟨different, before⟩ := (kept _ _).mp found'
        have namedOther := keyed.named _ _ ⟨state', before, stream'⟩
        exact different (namedOther.symm.trans (keyed.named _ _ registered))
      · refine Or.inl ⟨by rw [items, if_neg same, List.append_nil], ?_⟩
        constructor
        · rintro ⟨key, state', found', stream'⟩
          exact ⟨key, state', ((kept _ _).mp found').2, stream'⟩
        · rintro ⟨key, state', found', stream'⟩
          refine ⟨key, state', (kept _ _).mpr ⟨?_, found'⟩, stream'⟩
          rintro rfl
          exact same (registered.unique ⟨state', found', stream'⟩)

/-- An error in every stream ends them all. -/
theorem failAll_ends (keyed : llm.Keyed) (error : EngineDeadError) :
    Ends forgotten llm (llm.apply (llm.outputProcessor.failAll error)) := by
  let streams := llm.outputProcessor.requestStates.values.map fun state => state.stream.getD 0
  have member : ∀ call, call ∈ streams ↔ llm.Live call := by
    intro call
    simp only [streams, List.mem_map, Dict.mem_values_iff]
    constructor
    · rintro ⟨state, ⟨requestId, found⟩, rfl⟩
      obtain ⟨call, stream⟩ := keyed.streamed _ _ found
      exact ⟨requestId, state, found, by rw [stream]; rfl⟩
    · rintro ⟨requestId, state, found, stream⟩
      exact ⟨state, ⟨requestId, found⟩, by rw [stream]; rfl⟩
  have distinct : streams.Nodup := by
    have keys : streams.map (fun call => (llm.calls call).requestId) =
        llm.outputProcessor.requestStates.keys := by
      simp only [streams, Dict.values, List.map_map, AList.keys, List.keys]
      refine List.map_congr_left fun entry among => ?_
      have found := AList.mem_lookup_iff.mpr among
      obtain ⟨call, stream⟩ := keyed.streamed _ _ found
      simp only [Function.comp_apply, stream, Option.getD_some]
      exact keyed.named _ _ ⟨_, found, stream⟩
    exact List.Nodup.of_map _ (keys ▸ AList.keys_nodup _)
  have puts : (llm.outputProcessor.failAll error).2 =
      streams.map fun call => (call, StreamItem.error error) := by
    simp only [OutputProcessor.failAll, streams, List.map_map]
    rw [List.map_eq_flatMap]
    refine List.flatMap_congr fun state among => ?_
    obtain ⟨requestId, found⟩ := Dict.mem_values_iff.mp among
    obtain ⟨call, stream⟩ := keyed.streamed _ _ found
    simp [stream]
  refine ⟨fun _ _ found => absurd found (by simp [apply, OutputProcessor.failAll]), fun call => ?_,
    fun _ => rfl, fun _ => Or.inl rfl, rfl, .refl _ _⟩
  have ended : ¬ (llm.apply (llm.outputProcessor.failAll error)).Live call := by
    rintro ⟨requestId, state, found, _⟩
    simp [apply, OutputProcessor.failAll] at found
  have items : (llm.apply (llm.outputProcessor.failAll error)).items call =
      llm.items call ++ if call ∈ streams then [.error error] else [] := by
    rw [AsyncLLM.items, apply, tagged_append, puts, tagged_map_const call _ distinct]
    rfl
  by_cases live : call ∈ streams
  · exact Or.inr ⟨(member call).mp live, ended, _, by rw [items, if_pos live], rfl, rfl⟩
  · refine Or.inl ⟨by rw [items, if_neg live, List.append_nil], ?_⟩
    exact iff_of_false ended fun before => live ((member call).mpr before)

theorem abort_ends (keyed : llm.Keyed) (requestId : RequestId) (reason : FinishReason) :
    Ends forgotten llm (llm.abort requestId reason) := by
  have ended : Ends forgotten llm _ := abortRequest_ends keyed requestId
  simp only [abort]
  split
  · exact ended
  · exact ended.trans (client_ends _ (AsyncMPClient.abortRequest_quieter _ _ _))

theorem die_ends (keyed : llm.Keyed) (dead : EngineDeadError) :
    Ends forgotten llm (llm.die dead) := by
  simp only [die]
  split
  · exact .of_same rfl rfl (fun _ => rfl) (fun _ => Or.inl rfl) rfl (.refl _ _)
  · have flagged : Ends forgotten llm
        { llm with error := some (dead.cause.getD dead.message), death := dead.message } :=
      .of_same rfl rfl (fun _ => rfl) (fun _ => Or.inl rfl) rfl (.refl _ _)
    exact flagged.trans (failAll_ends (flagged.keyed keyed) _)

theorem cleanUp_ends (keyed : llm.Keyed) (call : CallId) :
    Ends forgotten llm (llm.cleanUp call) := by
  simp only [cleanUp]
  split
  · exact .of_same rfl rfl (fun _ => rfl) (fun _ => Or.inl rfl) rfl (.refl _ _)
  · split
    · exact abort_ends keyed _ _
    · exact .of_same rfl rfl (fun _ => rfl) (fun _ => Or.inl rfl) rfl (.refl _ _)

theorem cancelAdd_ends {call : CallId} (cancelled : llm.cancelAdd call = some after) :
    Ends forgotten llm after := by
  simp only [cancelAdd] at cancelled
  split at cancelled
  · rename_i waited task
    have marked : Ends forgotten llm
        (llm.setCall call { llm.calls call with task := .waiting true }) :=
      setCall_ends _ _ rfl (Or.inr ⟨waited, task⟩)
    split at cancelled
    · obtain rfl := Option.some.inj cancelled
      exact marked.trans (client_ends _ (AsyncMPClient.setFuture_cancelled_quieter _ _))
    · obtain rfl := Option.some.inj cancelled
      exact marked
  · contradiction

theorem resumeAdd_ends (keyed : llm.Keyed) {call : CallId}
    (forgets : forgotten (llm.calls call).requestId) (resumed : llm.resumeAdd call = some after) :
    Ends forgotten llm after := by
  have forget : Ends forgotten llm
      { llm with engineCore := llm.engineCore.forgetAdding (llm.calls call).requestId } :=
    client_ends _ (AsyncMPClient.forgetAdding_quieter _ forgets)
  simp only [resumeAdd] at resumed
  split at resumed
  · rename_i cancelled task
    have waited : llm.Waiting call := ⟨cancelled, task⟩
    split at resumed
    · obtain rfl := Option.some.inj resumed
      have ended := forget.trans
        (abort_ends (forget.keyed keyed) (llm.calls call).requestId .abort)
      exact ended.setTask waited
    · split at resumed
      · obtain rfl := Option.some.inj resumed
        exact setCall_ends _ _ rfl (Or.inr waited)
      · obtain rfl := Option.some.inj resumed
        have ended : Ends forgotten llm _ :=
          abortRequest_ends keyed (llm.calls call).requestId
        exact ended.setTask waited
      · obtain rfl := Option.some.inj resumed
        have ended := forget.trans
          (abortRequest_ends (forget.keyed keyed) (llm.calls call).requestId)
        exact ended.setTask waited
      · contradiction
  · contradiction

theorem startGenerator_ends {call : CallId} (started : llm.startGenerator call = some after) :
    Ends forgotten llm after := by
  simp only [startGenerator] at started
  split at started
  · obtain rfl := Option.some.inj started
    exact setCall_ends _ _ rfl (Or.inl rfl)
  · contradiction

theorem readItem_ends (keyed : llm.Keyed) {call : CallId}
    (read : llm.readItem call = some after) : Ends forgotten llm after := by
  simp only [readItem] at read
  split at read
  · split at read
    · contradiction
    · split at read
      · obtain rfl := Option.some.inj read
        have closed : Ends forgotten llm (llm.setCall call { llm.calls call with
            numRead := (llm.calls call).numRead + 1, generator := .closed }) :=
          setCall_ends _ _ rfl (Or.inl rfl)
        exact closed.trans (cleanUp_ends (closed.keyed keyed) call)
      · obtain rfl := Option.some.inj read
        exact setCall_ends _ _ rfl (Or.inl rfl)
  · contradiction

theorem closeGenerator_ends (keyed : llm.Keyed) {call : CallId}
    (shut : llm.closeGenerator call = some after) : Ends forgotten llm after := by
  have closed : Ends forgotten llm
      (llm.setCall call { llm.calls call with generator := .closed }) :=
    setCall_ends _ _ rfl (Or.inl rfl)
  simp only [closeGenerator] at shut
  split at shut
  · split at shut
    · obtain rfl := Option.some.inj shut
      exact closed
    · obtain rfl := Option.some.inj shut
      exact closed.trans (cleanUp_ends (closed.keyed keyed) call)
    · contradiction
  · contradiction

theorem shutDownStreams_ends (keyed : llm.Keyed) :
    Ends forgotten llm llm.shutDownStreams :=
  (failAll_ends keyed .shuttingDown).trans (.of_same rfl rfl (fun _ => rfl) (fun _ => Or.inl rfl) rfl (.refl _ _))

end AsyncLLM

end LeanVllm
