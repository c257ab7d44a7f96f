import LeanVllm.Engine.Finalization
import LeanVllm.Engine.ServiceEffects

/-!
# Runs of the server's engine

An event of a run ends streams, admits a request, moves an output one place on, or
is a move of the core.  The engine behind the core is always one that a run of
`LLMEngine` reaches.
-/

namespace LeanVllm

open Collections Transition

namespace AsyncMPClient

variable {client : AsyncMPClient} {call : CallId} {requestId : RequestId} {prompt : List Token}
  {params : SamplingParams}

/-- The client would send a request. -/
def Open (client : AsyncMPClient) : Prop :=
  client.error = none ∧ client.stopped = false ∧ client.connected = true

theorem addRequestAsync_of_open (isOpen : client.Open) :
    client.addRequestAsync call requestId prompt params =
      { client with
        adding := client.adding.insert requestId call
        futures := Function.update client.futures call (some .pending)
        input := client.input.send (.add call requestId prompt params) } := by
  obtain ⟨alive, running, connected⟩ := isOpen
  simp [addRequestAsync, alive, running, send, setFuture, connected]

/-- A future made with an error is no admission. -/
theorem setFuture_exception_quieter (client : AsyncMPClient) (call : CallId)
    (error : EngineDeadError) {forgotten : RequestId → Prop} :
    Quieter forgotten client (client.setFuture call (.exception error)) where
  batches := rfl
  adding _ _ found := found
  sent := .refl _
  verdicts other _ _ given := by
    by_cases same : other = call
    · subst same
      simp [setFuture] at given
    · simpa [setFuture, same] using given
  waiting other pending := by
    by_cases same : other = call
    · subst same
      simp [setFuture] at pending
    · simpa [setFuture, same] using pending
  kept _ _ _ found := Or.inl found
  up _ _ _ _ _ up := up

/-- A client that cannot send a request fails its future. -/
theorem addRequestAsync_of_not_open (closed : ¬ client.Open) (call : CallId)
    (requestId : RequestId) (prompt : List Token) (params : SamplingParams) :
    (∃ error, (client.addRequestAsync call requestId prompt params).futures call =
        some (.exception error)) ∧
      Quieter (· = requestId) client
        (client.addRequestAsync call requestId prompt params) := by
  unfold addRequestAsync
  split
  · exact ⟨⟨_, by simp [setFuture]; rfl⟩, setFuture_exception_quieter _ _ _⟩
  · rename_i running
    split
    · exact ⟨⟨_, by simp [setFuture]; rfl⟩, setFuture_exception_quieter _ _ _⟩
    · rename_i alive
      have lost : client.connected = false := by
        by_contra connected
        exact closed ⟨alive, by simpa using running, by simpa using connected⟩
      let made := { client with adding := client.adding.insert requestId call }.setFuture call
        .pending
      have values : ∀ other key, client.adding.lookup key = some other → key ≠ requestId →
          other ∈ made.adding.values := by
        intro other key found different
        refine Dict.mem_values_iff.mpr ⟨key, ?_⟩
        simp only [made, setFuture, Dict.lookup_insert_eq]
        rw [if_neg different]
        exact found
      have own : call ∈ made.adding.values :=
        Dict.mem_values_iff.mpr ⟨requestId, by simp [made, setFuture]⟩
      have died : made.send (.add call requestId prompt params) = made.die notConnected := by
        simp [send, made, setFuture, lost]
      have stillAlive : made.error = none := alive
      have failed := die_of_alive stillAlive notConnected
      have futures : ∀ other, (made.die notConnected).futures other =
          if other ∈ made.adding.values ∧ made.futures other = some .pending then
            some (.exception (.coreDied notConnected)) else made.futures other := by
        intro other
        rw [failed]
        rfl
      show (∃ error, (made.send _).futures call = some (.exception error)) ∧
        Quieter (· = requestId) client (made.send _)
      rw [died]
      refine ⟨⟨_, by rw [futures, if_pos ⟨own, by simp [made, setFuture]⟩]⟩, ?_⟩
      have elsewhere : ∀ other, other ≠ call → made.futures other = client.futures other := by
        intro other different
        simp [made, setFuture, different]
      refine ⟨?_, ?_, ?_, ?_, ?_, ?_, ?_⟩
      · rw [failed]
        simp [batches, Except.toOption, made, setFuture]
      · intro key other found
        rw [failed] at found
        simp [failPending] at found
      · rw [failed]
        exact .refl _
      · intro other error judged given
        rw [futures] at given
        split at given
        · exact absurd given (by simp)
        · by_cases same : other = call
          · subst same
            simp [made, setFuture] at given
          · exact (elsewhere other same).symm.trans given
      · intro other pending
        rw [futures] at pending
        split at pending
        · exact absurd pending (by simp)
        · rename_i spared
          by_cases same : other = call
          · exact absurd ⟨same ▸ own, pending⟩ spared
          · exact (elsewhere other same).symm.trans pending
      · intro other key pending found
        rw [futures] at pending
        split at pending
        · exact absurd pending (by simp)
        · rename_i spared
          by_contra neither
          rw [not_or] at neither
          exact spared ⟨values other key found neither.2, pending⟩
      · intro other key pending found remembered
        rw [futures] at pending
        split at pending
        · exact absurd pending (by simp)
        · rename_i spared
          exact absurd ⟨values other key found remembered, pending⟩ spared

end AsyncMPClient

namespace AsyncLLM

variable {δ : Type} {llm after : AsyncLLM δ} {tokenizer : Option (Tokenizer δ)}
  {requestId : RequestId} {tokenIds : List Token} {params : SamplingParams}
  {skipSpecialTokens : Bool}

theorem checkAdd_eq_none (passed : llm.checkAdd requestId = none) :
    llm.outputProcessor.requestStates.lookup requestId = none ∧ llm.stopped = false ∧
      llm.error = none := by
  unfold checkAdd at passed
  split at passed
  · contradiction
  · rename_i absent
    split at passed
    · contradiction
    · split at passed
      · contradiction
      · rename_i running alive
        exact ⟨AList.lookup_eq_none.mpr absent, by simpa using running, by simpa using alive⟩

/-- A request that is sent waits for its admission. -/
theorem addRequest_of_open (passed : llm.checkAdd requestId = none)
    (isOpen : llm.engineCore.Open) :
    llm.addRequest tokenizer requestId tokenIds params skipSpecialTokens =
      llm.sendAdd tokenizer requestId tokenIds params skipSpecialTokens := by
  simp [addRequest, passed, resumeAdd, sendAdd, AsyncMPClient.addRequestAsync_of_open isOpen]

/-- Aborting a request just registered ends its stream. -/
theorem abortRequest_addRequest (processor : OutputProcessor δ) (call : CallId) :
    (processor.addRequest tokenizer requestId tokenIds skipSpecialTokens (some call)).abortRequest
        requestId =
      (⟨(processor.addRequest tokenizer requestId tokenIds skipSpecialTokens
          (some call)).requestStates.erase requestId⟩,
        [(call, .output (OutputProcessor.abortedOutput requestId) none)]) := by
  simp [OutputProcessor.addRequest, OutputProcessor.abortRequest]

/-- A request that cannot be sent gets a stream that has ended, and no state. -/
structure Fails (requestId : RequestId) (before after : AsyncLLM δ) : Prop where
  states : ∀ other, after.outputProcessor.requestStates.lookup other =
    before.outputProcessor.requestStates.lookup other
  items : ∀ call, after.items call = before.items call ++
    if call = before.numCalls then [.output (OutputProcessor.abortedOutput requestId) none] else []
  named : ∀ call, (after.calls call).requestId =
    if call = before.numCalls then requestId else (before.calls call).requestId
  waiting : ∀ call, after.Waiting call → before.Waiting call ∧ call ≠ before.numCalls
  numCalls : after.numCalls = before.numCalls + 1
  client : AsyncMPClient.Quieter (· = requestId) before.engineCore after.engineCore

theorem addRequest_of_not_open (passed : llm.checkAdd requestId = none)
    (closed : ¬ llm.engineCore.Open) :
    Fails requestId llm (llm.addRequest tokenizer requestId tokenIds params skipSpecialTokens) := by
  obtain ⟨absent, _⟩ := checkAdd_eq_none passed
  obtain ⟨⟨error, raised⟩, quieter⟩ := AsyncMPClient.addRequestAsync_of_not_open closed
    llm.numCalls requestId tokenIds params
  have ended : llm.addRequest tokenizer requestId tokenIds params skipSpecialTokens =
      { llm with
        engineCore := (llm.engineCore.addRequestAsync llm.numCalls requestId tokenIds
          params).forgetAdding requestId
        outputProcessor := ⟨(llm.outputProcessor.addRequest tokenizer requestId tokenIds
          skipSpecialTokens (some llm.numCalls)).requestStates.erase requestId⟩
        puts := llm.puts ++
          [(llm.numCalls, .output (OutputProcessor.abortedOutput requestId) none)]
        calls := Function.update llm.calls llm.numCalls ⟨requestId, .dead error, .created, 0⟩
        numCalls := llm.numCalls + 1 } := by
    simp [addRequest, passed, sendAdd, resumeAdd, raised, abortRequest_addRequest, apply, setCall]
  rw [ended]
  refine ⟨?_, ?_, ?_, ?_, rfl, quieter.trans (AsyncMPClient.forgetAdding_quieter _ rfl)⟩
  · intro other
    simp only [OutputProcessor.addRequest, Dict.lookup_erase_eq, Dict.lookup_insert_eq]
    split
    · rename_i same
      rw [same, absent]
    · rfl
  · intro call
    rw [items, tagged_append, tagged_cons, tagged_nil]
    by_cases same : call = llm.numCalls
    · simp [same, items]
    · simp [same, Ne.symm same, items]
  · intro call
    by_cases same : call = llm.numCalls
    · simp [same]
    · simp [same]
  · rintro call ⟨cancelled, task⟩
    by_cases same : call = llm.numCalls
    · subst same
      simp at task
    · exact ⟨⟨cancelled, by simpa [same] using task⟩, same⟩

end AsyncLLM

namespace LLMEngine

variable {cfg : Config} {engine next : LLMEngine} {action : Action}

/-- The account of one action of a reachable engine. -/
theorem Reachable.acted (reachable : Reachable cfg engine) (taken : Next cfg engine action next) :
    Reachable cfg next ∧ Balances engine action next ∧
      ∀ i, i ≠ engine.scheduler.counter →
        (next.scheduler.heap i).requestId = (engine.scheduler.heap i).requestId := by
  obtain ⟨flight, inv⟩ := reachable.inv
  obtain ⟨flight', acts, nextInv⟩ := taken.acts inv
  obtain ⟨actions, run⟩ := reachable
  refine ⟨⟨_, .snoc run taken⟩, acts.balances inv nextInv, fun i other => ?_⟩
  exact congrArg Request.requestId (acts.evolves inv other).request

/-- A live request is stored under its own id. -/
theorem Reachable.named (reachable : Reachable cfg engine) {requestId : RequestId} {i : SeqId}
    (found : engine.scheduler.seqs.lookup requestId = some i) :
    i < engine.scheduler.counter ∧ (engine.scheduler.heap i).requestId = requestId := by
  obtain ⟨flight, inv⟩ := reachable.inv
  obtain ⟨idEq, below, _⟩ := inv.scheduler.known_of_lookup (Or.inl found)
  exact ⟨below, idEq⟩

/-- What is live after an action that admits nothing was live before it, under its id. -/
theorem Reachable.found_before (reachable : Reachable cfg engine)
    (taken : Next cfg engine action next) (admits : action.admits = [])
    {requestId : RequestId} {i : SeqId}
    (found : next.scheduler.seqs.lookup requestId = some i) :
    engine.scheduler.seqs.lookup requestId = some i := by
  obtain ⟨nextReachable, balances, named⟩ := reachable.acted taken
  have live : i ∈ engine.scheduler.seqs.values := by
    have perm := balances.live
    rw [admits, List.nil_append] at perm
    exact perm.symm.subset (List.mem_append_right _ (Dict.mem_values_iff.mpr ⟨_, found⟩))
  obtain ⟨key, before⟩ := Dict.mem_values_iff.mp live
  obtain ⟨below, idEq⟩ := reachable.named before
  obtain ⟨_, idEq'⟩ := nextReachable.named found
  have same : key = requestId := by rw [← idEq, ← idEq', named i below.ne]
  exact same ▸ before

/-- An accepted request keeps the id it came with. -/
theorem addRequest_requestId {prompt : List Token} {params : SamplingParams}
    {requestId accepted : RequestId} {arrivalTime : Nat}
    (added : (engine.addRequest cfg prompt params (some requestId) arrivalTime).2 = .ok accepted) :
    accepted = requestId := by
  unfold addRequest at added
  split at added
  · contradiction
  · simp only [Option.getD_some] at added
    split at added
    · contradiction
    · split at added
      · contradiction
      · exact (Except.ok.inj added).symm

end LLMEngine

namespace EngineCore

variable {cfg : Config} {core : EngineCore} {requestId : RequestId} {call : CallId}

/-- The engine runs a request of the call. -/
def Holds (core : EngineCore) (requestId : RequestId) (call : CallId) : Prop :=
  ∃ i, core.engine.scheduler.seqs.lookup requestId = some i ∧ core.origin i = call

/-- What was live after an action that admits nothing was live before it. -/
theorem Holds.of_balances {next : LLMEngine} {action : LLMEngine.Action}
    (reachable : LLMEngine.Reachable cfg core.engine)
    (taken : LLMEngine.Next cfg core.engine action next) (admits : action.admits = [])
    (held : { core with engine := next }.Holds requestId call) : core.Holds requestId call := by
  obtain ⟨i, found, origin⟩ := held
  exact ⟨i, reachable.found_before taken admits found, origin⟩

/-- The engine behind a core stays a reachable one, and takes up only the requests it
is handed. -/
theorem handle_spec (reachable : LLMEngine.Reachable cfg core.engine) (arrivalTime : Nat)
    (message : CoreInput) :
    LLMEngine.Reachable cfg (core.handle cfg arrivalTime message).engine ∧
      ∀ requestId call, (core.handle cfg arrivalTime message).Holds requestId call →
        core.Holds requestId call ∨
          ∃ prompt params, message = .add call requestId prompt params := by
  cases message with
  | add sender key prompt params =>
      cases added : core.engine.addRequest cfg prompt params (some key) arrivalTime with
      | mk next outcome =>
          have engineEq : (core.handle cfg arrivalTime (.add sender key prompt params)).engine =
              next := by
            simp [handle, added]
          have adds := LLMEngine.addRequest_spec cfg core.engine prompt params (some key) arrivalTime
          rw [added] at adds
          refine ⟨engineEq ▸ (reachable.acted (.add added)).1, ?_⟩
          rintro requestId call ⟨i, found, origin⟩
          rw [engineEq] at found
          have old : core.engine.scheduler.seqs.lookup requestId = some i →
              core.Holds requestId call := by
            intro before
            have apart := (reachable.named before).1.ne
            refine ⟨i, before, ?_⟩
            simpa [handle, apart] using origin
          cases adds with
          | refuse fault => exact Or.inl (old found)
          | duplicate other hashes valid known => exact Or.inl (old found)
          | accept other hashes valid isQueued fresh =>
              have named : other = key := LLMEngine.addRequest_requestId (congrArg Prod.snd added)
              subst named
              simp only [Scheduler.enqueue, Dict.lookup_insert_eq] at found
              split at found
              · rename_i same
                subst same
                obtain rfl := Option.some.inj found
                have sent : sender = call := by simpa [handle] using origin
                exact Or.inr ⟨prompt, params, by rw [sent]⟩
              · exact Or.inl (old found)
  | abort key reason =>
      obtain ⟨flight, inv⟩ := reachable.inv
      obtain ⟨next, aborted, ended, _⟩ := LLMEngine.abortRequest_spec inv key reason
      have handled : core.handle cfg arrivalTime (.abort key reason) =
          { core with engine := next } := by
        simp [handle, ended]
      have taken := LLMEngine.Next.abort ended
      rw [handled]
      refine ⟨(reachable.acted taken).1, fun requestId call held => Or.inl ?_⟩
      exact held.of_balances reachable taken rfl
  | shutdown => exact ⟨reachable, fun _ _ held => Or.inl held⟩

/-- A step reports only requests the engine runs, and runs no more those it finished. -/
theorem step_spec {env : StepEnv} (reachable : LLMEngine.Reachable cfg core.engine)
    (valid : env.Valid cfg core.engine) :
    ∃ next batch, core.step cfg env =
        { core with
          engine := next
          output := if batch = [] then core.output else core.output.send (.outputs batch) } ∧
      LLMEngine.Reachable cfg next ∧
      (∀ requestId call, { core with engine := next }.Holds requestId call →
        core.Holds requestId call) ∧
      ∀ produced ∈ batch, core.Holds produced.2.requestId produced.1 ∧
        (produced.2.finished = true →
          ¬ { core with engine := next }.Holds produced.2.requestId produced.1) := by
  obtain ⟨flight, inv⟩ := reachable.inv
  obtain ⟨launch, last, processed, stepEq, _⟩ := LLMEngine.step_spec inv valid
  have taken := LLMEngine.Next.step valid stepEq
  obtain ⟨nextReachable, balances, named⟩ := reachable.acted taken
  let batch := (LLMEngine.outputs last processed launch.output.dropped).map fun output =>
    (core.origin output.1, output.2)
  refine ⟨_, batch, ?_, nextReachable,
    fun _ _ held => held.of_balances reachable taken rfl, ?_⟩
  · simp only [step, stepEq, batch, List.map_eq_nil_iff]
  · intro produced member
    obtain ⟨output, among, rfl⟩ := List.mem_map.mp member
    have live := balances.mentioned output.1 (List.mem_map_of_mem among)
    obtain ⟨key, found⟩ := Dict.mem_values_iff.mp live
    obtain ⟨below, idEq⟩ := reachable.named found
    have told := (balances.named (output.1, output.2.requestId)
      (List.mem_map.mpr ⟨output, among, rfl⟩)).2
    have same : key = output.2.requestId :=
      idEq.symm.trans ((named output.1 below.ne).symm.trans told)
    subst same
    refine ⟨⟨output.1, found, rfl⟩, fun finished held => ?_⟩
    obtain ⟨i, foundAfter, _⟩ := held
    -- the request that is still live under the id would be the one that ended
    have foundBefore := reachable.found_before taken rfl foundAfter
    obtain rfl : i = output.1 := Option.some.inj (foundBefore.symm.trans found)
    have nodup : core.engine.scheduler.seqs.values.Nodup :=
      Dict.values_nodup (fun i => (core.engine.scheduler.heap i).requestId) fun key i found =>
        (reachable.named found).2
    have apart := (List.nodup_append'.mp (balances.live.nodup_iff.mp nodup)).2.2
    refine apart ?_ (Dict.mem_values_iff.mpr ⟨_, foundAfter⟩)
    exact List.mem_map.mpr ⟨output, List.mem_filter.mpr ⟨among, finished⟩, rfl⟩

end EngineCore

end LeanVllm
