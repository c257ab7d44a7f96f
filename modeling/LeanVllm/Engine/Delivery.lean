import LeanVllm.Engine.ServiceRuns

/-!
# Delivering outputs

The handler takes the core's outputs in order.  Each goes into the stream that its
request id is registered for, if there is one, and a finished output ends it.
-/

namespace LeanVllm

open Collections Transition

namespace AsyncLLM

variable {δ : Type} {tokenizer : Option (Tokenizer δ)} {llm before after : AsyncLLM δ}
  {produced : CallId × RequestOutput} {batch : List (CallId × RequestOutput)}

/-- One of the core's outputs is routed to its stream. -/
structure Routes (produced : CallId × RequestOutput) (before after : AsyncLLM δ) : Prop where
  keyed : after.Keyed
  registered : ∀ requestId call, after.Registered requestId call ↔
    before.Registered requestId call ∧
      ¬ (produced.2.finished = true ∧ produced.2.requestId = requestId)
  items : ∀ call,
    (before.Registered produced.2.requestId call ∧ ∃ output : TextOutput,
      output.toRequestOutput = produced.2 ∧
        after.items call = before.items call ++ [.output output (some produced.1)]) ∨
    (¬ before.Registered produced.2.requestId call ∧ after.items call = before.items call)
  calls : after.calls = before.calls
  numCalls : after.numCalls = before.numCalls
  client : after.engineCore = before.engineCore

/-- Several outputs are routed one after another. -/
inductive Delivers : List (CallId × RequestOutput) → AsyncLLM δ → AsyncLLM δ → Prop
  | nil (llm : AsyncLLM δ) : Delivers [] llm llm
  | cons {produced : CallId × RequestOutput} {rest : List (CallId × RequestOutput)}
      {before middle after : AsyncLLM δ} (first : Routes produced before middle)
      (later : Delivers rest middle after) : Delivers (produced :: rest) before after

theorem processOutput_routes (keyed : llm.Keyed) (produced : CallId × RequestOutput) :
    Routes produced llm (llm.apply
      ((llm.outputProcessor.processOutput tokenizer produced).1,
        (llm.outputProcessor.processOutput tokenizer produced).2.1)) := by
  unfold OutputProcessor.processOutput
  cases found : llm.outputProcessor.requestStates.lookup produced.2.requestId with
  | none =>
      have absent : ∀ call, ¬ llm.Registered produced.2.requestId call := by
        rintro call ⟨state, found', _⟩
        cases found.symm.trans found'
      have same : ∀ call, (llm.apply (llm.outputProcessor, [])).items call = llm.items call := by
        intro call
        rw [items, apply, tagged_append, tagged_nil, List.append_nil]
        rfl
      refine ⟨⟨keyed.streamed, keyed.named, keyed.made⟩, fun requestId call => ?_,
        fun call => Or.inr ⟨absent call, same call⟩, rfl, rfl, rfl⟩
      refine (and_iff_left_of_imp ?_).symm
      rintro registered ⟨_, rfl⟩
      exact absent call registered
  | some state =>
      obtain ⟨owner, stream⟩ := keyed.streamed _ _ found
      have own : llm.Registered produced.2.requestId owner := ⟨state, found, stream⟩
      let decoded := OutputProcessor.detokenize tokenizer state.detokenizer produced.2.tokenIds
      let left := if produced.2.finished = true
        then llm.outputProcessor.requestStates.erase produced.2.requestId
        else llm.outputProcessor.requestStates.insert produced.2.requestId
          { detokenizer := decoded.1, stream := some owner }
      simp only [stream]
      -- the states that are left feed the streams they fed before
      have states : ∀ requestId call, (∃ state', left.lookup requestId = some state' ∧
          state'.stream = some call) ↔ llm.Registered requestId call ∧
            ¬ (produced.2.finished = true ∧ produced.2.requestId = requestId) := by
        intro requestId call
        by_cases finished : produced.2.finished = true
        · simp only [left, if_pos finished, Dict.lookup_erase_eq]
          by_cases same : requestId = produced.2.requestId
          · simp [same, finished]
          · simp [same, Ne.symm same, Registered]
        · simp only [left, if_neg finished, Dict.lookup_insert_eq]
          by_cases same : requestId = produced.2.requestId
          · subst same
            simp [finished, Registered, found, stream]
          · simp [same, finished, Registered]
      have streamed : ∀ requestId state', left.lookup requestId = some state' →
          ∃ call, state'.stream = some call := by
        intro requestId state' found'
        by_cases finished : produced.2.finished = true
        · simp only [left, if_pos finished, Dict.lookup_erase_eq] at found'
          split at found'
          · cases found'
          · exact keyed.streamed _ _ found'
        · simp only [left, if_neg finished, Dict.lookup_insert_eq] at found'
          split at found'
          · obtain rfl := Option.some.inj found'
            exact ⟨owner, rfl⟩
          · exact keyed.streamed _ _ found'
      refine ⟨⟨streamed, ?_, ?_⟩, states, ?_, rfl, rfl, rfl⟩
      · intro requestId call registered
        exact keyed.named _ _ ((states _ _).mp registered).1
      · intro requestId call registered
        exact keyed.made _ _ ((states _ _).mp registered).1
      · intro call
        by_cases same : call = owner
        · subst same
          refine Or.inl ⟨own, { produced.2 with text := decoded.2 }, rfl, ?_⟩
          rw [items, apply, tagged_append, tagged_cons, if_pos rfl]
          rfl
        · refine Or.inr ⟨fun registered => same (registered.unique own), ?_⟩
          rw [items, apply, tagged_append, tagged_cons, if_neg (Ne.symm same), tagged_nil,
            List.append_nil]
          rfl

theorem processOutputs_delivers (keyed : llm.Keyed) (batch : List (CallId × RequestOutput)) :
    Delivers batch llm (llm.apply
      ((llm.outputProcessor.processOutputs tokenizer batch).1,
        (llm.outputProcessor.processOutputs tokenizer batch).2.1)) := by
  induction batch generalizing llm with
  | nil =>
      have same : llm.apply (llm.outputProcessor, []) = llm := by
        simp [apply]
      simpa only [OutputProcessor.processOutputs, same] using Delivers.nil llm
  | cons produced rest ih =>
      have first : Routes produced llm (llm.apply
          ((llm.outputProcessor.processOutput tokenizer produced).1,
            (llm.outputProcessor.processOutput tokenizer produced).2.1)) :=
        processOutput_routes keyed produced
      have later := ih first.keyed
      refine .cons first ?_
      simpa only [OutputProcessor.processOutputs, apply, List.append_assoc] using later

/-- What one turn of the handler does: it delivers a batch, or it notices the death. -/
theorem handleOutputs_cases (keyed : llm.Keyed) (handled : llm.handleOutputs tokenizer = some after) :
    (∃ batch rest, llm.engineCore.outputs = .ok batch :: rest ∧
      Delivers batch { llm with engineCore := { llm.engineCore with outputs := rest } } after) ∨
    ∃ dead rest, llm.engineCore.outputs = .error dead :: rest ∧
      after = { AsyncLLM.die { llm with engineCore := { llm.engineCore with outputs := rest } }
        dead with handling := false } := by
  unfold handleOutputs at handled
  split at handled
  · split at handled
    · cases handled
    · rename_i item rest outputs
      cases item with
      | ok batch =>
          obtain rfl := Option.some.inj handled
          have taken : Keyed { llm with engineCore := { llm.engineCore with outputs := rest } } :=
            ⟨keyed.streamed, keyed.named, keyed.made⟩
          exact Or.inl ⟨batch, rest, outputs, processOutputs_delivers taken batch⟩
      | error dead =>
          obtain rfl := Option.some.inj handled
          exact Or.inr ⟨dead, rest, outputs, rfl⟩
  · cases handled

namespace Delivers

theorem calls (delivers : Delivers batch before after) : after.calls = before.calls := by
  induction delivers with
  | nil => rfl
  | cons first later ih => exact ih.trans first.calls

theorem numCalls (delivers : Delivers batch before after) : after.numCalls = before.numCalls := by
  induction delivers with
  | nil => rfl
  | cons first later ih => exact ih.trans first.numCalls

theorem client (delivers : Delivers batch before after) : after.engineCore = before.engineCore := by
  induction delivers with
  | nil => rfl
  | cons first later ih => exact ih.trans first.client

theorem keyed (delivers : Delivers batch before after) (keyed : before.Keyed) : after.Keyed := by
  induction delivers with
  | nil => exact keyed
  | cons first later ih => exact ih first.keyed

/-- No stream is registered by a delivery. -/
theorem registered (delivers : Delivers batch before after) {requestId : RequestId} {call : CallId}
    (registered : after.Registered requestId call) : before.Registered requestId call := by
  induction delivers with
  | nil => exact registered
  | cons first later ih => exact ((first.registered _ _).mp (ih registered)).1

end Delivers

end AsyncLLM

end LeanVllm
