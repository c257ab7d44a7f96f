import LeanVllm.Engine.ServiceSteps

/-!
# Streams end once

A request state leaves the output processor together with a terminal item in its
stream, whoever takes it out: the core's last output, an abort, a cancel, a death, a
shutdown.  So a stream is live or closed by its last item, and nothing follows that.
-/

namespace LeanVllm

open Collections Transition

namespace AsyncLLM

variable {δ : Type} {tokenizer : Option (Tokenizer δ)} {llm before after : AsyncLLM δ}
  {requestId : RequestId} {call : CallId}

/-- The stream's last item ends it, and no item before does. -/
def Closed (llm : AsyncLLM δ) (call : CallId) : Prop :=
  ∃ items last, llm.items call = items ++ [last] ∧ last.terminal = true ∧
    ∀ item ∈ items, item.terminal = false

/-- No item of the stream ends it. -/
def StillOpen (llm : AsyncLLM δ) (call : CallId) : Prop :=
  ∀ item ∈ llm.items call, item.terminal = false

theorem StillOpen.of_items (stillOpen : before.StillOpen call)
    (same : after.items call = before.items call) : after.StillOpen call := by
  rw [StillOpen, same]
  exact stillOpen

theorem Closed.of_items (closed : before.Closed call)
    (same : after.items call = before.items call) : after.Closed call := by
  rw [Closed, same]
  exact closed

/-- One more item leaves a stream open or closes it. -/
theorem StillOpen.put (stillOpen : before.StillOpen call) {item : StreamItem}
    (put : after.items call = before.items call ++ [item]) :
    if item.terminal = true then after.Closed call else after.StillOpen call := by
  split
  · rename_i terminal
    exact ⟨_, _, put, terminal, stillOpen⟩
  · rename_i goesOn
    intro other member
    rw [put] at member
    rcases List.mem_append.mp member with old | new
    · exact stillOpen other old
    · rw [List.mem_singleton.mp new]
      exact eq_false_of_ne_true goesOn

/-- Streams are open as long as they are registered, and closed afterwards. -/
structure Streams (llm : AsyncLLM δ) : Prop where
  keyed : llm.Keyed
  unmade : ∀ call, llm.numCalls ≤ call → llm.items call = []
  stillOpen : ∀ call, llm.Live call → llm.StillOpen call
  closed : ∀ call < llm.numCalls, ¬ llm.Live call → llm.Closed call

theorem Keyed.live_lt (keyed : llm.Keyed) (live : llm.Live call) : call < llm.numCalls := by
  obtain ⟨requestId, registered⟩ := live
  exact keyed.made _ _ registered

theorem Ends.streams {forgotten : RequestId → Prop} (ends : Ends forgotten before after)
    (streams : before.Streams) : after.Streams := by
  have keyed := ends.keyed streams.keyed
  refine ⟨keyed, fun call beyond => ?_, fun call live => ?_, fun call made gone => ?_⟩
  · rw [ends.numCalls] at beyond
    rcases ends.items call with ⟨same, _⟩ | ⟨live, _⟩
    · rw [same]
      exact streams.unmade call beyond
    · exact absurd (streams.keyed.live_lt live) (Nat.not_lt.mpr beyond)
  · rcases ends.items call with ⟨same, iff⟩ | ⟨_, ended, _⟩
    · exact (streams.stillOpen call (iff.mp live)).of_items same
    · exact absurd live ended
  · rw [ends.numCalls] at made
    rcases ends.items call with ⟨same, iff⟩ | ⟨live, _, item, put, terminal, _⟩
    · exact (streams.closed call made fun live => gone (iff.mpr live)).of_items same
    · have last := (streams.stillOpen call live).put put
      rwa [if_pos terminal] at last

/-- What a request that is sent registers. -/
theorem sendAdd_registered {tokenIds : List Token} {params : SamplingParams}
    {skipSpecialTokens : Bool} {other : RequestId} :
    (llm.sendAdd tokenizer requestId tokenIds params skipSpecialTokens).Registered other call ↔
      if other = requestId then call = llm.numCalls else llm.Registered other call := by
  unfold Registered sendAdd OutputProcessor.addRequest
  simp only [Dict.lookup_insert_eq]
  split
  · constructor
    · rintro ⟨state, found, stream⟩
      obtain rfl := Option.some.inj found
      exact (Option.some.inj stream).symm
    · rintro rfl
      exact ⟨_, rfl, rfl⟩
  · rfl

theorem sendAdd_keyed (keyed : llm.Keyed) (passed : llm.checkAdd requestId = none)
    {tokenIds : List Token} {params : SamplingParams} {skipSpecialTokens : Bool} :
    (llm.sendAdd tokenizer requestId tokenIds params skipSpecialTokens).Keyed := by
  refine ⟨?_, ?_, ?_⟩
  · intro other state found
    simp only [sendAdd, OutputProcessor.addRequest, Dict.lookup_insert_eq] at found
    split at found
    · obtain rfl := Option.some.inj found
      exact ⟨_, rfl⟩
    · exact keyed.streamed _ _ found
  · intro other call registered
    rw [sendAdd_registered] at registered
    split at registered
    · rename_i same
      subst same
      subst registered
      simp [sendAdd]
    · have old := (keyed.made _ _ registered).ne
      simpa [sendAdd, old] using keyed.named _ _ registered
  · intro other call registered
    rw [sendAdd_registered] at registered
    split at registered
    · rw [registered]
      exact Nat.lt_succ_self _
    · exact Nat.lt_succ_of_lt (keyed.made _ _ registered)

theorem sendAdd_streams (streams : llm.Streams) (passed : llm.checkAdd requestId = none)
    {tokenIds : List Token} {params : SamplingParams} {skipSpecialTokens : Bool} :
    (llm.sendAdd tokenizer requestId tokenIds params skipSpecialTokens).Streams := by
  have absent : ∀ call, ¬ llm.Registered requestId call := by
    rintro call ⟨state, found, _⟩
    cases (checkAdd_eq_none passed).1.symm.trans found
  have live : ∀ call,
      (llm.sendAdd tokenizer requestId tokenIds params skipSpecialTokens).Live call ↔
        call = llm.numCalls ∨ llm.Live call := by
    intro call
    simp only [Live, sendAdd_registered]
    constructor
    · rintro ⟨other, registered⟩
      split at registered
      · exact Or.inl registered
      · exact Or.inr ⟨other, registered⟩
    · rintro (rfl | ⟨other, registered⟩)
      · exact ⟨requestId, by rw [if_pos rfl]⟩
      · refine ⟨other, ?_⟩
        rw [if_neg]
        · exact registered
        · rintro rfl
          exact absent call registered
  refine ⟨sendAdd_keyed streams.keyed passed, fun call beyond => ?_, fun call isLive => ?_,
    fun call made gone => ?_⟩
  · exact streams.unmade call (Nat.le_of_succ_le beyond)
  · rcases (live call).mp isLive with rfl | old
    · intro item member
      have fresh : llm.items llm.numCalls = [] := streams.unmade _ (Nat.le_refl _)
      change item ∈ llm.items llm.numCalls at member
      rw [fresh] at member
      exact absurd member List.not_mem_nil
    · exact streams.stillOpen call old
  · rw [live, not_or] at gone
    have old : call < llm.numCalls := Nat.lt_of_le_of_ne (Nat.le_of_lt_succ made) gone.1
    exact streams.closed call old gone.2

theorem Fails.registered (fails : Fails requestId before after) {other : RequestId} :
    after.Registered other call ↔ before.Registered other call := by
  simp only [Registered, fails.states]

theorem Fails.streams (fails : Fails requestId before after) (streams : before.Streams) :
    after.Streams := by
  have live : ∀ call, after.Live call ↔ before.Live call := by
    intro call
    simp only [Live, fails.registered]
  have old : ∀ call, call ≠ before.numCalls → after.items call = before.items call := by
    intro call other
    rw [fails.items, if_neg other, List.append_nil]
  refine ⟨⟨?_, ?_, ?_⟩, fun call beyond => ?_, fun call isLive => ?_, fun call made gone => ?_⟩
  · intro other state found
    exact streams.keyed.streamed _ _ ((fails.states other).symm.trans found)
  · intro other call registered
    have before' := fails.registered.mp registered
    rw [fails.named, if_neg (streams.keyed.made _ _ before').ne]
    exact streams.keyed.named _ _ before'
  · intro other call registered
    rw [fails.numCalls]
    exact Nat.lt_succ_of_lt (streams.keyed.made _ _ (fails.registered.mp registered))
  · rw [fails.numCalls] at beyond
    rw [old call (Nat.ne_of_gt beyond)]
    exact streams.unmade call (Nat.le_of_succ_le beyond)
  · have isOld := (live call).mp isLive
    exact (streams.stillOpen call isOld).of_items (old call (streams.keyed.live_lt isOld).ne)
  · rw [fails.numCalls] at made
    rw [live] at gone
    by_cases new : call = before.numCalls
    · subst new
      have own := fails.items before.numCalls
      rw [if_pos rfl, streams.unmade _ (Nat.le_refl _)] at own
      exact ⟨[], _, own, rfl, fun item absurdly => absurd absurdly List.not_mem_nil⟩
    · have isOld := Nat.lt_of_le_of_ne (Nat.le_of_lt_succ made) new
      exact (streams.closed call isOld gone).of_items (old call new)

/-- A routed output goes to an open stream, and closes it if it is the last. -/
theorem Routes.streams {produced : CallId × RequestOutput} (routes : Routes produced before after)
    (streams : before.Streams) : after.Streams := by
  refine ⟨routes.keyed, fun call beyond => ?_, fun call live => ?_, fun call made gone => ?_⟩
  · rw [routes.numCalls] at beyond
    rcases routes.items call with ⟨registered, _⟩ | ⟨_, same⟩
    · exact absurd (streams.keyed.made _ _ registered) (Nat.not_lt.mpr beyond)
    · rw [same]
      exact streams.unmade call beyond
  · obtain ⟨requestId, registered⟩ := live
    obtain ⟨old, goesOn⟩ := (routes.registered _ _).mp registered
    have stillOpen := streams.stillOpen call ⟨requestId, old⟩
    rcases routes.items call with ⟨own, output, outputEq, put⟩ | ⟨_, same⟩
    · have last := stillOpen.put put
      have named : produced.2.requestId = requestId :=
        (streams.keyed.named _ _ own).symm.trans (streams.keyed.named _ _ old)
      have unfinished : ¬ output.finished = true := by
        rw [outputEq]
        exact fun finished => goesOn ⟨finished, named⟩
      rwa [StreamItem.terminal, if_neg unfinished] at last
    · exact stillOpen.of_items same
  · rw [routes.numCalls] at made
    rcases routes.items call with ⟨own, output, outputEq, put⟩ | ⟨other, same⟩
    · have last := (streams.stillOpen call ⟨_, own⟩).put put
      have finished : output.finished = true := by
        by_contra unfinished
        rw [outputEq] at unfinished
        exact gone ⟨_, (routes.registered _ _).mpr ⟨own, fun ended => unfinished ended.1⟩⟩
      rwa [StreamItem.terminal, if_pos finished] at last
    · refine (streams.closed call made ?_).of_items same
      rintro ⟨requestId, registered⟩
      refine gone ⟨requestId, (routes.registered _ _).mpr ⟨registered, ?_⟩⟩
      rintro ⟨_, rfl⟩
      exact other registered

theorem Delivers.streams {batch : List (CallId × RequestOutput)}
    (delivers : Delivers batch before after) (streams : before.Streams) : after.Streams := by
  induction delivers with
  | nil => exact streams
  | cons first later ih => exact ih (first.streams streams)

theorem Delivers.items_prefix {batch : List (CallId × RequestOutput)}
    (delivers : Delivers batch before after) (call : CallId) :
    before.items call <+: after.items call := by
  induction delivers with
  | nil => exact List.prefix_rfl
  | cons first later ih =>
      refine List.IsPrefix.trans ?_ ih
      rcases first.items call with ⟨_, output, _, put⟩ | ⟨_, same⟩
      · rw [put]
        exact List.prefix_append _ _
      · rw [same]

/-- A closed stream that still gets items is not closed by its last one. -/
theorem Closed.eq_of_prefix (closed : before.Closed call)
    (grown : before.items call <+: after.items call)
    (ended : after.Closed call ∨ after.StillOpen call) : after.items call = before.items call := by
  obtain ⟨items, last, itemsEq, terminal, _⟩ := closed
  obtain ⟨more, moreEq⟩ := grown
  have among : last ∈ before.items call := by
    rw [itemsEq]
    exact List.mem_append_right _ List.mem_cons_self
  rcases ended with ⟨items', last', itemsEq', _, none⟩ | stillOpen
  · rcases List.eq_nil_or_concat more with rfl | ⟨more', final, rfl⟩
    · rw [← moreEq, List.append_nil]
    · have same : before.items call ++ more' = items' := by
        rw [itemsEq', List.concat_eq_append, ← List.append_assoc] at moreEq
        exact (List.append_inj' moreEq rfl).1
      have absurdly := none last (same ▸ List.mem_append_left _ among)
      cases terminal.symm.trans absurdly
  · have absurdly := stillOpen last (moreEq ▸ List.mem_append_left _ among)
    cases terminal.symm.trans absurdly

/-- The client's side has no part in the streams. -/
theorem Streams.of_client (streams : llm.Streams) (client : AsyncMPClient) :
    Streams { llm with engineCore := client } :=
  ⟨⟨streams.keyed.streamed, streams.keyed.named, streams.keyed.made⟩, streams.unmade,
    streams.stillOpen, streams.closed⟩

end AsyncLLM

namespace Service

variable {δ : Type} {cfg : Config} {tokenizer : Option (Tokenizer δ)}
  {service before after : Service δ} {event : Event}

theorem Effect.streams (effect : Effect cfg tokenizer before after event)
    (streams : before.llm.Streams) : after.llm.Streams := by
  cases effect with
  | ends llm core forgets => exact llm.streams streams
  | admits passed isOpen sent =>
      subst sent
      exact AsyncLLM.sendAdd_streams streams passed
  | fails passed llm core => exact llm.streams streams
  | receives pending taken =>
      subst taken
      exact streams.of_client _
  | delivers outputs llm core => exact llm.streams (streams.of_client _)
  | handles pending taken =>
      subst taken
      exact streams.of_client _
  | steps valid stepped =>
      subst stepped
      exact streams
  | raises raised =>
      subst raised
      exact streams
  | exits exited =>
      subst exited
      exact streams

theorem Effect.items_prefix (effect : Effect cfg tokenizer before after event) (call : CallId) :
    before.llm.items call <+: after.llm.items call := by
  cases effect with
  | ends llm core forgets =>
      rcases llm.items call with ⟨same, _⟩ | ⟨_, _, item, put, _⟩
      · rw [same]
      · rw [put]
        exact List.prefix_append _ _
  | admits passed isOpen sent =>
      subst sent
      exact List.prefix_rfl
  | fails passed llm core =>
      rw [llm.items]
      exact List.prefix_append _ _
  | receives pending taken =>
      subst taken
      exact List.prefix_rfl
  | delivers outputs llm core => exact llm.items_prefix call
  | handles pending taken =>
      subst taken
      exact List.prefix_rfl
  | steps valid stepped =>
      subst stepped
      exact List.prefix_rfl
  | raises raised =>
      subst raised
      exact List.prefix_rfl
  | exits exited =>
      subst exited
      exact List.prefix_rfl

theorem create_streams (cfg : Config) : (create cfg : Service δ).llm.Streams := by
  refine ⟨⟨?_, ?_, ?_⟩, fun _ _ => rfl, ?_, fun call made => absurd made (Nat.not_lt_zero _)⟩
  · intro requestId state found
    simp [create] at found
  · rintro requestId call ⟨state, found, _⟩
    simp [create] at found
  · rintro requestId call ⟨state, found, _⟩
    simp [create] at found
  · rintro call ⟨requestId, state, found, _⟩
    simp [create] at found

theorem Reachable.streams (reachable : Reachable cfg tokenizer service) : service.llm.Streams := by
  obtain ⟨events, run⟩ := reachable
  refine run.invariant (fun _ service => service.llm.Streams) (create_streams cfg) ?_
  intro _ _ _ _ streams taken
  exact (taken.effect streams.keyed).streams streams

/-- From a reachable state on, streams only grow, and the calls that made them stay. -/
theorem Reachable.later (reachable : Reachable cfg tokenizer before) {events : List Event}
    (run : Run (Next cfg tokenizer) before events after) : Reachable cfg tokenizer after ∧
      ∀ call, before.llm.items call <+: after.llm.items call := by
  obtain ⟨done, first⟩ := reachable
  induction run with
  | nil => exact ⟨⟨done, first⟩, fun _ => List.prefix_rfl⟩
  | snoc run taken ih =>
      obtain ⟨⟨events', first'⟩, grown⟩ := ih
      have effect := taken.effect (Reachable.streams ⟨_, first'⟩).keyed
      exact ⟨⟨_, .snoc first' taken⟩, fun call => (grown call).trans (effect.items_prefix call)⟩

/-- In every run of the service, whatever ids are used and in whatever order, a call's
stream is either registered and open, or has left the output processor with exactly one
terminal item, its last, and nothing is put in it ever after. -/
theorem streams_end_once (reachable : Reachable cfg tokenizer before) {call : CallId}
    (made : call < before.llm.numCalls) :
    (before.llm.Live call ∧ before.llm.StillOpen call) ∨
      (¬ before.llm.Live call ∧ before.llm.Closed call ∧ ∀ events after,
        Run (Next cfg tokenizer) before events after →
          after.llm.items call = before.llm.items call) := by
  have streams := reachable.streams
  by_cases live : before.llm.Live call
  · exact Or.inl ⟨live, streams.stillOpen call live⟩
  · have closed := streams.closed call made live
    refine Or.inr ⟨live, closed, fun events after run => ?_⟩
    obtain ⟨reachable', grown⟩ := reachable.later run
    have streams' := reachable'.streams
    apply closed.eq_of_prefix (grown call)
    by_cases live' : after.llm.Live call
    · exact Or.inr (streams'.stillOpen call live')
    · by_cases made' : call < after.llm.numCalls
      · exact Or.inl (streams'.closed call made' live')
      · have none := streams'.unmade call (Nat.not_lt.mp made')
        refine Or.inr fun item member => ?_
        rw [none] at member
        exact absurd member List.not_mem_nil

/-- A request that its client gave up has a closed stream. -/
theorem streams_end_once_abandoned : sampleAbandoned.llm.Closed 0 := by
  rcases streams_end_once ⟨_, sampleAbandoned_run⟩ (show 0 < 1 by decide) with
    ⟨⟨requestId, state, found, _⟩, _⟩ | ⟨_, closed, _⟩
  · have none : sampleAbandoned.llm.outputProcessor.requestStates = ∅ := rfl
    simp [none] at found
  · exact closed

end Service

end LeanVllm
