import LeanVllm.Decoding.Greedy
import LeanVllm.Engine.Finalization
import LeanVllm.Engine.Streams

/-!
# Token streams

With a deterministic model, whatever the scheduler does, a request generates
what greedy decoding of its prompt generates: its stream continues its prompt
token by token, and a stop falls where the reference stops.
-/

namespace LeanVllm

open Collections Decoding

/-- A model that is an oracle for the next token. -/
abbrev Oracle := List Token → Nat

/-- The next token as the engine stores it. -/
def Oracle.next (oracle : Oracle) (tokens : List Token) : Token :=
  oracle tokens

/-- Every sampling row returns what greedy verification of its drafts returns,
with any drafts for the next step. -/
def StepEnv.Greedy (oracle : Oracle) (env : StepEnv) : Prop :=
  ∀ row : RowInput, row.samples = true →
    (env.forward row).tokens = verify oracle.next row.continued row.drafts

/-- The tokens greedy decoding generates for a request, and whether it ends at a
stop token. -/
def generation (cfg : Config) (oracle : Oracle) (prompt : List Token) (maxTokens : Nat)
    (ignoreEos : Bool) (stopTokenIds : List Token) : List Token × Bool :=
  generate oracle.next (fun tokenId => (tokenId = cfg.eos ∧ ¬ ignoreEos) ∨ tokenId ∈ stopTokenIds)
    maxTokens prompt

namespace Scheduler

instance (cfg : Config) (seq : Sequence) : DecidablePred (StopsAt cfg seq) := fun _ =>
  inferInstanceAs (Decidable (_ ∨ _))

end Scheduler

open Scheduler

namespace Sequence

/-- The reference generation of a request. -/
def reference (cfg : Config) (oracle : Oracle) (seq : Sequence) : List Token × Bool :=
  generation cfg oracle seq.promptTokenIds seq.maxTokens seq.ignoreEos seq.stopTokenIds

/-- The request generated its whole reference. -/
def Complete (cfg : Config) (oracle : Oracle) (seq : Sequence) : Prop :=
  seq.completionTokenIds = (seq.reference cfg oracle).1 ∧
    seq.finishReason = some (if (seq.reference cfg oracle).2 then .stop else .length)

/-- The request follows its reference, and while it is not finished so do its
tokens in flight. -/
structure Follows (cfg : Config) (oracle : Oracle) (flight : Flight) (i : SeqId)
    (seq : Sequence) : Prop where
  prompt_le : seq.numPromptTokens ≤ seq.numTokens
  within : seq.completionTokenIds <+: (seq.reference cfg oracle).1
  continues : seq.status ≠ .finished → Continues oracle.next seq.promptTokenIds
    ((seq.stream flight i).drop seq.numPromptTokens)
  clean : seq.status ≠ .finished → ∀ tokenId ∈ seq.completionTokenIds, ¬ StopsAt cfg seq tokenId

/-- A request that ended in a step did so for capacity or with its whole
reference. -/
def Closes (cfg : Config) (oracle : Oracle) (seq : Sequence) : Prop :=
  seq.status = .finished → seq.finishReason = some .capacity ∨ seq.Complete cfg oracle

variable {cfg : Config} {oracle : Oracle} {flight : Flight} {i : SeqId} {seq after : Sequence}

theorem Evolves.promptTokenIds_eq (evolves : Evolves seq after)
    (prompt : seq.numPromptTokens ≤ seq.numTokens) :
    after.promptTokenIds = seq.promptTokenIds := by
  obtain ⟨more, tokens⟩ := evolves.tokenIds
  rw [promptTokenIds, promptTokenIds, evolves.numPromptTokens_eq, ← tokens]
  exact List.take_append_of_le_length prompt

theorem Evolves.reference_eq (evolves : Evolves seq after)
    (prompt : seq.numPromptTokens ≤ seq.numTokens) :
    after.reference cfg oracle = seq.reference cfg oracle := by
  have limit : after.maxTokens = seq.maxTokens := congrArg Request.maxTokens evolves.request
  have eos : after.ignoreEos = seq.ignoreEos := congrArg Request.ignoreEos evolves.request
  have stops : after.stopTokenIds = seq.stopTokenIds :=
    congrArg Request.stopTokenIds evolves.request
  rw [reference, reference, evolves.promptTokenIds_eq prompt, limit, eos, stops]

theorem Evolves.stopsAt_iff (evolves : Evolves seq after) (tokenId : Token) :
    StopsAt cfg after tokenId ↔ StopsAt cfg seq tokenId := by
  have eos : after.ignoreEos = seq.ignoreEos := congrArg Request.ignoreEos evolves.request
  have stops : after.stopTokenIds = seq.stopTokenIds :=
    congrArg Request.stopTokenIds evolves.request
  rw [StopsAt, StopsAt, eos, stops]

theorem Evolves.completionTokenIds_eq (evolves : Evolves seq after)
    (same : after.tokenIds = seq.tokenIds) :
    after.completionTokenIds = seq.completionTokenIds := by
  rw [completionTokenIds, completionTokenIds, evolves.numPromptTokens_eq, same]

/-- A finished request stays complete. -/
theorem Complete.evolves (complete : seq.Complete cfg oracle) (evolves : Evolves seq after)
    (prompt : seq.numPromptTokens ≤ seq.numTokens) (finished : seq.status = .finished) :
    after.Complete cfg oracle := by
  obtain ⟨_, reason, tokens⟩ := evolves.finished finished
  rw [Complete, evolves.completionTokenIds_eq tokens, evolves.reference_eq prompt, reason]
  exact complete

/-- A request that only finishes follows its reference. -/
theorem Follows.finish (follows : seq.Follows cfg oracle flight i) (evolves : Evolves seq after)
    (same : after.tokenIds = seq.tokenIds) (finished : after.status = .finished) :
    after.Follows cfg oracle flight i where
  prompt_le := by
    rw [evolves.numPromptTokens_eq, numTokens, same]
    exact follows.prompt_le
  within := by
    rw [evolves.completionTokenIds_eq same, evolves.reference_eq follows.prompt_le]
    exact follows.within
  continues unfinished := absurd finished unfinished
  clean unfinished := absurd finished unfinished

/-- A request whose tokens stay, and whose tokens in flight stay or are void. -/
theorem Follows.same (follows : seq.Follows cfg oracle flight i) (evolves : Evolves seq after)
    (same : after.tokenIds = seq.tokenIds) {flight' : Flight}
    (stream : after.status ≠ .finished → after.stream flight' i = seq.stream flight i ∨
      after.stream flight' i = seq.tokenIds) : after.Follows cfg oracle flight' i := by
  have prompt := follows.prompt_le
  have opened : after.status ≠ .finished → seq.status ≠ .finished := fun unfinished done =>
    unfinished (evolves.finished done).1
  refine ⟨?_, ?_, fun unfinished => ?_, fun unfinished tokenId member => ?_⟩
  · rw [evolves.numPromptTokens_eq, numTokens, same]
    exact prompt
  · rw [evolves.completionTokenIds_eq same, evolves.reference_eq prompt]
    exact follows.within
  · have continues := follows.continues (opened unfinished)
    rw [evolves.numPromptTokens_eq, evolves.promptTokenIds_eq prompt]
    rcases stream unfinished with kept | void
    · rw [kept]
      exact continues
    · rw [Sequence.stream, List.drop_append_of_le_length prompt, continues_append] at continues
      rw [void]
      exact continues.1
  · rw [evolves.completionTokenIds_eq same] at member
    rw [evolves.stopsAt_iff]
    exact follows.clean (opened unfinished) tokenId member

/-- The model's answer to a sampling row continues the stream. -/
theorem Follows.sample (follows : seq.Follows cfg oracle flight i)
    (unfinished : seq.status ≠ .finished) {env : StepEnv} (greedy : env.Greedy oracle)
    {input : RowInput} {width : Nat} {drafts : List Token}
    (feeds : input.Feeds (seq.stream flight i) width drafts) (samples : input.samples = true) :
    Continues oracle.next seq.promptTokenIds
      ((seq.stream flight i ++ (env.forward input).tokens).drop seq.numPromptTokens) := by
  have prompt : seq.numPromptTokens ≤ (seq.stream flight i).length := by
    rw [Sequence.stream, List.length_append]
    exact follows.prompt_le.trans (Nat.le_add_right _ _)
  have whole : seq.promptTokenIds ++ (seq.stream flight i).drop seq.numPromptTokens =
      seq.stream flight i := by
    have promptEq : seq.promptTokenIds = (seq.stream flight i).take seq.numPromptTokens := by
      rw [Sequence.stream, List.take_append_of_le_length follows.prompt_le, promptTokenIds]
    rw [promptEq, List.take_append_drop]
  have continued : input.continued = seq.stream flight i := by
    rw [feeds.continued_eq, feeds.samples samples, List.take_length]
  rw [List.drop_append_of_le_length prompt, continues_append, whole]
  refine ⟨follows.continues unfinished, ?_⟩
  rw [greedy input samples, continued]
  exact verify_continues _ _ _

end Sequence

namespace Scheduler

open Sequence

variable {cfg : Config} {oracle : Oracle} {s last : Scheduler} {flight : Flight} {i : SeqId}

theorem Launches.follows {env : StepEnv} {runner : ModelRunner} {launch : Launch}
    (launches : s.Launches cfg env runner flight launch)
    (inv : s.Inv cfg s.running flight.rows) (wf : flight.Wf cfg)
    (device : flight = [] ∨ runner = flight.runner cfg) (greedy : env.Greedy oracle)
    (follows : (s.heap i).Follows cfg oracle flight i) :
    (launch.last.heap i).Follows cfg oracle (flight ++ launch.flight env) i := by
  have keeps := launches.reported_keeps inv i
  have reported := follows.same keeps.toEvolves keeps.same
    fun _ => stream_of_keeps inv.launched keeps
  obtain ⟨advanced, _, status⟩ := launches.advances.keeps i
  obtain ⟨more, streamEq, none | ⟨input, member, rfl, samples, rfl⟩⟩ := launches.stream i
  · refine reported.same advanced.toEvolves advanced.same fun _ => Or.inl ?_
    rw [streamEq, none, List.append_nil]
  · obtain ⟨_, _, _, feeds, _⟩ := launches.feeds wf device member
    refine ⟨?_, ?_, fun unfinished => ?_, fun unfinished tokenId member => ?_⟩
    · rw [advanced.numPromptTokens_eq, numTokens, advanced.same]
      exact reported.prompt_le
    · rw [advanced.completionTokenIds_eq advanced.same, advanced.reference_eq reported.prompt_le]
      exact reported.within
    · rw [status] at unfinished
      rw [streamEq, advanced.numPromptTokens_eq, advanced.promptTokenIds_eq reported.prompt_le]
      exact reported.sample unfinished greedy feeds samples
    · rw [status] at unfinished
      rw [advanced.completionTokenIds_eq advanced.same] at member
      rw [advanced.stopsAt_iff]
      exact reported.clean unfinished tokenId member

theorem Launches.closes {env : StepEnv} {runner : ModelRunner} {launch : Launch}
    (launches : s.Launches cfg env runner flight launch)
    (inv : s.Inv cfg s.running flight.rows)
    (prompt : (s.heap i).numPromptTokens ≤ (s.heap i).numTokens)
    (closes : (s.heap i).Closes cfg oracle) : (launch.last.heap i).Closes cfg oracle := by
  have keeps := (launches.reported_keeps inv i).trans (launches.advances.keeps i).1
  intro done
  rcases keeps.capacity done with earlier | capacity
  · refine (closes earlier).imp (fun capacity => ?_) fun complete =>
      complete.evolves keeps.toEvolves prompt earlier
    rw [(keeps.finished earlier).2.1]
    exact capacity
  · exact Or.inl capacity

theorem stream_cons_self {row : LaunchedRow} {seq : Sequence}
    (lives : seq.numPreemptions = row.numPreemptions) (sample : RowSample) (flight : Flight) :
    seq.stream ((row, sample) :: flight) row.seq =
      seq.tokenIds ++ (sample.tokens ++ flight.pendingTokens row.seq seq.numPreemptions) := by
  rw [Sequence.stream, lives, Flight.pendingTokens_cons_self]

theorem stream_cons_of_ne {row : LaunchedRow} {seq : Sequence}
    (other : ¬ (row.seq = i ∧ row.numPreemptions = seq.numPreemptions)) (sample : RowSample)
    (flight : Flight) : seq.stream ((row, sample) :: flight) i = seq.stream flight i := by
  rw [Sequence.stream, Flight.pendingTokens_cons_of_ne sample flight other, Sequence.stream]

theorem completion_append {seq : Sequence} (prompt : seq.numPromptTokens ≤ seq.numTokens)
    (tokens : List Token) :
    (seq.tokenIds ++ tokens).drop seq.numPromptTokens = seq.completionTokenIds ++ tokens :=
  List.drop_append_of_le_length prompt

/-- Committing a row's tokens moves them from the flight to the sequence. -/
theorem follows_commit {row : LaunchedRow} {sample : RowSample} {seq : Sequence}
    (follows : seq.Follows cfg oracle ((row, sample) :: flight) row.seq)
    (unfinished : seq.status ≠ .finished) (lives : seq.numPreemptions = row.numPreemptions)
    (below : seq.numCompletionTokens + sample.tokens.length < seq.maxTokens)
    (clean : ∀ tokenId ∈ sample.tokens, ¬ StopsAt cfg seq tokenId) (numRejected : Nat)
    (hashes : List Hash) (spec : List Token) :
    ({ seq.committed numRejected sample.tokens hashes with specTokenIds := spec } :
      Sequence).Follows cfg oracle flight row.seq := by
  have prompt := follows.prompt_le
  have continues := follows.continues unfinished
  have allClean : ∀ tokenId ∈ seq.completionTokenIds ++ sample.tokens,
      ¬ StopsAt cfg seq tokenId := by
    intro tokenId member
    rcases List.mem_append.mp member with early | new
    · exact follows.clean unfinished tokenId early
    · exact clean tokenId new
  have streamEq : ({ seq.committed numRejected sample.tokens hashes with specTokenIds := spec } :
      Sequence).stream flight row.seq = seq.stream ((row, sample) :: flight) row.seq := by
    rw [stream_cons_self lives]
    exact List.append_assoc _ _ _
  have promptEq : (seq.tokenIds ++ sample.tokens).take seq.numPromptTokens = seq.promptTokenIds :=
    List.take_append_of_le_length prompt
  refine ⟨?_, ?_, fun _ => ?_, fun _ => ?_⟩
  · simp only [numTokens, committed, List.length_append] at prompt ⊢
    omega
  · show (seq.tokenIds ++ sample.tokens).drop seq.numPromptTokens <+:
      (generation cfg oracle ((seq.tokenIds ++ sample.tokens).take seq.numPromptTokens) _ _ _).1
    rw [promptEq, completion_append prompt]
    refine prefix_generate ?_ allClean ?_
    · rw [stream_cons_self lives, completion_append prompt, ← List.append_assoc,
        continues_append] at continues
      exact continues.1
    · rw [List.length_append, completionTokenIds, List.length_drop]
      exact below.le
  · rw [streamEq]
    show Continues oracle.next ((seq.tokenIds ++ sample.tokens).take seq.numPromptTokens) _
    rw [promptEq]
    exact continues
  · show ∀ tokenId ∈ (seq.tokenIds ++ sample.tokens).drop seq.numPromptTokens, _
    rw [completion_append prompt]
    exact allClean

/-- A stop in the middle of a row's tokens falls where the reference ends. -/
theorem generation_of_stop {row : LaunchedRow} {sample : RowSample} {seq : Sequence}
    (follows : seq.Follows cfg oracle ((row, sample) :: flight) row.seq)
    (unfinished : seq.status ≠ .finished) (lives : seq.numPreemptions = row.numPreemptions)
    {earlier dropped : List Token} {final : Token} {why : FinishReason}
    (split : sample.tokens = earlier ++ [final] ++ dropped)
    (below : seq.numCompletionTokens + earlier.length < seq.maxTokens)
    (clean : ∀ tokenId ∈ earlier, ¬ StopsAt cfg seq tokenId)
    (cause : StopsAt cfg seq final ∧ why = .stop ∨ ¬ StopsAt cfg seq final ∧
      seq.numCompletionTokens + (earlier.length + 1) = seq.maxTokens ∧ why = .length) :
    (seq.tokenIds ++ (earlier ++ [final])).drop seq.numPromptTokens =
        (generation cfg oracle seq.promptTokenIds seq.maxTokens seq.ignoreEos
          seq.stopTokenIds).1 ∧
      why = if (generation cfg oracle seq.promptTokenIds seq.maxTokens seq.ignoreEos
        seq.stopTokenIds).2 then .stop else .length := by
  have prompt := follows.prompt_le
  have continues := follows.continues unfinished
  have count : seq.completionTokenIds.length = seq.numCompletionTokens := by
    rw [completionTokenIds, List.length_drop, numCompletionTokens, numTokens]
  have own : Continues oracle.next seq.promptTokenIds
      (seq.completionTokenIds ++ earlier ++ [final]) := by
    rw [stream_cons_self lives, completion_append prompt, split, List.append_assoc _ dropped,
      ← List.append_assoc _ _ (dropped ++ _), continues_append] at continues
    rw [List.append_assoc]
    exact continues.1
  have before : ∀ tokenId ∈ seq.completionTokenIds ++ earlier, ¬ StopsAt cfg seq tokenId := by
    intro tokenId member
    rcases List.mem_append.mp member with early | new
    · exact follows.clean unfinished tokenId early
    · exact clean tokenId new
  have ended : generate oracle.next (StopsAt cfg seq) seq.maxTokens seq.promptTokenIds =
      (seq.completionTokenIds ++ earlier ++ [final], decide (StopsAt cfg seq final)) := by
    refine generate_eq own before ?_ (cause.imp And.left fun limit => ?_)
    · rw [List.length_append, count]
      exact below
    · rw [List.length_append, count]
      omega
  have whole : generation cfg oracle seq.promptTokenIds seq.maxTokens seq.ignoreEos
      seq.stopTokenIds = (seq.completionTokenIds ++ earlier ++ [final],
        decide (StopsAt cfg seq final)) := ended
  rw [whole, completion_append prompt, List.append_assoc]
  refine ⟨rfl, ?_⟩
  rcases cause with ⟨stop, rfl⟩ | ⟨goes, _, rfl⟩
  · simp [stop]
  · simp [goes]

/-- One turn of `reconcile` touches the sequence of its row only. -/
theorem Reconciles.heap_of_ne {row : LaunchedRow} {tokens : List Token}
    {drafts : Option (List (List Token))} {after : Scheduler} {processed : Bool}
    (turn : Reconciles cfg s row tokens drafts after processed) {j : SeqId} (other : j ≠ row.seq) :
    after.heap j = s.heap j := by
  cases turn with
  | void => rfl
  | commit => exact setSeq_heap_of_ne s other _
  | stop _ _ _ _ _ _ ends => exact ends.frame.heap j other

/-- One turn of `reconcile` keeps requests on their references. -/
theorem Reconciles.follows {row : LaunchedRow} {sample : RowSample} {rows : List LaunchedRow}
    {drafts : Option (List (List Token))} {after : Scheduler} {processed : Bool}
    (turn : Reconciles cfg s row sample.tokens drafts after processed)
    (inv : s.Inv cfg s.running (row :: rows)) (answer : Answers row sample.tokens)
    (follows : (s.heap i).Follows cfg oracle ((row, sample) :: flight) i) :
    (after.heap i).Follows cfg oracle flight i ∧
      ((s.heap i).Closes cfg oracle → (after.heap i).Closes cfg oracle) := by
  by_cases own : i = row.seq
  · subst own
    have evolves := turn.evolves inv answer row.seq
    cases turn with
    | void void =>
        refine ⟨follows.same (.refl _) rfl fun unfinished => Or.inl ?_, id⟩
        have requeued := void.resolve_left unfinished
        rw [stream_cons_of_ne fun both => requeued both.2.symm]
    | @commit hashes spec lives member below clean hashed saved =>
        have isActive := (inv.running member).2.2.2
        rw [renew_heap_self]
        refine ⟨follows_commit follows isActive.unfinished_status lives below clean _ _ _, ?_⟩
        intro _ done
        exact absurd done isActive.unfinished_status
    | @stop hashes earlier dropped final why after lives member split below clean cause ends =>
        have isActive := (inv.running member).2.2.2
        obtain ⟨completion, reason⟩ := generation_of_stop follows isActive.unfinished_status lives
          split below clean cause
        obtain ⟨kvResult, record⟩ := ends.frame.record
        have status := ends.frame.status
        have tokens : (after.heap row.seq).tokenIds =
            (s.heap row.seq).tokenIds ++ (earlier ++ [final]) := by
          rcases record with record | record <;> rw [record] <;> rfl
        have why_eq : (after.heap row.seq).finishReason = some why := by
          rcases record with record | record <;> rw [record] <;> rfl
        have prompt := follows.prompt_le
        have complete : (after.heap row.seq).Complete cfg oracle := by
          rw [Complete, evolves.reference_eq prompt, completionTokenIds,
            evolves.numPromptTokens_eq, tokens, why_eq]
          exact ⟨completion, congrArg some reason⟩
        refine ⟨⟨?_, ?_, fun unfinished => absurd status unfinished,
          fun unfinished => absurd status unfinished⟩, fun _ _ => Or.inr complete⟩
        · rw [evolves.numPromptTokens_eq, numTokens, tokens, List.length_append]
          exact prompt.trans (Nat.le_add_right _ _)
        · rw [complete.1]
  · rw [turn.heap_of_ne own]
    refine ⟨follows.same (.refl _) rfl fun _ => Or.inl ?_, id⟩
    rw [stream_cons_of_ne fun both => own both.1.symm]

theorem ReconcilesAll.follows {later step : List LaunchedRow} {tokenIds : List (List Token)}
    {drafts : Option (List (List Token))} {stepped : List SeqId}
    (reconciles : ReconcilesAll cfg later s step tokenIds drafts last stepped)
    {flight later' : Flight} (stepEq : step = flight.rows) (tokensEq : tokenIds = flight.tokens)
    (follows : (s.heap i).Follows cfg oracle (flight ++ later') i) :
    (last.heap i).Follows cfg oracle later' i ∧
      ((s.heap i).Closes cfg oracle → (last.heap i).Closes cfg oracle) := by
  induction reconciles generalizing flight with
  | nil =>
      obtain rfl := List.map_eq_nil_iff.mp stepEq.symm
      exact ⟨follows, id⟩
  | @cons s next last row step tokens tokenIds drafts processed stepped inv answer turn nextInv
      others ih =>
      cases flight with
      | nil => exact absurd stepEq (by simp [Flight.rows])
      | cons launched flight =>
          obtain ⟨rfl, restEq⟩ := List.cons.inj stepEq
          obtain ⟨rfl, restTokens⟩ := List.cons.inj tokensEq
          obtain ⟨nextFollows, nextCloses⟩ := turn.follows inv answer follows
          obtain ⟨lastFollows, lastCloses⟩ := ih restEq restTokens nextFollows
          exact ⟨lastFollows, lastCloses ∘ nextCloses⟩

/-- `reconcile` commits new tokens to the sequences it processes and leaves the
others alone. -/
theorem ReconcilesAll.commits {later step : List LaunchedRow} {tokenIds : List (List Token)}
    {drafts : Option (List (List Token))} {stepped : List SeqId}
    (reconciles : ReconcilesAll cfg later s step tokenIds drafts last stepped)
    (distinct : (step.map LaunchedRow.seq).Nodup) (i : SeqId) :
    (i ∉ stepped → last.heap i = s.heap i) ∧
      (i ∈ stepped → ∃ new, (last.heap i).tokenIds = (s.heap i).tokenIds ++ new ∧
        (last.heap i).numNewTokens = new.length) := by
  induction reconciles with
  | nil => exact ⟨fun _ => rfl, by simp⟩
  | @cons s next last row step tokens tokenIds drafts processed stepped inv answer turn nextInv
      others ih =>
      rw [List.map_cons, List.nodup_cons] at distinct
      obtain ⟨kept, committed⟩ := ih distinct.2
      by_cases own : i = row.seq
      · subst own
        have notLater : row.seq ∉ stepped := fun member =>
          distinct.1 (others.retires.1.subset member)
        rw [kept notLater]
        cases turn with
        | void => exact ⟨fun _ => rfl, fun member => absurd member notLater⟩
        | commit =>
            refine ⟨fun outside => absurd List.mem_cons_self outside, fun _ => ?_⟩
            rw [renew_heap_self]
            exact ⟨tokens, rfl, rfl⟩
        | @stop hashes earlier dropped final why after _ _ _ _ _ _ ends =>
            refine ⟨fun outside => absurd List.mem_cons_self outside, fun _ => ?_⟩
            refine ⟨earlier ++ [final], ?_⟩
            obtain ⟨result, record | record⟩ := ends.frame.record <;> rw [record] <;>
              exact ⟨rfl, rfl⟩
      · rw [← turn.heap_of_ne own]
        have same : i ∈ (if processed then row.seq :: stepped else stepped) ↔ i ∈ stepped := by
          split
          · simp [own]
          · rfl
        rw [same]
        exact ⟨kept, committed⟩

end Scheduler

namespace LLMEngine

open Sequence

variable {cfg : Config} {oracle : Oracle} {engine : LLMEngine} {flight : Flight} {i : SeqId}

theorem Steps.follows {env : StepEnv} {s last : Scheduler} {runner : ModelRunner}
    {launch : Scheduler.Launch} {stepped : List SeqId}
    (steps : Steps cfg env s runner flight launch last stepped)
    (inv : s.Inv cfg s.running flight.rows) (wf : flight.Wf cfg)
    (device : flight = [] ∨ runner = flight.runner cfg) (greedy : env.Greedy oracle)
    (follows : (s.heap i).Follows cfg oracle flight i) :
    (last.heap i).Follows cfg oracle (launch.flight env) i ∧
      ((s.heap i).Closes cfg oracle → (last.heap i).Closes cfg oracle) := by
  cases steps with
  | sync mode reconciles settled launches =>
      obtain ⟨middle, closes⟩ := reconciles.follows rfl rfl
        (show (s.heap i).Follows cfg oracle (flight ++ []) i by rwa [List.append_nil])
      exact ⟨launches.follows settled (Flight.wf_nil cfg) (Or.inl rfl) greedy middle,
        fun closed => launches.closes settled middle.prompt_le (closes closed)⟩
  | async mode launches reconciles =>
      have middle := launches.follows inv wf device greedy follows
      obtain ⟨final, closes⟩ := reconciles.follows rfl rfl middle
      exact ⟨final, fun closed => closes (launches.closes inv follows.prompt_le closed)⟩

/-- A step commits what its output for a sequence says, and nothing to the
others. -/
theorem Steps.commits {env : StepEnv} {s last : Scheduler} {runner : ModelRunner}
    {launch : Scheduler.Launch} {stepped : List SeqId}
    (steps : Steps cfg env s runner flight launch last stepped)
    (inv : s.Inv cfg s.running flight.rows) (wf : flight.Wf cfg) (i : SeqId) :
    (i ∉ stepped → (last.heap i).tokenIds = (s.heap i).tokenIds) ∧
      (i ∈ stepped → ∃ new, (last.heap i).tokenIds = (s.heap i).tokenIds ++ new ∧
        (last.heap i).numNewTokens = new.length) := by
  have distinct : (flight.rows.map LaunchedRow.seq).Nodup := by
    simpa [Flight.rows, Function.comp_def] using wf.distinct
  cases steps with
  | sync mode reconciles settled launches =>
      obtain ⟨kept, committed⟩ := reconciles.commits distinct i
      have keeps := (launches.reported_keeps settled i).trans (launches.advances.keeps i).1
      rw [keeps.same, keeps.numNewTokens]
      exact ⟨fun outside => congrArg Sequence.tokenIds (kept outside), committed⟩
  | async mode launches reconciles =>
      obtain ⟨kept, committed⟩ := reconciles.commits distinct i
      have keeps := (launches.reported_keeps inv i).trans (launches.advances.keeps i).1
      rw [keeps.same] at committed
      exact ⟨fun outside => (congrArg Sequence.tokenIds (kept outside)).trans keeps.same, committed⟩

/-- The tokens an action returns for an admission. -/
def Action.returned (i : SeqId) : Action → List Token
  | .step _ outputs => (outputs.filter fun output => output.1 = i).flatMap fun output =>
      output.2.tokenIds
  | _ => []

theorem returned_step {env : StepEnv} {last : Scheduler} {stepped droppedSeqs : List SeqId}
    (distinct : stepped.Nodup) (i : SeqId) :
    Action.returned i (.step env (outputs last stepped droppedSeqs)) =
      if i ∈ stepped then (output last i).tokenIds else [] := by
  have quiet : ∀ dropped' : List SeqId, ((dropped'.map fun j => (j, dropped last j)).filter
      fun output => output.1 = i).flatMap (fun output => output.2.tokenIds) = [] := by
    intro dropped'
    rw [List.flatMap_eq_nil_iff]
    intro entry member
    obtain ⟨j, _, rfl⟩ := List.mem_map.mp (List.mem_filter.mp member).1
    rfl
  rw [Action.returned, outputs, List.filter_append, List.flatMap_append, quiet, List.append_nil,
    List.filter_map, List.flatMap_map]
  simp only [Function.comp_def]
  induction stepped with
  | nil => rfl
  | cons j stepped ih =>
      obtain ⟨notLater, later⟩ := List.nodup_cons.mp distinct
      by_cases own : j = i
      · subst own
        have none : stepped.filter (fun other => other = j) = [] := by
          rw [List.filter_eq_nil_iff]
          rintro other member same
          simp only [decide_eq_true_eq] at same
          exact notLater (same ▸ member)
        simp [none]
      · simpa [own, Ne.symm own] using ih later

end LLMEngine

namespace Sequence

/-- The record of a request for `prompt` with `params`. -/
structure Asks (prompt : List Token) (params : SamplingParams) (seq : Sequence) : Prop where
  prompt : seq.promptTokenIds = prompt
  maxTokens : seq.maxTokens = params.maxTokens
  ignoreEos : seq.ignoreEos = params.ignoreEos
  stopTokenIds : seq.stopTokenIds = params.stopTokenIds

variable {prompt : List Token} {params : SamplingParams} {seq after : Sequence}

theorem Asks.evolves (asks : seq.Asks prompt params) (evolves : Evolves seq after)
    (within : seq.numPromptTokens ≤ seq.numTokens) : after.Asks prompt params where
  prompt := (evolves.promptTokenIds_eq within).trans asks.prompt
  maxTokens := (congrArg Request.maxTokens evolves.request).trans asks.maxTokens
  ignoreEos := (congrArg Request.ignoreEos evolves.request).trans asks.ignoreEos
  stopTokenIds := (congrArg Request.stopTokenIds evolves.request).trans asks.stopTokenIds

end Sequence

namespace LLMEngine

open Sequence

variable {cfg : Config} {oracle : Oracle} {engine : LLMEngine} {flight : Flight} {i : SeqId}

/-! ## Runs -/

/-- The model answers a step greedily. -/
def Action.Greedy (oracle : Oracle) : Action → Prop
  | .step env _ => env.Greedy oracle
  | _ => True

/-- A step's output says that a request stopped or reached its limit. -/
def Action.Finishes (i : SeqId) (reason : FinishReason) : Action → Prop
  | .step _ outputs => ∃ output, (i, output) ∈ outputs ∧ output.finished = true ∧
      output.finishReason = some reason ∧ (reason = .stop ∨ reason = .length)
  | _ => False

/-- The account of the streams of a run. -/
structure Streamed (cfg : Config) (oracle : Oracle) (actions : List Action) (engine : LLMEngine)
    (flight : Flight) : Prop where
  follows : ∀ i, (engine.scheduler.heap i).Follows cfg oracle flight i
  asked : ∀ i prompt params requestId arrivalTime accepted,
    .add i prompt params requestId arrivalTime (.ok accepted) ∈ actions →
    i < engine.scheduler.counter ∧ (engine.scheduler.heap i).Asks prompt params
  returned : ∀ i, actions.flatMap (Action.returned i) =
    if i < engine.scheduler.counter then (engine.scheduler.heap i).completionTokenIds else []
  finishes : ∀ action ∈ actions, ∀ i reason, action.Finishes i reason →
    i < engine.scheduler.counter ∧ (engine.scheduler.heap i).status = .finished ∧
      (engine.scheduler.heap i).finishReason = some reason ∧
      (engine.scheduler.heap i).Complete cfg oracle

/-- What one action adds to the account. -/
structure Extends (cfg : Config) (oracle : Oracle) (engine : LLMEngine) (action : Action)
    (next : LLMEngine) (flight' : Flight) : Prop where
  follows : ∀ i, (next.scheduler.heap i).Follows cfg oracle flight' i
  asked : ∀ i prompt params requestId arrivalTime accepted,
    action = .add i prompt params requestId arrivalTime (.ok accepted) →
    i < next.scheduler.counter ∧ (next.scheduler.heap i).Asks prompt params
  returned : ∀ i, (if i < engine.scheduler.counter then
      (engine.scheduler.heap i).completionTokenIds else []) ++ action.returned i =
    if i < next.scheduler.counter then (next.scheduler.heap i).completionTokenIds else []
  finishes : ∀ i reason, action.Finishes i reason → i < next.scheduler.counter ∧
    (next.scheduler.heap i).status = .finished ∧
    (next.scheduler.heap i).finishReason = some reason ∧
    (next.scheduler.heap i).Complete cfg oracle

/-- A new record has generated nothing. -/
theorem fresh_follows (inv : engine.Inv cfg flight) {prompt : List Token}
    {params : SamplingParams} {requestId : RequestId} {arrivalTime : Nat} {hashes : List Hash} :
    (fresh prompt params requestId arrivalTime hashes).Follows cfg oracle flight
      engine.scheduler.counter := by
  have nothing : (fresh prompt params requestId arrivalTime hashes).completionTokenIds = [] := by
    simp [completionTokenIds, fresh]
  have none : flight.pendingTokens engine.scheduler.counter
      (fresh prompt params requestId arrivalTime hashes).numPreemptions = [] :=
    Flight.pendingTokens_eq_nil fun row member own =>
      absurd (inv.scheduler.launched row member).1 (by simp [own])
  refine ⟨Nat.le_refl _, ?_, fun _ => ?_, fun _ => ?_⟩
  · rw [nothing]
    exact List.nil_prefix
  · rw [stream, none, List.append_nil]
    show Continues _ _ (fresh prompt params requestId arrivalTime hashes).completionTokenIds
    rw [nothing]
    exact continues_nil _ _
  · simp [nothing]

/-- Creating a record extends no stream. -/
theorem extends_fresh (inv : engine.Inv cfg flight)
    (follows : ∀ i, (engine.scheduler.heap i).Follows cfg oracle flight i) {prompt : List Token}
    {params : SamplingParams} {requestId : RequestId} {arrivalTime : Nat} {hashes : List Hash}
    {next : LLMEngine} (requested : Option RequestId) (result : Except Fault RequestId)
    (counter : next.scheduler.counter = engine.scheduler.counter + 1)
    (heap : next.scheduler.heap = (engine.scheduler.setSeq engine.scheduler.counter
      (fresh prompt params requestId arrivalTime hashes)).heap) :
    Extends cfg oracle engine
      (.add engine.scheduler.counter prompt params requested arrivalTime result) next flight := by
  have own : next.scheduler.heap engine.scheduler.counter =
      fresh prompt params requestId arrivalTime hashes := by
    rw [heap]
    exact Scheduler.setSeq_heap_self _ _ _
  have others : ∀ i, i ≠ engine.scheduler.counter →
      next.scheduler.heap i = engine.scheduler.heap i := by
    intro i other
    rw [heap]
    exact Scheduler.setSeq_heap_of_ne _ other _
  refine ⟨fun i => ?_, ?_, fun i => ?_, fun i reason finishes => finishes.elim⟩
  · by_cases new : i = engine.scheduler.counter
    · rw [new, own]
      exact fresh_follows inv
    · rw [others i new]
      exact follows i
  · rintro i prompt' params' requested' arrivalTime' accepted ⟨⟩
    rw [own, counter]
    exact ⟨Nat.lt_succ_self _, ⟨by simp [promptTokenIds, fresh], rfl, rfl, rfl⟩⟩
  · rw [counter]
    refine (List.append_nil _).trans ?_
    rcases Nat.lt_trichotomy i engine.scheduler.counter with old | new | beyond
    · rw [if_pos old, if_pos (Nat.lt_succ_of_lt old), others i old.ne]
    · rw [new, if_neg (Nat.lt_irrefl _), if_pos (Nat.lt_succ_self _), own]
      simp [completionTokenIds, fresh]
    · rw [if_neg beyond.not_gt, if_neg (Nat.succ_le_of_lt beyond).not_gt]

theorem Adds.extends {prompt : List Token} {params : SamplingParams} {arrivalTime : Nat}
    {next : LLMEngine} {result : Except Fault RequestId} (requested : Option RequestId)
    (adds : Adds cfg engine prompt params arrivalTime next result) (inv : engine.Inv cfg flight)
    (follows : ∀ i, (engine.scheduler.heap i).Follows cfg oracle flight i) :
    Extends cfg oracle engine
      (.add engine.scheduler.counter prompt params requested arrivalTime result) next flight := by
  cases adds with
  | refuse fault =>
      exact ⟨follows, fun _ _ _ _ _ _ added => (by cases added), fun i => List.append_nil _,
        fun _ _ finishes => finishes.elim⟩
  | duplicate requestId hashes valid known => exact extends_fresh inv follows _ _ rfl rfl
  | accept requestId hashes valid isQueued fresh => exact extends_fresh inv follows _ _ rfl rfl

theorem Aborts.extends {requestId : RequestId} {reason : FinishReason} {next : LLMEngine}
    {aborted : Bool} (aborts : Aborts cfg engine flight requestId reason next aborted)
    (follows : ∀ i, (engine.scheduler.heap i).Follows cfg oracle flight i) (i : Option SeqId) :
    Extends cfg oracle engine (.abort i requestId reason aborted) next flight := by
  have evolves := aborts.evolves
  have kept : next.scheduler.counter = engine.scheduler.counter ∧ ∀ j,
      next.scheduler.heap j = engine.scheduler.heap j ∨
        (next.scheduler.heap j).tokenIds = (engine.scheduler.heap j).tokenIds ∧
          (next.scheduler.heap j).status = .finished := by
    cases aborts with
    | missing absent => exact ⟨rfl, fun j => Or.inl rfl⟩
    | @abort i after found ends =>
        rcases ends with ⟨plays, rfl⟩ | ⟨plays, ends⟩
        · refine ⟨rfl, fun j => ?_⟩
          by_cases own : j = i
          · subst own
            exact Or.inr (by simp [Scheduler.cancel])
          · exact Or.inl (Scheduler.setSeq_heap_of_ne _ own _)
        · refine ⟨ends.frame.counter, fun j => ?_⟩
          by_cases own : j = i
          · subst own
            obtain ⟨result, record | record⟩ := ends.frame.record <;> rw [record] <;>
              exact Or.inr ⟨rfl, rfl⟩
          · exact Or.inl (ends.frame.heap j own)
  refine ⟨fun j => ?_, fun _ _ _ _ _ _ added => (by cases added), fun j => ?_,
    fun _ _ finishes => finishes.elim⟩
  · rcases kept.2 j with same | ⟨tokens, finished⟩
    · rw [same]
      exact follows j
    · exact (follows j).finish (evolves j) tokens finished
  · have tokens : (next.scheduler.heap j).tokenIds = (engine.scheduler.heap j).tokenIds :=
      (kept.2 j).elim (congrArg Sequence.tokenIds) And.left
    rw [kept.1, (evolves j).completionTokenIds_eq tokens]
    exact List.append_nil _

theorem Steps.extends {env : StepEnv} {launch : Scheduler.Launch} {last : Scheduler}
    {stepped : List SeqId} {next : LLMEngine}
    (steps : Steps cfg env engine.scheduler engine.runner flight launch last stepped)
    (inv : engine.Inv cfg flight) (nextInv : next.Inv cfg (launch.flight env))
    (lastEq : next.scheduler = last) (greedy : env.Greedy oracle)
    (follows : ∀ i, (engine.scheduler.heap i).Follows cfg oracle flight i) :
    Extends cfg oracle engine (.step env (outputs last stepped launch.output.dropped)) next
      (launch.flight env) := by
  subst lastEq
  have settles := steps.settles inv.scheduler inv.wf nextInv.scheduler
  have counter := settles.counter
  have device := inv.carried.imp And.right And.right
  have tracks := fun i => steps.follows inv.scheduler inv.wf device greedy (follows i)
  have known : ∀ i ∈ (outputs next.scheduler stepped launch.output.dropped).map Prod.fst,
      i < engine.scheduler.counter ∧ (engine.scheduler.heap i).status ≠ .finished := by
    intro i member
    obtain ⟨requestId, found⟩ := Dict.mem_values_iff.mp (settles.live i member)
    obtain ⟨_, below, _⟩ := inv.scheduler.known_of_lookup (Or.inl found)
    refine ⟨below, ?_⟩
    rcases (inv.scheduler.live found).2 with plays | plays | plays
    · exact plays.2.2.2.1.unfinished_status
    · exact plays.2.2.2.unfinished_status
    · simp [plays.2.2.2.1]
  refine ⟨fun i => (tracks i).1, fun _ _ _ _ _ _ added => (by cases added), fun i => ?_, ?_⟩
  · have distinct : stepped.Nodup := by
      have nodup := settles.nodup
      rw [map_fst_outputs] at nodup
      exact (List.nodup_append'.mp nodup).1
    rw [returned_step distinct, counter]
    obtain ⟨kept, committed⟩ := steps.commits inv.scheduler inv.wf i
    have evolves := steps.evolves inv.scheduler i
    by_cases early : i ∈ stepped
    · have below := (known i (by rw [map_fst_outputs]; exact List.mem_append_left _ early)).1
      obtain ⟨new, tokens, count⟩ := committed early
      rw [if_pos early, if_pos below, if_pos below, completionTokenIds, completionTokenIds,
        evolves.numPromptTokens_eq, tokens,
        List.drop_append_of_le_length (follows i).prompt_le]
      simp [output, tokens, count]
    · rw [if_neg early, List.append_nil, evolves.completionTokenIds_eq (kept early)]
  · rintro i reason ⟨output, member, finished, why, stopped⟩
    obtain ⟨below, unfinished⟩ := known i (List.mem_map.mpr ⟨_, member, rfl⟩)
    obtain ⟨finishedEq, whyEq⟩ := settles.told _ member
    rw [finishedEq] at finished
    rw [whyEq] at why
    have done : (next.scheduler.heap i).status = .finished := by
      simpa [Sequence.isFinished] using finished
    refine ⟨counter ▸ below, done, why, ?_⟩
    rcases (tracks i).2 (fun already => absurd already unfinished) done with capacity | complete
    · rw [capacity] at why
      rcases stopped with rfl | rfl <;> cases why
    · exact complete

theorem Acts.extends {action : Action} {next : LLMEngine} {flight' : Flight}
    (acts : Acts cfg engine flight action next flight') (inv : engine.Inv cfg flight)
    (nextInv : next.Inv cfg flight') (greedy : action.Greedy oracle)
    (follows : ∀ i, (engine.scheduler.heap i).Follows cfg oracle flight i) :
    Extends cfg oracle engine action next flight' := by
  cases acts with
  | add adds => exact adds.extends _ inv follows
  | abort aborts => exact aborts.extends follows _
  | step answers steps => exact steps.extends inv nextInv rfl greedy follows

theorem streamed_create (cfg : Config) (oracle : Oracle) : Streamed cfg oracle [] (create cfg) [] where
  follows i := by
    have nothing : ((create cfg).scheduler.heap i).completionTokenIds = [] := rfl
    refine ⟨Nat.le_refl _, ?_, fun _ => continues_nil _ _, fun _ => ?_⟩
    · rw [nothing]
      exact List.nil_prefix
    · simp [nothing]
  asked := by simp
  returned i := rfl
  finishes := by simp

/-- An action keeps the account of the streams. -/
theorem Streamed.snoc {actions : List Action} {action : Action} {next : LLMEngine}
    {flight' : Flight} (streamed : Streamed cfg oracle actions engine flight)
    (extend : Extends cfg oracle engine action next flight')
    (counter : engine.scheduler.counter ≤ next.scheduler.counter)
    (evolves : ∀ j, j ≠ engine.scheduler.counter →
      Evolves (engine.scheduler.heap j) (next.scheduler.heap j)) :
    Streamed cfg oracle (actions ++ [action]) next flight' := by
  refine ⟨extend.follows, ?_, ?_, ?_⟩
  · intro i prompt params requestId arrivalTime accepted member
    rcases List.mem_append.mp member with early | new
    · obtain ⟨below, asks⟩ := streamed.asked _ _ _ _ _ _ early
      exact ⟨below.trans_le counter, asks.evolves (evolves i below.ne) (streamed.follows i).prompt_le⟩
    · exact extend.asked _ _ _ _ _ _ (List.mem_singleton.mp new).symm
  · intro i
    rw [List.flatMap_append, List.flatMap_singleton, streamed.returned i]
    exact extend.returned i
  · intro other member i reason finishes
    rcases List.mem_append.mp member with early | new
    · obtain ⟨below, done, why, complete⟩ := streamed.finishes other early i reason finishes
      have later := evolves i below.ne
      obtain ⟨stays, kept, _⟩ := later.finished done
      exact ⟨below.trans_le counter, stays, kept.trans why,
        complete.evolves later (streamed.follows i).prompt_le done⟩
    · rw [List.mem_singleton.mp new] at finishes
      exact extend.finishes i reason finishes

theorem Run.streamed {actions : List Action} (run : Run cfg actions engine)
    (greedy : ∀ action ∈ actions, action.Greedy oracle) :
    ∃ flight, engine.Inv cfg flight ∧ Streamed cfg oracle actions engine flight :=
  Run.invariant (Action.Greedy oracle) (Streamed cfg oracle) (streamed_create cfg oracle)
    (fun _ _ _ _ _ _ inv streamed greedy acts nextInv =>
      streamed.snoc (acts.extends inv nextInv greedy streamed.follows)
        (acts.balances inv nextInv).counter fun _ old => acts.evolves inv old)
    run greedy

end LLMEngine

end LeanVllm
