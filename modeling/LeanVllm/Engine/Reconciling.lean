import LeanVllm.Engine.Launching

/-!
# Reconciling a launched step

`reconcile` commits the tokens of a step's rows in order.  A row whose sequence
finished or was requeued since the launch is void; a stop ends the sequence and
drops the tokens after it.
-/

namespace LeanVllm

open Collections

namespace Sequence

/-- The record after a row's tokens are committed and its rejected drafts are
given back. -/
def committed (seq : Sequence) (numRejected : Nat) (tokens : List Token)
    (hashes : List Hash) : Sequence :=
  { seq with
    tokenIds := seq.tokenIds ++ tokens
    numCachedTokens := seq.numCachedTokens - numRejected
    numPendingTokens := seq.numPendingTokens - numRejected - tokens.length
    numNewTokens := tokens.length
    blockHashes := hashes }

variable {cfg : Config} {seq : Sequence}

/-- Committing a row's tokens keeps a decoding sequence active, with the later
reservations left. -/
theorem Active.committed {numDrafts later : Nat}
    (active : seq.Active cfg (1 + numDrafts + later)) (decoding : seq.isPrefill = false)
    {tokens : List Token} (some : 1 ≤ tokens.length) (few : tokens.length ≤ 1 + numDrafts)
    (below : seq.numCompletionTokens + tokens.length < seq.maxTokens) {hashes : List Hash}
    (hashed : (seq.committed (numDrafts - (tokens.length - 1)) tokens hashes).Hashed cfg)
    {spec : List Token} (drafts : spec.length ≤ cfg.numSpeculativeTokens) :
    { seq.committed (numDrafts - (tokens.length - 1)) tokens hashes with
      specTokenIds := spec }.Active cfg later := by
  have pending := active.pending
  have frontier := (active.decoding decoding).1
  have prompt := active.prompt_le
  have published := active.published_le
  have planned := active.planned_le
  have covered := active.covered
  have total : (seq.tokenIds ++ tokens).length = seq.numTokens + tokens.length := by
    simp [numTokens]
  simp only [numPlannedTokens] at frontier planned
  exact
    { prompt_pos := active.prompt_pos
      prompt_le := by
        simp only [Sequence.committed, numTokens, total] at prompt ⊢
        omega
      hashed := hashed
      status := active.status
      pending := by
        simp only [Sequence.committed]
        omega
      unfinished := by
        simp only [Sequence.committed, numCompletionTokens, numTokens, total] at below prompt ⊢
        omega
      planned_le := by
        simp only [Sequence.committed, numPlannedTokens, numTokens, total] at planned ⊢
        omega
      prefilling := fun prefill => absurd (decoding.symm.trans prefill) (by simp)
      decoding := fun _ => by
        refine ⟨?_, drafts⟩
        simp only [Sequence.committed, numPlannedTokens, numTokens, total] at frontier ⊢
        omega
      covered := (Nat.sub_le _ _).trans covered
      published_le := by
        simp only [Sequence.committed, numTokens, total] at published frontier ⊢
        omega
      loaded := active.loaded }

end Sequence

namespace Scheduler

variable {cfg : Config} {s : Scheduler} {active : List SeqId} {rows : List LaunchedRow}
  {i : SeqId}

/-! ## Committing tokens -/

/-- The tokens that end a sequence wherever they fall. -/
def StopsAt (cfg : Config) (seq : Sequence) (tokenId : Token) : Prop :=
  (tokenId = cfg.eos ∧ ¬ seq.ignoreEos) ∨ tokenId ∈ seq.stopTokenIds

/-- `reconcile`'s loop over a row's tokens commits them up to the first stop,
and finds its reason. -/
theorem commitTokens_spec (tokens : List Token) (seq : Sequence) (hashed : seq.Hashed cfg)
    (reserved : tokens.length ≤ seq.numPendingTokens)
    (prompt : seq.numPromptTokens ≤ seq.numTokens)
    (unfinished : seq.numCompletionTokens < seq.maxTokens) :
    ∃ committed dropped hashes reason, tokens = committed ++ dropped ∧
      commitTokens cfg tokens seq = .ok
        ({ seq with
            tokenIds := seq.tokenIds ++ committed
            numPendingTokens := seq.numPendingTokens - committed.length
            numNewTokens := seq.numNewTokens + committed.length
            blockHashes := hashes }, reason) ∧
      Sequence.Hashed cfg
        { seq with
          tokenIds := seq.tokenIds ++ committed
          numPendingTokens := seq.numPendingTokens - committed.length
          numNewTokens := seq.numNewTokens + committed.length
          blockHashes := hashes } ∧
      (reason = none → dropped = [] ∧
        seq.numCompletionTokens + committed.length < seq.maxTokens ∧
        ∀ tokenId ∈ committed, ¬ StopsAt cfg seq tokenId) ∧
      (∀ why, reason = some why → ∃ earlier final, committed = earlier ++ [final] ∧
        seq.numCompletionTokens + earlier.length < seq.maxTokens ∧
        (∀ tokenId ∈ earlier, ¬ StopsAt cfg seq tokenId) ∧
        (StopsAt cfg seq final ∧ why = .stop ∨ ¬ StopsAt cfg seq final ∧
          seq.numCompletionTokens + committed.length = seq.maxTokens ∧ why = .length)) := by
  induction tokens generalizing seq with
  | nil =>
      refine ⟨[], [], seq.blockHashes, none, rfl, by simp [commitTokens], ?_, ?_, by simp⟩
      · simpa using hashed
      · exact fun _ => ⟨rfl, by simpa using unfinished, by simp⟩
  | cons tokenId rest ih =>
      rw [List.length_cons] at reserved
      obtain ⟨hashes, committedEq, hashedNext⟩ :=
        Sequence.commitToken_eq hashed (show seq.numPendingTokens ≠ 0 by omega) tokenId
      let next : Sequence := { seq with
        tokenIds := seq.tokenIds ++ [tokenId]
        numPendingTokens := seq.numPendingTokens - 1
        numNewTokens := seq.numNewTokens + 1
        blockHashes := hashes }
      have limit : next.maxTokens = seq.maxTokens := rfl
      have completion : next.numCompletionTokens = seq.numCompletionTokens + 1 := by
        simp only [Sequence.numCompletionTokens, Sequence.numTokens, next,
          List.length_append, List.length_singleton] at prompt ⊢
        omega
      have code : commitTokens cfg (tokenId :: rest) seq =
          (stopReason cfg next tokenId).elim (commitTokens cfg rest next)
            fun reason => .ok (next, some reason) := by
        simp only [commitTokens, committedEq, bind, Except.bind]
        rw [show stopReason cfg { seq with
          tokenIds := seq.tokenIds ++ [tokenId]
          numPendingTokens := seq.numPendingTokens - 1
          numNewTokens := seq.numNewTokens + 1
          blockHashes := hashes } tokenId = stopReason cfg next tokenId from rfl]
        cases stopReason cfg next tokenId <;> rfl
      rw [code]
      cases stopped : stopReason cfg next tokenId with
      | some why =>
          refine ⟨[tokenId], rest, hashes, some why, rfl, rfl, hashedNext, by simp, ?_⟩
          rintro _ ⟨rfl⟩
          refine ⟨[], tokenId, rfl, by simpa using unfinished, by simp, ?_⟩
          unfold stopReason at stopped
          split at stopped
          · rename_i stops
            exact Or.inl ⟨stops, (Option.some.inj stopped).symm⟩
          · rename_i goesOn
            split at stopped
            · rename_i reached
              refine Or.inr ⟨goesOn, ?_, (Option.some.inj stopped).symm⟩
              rw [completion] at reached
              exact reached
            · contradiction
      | none =>
          obtain ⟨goesOn, below⟩ : ¬ StopsAt cfg seq tokenId ∧
              seq.numCompletionTokens + 1 ≠ seq.maxTokens := by
            unfold stopReason at stopped
            split at stopped
            · contradiction
            · rename_i goesOn
              split at stopped
              · contradiction
              · rename_i below
                exact ⟨goesOn, completion ▸ below⟩
          obtain ⟨committed, dropped, moreHashes, reason, restEq, looped, hashedLast, ends,
            stops⟩ := ih next hashedNext (show rest.length ≤ seq.numPendingTokens - 1 by omega)
              (show seq.numPromptTokens ≤ (seq.tokenIds ++ [tokenId]).length by
                simp only [Sequence.numTokens] at prompt
                simp only [List.length_append]
                omega)
              (by rw [completion]; exact Nat.lt_of_le_of_ne unfinished below)
          have recordEq :
              ({ next with
                tokenIds := next.tokenIds ++ committed
                numPendingTokens := next.numPendingTokens - committed.length
                numNewTokens := next.numNewTokens + committed.length
                blockHashes := moreHashes } : Sequence) =
              { seq with
                tokenIds := seq.tokenIds ++ (tokenId :: committed)
                numPendingTokens := seq.numPendingTokens - (tokenId :: committed).length
                numNewTokens := seq.numNewTokens + (tokenId :: committed).length
                blockHashes := moreHashes } := by
            simp only [next, List.append_assoc, List.singleton_append, List.length_cons,
              Nat.sub_sub, Nat.add_assoc, Nat.add_comm 1]
          rw [recordEq] at looped hashedLast
          refine ⟨tokenId :: committed, dropped, moreHashes, reason, by rw [restEq]; rfl, looped,
            hashedLast, ?_, ?_⟩
          · intro none
            obtain ⟨all, short, clean⟩ := ends none
            refine ⟨all, ?_, ?_⟩
            · rw [completion] at short
              rw [List.length_cons]
              exact (Nat.le_of_eq (by omega)).trans_lt short
            · intro other member
              rcases List.mem_cons.mp member with rfl | later
              · exact goesOn
              · exact clean other later
          · intro why some
            obtain ⟨earlier, final, split, short, clean, cause⟩ := stops why some
            rw [completion] at short cause
            refine ⟨tokenId :: earlier, final, by rw [split]; rfl, ?_, ?_, ?_⟩
            · rw [List.length_cons]
              omega
            · intro other member
              rcases List.mem_cons.mp member with rfl | later
              · exact goesOn
              · exact clean other later
            · rw [List.length_cons]
              refine cause.imp_right fun full => ⟨full.1, ?_, full.2.2⟩
              have reached := full.2.1
              omega

/-- What one turn of `reconcile` does: skip a void row, commit its tokens, or
commit them up to a stop and end the sequence. -/
inductive Reconciles (cfg : Config) (s : Scheduler) (row : LaunchedRow) (tokens : List Token)
    (drafts : Option (List (List Token))) : Scheduler → Bool → Prop
  | void
      (void : (s.heap row.seq).status = .finished ∨
        (s.heap row.seq).numPreemptions ≠ row.numPreemptions) :
      Reconciles cfg s row tokens drafts s false
  | commit {hashes : List Hash} {spec : List Token}
      (lives : (s.heap row.seq).numPreemptions = row.numPreemptions)
      (member : row.seq ∈ s.running)
      (below : (s.heap row.seq).numCompletionTokens + tokens.length <
        (s.heap row.seq).maxTokens)
      (clean : ∀ tokenId ∈ tokens, ¬ StopsAt cfg (s.heap row.seq) tokenId)
      (hashed : ((s.heap row.seq).committed
        (row.numDraftTokens - (tokens.length - 1)) tokens hashes).Hashed cfg)
      (saved : spec = (s.heap row.seq).specTokenIds ∧
          (drafts = none ∨ (s.heap row.seq).numPendingTokens ≠ 1 + row.numDraftTokens) ∨
        (∃ others, drafts = some (spec :: others)) ∧
          (s.heap row.seq).numPendingTokens = 1 + row.numDraftTokens) :
      Reconciles cfg s row tokens drafts
        (s.renew row.seq
          { (s.heap row.seq).committed (row.numDraftTokens - (tokens.length - 1)) tokens hashes with
            specTokenIds := spec } s.blockManager) true
  | stop {hashes : List Hash} {earlier dropped : List Token} {final : Token}
      {why : FinishReason} {after : Scheduler}
      (lives : (s.heap row.seq).numPreemptions = row.numPreemptions)
      (member : row.seq ∈ s.running) (split : tokens = earlier ++ [final] ++ dropped)
      (below : (s.heap row.seq).numCompletionTokens + earlier.length <
        (s.heap row.seq).maxTokens)
      (clean : ∀ tokenId ∈ earlier, ¬ StopsAt cfg (s.heap row.seq) tokenId)
      (cause : StopsAt cfg (s.heap row.seq) final ∧ why = .stop ∨
        ¬ StopsAt cfg (s.heap row.seq) final ∧
          (s.heap row.seq).numCompletionTokens + (earlier.length + 1) =
            (s.heap row.seq).maxTokens ∧ why = .length)
      (ends : Ends cfg s row.seq
        (((s.heap row.seq).committed (row.numDraftTokens - (tokens.length - 1))
          (earlier ++ [final]) hashes).closed why) after) :
      Reconciles cfg s row tokens drafts after true

/-- A row that is not void belongs to a decoding sequence with that many
tokens reserved. -/
theorem Inv.valid {row : LaunchedRow} (inv : s.Inv cfg active (row :: rows))
    (unfinished : (s.heap row.seq).status ≠ .finished)
    (lives : (s.heap row.seq).numPreemptions = row.numPreemptions) :
    row.seq ∈ active ∧ (s.heap row.seq).isPrefill = false ∧
      (s.heap row.seq).numPendingTokens =
        1 + row.numDraftTokens + due rows row.seq row.numPreemptions := by
  have member := (inv.launched row List.mem_cons_self).2.2 unfinished lives.symm
  have isActive := (inv.running member).2.2.2
  have pending : (s.heap row.seq).numPendingTokens =
      1 + row.numDraftTokens + due rows row.seq row.numPreemptions := by
    rw [isActive.pending, due_cons, lives, if_pos ⟨rfl, rfl⟩]
  refine ⟨member, ?_, pending⟩
  by_contra prefill
  have := (isActive.prefilling (by simpa using prefill)).1
  omega

/-- `_drop` on a sequence just taken from `running`. -/
theorem dropRunning_eq (seq : Sequence) (live : s.seqs.lookup (s.heap i).requestId = some i)
    (idEq : seq.requestId = (s.heap i).requestId) (notQueued : i ∉ s.waiting)
    (reason : FinishReason) :
    { s.setSeq i seq with running := s.running.erase i }.drop i reason =
      .ok (s.discard i (seq.closed reason) s.blockManager) := by
  have heapEq : Scheduler.heap { s.setSeq i seq with running := s.running.erase i } i = seq :=
    setSeq_heap_self s i seq
  rw [drop_eq (by rw [heapEq, idEq]; exact live), heapEq, idEq]
  simp [discard, setSeq, List.erase_of_not_mem notQueued]

/-- Reconciling the first row in flight succeeds and keeps the invariant. -/
theorem reconcileRow_spec {row : LaunchedRow} (inv : s.Inv cfg s.running (row :: rows))
    {tokens : List Token} (nonempty : 1 ≤ tokens.length)
    (few : tokens.length ≤ 1 + row.numDraftTokens) (drafts : Option (List (List Token)))
    (sized : ∀ lists, drafts = some lists → ∃ own others, lists = own :: others ∧
      own.length ≤ cfg.numSpeculativeTokens) :
    ∃ after processed, s.reconcileRow cfg row tokens drafts = .ok (after, processed) ∧
      Reconciles cfg s row tokens drafts after processed ∧ after.Inv cfg after.running rows := by
  by_cases void : (s.heap row.seq).isFinished ∨
      (s.heap row.seq).numPreemptions ≠ row.numPreemptions
  · have void' : (s.heap row.seq).status = .finished ∨
        (s.heap row.seq).numPreemptions ≠ row.numPreemptions := by
      simpa [Sequence.isFinished] using void
    exact ⟨s, false, if_pos void, .void void', inv.dropVoid void'⟩
  · obtain ⟨unfinished, lives⟩ : (s.heap row.seq).status ≠ .finished ∧
        (s.heap row.seq).numPreemptions = row.numPreemptions := by
      simpa [Sequence.isFinished] using void
    obtain ⟨member, decoding, pending⟩ := inv.valid unfinished lives
    have plays := inv.running member
    obtain ⟨notQueued, _, ⟨live, _⟩, isActive⟩ := id plays
    let numRejected := row.numDraftTokens - (tokens.length - 1)
    let start : Sequence := { s.heap row.seq with
      numCachedTokens := (s.heap row.seq).numCachedTokens - numRejected
      numPendingTokens := (s.heap row.seq).numPendingTokens - numRejected
      numNewTokens := 0 }
    have reserved : tokens.length ≤ start.numPendingTokens := by
      simp only [start, numRejected]
      omega
    obtain ⟨accepted, dropped, hashes, reason, split, committed, hashed, goesOn, stops⟩ :=
      commitTokens_spec tokens start isActive.hashed reserved isActive.prompt_le
        isActive.unfinished
    have recordEq :
        ({ start with
          tokenIds := start.tokenIds ++ accepted
          numPendingTokens := start.numPendingTokens - accepted.length
          numNewTokens := start.numNewTokens + accepted.length
          blockHashes := hashes } : Sequence) =
        (s.heap row.seq).committed numRejected accepted hashes := by
      simp only [start, Sequence.committed, Nat.zero_add]
    rw [recordEq] at committed hashed
    have committedCode : commitTokens cfg tokens { s.heap row.seq with
        numCachedTokens := (s.heap row.seq).numCachedTokens -
          (row.numDraftTokens - (tokens.length - 1))
        numPendingTokens := (s.heap row.seq).numPendingTokens -
          (row.numDraftTokens - (tokens.length - 1))
        numNewTokens := 0 } =
        .ok ((s.heap row.seq).committed numRejected accepted hashes, reason) := committed
    cases reason with
    | none =>
        obtain ⟨rfl, below, clean⟩ := goesOn rfl
        rw [List.append_nil] at split
        subst split
        have reservedEq : due (row :: rows) row.seq (s.heap row.seq).numPreemptions =
            1 + row.numDraftTokens + due rows row.seq (s.heap row.seq).numPreemptions := by
          rw [due_cons, if_pos ⟨rfl, lives.symm⟩]
        have renewed : ∀ spec : List Token, spec.length ≤ cfg.numSpeculativeTokens →
            (s.renew row.seq
              { (s.heap row.seq).committed numRejected tokens hashes with specTokenIds := spec }
              s.blockManager).Inv cfg s.running rows := by
          intro spec drafts
          refine inv.renew member ?_ (fun _ => Or.inl ∘ List.mem_cons_of_mem row) rfl rfl
            ((reservedEq ▸ isActive).committed decoding nonempty few below hashed drafts)
            (inv.split plays) (fun _ _ unpublished => unpublished)
            (inv.unpublished row.seq (Or.inl member))
          intro j different k
          rw [due_cons, if_neg fun own => different own.1.symm, Nat.zero_add]
        have kept := (isActive.decoding decoding).2
        cases drafts with
        | none =>
            refine ⟨_, true, ?_, .commit lives member below clean hashed
              (Or.inl ⟨rfl, Or.inl rfl⟩), renewed _ kept⟩
            refine (if_neg void).trans ?_
            simp only [bind, Except.bind]
            rw [committedCode]
            rfl
        | some lists =>
            obtain ⟨own, others, rfl, short⟩ := sized lists rfl
            by_cases left :
                ((s.heap row.seq).committed numRejected tokens hashes).numPendingTokens ≠ 0
            · have more : (s.heap row.seq).numPendingTokens ≠ 1 + row.numDraftTokens := by
                simp only [Sequence.committed, numRejected, ne_eq] at left
                omega
              refine ⟨_, true, ?_, .commit lives member below clean hashed
                (Or.inl ⟨rfl, Or.inr more⟩), renewed _ kept⟩
              refine (if_neg void).trans ?_
              simp only [bind, Except.bind]
              rw [committedCode]
              exact if_pos left
            · have settled : (s.heap row.seq).numPendingTokens = 1 + row.numDraftTokens := by
                simp only [Sequence.committed, numRejected, ne_eq, not_not] at left
                omega
              refine ⟨_, true, ?_, .commit lives member below clean hashed
                (Or.inr ⟨⟨others, rfl⟩, settled⟩), renewed own short⟩
              refine (if_neg void).trans ?_
              simp only [bind, Except.bind]
              rw [committedCode]
              exact if_neg left
    | some why =>
        obtain ⟨earlier, final, rfl, below, clean, cause⟩ := stops why rfl
        let final' : Sequence :=
          ((s.heap row.seq).committed numRejected (earlier ++ [final]) hashes).closed why
        obtain ⟨bm, freed, _⟩ := inv.release plays (Or.inl rfl)
        obtain ⟨after, freeEq, ends⟩ := free_discard cfg
          (show final'.blockTable = (s.heap row.seq).blockTable from rfl) rfl freed
        rw [List.length_append, List.length_singleton] at cause
        refine ⟨after, true, ?_, .stop lives member split below clean cause ends, ?_⟩
        · have discarded := dropRunning_eq
            ((s.heap row.seq).committed numRejected (earlier ++ [final]) hashes).dropPending live
            rfl notQueued why
          have ended : (do
              let s ← { s.setSeq row.seq ((s.heap row.seq).committed numRejected
                (earlier ++ [final]) hashes).dropPending with
                  running := s.running.erase row.seq }.drop row.seq why
              let s ← s.free cfg row.seq
              Except.ok (s, true)) = .ok (after, true) := by
            rw [discarded]
            simp only [bind, Except.bind]
            rw [show ((s.heap row.seq).committed numRejected (earlier ++ [final])
              hashes).dropPending.closed why = final' from rfl, freeEq]
          refine (if_neg void).trans ?_
          simp only [bind, Except.bind]
          rw [committedCode]
          simp only [SchedulingPolicy.remove_of_mem (show row.seq ∈ (s.setSeq row.seq _).running
            from member)]
          exact ended
        · have ended := ends.inv inv (Or.inr plays) rfl rfl rfl rfl
          rw [ends.frame.running]
          exact ended.dropVoid (Or.inl ends.frame.status)

/-- A row is answered by at least one token and at most one more than it
verifies. -/
def Answers (row : LaunchedRow) (tokens : List Token) : Prop :=
  1 ≤ tokens.length ∧ tokens.length ≤ 1 + row.numDraftTokens

/-- The turns of `reconcile` over a launched step, with the rows `later` still
in flight. -/
inductive ReconcilesAll (cfg : Config) (later : List LaunchedRow) : Scheduler →
    List LaunchedRow → List (List Token) → Option (List (List Token)) → Scheduler →
    List SeqId → Prop
  | nil {s : Scheduler} {drafts : Option (List (List Token))} :
      ReconcilesAll cfg later s [] [] drafts s []
  | cons {s next last : Scheduler} {row : LaunchedRow} {rows : List LaunchedRow}
      {tokens : List Token} {tokenIds : List (List Token)}
      {drafts : Option (List (List Token))} {processed : Bool} {stepped : List SeqId}
      (inv : s.Inv cfg s.running (row :: rows ++ later)) (answer : Answers row tokens)
      (turn : Reconciles cfg s row tokens drafts next processed)
      (nextInv : next.Inv cfg next.running (rows ++ later))
      (others : ReconcilesAll cfg later next rows tokenIds (drafts.map List.tail) last stepped) :
      ReconcilesAll cfg later s (row :: rows) (tokens :: tokenIds) drafts last
        (if processed then row.seq :: stepped else stepped)

/-- Reconciling a launched step succeeds, and leaves the later rows in
flight. -/
theorem reconcile_spec {step later : List LaunchedRow} {tokenIds : List (List Token)}
    (inv : s.Inv cfg s.running (step ++ later)) (answers : List.Forall₂ Answers step tokenIds)
    (drafts : Option (List (List Token)))
    (sized : ∀ lists, drafts = some lists → lists.length = step.length ∧
      ∀ own ∈ lists, own.length ≤ cfg.numSpeculativeTokens) :
    ∃ last stepped, s.reconcile cfg step tokenIds drafts = .ok (last, stepped) ∧
      ReconcilesAll cfg later s step tokenIds drafts last stepped ∧
      last.Inv cfg last.running later := by
  induction answers generalizing s drafts with
  | nil => exact ⟨s, [], rfl, .nil, inv⟩
  | @cons row tokens step tokenIds answer _ ih =>
      obtain ⟨next, processed, turned, turn, nextInv⟩ := reconcileRow_spec inv answer.1 answer.2
        drafts (by
          intro lists some
          obtain ⟨length, short⟩ := sized lists some
          cases lists with
          | nil => simp at length
          | cons own others => exact ⟨own, others, rfl, short own List.mem_cons_self⟩)
      obtain ⟨last, stepped, looped, reconciles, lastInv⟩ := ih nextInv
        (drafts.map List.tail) (by
          intro lists some
          obtain ⟨whole, rfl, rfl⟩ := Option.map_eq_some_iff.mp some
          obtain ⟨length, short⟩ := sized whole rfl
          exact ⟨by simp [length], fun own member => short own (List.mem_of_mem_tail member)⟩)
      refine ⟨last, _, ?_, .cons inv answer turn nextInv reconciles, lastInv⟩
      simp only [reconcile, turned, looped, bind, Except.bind]

end Scheduler

end LeanVllm
