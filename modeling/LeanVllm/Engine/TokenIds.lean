import LeanVllm.Engine.DraftLog

/-!
# Committed tokens are token ids

A prompt is checked against the vocabulary before a sequence is made of it, and
the sampler returns token ids, so `-1` is never a committed token.  The drafter
rests on this: it takes a next token of `-1` for the mark of a row that samples.
-/

namespace LeanVllm

namespace Scheduler

variable {cfg : Config} {s next last : Scheduler} {i : SeqId}

/-- Every committed token is a token id. -/
def TokenIds (s : Scheduler) : Prop :=
  ∀ i, ∀ tokenId ∈ (s.heap i).tokenIds, 0 ≤ tokenId

theorem TokenIds.keep (ids : s.TokenIds) (keeps : ∀ j, Sequence.Keeps (s.heap j) (next.heap j)) :
    next.TokenIds := by
  intro j
  rw [(keeps j).same]
  exact ids j

theorem TokenIds.change (ids : s.TokenIds) (elsewhere : ∀ j, j ≠ i → next.heap j = s.heap j)
    (own : ∀ tokenId ∈ (next.heap i).tokenIds, 0 ≤ tokenId) : next.TokenIds := by
  intro j
  by_cases same : j = i
  · rw [same]
    exact own
  · rw [elsewhere j same]
    exact ids j

/-- One turn of `reconcile` commits tokens the sampler returned. -/
theorem Reconciles.tokenIds {row : LaunchedRow} {tokens : List Token}
    {drafts : Option (List (List Token))} {processed : Bool}
    (turn : Reconciles cfg s row tokens drafts next processed)
    (valid : ∀ tokenId ∈ tokens, 0 ≤ tokenId) (ids : s.TokenIds) : next.TokenIds := by
  cases turn with
  | void void => exact ids
  | commit lives member below clean hashed saved =>
      refine ids.change (fun j other => setSeq_heap_of_ne s other _) ?_
      rw [renew_heap_self]
      intro tokenId among
      rcases List.mem_append.mp among with old | new
      · exact ids _ tokenId old
      · exact valid tokenId new
  | stop lives member split below clean cause ends =>
      have frame := ends.frame
      refine ids.change frame.heap ?_
      obtain ⟨result, recordEq | recordEq⟩ := frame.record <;>
      · intro tokenId among
        rw [recordEq] at among
        rcases List.mem_append.mp among with old | new
        · exact ids _ tokenId old
        · exact valid tokenId (by rw [split]; exact List.mem_append_left _ new)

theorem ReconcilesAll.tokenIds {laterRows step : List LaunchedRow} {tokenIds : List (List Token)}
    {drafts : Option (List (List Token))} {stepped : List SeqId}
    (reconciles : ReconcilesAll cfg laterRows s step tokenIds drafts last stepped)
    (valid : ∀ tokens ∈ tokenIds, ∀ tokenId ∈ tokens, 0 ≤ tokenId) (ids : s.TokenIds) :
    last.TokenIds := by
  induction reconciles with
  | nil => exact ids
  | cons inv answer turn nextInv others ih =>
      exact ih (fun tokens member => valid tokens (List.mem_cons_of_mem _ member))
        (turn.tokenIds (valid _ List.mem_cons_self) ids)

end Scheduler

namespace LLMEngine

open Scheduler

variable {cfg : Config} {engine next : LLMEngine} {flight : Flight} {env : StepEnv}

theorem tokens_of_wf (wf : flight.Wf cfg) :
    ∀ tokens ∈ flight.tokens, ∀ tokenId ∈ tokens, 0 ≤ tokenId := by
  intro tokens member
  obtain ⟨launched, among, rfl⟩ := List.mem_map.mp member
  exact (wf.fits launched among).valid

/-- A step leaves token ids committed, at its launch and at its end. -/
theorem Steps.tokenIds {s last : Scheduler} {runner : ModelRunner} {launch : Launch}
    {stepped : List SeqId} (steps : Steps cfg env s runner flight launch last stepped)
    (inv : s.Inv cfg s.running flight.rows) (wf : flight.Wf cfg) (ids : s.TokenIds) :
    launch.reported.TokenIds ∧ last.TokenIds := by
  cases steps with
  | sync mode reconciles settled launches =>
      have reported := (reconciles.tokenIds (tokens_of_wf wf) ids).keep
        (launches.reported_keeps settled)
      exact ⟨reported, reported.keep fun j => (launches.advances.keeps j).1⟩
  | async mode launches reconciles =>
      have reported := ids.keep (launches.reported_keeps inv)
      exact ⟨reported, reconciles.tokenIds (tokens_of_wf wf)
        (reported.keep fun j => (launches.advances.keeps j).1)⟩

/-- Every action leaves token ids committed. -/
theorem Next.tokenIds {action : Action} (inv : engine.Inv cfg flight)
    (move : Next cfg engine action next) (ids : engine.scheduler.TokenIds) :
    next.scheduler.TokenIds := by
  obtain ⟨_, acts, _⟩ := move.acts inv
  have planted : ∀ {i : SeqId} (seq : Sequence), (∀ tokenId ∈ seq.tokenIds, 0 ≤ tokenId) →
      ∀ tokenId ∈ ((engine.scheduler.setSeq i seq).heap i).tokenIds, 0 ≤ tokenId := by
    intro i seq valid
    rw [setSeq_heap_self]
    exact valid
  cases acts with
  | add adds =>
      cases adds with
      | refuse fault => exact ids
      | duplicate requestId hashes valid known =>
          refine ids.change (fun j other => setSeq_heap_of_ne _ other _) ?_
          exact planted _ (tokens_of_validateRequest valid)
      | accept requestId hashes valid isQueued stored =>
          refine ids.change (fun j other => setSeq_heap_of_ne _ other _) ?_
          exact planted _ (tokens_of_validateRequest valid)
  | abort aborts =>
      cases aborts with
      | missing absent => exact ids
      | @abort i after found ends =>
          rcases ends with ⟨plays, rfl⟩ | ⟨plays, ends⟩
          · refine ids.change (fun j other => setSeq_heap_of_ne _ other _) ?_
            exact planted _ (ids i)
          · have frame := ends.frame
            refine ids.change frame.heap ?_
            obtain ⟨result, recordEq | recordEq⟩ := frame.record <;>
              exact recordEq ▸ ids i
  | step answers steps => exact (steps.tokenIds inv.scheduler inv.wf ids).2

/-- In every reachable engine every committed token is a token id. -/
theorem Reachable.tokenIds (reachable : Reachable cfg engine) : engine.scheduler.TokenIds := by
  obtain ⟨actions, run⟩ := reachable
  induction run with
  | nil =>
      intro i tokenId member
      exact absurd member List.not_mem_nil
  | snoc earlier move ih =>
      obtain ⟨flight, inv⟩ := Reachable.inv ⟨_, earlier⟩
      exact move.tokenIds inv ih

end LLMEngine

end LeanVllm
