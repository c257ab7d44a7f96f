import LeanVllm.Entrypoints.StopChecker

/-!
# The text a client receives

`_deltas` pushes the text of each output through the stop checker and ends at the
first match or the finished output; `_collect` joins what it yields.  The engine
may put any number of tokens into one output.  The reply depends on how it groups
them exactly when a stop string completes before one that starts earlier.
-/

namespace LeanVllm

open Collections

structure HTTPException where
  statusCode : Nat
  detail : String
  deriving DecidableEq, Repr

namespace FinishReason

def name : FinishReason → String
  | .stop => "stop"
  | .length => "length"
  | .capacity => "capacity"
  | .abort => "abort"
  | .other reason => reason

/-- `FINISH_REASONS`, what a client is told. -/
def reported : FinishReason → Option FinishReason
  | .stop => some .stop
  | .length => some .length
  | .abort => some .stop
  | _ => none

end FinishReason

/-- One item of `_deltas`; the last has a reason. -/
structure Delta where
  text : Text
  finishReason : Option FinishReason
  numCompletionTokens : Nat
  kvTransferParams : Option KVTransferParams
  deriving DecidableEq, Repr

/-- What `_deltas` yields, whether it aborts the request on a stop string, and how
it ends. -/
structure Deltas where
  yielded : List Delta
  aborted : Bool
  ended : Except HTTPException Unit

namespace ApiServer

/-- `_deltas` from the next output on. -/
def deltas (checker : StopChecker) (numTokens : Nat) : List TextOutput → Deltas
  | [] => ⟨[], false, .ok ()⟩
  | output :: rest =>
      let numTokens := numTokens + output.tokenIds.length
      let pushed := checker.push output.text
      if pushed.1.matched then ⟨[⟨pushed.2, some .stop, numTokens, none⟩], true, .ok ()⟩
      else if output.finished then
        match output.finishReason.bind FinishReason.reported with
        | none =>
            ⟨[], false, .error ⟨503, "the engine dropped the request: " ++
              (output.finishReason.map FinishReason.name).getD "None"⟩⟩
        | some reason =>
            ⟨[⟨pushed.2 ++ pushed.1.flush.2, some reason, numTokens, output.kvTransferParams⟩],
              false, .ok ()⟩
      else
        let later := deltas pushed.1 numTokens rest
        if pushed.2 = [] then later
        else { later with yielded := ⟨pushed.2, none, numTokens, none⟩ :: later.yielded }

/-- The body of a reply that is not streamed. -/
structure Reply where
  text : Text
  finishReason : FinishReason
  numCompletionTokens : Nat
  kvTransferParams : Option KVTransferParams
  deriving DecidableEq, Repr

/-- One turn of `_collect`'s loop; the last values are kept. -/
def collectDelta (reply : Reply) (delta : Delta) : Reply where
  text := reply.text ++ delta.text
  finishReason := delta.finishReason.getD reply.finishReason
  numCompletionTokens := delta.numCompletionTokens
  kvTransferParams := delta.kvTransferParams

def collect (deltas : Deltas) : Except HTTPException Reply := do
  deltas.ended
  .ok (deltas.yielded.foldl collectDelta ⟨[], .stop, 0, none⟩)

/-! ## What is reported -/

/-- The joined text and the last reason. -/
def report (deltas : Deltas) : Except HTTPException (Text × FinishReason) :=
  (collect deltas).map fun reply => (reply.text, reply.finishReason)

/-- The reports of what was collected so far, followed by `deltas`. -/
def reportFrom (text : Text) (deltas : Deltas) : Except HTTPException (Text × FinishReason) := do
  deltas.ended
  .ok (text ++ (deltas.yielded.map Delta.text).flatten,
    ((deltas.yielded.filterMap Delta.finishReason).getLast?).getD .stop)

theorem foldl_collectDelta (yielded : List Delta) (reply : Reply) :
    (yielded.foldl collectDelta reply).text =
        reply.text ++ (yielded.map Delta.text).flatten ∧
      (yielded.foldl collectDelta reply).finishReason =
        ((yielded.filterMap Delta.finishReason).getLast?).getD reply.finishReason := by
  induction yielded generalizing reply with
  | nil => simp
  | cons delta yielded ih =>
      rw [List.foldl_cons]
      obtain ⟨textEq, reasonEq⟩ := ih (collectDelta reply delta)
      refine ⟨?_, ?_⟩
      · rw [textEq, collectDelta, List.map_cons, List.flatten_cons, List.append_assoc]
      · rw [reasonEq]
        cases told : delta.finishReason with
        | none => simp [collectDelta, told]
        | some reason =>
            rw [List.filterMap_cons_some told, List.getLast?_cons, collectDelta, told]
            simp

theorem report_eq (deltas : Deltas) : report deltas = reportFrom [] deltas := by
  obtain ⟨textEq, reasonEq⟩ := foldl_collectDelta deltas.yielded ⟨[], .stop, 0, none⟩
  cases ended : deltas.ended with
  | error fault => simp [report, reportFrom, collect, ended, bind, Except.bind, Except.map]
  | ok =>
      simp only [report, reportFrom, collect, ended, bind, Except.bind, Except.map, textEq,
        reasonEq]

/-! ## Groupings -/

/-- A token and the text it decodes to. -/
abbrev Piece := Token × Text

def textOf (pieces : List Piece) : Text :=
  (pieces.map Prod.snd).flatten

/-- How a completion ends. -/
structure Ending where
  finishReason : FinishReason
  kvTransferParams : Option KVTransferParams
  deriving DecidableEq, Repr

/-- The outputs of one completion, with a group of its tokens in each. -/
def outputs (requestId : RequestId) (ending : Ending) : List (List Piece) → List TextOutput
  | [] => []
  | [group] =>
      [{ requestId := requestId
         tokenIds := group.map Prod.fst
         finished := true
         finishReason := some ending.finishReason
         kvTransferParams := ending.kvTransferParams
         text := textOf group }]
  | group :: next :: rest =>
      { requestId := requestId
        tokenIds := group.map Prod.fst
        finished := false
        finishReason := none
        kvTransferParams := none
        text := textOf group } :: outputs requestId ending (next :: rest)

/-- What a client is told of a completion whose tokens come in these groups. -/
def reply (stop : List Text) (requestId : RequestId) (ending : Ending)
    (groups : List (List Piece)) : Except HTTPException (Text × FinishReason) :=
  report (deltas (.create stop) 0 (outputs requestId ending groups))

/-- Where the text is cut: at the earliest stop string once one is complete, looking
only between the groups. -/
def cutAt (stop : List Text) (text : Text) : List (List Piece) → Option Nat
  | [] => none
  | group :: rest =>
      (earliest stop (text ++ textOf group)).or (cutAt stop (text ++ textOf group) rest)

/-- The reply that a cut of the whole text makes. -/
def cutReply (ending : Ending) (text : Text) : Option Nat →
    Except HTTPException (Text × FinishReason)
  | some cut => .ok (text.take cut, .stop)
  | none =>
      match ending.finishReason.reported with
      | some reason => .ok (text, reason)
      | none => .error ⟨503, "the engine dropped the request: " ++ ending.finishReason.name⟩

theorem textOf_append (first second : List Piece) :
    textOf (first ++ second) = textOf first ++ textOf second := by
  rw [textOf, List.map_append, List.flatten_append]
  rfl

theorem reportFrom_matched (text : Text) {checker : StopChecker} {numTokens : Nat}
    {output : TextOutput} (rest : List TextOutput)
    (matched : (checker.push output.text).1.matched = true) :
    reportFrom text (deltas checker numTokens (output :: rest)) =
      .ok (text ++ (checker.push output.text).2, .stop) := by
  rw [deltas, if_pos matched]
  simp [reportFrom, bind, Except.bind]

theorem reportFrom_unfinished (text : Text) {checker : StopChecker} {numTokens : Nat}
    {output : TextOutput} (rest : List TextOutput)
    (unmatched : (checker.push output.text).1.matched = false)
    (unfinished : output.finished = false) :
    reportFrom text (deltas checker numTokens (output :: rest)) =
      reportFrom (text ++ (checker.push output.text).2)
        (deltas (checker.push output.text).1 (numTokens + output.tokenIds.length) rest) := by
  rw [deltas, if_neg (by simp [unmatched]), if_neg (by simp [unfinished])]
  by_cases nothing : (checker.push output.text).2 = []
  · rw [if_pos nothing, nothing, List.append_nil]
  · rw [if_neg nothing]
    simp only [reportFrom, List.map_cons, List.flatten_cons, List.filterMap_cons,
      List.append_assoc]

theorem reportFrom_finished (text : Text) {checker : StopChecker} (numTokens : Nat)
    (output : TextOutput) {ending : Ending} (rest : List TextOutput)
    (unmatched : (checker.push output.text).1.matched = false)
    (finished : output.finished = true)
    (reasonEq : output.finishReason = some ending.finishReason) :
    reportFrom text (deltas checker numTokens (output :: rest)) =
      cutReply ending (text ++ ((checker.push output.text).2 ++
        (checker.push output.text).1.flush.2)) none := by
  rw [deltas, if_neg (by simp [unmatched]), if_pos finished, reasonEq, Option.bind_some, cutReply]
  cases told : ending.finishReason.reported with
  | none => simp [reportFrom, bind, Except.bind]
  | some reason => simp [reportFrom, bind, Except.bind]

/-- The reply to a completion is its text, cut where the groups let a stop string
be seen. -/
theorem reportFrom_outputs {checker : StopChecker} {text : Text} (follows : checker.Follows text)
    (requestId : RequestId) (ending : Ending) {groups : List (List Piece)} (some : groups ≠ [])
    (numTokens : Nat) :
    reportFrom (checker.emitted text) (deltas checker numTokens (outputs requestId ending groups)) =
      cutReply ending (text ++ textOf groups.flatten) (cutAt checker.stop text groups) := by
  induction groups generalizing checker text numTokens with
  | nil => exact absurd rfl some
  | cons group rest ih =>
      cases found : earliest checker.stop (text ++ textOf group) with
      | some cut =>
          obtain ⟨matched, emitted⟩ := follows.push_of_some found
          have within := lt_length_of_earliest follows.nonempty found
          have told : cutReply ending (text ++ textOf (group :: rest).flatten)
              (cutAt checker.stop text (group :: rest)) =
                .ok ((text ++ textOf group).take cut, .stop) := by
            rw [cutAt, found, Option.some_or, cutReply, List.flatten_cons, textOf_append,
              ← List.append_assoc, List.take_append_of_le_length within.le]
          rw [told, ← emitted]
          cases rest with
          | nil => exact reportFrom_matched _ _ matched
          | cons next rest => exact reportFrom_matched _ _ matched
      | none =>
          obtain ⟨goesOn, stopEq, emitted⟩ := follows.push_of_none found
          have told : cutAt checker.stop text (group :: rest) =
              cutAt (checker.push (textOf group)).1.stop (text ++ textOf group) rest := by
            rw [cutAt, found, Option.none_or, stopEq]
          rw [told]
          cases rest with
          | nil =>
              have final := reportFrom_finished (checker.emitted text) numTokens
                { requestId := requestId
                  tokenIds := group.map Prod.fst
                  finished := true
                  finishReason := ending.finishReason
                  kvTransferParams := ending.kvTransferParams
                  text := textOf group } [] goesOn.unmatched rfl rfl
              rw [outputs, final, ← List.append_assoc, emitted, goesOn.flush]
              simp [cutAt]
          | cons next rest =>
              have joined : text ++ textOf (group :: next :: rest).flatten =
                  text ++ textOf group ++ textOf (next :: rest).flatten := by
                rw [List.flatten_cons, textOf_append, List.append_assoc]
              rw [outputs, reportFrom_unfinished _ _ goesOn.unmatched rfl, emitted,
                ih goesOn (by simp) _, joined]

theorem reply_eq (stop : List Text) (requestId : RequestId) (ending : Ending)
    {groups : List (List Piece)} (some : groups ≠ []) :
    reply stop requestId ending groups =
      cutReply ending (textOf groups.flatten)
        (cutAt (stop.filter (· ≠ [])) [] groups) := by
  have replied := reportFrom_outputs (StopChecker.create_follows stop) requestId ending some 0
  rw [StopChecker.emitted, List.take_nil, List.nil_append] at replied
  rw [reply, report_eq]
  exact replied

/-! ## Independence of the grouping -/

/-- As soon as the tokens so far contain a stop string, they contain the one that
starts first in the whole text. -/
def FirstStopFirst (stop : List Text) (pieces : List Piece) : Prop :=
  ∀ n, (earliest stop (textOf (pieces.take n))).isSome →
    earliest stop (textOf (pieces.take n)) = earliest stop (textOf pieces)

/-- Between the groups the first stop string is seen for what it is. -/
theorem cutAt_eq {stop : List Text} (before : List Piece) {groups : List (List Piece)}
    (first : FirstStopFirst stop (before ++ groups.flatten))
    (clean : earliest stop (textOf before) = none) :
    cutAt stop (textOf before) groups = earliest stop (textOf (before ++ groups.flatten)) := by
  induction groups generalizing before with
  | nil => simpa [cutAt] using clean.symm
  | cons group rest ih =>
      rw [List.flatten_cons, ← List.append_assoc] at first ⊢
      rw [cutAt, ← textOf_append]
      cases found : earliest stop (textOf (before ++ group)) with
      | some cut =>
          have seen := first (before ++ group).length
          rw [List.take_left, found] at seen
          rw [Option.some_or]
          exact seen rfl
      | none =>
          rw [Option.none_or]
          exact ih _ first found

/-- The reply is the same for every grouping of the tokens if and only if no stop
string completes before one that starts earlier. -/
theorem reply_independent_of_grouping (stop : List Text) (requestId : RequestId)
    (ending : Ending) (pieces : List Piece) :
    (∀ first second : List (List Piece), first ≠ [] → second ≠ [] →
      first.flatten = pieces → second.flatten = pieces →
        reply stop requestId ending first = reply stop requestId ending second) ↔
      FirstStopFirst (stop.filter (· ≠ [])) pieces := by
  have nonempty : [] ∉ stop.filter (· ≠ []) := by simp
  have clean := (StopChecker.create_follows stop).clean
  constructor
  · intro same n seen
    obtain ⟨early, found⟩ := Option.isSome_iff_exists.mp seen
    have whole : earliest (stop.filter (· ≠ [])) (textOf (pieces.take n) ++
        textOf (pieces.drop n)) = earliest (stop.filter (· ≠ [])) (textOf pieces) := by
      rw [← textOf_append, List.take_append_drop]
    obtain ⟨cut, le, foundAll⟩ :=
      earliest_append_le nonempty found (textOf (pieces.drop n))
    rw [whole] at foundAll
    -- two groups cut at the stop string seen first, one group at the one that starts first
    have replies := same [pieces.take n, pieces.drop n] [pieces] (by simp) (by simp) (by simp)
      (by simp)
    rw [reply_eq _ _ _ (by simp), reply_eq _ _ _ (by simp)] at replies
    simp only [cutAt, List.nil_append, found, foundAll, Option.some_or, cutReply,
      List.flatten_cons, List.flatten_nil, List.append_nil, List.take_append_drop,
      Except.ok.injEq, Prod.mk.injEq, and_true] at replies
    have lengths := congrArg List.length replies
    have inside := lt_length_of_earliest nonempty found
    have total : (textOf pieces).length =
        (textOf (pieces.take n)).length + (textOf (pieces.drop n)).length := by
      rw [← List.length_append, ← textOf_append, List.take_append_drop]
    rw [List.length_take, List.length_take] at lengths
    rw [found, foundAll]
    congr 1
    omega
  · intro first groups others some some' split split'
    have cuts : ∀ groups : List (List Piece), groups.flatten = pieces →
        cutAt (stop.filter (· ≠ [])) [] groups =
          earliest (stop.filter (· ≠ [])) (textOf pieces) := by
      rintro groups rfl
      exact cutAt_eq [] first clean
    rw [reply_eq _ _ _ some, reply_eq _ _ _ some', cuts _ split, cuts _ split', split, split']

/-- One token at a time "bc" is seen before "abcd" is complete; in one output the
earlier "abcd" wins. -/
theorem reply_depends_on_grouping :
    reply ["bc".toList, "abcd".toList] "r" ⟨.length, none⟩
        [[(1, "a".toList)], [(2, "b".toList)], [(3, "c".toList)], [(4, "d".toList)]] =
      .ok ("a".toList, .stop) ∧
    reply ["bc".toList, "abcd".toList] "r" ⟨.length, none⟩
        [[(1, "a".toList), (2, "b".toList), (3, "c".toList), (4, "d".toList)]] =
      .ok ([], .stop) := by
  decide +kernel

end ApiServer

end LeanVllm
