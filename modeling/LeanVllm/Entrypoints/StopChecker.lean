import LeanVllm.Collections.Occurrences
import LeanVllm.Engine.OutputProcessor

/-!
# Stop strings

`StopChecker` applies `stop` strings to streamed text, holding back a tail a match
could still start in.  What it has emitted and what it holds back are always the
text pushed so far, and it matches as soon as that text contains a stop string.
-/

namespace LeanVllm

open Collections

structure StopChecker where
  stop : List Text
  hold : Nat
  buffer : Text
  matched : Bool
  deriving DecidableEq, Repr

namespace StopChecker

def create (stop : List Text) : StopChecker where
  stop := stop.filter (· ≠ [])
  hold := (((stop.filter (· ≠ [])).map List.length).max?).getD 1 - 1
  buffer := []
  matched := false

/-- The text safe to emit now.  Sets `matched` when a stop string hits. -/
def push (checker : StopChecker) (text : Text) : StopChecker × Text :=
  if checker.stop = [] then (checker, text)
  else
    let buffer := checker.buffer ++ text
    match earliest checker.stop buffer with
    | some cut => ({ checker with matched := true, buffer := [] }, buffer.take cut)
    | none =>
        if checker.hold = 0 then ({ checker with buffer := [] }, buffer)
        else
          ({ checker with buffer := buffer.drop (buffer.length - checker.hold) },
            buffer.take (buffer.length - checker.hold))

/-- Generation ended with no match, so the held tail was real output. -/
def flush (checker : StopChecker) : StopChecker × Text :=
  ({ checker with buffer := [] }, checker.buffer)

/-- The checker has seen `text`, which contains no stop string, and holds back its
tail. -/
structure Follows (checker : StopChecker) (text : Text) : Prop where
  nonempty : [] ∉ checker.stop
  short : ∀ word ∈ checker.stop, word.length ≤ checker.hold + 1
  unheld : checker.stop = [] → checker.hold = 0
  unmatched : checker.matched = false
  clean : earliest checker.stop text = none
  buffer : checker.buffer = text.drop (text.length - checker.hold)

/-- What has been emitted of `text`. -/
def emitted (checker : StopChecker) (text : Text) : Text :=
  text.take (text.length - checker.hold)

variable {checker : StopChecker} {text : Text}

theorem create_follows (stop : List Text) : (create stop).Follows [] where
  nonempty := by simp [create]
  short word member := by
    cases longest : ((stop.filter (· ≠ [])).map List.length).max? with
    | none =>
        rw [List.max?_eq_none_iff, List.map_eq_nil_iff] at longest
        rw [create, longest] at member
        exact absurd member List.not_mem_nil
    | some most =>
        have bound : word.length ≤ most :=
          (List.max?_eq_some_iff.mp longest).2 _ (List.mem_map_of_mem member)
        simp only [create, longest, Option.getD_some]
        omega
  unheld empty := by
    have empty : stop.filter (· ≠ []) = [] := empty
    simp only [create, empty, List.map_nil, List.max?_nil, Option.getD_none, Nat.sub_self]
  unmatched := rfl
  clean := by
    rw [earliest_eq_none_iff (by simp [create])]
    rintro p ⟨word, member, occurs⟩
    have real : word ≠ [] := by simpa [create] using (List.mem_filter.mp member).2
    have fits := occurs.end_le real
    have positive := List.length_pos_iff.mpr real
    simp only [List.length_nil] at fits
    omega
  buffer := by simp [create]

theorem Follows.flush (follows : checker.Follows text) :
    checker.emitted text ++ checker.flush.2 = text := by
  rw [emitted, StopChecker.flush, follows.buffer, List.take_append_drop]

/-- The window a push searches ends the text pushed so far. -/
theorem Follows.window (follows : checker.Follows text) (more : Text) :
    checker.buffer ++ more = (text ++ more).drop (text.length - checker.hold) := by
  rw [follows.buffer, List.drop_append_of_le_length (Nat.sub_le _ _)]

/-- Without a match the checker goes on, and emits all but the tail. -/
theorem Follows.push_of_none (follows : checker.Follows text) {more : Text}
    (clean : earliest checker.stop (text ++ more) = none) :
    (checker.push more).1.Follows (text ++ more) ∧
      (checker.push more).1.stop = checker.stop ∧
      checker.emitted text ++ (checker.push more).2 =
        (checker.push more).1.emitted (text ++ more) := by
  have window := follows.window more
  have split : text.take (text.length - checker.hold) ++ (checker.buffer ++ more) =
      text ++ more := by
    rw [follows.buffer, ← List.append_assoc, List.take_append_drop]
  have lengths := congrArg List.length split
  simp only [List.length_append, List.length_take] at lengths
  by_cases empty : checker.stop = []
  · have unheld := follows.unheld empty
    have pushed : checker.push more = (checker, more) := by rw [push, if_pos empty]
    have held : checker.buffer = [] := by rw [follows.buffer, unheld, Nat.sub_zero, List.drop_length]
    rw [pushed]
    refine ⟨⟨follows.nonempty, follows.short, follows.unheld, follows.unmatched, clean, ?_⟩, rfl, ?_⟩
    · rw [held, unheld, Nat.sub_zero, List.drop_length]
    · simp only [emitted, unheld, Nat.sub_zero, List.take_length]
  · have missed : earliest checker.stop (checker.buffer ++ more) = none := by
      have searched := earliest_append_of_none follows.nonempty follows.short follows.clean more
      rw [clean, ← window] at searched
      exact Option.map_eq_none_iff.mp searched.symm
    by_cases unheld : checker.hold = 0
    · have pushed : checker.push more =
          ({ checker with buffer := [] }, checker.buffer ++ more) := by
        simp only [push, if_neg empty, missed, if_pos unheld]
      rw [pushed]
      refine ⟨⟨follows.nonempty, follows.short, follows.unheld, follows.unmatched, clean, ?_⟩, rfl,
        ?_⟩
      · rw [unheld, Nat.sub_zero, List.drop_length]
      · simp only [emitted, unheld, Nat.sub_zero, List.take_length] at split ⊢
        exact split
    · have pushed : checker.push more =
          ({ checker with
            buffer := (checker.buffer ++ more).drop
              ((checker.buffer ++ more).length - checker.hold) },
            (checker.buffer ++ more).take
              ((checker.buffer ++ more).length - checker.hold)) := by
        simp only [push, if_neg empty, missed, if_neg unheld]
      have total : (text.length - checker.hold) +
          ((checker.buffer ++ more).length - checker.hold) =
            (text ++ more).length - checker.hold := by
        have buffered := congrArg List.length follows.buffer
        simp only [List.length_drop] at buffered
        simp only [List.length_append] at lengths ⊢
        omega
      rw [pushed]
      refine ⟨⟨follows.nonempty, follows.short, follows.unheld, follows.unmatched, clean, ?_⟩, rfl,
        ?_⟩
      · simp only [window] at total ⊢
        rw [List.drop_drop, total]
      · simp only [emitted]
        rw [← total, List.take_add, ← window,
          List.take_append_of_le_length (Nat.sub_le text.length checker.hold)]

/-- The first match cuts the text where the earliest stop string in it starts. -/
theorem Follows.push_of_some (follows : checker.Follows text) {more : Text} {cut : Nat}
    (found : earliest checker.stop (text ++ more) = some cut) :
    (checker.push more).1.matched = true ∧
      checker.emitted text ++ (checker.push more).2 = (text ++ more).take cut := by
  have window := follows.window more
  have searched := earliest_append_of_none follows.nonempty follows.short follows.clean more
  rw [found, ← window] at searched
  obtain ⟨start, startEq, cutEq⟩ := Option.map_eq_some_iff.mp searched.symm
  have some : checker.stop ≠ [] := by
    intro empty
    rw [empty] at found
    simp [earliest] at found
  have pushed : checker.push more =
      ({ checker with matched := true, buffer := [] },
        (checker.buffer ++ more).take start) := by
    simp only [push, if_neg some, startEq]
  rw [pushed]
  refine ⟨rfl, ?_⟩
  rw [emitted, ← cutEq, List.take_add, ← window,
    List.take_append_of_le_length (Nat.sub_le text.length checker.hold)]

/-! ## A sequence of pieces -/

/-- The pushes of a sequence of pieces, with what each of them emits. -/
def pushAll (checker : StopChecker) : List Text → StopChecker × List Text
  | [] => (checker, [])
  | piece :: rest =>
      let pushed := checker.push piece
      let later := pushed.1.pushAll rest
      (later.1, pushed.2 :: later.2)

theorem pushAll_append (checker : StopChecker) (first second : List Text) :
    checker.pushAll (first ++ second) =
      (((checker.pushAll first).1.pushAll second).1,
        (checker.pushAll first).2 ++ ((checker.pushAll first).1.pushAll second).2) := by
  induction first generalizing checker with
  | nil => rfl
  | cons piece rest ih => simp [pushAll, ih]

/-- The first pushes emit the same whatever is pushed behind them. -/
theorem pushAll_take (checker : StopChecker) (pieces : List Text) (n : Nat) :
    (checker.pushAll (pieces.take n)).2 = (checker.pushAll pieces).2.take n := by
  induction pieces generalizing checker n with
  | nil => simp [pushAll]
  | cons piece rest ih =>
      cases n with
      | zero => rfl
      | succ n => simp [pushAll, ih]

/-- A match is never taken back. -/
theorem matched_push (matched : checker.matched = true) (piece : Text) :
    (checker.push piece).1.matched = true := by
  unfold push
  split
  · exact matched
  · dsimp only
    split
    · rfl
    · split <;> exact matched

theorem matched_pushAll (matched : checker.matched = true) (pieces : List Text) :
    (checker.pushAll pieces).1.matched = true := by
  induction pieces generalizing checker with
  | nil => exact matched
  | cons piece rest ih => exact ih (matched_push matched piece)

/-- While no stop string is complete, all but the tail is emitted. -/
theorem Follows.pushAll (follows : checker.Follows text) {pieces : List Text}
    (clean : earliest checker.stop (text ++ pieces.flatten) = none) :
    (checker.pushAll pieces).1.Follows (text ++ pieces.flatten) ∧
      (checker.pushAll pieces).1.stop = checker.stop ∧
      checker.emitted text ++ (checker.pushAll pieces).2.flatten =
        (checker.pushAll pieces).1.emitted (text ++ pieces.flatten) := by
  induction pieces generalizing checker text with
  | nil => simpa [StopChecker.pushAll] using follows
  | cons piece rest ih =>
      rw [List.flatten_cons, ← List.append_assoc] at clean ⊢
      have early : earliest checker.stop (text ++ piece) = none := by
        cases found : earliest checker.stop (text ++ piece) with
        | none => rfl
        | some cut =>
            obtain ⟨_, _, later⟩ := earliest_append_le follows.nonempty found rest.flatten
            exact absurd (later.symm.trans clean) (by simp)
      obtain ⟨goesOn, stopEq, emitted⟩ := follows.push_of_none early
      rw [← stopEq] at clean
      obtain ⟨follows', stopEq', emitted'⟩ := ih goesOn clean
      refine ⟨follows', stopEq'.trans stopEq, ?_⟩
      rw [StopChecker.pushAll, List.flatten_cons, ← List.append_assoc, emitted]
      exact emitted'

/-- A stop string inside the beginning of a text is one of the text. -/
theorem not_hitsAt_take {words : List Text} (nonempty : [] ∉ words) {cut : Nat}
    (first : ∀ p, HitsAt words text p → cut ≤ p) (p : Nat) :
    ¬ HitsAt words (text.take cut) p := by
  rintro ⟨word, member, occurs⟩
  have real : word ≠ [] := fun empty => nonempty (empty ▸ member)
  have within := occurs.end_le real
  have positive := List.length_pos_iff.mpr real
  have whole : OccursAt word text p := by
    have occurs := occurs.append real (text.drop cut)
    rwa [List.take_append_drop] at occurs
  have late := first p ⟨word, member, whole⟩
  rw [List.length_take] at within
  omega

/-- What a checker emits of a text without stop strings has none either. -/
theorem Follows.clean_emitted (follows : checker.Follows text) (p : Nat) :
    ¬ HitsAt checker.stop (checker.emitted text) p := by
  have clean := (earliest_eq_none_iff follows.nonempty).mp follows.clean
  exact not_hitsAt_take follows.nonempty (fun q hits => absurd hits (clean q)) p

/-- The pushes emit the text up to the first stop string seen in it, and none of it
too early; without one they and the flush emit all of it. -/
theorem stream_cut_at_first_stop (stop : List Text) (pieces : List Text) :
    ((∀ n p, ¬ HitsAt (stop.filter (· ≠ [])) (pieces.take n).flatten p) →
      (∀ n, ((create stop).pushAll (pieces.take n)).1.matched = false) ∧
      ((create stop).pushAll pieces).2.flatten ++ ((create stop).pushAll pieces).1.flush.2 =
        pieces.flatten ∧
      ∀ p, ¬ HitsAt (stop.filter (· ≠ [])) ((create stop).pushAll pieces).2.flatten p) ∧
    ∀ i < pieces.length, (∃ p, HitsAt (stop.filter (· ≠ [])) (pieces.take (i + 1)).flatten p) →
      (∀ n ≤ i, ∀ p, ¬ HitsAt (stop.filter (· ≠ [])) (pieces.take n).flatten p) →
      (∀ n, ((create stop).pushAll (pieces.take n)).1.matched = decide (i < n)) ∧
      ∃ cut, HitsAt (stop.filter (· ≠ [])) (pieces.take (i + 1)).flatten cut ∧
        (∀ p, HitsAt (stop.filter (· ≠ [])) (pieces.take (i + 1)).flatten p → cut ≤ p) ∧
        (((create stop).pushAll pieces).2.take (i + 1)).flatten =
          (pieces.take (i + 1)).flatten.take cut ∧
        (((create stop).pushAll pieces).2.take i).flatten.length ≤ cut ∧
        ∀ p, ¬ HitsAt (stop.filter (· ≠ []))
          (((create stop).pushAll pieces).2.take (i + 1)).flatten p := by
  have begun := create_follows stop
  have real : [] ∉ stop.filter (· ≠ []) := begun.nonempty
  have nothing : (create stop).emitted [] = [] := by simp [emitted]
  have goesOn : ∀ n, (∀ p, ¬ HitsAt (stop.filter (· ≠ [])) (pieces.take n).flatten p) →
      ((create stop).pushAll (pieces.take n)).1.Follows (pieces.take n).flatten ∧
      ((create stop).pushAll (pieces.take n)).1.stop = stop.filter (· ≠ []) ∧
      ((create stop).pushAll (pieces.take n)).2.flatten =
        ((create stop).pushAll (pieces.take n)).1.emitted (pieces.take n).flatten := by
    intro n clean
    have followed := begun.pushAll ((earliest_eq_none_iff begun.nonempty).mpr clean)
    rw [nothing, List.nil_append, List.nil_append] at followed
    exact followed
  refine ⟨?_, ?_⟩
  · intro clean
    have whole := goesOn pieces.length (clean pieces.length)
    rw [List.take_length] at whole
    obtain ⟨follows, stopEq, emittedEq⟩ := whole
    refine ⟨fun n => (goesOn n (clean n)).1.unmatched, ?_, ?_⟩
    · rw [emittedEq]
      exact follows.flush
    · intro p
      rw [emittedEq, ← stopEq]
      exact follows.clean_emitted p
  · intro i below hits clean
    obtain ⟨follows, stopEq, emittedEq⟩ := goesOn i (clean i (Nat.le_refl i))
    obtain ⟨cut, found⟩ : ∃ cut, earliest (stop.filter (· ≠ [])) (pieces.take (i + 1)).flatten =
        some cut := by
      cases found : earliest (stop.filter (· ≠ [])) (pieces.take (i + 1)).flatten with
      | none =>
          obtain ⟨p, hit⟩ := hits
          exact absurd hit ((earliest_eq_none_iff real).mp found p)
      | some cut => exact ⟨cut, rfl⟩
    obtain ⟨hit, first⟩ := (earliest_eq_some_iff real).mp found
    have piecesEq : pieces.take (i + 1) = pieces.take i ++ [pieces[i]] :=
      List.take_succ_eq_append_getElem below
    have textEq : (pieces.take (i + 1)).flatten = (pieces.take i).flatten ++ pieces[i] := by
      rw [piecesEq, List.flatten_append, List.flatten_singleton]
    have pushed : (create stop).pushAll (pieces.take (i + 1)) =
        ((((create stop).pushAll (pieces.take i)).1.push pieces[i]).1,
          ((create stop).pushAll (pieces.take i)).2 ++
            [(((create stop).pushAll (pieces.take i)).1.push pieces[i]).2]) := by
      rw [piecesEq, pushAll_append]
      rfl
    have foundThere := found
    rw [textEq, ← stopEq] at foundThere
    obtain ⟨matched, emitted⟩ := follows.push_of_some foundThere
    have cutEq : (((create stop).pushAll pieces).2.take (i + 1)).flatten =
        (pieces.take (i + 1)).flatten.take cut := by
      rw [← pushAll_take, pushed, List.flatten_append, List.flatten_singleton, emittedEq, textEq]
      exact emitted
    refine ⟨?_, cut, hit, first, cutEq, ?_, ?_⟩
    · intro n
      by_cases late : i < n
      · rw [decide_eq_true late]
        have split : pieces.take n = pieces.take (i + 1) ++ (pieces.take n).drop (i + 1) := by
          have taken : (pieces.take n).take (i + 1) = pieces.take (i + 1) := by
            rw [List.take_take, Nat.min_eq_left late]
          rw [← taken, List.take_append_drop]
        rw [split, pushAll_append, pushed]
        exact matched_pushAll matched _
      · rw [decide_eq_false late]
        exact (goesOn n (clean n (Nat.le_of_not_lt late))).1.unmatched
    · have early : (((create stop).pushAll pieces).2.take i).flatten.length ≤
          (((create stop).pushAll pieces).2.take (i + 1)).flatten.length := by
        rw [← pushAll_take, ← pushAll_take, pushed, List.flatten_append, List.length_append]
        exact Nat.le_add_right _ _
      rw [cutEq, List.length_take] at early
      exact early.trans (Nat.min_le_left _ _)
    · rw [cutEq]
      exact not_hitsAt_take real first

end StopChecker

end LeanVllm
