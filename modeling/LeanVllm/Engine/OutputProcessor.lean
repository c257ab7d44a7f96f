import LeanVllm.Engine.LLMEngine
import LeanVllm.Transition.Channel

/-!
# Request states of the client

`OutputProcessor` keeps a stream and a detokenizer for each request in flight and
routes the core's outputs to the streams.  A stream is named by the `add_request`
call that made it, and what is put in a stream is returned.
-/

namespace LeanVllm

open Collections Transition

/-- A Python `str`. -/
abbrev Text := List Char

/-- A call of `AsyncLLM.add_request`, and the stream and the future it makes. -/
abbrev CallId := Nat

/-- A `RequestOutput` with its text filled in. -/
structure TextOutput extends RequestOutput where
  text : Text
  deriving DecidableEq, Repr

/-- `EngineDeadError`, with the `repr` of its cause. -/
structure EngineDeadError where
  message : String
  cause : Option String
  deriving DecidableEq, Repr

/-- What a tokenizer's `FastIncrementalDetokenizer` does: how it starts behind a
prompt, and the text that one more token completes. -/
structure Tokenizer (δ : Type) where
  start : (promptTokenIds : List Token) → (skipSpecialTokens : Bool) → δ
  decode : δ → Token → δ × Text

namespace Tokenizer

variable {δ : Type}

/-- The joined text of some tokens. -/
def decodeAll (tokenizer : Tokenizer δ) (detokenizer : δ) : List Token → δ × Text
  | [] => (detokenizer, [])
  | tokenId :: rest =>
      let decoded := tokenizer.decode detokenizer tokenId
      let later := tokenizer.decodeAll decoded.1 rest
      (later.1, decoded.2 ++ later.2)

end Tokenizer

/-- An item of an `AsyncStream`.  The producer is no part of it: it names the
call that the core made the output for, and the client's own outputs have none. -/
inductive StreamItem where
  | output (output : TextOutput) (producer : Option CallId)
  | error (error : EngineDeadError)
  deriving DecidableEq, Repr

namespace StreamItem

/-- A reader stops at this item. -/
def terminal : StreamItem → Bool
  | .output value _ => value.finished
  | .error _ => true

/-- The core's output in an item, and the call it was made for. -/
def produced : StreamItem → Option (CallId × RequestOutput)
  | .output value producer => producer.map fun call => (call, value.toRequestOutput)
  | .error _ => none

end StreamItem

/-- A request in flight.  Offline there is no stream. -/
structure RequestState (δ : Type) where
  detokenizer : Option δ
  stream : Option CallId

structure OutputProcessor (δ : Type) where
  requestStates : Dict RequestId (RequestState δ) := ∅

namespace OutputProcessor

variable {δ : Type}

def addRequest (tokenizer : Option (Tokenizer δ)) (processor : OutputProcessor δ)
    (requestId : RequestId) (promptTokenIds : List Token) (skipSpecialTokens : Bool)
    (stream : Option CallId) : OutputProcessor δ where
  requestStates := processor.requestStates.insert requestId
    { detokenizer := tokenizer.map fun tokenizer => tokenizer.start promptTokenIds skipSpecialTokens
      stream := stream }

/-- The output that ends the stream of an aborted request. -/
def abortedOutput (requestId : RequestId) : TextOutput where
  requestId := requestId
  tokenIds := []
  finished := true
  finishReason := some .abort
  kvTransferParams := none
  text := []

/-- `abort_request`: a live stream gets a final output, so its reader is not left
waiting. -/
def abortRequest (processor : OutputProcessor δ) (requestId : RequestId) :
    OutputProcessor δ × List (CallId × StreamItem) :=
  match processor.requestStates.lookup requestId with
  | none => (processor, [])
  | some state =>
      (⟨processor.requestStates.erase requestId⟩,
        state.stream.toList.map fun stream => (stream, .output (abortedOutput requestId) none))

/-- The text of an output and the detokenizer behind it; without a tokenizer
outputs keep the core's text. -/
def detokenize (tokenizer : Option (Tokenizer δ)) (detokenizer : Option δ)
    (tokenIds : List Token) : Option δ × Text :=
  match tokenizer, detokenizer with
  | some tokenizer, some detokenizer =>
      let decoded := tokenizer.decodeAll detokenizer tokenIds
      (some decoded.1, decoded.2)
  | _, _ => (detokenizer, [])

/-- One turn of `process_outputs`, with the outputs it puts in streams and those it
returns. -/
def processOutput (tokenizer : Option (Tokenizer δ)) (processor : OutputProcessor δ)
    (produced : CallId × RequestOutput) :
    OutputProcessor δ × List (CallId × StreamItem) × List TextOutput :=
  match processor.requestStates.lookup produced.2.requestId with
  | none => (processor, [], [])  -- aborted since the step
  | some state =>
      let decoded := detokenize tokenizer state.detokenizer produced.2.tokenIds
      let output : TextOutput := { produced.2 with text := decoded.2 }
      let requestStates :=
        if produced.2.finished then processor.requestStates.erase produced.2.requestId
        else processor.requestStates.insert produced.2.requestId
          { state with detokenizer := decoded.1 }
      match state.stream with
      | some stream => (⟨requestStates⟩, [(stream, .output output (some produced.1))], [])
      | none => (⟨requestStates⟩, [], [output])

/-- `process_outputs`: fill in the text and route tracked outputs to streams or the
returned list. -/
def processOutputs (tokenizer : Option (Tokenizer δ)) (processor : OutputProcessor δ) :
    List (CallId × RequestOutput) →
      OutputProcessor δ × List (CallId × StreamItem) × List TextOutput
  | [] => (processor, [], [])
  | produced :: rest =>
      let first := processOutput tokenizer processor produced
      let later := processOutputs tokenizer first.1 rest
      (later.1, first.2.1 ++ later.2.1, first.2.2 ++ later.2.2)

/-- `fail_all`: clear the request states and queue the error for each live stream. -/
def failAll (processor : OutputProcessor δ) (error : EngineDeadError) :
    OutputProcessor δ × List (CallId × StreamItem) :=
  (⟨∅⟩, processor.requestStates.values.flatMap fun state =>
    state.stream.toList.map fun stream => (stream, .error error))

end OutputProcessor

end LeanVllm
