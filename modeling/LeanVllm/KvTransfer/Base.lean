import Mathlib.Algebra.Order.Ring.Unbundled.Rat
import LeanVllm.Engine.Sequence

/-!
# The scheduler half of the NIXL connector

The scheduler half decides which requests load or hand over KV.  Each
scheduling step ends by handing the loads and sends queued since the last one
to the workers in one `KVConnectorMetadata`.
-/

namespace LeanVllm

open Collections

/-- A remote prefill's blocks to read into local ones, the two lists
aligned. -/
structure ReqToRecv where
  localBlockIds : List BlockId
  remoteBlockIds : List Int
  remoteRequestId : RequestId
  remoteEngineId : String
  remoteHost : String
  remotePort : Int
  remoteTpSize : Int
  deriving DecidableEq, Repr

/-- One step's instructions to every worker half. -/
structure KVConnectorMetadata where
  reqsToRecv : Dict RequestId ReqToRecv := ∅
  reqsToSend : Dict RequestId (List BlockId) := ∅

/-- One load: from the read to the blocks landing. -/
structure KVTransferStats where
  seconds : Rat
  numBytes : Nat
  deriving DecidableEq

/-- Ranks load in parallel: the slowest sets the time, and the bytes add up. -/
def KVTransferStats.merge (stats other : KVTransferStats) : KVTransferStats :=
  ⟨max stats.seconds other.seconds, stats.numBytes + other.numBytes⟩

/-- Transfers finished since the last report.  A failed load leaves its blocks
to recompute.  `expiredSending` lists those of `finishedSending` that were freed
with no consumer read, and `recvStats` is about `finishedRecving`. -/
structure KVConnectorOutput where
  finishedSending : List RequestId := []
  finishedRecving : List RequestId := []
  failedRecving : List RequestId := []
  expiredSending : List RequestId := []
  recvStats : Dict RequestId KVTransferStats := ∅
  deriving DecidableEq

structure NixlConnectorScheduler where
  reqsToRecv : Dict RequestId ReqToRecv := ∅
  reqsToSend : Dict RequestId (List BlockId) := ∅

/-- `_cdiv`. -/
def cdiv (a b : Nat) : Nat :=
  (a + b - 1) / b

namespace Sequence

/-- `bool(params and params.get("do_remote_prefill"))`. -/
def wantsRemotePrefill (seq : Sequence) : Bool :=
  match seq.kvTransferParams with
  | none => false
  | some params => params.doRemotePrefill

/-- The request lists as many remote blocks as its prompt fills. -/
def listsPrompt (cfg : Config) (seq : Sequence) : Bool :=
  match seq.kvTransferParams with
  | none => true
  | some params => params.remoteBlockIds.length == cdiv seq.numPromptTokens cfg.blockSize

/-- `params["do_remote_prefill"] = False`. -/
def clearRemotePrefill (seq : Sequence) : Sequence :=
  { seq with
    kvTransferParams := seq.kvTransferParams.map fun params =>
      { params with doRemotePrefill := false } }

end Sequence

namespace NixlConnectorScheduler

/-- Prompt tokens past `numComputedTokens` whose KV can come from elsewhere,
and whether it loads async.  A list of the wrong length turns the load off. -/
def getNumNewMatchedTokens (cfg : Config) (seq : Sequence) (numComputedTokens : Nat) :
    Sequence × Int × Bool :=
  match seq.kvTransferParams with
  | none => (seq, 0, false)
  | some params =>
      if params.doRemotePrefill then
        if params.remoteBlockIds.length ≠ cdiv seq.numPromptTokens cfg.blockSize then
          (seq.clearRemotePrefill, 0, false)
        else
          (seq, (seq.numPromptTokens : Int) - numComputedTokens, true)
      else (seq, 0, false)

/-- Queue the load into the blocks not already cached here.  One load per
request, so a preempted one recomputes. -/
def updateStateAfterAlloc (cfg : Config) (connector : NixlConnectorScheduler) (seq : Sequence) :
    NixlConnectorScheduler × Sequence :=
  match seq.kvTransferParams with
  | none => (connector, seq)
  | some params =>
      let numLocalBlocks := seq.numCachedTokens / cfg.blockSize
      ({ connector with
          reqsToRecv := connector.reqsToRecv.insert seq.requestId
            { localBlockIds := seq.blockTable.drop numLocalBlocks
              remoteBlockIds := params.remoteBlockIds.drop numLocalBlocks
              remoteRequestId := params.remoteRequestId
              remoteEngineId := params.remoteEngineId
              remoteHost := params.remoteHost
              remotePort := params.remotePort
              remoteTpSize := params.tpSize } },
        seq.clearRemotePrefill)

/-- This step's metadata for the workers.  Resets what it hands over. -/
def buildConnectorMeta (connector : NixlConnectorScheduler) :
    KVConnectorMetadata × NixlConnectorScheduler :=
  ({ reqsToRecv := connector.reqsToRecv, reqsToSend := connector.reqsToSend }, {})

/-- Whether to hold the sequence's blocks until a worker reports them sent,
and the `kv_transfer_params` to return.  A prefill that hit its `max_tokens` or
a stop token hands over; an abort ends there. -/
def requestFinished (cfg : Config) (kv : KVTransferConfig) (connector : NixlConnectorScheduler)
    (seq : Sequence) : NixlConnectorScheduler × Bool × Option KVTransferParams :=
  match seq.kvTransferParams with
  | none => (connector, false, none)
  | some params =>
      if params.doRemoteDecode ∧
          (seq.finishReason = some .length ∨ seq.finishReason = some .stop) then
        let blockIds := seq.blockTable.take (cdiv seq.numPromptTokens cfg.blockSize)
        ({ connector with reqsToSend := connector.reqsToSend.insert seq.requestId blockIds },
          true,
          some
            { doRemotePrefill := true
              doRemoteDecode := false
              remoteRequestId := seq.requestId
              remoteEngineId := kv.engineId
              remoteBlockIds := blockIds.map Int.ofNat
              remoteHost := kv.kvIp
              remotePort := kv.kvPort
              tpSize := cfg.tensorParallelSize })
      else (connector, false, none)

end NixlConnectorScheduler

end LeanVllm
