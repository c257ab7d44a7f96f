import Mathlib.Data.List.AList
import Mathlib.Data.Prod.Lex
import LeanVllm.Collections.Dict

/-!
# Configuration, faults and sequences

`Sequence` is the engine's record of one request.  The records are shared
mutable objects in the source, so every container of the scheduler holds their
ids (`seq_id`) and a heap maps ids to records.  A Python exception is a
`Fault`: an operation that may raise returns `Except Fault`.
-/

namespace LeanVllm

abbrev Token := Int
abbrev Hash := Int
abbrev BlockId := Nat
abbrev SeqId := Nat
abbrev RequestId := String

/-- `PLACEHOLDER_TOKEN_ID`: a draft the host does not know yet. -/
def placeholderTokenId : Token := -1

/-- What the engine's code can raise.  `outOfFuel` is raised by no Python
code: it marks a loop that would still be running after its bound, so a proof
that an operation returns also proves that its loops end. -/
inductive Fault where
  | assertion (message : String)
  | keyError
  | valueError
  | indexError
  | invalidRequest (message : String)
  | duplicateRequestId (requestId : RequestId)
  | outOfFuel
  deriving DecidableEq, Repr

inductive SchedulingPolicy where
  | fcfs
  | priority
  deriving DecidableEq, Repr

inductive KVRole where
  | kvProducer
  | kvConsumer
  | kvBoth
  deriving DecidableEq, Repr

/-- `KVTransferConfig`, less the fields only its parser reads. -/
structure KVTransferConfig where
  kvRole : KVRole
  kvIp : String
  kvPort : Int
  engineId : String
  deriving DecidableEq, Repr

namespace KVRole

def isProducer (role : KVRole) : Bool :=
  role == kvProducer || role == kvBoth

def isConsumer (role : KVRole) : Bool :=
  role == kvConsumer || role == kvBoth

/-- The role as `--kv-transfer-config` spells it. -/
def name : KVRole → String
  | kvProducer => "kv_producer"
  | kvConsumer => "kv_consumer"
  | kvBoth => "kv_both"

end KVRole

/-- The engine settings the scheduler, the block manager and the connector
read.  `numSpeculativeTokens` is 0 when `speculative` is `None`, since a
`SpeculativeConfig` has at least one.  `hashAlgo` returns a natural number, as
`int.from_bytes` of a digest does, so no block hash is the sentinel -1. -/
structure Config where
  maxNumSeqs : Nat
  maxNumBatchedTokens : Nat
  maxModelLen : Nat
  vocabSize : Nat
  eos : Token
  blockSize : Nat
  blockSize_pos : 0 < blockSize
  numKvcacheBlocks : Nat
  enableChunkedPrefill : Bool
  enablePrefixCaching : Bool
  asyncScheduling : Bool
  longPrefillTokenThreshold : Nat
  schedulingPolicy : SchedulingPolicy
  numSpeculativeTokens : Nat
  tensorParallelSize : Nat
  kvTransfer : Option KVTransferConfig
  hashAlgo : List Token → Hash → Nat

namespace Config

/-- `recompute_last_hit=speculative is not None`. -/
def recomputeLastHit (cfg : Config) : Bool :=
  cfg.numSpeculativeTokens != 0

/-- Extra KV slots needed for speculative decoding. -/
def numLookaheadTokens (cfg : Config) : Nat :=
  cfg.numSpeculativeTokens - 1

end Config

inductive SequenceStatus where
  | waiting
  | waitingForRemoteKvs
  | running
  | finished
  deriving DecidableEq, Repr, Inhabited

/-- `finish_reason`.  An abort may carry any text. -/
inductive FinishReason where
  | stop
  | length
  | capacity
  | abort
  | other (reason : String)
  deriving DecidableEq, Repr

/-- `kv_transfer_params`, the keys the connector reads. -/
structure KVTransferParams where
  doRemotePrefill : Bool
  doRemoteDecode : Bool
  remoteBlockIds : List Int
  remoteRequestId : RequestId
  remoteEngineId : String
  remoteHost : String
  remotePort : Int
  tpSize : Int
  deriving DecidableEq, Repr

/-- `SamplingParams`, less what only the sampler and the detokenizer read. -/
structure SamplingParams where
  maxTokens : Nat
  maxTokens_pos : 0 < maxTokens
  ignoreEos : Bool
  stopTokenIds : List Token
  priority : Int
  kvTransferParams : Option KVTransferParams

structure Sequence where
  requestId : RequestId
  status : SequenceStatus
  tokenIds : List Token
  numPromptTokens : Nat
  numCachedTokens : Nat
  numPendingTokens : Nat
  numPublishedBlocks : Nat
  numScheduledTokens : Nat
  numNewTokens : Nat
  specTokenIds : List Token
  isPrefill : Bool
  blockTable : List BlockId
  blockHashes : List Hash
  maxTokens : Nat
  ignoreEos : Bool
  stopTokenIds : List Token
  priority : Int
  kvTransferParams : Option KVTransferParams
  kvTransferResult : Option KVTransferParams
  finishReason : Option FinishReason
  numPreemptions : Nat
  arrivalTime : Nat
  deriving DecidableEq, Repr, Inhabited

namespace Sequence

/-- `num_tokens`, which the source keeps equal to `len(token_ids)`. -/
def numTokens (seq : Sequence) : Nat :=
  seq.tokenIds.length

def isFinished (seq : Sequence) : Bool :=
  seq.status == .finished

def numCompletionTokens (seq : Sequence) : Nat :=
  seq.numTokens - seq.numPromptTokens

/-- Total committed and reserved tokens that block allocation must cover. -/
def numPlannedTokens (seq : Sequence) : Nat :=
  seq.numTokens + seq.numPendingTokens

def promptTokenIds (seq : Sequence) : List Token :=
  seq.tokenIds.take seq.numPromptTokens

def completionTokenIds (seq : Sequence) : List Token :=
  seq.tokenIds.drop seq.numPromptTokens

def lastToken (seq : Sequence) : Token :=
  seq.tokenIds.getLast?.getD placeholderTokenId

def numBlocks (cfg : Config) (seq : Sequence) : Nat :=
  (seq.numPlannedTokens + cfg.blockSize - 1) / cfg.blockSize

/-- The slice `token_ids[i * block_size : (i + 1) * block_size]`. -/
def blockTokens (cfg : Config) (tokenIds : List Token) (i : Nat) : List Token :=
  (tokenIds.drop (i * cfg.blockSize)).take cfg.blockSize

def block (cfg : Config) (seq : Sequence) (i : Nat) : Except Fault (List Token) :=
  if i < seq.numBlocks cfg then .ok (blockTokens cfg seq.tokenIds i)
  else .error (.assertion "0 <= i < self.num_blocks")

/-- The loop of `_extend_block_hashes`: its index is the number of hashes so
far, and the first block chains from -1. -/
def extendBlockHashesLoop (cfg : Config) : Nat → Sequence → Except Fault Sequence
  | 0, seq => .ok seq
  | n + 1, seq => do
      let tokens ← seq.block cfg seq.blockHashes.length
      let previous := seq.blockHashes.getLast?.getD (-1)
      extendBlockHashesLoop cfg n
        { seq with blockHashes := seq.blockHashes ++ [(cfg.hashAlgo tokens previous : Hash)] }

/-- Hash each newly full block once, including the previous block's hash to
form a chain. -/
def extendBlockHashes (cfg : Config) (seq : Sequence) : Except Fault Sequence :=
  if cfg.enablePrefixCaching then
    extendBlockHashesLoop cfg (seq.numTokens / cfg.blockSize - seq.blockHashes.length) seq
  else
    .ok seq

/-- `Sequence.__init__`, for the request id it is given or derives from its
`seq_id`.  `token_ids[-1]` fails on an empty prompt. -/
def create (cfg : Config) (tokenIds : List Token) (params : SamplingParams)
    (requestId : RequestId) (arrivalTime : Nat) : Except Fault Sequence :=
  if tokenIds = [] then .error .indexError
  else
    extendBlockHashes cfg
      { requestId := requestId
        status := .waiting
        tokenIds := tokenIds
        numPromptTokens := tokenIds.length
        numCachedTokens := 0
        numPendingTokens := 0
        numPublishedBlocks := 0
        numScheduledTokens := 0
        numNewTokens := 0
        specTokenIds := []
        isPrefill := true
        blockTable := []
        blockHashes := []
        maxTokens := params.maxTokens
        ignoreEos := params.ignoreEos
        stopTokenIds := params.stopTokenIds
        priority := params.priority
        kvTransferParams := params.kvTransferParams
        kvTransferResult := none
        finishReason := none
        numPreemptions := 0
        arrivalTime := arrivalTime }

/-- Reserve space for sampled or retained draft tokens whose values are not
yet known. -/
def reserveToken (seq : Sequence) (numTokens : Nat) : Sequence :=
  { seq with numPendingTokens := seq.numPendingTokens + numTokens }

def commitToken (cfg : Config) (seq : Sequence) (tokenId : Token) : Except Fault Sequence :=
  if seq.numPendingTokens = 0 then
    .error (.assertion "commit_token without a reservation")
  else
    extendBlockHashes cfg
      { seq with
        tokenIds := seq.tokenIds ++ [tokenId]
        numPendingTokens := seq.numPendingTokens - 1 }

/-- Clear token reservations on preemption, abort or finish. -/
def dropPending (seq : Sequence) : Sequence :=
  { seq with numPendingTokens := 0 }

end Sequence

end LeanVllm
