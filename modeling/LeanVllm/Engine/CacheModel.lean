import LeanVllm.Collections.Writes
import LeanVllm.Engine.BlockConservation
import LeanVllm.Engine.Streams
import LeanVllm.Engine.WriteExclusivity

/-!
# The contents of the KV cache

A slot of the cache holds keys computed from a token prefix, and the model
keeps that prefix.  A launched batch writes, for each position its rows feed,
the prefix that ends there; a load that finished leaves the prefixes of the
prompt in its local blocks, and one that failed leaves anything.  The engine
decides which slots these are; the prefixes are what the device computes.
-/

namespace LeanVllm

open Collections

/-- The token prefix each slot's keys were computed from. -/
abbrev Cache := BlockId × Nat → List Token

namespace Sequence

/-- What a sequence reads at position `p`. -/
def read (cfg : Config) (cache : Cache) (seq : Sequence) (p : Nat) : Option (List Token) :=
  (seq.slot cfg p).map cache

/-- At its first `n` positions the sequence reads the prefixes of `tokens`. -/
def Reads (cfg : Config) (cache : Cache) (seq : Sequence) (tokens : List Token) (n : Nat) : Prop :=
  ∀ p < n, seq.read cfg cache p = some (tokens.take (p + 1))

/-- The blocks a remote prefill is loaded into. -/
def localBlocks (cfg : Config) (seq : Sequence) : List BlockId :=
  seq.blockTable.drop (seq.numCachedTokens / cfg.blockSize)

end Sequence

/-- The slots a row writes, in the order of its input, with the prefix that
ends at each position. -/
def RowInput.writes (cfg : Config) (seq : Sequence) (input : RowInput) :
    List ((BlockId × Nat) × List Token) :=
  (List.range input.inputIds.length).filterMap fun j =>
    (seq.slot cfg (input.start + j)).map fun slot =>
      (slot, (input.context ++ input.inputIds).take (input.start + j + 1))

/-- The cache after a batch ran. -/
def Scheduler.Batch.write (cfg : Config) (batch : Scheduler.Batch) (cache : Cache) : Cache :=
  writeAll cache
    (batch.inputs.flatMap fun input => input.writes cfg (batch.reported.heap input.seq))

/-- The row of `seq` attends to its own tokens: before the batch every earlier
position holds its prefix, and after the batch so do the positions it fed, which
are those of the committed tokens as far as they go. -/
structure RowInput.Attends (cfg : Config) (seq : Sequence) (before after : Cache)
    (input : RowInput) : Prop where
  length : input.context.length = input.start
  context : seq.Reads cfg before input.context input.start
  inputs : seq.Reads cfg after (input.context ++ input.inputIds)
    (input.start + input.inputIds.length)
  committed : seq.Reads cfg after seq.tokenIds
    (min (input.start + input.inputIds.length) seq.numTokens)

/-- The loads a step reports as over have written their local blocks: the
finished ones the prompt's prefixes, the failed ones anything. -/
structure Loads (cfg : Config) (s : Scheduler) (env : StepEnv) (before after : Cache) : Prop where
  elsewhere : ∀ slot : BlockId × Nat,
    (∀ requestId ∈ env.recvOrder, ∀ i, s.recving.lookup requestId = some i →
      slot.1 ∉ (s.heap i).localBlocks cfg) → after slot = before slot
  finished : ∀ requestId ∈ env.recvOrder, requestId ∈ env.kvOutput.finishedRecving →
    ∀ i, s.recving.lookup requestId = some i →
    ∀ p, (s.heap i).numCachedTokens ≤ p → p < (s.heap i).numPromptTokens →
      (s.heap i).read cfg after p = some ((s.heap i).promptTokenIds.take (p + 1))

/-- Verification keeps some leading drafts of each sampling row and adds a
token. -/
def StepEnv.Verifies (env : StepEnv) : Prop :=
  ∀ input : RowInput, input.samples = true → ∃ n token,
    (env.forward input).tokens = input.drafts.take n ++ [token]

/-- An action of a run together with what it does to the cache. -/
inductive CacheNext (cfg : Config) :
    LLMEngine × Cache → LLMEngine.Action → LLMEngine × Cache → Prop
  | add {engine next : LLMEngine} {cache : Cache} {i : SeqId} {prompt : List Token}
      {params : SamplingParams} {requestId : Option RequestId} {arrivalTime : Nat}
      {result : Except Fault RequestId}
      (added : LLMEngine.Next cfg engine
        (.add i prompt params requestId arrivalTime result) next) :
      CacheNext cfg (engine, cache) (.add i prompt params requestId arrivalTime result)
        (next, cache)
  | abort {engine next : LLMEngine} {cache : Cache} {i : Option SeqId} {requestId : RequestId}
      {reason : FinishReason} {aborted : Bool}
      (ended : LLMEngine.Next cfg engine (.abort i requestId reason aborted) next) :
      CacheNext cfg (engine, cache) (.abort i requestId reason aborted) (next, cache)
  | step {engine next : LLMEngine} {cache loaded : Cache} {env : StepEnv}
      {outputs : List (SeqId × RequestOutput)} {batch : Scheduler.Batch}
      (stepped : LLMEngine.Next cfg engine (.step env outputs) next) (verifies : env.Verifies)
      (batched : engine.batch cfg env = .ok batch)
      (loads : Loads cfg batch.planned env cache loaded) :
      CacheNext cfg (engine, cache) (.step env outputs) (next, batch.write cfg loaded)

/-- The runs of a new engine over a cache of arbitrary contents. -/
abbrev CacheRun (cfg : Config) (contents : Cache) :
    List LLMEngine.Action → LLMEngine × Cache → Prop :=
  Transition.Run (CacheNext cfg) (LLMEngine.create cfg, contents)

/-! ## Reading -/

namespace Sequence

variable {cfg : Config} {cache : Cache} {seq : Sequence} {tokens : List Token} {n p : Nat}

theorem slot_eq_some_iff {slot : BlockId × Nat} : seq.slot cfg p = some slot ↔
    seq.blockTable[p / cfg.blockSize]? = some slot.1 ∧ slot.2 = p % cfg.blockSize := by
  rw [Sequence.slot, Option.map_eq_some_iff]
  constructor
  · rintro ⟨blockId, found, rfl⟩
    exact ⟨found, rfl⟩
  · rintro ⟨found, offset⟩
    exact ⟨slot.1, found, by rw [← offset]⟩

/-- The position of offset `o` in block `k`. -/
theorem slot_block {k o : Nat} {blockId : BlockId} (found : seq.blockTable[k]? = some blockId)
    (inside : o < cfg.blockSize) : seq.slot cfg (k * cfg.blockSize + o) = some (blockId, o) := by
  rw [slot_eq_some_iff, Nat.mul_comm, Nat.mul_add_div cfg.blockSize_pos, Nat.mul_add_mod,
    Nat.div_eq_of_lt inside, Nat.mod_eq_of_lt inside, Nat.add_zero]
  exact ⟨found, rfl⟩

/-- A table without repetitions gives every position a slot of its own. -/
theorem slot_inj (distinct : seq.blockTable.Nodup) {q : Nat} {slot : BlockId × Nat}
    (first : seq.slot cfg p = some slot) (second : seq.slot cfg q = some slot) : p = q := by
  rw [slot_eq_some_iff] at first second
  have sameIndex : p / cfg.blockSize = q / cfg.blockSize := by
    obtain ⟨inside, _⟩ := List.getElem?_eq_some_iff.mp first.1
    exact (List.getElem?_inj inside distinct).mp (first.1.trans second.1.symm)
  have sameOffset := first.2.symm.trans second.2
  rw [← Nat.div_add_mod p cfg.blockSize, sameIndex, sameOffset, Nat.div_add_mod]

theorem read_eq {slot : BlockId × Nat} (found : seq.slot cfg p = some slot) :
    seq.read cfg cache p = some (cache slot) := by
  rw [read, found, Option.map_some]

theorem Reads.mono (reads : seq.Reads cfg cache tokens n) {m : Nat} (fewer : m ≤ n) :
    seq.Reads cfg cache tokens m :=
  fun p below => reads p (below.trans_le fewer)

theorem Reads.slot (reads : seq.Reads cfg cache tokens n) (below : p < n) :
    ∃ found, seq.slot cfg p = some found ∧ cache found = tokens.take (p + 1) :=
  Option.map_eq_some_iff.mp (reads p below)

/-- Only the first tokens matter. -/
theorem Reads.agree (reads : seq.Reads cfg cache tokens n) {others : List Token}
    (same : tokens.take n = others.take n) : seq.Reads cfg cache others n := by
  intro p below
  rw [reads p below]
  have cut := congrArg (List.take (p + 1)) same
  rw [List.take_take, List.take_take, Nat.min_eq_left below] at cut
  rw [cut]

/-- Only the read slots matter. -/
theorem Reads.elsewhere (reads : seq.Reads cfg cache tokens n) {after : Cache}
    (same : ∀ p < n, ∀ slot, seq.slot cfg p = some slot → after slot = cache slot) :
    seq.Reads cfg after tokens n := by
  intro p below
  obtain ⟨found, slotEq, value⟩ := reads.slot below
  rw [read_eq slotEq, same p below found slotEq, value]

/-- A longer table reads the same. -/
theorem Reads.extend (reads : seq.Reads cfg cache tokens n) {after : Sequence}
    (longer : seq.blockTable <+: after.blockTable) : after.Reads cfg cache tokens n := by
  intro p below
  obtain ⟨found, slotEq, value⟩ := reads.slot below
  rw [slot_eq_some_iff] at slotEq
  have again : after.slot cfg p = some found := by
    rw [slot_eq_some_iff]
    obtain ⟨rest, tableEq⟩ := longer
    obtain ⟨inside, _⟩ := List.getElem?_eq_some_iff.mp slotEq.1
    rw [← tableEq, List.getElem?_append_left inside]
    exact slotEq
  rw [read_eq again, value]

end Sequence

end LeanVllm
