import Mathlib.Data.Finset.Basic
import Mathlib.Data.List.Perm.Subperm
import LeanVllm.Collections.Rounds
import LeanVllm.KvTransfer.Base

/-!
# Transfers over all ranks

Each rank reports a transfer by itself, in some step.  `KVOutputAggregator`
counts the reports under the request's id and passes the transfer on with the
last one.  An id may then be used again, so the reports of one id fall into
rounds, one report from each rank.
-/

namespace LeanVllm

open Collections

/-- A transfer is over once every rank has reported it; a load failed if any
rank's did. -/
structure KVOutputAggregator where
  worldSize : Nat
  sent : Dict RequestId Nat := ∅
  recved : Dict RequestId Nat := ∅
  failed : Finset RequestId := ∅
  expired : Finset RequestId := ∅
  stats : Dict RequestId KVTransferStats := ∅
  deriving DecidableEq

namespace KVOutputAggregator

/-- One turn of the loop over a report's `recv_stats`. -/
def addStats (aggregator : KVOutputAggregator) (item : Sigma fun _ : RequestId => KVTransferStats) :
    KVOutputAggregator :=
  { aggregator with
    stats := aggregator.stats.insert item.1 <|
      match aggregator.stats.lookup item.1 with
      | none => item.2
      | some seen => seen.merge item.2 }

/-- One turn of the loop over a report's `finished_sending`. -/
def countSent (state : KVOutputAggregator × KVConnectorOutput) (requestId : RequestId) :
    KVOutputAggregator × KVConnectorOutput :=
  let (aggregator, result) := state
  let count := (aggregator.sent.lookup requestId).getD 0 + 1
  if count = aggregator.worldSize then
    let aggregator := { aggregator with sent := aggregator.sent.erase requestId }
    let result := { result with finishedSending := result.finishedSending.insert requestId }
    if requestId ∈ aggregator.expired then
      ({ aggregator with expired := aggregator.expired.erase requestId },
        { result with expiredSending := result.expiredSending.insert requestId })
    else (aggregator, result)
  else ({ aggregator with sent := aggregator.sent.insert requestId count }, result)

/-- One turn of the loop over a report's `finished_recving | failed_recving`. -/
def countRecved (state : KVOutputAggregator × KVConnectorOutput) (requestId : RequestId) :
    KVOutputAggregator × KVConnectorOutput :=
  let (aggregator, result) := state
  let count := (aggregator.recved.lookup requestId).getD 0 + 1
  if count = aggregator.worldSize then
    let stats := aggregator.stats.lookup requestId
    let done := { aggregator with
      recved := aggregator.recved.erase requestId
      failed := aggregator.failed.erase requestId
      stats := aggregator.stats.erase requestId }
    if requestId ∈ aggregator.failed then
      (done, { result with failedRecving := result.failedRecving.insert requestId })
    else
      (done, { result with
        finishedRecving := result.finishedRecving.insert requestId
        recvStats :=
          match stats with
          | none => result.recvStats
          | some stats => result.recvStats.insert requestId stats })
  else ({ aggregator with recved := aggregator.recved.insert requestId count }, result)

/-- One turn of the loop over the ranks' reports. -/
def absorb (state : KVOutputAggregator × KVConnectorOutput) (output : KVConnectorOutput) :
    KVOutputAggregator × KVConnectorOutput :=
  let aggregator := { state.1 with
    failed := state.1.failed ∪ output.failedRecving.toFinset
    expired := state.1.expired ∪ output.expiredSending.toFinset }
  let aggregator := output.recvStats.entries.foldl addStats aggregator
  let state := output.finishedSending.foldl countSent (aggregator, state.2)
  (output.finishedRecving ∪ output.failedRecving).foldl countRecved state

def aggregate (aggregator : KVOutputAggregator) (outputs : List KVConnectorOutput) :
    KVOutputAggregator × KVConnectorOutput :=
  outputs.foldl absorb (aggregator, {})

/-- Call after call, with what each returns. -/
def aggregateAll (aggregator : KVOutputAggregator) :
    List (List KVConnectorOutput) → KVOutputAggregator × List KVConnectorOutput
  | [] => (aggregator, [])
  | outputs :: calls =>
      let (aggregator, result) := aggregator.aggregate outputs
      let (aggregator, results) := aggregateAll aggregator calls
      (aggregator, result :: results)

/-! ## One request in the tables -/

/-- What the tables and the result under construction say of a send. -/
structure SendView where
  worldSize : Nat
  count : Option Nat
  expired : Bool
  finished : Bool
  finishedExpired : Bool

def sendView (state : KVOutputAggregator × KVConnectorOutput) (requestId : RequestId) :
    SendView where
  worldSize := state.1.worldSize
  count := state.1.sent.lookup requestId
  expired := requestId ∈ state.1.expired
  finished := requestId ∈ state.2.finishedSending
  finishedExpired := requestId ∈ state.2.expiredSending

/-- One more report of the send. -/
def SendView.counted (view : SendView) : SendView :=
  if view.count.getD 0 + 1 = view.worldSize then
    { view with
      count := none
      expired := false
      finished := true
      finishedExpired := view.finishedExpired || view.expired }
  else { view with count := some (view.count.getD 0 + 1) }

/-- What the tables and the result under construction say of a load. -/
structure LoadView where
  worldSize : Nat
  count : Option Nat
  failed : Bool
  stats : Option KVTransferStats
  finished : Bool
  finishedFailed : Bool
  finishedStats : Option KVTransferStats

def loadView (state : KVOutputAggregator × KVConnectorOutput) (requestId : RequestId) :
    LoadView where
  worldSize := state.1.worldSize
  count := state.1.recved.lookup requestId
  failed := requestId ∈ state.1.failed
  stats := state.1.stats.lookup requestId
  finished := requestId ∈ state.2.finishedRecving
  finishedFailed := requestId ∈ state.2.failedRecving
  finishedStats := state.2.recvStats.lookup requestId

/-- One more report of the load. -/
def LoadView.counted (view : LoadView) : LoadView :=
  if view.count.getD 0 + 1 = view.worldSize then
    let done := { view with count := none, failed := false, stats := none }
    if view.failed then { done with finishedFailed := true }
    else { done with finished := true, finishedStats := view.stats <|> view.finishedStats }
  else { view with count := some (view.count.getD 0 + 1) }

variable {state : KVOutputAggregator × KVConnectorOutput} {requestId other : RequestId}

theorem countSent_own (state : KVOutputAggregator × KVConnectorOutput) (requestId : RequestId) :
    sendView (countSent state requestId) requestId = (sendView state requestId).counted := by
  obtain ⟨aggregator, result⟩ := state
  simp only [countSent, sendView, SendView.counted]
  split
  · rename_i last
    split
    · rename_i late
      simp [last, late]
    · rename_i timely
      simp [last, timely]
  · rename_i waits
    simp [waits]

theorem countSent_other (state : KVOutputAggregator × KVConnectorOutput) (requestId : RequestId)
    (other : RequestId) (different : other ≠ requestId) :
    sendView (countSent state requestId) other = sendView state other := by
  obtain ⟨aggregator, result⟩ := state
  simp only [countSent, sendView]
  split
  · split <;> simp [different]
  · simp [different]

theorem countSent_loads (state : KVOutputAggregator × KVConnectorOutput) (requestId : RequestId)
    (other : RequestId) : loadView (countSent state requestId) other = loadView state other := by
  obtain ⟨aggregator, result⟩ := state
  simp only [countSent]
  split
  · split <;> rfl
  · rfl

theorem countRecved_own (state : KVOutputAggregator × KVConnectorOutput) (requestId : RequestId) :
    loadView (countRecved state requestId) requestId = (loadView state requestId).counted := by
  obtain ⟨aggregator, result⟩ := state
  simp only [countRecved, loadView, LoadView.counted]
  split
  · rename_i last
    split
    · rename_i bad
      simp [last, bad]
    · rename_i good
      cases stored : aggregator.stats.lookup requestId <;> simp [last, good]
  · rename_i waits
    simp [waits]

theorem countRecved_other (state : KVOutputAggregator × KVConnectorOutput) (requestId : RequestId)
    (other : RequestId) (different : other ≠ requestId) :
    loadView (countRecved state requestId) other = loadView state other := by
  obtain ⟨aggregator, result⟩ := state
  simp only [countRecved, loadView]
  split
  · split
    · simp [different]
    · cases aggregator.stats.lookup requestId <;> simp [different]
  · simp [different]

theorem countRecved_sends (state : KVOutputAggregator × KVConnectorOutput) (requestId : RequestId)
    (other : RequestId) : sendView (countRecved state requestId) other = sendView state other := by
  obtain ⟨aggregator, result⟩ := state
  simp only [countRecved]
  split
  · split <;> rfl
  · rfl

/-- The stats of a request with one more rank's. -/
def mergeStats : Option KVTransferStats → KVTransferStats → KVTransferStats
  | none, stats => stats
  | some seen, stats => seen.merge stats

/-- The stats of a request after one more report, which may have none. -/
def withStats (seen : Option KVTransferStats) : Option KVTransferStats → Option KVTransferStats
  | none => seen
  | some stats => some (mergeStats seen stats)

theorem lookup_addStats (aggregator : KVOutputAggregator)
    (item : Sigma fun _ : RequestId => KVTransferStats) :
    (aggregator.addStats item).stats.lookup item.1 =
      some (mergeStats (aggregator.stats.lookup item.1) item.2) := by
  cases stored : aggregator.stats.lookup item.1 <;> simp [addStats, stored, mergeStats]

theorem lookup_addStats_other (aggregator : KVOutputAggregator)
    (item : Sigma fun _ : RequestId => KVTransferStats) (other : RequestId)
    (different : other ≠ item.1) :
    (aggregator.addStats item).stats.lookup other = aggregator.stats.lookup other := by
  simp [addStats, different]

/-- The loop over `recv_stats` merges each rank's stats into those of its
request, and touches nothing else. -/
theorem foldl_addStats (aggregator : KVOutputAggregator)
    (recvStats : Dict RequestId KVTransferStats) :
    recvStats.entries.foldl addStats aggregator =
        { aggregator with stats := (recvStats.entries.foldl addStats aggregator).stats } ∧
      ∀ requestId, (recvStats.entries.foldl addStats aggregator).stats.lookup requestId =
        withStats (aggregator.stats.lookup requestId) (recvStats.lookup requestId) := by
  constructor
  · generalize recvStats.entries = items
    induction items generalizing aggregator with
    | nil => rfl
    | cons item items ih =>
        rw [List.foldl_cons, ih]
        rfl
  · intro requestId
    cases found : recvStats.lookup requestId with
    | none =>
        exact foldl_view_of_notMem (fun aggregator key => aggregator.stats.lookup key) Sigma.fst
          lookup_addStats_other (AList.lookup_eq_none.mp found) aggregator
    | some stats =>
        exact foldl_view_of_mem (fun aggregator key => aggregator.stats.lookup key) Sigma.fst
          (fun item seen => some (mergeStats seen item.2)) lookup_addStats lookup_addStats_other
          recvStats.nodupKeys (AList.mem_lookup_iff.mp found) aggregator

end KVOutputAggregator

/-- A report as a rank makes it: sets, an expired send among the finished ones, and
a load either finished, with its stats, or failed. -/
structure KVConnectorOutput.Reported (output : KVConnectorOutput) : Prop where
  sending : output.finishedSending.Nodup
  recving : output.finishedRecving.Nodup
  failing : output.failedRecving.Nodup
  expired : ∀ requestId ∈ output.expiredSending, requestId ∈ output.finishedSending
  apart : ∀ requestId ∈ output.finishedRecving, requestId ∉ output.failedRecving
  stats : ∀ requestId, requestId ∈ output.recvStats ↔ requestId ∈ output.finishedRecving

namespace KVOutputAggregator

variable {state : KVOutputAggregator × KVConnectorOutput} {output : KVConnectorOutput}
  {requestId : RequestId}

/-- A rank's report in the eyes of a send. -/
theorem sendView_absorb (reported : output.Reported) (state : KVOutputAggregator × KVConnectorOutput)
    (requestId : RequestId) :
    sendView (absorb state output) requestId =
      if requestId ∈ output.finishedSending then
        { sendView state requestId with
          expired := requestId ∈ state.1.expired ∨ requestId ∈ output.expiredSending }.counted
      else sendView state requestId := by
  have loads : ∀ (start : KVOutputAggregator × KVConnectorOutput) (keys : List RequestId),
      sendView (keys.foldl countRecved start) requestId = sendView start requestId := by
    intro start keys
    induction keys generalizing start with
    | nil => rfl
    | cons key keys ih => rw [List.foldl_cons, ih, countRecved_sends]
  rw [absorb, loads]
  obtain ⟨only, _⟩ := foldl_addStats { state.1 with
    failed := state.1.failed ∪ output.failedRecving.toFinset
    expired := state.1.expired ∪ output.expiredSending.toFinset } output.recvStats
  split
  · rename_i member
    have counted := foldl_view_of_mem sendView id (fun _ view => view.counted) countSent_own
      countSent_other (by simpa using reported.sending) member
    rw [id_eq] at counted
    rw [counted, only]
    simp [sendView]
  · rename_i absent
    rw [foldl_view_of_notMem sendView id countSent_other (by simpa using absent), only]
    have timely : requestId ∉ output.expiredSending :=
      fun late => absent (reported.expired requestId late)
    simp [sendView, timely]

/-- A rank's report in the eyes of a load. -/
theorem loadView_absorb (reported : output.Reported) (state : KVOutputAggregator × KVConnectorOutput)
    (requestId : RequestId) :
    loadView (absorb state output) requestId =
      if requestId ∈ output.finishedRecving ∨ requestId ∈ output.failedRecving then
        { loadView state requestId with
          failed := requestId ∈ state.1.failed ∨ requestId ∈ output.failedRecving
          stats := withStats (state.1.stats.lookup requestId)
            (output.recvStats.lookup requestId) }.counted
      else loadView state requestId := by
  have sends : ∀ (start : KVOutputAggregator × KVConnectorOutput) (keys : List RequestId),
      loadView (keys.foldl countSent start) requestId = loadView start requestId := by
    intro start keys
    induction keys generalizing start with
    | nil => rfl
    | cons key keys ih => rw [List.foldl_cons, ih, countSent_loads]
  obtain ⟨only, merged⟩ := foldl_addStats { state.1 with
    failed := state.1.failed ∪ output.failedRecving.toFinset
    expired := state.1.expired ∪ output.expiredSending.toFinset } output.recvStats
  have distinct : (output.finishedRecving ∪ output.failedRecving).Nodup :=
    reported.failing.union _
  rw [absorb]
  split
  · rename_i member
    have counted := foldl_view_of_mem loadView id (fun _ view => view.counted) countRecved_own
      countRecved_other (by simpa using distinct) (List.mem_union_iff.mpr member)
    rw [id_eq] at counted
    rw [counted, sends, only]
    simp [loadView, merged]
  · rename_i absent
    have missing : requestId ∉ output.finishedRecving ∪ output.failedRecving := by
      rwa [List.mem_union_iff]
    rw [foldl_view_of_notMem loadView id countRecved_other (by simpa using missing), sends, only]
    rw [not_or] at absent
    have unstated : output.recvStats.lookup requestId = none := by
      rw [AList.lookup_eq_none, reported.stats]
      exact absent.1
    simp [loadView, merged, unstated, withStats, absent.2]

end KVOutputAggregator

end LeanVllm
