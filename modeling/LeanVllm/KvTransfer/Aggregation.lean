import LeanVllm.KvTransfer.Aggregator
import Mathlib.Algebra.GroupWithZero.Nat

/-!
# Every transfer is passed on once

The reports about one request's sends, and about its loads, come in rounds: a
transfer is over when each rank has reported it, and its id is used again in
later calls only.  The aggregator's tables hold the open rounds, so each round
closes in the call of its last report and leaves nothing behind.
-/

namespace LeanVllm

open Collections

/-- A rank's report, with the call of `aggregate` it comes in. -/
structure RankReport where
  call : Nat
  rank : Nat
  output : KVConnectorOutput

namespace RankReport

/-- The reports of some calls, from call `c` on. -/
def history : Nat → List (List (Nat × KVConnectorOutput)) → List RankReport
  | _, [] => []
  | c, reports :: calls =>
      (reports.map fun report => ⟨c, report.1, report.2⟩) ++ history (c + 1) calls

/-- The reports that end a request's sends. -/
def sendsOf (reports : List RankReport) (requestId : RequestId) : List RankReport :=
  reports.filter fun report => requestId ∈ report.output.finishedSending

/-- The reports that end a request's loads. -/
def loadsOf (reports : List RankReport) (requestId : RequestId) : List RankReport :=
  reports.filter fun report =>
    requestId ∈ report.output.finishedRecving ∨ requestId ∈ report.output.failedRecving

/-- A round with a property closes in call `c`. -/
def ClosesWith (n c : Nat) (entries : List RankReport) (property : List RankReport → Prop) : Prop :=
  ∃ k, Closed n k entries ∧ (roundAt n k entries).getLast?.map call = some c ∧
    property (roundAt n k entries)

/-- The rounds of `n` reports are the transfers: no rank reports one twice, and a
later one is reported in later calls. -/
structure Rounds (n : Nat) (entries : List RankReport) : Prop where
  once : ∀ k, ((roundAt n k entries).map rank).Nodup
  apart : ∀ j k, j < k → ∀ earlier ∈ roundAt n j entries, ∀ later ∈ roundAt n k entries,
    earlier.call < later.call

variable {n c : Nat} {entries : List RankReport} {report : RankReport}
  {property : List RankReport → Prop}

theorem ClosesWith.mono {other : List RankReport → Prop} (closes : ClosesWith n c entries property)
    (implies : ∀ round, property round → other round) : ClosesWith n c entries other := by
  obtain ⟨k, closed, last, holds⟩ := closes
  exact ⟨k, closed, last, implies _ holds⟩

/-- A report joins the open round or closes it. -/
theorem closesWith_snoc (positive : 0 < n) :
    ClosesWith n c (entries ++ [report]) property ↔
      ClosesWith n c entries property ∨
        ((openRound n entries).length + 1 = n ∧ report.call = c ∧
          property (openRound n entries ++ [report])) := by
  by_cases full : (openRound n entries).length + 1 = n
  · obtain ⟨_, own, closed⟩ := openRound_snoc_of_eq positive full report
    constructor
    · rintro ⟨k, isClosed, last, holds⟩
      rcases (closed k).mp isClosed with before | rfl
      · rw [before.roundAt_append] at last holds
        exact Or.inl ⟨k, before, last, holds⟩
      · rw [own] at last holds
        refine Or.inr ⟨full, ?_, holds⟩
        simpa using last
    · rintro (⟨k, before, last, holds⟩ | ⟨_, now, holds⟩)
      · refine ⟨k, before.append _, ?_, ?_⟩
        · rw [before.roundAt_append]
          exact last
        · rw [before.roundAt_append]
          exact holds
      · refine ⟨entries.length / n, (closed _).mpr (Or.inr rfl), ?_, ?_⟩
        · rw [own]
          simpa using now
        · rw [own]
          exact holds
  · obtain ⟨_, closed⟩ := openRound_snoc_of_ne positive full report
    constructor
    · rintro ⟨k, isClosed, last, holds⟩
      have before := (closed k).mp isClosed
      rw [before.roundAt_append] at last holds
      exact Or.inl ⟨k, before, last, holds⟩
    · rintro (⟨k, before, last, holds⟩ | ⟨filled, _⟩)
      · refine ⟨k, before.append _, ?_, ?_⟩
        · rw [before.roundAt_append]
          exact last
        · rw [before.roundAt_append]
          exact holds
      · exact absurd filled full

/-- Reports of other calls do not close a round in this one. -/
theorem closesWith_append (positive : 0 < n) {more : List RankReport}
    (others : ∀ report ∈ more, report.call ≠ c) :
    ClosesWith n c (entries ++ more) property ↔ ClosesWith n c entries property := by
  induction more using List.reverseRecOn with
  | nil => rw [List.append_nil]
  | append_singleton more report ih =>
      rw [← List.append_assoc, closesWith_snoc positive,
        ih fun other member => others other (List.mem_append_left _ member)]
      simp [others report (by simp)]

/-- Nothing closes in a call that has not come yet. -/
theorem not_closesWith_of_lt (earlier : ∀ report ∈ entries, report.call < c) :
    ¬ ClosesWith n c entries property := by
  rintro ⟨k, _, last, _⟩
  obtain ⟨report, found, rfl⟩ := Option.map_eq_some_iff.mp last
  have member := List.mem_of_getLast? found
  exact absurd (earlier report (List.mem_of_mem_drop (List.mem_of_mem_take member)))
    (Nat.lt_irrefl _)

theorem Rounds.of_append {more : List RankReport} (rounds : Rounds n (entries ++ more)) :
    Rounds n entries := by
  have grows := fun k => roundAt_prefix n k entries more
  constructor
  · intro k
    exact (rounds.once k).sublist ((grows k).sublist.map _)
  · intro j k order earlier first later second
    exact rounds.apart j k order earlier ((grows j).subset first) later ((grows k).subset second)

/-- When a report closes a round, no other round closes in its call. -/
theorem Rounds.not_closesWith (positive : 0 < n) (rounds : Rounds n (entries ++ [report]))
    (full : (openRound n entries).length + 1 = n) :
    ¬ ClosesWith n report.call entries property := by
  rintro ⟨k, closed, last, _⟩
  obtain ⟨_, own, _⟩ := openRound_snoc_of_eq positive full report
  obtain ⟨earlier, found, same⟩ := Option.map_eq_some_iff.mp last
  have before := rounds.apart k (entries.length / n) ((closed_iff positive).mp closed) earlier
    (by rw [closed.roundAt_append]; exact List.mem_of_getLast? found) report (by rw [own]; simp)
  omega

/-- A closed round has a report of each rank. -/
theorem Rounds.ranks (rounds : Rounds n entries) (ranked : ∀ report ∈ entries, report.rank < n)
    {k : Nat} (closed : Closed n k entries) :
    ((roundAt n k entries).map rank).Perm (List.range n) := by
  apply List.Subperm.perm_of_length_le
  · apply List.subperm_of_subset (rounds.once k)
    intro r member
    obtain ⟨report, among, rfl⟩ := List.mem_map.mp member
    exact List.mem_range.mpr (ranked report (List.mem_of_mem_drop (List.mem_of_mem_take among)))
  · rw [List.length_map, closed.length_roundAt, List.length_range]

end RankReport

namespace KVTransferStats

/-- The stats of some ranks together. -/
def mergeAll (stats : List KVTransferStats) : Option KVTransferStats :=
  stats.foldl (fun seen stats => some (KVOutputAggregator.mergeStats seen stats)) none

theorem mergeAll_snoc (stats : List KVTransferStats) (last : KVTransferStats) :
    mergeAll (stats ++ [last]) = some (KVOutputAggregator.mergeStats (mergeAll stats) last) := by
  rw [mergeAll, List.foldl_append]
  rfl

/-- The slowest of some ranks sets the time, and their bytes add up. -/
structure Totals (total : KVTransferStats) (stats : List KVTransferStats) : Prop where
  slowest : ∃ own ∈ stats, own.seconds = total.seconds
  within : ∀ own ∈ stats, own.seconds ≤ total.seconds
  numBytes : total.numBytes = (stats.map KVTransferStats.numBytes).sum

theorem totals_of_mergeAll {stats : List KVTransferStats} {total : KVTransferStats}
    (merged : mergeAll stats = some total) : total.Totals stats := by
  induction stats using List.reverseRecOn generalizing total with
  | nil => contradiction
  | append_singleton stats last ih =>
      rw [mergeAll_snoc] at merged
      obtain rfl := Option.some.inj merged
      cases earlier : mergeAll stats with
      | none =>
          have nothing : stats = [] := by
            cases stats using List.reverseRecOn with
            | nil => rfl
            | append_singleton stats other => simp [mergeAll_snoc] at earlier
          subst nothing
          exact ⟨⟨last, by simp, rfl⟩, by simp [KVOutputAggregator.mergeStats], by
            simp [KVOutputAggregator.mergeStats]⟩
      | some seen =>
          obtain ⟨⟨own, member, same⟩, within, numBytes⟩ := ih earlier
          refine ⟨?_, ?_, ?_⟩
          · rcases le_total seen.seconds last.seconds with slower | slower
            · exact ⟨last, by simp, (max_eq_right slower).symm⟩
            · exact ⟨own, by simp [member], same.trans (max_eq_left slower).symm⟩
          · intro other among
            rcases List.mem_append.mp among with old | new
            · exact (within other old).trans (le_max_left _ _)
            · obtain rfl := List.mem_singleton.mp new
              exact le_max_right _ _
          · rw [List.map_append, List.sum_append]
            simp [KVOutputAggregator.mergeStats, KVTransferStats.merge, numBytes]

end KVTransferStats

namespace KVOutputAggregator

open RankReport

variable {n c : Nat} {requestId : RequestId} {entries : List RankReport} {report : RankReport}

/-- The tables hold the open round of a request's sends, and the result of call `c`
the round that closed in it. -/
structure SendTracks (n c : Nat) (requestId : RequestId) (entries : List RankReport)
    (view : SendView) : Prop where
  worldSize : view.worldSize = n
  count : view.count =
    if (openRound n entries).length = 0 then none else some (openRound n entries).length
  expired : view.expired = true ↔
    ∃ report ∈ openRound n entries, requestId ∈ report.output.expiredSending
  finished : view.finished = true ↔ ClosesWith n c entries fun _ => True
  finishedExpired : view.finishedExpired = true ↔ ClosesWith n c entries fun round =>
    ∃ report ∈ round, requestId ∈ report.output.expiredSending

/-- The same for a request's loads. -/
structure LoadTracks (n c : Nat) (requestId : RequestId) (entries : List RankReport)
    (view : LoadView) : Prop where
  worldSize : view.worldSize = n
  count : view.count =
    if (openRound n entries).length = 0 then none else some (openRound n entries).length
  failed : view.failed = true ↔
    ∃ report ∈ openRound n entries, requestId ∈ report.output.failedRecving
  stats : view.stats = KVTransferStats.mergeAll
    ((openRound n entries).filterMap fun report => report.output.recvStats.lookup requestId)
  finished : view.finished = true ↔ ClosesWith n c entries fun round =>
    ∀ report ∈ round, requestId ∉ report.output.failedRecving
  finishedFailed : view.finishedFailed = true ↔ ClosesWith n c entries fun round =>
    ∃ report ∈ round, requestId ∈ report.output.failedRecving
  finishedStats : ∀ stats, view.finishedStats = some stats ↔ ClosesWith n c entries fun round =>
    (∀ report ∈ round, requestId ∉ report.output.failedRecving) ∧
      KVTransferStats.mergeAll
        (round.filterMap fun report => report.output.recvStats.lookup requestId) = some stats

theorem count_getD {count : Option Nat} {m : Nat}
    (tracked : count = if m = 0 then none else some m) : count.getD 0 = m := by
  subst tracked
  split
  · rename_i zero
    exact zero.symm
  · rfl

/-- One more report of a send. -/
theorem SendTracks.snoc (positive : 0 < n) {view : SendView}
    (tracks : SendTracks n report.call requestId entries view) :
    SendTracks n report.call requestId (entries ++ [report])
      { view with
        expired := view.expired = true ∨ requestId ∈ report.output.expiredSending }.counted := by
  have counted := count_getD tracks.count
  rw [SendView.counted]
  by_cases full : (openRound n entries).length + 1 = n
  · have closes : view.count.getD 0 + 1 = view.worldSize := by
      rw [counted, tracks.worldSize]
      exact full
    obtain ⟨opened, _, _⟩ := openRound_snoc_of_eq positive full report
    rw [if_pos closes]
    refine ⟨tracks.worldSize, ?_, ?_, ?_, ?_⟩
    · simp [opened]
    · simp [opened]
    · simp [closesWith_snoc positive, full]
    · rw [closesWith_snoc positive, ← tracks.finishedExpired]
      simp only [Bool.or_eq_true, decide_eq_true_eq, full, true_and, List.mem_append,
        List.mem_singleton, or_and_right, exists_or, exists_eq_left, tracks.expired]
  · have waits : ¬ view.count.getD 0 + 1 = view.worldSize := by
      rw [counted, tracks.worldSize]
      exact full
    obtain ⟨opened, _⟩ := openRound_snoc_of_ne positive full report
    rw [if_neg waits]
    refine ⟨tracks.worldSize, ?_, ?_, ?_, ?_⟩
    · simp [opened, counted]
    · simp only [opened, decide_eq_true_eq, tracks.expired, List.mem_append, List.mem_singleton,
        or_and_right, exists_or, exists_eq_left]
    · rw [closesWith_snoc positive, ← tracks.finished]
      simp [full]
    · rw [closesWith_snoc positive, ← tracks.finishedExpired]
      simp [full]

/-- The stats of a request in one more report. -/
theorem mergeAll_filterMap_snoc (round : List RankReport) (report : RankReport)
    (requestId : RequestId) :
    KVTransferStats.mergeAll ((round ++ [report]).filterMap fun report =>
        report.output.recvStats.lookup requestId) =
      withStats (KVTransferStats.mergeAll (round.filterMap fun report =>
        report.output.recvStats.lookup requestId)) (report.output.recvStats.lookup requestId) := by
  rw [List.filterMap_append]
  cases found : report.output.recvStats.lookup requestId with
  | none => simp [found, withStats]
  | some stats =>
      simp only [List.filterMap_cons, found, List.filterMap_nil]
      exact KVTransferStats.mergeAll_snoc _ _

/-- One more report of a load. -/
theorem LoadTracks.snoc (positive : 0 < n) (rounds : Rounds n (entries ++ [report]))
    {view : LoadView} (tracks : LoadTracks n report.call requestId entries view) :
    LoadTracks n report.call requestId (entries ++ [report])
      { view with
        failed := view.failed = true ∨ requestId ∈ report.output.failedRecving
        stats := withStats view.stats (report.output.recvStats.lookup requestId) }.counted := by
  have counted := count_getD tracks.count
  have failing : (view.failed = true ∨ requestId ∈ report.output.failedRecving) ↔
      ∃ own ∈ openRound n entries ++ [report], requestId ∈ own.output.failedRecving := by
    simp only [tracks.failed, List.mem_append, List.mem_singleton, or_and_right, exists_or,
      exists_eq_left]
  have merged := mergeAll_filterMap_snoc (openRound n entries) report requestId
  rw [← tracks.stats] at merged
  rw [← merged, LoadView.counted]
  by_cases full : (openRound n entries).length + 1 = n
  · have closes : view.count.getD 0 + 1 = view.worldSize := by
      rw [counted, tracks.worldSize]
      exact full
    obtain ⟨opened, _, _⟩ := openRound_snoc_of_eq positive full report
    -- only this round closes in its call, so the result says nothing of the request yet
    have alone : ∀ property : List RankReport → Prop,
        ClosesWith n report.call (entries ++ [report]) property ↔
          property (openRound n entries ++ [report]) := by
      intro property
      rw [closesWith_snoc positive]
      simp [rounds.not_closesWith positive full, full]
    have silent : view.finished = false ∧ view.finishedFailed = false ∧
        view.finishedStats = none := by
      refine ⟨?_, ?_, ?_⟩
      · rw [← Bool.not_eq_true, tracks.finished]
        exact rounds.not_closesWith positive full
      · rw [← Bool.not_eq_true, tracks.finishedFailed]
        exact rounds.not_closesWith positive full
      · rw [Option.eq_none_iff_forall_ne_some]
        intro stats found
        exact rounds.not_closesWith positive full ((tracks.finishedStats stats).mp found)
    have reset : KVTransferStats.mergeAll ((openRound n (entries ++ [report])).filterMap
        fun report => report.output.recvStats.lookup requestId) = none := by
      rw [opened]
      rfl
    rw [if_pos closes]
    by_cases bad : view.failed = true ∨ requestId ∈ report.output.failedRecving
    · obtain ⟨own, member, fails⟩ := failing.mp bad
      simp only [bad, decide_true, if_true]
      refine ⟨tracks.worldSize, by simp [opened], by simp [opened], reset.symm, ?_, ?_, ?_⟩
      · rw [alone, silent.1]
        exact iff_of_false (by simp) fun sound => sound own member fails
      · rw [alone]
        exact iff_of_true rfl ⟨own, member, fails⟩
      · intro stats
        rw [alone, silent.2.2]
        exact iff_of_false (by simp) fun sound => sound.1 own member fails
    · have sound : ∀ own ∈ openRound n entries ++ [report],
          requestId ∉ own.output.failedRecving := by
        intro own member fails
        exact bad (failing.mpr ⟨own, member, fails⟩)
      simp only [bad, decide_false, Bool.false_eq_true, if_false]
      refine ⟨tracks.worldSize, by simp [opened], by simp [opened], reset.symm, ?_, ?_, ?_⟩
      · rw [alone]
        exact iff_of_true rfl sound
      · rw [alone, silent.2.1]
        refine iff_of_false (by simp) ?_
        rintro ⟨own, member, fails⟩
        exact sound own member fails
      · intro stats
        rw [alone, silent.2.2]
        simp only [Option.orElse_eq_orElse, Option.orElse_eq_or, Option.or_none]
        exact ⟨fun found => ⟨sound, found⟩, And.right⟩
  · have waits : ¬ view.count.getD 0 + 1 = view.worldSize := by
      rw [counted, tracks.worldSize]
      exact full
    obtain ⟨opened, _⟩ := openRound_snoc_of_ne positive full report
    have unchanged : ∀ property : List RankReport → Prop,
        ClosesWith n report.call (entries ++ [report]) property ↔
          ClosesWith n report.call entries property := by
      intro property
      rw [closesWith_snoc positive]
      simp [full]
    rw [if_neg waits]
    refine ⟨tracks.worldSize, ?_, ?_, ?_, ?_, ?_, ?_⟩
    · simp [opened, counted]
    · rw [opened, ← failing]
      simp
    · rw [opened]
    · rw [unchanged]
      exact tracks.finished
    · rw [unchanged]
      exact tracks.finishedFailed
    · intro stats
      rw [unchanged]
      exact tracks.finishedStats stats

/-- The result of a call says nothing before its first report. -/
theorem SendTracks.next {view : SendView} (tracks : SendTracks n c requestId entries view)
    {later : Nat} (earlier : ∀ report ∈ entries, report.call < later) :
    SendTracks n later requestId entries
      { view with finished := false, finishedExpired := false } where
  worldSize := tracks.worldSize
  count := tracks.count
  expired := tracks.expired
  finished := iff_of_false (by simp) (not_closesWith_of_lt earlier)
  finishedExpired := iff_of_false (by simp) (not_closesWith_of_lt earlier)

theorem LoadTracks.next {view : LoadView} (tracks : LoadTracks n c requestId entries view)
    {later : Nat} (earlier : ∀ report ∈ entries, report.call < later) :
    LoadTracks n later requestId entries
      { view with finished := false, finishedFailed := false, finishedStats := none } where
  worldSize := tracks.worldSize
  count := tracks.count
  failed := tracks.failed
  stats := tracks.stats
  finished := iff_of_false (by simp) (not_closesWith_of_lt earlier)
  finishedFailed := iff_of_false (by simp) (not_closesWith_of_lt earlier)
  finishedStats _ := iff_of_false (by simp) (not_closesWith_of_lt earlier)

end KVOutputAggregator

/-- Per transfer each rank reports once. -/
structure RankReport.Exchanges (n : Nat) (reports : List RankReport) : Prop where
  reported : ∀ report ∈ reports, report.output.Reported
  ranked : ∀ report ∈ reports, report.rank < n
  sends : ∀ requestId, Rounds n (sendsOf reports requestId)
  loads : ∀ requestId, Rounds n (loadsOf reports requestId)

theorem RankReport.Exchanges.of_append {n : Nat} {reports more : List RankReport}
    (exchanges : Exchanges n (reports ++ more)) : Exchanges n reports where
  reported report member := exchanges.reported report (List.mem_append_left _ member)
  ranked report member := exchanges.ranked report (List.mem_append_left _ member)
  sends requestId := by
    have rounds := exchanges.sends requestId
    rw [sendsOf, List.filter_append] at rounds
    exact rounds.of_append
  loads requestId := by
    have rounds := exchanges.loads requestId
    rw [loadsOf, List.filter_append] at rounds
    exact rounds.of_append

/-- A result's fields are sets. -/
structure KVConnectorOutput.Distinct (output : KVConnectorOutput) : Prop where
  sending : output.finishedSending.Nodup
  recving : output.finishedRecving.Nodup
  failing : output.failedRecving.Nodup
  expired : output.expiredSending.Nodup

namespace KVOutputAggregator

open RankReport

variable {n c : Nat} {reports : List RankReport} {report : RankReport}
  {state : KVOutputAggregator × KVConnectorOutput}

theorem countSent_distinct (distinct : state.2.Distinct) (requestId : RequestId) :
    (countSent state requestId).2.Distinct := by
  obtain ⟨aggregator, result⟩ := state
  obtain ⟨sending, recving, failing, expired⟩ := distinct
  simp only [countSent]
  split
  · split
    · exact ⟨sending.insert, recving, failing, expired.insert⟩
    · exact ⟨sending.insert, recving, failing, expired⟩
  · exact ⟨sending, recving, failing, expired⟩

theorem countRecved_distinct (distinct : state.2.Distinct) (requestId : RequestId) :
    (countRecved state requestId).2.Distinct := by
  obtain ⟨aggregator, result⟩ := state
  obtain ⟨sending, recving, failing, expired⟩ := distinct
  simp only [countRecved]
  split
  · split
    · exact ⟨sending, recving, failing.insert, expired⟩
    · exact ⟨sending, recving.insert, failing, expired⟩
  · exact ⟨sending, recving, failing, expired⟩

theorem absorb_distinct (distinct : state.2.Distinct) (output : KVConnectorOutput) :
    (absorb state output).2.Distinct := by
  have looped : ∀ (step : KVOutputAggregator × KVConnectorOutput → RequestId →
        KVOutputAggregator × KVConnectorOutput),
      (∀ start, start.2.Distinct → ∀ key, (step start key).2.Distinct) →
      ∀ (keys : List RequestId) start, start.2.Distinct → (keys.foldl step start).2.Distinct := by
    intro step keeps keys
    induction keys with
    | nil => exact fun start holds => holds
    | cons key keys ih => exact fun start holds => ih _ (keeps start holds key)
  exact looped countRecved (fun _ holds key => countRecved_distinct holds key) _ _
    (looped countSent (fun _ holds key => countSent_distinct holds key) _ _ distinct)

/-- The tables hold the open rounds of every request, and the result of call `c`
the rounds that closed in it. -/
structure Tracks (n c : Nat) (reports : List RankReport)
    (state : KVOutputAggregator × KVConnectorOutput) : Prop where
  sends : ∀ requestId, SendTracks n c requestId (sendsOf reports requestId) (sendView state requestId)
  loads : ∀ requestId, LoadTracks n c requestId (loadsOf reports requestId) (loadView state requestId)
  distinct : state.2.Distinct

/-- One rank's report keeps the tables. -/
theorem Tracks.absorb (positive : 0 < n) (tracks : Tracks n report.call reports state)
    (exchanges : Exchanges n (reports ++ [report])) :
    Tracks n report.call (reports ++ [report]) (absorb state report.output) := by
  have reported := exchanges.reported report (by simp)
  refine ⟨?_, ?_, absorb_distinct tracks.distinct _⟩
  · intro requestId
    rw [sendView_absorb reported, sendsOf, List.filter_append]
    split
    · rename_i member
      rw [List.filter_cons_of_pos (by simpa using member), List.filter_nil]
      have counted := (tracks.sends requestId).snoc positive
      simpa only [sendView, sendsOf, decide_eq_true_eq] using counted
    · rename_i absent
      rw [List.filter_cons_of_neg (by simpa using absent), List.filter_nil, List.append_nil]
      exact tracks.sends requestId
  · intro requestId
    have rounds := exchanges.loads requestId
    rw [loadsOf, List.filter_append] at rounds
    rw [loadView_absorb reported, loadsOf, List.filter_append]
    split
    · rename_i member
      rw [List.filter_cons_of_pos (by simpa using member), List.filter_nil] at rounds ⊢
      have counted := (tracks.loads requestId).snoc positive rounds
      simpa only [loadView, decide_eq_true_eq] using counted
    · rename_i absent
      rw [List.filter_cons_of_neg (by simpa using absent), List.filter_nil, List.append_nil]
      exact tracks.loads requestId

/-- A whole call keeps the tables. -/
theorem Tracks.aggregate (positive : 0 < n) {call : List (Nat × KVConnectorOutput)}
    (tracks : Tracks n c reports state)
    (exchanges : Exchanges n (reports ++ call.map fun entry => ⟨c, entry.1, entry.2⟩)) :
    Tracks n c (reports ++ call.map fun entry => ⟨c, entry.1, entry.2⟩)
      ((call.map Prod.snd).foldl KVOutputAggregator.absorb state) := by
  induction call generalizing reports state with
  | nil => simpa using tracks
  | cons entry call ih =>
      have shifted : reports ++ (entry :: call).map (fun entry => ⟨c, entry.1, entry.2⟩) =
          reports ++ [(⟨c, entry.1, entry.2⟩ : RankReport)] ++
            call.map fun entry => ⟨c, entry.1, entry.2⟩ := by
        simp
      rw [shifted] at exchanges ⊢
      rw [List.map_cons, List.foldl_cons]
      have absorbed : Tracks n c (reports ++ [(⟨c, entry.1, entry.2⟩ : RankReport)])
          (KVOutputAggregator.absorb state entry.2) :=
        Tracks.absorb positive tracks exchanges.of_append
      exact ih absorbed exchanges

/-- What call `c` returns: the sends and loads whose last report came in it. -/
structure Announces (n c : Nat) (reports : List RankReport) (result : KVConnectorOutput) : Prop where
  distinct : result.Distinct
  finishedSending : ∀ requestId, requestId ∈ result.finishedSending ↔
    ClosesWith n c (sendsOf reports requestId) fun _ => True
  expiredSending : ∀ requestId, requestId ∈ result.expiredSending ↔
    ClosesWith n c (sendsOf reports requestId) fun round =>
      ∃ report ∈ round, requestId ∈ report.output.expiredSending
  failedRecving : ∀ requestId, requestId ∈ result.failedRecving ↔
    ClosesWith n c (loadsOf reports requestId) fun round =>
      ∃ report ∈ round, requestId ∈ report.output.failedRecving
  finishedRecving : ∀ requestId, requestId ∈ result.finishedRecving ↔
    ClosesWith n c (loadsOf reports requestId) fun round =>
      (∀ report ∈ round, requestId ∉ report.output.failedRecving) ∧
        ∃ total, result.recvStats.lookup requestId = some total ∧
          total.Totals (round.filterMap fun report => report.output.recvStats.lookup requestId)
  recvStats : ∀ requestId ∈ result.recvStats, requestId ∈ result.finishedRecving

/-- Every report of a finished load has stats. -/
theorem mergeAll_isSome (reported : ∀ report ∈ reports, report.output.Reported)
    {round : List RankReport} {requestId : RequestId}
    (among : ∀ report ∈ round, report ∈ loadsOf reports requestId) (nonempty : round ≠ [])
    (sound : ∀ report ∈ round, requestId ∉ report.output.failedRecving) :
    ∃ total, KVTransferStats.mergeAll
      (round.filterMap fun report => report.output.recvStats.lookup requestId) = some total := by
  obtain ⟨before, report, rfl⟩ := (List.eq_nil_or_concat round).resolve_left nonempty
  rw [List.concat_eq_append, mergeAll_filterMap_snoc]
  have member : report ∈ before.concat report := by simp
  have listed := among report member
  rw [loadsOf, List.mem_filter, decide_eq_true_eq] at listed
  have finished := listed.2.resolve_right (sound report member)
  have stored := ((reported report listed.1).stats requestId).mpr finished
  obtain ⟨stats, found⟩ := Option.isSome_iff_exists.mp (AList.lookup_isSome.mpr stored)
  exact ⟨_, by rw [found]; rfl⟩

theorem Tracks.announces (positive : 0 < n) {more : List RankReport}
    (tracks : Tracks n c reports state) (exchanges : Exchanges n (reports ++ more))
    (later : ∀ report ∈ more, report.call ≠ c) : Announces n c (reports ++ more) state.2 := by
  have sends : ∀ requestId property, ClosesWith n c (sendsOf (reports ++ more) requestId) property ↔
      ClosesWith n c (sendsOf reports requestId) property := by
    intro requestId property
    rw [sendsOf, List.filter_append]
    exact closesWith_append positive fun report member => later report (List.mem_of_mem_filter member)
  have loads : ∀ requestId property, ClosesWith n c (loadsOf (reports ++ more) requestId) property ↔
      ClosesWith n c (loadsOf reports requestId) property := by
    intro requestId property
    rw [loadsOf, List.filter_append]
    exact closesWith_append positive fun report member => later report (List.mem_of_mem_filter member)
  refine ⟨tracks.distinct, ?_, ?_, ?_, ?_, ?_⟩
  · intro requestId
    rw [sends, ← (tracks.sends requestId).finished]
    simp [sendView]
  · intro requestId
    rw [sends, ← (tracks.sends requestId).finishedExpired]
    simp [sendView]
  · intro requestId
    rw [loads, ← (tracks.loads requestId).finishedFailed]
    simp [loadView]
  · intro requestId
    have finished := (tracks.loads requestId).finished
    have stated := (tracks.loads requestId).finishedStats
    simp only [loadView, decide_eq_true_eq] at finished stated
    rw [loads, finished]
    constructor
    · rintro ⟨k, closed, last, sound⟩
      obtain ⟨total, merged⟩ := mergeAll_isSome exchanges.of_append.reported
        (fun report member => List.mem_of_mem_drop (List.mem_of_mem_take member))
        (List.ne_nil_of_length_pos (closed.length_roundAt.symm ▸ positive)) sound
      exact ⟨k, closed, last, sound, total, (stated total).mpr ⟨k, closed, last, sound, merged⟩,
        KVTransferStats.totals_of_mergeAll merged⟩
    · exact fun closes => closes.mono fun _ holds => holds.1
  · intro requestId stored
    obtain ⟨stats, found⟩ := Option.isSome_iff_exists.mp (AList.lookup_isSome.mpr stored)
    have finished := (tracks.loads requestId).finished
    have stated := (tracks.loads requestId).finishedStats
    simp only [loadView, decide_eq_true_eq] at finished stated
    exact finished.mpr (((stated stats).mp found).mono fun _ holds => holds.1)

theorem history_call {calls : List (List (Nat × KVConnectorOutput))} {c : Nat} :
    ∀ report ∈ history c calls, c ≤ report.call := by
  induction calls generalizing c with
  | nil => simp [history]
  | cons call calls ih =>
      intro report member
      rcases List.mem_append.mp member with own | later
      · obtain ⟨entry, _, rfl⟩ := List.mem_map.mp own
        exact Nat.le_refl c
      · exact Nat.le_of_succ_le (ih report later)

theorem Tracks.next (tracks : Tracks n c reports state) {later : Nat}
    (earlier : ∀ report ∈ reports, report.call < later) :
    Tracks n later reports (state.1, {}) := by
  refine ⟨?_, ?_, ⟨List.nodup_nil, List.nodup_nil, List.nodup_nil, List.nodup_nil⟩⟩
  · intro requestId
    simpa [sendView] using (tracks.sends requestId).next fun report member =>
      earlier report (List.mem_of_mem_filter member)
  · intro requestId
    simpa [loadView] using (tracks.loads requestId).next fun report member =>
      earlier report (List.mem_of_mem_filter member)

/-- Call after call, the results announce the transfers that closed. -/
theorem aggregateAll_spec (positive : 0 < n) {calls : List (List (Nat × KVConnectorOutput))}
    {aggregator : KVOutputAggregator} (tracks : Tracks n c reports (aggregator, {}))
    (earlier : ∀ report ∈ reports, report.call < c)
    (exchanges : Exchanges n (reports ++ history c calls)) :
    ∃ last results, aggregator.aggregateAll (calls.map fun call => call.map Prod.snd) =
        (last, results) ∧ results.length = calls.length ∧
      (∀ k result, results[k]? = some result →
        Announces n (c + k) (reports ++ history c calls) result) ∧
      Tracks n (c + calls.length) (reports ++ history c calls) (last, {}) := by
  induction calls generalizing aggregator reports c with
  | nil => exact ⟨aggregator, [], rfl, rfl, by simp, by simpa [history] using tracks⟩
  | cons call calls ih =>
      have cut : reports ++ history c (call :: calls) =
          reports ++ (call.map fun entry => ⟨c, entry.1, entry.2⟩) ++ history (c + 1) calls := by
        rw [history, List.append_assoc]
      rw [cut] at exchanges ⊢
      have called := tracks.aggregate positive exchanges.of_append
      have before : ∀ report ∈ reports ++ call.map (fun entry => ⟨c, entry.1, entry.2⟩),
          report.call < c + 1 := by
        intro report member
        rcases List.mem_append.mp member with old | own
        · exact (earlier report old).trans (Nat.lt_succ_self c)
        · obtain ⟨entry, _, rfl⟩ := List.mem_map.mp own
          exact Nat.lt_succ_self c
      obtain ⟨last, results, looped, length, announced, lastTracks⟩ :=
        ih (called.next before) before exchanges
      refine ⟨last, ((call.map Prod.snd).foldl KVOutputAggregator.absorb (aggregator, {})).2 :: results,
        ?_, by simp [length], ?_, ?_⟩
      · rw [List.map_cons, aggregateAll]
        simp only [KVOutputAggregator.aggregate, looped]
      · intro k result found
        cases k with
        | zero =>
            obtain rfl := Option.some.inj found
            refine called.announces positive exchanges ?_
            intro report member
            exact Nat.ne_of_gt (history_call report member)
        | succ k =>
            have announces := announced k result found
            rwa [Nat.add_assoc, Nat.add_comm 1 k] at announces
      · rwa [List.length_cons, Nat.add_comm calls.length 1, ← Nat.add_assoc]

theorem tracks_create (n : Nat) : Tracks n 0 [] ({ worldSize := n }, {}) := by
  have nothing : ∀ property, ¬ ClosesWith n 0 [] property :=
    fun property => not_closesWith_of_lt (by simp)
  have silent : ∀ {property}, false = true ↔ ClosesWith n 0 [] property :=
    iff_of_false (by simp) (nothing _)
  refine ⟨?_, ?_, ⟨List.nodup_nil, List.nodup_nil, List.nodup_nil, List.nodup_nil⟩⟩
  · intro requestId
    exact ⟨rfl, by simp [sendView, sendsOf], by simp [sendView, sendsOf], silent, silent⟩
  · intro requestId
    exact ⟨rfl, by simp [loadView, loadsOf], by simp [loadView, loadsOf],
      by simp [loadView, loadsOf, KVTransferStats.mergeAll], silent, silent,
      fun stats => iff_of_false (by simp [loadView]) (nothing _)⟩

/-- When no round is open the tables are as they were at first. -/
theorem Tracks.empty (tracks : Tracks n c reports state)
    (sends : ∀ requestId, n ∣ (sendsOf reports requestId).length)
    (loads : ∀ requestId, n ∣ (loadsOf reports requestId).length) :
    state.1 = { worldSize := n } := by
  have sendsOpen : ∀ requestId, openRound n (sendsOf reports requestId) = [] := by
    intro requestId
    apply List.eq_nil_of_length_eq_zero
    rw [length_openRound, Nat.mod_eq_zero_of_dvd (sends requestId)]
  have loadsOpen : ∀ requestId, openRound n (loadsOf reports requestId) = [] := by
    intro requestId
    apply List.eq_nil_of_length_eq_zero
    rw [length_openRound, Nat.mod_eq_zero_of_dvd (loads requestId)]
  obtain ⟨⟨worldSize, sent, recved, failed, expired, stats⟩, result⟩ := state
  have sized : worldSize = n := (tracks.sends "").worldSize
  have noSent : sent = ∅ := by
    apply Dict.eq_empty_of_lookup_eq_none
    intro requestId
    simpa [sendView, sendsOpen requestId] using (tracks.sends requestId).count
  have noRecved : recved = ∅ := by
    apply Dict.eq_empty_of_lookup_eq_none
    intro requestId
    simpa [loadView, loadsOpen requestId] using (tracks.loads requestId).count
  have noFailed : failed = ∅ := by
    apply Finset.eq_empty_of_forall_notMem
    intro requestId
    simpa [loadView, loadsOpen requestId] using (tracks.loads requestId).failed
  have noExpired : expired = ∅ := by
    apply Finset.eq_empty_of_forall_notMem
    intro requestId
    simpa [sendView, sendsOpen requestId] using (tracks.sends requestId).expired
  have noStats : stats = ∅ := by
    apply Dict.eq_empty_of_lookup_eq_none
    intro requestId
    simpa [loadView, loadsOpen requestId, KVTransferStats.mergeAll] using
      (tracks.loads requestId).stats
  rw [sized, noSent, noRecved, noFailed, noExpired, noStats]

end KVOutputAggregator

/-- Each transfer is passed on once, in the call where its last rank reports it: a
load as failed if some rank failed it and otherwise with the time of the slowest
rank and the bytes of all, a send as expired if some rank let it expire.  Nothing
of it stays behind. -/
theorem transfers_aggregated (worldSize : Nat) (positive : 1 ≤ worldSize)
    (calls : List (List (Nat × KVConnectorOutput)))
    (exchanges : RankReport.Exchanges worldSize (RankReport.history 0 calls)) :
    ∃ last results,
      ({ worldSize := worldSize } : KVOutputAggregator).aggregateAll
        (calls.map fun call => call.map Prod.snd) = (last, results) ∧
      results.length = calls.length ∧
      (∀ (c : Nat) (result : KVConnectorOutput), results[c]? = some result →
        KVOutputAggregator.Announces worldSize c (RankReport.history 0 calls) result) ∧
      (∀ requestId k, Closed worldSize k (RankReport.sendsOf (RankReport.history 0 calls) requestId) →
        ((roundAt worldSize k
          (RankReport.sendsOf (RankReport.history 0 calls) requestId)).map RankReport.rank).Perm
            (List.range worldSize)) ∧
      (∀ requestId k, Closed worldSize k (RankReport.loadsOf (RankReport.history 0 calls) requestId) →
        ((roundAt worldSize k
          (RankReport.loadsOf (RankReport.history 0 calls) requestId)).map RankReport.rank).Perm
            (List.range worldSize)) ∧
      ((∀ requestId,
        worldSize ∣ (RankReport.sendsOf (RankReport.history 0 calls) requestId).length ∧
        worldSize ∣ (RankReport.loadsOf (RankReport.history 0 calls) requestId).length) →
        last = { worldSize := worldSize }) := by
  obtain ⟨last, results, looped, length, announced, tracks⟩ :=
    KVOutputAggregator.aggregateAll_spec positive
      (KVOutputAggregator.tracks_create worldSize) (by simp) exchanges
  refine ⟨last, results, looped, length, ?_, ?_, ?_, ?_⟩
  · intro c result found
    have announces := announced c result found
    rwa [Nat.zero_add] at announces
  · intro requestId k closed
    exact (exchanges.sends requestId).ranks
      (fun report member => exchanges.ranked report (List.mem_of_mem_filter member)) closed
  · intro requestId k closed
    exact (exchanges.loads requestId).ranks
      (fun report member => exchanges.ranked report (List.mem_of_mem_filter member)) closed
  · intro settled
    exact tracks.empty (fun requestId => (settled requestId).1) fun requestId => (settled requestId).2

/-- A single transfer that no rank reports twice. -/
theorem RankReport.rounds_of_length_le {n : Nat} {entries : List RankReport}
    (short : entries.length ≤ n) (once : (entries.map rank).Nodup) : Rounds n entries := by
  constructor
  · intro k
    exact once.sublist (((List.take_sublist _ _).trans (List.drop_sublist _ _)).map _)
  · intro j k order earlier _ later member
    have inside := List.mem_of_mem_take member
    have beyond : entries.length ≤ k * n := by
      have : 1 * n ≤ k * n := Nat.mul_le_mul_right n (Nat.one_le_of_lt order)
      omega
    rw [List.drop_eq_nil_of_le beyond] at inside
    exact absurd inside List.not_mem_nil

/-- A load of 100 bytes in a second. -/
def KVConnectorOutput.sampleLoad : KVConnectorOutput where
  finishedRecving := ["a"]
  recvStats := (∅ : Dict RequestId _).insert "a" ⟨1, 100⟩

theorem KVConnectorOutput.sampleLoad_reported : sampleLoad.Reported := by
  refine ⟨by simp [sampleLoad], by simp [sampleLoad], by simp [sampleLoad], by simp [sampleLoad],
    by simp [sampleLoad], ?_⟩
  intro requestId
  rw [sampleLoad, AList.mem_insert]
  simp

/-- Two ranks report a load, which one of them fails, and a send that one of them
let expire. -/
def RankReport.sampleCalls : List (List (Nat × KVConnectorOutput)) :=
  [[(0, .sampleLoad),
      (1, { finishedSending := ["b"], expiredSending := ["b"] })],
    [(0, { finishedSending := ["b"] }), (1, { failedRecving := ["a"] })]]

theorem transfers_aggregated_sample :
    ∃ last results,
      ({ worldSize := 2 } : KVOutputAggregator).aggregateAll
        (RankReport.sampleCalls.map fun call => call.map Prod.snd) = (last, results) ∧
      (∀ (c : Nat) (result : KVConnectorOutput), results[c]? = some result →
        KVOutputAggregator.Announces 2 c (RankReport.history 0 RankReport.sampleCalls) result) ∧
      last = { worldSize := 2 } := by
  have sends : ∀ requestId, RankReport.sendsOf (RankReport.history 0 RankReport.sampleCalls)
      requestId = if requestId = "b" then
        [⟨0, 1, { finishedSending := ["b"], expiredSending := ["b"] }⟩,
          ⟨1, 0, { finishedSending := ["b"] }⟩] else [] := by
    intro requestId
    by_cases own : requestId = "b" <;>
      simp [RankReport.sendsOf, RankReport.history, RankReport.sampleCalls, own,
        KVConnectorOutput.sampleLoad]
  have loads : ∀ requestId, RankReport.loadsOf (RankReport.history 0 RankReport.sampleCalls)
      requestId = if requestId = "a" then
        [⟨0, 0, .sampleLoad⟩, ⟨1, 1, { failedRecving := ["a"] }⟩] else [] := by
    intro requestId
    by_cases own : requestId = "a" <;>
      simp [RankReport.loadsOf, RankReport.history, RankReport.sampleCalls, own,
        KVConnectorOutput.sampleLoad]
  have exchanges : RankReport.Exchanges 2 (RankReport.history 0 RankReport.sampleCalls) := by
    refine ⟨?_, ?_, ?_, ?_⟩
    · intro report member
      simp only [RankReport.history, RankReport.sampleCalls, List.map_cons, List.map_nil,
        List.cons_append, List.nil_append, List.mem_cons, List.not_mem_nil, or_false] at member
      rcases member with rfl | rfl | rfl | rfl
      · exact KVConnectorOutput.sampleLoad_reported
      all_goals exact ⟨by simp, by simp, by simp, by simp, by simp, by simp⟩
    · decide
    · intro requestId
      rw [sends]
      split <;> exact RankReport.rounds_of_length_le (by simp) (by simp)
    · intro requestId
      rw [loads]
      split <;> exact RankReport.rounds_of_length_le (by simp) (by simp)
  obtain ⟨last, results, looped, _, announced, _, _, empty⟩ :=
    transfers_aggregated 2 (by decide) RankReport.sampleCalls exchanges
  refine ⟨last, results, looped, announced, empty ?_⟩
  intro requestId
  rw [sends, loads]
  constructor <;> split <;> simp

end LeanVllm
