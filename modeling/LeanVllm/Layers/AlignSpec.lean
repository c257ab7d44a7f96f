import LeanVllm.Collections.KeyRuns
import LeanVllm.Layers.AlignBlocks

/-!
# The blocks are the padded runs

Through its three launches `align_blocks_triton` is a stable sort by expert with each
run padded to whole blocks: every pair has a slot of its own in its expert's run, the
rest of a run holds the sentinel, and a block belongs to the expert whose run it is in.
-/

namespace LeanVllm

open Collections Kernels

namespace FusedMoe

/-! ## A program's pairs -/

/-- A cell of a row of cells is the cell's alone. -/
theorem cell_inj {width row row' cell cell' : Nat} (small : cell < width) (small' : cell' < width)
    (same : row * width + cell = row' * width + cell') : row = row' ∧ cell = cell' := by
  have rows := congrArg (· / width) same
  have cells := congrArg (· % width) same
  have positive := Nat.zero_lt_of_lt small
  simp only [Nat.mul_comm _ width, Nat.mul_add_div positive, Nat.div_eq_of_lt small,
    Nat.div_eq_of_lt small', Nat.mul_add_mod, Nat.mod_eq_of_lt small, Nat.mod_eq_of_lt small',
    Nat.add_zero] at rows cells
  exact ⟨rows, cells⟩

theorem cell_lt {width rows row cell : Nat} (inside : row < rows) (small : cell < width) :
    row * width + cell < rows * width := by
  calc row * width + cell < row * width + width := Nat.add_lt_add_left small _
    _ = (row + 1) * width := (Nat.succ_mul row width).symm
    _ ≤ rows * width := Nat.mul_le_mul_right _ inside

/-- One lane's id. -/
def laneId (ids : List Nat) (p : Nat) : Int :=
  if p < ids.length then (ids.getD p 0 : Int) else -1

theorem load_pairIds {ids : List Nat} {p : Nat} (inside : decide (p < ids.length) = true) :
    (pairIds ids).load p = some (ids.getD p 0 : Int) :=
  Buffer.load_filled inside

theorem loadIds_eq (ids : List Nat) (tile pid : Nat) :
    loadIds (pairIds ids) ids.length tile pid =
      some ((List.range tile).map fun lane => laneId ids (pid * tile + lane)) := by
  refine mapM_eq_some fun lane _ => ?_
  rw [Buffer.loadMasked_eq load_pairIds, laneId]
  simp only [decide_eq_true_eq]

variable {ids : List Nat} {tile pid e : Nat}

theorem before_succ_eq (ids : List Nat) (e p : Nat) :
    before ids e (p + 1) = before ids e p + if laneId ids p = (e : Int) then 1 else 0 := by
  by_cases inside : p < ids.length
  · have found := List.getElem?_eq_getElem inside
    rw [before_succ found, laneId, if_pos inside, List.getD_eq_getElem?_getD, found,
      Option.getD_some]
    simp only [Int.natCast_inj, eq_comm]
  · have absent : laneId ids p = -1 := if_neg inside
    rw [before_of_length_le (by omega), before_of_length_le (by omega), absent,
      if_neg (by omega), Nat.add_zero]

/-- The first lanes of a program, counted. -/
theorem before_lanes (ids : List Nat) (tile pid e : Nat) {m : Nat} (inside : m ≤ tile) :
    before ids e (pid * tile + m) = before ids e (pid * tile) +
      (((List.range tile).map fun lane => laneId ids (pid * tile + lane)).take m).count
        (e : Int) := by
  rw [← List.map_take, List.take_range, Nat.min_eq_left inside]
  clear inside
  induction m with
  | zero => rfl
  | succ m ih =>
      rw [← Nat.add_assoc, before_succ_eq, ih, List.range_succ, List.map_append, List.count_append,
        ← Nat.add_assoc, List.map_singleton, List.count_singleton]
      simp only [beq_iff_eq]

/-- How many of a program's pairs go to an expert. -/
def inProgram (ids : List Nat) (tile e pid : Nat) : Nat :=
  ((List.range tile).map fun lane => laneId ids (pid * tile + lane)).count (e : Int)

theorem before_program (ids : List Nat) (tile e pid : Nat) :
    before ids e ((pid + 1) * tile) = before ids e (pid * tile) + inProgram ids tile e pid := by
  rw [Nat.succ_mul, before_lanes ids tile pid e (Nat.le_refl tile), List.take_of_length_le (by simp),
    inProgram]

/-- The programs from one on. -/
theorem before_programs (ids : List Nat) (tile e start r : Nat) :
    before ids e ((start + r) * tile) = before ids e (start * tile) +
      ((List.range r).map fun row => inProgram ids tile e (start + row)).sum := by
  induction r with
  | zero => rfl
  | succ r ih =>
      rw [← Nat.add_assoc, before_program, ih, List.range_succ, List.map_append, List.sum_append,
        List.map_singleton, List.sum_singleton, Nat.add_assoc]

theorem inProgram_of_length_le (long : ids.length ≤ pid * tile) : inProgram ids tile e pid = 0 := by
  have step := before_program ids tile e pid
  rw [before_of_length_le long, before_of_length_le (by rw [Nat.succ_mul]; omega)] at step
  omega

theorem countExpertsKernel_eq (ids : List Nat) (expertsPow2 tile pid : Nat) :
    countExpertsKernel (pairIds ids) ids.length expertsPow2 tile pid =
      some ((List.range expertsPow2).map fun e =>
        (pid * expertsPow2 + e, inProgram ids tile e pid)) := by
  rw [countExpertsKernel, loadIds_eq]
  rfl

/-! ## The scan -/

/-- The loop of the scan, where programs below `done` have their offsets. -/
structure Scanned (ids : List Nat) (tile numPrograms expertsPow2 done : Nat)
    (state : Buffer Nat Nat × List Nat) : Prop where
  inside : state.1.inside = flat (numPrograms * expertsPow2)
  offsets : ∀ pid < numPrograms, ∀ e < expertsPow2,
    state.1.load (pid * expertsPow2 + e) =
      some (if pid < done then before ids e (pid * tile) else inProgram ids tile e pid)
  totals : state.2 = (List.range expertsPow2).map fun e => before ids e (done * tile)

variable {numPrograms expertsPow2 done : Nat} {state : Buffer Nat Nat × List Nat}

theorem getD_map_range {β : Type} {n k : Nat} (f : Nat → β) (default : β) (inside : k < n) :
    ((List.range n).map f).getD k default = f k := by
  simp [List.getD_eq_getElem?_getD, inside]

/-- The stores of `count_experts_kernel`, program by program. -/
def countStores (ids : List Nat) (tile numPrograms expertsPow2 : Nat) : List (List (Nat × Nat)) :=
  (List.range numPrograms).map fun pid => (List.range expertsPow2).map fun e =>
    (pid * expertsPow2 + e, inProgram ids tile e pid)

/-- The counts of `count_experts_kernel`, as the scan finds them. -/
theorem countStores_scanned (ids : List Nat) (tile numPrograms expertsPow2 : Nat) :
    ∃ counts, (Buffer.empty (flat (numPrograms * expertsPow2))).storeAll
        (countStores ids tile numPrograms expertsPow2).flatten = some counts ∧
      Scanned ids tile numPrograms expertsPow2 0 (counts, List.replicate expertsPow2 0) := by
  have member : ∀ {c value}, (c, value) ∈ (countStores ids tile numPrograms expertsPow2).flatten ↔
      ∃ pid < numPrograms, ∃ e < expertsPow2, c = pid * expertsPow2 + e ∧
        value = inProgram ids tile e pid := by
    intro c value
    simp only [countStores, List.mem_flatten, List.mem_map, List.mem_range,
      exists_exists_and_eq_and, Prod.mk.injEq]
    constructor
    · rintro ⟨pid, within, e, small, rfl, rfl⟩
      exact ⟨pid, within, e, small, rfl, rfl⟩
    · rintro ⟨pid, within, e, small, rfl, rfl⟩
      exact ⟨pid, within, e, small, rfl, rfl⟩
  have fits : ∀ entry ∈ (countStores ids tile numPrograms expertsPow2).flatten,
      (Buffer.empty (flat (numPrograms * expertsPow2)) : Buffer Nat Nat).inside entry.1 = true := by
    intro entry among
    obtain ⟨pid, within, e, small, place, _⟩ := member.mp among
    rw [place]
    exact decide_eq_true (cell_lt within small)
  obtain ⟨counts, stored, written⟩ := Buffer.storeAll_written fits
  refine ⟨counts, stored, written.inside, ?_, ?_⟩
  · intro pid within e small
    rw [if_neg (Nat.not_lt_zero pid)]
    refine written.stored (member.mpr ⟨pid, within, e, small, rfl, rfl⟩) fun other again => ?_
    obtain ⟨pid', _, e', small', place, rfl⟩ := member.mp again
    obtain ⟨rfl, rfl⟩ := cell_inj small small' place
    rfl
  · rw [List.eq_replicate_of_mem (a := 0) (l := (List.range expertsPow2).map _) (by simp)]
    simp

/-- One turn of the scan's loop. -/
theorem Scanned.turn (scanned : Scanned ids tile numPrograms expertsPow2 done state)
    (covered : ids.length ≤ numPrograms * tile) (rows : Nat) :
    ∃ after, scanRows numPrograms expertsPow2 rows state done = some after ∧
      Scanned ids tile numPrograms expertsPow2 (done + rows) after := by
  have counts : ((List.range rows).mapM fun row => (List.range expertsPow2).mapM fun expert =>
      state.1.loadMasked (done + row < numPrograms) 0 ((done + row) * expertsPow2 + expert)) =
      some ((List.range rows).map fun row => (List.range expertsPow2).map fun expert =>
        inProgram ids tile expert (done + row)) := by
    refine mapM_eq_some fun row _ => mapM_eq_some fun expert small => ?_
    have cell : decide (done + row < numPrograms) = true →
        state.1.load ((done + row) * expertsPow2 + expert) =
          some (inProgram ids tile expert (done + row)) := by
      intro within
      rw [scanned.offsets _ (of_decide_eq_true within) _ (List.mem_range.mp small),
        if_neg (by omega)]
    rw [Buffer.loadMasked_eq cell]
    by_cases within : done + row < numPrograms
    · rw [if_pos (decide_eq_true within)]
    · have long : ids.length ≤ (done + row) * tile :=
        Nat.le_trans covered (Nat.mul_le_mul_right _ (Nat.le_of_not_lt within))
      rw [inProgram_of_length_le long, ite_self]
  have column : ∀ expert < expertsPow2,
      ((List.range rows).map fun row => (List.range expertsPow2).map fun expert =>
        inProgram ids tile expert (done + row)).map (fun row => row.getD expert 0) =
      (List.range rows).map fun row => inProgram ids tile expert (done + row) := by
    intro expert small
    rw [List.map_map]
    exact List.map_congr_left fun row _ => getD_map_range _ 0 small
  have total : ∀ expert < expertsPow2, state.2.getD expert 0 = before ids expert (done * tile) := by
    intro expert small
    rw [scanned.totals, getD_map_range _ 0 small]
  have earlier : ∀ row < rows, ∀ expert,
      (((List.range rows).map fun row => inProgram ids tile expert (done + row)).take
          (row + 1)).sum -
        ((List.range rows).map fun row => inProgram ids tile expert (done + row)).getD row 0 +
        before ids expert (done * tile) = before ids expert ((done + row) * tile) := by
    intro row inside expert
    rw [getD_map_range _ 0 inside, ← List.map_take, List.take_range, Nat.min_eq_left inside,
      List.range_succ, List.map_append, List.sum_append, List.map_singleton, List.sum_singleton,
      Nat.add_sub_cancel, before_programs, Nat.add_comm]
  simp only [scanRows, counts, Option.bind_eq_bind, Option.bind_some]
  generalize same : List.flatMap _ (List.filter _ (List.range rows)) = writes
  have member : ∀ {i value}, (i, value) ∈ writes ↔ ∃ row < rows, done + row < numPrograms ∧
      ∃ expert < expertsPow2, i = (done + row) * expertsPow2 + expert ∧
        value = before ids expert ((done + row) * tile) := by
    intro i value
    subst same
    simp only [List.mem_flatMap, List.mem_filter, List.mem_range, List.mem_map, Prod.mk.injEq,
      decide_eq_true_eq]
    constructor
    · rintro ⟨row, ⟨inside, within⟩, expert, small, rfl, rfl⟩
      refine ⟨row, inside, within, expert, small, rfl, ?_⟩
      rw [column expert small, total expert small, earlier row inside]
    · rintro ⟨row, inside, within, expert, small, rfl, rfl⟩
      refine ⟨row, ⟨inside, within⟩, expert, small, rfl, ?_⟩
      rw [column expert small, total expert small, earlier row inside]
  have fits : ∀ entry ∈ writes, state.1.inside entry.1 = true := by
    intro entry among
    obtain ⟨row, _, within, expert, small, place, _⟩ := member.mp among
    rw [scanned.inside, place]
    exact decide_eq_true (cell_lt within small)
  obtain ⟨after, stored, written⟩ := Buffer.storeAll_written fits
  rw [stored]
  refine ⟨_, rfl, written.inside.trans scanned.inside, ?_, ?_⟩
  · intro pid within expert small
    by_cases here : done ≤ pid ∧ pid < done + rows
    · obtain ⟨row, rfl⟩ := Nat.exists_eq_add_of_le here.1
      rw [if_pos here.2]
      refine written.stored (member.mpr ⟨row, by omega, within, expert, small, rfl, rfl⟩) ?_
      intro other again
      obtain ⟨row', _, _, expert', small', place, rfl⟩ := member.mp again
      obtain ⟨rows, experts⟩ := cell_inj small small' place
      rw [rows, experts]
    · have kept : ∀ value, (pid * expertsPow2 + expert, value) ∉ writes := by
        intro value among
        obtain ⟨row, inside, _, expert', small', place, _⟩ := member.mp among
        have rows := (cell_inj small small' place).1
        omega
      rw [written.kept kept, scanned.offsets pid within expert small]
      have side : pid < done ↔ pid < done + rows := by omega
      simp only [side]
  · refine List.map_congr_left fun expert small => ?_
    rw [List.mem_range] at small
    rw [column expert small, total expert small, before_programs]

/-- The whole loop. -/
theorem Scanned.loop (scanned : Scanned ids tile numPrograms expertsPow2 0 state)
    (covered : ids.length ≤ numPrograms * tile) (rows m : Nat) :
    ∃ after, ((List.range m).map (· * rows)).foldlM (scanRows numPrograms expertsPow2 rows) state =
        some after ∧
      Scanned ids tile numPrograms expertsPow2 (m * rows) after := by
  induction m with
  | zero =>
      rw [Nat.zero_mul]
      exact ⟨state, rfl, scanned⟩
  | succ m ih =>
      obtain ⟨before, earlier, scanned⟩ := ih
      obtain ⟨after, turn, scanned⟩ := scanned.turn covered rows
      rw [← Nat.succ_mul] at scanned
      refine ⟨after, ?_, scanned⟩
      rw [List.range_succ, List.map_append, List.foldlM_append, earlier]
      simpa using turn

/-- The room of an expert's run: whole blocks. -/
def room (ids : List Nat) (blockM e : Nat) : Nat :=
  Kernels.cdiv (ids.count e) blockM * blockM

/-- What `scan_experts_kernel` leaves. -/
structure ScanDone (ids : List Nat) (tile numPrograms expertsPow2 blockM : Nat)
    (scan : Scan) : Prop where
  counts : ∀ pid < numPrograms, ∀ e < expertsPow2,
    scan.counts.load (pid * expertsPow2 + e) = some (before ids e (pid * tile))
  starts : ∀ e < expertsPow2, scan.expertStarts.load e = some (runStart (room ids blockM) e)
  overhang : ∀ r value, (r, value) ∈ scan.overhang ↔ ∃ e < expertsPow2,
    runStart (room ids blockM) e + ids.count e ≤ r ∧ r < runStart (room ids blockM) (e + 1) ∧
      value = ids.length
  numRows : scan.numRows = runStart (room ids blockM) expertsPow2

variable {blockM numBlocks rows tail : Nat} {counts : Buffer Nat Nat}

/-- `tl.cumsum(padded) - padded`, read. -/
theorem getD_starts {e : Nat} (small : e < expertsPow2) :
    ((List.range expertsPow2).map fun expert =>
      (((List.range expertsPow2).map (room ids blockM)).take (expert + 1)).sum -
        ((List.range expertsPow2).map (room ids blockM)).getD expert 0).getD e 0 =
      runStart (room ids blockM) e := by
  rw [getD_map_range _ 0 small, ← List.map_take, List.take_range, Nat.min_eq_left small,
    getD_map_range _ 0 small]
  exact Nat.sub_eq_of_eq_add (runStart_succ _ _)

theorem scanExpertsKernel_done
    (counted : Scanned ids tile numPrograms expertsPow2 0 (counts, List.replicate expertsPow2 0))
    (covered : ids.length ≤ numPrograms * tile) (someRows : 0 < rows) (someTail : 0 < tail) :
    ∃ scan, scanExpertsKernel counts (Buffer.empty (flat expertsPow2)) numPrograms ids.length
        expertsPow2 blockM rows tail = some scan ∧
      ScanDone ids tile numPrograms expertsPow2 blockM scan := by
  obtain ⟨⟨offsets, totals⟩, ran, scanned⟩ :=
    counted.loop covered rows (Kernels.cdiv numPrograms rows)
  have whole : numPrograms ≤ Kernels.cdiv numPrograms rows * rows := le_cdiv_mul _ someRows
  have totalsEq : totals = (List.range expertsPow2).map fun e => ids.count e := by
    refine scanned.totals.trans (List.map_congr_left fun e _ => before_of_length_le ?_)
    exact Nat.le_trans covered (Nat.mul_le_mul_right _ whole)
  subst totalsEq
  have padded : ((List.range expertsPow2).map fun e => ids.count e).map
      (fun total => (total + blockM - 1) / blockM * blockM) =
        (List.range expertsPow2).map (room ids blockM) := by
    rw [List.map_map]
    rfl
  simp only [scanExpertsKernel, ran, Option.bind_eq_bind, Option.bind_some, padded]
  generalize startWrites : List.map (fun expert => (expert, List.getD _ expert 0))
    (List.range expertsPow2) = writes
  generalize tailWrites : List.flatMap _ _ = sentinels
  have starts : ∀ {e value}, (e, value) ∈ writes ↔
      e < expertsPow2 ∧ value = runStart (room ids blockM) e := by
    intro e value
    subst startWrites
    simp only [List.mem_map, List.mem_range, Prod.mk.injEq]
    constructor
    · rintro ⟨e, small, rfl, rfl⟩
      exact ⟨small, by rw [getD_starts small]⟩
    · rintro ⟨small, rfl⟩
      exact ⟨e, small, rfl, by rw [getD_starts small]⟩
  have tails : ∀ {r value}, (r, value) ∈ sentinels ↔ ∃ e < expertsPow2,
      runStart (room ids blockM) e + ids.count e ≤ r ∧ r < runStart (room ids blockM) (e + 1) ∧
        value = ids.length := by
    intro r value
    subst tailWrites
    simp only [List.mem_flatMap, List.mem_map, List.mem_filter, List.mem_range, Prod.mk.injEq,
      decide_eq_true_eq, exists_exists_and_eq_and]
    constructor
    · rintro ⟨turn, _, e, small, lane, ⟨_, within⟩, rfl, rfl⟩
      rw [getD_map_range _ 0 small, getD_map_range _ 0 small] at within
      rw [getD_starts small, getD_map_range _ 0 small]
      refine ⟨e, small, by omega, ?_, rfl⟩
      rw [runStart_succ]
      omega
    · rintro ⟨e, small, first, last, rfl⟩
      rw [runStart_succ] at last
      have waste : room ids blockM e ≤ ids.count e + blockM := cdiv_mul_le _ _
      obtain ⟨c, rfl⟩ := Nat.exists_eq_add_of_le first
      have lanes := Nat.div_add_mod' c tail
      refine ⟨c / tail, div_lt_cdiv (by omega) someTail, e, small, c % tail,
        ⟨Nat.mod_lt _ someTail, ?_⟩, ?_, rfl⟩
      · rw [getD_map_range _ 0 small, getD_map_range _ 0 small]
        omega
      · rw [getD_starts small, getD_map_range _ 0 small]
        omega
  have startsFit : ∀ entry ∈ writes, (Buffer.empty (flat expertsPow2) : Buffer Nat Nat).inside
      entry.1 = true := fun entry among => decide_eq_true (starts.mp among).1
  obtain ⟨expertStarts, startsStored, startsWritten⟩ := Buffer.storeAll_written startsFit
  rw [startsStored, Option.bind_some]
  refine ⟨_, rfl, ?_, ?_, fun _ _ => tails, rfl⟩
  · intro pid within e small
    rw [scanned.offsets pid within e small, if_pos (by omega)]
  · intro e small
    exact startsWritten.stored (starts.mpr ⟨small, rfl⟩) fun other again => (starts.mp again).2

/-! ## The scatter -/

/-- The blocks' owner: the last expert whose run starts at or before the block. -/
def ownerOf (ids : List Nat) (numExperts expertsPow2 blockM b : Nat) : Int :=
  ((List.range expertsPow2).countP fun e =>
    runStart (room ids blockM) e / blockM ≤ b ∧ e < numExperts) - 1

/-- A rank's number of an expert, -1 for another rank's. -/
def localExpert (expertMap : Option (List Int)) (e : Nat) : Int :=
  match expertMap with
  | none => e
  | some map => map.getD e (-1)

section Owners

variable {numExperts b : Nat}

theorem countP_lt_range {m n : Nat} (le : m ≤ n) :
    ((List.range n).countP fun k => k < m) = m := by
  induction n, le using Nat.le_induction with
  | base =>
      rw [List.countP_eq_length.mpr fun k among => decide_eq_true (List.mem_range.mp among),
        List.length_range]
  | succ n above ih =>
      rw [List.range_succ, List.countP_append, ih, List.countP_singleton,
        if_neg (by simpa using above), Nat.add_zero]

/-- Also past the last run, a block's owner is an expert. -/
theorem ownerOf_bounds (some : 0 < numExperts) (fits : numExperts ≤ expertsPow2) :
    0 ≤ ownerOf ids numExperts expertsPow2 blockM b ∧
      ownerOf ids numExperts expertsPow2 blockM b < numExperts := by
  have atLeast : 0 < (List.range expertsPow2).countP fun e =>
      runStart (room ids blockM) e / blockM ≤ b ∧ e < numExperts := by
    refine List.countP_pos_iff.mpr ⟨0, List.mem_range.mpr (by omega), decide_eq_true ⟨?_, some⟩⟩
    simp
  have atMost : ((List.range expertsPow2).countP fun e =>
      runStart (room ids blockM) e / blockM ≤ b ∧ e < numExperts) ≤ numExperts := by
    refine Nat.le_trans (List.countP_mono_left fun e _ both => ?_)
      (Nat.le_of_eq (countP_lt_range fits))
    exact decide_eq_true (of_decide_eq_true both).2
  rw [ownerOf]
  omega

theorem ownerOf_eq (positive : 0 < blockM) (run : InRun (room ids blockM) e (b * blockM))
    (inside : e < numExperts) (fits : numExperts ≤ expertsPow2) :
    ownerOf ids numExperts expertsPow2 blockM b = e := by
  have started : ∀ e', runStart (room ids blockM) e' / blockM ≤ b ∧ e' < numExperts ↔
      e' < e + 1 := by
    intro e'
    have whole : blockM ∣ runStart (room ids blockM) e' :=
      dvd_runStart (fun k => Nat.dvd_mul_left blockM _) e'
    have order : runStart (room ids blockM) e' ≤ b * blockM ↔ e' ≤ e := run.started_iff
    obtain ⟨blocks, start⟩ := whole
    rw [start, Nat.mul_div_cancel_left _ positive]
    rw [start, Nat.mul_comm b, Nat.mul_le_mul_left_iff positive] at order
    omega
  rw [ownerOf]
  simp only [started, countP_lt_range (show e + 1 ≤ expertsPow2 by omega)]
  omega

end Owners

/-! ### One program -/

/-- A block's expert, by its number on this rank. -/
def blockExpert (ids : List Nat) (expertMap : Option (List Int))
    (numExperts expertsPow2 blockM b : Nat) : Int :=
  localExpert expertMap (ownerOf ids numExperts expertsPow2 blockM b).toNat

variable {numExperts : Nat} {expertMap : Option (List Int)} {scan : Scan}

/-- The expert map has a number for each expert. -/
def MapsAll (expertMap : Option (List Int)) (numExperts : Nat) : Prop :=
  ∀ map, expertMap = some map → map.length = numExperts

theorem mem_masked {β : Type} {n : Nat} {mask : Nat → Bool} {value : Nat → β} {entry : β} :
    entry ∈ masked ((List.range n).map fun lane => (mask lane, value lane)) ↔
      ∃ lane < n, mask lane = true ∧ value lane = entry := by
  simp [masked, and_assoc]

/-- A lane's rank, after the pairs of earlier programs, is its pair's rank in the run. -/
theorem before_add_rank {lane : Nat} (inside : lane < tile)
    (found : ids[pid * tile + lane]? = some e) :
    before ids e (pid * tile) +
        (((List.range tile).map fun lane => laneId ids (pid * tile + lane)).take (lane + 1)).count
          (e : Int) =
      before ids e (pid * tile + lane) + 1 := by
  have counted := before_lanes ids tile pid e (Nat.succ_le_of_lt inside)
  rw [← counted, Nat.succ_eq_add_one, ← Nat.add_assoc, before_succ found, if_pos rfl]

section Lanes

variable (scanned : ScanDone ids tile numPrograms expertsPow2 blockM scan)
include scanned

theorem pairLane_eq (covered : ids.length ≤ numPrograms * tile)
    (small : ∀ e ∈ ids, e < expertsPow2) {lane : Nat} (inside : lane < tile) :
    ∃ place, pairLane scan.counts scan.expertStarts
        ((List.range tile).map fun lane => laneId ids (pid * tile + lane)) ids.length expertsPow2
        tile pid lane =
          some (decide (pid * tile + lane < ids.length), place, pid * tile + lane) ∧
      (pid * tile + lane < ids.length →
        place = slot (room ids blockM) ids (pid * tile + lane)) := by
  simp only [pairLane, getD_map_range _ _ inside]
  by_cases within : pid * tile + lane < ids.length
  · have found := List.getElem?_eq_getElem within
    generalize ids[pid * tile + lane] = e at found
    have expert : laneId ids (pid * tile + lane) = (e : Int) := by
      rw [laneId, if_pos within, List.getD_eq_getElem?_getD, found, Option.getD_some]
    have program : pid < numPrograms := by
      by_contra past
      have long := Nat.mul_le_mul_right tile (Nat.le_of_not_lt past)
      omega
    have known := small e (List.mem_of_getElem? found)
    rw [decide_eq_true within, if_pos rfl, expert, Int.toNat_natCast, Buffer.loadMasked,
      if_pos rfl, Buffer.loadMasked, if_pos rfl, scanned.starts e known,
      scanned.counts pid program e known]
    refine ⟨_, rfl, fun _ => ?_⟩
    have rank := before_add_rank inside found
    rw [slot_eq found]
    omega
  · rw [decide_eq_false within]
    exact ⟨_, rfl, fun inside => absurd inside within⟩

theorem starts_eq : (List.range expertsPow2).mapM scan.expertStarts.load =
    some ((List.range expertsPow2).map (runStart (room ids blockM))) :=
  mapM_eq_some fun e small => scanned.starts e (List.mem_range.mp small)

end Lanes

theorem blockLane_eq (someExpert : 0 < numExperts) (fits : numExperts ≤ expertsPow2)
    (maps : MapsAll expertMap numExperts) (pid lane : Nat) :
    ∃ expert, blockLane ((List.range expertsPow2).map (runStart (room ids blockM)))
        (mapBuffer expertMap) numBlocks numExperts expertsPow2 blockM tile pid lane =
          some (decide (pid * tile + lane < numBlocks), pid * tile + lane, expert) ∧
      (pid * tile + lane < numBlocks →
        expert = blockExpert ids expertMap numExperts expertsPow2 blockM (pid * tile + lane)) := by
  have owner : (((List.range expertsPow2).countP fun expert =>
      ((List.range expertsPow2).map (runStart (room ids blockM))).getD expert 0 / blockM ≤
        pid * tile + lane ∧ expert < numExperts) : Int) - 1 =
      ownerOf ids numExperts expertsPow2 blockM (pid * tile + lane) := by
    rw [ownerOf]
    congr 2
    refine List.countP_congr fun expert among => ?_
    rw [getD_map_range _ 0 (List.mem_range.mp among)]
  obtain ⟨first, last⟩ := @ownerOf_bounds ids expertsPow2 blockM numExperts (pid * tile + lane)
    someExpert fits
  simp only [blockLane, owner, blockExpert]
  generalize ownerOf ids numExperts expertsPow2 blockM (pid * tile + lane) = number at first last
  cases expertMap with
  | none =>
      refine ⟨_, rfl, fun _ => ?_⟩
      rw [localExpert]
      omega
  | some map =>
      have inside : number.toNat < map.length := by
        rw [maps map rfl]
        omega
      have read : decide (pid * tile + lane < numBlocks) = true →
          (Buffer.filled (flat map.length) fun expert => map.getD expert 0).load number.toNat =
            some (map.getD number.toNat 0) := fun _ => Buffer.load_filled (decide_eq_true inside)
      simp only [mapBuffer, Option.map_some, Buffer.loadMasked_eq read, Option.bind_eq_bind,
        Option.bind_some]
      refine ⟨_, rfl, fun within => ?_⟩
      rw [if_pos (decide_eq_true within), localExpert, List.getD_eq_getElem?_getD,
        List.getD_eq_getElem?_getD, List.getElem?_eq_getElem inside]
      rfl

theorem scatterPairsKernel_writes
    (scanned : ScanDone ids tile numPrograms expertsPow2 blockM scan)
    (covered : ids.length ≤ numPrograms * tile) (small : ∀ e ∈ ids, e < expertsPow2)
    (someExpert : 0 < numExperts) (fits : numExperts ≤ expertsPow2)
    (maps : MapsAll expertMap numExperts) (pid : Nat) :
    ∃ pairs owners, scatterPairsKernel (pairIds ids) scan.counts scan.expertStarts
        (mapBuffer expertMap) ids.length numBlocks numExperts expertsPow2 blockM tile pid =
          some (pairs, owners) ∧
      (∀ r p, (r, p) ∈ pairs ↔ ∃ lane < tile, p = pid * tile + lane ∧ p < ids.length ∧
        r = slot (room ids blockM) ids p) ∧
      ∀ b owner, (b, owner) ∈ owners ↔ ∃ lane < tile, b = pid * tile + lane ∧ b < numBlocks ∧
        owner = blockExpert ids expertMap numExperts expertsPow2 blockM b := by
  choose! place readPair pairValue using fun lane (inside : lane < tile) =>
    @pairLane_eq ids tile pid numPrograms expertsPow2 blockM scan scanned covered small lane
      inside
  choose expert readBlock blockValue using fun lane =>
    @blockLane_eq ids tile expertsPow2 blockM numBlocks numExperts expertMap someExpert fits maps
      pid lane
  have pairs := mapM_eq_some fun lane among => readPair lane (List.mem_range.mp among)
  have blocks := mapM_eq_some fun lane (_ : lane ∈ List.range tile) => readBlock lane
  refine ⟨masked ((List.range tile).map fun lane =>
      (decide (pid * tile + lane < ids.length), place lane, pid * tile + lane)),
    masked ((List.range tile).map fun lane =>
      (decide (pid * tile + lane < numBlocks), pid * tile + lane, expert lane)), ?_, ?_, ?_⟩
  · rw [scatterPairsKernel, loadIds_eq]
    simp only [Option.bind_eq_bind, Option.bind_some, pairs, starts_eq scanned, blocks]
  · intro r p
    rw [mem_masked]
    constructor
    · rintro ⟨lane, inside, within, entry⟩
      obtain ⟨rfl, rfl⟩ := Prod.mk.inj entry
      exact ⟨lane, inside, rfl, of_decide_eq_true within,
        pairValue lane inside (of_decide_eq_true within)⟩
    · rintro ⟨lane, inside, rfl, within, rfl⟩
      exact ⟨lane, inside, decide_eq_true within, by rw [pairValue lane inside within]⟩
  · intro b owner
    rw [mem_masked]
    constructor
    · rintro ⟨lane, inside, within, entry⟩
      obtain ⟨rfl, rfl⟩ := Prod.mk.inj entry
      exact ⟨lane, inside, rfl, of_decide_eq_true within,
        blockValue lane (of_decide_eq_true within)⟩
    · rintro ⟨lane, inside, rfl, within, rfl⟩
      exact ⟨lane, inside, decide_eq_true within, by rw [blockValue lane within]⟩

/-! ## The layout -/

/-- The layout of a stable sort by expert with padded runs. -/
structure Laid (ids : List Nat) (numExperts blockM : Nat) (expertMap : Option (List Int))
    (layout : Alignment) : Prop where
  numBlocks : layout.numBlocks = Kernels.cdiv ids.length blockM + numExperts
  numRows : layout.numRows = runStart (room ids blockM) numExperts
  slots : ∀ p < ids.length, layout.sortedPairs.load (slot (room ids blockM) ids p) = some p
  overhang : ∀ e < numExperts, ∀ r, runStart (room ids blockM) e + ids.count e ≤ r →
    r < runStart (room ids blockM) (e + 1) → layout.sortedPairs.load r = some ids.length
  owner : ∀ b, ∀ e < numExperts, InRun (room ids blockM) e (b * blockM) →
    layout.blockExperts.load b = some (localExpert expertMap e)

/-- The block of a run's row is in the run. -/
theorem inRun_block {ids : List Nat} {blockM e r : Nat} (positive : 0 < blockM)
    (run : InRun (room ids blockM) e r) : InRun (room ids blockM) e (r / blockM * blockM) := by
  have whole : blockM ∣ runStart (room ids blockM) e :=
    dvd_runStart (fun k => Nat.dvd_mul_left blockM _) e
  obtain ⟨blocks, start⟩ := whole
  have first := run.first
  refine ⟨?_, Nat.lt_of_le_of_lt (Nat.div_mul_le_self r blockM) run.last⟩
  rw [start, Nat.mul_comm] at first ⊢
  exact Nat.mul_le_mul_right _ ((Nat.le_div_iff_mul_le positive).mpr first)

/-- A block's rows are all in its run. -/
theorem block_inRun {b lane : Nat} (run : InRun (room ids blockM) e (b * blockM))
    (inBlock : lane < blockM) : InRun (room ids blockM) e (b * blockM + lane) := by
  have whole : blockM ∣ runStart (room ids blockM) (e + 1) :=
    dvd_runStart (fun k => Nat.dvd_mul_left blockM _) (e + 1)
  obtain ⟨blocks, start⟩ := whole
  refine ⟨Nat.le_trans run.first (Nat.le_add_right _ _), ?_⟩
  have last := run.last
  rw [start, Nat.mul_comm blockM] at last ⊢
  exact cell_lt (Nat.lt_of_mul_lt_mul_right last) inBlock

section Room

variable (ids) (positive : 0 < blockM)
include positive

theorem count_le_room (e : Nat) : ids.count e ≤ room ids blockM e :=
  le_cdiv_mul _ positive

theorem runs_fit (small : ∀ e ∈ ids, e < numExperts) :
    runStart (room ids blockM) numExperts ≤ (Kernels.cdiv ids.length blockM + numExperts) * blockM := by
  have total := runStart_le small fun e => cdiv_mul_le (ids.count e) blockM
  have whole := le_cdiv_mul ids.length positive
  rw [Nat.add_mul]
  exact Nat.le_trans total (Nat.add_le_add_right whole _)

/-- Padding experts have no rows. -/
theorem runStart_padded (small : ∀ e ∈ ids, e < numExperts) (fits : numExperts ≤ expertsPow2) :
    runStart (room ids blockM) expertsPow2 = runStart (room ids blockM) numExperts := by
  refine runStart_eq_of_le fits fun e above => ?_
  have absent : ids.count e = 0 :=
    List.count_eq_zero.mpr fun among => Nat.not_lt.mpr above (small e among)
  rw [room, absent, Kernels.cdiv, Nat.zero_add, Nat.div_eq_of_lt (by omega), Nat.zero_mul]

variable {ids}

/-- No pair's slot is in the overhang of a run. -/
theorem slot_not_overhang {p r : Nat} (inside : p < ids.length)
    (place : r = slot (room ids blockM) ids p)
    (first : runStart (room ids blockM) e + ids.count e ≤ r) :
    ¬ r < runStart (room ids blockM) (e + 1) := by
  intro last
  subst place
  have found := List.getElem?_eq_getElem inside
  have run : InRun (room ids blockM) e (slot (room ids blockM) ids p) :=
    ⟨Nat.le_trans (Nat.le_add_right _ _) first, last⟩
  have same := (slot_inRun (count_le_room ids positive) found).unique run
  rw [same] at found
  have taken := before_lt_count found
  rw [slot_eq found] at first
  omega

theorem slot_lt_rows (small : ∀ e ∈ ids, e < numExperts) {p : Nat} (inside : p < ids.length) :
    slot (room ids blockM) ids p < runStart (room ids blockM) numExperts := by
  have found := List.getElem?_eq_getElem inside
  have within := runStart_mono (room ids blockM)
    (Nat.succ_le_of_lt (small _ (List.mem_of_getElem? found)))
  exact Nat.lt_of_lt_of_le (slot_inRun (count_le_room ids positive) found).last within

end Room

section Laid

variable {layout : Alignment} (laid : Laid ids numExperts blockM expertMap layout)
include laid

/-- A block is one expert's, and its rows are pairs of that expert or padding. -/
theorem Laid.block (positive : 0 < blockM) (small : ∀ e ∈ ids, e < numExperts) {b : Nat}
    (within : b * blockM < layout.numRows) : b < layout.numBlocks ∧ ∃ e < numExperts,
    layout.blockExperts.load b = some (localExpert expertMap e) ∧
      ∀ lane < blockM, ∃ q, layout.sortedPairs.load (b * blockM + lane) = some q ∧
        (q < ids.length → ids[q]? = some e) := by
  rw [laid.numRows] at within
  obtain ⟨e, known, run⟩ := exists_inRun within
  have bound := Nat.lt_of_lt_of_le within (runs_fit ids positive small)
  rw [laid.numBlocks]
  refine ⟨Nat.lt_of_mul_lt_mul_right bound, e, known, laid.owner b e known run, ?_⟩
  intro lane inBlock
  have row := block_inRun run inBlock
  rcases slot_or_room ids row with ⟨p, pair, place⟩ | left
  · have among := (List.getElem?_eq_some_iff.mp pair).1
    rw [place]
    exact ⟨p, laid.slots p among, fun _ => pair⟩
  · exact ⟨_, laid.overhang e known _ left row.last, fun inside => absurd inside (Nat.lt_irrefl _)⟩

/-- Every pair has a row. -/
theorem Laid.pair (positive : 0 < blockM) (small : ∀ e ∈ ids, e < numExperts) {p : Nat}
    (inside : p < ids.length) : ∃ b lane, lane < blockM ∧ b * blockM < layout.numRows ∧
      layout.sortedPairs.load (b * blockM + lane) = some p := by
  have rows := slot_lt_rows positive small inside
  have lower := Nat.div_mul_le_self (slot (room ids blockM) ids p) blockM
  refine ⟨slot (room ids blockM) ids p / blockM, slot (room ids blockM) ids p % blockM,
    Nat.mod_lt _ positive, ?_, ?_⟩
  · rw [laid.numRows]
    exact Nat.lt_of_le_of_lt lower rows
  · rw [Nat.div_add_mod']
    exact laid.slots p inside

end Laid

section Launches

/-- What the run of the three launches is, besides its layout. -/
structure Launched (ids : List Nat) (numExperts blockM numPrograms tile expertsPow2 : Nat)
    (expertMap : Option (List Int)) (run : AlignRun) : Prop where
  counted : run.counted = countStores ids tile numPrograms expertsPow2
  overhang : ∀ r value, (r, value) ∈ run.scan.overhang ↔ ∃ e < expertsPow2,
    runStart (room ids blockM) e + ids.count e ≤ r ∧ r < runStart (room ids blockM) (e + 1) ∧
      value = ids.length
  scattered : run.scattered.length =
    max numPrograms (Kernels.cdiv (Kernels.cdiv ids.length blockM + numExperts) tile)
  pairs : ∀ pid stores, run.scattered[pid]? = some stores → ∀ r p, (r, p) ∈ stores.1 ↔
    ∃ lane < tile, p = pid * tile + lane ∧ p < ids.length ∧ r = slot (room ids blockM) ids p
  blocks : ∀ pid stores, run.scattered[pid]? = some stores → ∀ b owner, (b, owner) ∈ stores.2 ↔
    ∃ lane < tile, b = pid * tile + lane ∧ b < Kernels.cdiv ids.length blockM + numExperts ∧
      owner = blockExpert ids expertMap numExperts expertsPow2 blockM b

theorem alignLaunches_spec (someExpert : 0 < numExperts) (fits : numExperts ≤ expertsPow2)
    (positive : 0 < blockM) (someTile : 0 < tile) (covered : ids.length ≤ numPrograms * tile)
    (small : ∀ e ∈ ids, e < numExperts) (maps : MapsAll expertMap numExperts) :
    ∃ run, alignLaunches ids numExperts blockM numPrograms tile expertsPow2 expertMap = some run ∧
      Launched ids numExperts blockM numPrograms tile expertsPow2 expertMap run ∧
      Laid ids numExperts blockM expertMap run.layout := by
  have sameRows := runStart_padded ids positive small fits
  have bound := runs_fit ids positive small
  obtain ⟨counts, countsStored, counted⟩ := countStores_scanned ids tile numPrograms expertsPow2
  obtain ⟨scan, scanRan, scanned⟩ := @scanExpertsKernel_done ids tile numPrograms expertsPow2
    blockM tile (min blockM tile) counts counted covered someTile (by omega)
  choose pairs owners ran inPairs inOwners using @scatterPairsKernel_writes ids tile numPrograms
    expertsPow2 blockM (Kernels.cdiv ids.length blockM + numExperts) numExperts expertMap scan scanned
    covered (fun e among => Nat.lt_of_lt_of_le (small e among) fits) someExpert fits maps
  generalize numBlocksEq : Kernels.cdiv ids.length blockM + numExperts = numBlocks at *
  generalize grid : max numPrograms (Kernels.cdiv numBlocks tile) = programs
  have scatterRan := mapM_eq_some fun pid (_ : pid ∈ List.range programs) => ran pid
  have countRan := mapM_eq_some fun pid (_ : pid ∈ List.range numPrograms) =>
    countExpertsKernel_eq ids expertsPow2 tile pid
  have pairWrites : ∀ {r p}, (r, p) ∈ ((List.range programs).map fun pid =>
      (pairs pid, owners pid)).flatMap Prod.fst ↔
        p < ids.length ∧ r = slot (room ids blockM) ids p := by
    intro r p
    simp only [List.flatMap_map, List.mem_flatMap, List.mem_range, inPairs]
    constructor
    · rintro ⟨pid, _, lane, _, _, inside, place⟩
      exact ⟨inside, place⟩
    · rintro ⟨inside, place⟩
      have program := (Nat.div_lt_iff_lt_mul someTile).mpr (Nat.lt_of_lt_of_le inside covered)
      exact ⟨p / tile, by omega, p % tile, Nat.mod_lt _ someTile, (Nat.div_add_mod' p tile).symm,
        inside, place⟩
  have blockWrites : ∀ {b owner}, (b, owner) ∈ ((List.range programs).map fun pid =>
      (pairs pid, owners pid)).flatMap Prod.snd ↔
        b < numBlocks ∧ owner = blockExpert ids expertMap numExperts expertsPow2 blockM b := by
    intro b owner
    simp only [List.flatMap_map, List.mem_flatMap, List.mem_range, inOwners]
    constructor
    · rintro ⟨pid, _, lane, _, _, inside, value⟩
      exact ⟨inside, value⟩
    · rintro ⟨inside, value⟩
      have program := div_lt_cdiv inside someTile
      exact ⟨b / tile, by omega, b % tile, Nat.mod_lt _ someTile, (Nat.div_add_mod' b tile).symm,
        inside, value⟩
  have rowWrites : ∀ {r value}, (r, value) ∈ scan.overhang ++ ((List.range programs).map fun pid =>
      (pairs pid, owners pid)).flatMap Prod.fst ↔
        (∃ e < expertsPow2, runStart (room ids blockM) e + ids.count e ≤ r ∧
          r < runStart (room ids blockM) (e + 1) ∧ value = ids.length) ∨
        (value < ids.length ∧ r = slot (room ids blockM) ids value) := by
    intro r value
    rw [List.mem_append, scanned.overhang, pairWrites]
  have rowsFit : ∀ entry ∈ scan.overhang ++ ((List.range programs).map fun pid =>
      (pairs pid, owners pid)).flatMap Prod.fst,
      (Buffer.empty (flat (numBlocks * blockM)) : Buffer Nat Nat).inside entry.1 = true := by
    intro entry among
    refine decide_eq_true (Nat.lt_of_lt_of_le ?_ bound)
    rcases rowWrites.mp among with ⟨e, known, _, last, _⟩ | ⟨inside, place⟩
    · rw [← sameRows]
      exact Nat.lt_of_lt_of_le last (runStart_mono _ (Nat.succ_le_of_lt known))
    · rw [place]
      exact slot_lt_rows positive small inside
  have blocksFit : ∀ entry ∈ ((List.range programs).map fun pid =>
      (pairs pid, owners pid)).flatMap Prod.snd,
      (Buffer.empty (flat numBlocks) : Buffer Nat Int).inside entry.1 = true := fun entry among =>
    decide_eq_true (blockWrites.mp among).1
  obtain ⟨sortedPairs, rowsStored, rowsWritten⟩ := Buffer.storeAll_written rowsFit
  obtain ⟨blockExperts, blocksStored, blocksWritten⟩ := Buffer.storeAll_written blocksFit
  have entry : ∀ {pid stores}, ((List.range programs).map fun pid =>
      (pairs pid, owners pid))[pid]? = some stores → stores = (pairs pid, owners pid) := by
    intro pid stores found
    rw [List.getElem?_map, Option.map_eq_some_iff] at found
    obtain ⟨k, read, rfl⟩ := found
    obtain ⟨_, same⟩ := List.getElem?_eq_some_iff.mp read
    rw [List.getElem_range] at same
    rw [same]
  refine ⟨⟨countStores ids tile numPrograms expertsPow2, scan, (List.range programs).map fun pid =>
    (pairs pid, owners pid), sortedPairs, blockExperts, numBlocks, scan.numRows⟩, ?_, ?_, ?_⟩
  · rw [countStores] at countsStored ⊢
    simp only [alignLaunches, numBlocksEq, grid, countRan, countsStored, scanRan, scatterRan,
      rowsStored, blocksStored, Option.bind_eq_bind, Option.bind_some]
  · refine ⟨rfl, scanned.overhang, ?_, ?_, ?_⟩
    · rw [List.length_map, List.length_range, numBlocksEq, grid]
    · intro pid stores found r p
      rw [entry found]
      exact inPairs pid r p
    · intro pid stores found b owner
      rw [entry found, numBlocksEq]
      exact inOwners pid b owner
  · refine ⟨numBlocksEq.symm, scanned.numRows.trans sameRows, ?_, ?_, ?_⟩
    · intro p inside
      refine rowsWritten.stored (rowWrites.mpr (Or.inr ⟨inside, rfl⟩)) fun other again => ?_
      rcases rowWrites.mp again with ⟨e, _, first, last, _⟩ | ⟨inside', same⟩
      · exact absurd last (slot_not_overhang positive inside rfl first)
      · exact (slot_inj (count_le_room ids positive) inside inside' same).symm
    · intro e known r first last
      refine rowsWritten.stored (rowWrites.mpr (Or.inl ⟨e, by omega, first, last, rfl⟩))
        fun other again => ?_
      rcases rowWrites.mp again with ⟨_, _, _, _, value⟩ | ⟨inside, place⟩
      · exact value
      · exact absurd last (slot_not_overhang positive inside place first)
    · intro b e known run
      have within : b * blockM < numBlocks * blockM :=
        Nat.lt_of_lt_of_le run.last
          (Nat.le_trans (runStart_mono _ (Nat.succ_le_of_lt known)) bound)
      rw [blocksWritten.stored (blockWrites.mpr ⟨Nat.lt_of_mul_lt_mul_right within, rfl⟩)
        fun other again => (blockWrites.mp again).2, blockExpert,
        ownerOf_eq positive run known fits, Int.toNat_natCast]

end Launches

end FusedMoe

end LeanVllm
