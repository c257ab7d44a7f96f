import LeanVllm.Layers.AlignSpec

/-!
# The three launches lay out what the reference does

`align_blocks` sorts once and searches the sorted list; `align_blocks_triton` never
sorts.  Both put a pair at its slot and the sentinel in the rest of each run.
-/

namespace LeanVllm

open Collections Kernels

namespace FusedMoe

variable {ids : List Nat} {numExperts blockM e : Nat}

/-! ## The reference -/

theorem starts_getD (small : e < numExperts) :
    ((List.range numExperts).map
      (searchsorted ((stableSort ids).map Prod.fst))).getD e 0 = searchsorted ids e := by
  rw [getD_map_range _ 0 small, searchsorted_sorted]

/-- The reference's padded counts. -/
theorem padded_eq : ((List.range numExperts).map fun expert =>
    searchsortedRight ((stableSort ids).map Prod.fst) expert -
      ((List.range numExperts).map (searchsorted ((stableSort ids).map Prod.fst))).getD
        expert 0).map (fun count => (count + blockM - 1) / blockM * blockM) =
    (List.range numExperts).map (room ids blockM) := by
  rw [List.map_map]
  refine List.map_congr_left fun expert small => ?_
  rw [Function.comp_apply, starts_getD (List.mem_range.mp small), searchsortedRight_sorted,
    Nat.add_sub_cancel_left]
  rfl

/-- What `align_blocks` returns. -/
structure AlignedAs (ids : List Nat) (numExperts blockM : Nat) (blocks : AlignedBlocks) : Prop where
  length : blocks.sortedPairs.length = blocks.blockExperts.length * blockM
  numBlocks : blocks.blockExperts.length = Kernels.cdiv ids.length blockM + numExperts
  numRows : blocks.numRows = runStart (room ids blockM) numExperts
  slots : ∀ p < ids.length, blocks.sortedPairs[slot (room ids blockM) ids p]? = some p
  overhang : ∀ e < numExperts, ∀ r, runStart (room ids blockM) e + ids.count e ≤ r →
    r < runStart (room ids blockM) (e + 1) → blocks.sortedPairs[r]? = some ids.length
  owner : ∀ b, ∀ e < numExperts, InRun (room ids blockM) e (b * blockM) →
    blocks.blockExperts[b]? = some (e : Int)

/-- Where the reference writes its sorted pairs: each at its slot. -/
theorem destinations_eq (small : ∀ e ∈ ids, e < numExperts) :
    ((List.range ids.length).map fun k =>
      ((List.range numExperts).map fun expert =>
        (((List.range numExperts).map (room ids blockM)).take (expert + 1)).sum -
          ((List.range numExperts).map (room ids blockM)).getD expert 0).getD
            (((stableSort ids).map Prod.fst).getD k 0) 0 +
        ((List.range ids.length).map fun k => k -
          ((List.range numExperts).map (searchsorted ((stableSort ids).map Prod.fst))).getD
            (((stableSort ids).map Prod.fst).getD k 0) 0).getD k 0) =
      (stableSort ids).map fun entry => slot (room ids blockM) ids entry.2 := by
  refine Eq.trans ?_ (map_eq_range (stableSort ids) (0, 0) _).symm
  rw [length_stableSort]
  refine List.map_congr_left fun k inside => ?_
  rw [List.mem_range] at inside
  have sorted : k < (stableSort ids).length := by rwa [length_stableSort]
  obtain ⟨⟨e, p⟩, found⟩ : ∃ entry, (stableSort ids)[k]? = some entry :=
    ⟨_, List.getElem?_eq_getElem sorted⟩
  have pair := getElem?_of_stableSort found
  have known := small e (List.mem_of_getElem? pair)
  have expert : ((stableSort ids).map Prod.fst).getD k 0 = e := by
    rw [List.getD_eq_getElem?_getD, List.getElem?_map, found]
    rfl
  have place := stableSort_place found
  rw [getD_map_range _ 0 inside, expert, getD_starts known, starts_getD known,
    List.getD_eq_getElem?_getD, found, Option.getD_some, slot_eq pair]
  omega

theorem positions_nodup (ids : List Nat) : ((stableSort ids).map Prod.snd).Nodup := by
  have positions := (stableSort_perm ids).map Prod.snd
  rw [positions.nodup_iff, List.zipIdx_map_snd]
  exact List.nodup_range' 1

theorem lt_length_of_mem {entry : Nat × Nat} (among : entry ∈ stableSort ids) :
    entry.2 < ids.length := by
  obtain ⟨k, found⟩ := List.mem_iff_getElem?.mp among
  exact (List.getElem?_eq_some_iff.mp (getElem?_of_stableSort found)).1

theorem alignBlocks_aligned (someExpert : 0 < numExperts) (positive : 0 < blockM)
    (small : ∀ e ∈ ids, e < numExperts) :
    AlignedAs ids numExperts blockM (alignBlocks ids numExperts blockM) := by
  have bound := runs_fit ids positive small
  have distinct : ((stableSort ids).map fun entry =>
      slot (room ids blockM) ids entry.2).Nodup := by
    have mapped := List.Nodup.map_on (f := slot (room ids blockM) ids)
      (l := (stableSort ids).map Prod.snd) (by
        intro p first m second same
        obtain ⟨_, amongFirst, rfl⟩ := List.mem_map.mp first
        obtain ⟨_, amongSecond, rfl⟩ := List.mem_map.mp second
        exact slot_inj (count_le_room ids positive) (lt_length_of_mem amongFirst)
          (lt_length_of_mem amongSecond) same) (positions_nodup ids)
    rwa [List.map_map] at mapped
  have inside : ∀ r ∈ (stableSort ids).map (fun entry => slot (room ids blockM) ids entry.2),
      r < (List.replicate ((Kernels.cdiv ids.length blockM + numExperts) * blockM) ids.length).length := by
    intro r among
    obtain ⟨entry, sorted, rfl⟩ := List.mem_map.mp among
    rw [List.length_replicate]
    exact Nat.lt_of_lt_of_le (slot_lt_rows positive small (lt_length_of_mem sorted)) bound
  have blocks : (ids.length + blockM - 1) / blockM = Kernels.cdiv ids.length blockM := rfl
  simp only [alignBlocks, padded_eq, destinations_eq small, blocks]
  constructor
  · simp
  · simp
  · have last := @getD_starts ids numExperts blockM (numExperts - 1) (by omega)
    have whole := runStart_succ (room ids blockM) (numExperts - 1)
    rw [Nat.sub_add_cancel someExpert] at whole
    rw [last, getD_map_range _ 0 (by omega), whole]
  · intro p among
    obtain ⟨j, found⟩ := exists_place (List.getElem?_eq_getElem among)
    have place : ((stableSort ids).map fun entry =>
        slot (room ids blockM) ids entry.2)[j]? = some (slot (room ids blockM) ids p) := by
      rw [List.getElem?_map, found]
      rfl
    have position : ((stableSort ids).map Prod.snd)[j]? = some p := by
      rw [List.getElem?_map, found]
      rfl
    exact getElem?_indexCopy distinct inside place position
  · intro e known r first last
    have absent : r ∉ (stableSort ids).map fun entry => slot (room ids blockM) ids entry.2 := by
      intro among
      obtain ⟨entry, sorted, place⟩ := List.mem_map.mp among
      exact slot_not_overhang positive (lt_length_of_mem sorted) place.symm first last
    have within : r < (Kernels.cdiv ids.length blockM + numExperts) * blockM :=
      Nat.lt_of_lt_of_le last
        (Nat.le_trans (runStart_mono _ (Nat.succ_le_of_lt known)) bound)
    rw [getElem?_indexCopy_of_not_mem absent, List.getElem?_replicate, if_pos within]
  · intro b e known run
    have within : b * blockM < (Kernels.cdiv ids.length blockM + numExperts) * blockM :=
      Nat.lt_of_lt_of_le run.last
        (Nat.le_trans (runStart_mono _ (Nat.succ_le_of_lt known)) bound)
    have owner := ownerOf_eq positive run known (Nat.le_refl numExperts)
    rw [List.getElem?_map, List.getElem?_range (Nat.lt_of_mul_lt_mul_right within),
      Option.map_some, ← owner, ownerOf, searchsortedRight, List.map_map, List.countP_map]
    congr 3
    refine List.countP_congr fun expert small => ?_
    rw [List.mem_range] at small
    have start := @getD_starts ids numExperts blockM expert small
    rw [getD_map_range _ 0 small] at start
    simp only [Function.comp_apply, start, small, and_true]

section Rows

variable {blocks : AlignedBlocks} (aligned : AlignedAs ids numExperts blockM blocks)
include aligned

theorem AlignedAs.row {r : Nat} (inside : r < blocks.numRows) :
    (∃ p < ids.length, r = slot (room ids blockM) ids p ∧ blocks.sortedPairs[r]? = some p) ∨
      blocks.sortedPairs[r]? = some ids.length := by
  rw [aligned.numRows] at inside
  obtain ⟨e, known, run⟩ := exists_inRun inside
  rcases slot_or_room ids run with ⟨p, pair, rfl⟩ | left
  · have among := (List.getElem?_eq_some_iff.mp pair).1
    exact Or.inl ⟨p, among, rfl, aligned.slots p among⟩
  · exact Or.inr (aligned.overhang e known r left run.last)

theorem AlignedAs.slot_of_row {r p : Nat} (inside : r < blocks.numRows) (pair : p < ids.length)
    (held : blocks.sortedPairs[r]? = some p) : r = slot (room ids blockM) ids p := by
  rcases aligned.row inside with ⟨p', _, place, held'⟩ | sentinel
  · rw [held] at held'
    obtain rfl := Option.some.inj held'
    exact place
  · rw [held] at sentinel
    obtain rfl := Option.some.inj sentinel
    exact absurd pair (Nat.lt_irrefl _)

/-- Every pair is in the layout once. -/
theorem AlignedAs.count_eq_one (positive : 0 < blockM) (small : ∀ e ∈ ids, e < numExperts)
    {p : Nat} (pair : p < ids.length) :
    (blocks.sortedPairs.take blocks.numRows).count p = 1 := by
  have place := slot_lt_rows positive small pair
  rw [← aligned.numRows] at place
  have found : (blocks.sortedPairs.take blocks.numRows)[slot (room ids blockM) ids p]? =
      some p := by
    rw [List.getElem?_take_of_lt place]
    exact aligned.slots p pair
  refine countP_eq_one found (beq_self_eq_true p) fun k other read holding => ?_
  obtain rfl := beq_iff_eq.mp holding
  have inside : k < blocks.numRows := by
    have short := (List.getElem?_eq_some_iff.mp read).1
    rw [List.length_take] at short
    omega
  rw [List.getElem?_take_of_lt inside] at read
  exact aligned.slot_of_row inside pair read

/-- A pair's block is its expert's. -/
theorem AlignedAs.owner_of_row (positive : 0 < blockM) {r p : Nat} (inside : r < blocks.numRows)
    (pair : p < ids.length) (held : blocks.sortedPairs[r]? = some p) :
    blocks.blockExperts[r / blockM]? = ids[p]?.map Int.ofNat := by
  have found := List.getElem?_eq_getElem pair
  have place := aligned.slot_of_row inside pair held
  have run := slot_inRun (count_le_room ids positive) found
  rw [← place] at run
  have known := exists_inRun (aligned.numRows ▸ inside)
  obtain ⟨e, small, own⟩ := known
  have same := own.unique run
  rw [found, Option.map_some, aligned.owner _ e small (inRun_block positive own), same]
  rfl

/-- An expert's pairs are in order. -/
theorem AlignedAs.pairs_in_order {r r' p p' : Nat} (later : r < r') (inside : r' < blocks.numRows)
    (pair : p < ids.length) (pair' : p' < ids.length) (held : blocks.sortedPairs[r]? = some p)
    (held' : blocks.sortedPairs[r']? = some p') (same : ids[p]? = ids[p']?) : p < p' := by
  have place := aligned.slot_of_row (Nat.lt_trans later inside) pair held
  have place' := aligned.slot_of_row inside pair' held'
  have found := List.getElem?_eq_getElem pair
  rw [found] at same
  rw [slot_eq found] at place
  rw [slot_eq same.symm] at place'
  by_contra before
  have counted := before_mono ids ids[p] (Nat.le_of_not_lt before)
  omega

end Rows

/-! ## One store to a cell -/

section Stores

variable {numPrograms tile expertsPow2 : Nat} {expertMap : Option (List Int)} {run : AlignRun}
  (launched : Launched ids numExperts blockM numPrograms tile expertsPow2 expertMap run)
include launched

/-- One program counts into a cell. -/
theorem Launched.counted_once {c : Nat} (inside : c < numPrograms * expertsPow2) :
    (run.counted.countP fun stores => c ∈ stores.map Prod.fst) = 1 := by
  have positive : 0 < expertsPow2 := Nat.pos_of_lt_mul_left inside
  have program : c / expertsPow2 < numPrograms := (Nat.div_lt_iff_lt_mul positive).mpr inside
  have cells : ∀ (pid : Nat) stores, run.counted[pid]? = some stores →
      (c ∈ stores.map Prod.fst ↔ pid = c / expertsPow2) := by
    intro pid stores found
    rw [launched.counted, countStores, List.getElem?_map, Option.map_eq_some_iff] at found
    obtain ⟨k, read, rfl⟩ := found
    obtain ⟨_, same⟩ := List.getElem?_eq_some_iff.mp read
    rw [List.getElem_range] at same
    subst same
    simp only [List.map_map, List.mem_map, List.mem_range, Function.comp_apply]
    constructor
    · rintro ⟨e, small, rfl⟩
      rw [Nat.mul_comm, Nat.mul_add_div positive, Nat.div_eq_of_lt small, Nat.add_zero]
    · rintro rfl
      exact ⟨c % expertsPow2, Nat.mod_lt _ positive, Nat.div_add_mod' _ _⟩
  have length : run.counted.length = numPrograms := by
    rw [launched.counted, countStores, List.length_map, List.length_range]
  have found := List.getElem?_eq_getElem (show c / expertsPow2 < run.counted.length by
    rwa [length])
  exact countP_eq_one found (decide_eq_true ((cells _ _ found).mpr rfl))
    fun pid stores read own => (cells pid stores read).mp (of_decide_eq_true own)

theorem Launched.mem_pairs (someTile : 0 < tile) {pid : Nat}
    {stores : List (Nat × Nat) × List (Nat × Int)} (found : run.scattered[pid]? = some stores)
    (r : Nat) : r ∈ stores.1.map Prod.fst ↔
      ∃ p < ids.length, r = slot (room ids blockM) ids p ∧ pid = p / tile := by
  simp only [List.mem_map, Prod.exists, launched.pairs pid stores found]
  constructor
  · rintro ⟨_, p, ⟨lane, small, place, inside, rfl⟩, rfl⟩
    refine ⟨p, inside, rfl, ?_⟩
    rw [place, Nat.mul_comm, Nat.mul_add_div someTile, Nat.div_eq_of_lt small, Nat.add_zero]
  · rintro ⟨p, inside, rfl, rfl⟩
    exact ⟨_, p, ⟨p % tile, Nat.mod_lt _ someTile, (Nat.div_add_mod' p tile).symm, inside, rfl⟩,
      rfl⟩

theorem Launched.mem_blocks (someTile : 0 < tile) {pid : Nat}
    {stores : List (Nat × Nat) × List (Nat × Int)} (found : run.scattered[pid]? = some stores)
    (b : Nat) : b ∈ stores.2.map Prod.fst ↔
      b < Kernels.cdiv ids.length blockM + numExperts ∧ pid = b / tile := by
  simp only [List.mem_map, Prod.exists, launched.blocks pid stores found]
  constructor
  · rintro ⟨_, _, ⟨lane, small, place, inside, _⟩, rfl⟩
    refine ⟨inside, ?_⟩
    rw [place, Nat.mul_comm, Nat.mul_add_div someTile, Nat.div_eq_of_lt small, Nat.add_zero]
  · rintro ⟨inside, rfl⟩
    exact ⟨b, _, ⟨b % tile, Nat.mod_lt _ someTile, (Nat.div_add_mod' b tile).symm, inside, rfl⟩,
      rfl⟩

theorem Launched.mem_overhang (r : Nat) : r ∈ run.scan.overhang.map Prod.fst ↔
    ∃ e < expertsPow2, runStart (room ids blockM) e + ids.count e ≤ r ∧
      r < runStart (room ids blockM) (e + 1) := by
  simp only [List.mem_map, Prod.exists, launched.overhang]
  constructor
  · rintro ⟨_, _, ⟨e, small, first, last, _⟩, rfl⟩
    exact ⟨e, small, first, last⟩
  · rintro ⟨e, small, first, last⟩
    exact ⟨r, _, ⟨e, small, first, last, rfl⟩, rfl⟩

/-- One program writes a row: the scan an overhang, or a program of the scatter its pair. -/
theorem Launched.rows_once (positive : 0 < blockM) (someTile : 0 < tile)
    (covered : ids.length ≤ numPrograms * tile) (fits : numExperts ≤ expertsPow2) {r : Nat}
    (inside : r < runStart (room ids blockM) numExperts) :
    ((run.scan.overhang :: run.scattered.map Prod.fst).countP fun stores =>
      r ∈ stores.map Prod.fst) = 1 := by
  obtain ⟨e, known, inRun⟩ := exists_inRun inside
  rcases slot_or_room ids inRun with ⟨p, pair, place⟩ | left
  · have among := (List.getElem?_eq_some_iff.mp pair).1
    have program : p / tile < numPrograms :=
      (Nat.div_lt_iff_lt_mul someTile).mpr (Nat.lt_of_lt_of_le among covered)
    obtain ⟨own, found⟩ : ∃ own, run.scattered[p / tile]? = some own := by
      refine ⟨_, List.getElem?_eq_getElem ?_⟩
      rw [launched.scattered]
      omega
    have listed : (run.scan.overhang :: run.scattered.map Prod.fst)[p / tile + 1]? =
        some own.1 := by
      rw [List.getElem?_cons_succ, List.getElem?_map, found]
      rfl
    refine countP_eq_one listed
      (decide_eq_true ((launched.mem_pairs someTile found r).mpr ⟨p, among, place, rfl⟩)) ?_
    intro k stores read holding
    rw [decide_eq_true_eq] at holding
    cases k with
    | zero =>
        obtain rfl := Option.some.inj read
        obtain ⟨_, _, first, last⟩ := (launched.mem_overhang r).mp holding
        exact absurd last (slot_not_overhang positive among place first)
    | succ k =>
        rw [List.getElem?_cons_succ, List.getElem?_map, Option.map_eq_some_iff] at read
        obtain ⟨other, read, rfl⟩ := read
        obtain ⟨p', among', place', rfl⟩ := (launched.mem_pairs someTile read r).mp holding
        rw [slot_inj (count_le_room ids positive) among' among (place'.symm.trans place)]
  · refine countP_eq_one (j := 0) rfl
      (decide_eq_true ((launched.mem_overhang r).mpr ⟨e, by omega, left, inRun.last⟩)) ?_
    intro k stores read holding
    rw [decide_eq_true_eq] at holding
    cases k with
    | zero => rfl
    | succ k =>
        rw [List.getElem?_cons_succ, List.getElem?_map, Option.map_eq_some_iff] at read
        obtain ⟨other, read, rfl⟩ := read
        obtain ⟨p, among, place, _⟩ := (launched.mem_pairs someTile read r).mp holding
        exact absurd inRun.last (slot_not_overhang positive among place left)

/-- One program names a block's expert. -/
theorem Launched.blocks_once (someTile : 0 < tile) {b : Nat}
    (inside : b < Kernels.cdiv ids.length blockM + numExperts) :
    (run.scattered.countP fun stores => b ∈ stores.2.map Prod.fst) = 1 := by
  have program := div_lt_cdiv inside someTile
  have found := List.getElem?_eq_getElem (show b / tile < run.scattered.length by
    rw [launched.scattered]
    omega)
  refine countP_eq_one found
    (decide_eq_true ((launched.mem_blocks someTile found b).mpr ⟨inside, rfl⟩)) ?_
  intro pid stores read holding
  exact ((launched.mem_blocks someTile read b).mp (of_decide_eq_true holding)).2

end Stores

/-! ## Both layouts are one -/

/-- The reference holds every pair once, in a block of its expert, and the launches write
the same layout, one program to a cell. -/
theorem launches_lay_out_reference (ids : List Nat)
    (numExperts blockM numPrograms tile expertsPow2 : Nat) (expertMap : Option (List Int))
    (someExpert : 0 < numExperts) (small : ∀ e ∈ ids, e < numExperts) (positive : 0 < blockM)
    (someTile : 0 < tile) (covered : ids.length ≤ numPrograms * tile)
    (fits : numExperts ≤ expertsPow2) (maps : MapsAll expertMap numExperts) :
    let blocks := alignBlocks ids numExperts blockM
    (∀ p < ids.length, (blocks.sortedPairs.take blocks.numRows).count p = 1) ∧
    (∀ r < blocks.numRows, ∃ p, blocks.sortedPairs[r]? = some p ∧
      (p < ids.length ∧ blocks.blockExperts[r / blockM]? = ids[p]?.map Int.ofNat ∨
        p = ids.length)) ∧
    (∀ r r' p p', r < r' → r' < blocks.numRows → p < ids.length → p' < ids.length →
      blocks.sortedPairs[r]? = some p → blocks.sortedPairs[r']? = some p' → ids[p]? = ids[p']? →
        p < p') ∧
    blockM ∣ blocks.numRows ∧ blocks.numRows ≤ blocks.blockExperts.length * blockM ∧
    ∃ run, alignLaunches ids numExperts blockM numPrograms tile expertsPow2 expertMap = some run ∧
      run.layout.numRows = blocks.numRows ∧
      (∀ r < blocks.numRows, run.layout.sortedPairs.load r = blocks.sortedPairs[r]?) ∧
      (∀ b < blocks.numRows / blockM, ∃ e < numExperts, blocks.blockExperts[b]? = some (e : Int) ∧
        run.layout.blockExperts.load b = some (localExpert expertMap e)) ∧
      (∀ c < numPrograms * expertsPow2,
        (run.counted.countP fun stores => c ∈ stores.map Prod.fst) = 1) ∧
      (∀ r < blocks.numRows, ((run.scan.overhang :: run.scattered.map Prod.fst).countP
        fun stores => r ∈ stores.map Prod.fst) = 1) ∧
      ∀ b < run.layout.numBlocks,
        (run.scattered.countP fun stores => b ∈ stores.2.map Prod.fst) = 1 := by
  intro blocks
  have aligned := alignBlocks_aligned someExpert positive small
  obtain ⟨run, ran, launched, laid⟩ := alignLaunches_spec someExpert fits positive someTile covered
    small maps
  refine ⟨fun p => aligned.count_eq_one positive small, ?_, ?_, ?_, ?_, run, ran, ?_, ?_, ?_,
    fun c => launched.counted_once, ?_, ?_⟩
  · intro r inside
    rcases aligned.row inside with ⟨p, pair, _, held⟩ | sentinel
    · exact ⟨p, held, Or.inl ⟨pair, aligned.owner_of_row positive inside pair held⟩⟩
    · exact ⟨_, sentinel, Or.inr rfl⟩
  · intro r r' p p' later inside pair pair' held held' same
    exact aligned.pairs_in_order later inside pair pair' held held' same
  · rw [aligned.numRows]
    exact dvd_runStart (fun k => Nat.dvd_mul_left blockM _) numExperts
  · rw [aligned.numRows, aligned.numBlocks]
    exact runs_fit ids positive small
  · rw [laid.numRows, aligned.numRows]
  · intro r inside
    rw [aligned.numRows] at inside
    obtain ⟨e, known, inRun⟩ := exists_inRun inside
    rcases slot_or_room ids inRun with ⟨p, pair, rfl⟩ | left
    · have among := (List.getElem?_eq_some_iff.mp pair).1
      rw [laid.slots p among, aligned.slots p among]
    · rw [laid.overhang e known r left inRun.last, aligned.overhang e known r left inRun.last]
  · intro b inside
    have whole := (Nat.le_div_iff_mul_le positive).mp (Nat.succ_le_of_lt inside)
    rw [Nat.succ_mul, aligned.numRows] at whole
    obtain ⟨e, known, inRun⟩ := exists_inRun
      (show b * blockM < runStart (room ids blockM) numExperts by omega)
    exact ⟨e, known, aligned.owner b e known inRun, laid.owner b e known inRun⟩
  · intro r inside
    rw [aligned.numRows] at inside
    exact launched.rows_once positive someTile covered fits inside
  · intro b inside
    rw [laid.numBlocks] at inside
    exact launched.blocks_once someTile inside

/-- Six pairs of four experts, one of them unused and one another rank's. -/
theorem launches_lay_out_reference_sixPairs :
    let ids := [3, 0, 3, 1, 3, 0]
    let blocks := alignBlocks ids 4 2
    let expertMap := some [0, 1, 2, -1]
    (∀ e ∈ ids, e < 4) ∧ blocks.numRows = 8 ∧
    ∃ run, alignLaunches ids 4 2 2 4 4 expertMap = some run ∧ run.layout.numRows = 8 ∧
      ∀ r < 8, run.layout.sortedPairs.load r = blocks.sortedPairs[r]? := by
  have rows : (alignBlocks [3, 0, 3, 1, 3, 0] 4 2).numRows = 8 := by decide
  obtain ⟨_, _, _, _, _, run, ran, numRows, same, _⟩ := launches_lay_out_reference
    [3, 0, 3, 1, 3, 0] 4 2 2 4 4 (some [0, 1, 2, -1]) (by decide) (by decide) (by decide)
    (by decide) (by decide) (by decide) (by
      intro map found
      obtain rfl := Option.some.inj found
      rfl)
  rw [rows] at numRows same
  exact ⟨by decide, rows, run, ran, numRows, same⟩

end FusedMoe

end LeanVllm
