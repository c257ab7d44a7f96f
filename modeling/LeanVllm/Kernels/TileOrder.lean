import Mathlib.Data.Nat.Log
import Mathlib.Data.Set.Function
import Mathlib.Tactic.Ring
import Mathlib.Algebra.Order.Ring.Nat

/-!
# The grouped order of tiles

The programs of a matrix product take its tiles in groups of row blocks: each group in
turn takes each column tile.  The last group may be smaller.
-/

namespace LeanVllm.Kernels

/-- `triton.next_power_of_2`, of a positive number. -/
def nextPowerOf2 (n : Nat) : Nat :=
  2 ^ Nat.clog 2 n

theorem le_nextPowerOf2 (n : Nat) : n ≤ nextPowerOf2 n :=
  Nat.le_pow_clog Nat.one_lt_two n

theorem nextPowerOf2_pos (n : Nat) : 0 < nextPowerOf2 n :=
  Nat.pow_pos Nat.two_pos

/-- `triton.cdiv`. -/
def cdiv (a b : Nat) : Nat :=
  (a + b - 1) / b

theorem lt_cdiv_iff {a b k : Nat} (positive : 0 < b) : k < cdiv a b ↔ k * b < a := by
  rw [cdiv, Nat.lt_iff_add_one_le, Nat.le_div_iff_mul_le positive, Nat.succ_mul]
  omega

/-- A position of a row of tiles, by its tile and its offset in the tile. -/
theorem div_lt_cdiv {a b k : Nat} (inside : k < a) (positive : 0 < b) : k / b < cdiv a b := by
  have lower := Nat.div_mul_le_self k b
  exact (lt_cdiv_iff positive).mpr (Nat.lt_of_le_of_lt lower inside)

/-- The tiles hold the whole row. -/
theorem le_cdiv_mul (a : Nat) {b : Nat} (positive : 0 < b) : a ≤ cdiv a b * b := by
  by_contra short
  exact absurd ((lt_cdiv_iff positive).mpr (Nat.lt_of_not_le short)) (Nat.lt_irrefl _)

/-- They waste under one whole tile. -/
theorem cdiv_mul_le (a b : Nat) : cdiv a b * b ≤ a + b := by
  have lower := Nat.div_mul_le_self (a + b - 1) b
  rw [cdiv]
  omega

/-- The first row block of a program's group. -/
def firstPidM (numPidN groupSizeM pid : Nat) : Nat :=
  pid / (groupSizeM * numPidN) * groupSizeM

/-- How many row blocks a program's group has: `group_size_m`. -/
def groupSizeOf (numBlocks numPidN groupSizeM pid : Nat) : Nat :=
  min (numBlocks - firstPidM numPidN groupSizeM pid) groupSizeM

/-- The row block and the column tile of a program. -/
def programTile (numBlocks numPidN groupSizeM pid : Nat) : Nat × Nat :=
  let numPidInGroup := groupSizeM * numPidN
  let groupSize := groupSizeOf numBlocks numPidN groupSizeM pid
  (firstPidM numPidN groupSizeM pid + pid % numPidInGroup % groupSize,
    pid % numPidInGroup / groupSize)

/-- The program of a tile. -/
def tileProgram (numBlocks numPidN groupSizeM : Nat) (tile : Nat × Nat) : Nat :=
  let group := tile.1 / groupSizeM
  let groupSize := min (numBlocks - group * groupSizeM) groupSizeM
  group * (groupSizeM * numPidN) + (tile.2 * groupSize + tile.1 % groupSizeM)

variable {numBlocks numPidN groupSizeM : Nat} {tile : Nat × Nat}

/-- A row block's place in its group is inside the group, also in the last one. -/
theorem mod_lt_groupSize (row : tile.1 < numBlocks) (positive : 0 < groupSizeM) :
    tile.1 % groupSizeM < min (numBlocks - tile.1 / groupSizeM * groupSizeM) groupSizeM := by
  have whole := Nat.div_add_mod tile.1 groupSizeM
  have small := Nat.mod_lt tile.1 positive
  rw [Nat.mul_comm] at whole
  omega

/-- A tile's place among the programs of its group. -/
theorem inGroup_lt (row : tile.1 < numBlocks) (column : tile.2 < numPidN)
    (positive : 0 < groupSizeM) :
    let groupSize := min (numBlocks - tile.1 / groupSizeM * groupSizeM) groupSizeM
    tile.2 * groupSize + tile.1 % groupSizeM < groupSize * numPidN := by
  intro groupSize
  have small := mod_lt_groupSize row positive
  calc tile.2 * groupSize + tile.1 % groupSizeM < tile.2 * groupSize + groupSize :=
        Nat.add_lt_add_left small _
    _ = groupSize * (tile.2 + 1) := by ring
    _ ≤ groupSize * numPidN := Nat.mul_le_mul_left _ column

theorem programTile_tileProgram (row : tile.1 < numBlocks) (column : tile.2 < numPidN)
    (positive : 0 < groupSizeM) :
    programTile numBlocks numPidN groupSizeM (tileProgram numBlocks numPidN groupSizeM tile) =
      tile := by
  have small := mod_lt_groupSize row positive
  have inGroup := inGroup_lt row column positive
  simp only at inGroup
  generalize sized : min (numBlocks - tile.1 / groupSizeM * groupSizeM) groupSizeM = groupSize
    at small inGroup
  have size : groupSize ≤ groupSizeM := sized ▸ Nat.min_le_right _ _
  have inWhole : tile.2 * groupSize + tile.1 % groupSizeM < groupSizeM * numPidN :=
    Nat.lt_of_lt_of_le inGroup (Nat.mul_le_mul_right _ size)
  have perGroup : 0 < groupSizeM * numPidN := Nat.zero_lt_of_lt inWhole
  have program : tileProgram numBlocks numPidN groupSizeM tile =
      tile.1 / groupSizeM * (groupSizeM * numPidN) +
        (tile.2 * groupSize + tile.1 % groupSizeM) := by
    rw [tileProgram, ← sized]
  have group : tileProgram numBlocks numPidN groupSizeM tile / (groupSizeM * numPidN) =
      tile.1 / groupSizeM := by
    rw [program, Nat.add_comm, Nat.add_mul_div_right _ _ perGroup, Nat.div_eq_of_lt inWhole,
      Nat.zero_add]
  have rest : tileProgram numBlocks numPidN groupSizeM tile % (groupSizeM * numPidN) =
      tile.2 * groupSize + tile.1 % groupSizeM := by
    rw [program, Nat.add_comm, Nat.add_mul_mod_self_right, Nat.mod_eq_of_lt inWhole]
  simp only [programTile, groupSizeOf, firstPidM, group, rest, sized]
  have offset : (tile.2 * groupSize + tile.1 % groupSizeM) % groupSize = tile.1 % groupSizeM := by
    rw [Nat.add_comm, Nat.add_mul_mod_self_right, Nat.mod_eq_of_lt small]
  have column : (tile.2 * groupSize + tile.1 % groupSizeM) / groupSize = tile.2 := by
    rw [Nat.add_comm, Nat.add_mul_div_right _ _ (Nat.zero_lt_of_lt small), Nat.div_eq_of_lt small,
      Nat.zero_add]
  rw [offset, column, Nat.mul_comm, Nat.div_add_mod]

theorem tileProgram_lt (row : tile.1 < numBlocks) (column : tile.2 < numPidN)
    (positive : 0 < groupSizeM) :
    tileProgram numBlocks numPidN groupSizeM tile < numBlocks * numPidN := by
  have inGroup := inGroup_lt row column positive
  have first := Nat.div_mul_le_self tile.1 groupSizeM
  have size : min (numBlocks - tile.1 / groupSizeM * groupSizeM) groupSizeM ≤
      numBlocks - tile.1 / groupSizeM * groupSizeM := Nat.min_le_left _ _
  simp only [tileProgram]
  calc tile.1 / groupSizeM * (groupSizeM * numPidN) + _
      < tile.1 / groupSizeM * (groupSizeM * numPidN) +
          (numBlocks - tile.1 / groupSizeM * groupSizeM) * numPidN :=
        Nat.add_lt_add_left (Nat.lt_of_lt_of_le inGroup (Nat.mul_le_mul_right _ size)) _
    _ = (tile.1 / groupSizeM * groupSizeM + (numBlocks - tile.1 / groupSizeM * groupSizeM)) *
          numPidN := by ring
    _ = numBlocks * numPidN := by rw [Nat.add_sub_cancel' (by omega)]

section Programs

variable {pid : Nat} (inside : pid < numBlocks * numPidN)
include inside

/-- No group is empty. -/
theorem groupSizeOf_pos (positive : 0 < groupSizeM) :
    0 < groupSizeOf numBlocks numPidN groupSizeM pid := by
  have lower := Nat.div_mul_le_self pid (groupSizeM * numPidN)
  rw [← Nat.mul_assoc] at lower
  have first : firstPidM numPidN groupSizeM pid < numBlocks :=
    Nat.lt_of_mul_lt_mul_right (Nat.lt_of_le_of_lt lower inside)
  rw [groupSizeOf]
  omega

/-- A program's place in its group is one of the group's tiles. -/
theorem mod_lt_groupSizeOf (columns : 0 < numPidN) (positive : 0 < groupSizeM) :
    pid % (groupSizeM * numPidN) < numPidN * groupSizeOf numBlocks numPidN groupSizeM pid := by
  rw [groupSizeOf]
  by_cases whole : groupSizeM ≤ numBlocks - firstPidM numPidN groupSizeM pid
  · rw [Nat.min_eq_right whole, Nat.mul_comm numPidN]
    exact Nat.mod_lt _ (Nat.mul_pos positive columns)
  -- the last group
  · rw [Nat.min_eq_left (Nat.le_of_not_le whole), Nat.mul_sub, Nat.mul_comm numPidN numBlocks]
    have split := Nat.div_add_mod pid (groupSizeM * numPidN)
    have first : numPidN * firstPidM numPidN groupSizeM pid =
        groupSizeM * numPidN * (pid / (groupSizeM * numPidN)) := by
      rw [firstPidM]
      ring
    rw [first]
    omega

theorem programTile_lt (columns : 0 < numPidN) (positive : 0 < groupSizeM) :
    (programTile numBlocks numPidN groupSizeM pid).1 < numBlocks ∧
      (programTile numBlocks numPidN groupSizeM pid).2 < numPidN := by
  have groupSize := groupSizeOf_pos inside positive
  have place := mod_lt_groupSizeOf inside columns positive
  constructor
  · have small := Nat.mod_lt (pid % (groupSizeM * numPidN)) groupSize
    have room : groupSizeOf numBlocks numPidN groupSizeM pid ≤
        numBlocks - firstPidM numPidN groupSizeM pid := Nat.min_le_left _ _
    simp only [programTile]
    omega
  · exact (Nat.div_lt_iff_lt_mul groupSize).mpr place

theorem tileProgram_programTile (positive : 0 < groupSizeM) :
    tileProgram numBlocks numPidN groupSizeM (programTile numBlocks numPidN groupSizeM pid) =
      pid := by
  have groupSize := groupSizeOf_pos inside positive
  have small := Nat.mod_lt (pid % (groupSizeM * numPidN)) groupSize
  have size : groupSizeOf numBlocks numPidN groupSizeM pid ≤ groupSizeM := Nat.min_le_right _ _
  have group : (programTile numBlocks numPidN groupSizeM pid).1 / groupSizeM =
      pid / (groupSizeM * numPidN) := by
    simp only [programTile, firstPidM]
    rw [Nat.add_comm, Nat.add_mul_div_right _ _ positive,
      Nat.div_eq_of_lt (Nat.lt_of_lt_of_le small size), Nat.zero_add]
  have offset : (programTile numBlocks numPidN groupSizeM pid).1 % groupSizeM =
      pid % (groupSizeM * numPidN) % groupSizeOf numBlocks numPidN groupSizeM pid := by
    simp only [programTile, firstPidM]
    rw [Nat.add_comm, Nat.add_mul_mod_self_right, Nat.mod_eq_of_lt (Nat.lt_of_lt_of_le small size)]
  simp only [tileProgram, group, offset]
  change pid / (groupSizeM * numPidN) * (groupSizeM * numPidN) +
    (pid % (groupSizeM * numPidN) / groupSizeOf numBlocks numPidN groupSizeM pid *
        groupSizeOf numBlocks numPidN groupSizeM pid +
      pid % (groupSizeM * numPidN) % groupSizeOf numBlocks numPidN groupSizeM pid) = pid
  rw [Nat.div_add_mod', Nat.div_add_mod']

end Programs

/-- Every tile has a program. -/
theorem exists_program {m n : Nat} (row : m < numBlocks) (column : n < numPidN)
    (positive : 0 < groupSizeM) :
    ∃ pid < numBlocks * numPidN, programTile numBlocks numPidN groupSizeM pid = (m, n) :=
  ⟨_, @tileProgram_lt _ _ _ (m, n) row column positive,
    @programTile_tileProgram _ _ _ (m, n) row column positive⟩

/-- Each tile is one program's, also when the last group is smaller. -/
theorem programTile_bijOn (numBlocks N blockN groupSizeM : Nat) (columns : 0 < N)
    (width : 0 < blockN) (positive : 0 < groupSizeM) :
    Set.BijOn (programTile numBlocks (cdiv N blockN) groupSizeM)
        {pid | pid < numBlocks * cdiv N blockN}
        {tile | tile.1 < numBlocks ∧ tile.2 < cdiv N blockN} ∧
      ∀ pid < numBlocks * cdiv N blockN,
        firstPidM (cdiv N blockN) groupSizeM pid < numBlocks ∧
          0 < groupSizeOf numBlocks (cdiv N blockN) groupSizeM pid := by
  have numPidN : 0 < cdiv N blockN := (lt_cdiv_iff width).mpr (by omega)
  constructor
  · have inverse : Set.InvOn (tileProgram numBlocks (cdiv N blockN) groupSizeM)
        (programTile numBlocks (cdiv N blockN) groupSizeM) {pid | pid < numBlocks * cdiv N blockN}
        {tile | tile.1 < numBlocks ∧ tile.2 < cdiv N blockN} := by
      constructor
      · exact fun pid inside => tileProgram_programTile inside positive
      · exact fun tile inside => programTile_tileProgram inside.1 inside.2 positive
    apply inverse.bijOn
    · exact fun pid inside => programTile_lt inside numPidN positive
    · exact fun tile inside => tileProgram_lt inside.1 inside.2 positive
  · intro pid inside
    have groupSize := groupSizeOf_pos inside positive
    have room := groupSize
    rw [groupSizeOf] at room
    exact ⟨by omega, groupSize⟩

theorem programTile_bijOn_fiveByThree :
    Set.BijOn (programTile 5 3 2) {pid | pid < 15} {tile | tile.1 < 5 ∧ tile.2 < 3} :=
  (programTile_bijOn 5 40 16 2 (by decide) (by decide) (by decide)).1

end LeanVllm.Kernels
