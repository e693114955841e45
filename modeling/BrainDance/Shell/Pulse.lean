import BrainDance.Memory.Pmm.Statistics

/-!
Owns the memory figures of `pulse_command` of `shell/shell.c` and what they are worth: when
the statistics behind them are byte counts, when the division has a quotient, and when the
usage is a percentage.
-/

namespace BrainDance.Shell

open BrainDance.Foundation
open BrainDance.Memory

/-! ### Model -/

/-- `free_mem`, `total_mem` and `mem_usage`. -/
structure MemoryFigures where
  freeMem : Word
  totalMem : Word
  memUsage : Word

/-- The figures, or none where the division by `total_mem` traps. -/
def memoryFigures (pmm : Pmm) : Option MemoryFigures :=
  let freeMem := pmmGetFreeMemory pmm / 1024 / 1024
  let totalMem := pmmGetTotalMemory pmm / 1024 / 1024
  if totalMem = 0 then none
  else some ⟨freeMem, totalMem, (totalMem - freeMem) * 100 / totalMem⟩

/-! ### The figures -/

section Figures

variable {pmm : Pmm}

/-- 1 MiB is 256 blocks. -/
theorem megabytes_toNat {blocks : Word} (few : blocks.toNat < 2 ^ 20) :
    (blocks * blockSize / 1024 / 1024).toNat = blocks.toNat / 256 := by
  rw [BitVec.toNat_udiv, BitVec.toNat_udiv, (blocks_toNat_iff blocks).mpr few]
  simp only [show (1024 : Word).toNat = 1024 from rfl]
  omega

/-- Where the statistics are byte counts the division has a quotient from 1 MiB on. -/
theorem memoryFigures_eq_none_iff (inRange : pmm.InRange) :
    memoryFigures pmm = none ↔ pmm.totalBlocks.toNat < 256 := by
  have total := megabytes_toNat inRange.total
  rw [memoryFigures, pmmGetTotalMemory]
  generalize pmm.totalBlocks * blockSize / 1024 / 1024 = totalMem at total ⊢
  by_cases zero : totalMem = 0
  · rw [zero, show (0 : Word).toNat = 0 from rfl] at total
    exact iff_of_true (if_pos zero) (by omega)
  · have positive : 0 < totalMem.toNat := BitVec.toNat_pos_of_ne_zero zero
    rw [if_neg zero]
    exact iff_of_false (Option.some_ne_none _) (by omega)

theorem memUsage_percentage (inRange : pmm.InRange) {figures : MemoryFigures}
    (shown : memoryFigures pmm = some figures) :
    0 ≤ figures.memUsage.toInt ∧ figures.memUsage.toInt ≤ 100 := by
  have ⟨few, used⟩ := inRange
  have difference : (pmm.totalBlocks - pmm.usedBlocks).toNat =
      pmm.totalBlocks.toNat - pmm.usedBlocks.toNat := BitVec.toNat_sub_of_le used
  have total := megabytes_toNat few
  have free := @megabytes_toNat (pmm.totalBlocks - pmm.usedBlocks) (by omega)
  rw [memoryFigures, pmmGetTotalMemory, pmmGetFreeMemory] at shown
  split at shown
  · contradiction
  generalize pmm.totalBlocks * blockSize / 1024 / 1024 = totalMem at total shown
  generalize (pmm.totalBlocks - pmm.usedBlocks) * blockSize / 1024 / 1024 = freeMem at free shown
  cases shown
  have inUse : (totalMem - freeMem).toNat = totalMem.toNat - freeMem.toNat :=
    BitVec.toNat_sub_of_le (show freeMem.toNat ≤ totalMem.toNat by omega)
  have usage : ((totalMem - freeMem) * 100 / totalMem).toNat =
      (totalMem.toNat - freeMem.toNat) * 100 / totalMem.toNat := by
    rw [BitVec.toNat_udiv, BitVec.toNat_mul, inUse, show (100 : Word).toNat = 100 from rfl,
      Nat.mod_eq_of_lt (by omega)]
  have most : (totalMem.toNat - freeMem.toNat) * 100 / totalMem.toNat ≤ 100 :=
    Nat.div_le_of_le_mul (Nat.mul_le_mul_right 100 (Nat.sub_le _ _))
  have signed : ((totalMem - freeMem) * 100 / totalMem).toInt =
      ((totalMem - freeMem) * 100 / totalMem).toNat :=
    BitVec.toInt_eq_toNat_of_lt (by omega)
  show 0 ≤ ((totalMem - freeMem) * 100 / totalMem).toInt ∧ _ ≤ _
  rw [signed]
  omega

/-- The three statistics are byte counts, the division of `pulse_command` has a quotient
and its usage of memory is a percentage. -/
structure StatisticsHold (pmm : Pmm) : Prop where
  bytes : pmm.ReportsBytes
  percentage : ∃ figures, memoryFigures pmm = some figures ∧
    0 ≤ figures.memUsage.toInt ∧ figures.memUsage.toInt ≤ 100

theorem statisticsHold_iff (pmm : Pmm) :
    StatisticsHold pmm ↔ 256 ≤ pmm.totalBlocks.toNat ∧ pmm.InRange := by
  constructor
  · rintro ⟨bytes, figures, shown, _⟩
    have inRange := pmm.reportsBytes_iff.mp bytes
    refine ⟨Nat.not_lt.mp fun few => ?_, inRange⟩
    rw [(memoryFigures_eq_none_iff inRange).mpr few] at shown
    contradiction
  · rintro ⟨enough, inRange⟩
    have divides := (memoryFigures_eq_none_iff inRange).not.mpr (Nat.not_lt.mpr enough)
    obtain ⟨figures, shown⟩ := Option.ne_none_iff_exists'.mp divides
    exact ⟨pmm.reportsBytes_iff.mpr inRange, figures, shown, memUsage_percentage inRange shown⟩

end Figures

/-! ### Runs -/

section Runs

variable {memory : Image} {kernelEnd : Word} {mmap : List E820Entry} {fuel : Nat} {pmm : Pmm}

/-- The map's memory ends from 1 MiB to below 4 GiB on, as far as 32-bit block numbers
can tell, and `pmm_init` leaves the counter in range. -/
structure MapFits (memory : Image) (kernelEnd : Word) (mmap : List E820Entry) : Prop where
  atLeast : 256 ≤ mapBlocks mmap
  below : mapBlocks mmap < 2 ^ 20
  rounds : RoundsInRange memory kernelEnd mmap

theorem statisticsHold_start_iff
    (initialised : pmmInit fuel memory kernelEnd mmap = some pmm) :
    StatisticsHold pmm ↔ MapFits memory kernelEnd mmap := by
  obtain ⟨_, _, total, used⟩ := pmmInit_eq_some initialised
  rw [statisticsHold_iff, total, totalBlocksOf_toNat]
  constructor
  · rintro ⟨enough, inRange⟩
    have few := inRange.total
    have counter := inRange.used
    rw [total, used, usedAtStart_inRange_iff] at counter
    rw [total, totalBlocksOf_toNat] at few
    exact ⟨enough, few, counter⟩
  · rintro ⟨enough, few, rounds⟩
    refine ⟨enough, ?_, ?_⟩
    · rwa [total, totalBlocksOf_toNat]
    · rwa [total, used, usedAtStart_inRange_iff]

/-- The statistics hold in every state of a run that starts with `pmm_init` exactly when
the map fits them and no call counts below 0. -/
theorem statisticsHold_run_iff (initialised : pmmInit fuel memory kernelEnd mmap = some pmm)
    (calls : List Memory.Call) :
    (∀ state ∈ calls.scanl Memory.Call.exec pmm, StatisticsHold state) ↔
      MapFits memory kernelEnd mmap ∧ CountsThrough pmm calls := by
  rw [← statisticsHold_start_iff initialised]
  exact @forall_scanl_iff StatisticsHold (fun total => 256 ≤ total.toNat) statisticsHold_iff pmm
    calls

end Runs

/-- 1 MiB of usable memory from 1 MiB on. -/
def upperMap : List E820Entry := [⟨0x100000, 0x100000, 1⟩]

theorem usableFrames_upperMap : (usableFrames upperMap).length = 256 := by decide +kernel

theorem mapBlocks_upperMap : mapBlocks upperMap = 512 := by decide

theorem markedAgain_upperMap (memory : Image) :
    (markedAgain memory 0x100000 upperMap).length ≤ 256 := by
  have reserved : reservedBlocks 0x100000 upperMap ≤ 256 := by decide +kernel
  refine (List.length_filter_le _ _).trans ?_
  rwa [List.length_range]

theorem mapFits_upperMap : MapFits (fun _ => 0) 0x100000 upperMap where
  atLeast := by decide
  below := by decide
  rounds := by
    have few := markedAgain_upperMap fun _ => 0
    rw [RoundsInRange, usableFrames_upperMap, mapBlocks_upperMap]
    omega

theorem statisticsHold_run_iff_upper :
    ∃ fuel pmm, pmmInit fuel (fun _ => 0) 0x100000 upperMap = some pmm ∧
      ∀ state ∈ [Memory.Call.alloc, .free 0x110000].scanl Memory.Call.exec pmm,
        StatisticsHold state := by
  obtain ⟨fuel, pmm, initialised⟩ :=
    pmmInit_terminates (show ∀ entry ∈ upperMap, entry.Usable → entry.Short by decide)
      (fun _ => 0) 0x100000
  -- half of the blocks are not usable and keep the counter above 0
  have used : 0 < pmm.usedBlocks.toNat := by
    obtain ⟨_, _, _, used⟩ := pmmInit_eq_some initialised
    have few := markedAgain_upperMap fun _ => 0
    have counter := usedAtStart_toNat (fun _ => 0) 0x100000 upperMap
    rw [← used, mapBlocks_upperMap, usableFrames_upperMap] at counter
    omega
  have counts := used.trans_le (Memory.Call.usedBlocks_le_alloc pmm)
  exact ⟨fuel, pmm, initialised, (statisticsHold_run_iff initialised _).mpr
    ⟨mapFits_upperMap, trivial, fun _ => counts, trivial⟩⟩

def usableBytes (mmap : List E820Entry) : Nat :=
  ((mmap.filter fun entry => entry.Usable).map fun entry => entry.len.toNat).sum

/-- Usable memory from 1 MiB to 4 GiB. -/
def fullMap : List E820Entry := [⟨0x100000, 0xFFF00000, 1⟩]

/-- With 2^20 blocks the total is 0. -/
theorem statisticsHold_run_fails :
    ¬ ∀ memory kernelEnd mmap fuel pmm (calls : List Memory.Call), 2 ^ 20 ≤ usableBytes mmap →
      pmmInit fuel memory kernelEnd mmap = some pmm →
        ∀ state ∈ calls.scanl Memory.Call.exec pmm, StatisticsHold state := by
  intro always
  obtain ⟨fuel, pmm, initialised⟩ :=
    pmmInit_terminates (show ∀ entry ∈ fullMap, entry.Usable → entry.Short by decide)
      (fun _ => 0) 0x100000
  have holds := always _ _ fullMap fuel pmm [] (by decide) initialised pmm (by simp)
  have below := ((statisticsHold_start_iff initialised).mp holds).below
  exact absurd below (by decide)

end BrainDance.Shell
