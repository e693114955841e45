import Mathlib.Algebra.Ring.Int.Defs
import BrainDance.Memory.Pmm.Init

/-!
Owns what the memory statistics are worth. They are byte counts without a wrap
exactly while there are fewer than 2^20 blocks and no more of them in use than there
are. What `pmm_init` finds in the map decides about the first, its releasing loops
and the later calls about the second.
-/

namespace BrainDance.Memory

open BrainDance.Foundation

/-! ### Byte counts -/

/-- The statistics are the byte counts of the blocks, in use and free ones. -/
structure Pmm.ReportsBytes (pmm : Pmm) : Prop where
  total : (pmmGetTotalMemory pmm).toNat = 4096 * pmm.totalBlocks.toNat
  used : (pmmGetUsedMemory pmm).toNat = 4096 * pmm.usedBlocks.toNat
  free : ((pmmGetFreeMemory pmm).toNat : Int) =
    4096 * ((pmm.totalBlocks.toNat : Int) - pmm.usedBlocks.toNat)

/-- The statistics do not wrap: all of memory lies below 4 GiB, and no more of its blocks
are in use than there are. -/
structure Pmm.InRange (pmm : Pmm) : Prop where
  total : pmm.totalBlocks.toNat < 2 ^ 20
  used : pmm.usedBlocks.toNat ≤ pmm.totalBlocks.toNat

theorem blocks_toNat_iff (blocks : Word) :
    (blocks * blockSize).toNat = 4096 * blocks.toNat ↔ blocks.toNat < 2 ^ 20 := by
  rw [BitVec.toNat_mul, show blockSize.toNat = 4096 from rfl]
  have := blocks.isLt
  omega

theorem Pmm.reportsBytes_iff (pmm : Pmm) : pmm.ReportsBytes ↔ pmm.InRange := by
  constructor
  · rintro ⟨total, _, free⟩
    refine ⟨(blocks_toNat_iff _).mp total, ?_⟩
    omega
  · rintro ⟨few, used⟩
    have difference : (pmm.totalBlocks - pmm.usedBlocks).toNat =
        pmm.totalBlocks.toNat - pmm.usedBlocks.toNat := BitVec.toNat_sub_of_le used
    have free := (blocks_toNat_iff (pmm.totalBlocks - pmm.usedBlocks)).mpr (by omega)
    refine ⟨(blocks_toNat_iff _).mpr few, (blocks_toNat_iff _).mpr (by omega), ?_⟩
    rw [pmmGetFreeMemory, free, difference]
    omega

/-! ### Later calls -/

def Call.exec (pmm : Pmm) : Call → Pmm
  | .alloc => (pmmAllocBlock pmm).2
  | .free block => pmmFreeBlock pmm block

/-- The call does not count down from 0: a block that is marked used is released only
while the counter stands above 0. -/
def Call.Counts (pmm : Pmm) : Call → Prop
  | .alloc => True
  | .free block => pmm.bit (block.toNat / 4096) = true → 0 < pmm.usedBlocks.toNat

/-- Each call counts in the state that the calls before it leave. -/
def CountsThrough : Pmm → List Call → Prop
  | _, [] => True
  | pmm, call :: calls => call.Counts pmm ∧ CountsThrough (call.exec pmm) calls

section Calls

variable {pmm : Pmm}

theorem Call.exec_totalBlocks (pmm : Pmm) (call : Call) :
    (call.exec pmm).totalBlocks = pmm.totalBlocks := by
  cases call with
  | alloc =>
      rcases pmmAllocBlock_cases pmm with ⟨_, result⟩ | ⟨_, _, _, _, _, result⟩ <;>
        simp [Call.exec, result, Pmm.taken]
  | free block => exact pmmFreeBlock_totalBlocks pmm block

theorem Call.usedBlocks_le_alloc (pmm : Pmm) :
    pmm.usedBlocks.toNat ≤ (Call.alloc.exec pmm).usedBlocks.toNat := by
  rcases pmmAllocBlock_cases pmm with ⟨_, result⟩ | ⟨_, room, _, _, _, result⟩
  · rw [Call.exec, result]
  · have : pmm.usedBlocks.toNat < pmm.totalBlocks.toNat := room
    simp only [Call.exec, result, Pmm.taken, BitVec.toNat_add, show (1 : Word).toNat = 1 from rfl]
    omega

/-- From a counter in range a call leads to one in range exactly when it counts. -/
theorem Call.exec_inRange_iff (call : Call) (inRange : pmm.InRange) :
    (call.exec pmm).InRange ↔ call.Counts pmm := by
  obtain ⟨total, inRange⟩ := inRange
  have inRange_iff : (call.exec pmm).InRange ↔
      (call.exec pmm).usedBlocks.toNat ≤ pmm.totalBlocks.toNat := by
    rw [← call.exec_totalBlocks] at total ⊢
    exact ⟨Pmm.InRange.used, Pmm.InRange.mk total⟩
  rw [inRange_iff]
  cases call with
  | alloc =>
      refine iff_of_true ?_ trivial
      rcases pmmAllocBlock_cases pmm with ⟨_, result⟩ | ⟨frame, room, _, _, _, result⟩
      · simpa [Call.exec, result] using inRange
      · have below : pmm.usedBlocks.toNat < pmm.totalBlocks.toNat := room
        simp only [Call.exec, result, Pmm.taken, BitVec.toNat_add,
          show (1 : Word).toNat = 1 from rfl]
        omega
  | free block =>
      rcases pmmFreeBlock_cases pmm block with ⟨clear, result⟩ | ⟨marked, result⟩
      · simpa [Call.exec, result, Call.Counts, clear] using inRange
      · simp only [Call.exec, result, Call.Counts, marked, BitVec.toNat_sub,
          show (1 : Word).toNat = 1 from rfl, forall_const]
        omega

/-- A property of memory's size and the counters' range holds through a run exactly when
it holds at the start and every call counts. -/
theorem forall_scanl_iff {Property : Pmm → Prop} {Size : Word → Prop}
    (property : ∀ pmm, Property pmm ↔ Size pmm.totalBlocks ∧ pmm.InRange)
    (pmm : Pmm) (calls : List Call) :
    (∀ state ∈ calls.scanl Call.exec pmm, Property state) ↔
      Property pmm ∧ CountsThrough pmm calls := by
  induction calls generalizing pmm with
  | nil => simp [CountsThrough]
  | cons call calls inductionHypothesis =>
      rw [List.scanl_cons, List.forall_mem_cons, inductionHypothesis, CountsThrough]
      refine and_congr_right fun holds => ?_
      obtain ⟨size, inRange⟩ := (property pmm).mp holds
      rw [property, call.exec_totalBlocks, call.exec_inRange_iff inRange, and_iff_right size]

end Calls

/-! ### The start -/

section Start

variable (memory : Image) (kernelEnd : Word) (mmap : List E820Entry)

/-- The highest end of a usable region, where ends wrap at 2^64. -/
def highestEnd : Nat :=
  ((mmap.filter fun entry => entry.Usable).map fun entry =>
    (entry.base + entry.len).toNat).foldr max 0

/-- The blocks below `highestEnd`, where a block number has 32 bits. -/
def mapBlocks : Nat := highestEnd mmap / 4096 % 2 ^ 32

/-- The blocks of the kernel and the bitmap that are clear when the marking starts. -/
def markedAgain : List Nat :=
  (List.range (reservedBlocks kernelEnd mmap)).filter fun block =>
    ClearBeforeMarking memory mmap block

/-- The rounds of the releasing loops, less the blocks marked again, are no more than
there are blocks, as far as a 32-bit counter can tell. -/
def RoundsInRange : Prop :=
  ((usableFrames mmap).length - (markedAgain memory kernelEnd mmap).length : Int) % 2 ^ 32 ≤
    mapBlocks mmap

variable {memory kernelEnd mmap}

theorem totalMemory_toNat (mmap : List E820Entry) : (totalMemory mmap).toNat = highestEnd mmap := by
  have generalized : ∀ start : BitVec 64, (mmap.foldl (fun totalMem entry =>
      if entry.Usable ∧ entry.base + entry.len > totalMem then entry.base + entry.len
      else totalMem) start).toNat = max start.toNat (highestEnd mmap) := by
    induction mmap with
    | nil => simp [highestEnd]
    | cons entry mmap inductionHypothesis =>
        intro start
        rw [List.foldl_cons, inductionHypothesis, highestEnd, highestEnd, List.filter_cons]
        by_cases usable : entry.Usable
        · rw [if_pos (decide_eq_true usable), List.map_cons, List.foldr_cons]
          by_cases higher : entry.base + entry.len > start
          · rw [if_pos ⟨usable, higher⟩]
            have : start.toNat < (entry.base + entry.len).toNat := higher
            omega
          · rw [if_neg fun both => higher both.2]
            have : ¬ start.toNat < (entry.base + entry.len).toNat := higher
            omega
        · rw [if_neg fun both => usable both.1, if_neg (by simpa using usable)]
  rw [totalMemory, generalized]
  exact Nat.zero_max _

theorem totalBlocksOf_toNat (mmap : List E820Entry) :
    (totalBlocksOf mmap).toNat = mapBlocks mmap := by
  rw [totalBlocksOf, BitVec.toNat_setWidth, BitVec.toNat_udiv, totalMemory_toNat]
  rfl

/-- The counter after `pmm_init`: the rounds count down, the blocks marked again up. -/
theorem usedAtStart_toNat (memory : Image) (kernelEnd : Word) (mmap : List E820Entry) :
    ((usedAtStart memory kernelEnd mmap).toNat : Int) =
      (mapBlocks mmap - (usableFrames mmap).length +
        (markedAgain memory kernelEnd mmap).length) % 2 ^ 32 := by
  have total := (totalBlocksOf mmap).isLt
  rw [← totalBlocksOf_toNat, usedAtStart, ← markedAgain]
  simp only [BitVec.toNat_add, BitVec.toNat_sub, BitVec.toNat_ofNat]
  omega

/-- After `pmm_init` the counter is in range exactly when the rounds are. -/
theorem usedAtStart_inRange_iff :
    (usedAtStart memory kernelEnd mmap).toNat ≤ (totalBlocksOf mmap).toNat ↔
      RoundsInRange memory kernelEnd mmap := by
  have total := (totalBlocksOf mmap).isLt
  have used := usedAtStart_toNat memory kernelEnd mmap
  rw [totalBlocksOf_toNat] at total
  rw [RoundsInRange, totalBlocksOf_toNat]
  omega

end Start

end BrainDance.Memory
