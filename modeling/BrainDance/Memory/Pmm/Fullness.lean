import BrainDance.Memory.Pmm.Allocation

/-!
Owns when `pmm_alloc_block` fails. The test for full memory counts over
`total_blocks`, the search covers whole words of 32 blocks, so a free block
behind the last whole word is counted and never found.
-/

namespace BrainDance.Memory

open BrainDance.Foundation

/-- All of the memory's blocks are in use. -/
def Pmm.Full (pmm : Pmm) : Prop :=
  ∀ block < pmm.totalBlocks.toNat, pmm.bit block = true

/-- An allocator state whose counter is right and whose block 0 is in use. -/
structure Pmm.Counted (pmm : Pmm) : Prop where
  small : pmm.totalBlocks.toNat ≤ 2 ^ 20
  counted : pmm.usedBlocks.toNat = pmm.marked
  blockZero : pmm.bit 0 = true

/-- The branch that "should not happen": the counter leaves room and the search
finds no block. -/
def Pmm.Missed (pmm : Pmm) : Prop :=
  pmm.usedBlocks < pmm.totalBlocks ∧ findFirstFree pmm = -1

/-- The allocation fails when the memory is full and only then. -/
def Pmm.FailsOnlyWhenFull (pmm : Pmm) : Prop :=
  ((pmmAllocBlock pmm).1 = 0 ↔ pmm.Full) ∧ ¬ pmm.Missed

section Failure

variable {pmm : Pmm}

/-- The counter's test is the test for full memory. -/
theorem Pmm.Counted.full_iff (counted : pmm.Counted) :
    pmm.totalBlocks ≤ pmm.usedBlocks ↔ pmm.Full := by
  have most : pmm.marked ≤ pmm.totalBlocks.toNat := Bitmap.count_le _
  rw [Pmm.Full, ← Bitmap.count_eq_iff, BitVec.le_def, counted.counted]
  unfold Pmm.marked at *
  omega

/-- The search ends with no block when it finds none of the blocks it covers clear. -/
theorem findFirstFree_eq_none_iff (pmm : Pmm) :
    findFirstFree pmm = -1 ↔ ∀ frame < pmm.searched, pmm.bit frame = true := by
  have words : (pmm.totalBlocks / 32).toNat = pmm.totalBlocks.toNat / 32 := BitVec.toNat_udiv
  unfold findFirstFree Pmm.searched
  cases found : Bitmap.findClear pmm.bitmap (pmm.totalBlocks / 32).toNat with
  | none =>
      rw [Bitmap.findClear_eq_none_iff, words] at found
      exact iff_of_true rfl found
  | some frame =>
      obtain ⟨inside, clear, _⟩ := Bitmap.findClear_eq_some_iff.mp found
      rw [words] at inside
      apply iff_of_false
      · intro same
        have bounded := pmm.totalBlocks.isLt
        have value := congrArg BitVec.toNat same
        rw [BitVec.toNat_ofNat, show (-1 : Word).toNat = 2 ^ 32 - 1 from rfl] at value
        omega
      · intro full
        exact absurd (full frame inside) (by rw [Pmm.bit, clear]; decide)

/-- A counted allocator hands out a block, at an address that is not 0, exactly
when one of the blocks that the search covers is free. -/
theorem Pmm.Counted.alloc_eq_zero_iff (counted : pmm.Counted) :
    (pmmAllocBlock pmm).1 = 0 ↔ ∀ frame < pmm.searched, pmm.bit frame = true := by
  have covered := pmm.searched_le
  rcases pmmAllocBlock_cases pmm with ⟨full | none, result⟩ | ⟨frame, _, searched, clear, _, result⟩
  · rw [result]
    refine iff_of_true rfl fun frame inside => ?_
    exact counted.full_iff.mp full frame (by omega)
  · rw [result]
    exact iff_of_true rfl none
  · rw [result]
    apply iff_of_false
    · intro (zero : BitVec.ofNat 32 frame * blockSize = 0)
      have small := counted.small
      have address := frame_address (show frame < 2 ^ 20 by omega)
      have blockZero := counted.blockZero
      rw [zero, show (0 : Word).toNat = 0 from rfl] at address
      rw [show frame = 0 by omega, blockZero] at clear
      contradiction
    · intro full
      rw [full frame searched] at clear
      contradiction

/-- An allocation fails only when memory is full exactly when memory is full or a
free block lies in the whole words, the blocks below `32 * (total_blocks / 32)`. -/
theorem failsOnlyWhenFull_iff (counted : pmm.Counted) :
    pmm.FailsOnlyWhenFull ↔
      pmm.Full ∨ ∃ frame < 32 * (pmm.totalBlocks.toNat / 32), pmm.bit frame = false := by
  have covered := pmm.searched_le
  have someClear : (∃ frame < pmm.searched, pmm.bit frame = false) ↔
      ¬ ∀ frame < pmm.searched, pmm.bit frame = true := by
    push Not
    simp only [Bool.not_eq_true]
  rw [Pmm.FailsOnlyWhenFull, counted.alloc_eq_zero_iff, Pmm.Missed, findFirstFree_eq_none_iff,
    ← BitVec.not_le, counted.full_iff]
  show _ ↔ _ ∨ ∃ frame < pmm.searched, pmm.bit frame = false
  rw [someClear]
  constructor
  · rintro ⟨_, unmissed⟩
    by_contra neither
    rw [not_or, not_not] at neither
    exact unmissed neither
  · rintro (full | found)
    · exact ⟨iff_of_true (fun frame inside => full frame (by omega)) full,
        fun missed => missed.1 full⟩
    · refine ⟨iff_of_false found fun full => ?_, fun missed => found missed.2⟩
      exact found fun frame inside => full frame (by omega)

/-- With a whole number of words there is no block that the search leaves out. -/
theorem failsOnlyWhenFull_of_wholeWords (counted : pmm.Counted)
    (whole : 32 ∣ pmm.totalBlocks.toNat) : pmm.FailsOnlyWhenFull := by
  rw [failsOnlyWhenFull_iff counted, Nat.mul_div_cancel' whole, Pmm.Full]
  by_contra neither
  push Not at neither
  obtain ⟨⟨block, inside, clear⟩, full⟩ := neither
  exact clear (Bool.not_eq_false _ |>.mp (full block inside))

end Failure

/-- A whole word of blocks, of which the first is in use. -/
def wholePmm : Pmm where
  bitmap := Bitmap.setBit (fun _ => 0) 0
  totalBlocks := 32
  usedBlocks := 1

theorem failsOnlyWhenFull_iff_whole : wholePmm.FailsOnlyWhenFull :=
  (failsOnlyWhenFull_iff ⟨by decide, by decide, by decide⟩).mpr (.inr ⟨1, by decide, by decide⟩)

/-- An allocator of 31 blocks, less than a word, with block 0 in use. -/
def partPmm : Pmm where
  bitmap := Bitmap.setBit (fun _ => 0) 0
  totalBlocks := 31
  usedBlocks := 1

theorem partPmm_counted : partPmm.Counted := ⟨by decide, by decide, by decide⟩

/-- Thirty blocks are free and none is found. -/
theorem alloc_misses_last_blocks : ¬ ∀ pmm : Pmm, pmm.Counted → pmm.FailsOnlyWhenFull := by
  intro always
  have failed : (pmmAllocBlock partPmm).1 = 0 := by decide
  have full := (always partPmm partPmm_counted).1.mp failed
  exact absurd (full 1 (by decide)) (by decide)

end BrainDance.Memory
