import BrainDance.Memory.Pmm.Model
import BrainDance.Memory.Pmm.Allocation

/-!
Owns what `pmm_init` leaves: which bits of the bitmap are clear and what the
counter holds, in terms of the memory map. The loop over a region releases the
blocks of `regionFrames` one after another, and ends exactly on regions of at
most 2^64 - 4096 bytes.
-/

namespace BrainDance.Memory

open BrainDance.Foundation
open BrainDance.Libc

/-! ### Releasing regions -/

/-- The rounds of the loop over the region. -/
def E820Entry.rounds (entry : E820Entry) : Nat := (entry.len.toNat + 4095) / 4096

/-- The loop over the region ends: its counter passes the length before it wraps. -/
def E820Entry.Short (entry : E820Entry) : Prop := entry.len.toNat ≤ 2 ^ 64 - 4096

instance (entry : E820Entry) : Decidable entry.Short := inferInstanceAs (Decidable (_ ≤ _))

/-- The blocks the loop releases from round `k` on. -/
def framesFrom (entry : E820Entry) (k : Nat) : List Word :=
  (List.range' k (entry.rounds - k)).map fun round => entry.frameAt (BitVec.ofNat 64 (4096 * round))

def regionFrames (entry : E820Entry) : List Word := framesFrom entry 0

/-- The blocks released for the whole map, in order. -/
def usableFrames (mmap : List E820Entry) : List Word :=
  (mmap.filter fun entry => entry.Usable).flatMap regionFrames

def releaseAll (pmm : Pmm) (frames : List Word) : Pmm := frames.foldl releaseFrame pmm

section Regions

variable {pmm after : Pmm} {entry : E820Entry} {fuel : Nat}

theorem E820Entry.rounds_le (entry : E820Entry) : entry.rounds ≤ 2 ^ 52 := by
  have := entry.len.isLt
  unfold E820Entry.rounds
  omega

/-- With enough fuel the loop releases the blocks that are left. -/
theorem freeRegion_eq (short : entry.Short) (pmm : Pmm) {k : Nat} (left : k ≤ entry.rounds) :
    freeRegion fuel pmm entry (BitVec.ofNat 64 (4096 * k)) =
      if entry.rounds - k < fuel then some (releaseAll pmm (framesFrom entry k)) else none := by
  unfold E820Entry.Short at short
  induction fuel generalizing pmm k with
  | zero => rfl
  | succ fuel inductionHypothesis =>
      have counter : (BitVec.ofNat 64 (4096 * k)).toNat = 4096 * k := by
        have : 4096 * k ≤ entry.len.toNat + 4095 := by
          unfold E820Entry.rounds at left
          omega
        rw [BitVec.toNat_ofNat, Nat.mod_eq_of_lt (by omega)]
      have next : BitVec.ofNat 64 (4096 * k) + 4096 = BitVec.ofNat 64 (4096 * (k + 1)) := by
        rw [Nat.mul_succ, BitVec.ofNat_add]
        rfl
      rw [freeRegion]
      by_cases more : k < entry.rounds
      · have below : BitVec.ofNat 64 (4096 * k) < entry.len := by
          rw [BitVec.lt_def, counter]
          unfold E820Entry.rounds at more
          omega
        rw [if_pos below, next, inductionHypothesis _ more]
        have unrolled : framesFrom entry k =
            entry.frameAt (BitVec.ofNat 64 (4096 * k)) :: framesFrom entry (k + 1) := by
          rw [framesFrom, framesFrom, show entry.rounds - k = entry.rounds - (k + 1) + 1 by omega,
            List.range'_succ, List.map_cons]
        rw [unrolled, releaseAll, releaseAll, List.foldl_cons]
        simp only [show entry.rounds - k < fuel + 1 ↔ entry.rounds - (k + 1) < fuel by omega]
      · have done : ¬ BitVec.ofNat 64 (4096 * k) < entry.len := by
          rw [BitVec.lt_def, counter]
          unfold E820Entry.rounds at more
          omega
        rw [if_neg done, if_pos (by omega), framesFrom, show entry.rounds - k = 0 by omega]
        rfl

/-- The counter of a loop over a longer region wraps before it passes the
length. -/
theorem freeRegion_diverges (long : ¬ entry.Short) (pmm : Pmm) {j : BitVec 64}
    (aligned : j.toNat % 4096 = 0) : freeRegion fuel pmm entry j = none := by
  unfold E820Entry.Short at long
  induction fuel generalizing pmm j with
  | zero => rfl
  | succ fuel inductionHypothesis =>
      have below : j < entry.len := by
        have := j.isLt
        rw [BitVec.lt_def]
        omega
      rw [freeRegion, if_pos below]
      apply inductionHypothesis
      rw [BitVec.toNat_add, show (4096 : BitVec 64).toNat = 4096 from rfl]
      omega

theorem freeRegion_cases (pmm : Pmm) (entry : E820Entry) (fuel : Nat) :
    freeRegion fuel pmm entry 0 =
      if entry.Short ∧ entry.rounds < fuel then some (releaseAll pmm (regionFrames entry))
      else none := by
  by_cases short : entry.Short
  · have result := @freeRegion_eq entry fuel short pmm 0 (Nat.zero_le _)
    rw [Nat.sub_zero] at result
    simp only [short, true_and]
    exact result
  · rw [if_neg (fun both => short both.1)]
    exact freeRegion_diverges short pmm rfl

/-- The loops over the map release the usable blocks, when they end. -/
theorem freeUsable_eq_some {mmap : List E820Entry}
    (freed : freeUsable fuel pmm mmap = some after) :
    (∀ entry ∈ mmap, entry.Usable → entry.Short) ∧ after = releaseAll pmm (usableFrames mmap) := by
  induction mmap generalizing pmm with
  | nil => exact ⟨by simp, (Option.some.inj freed).symm⟩
  | cons entry rest inductionHypothesis =>
      rw [freeUsable] at freed
      split at freed
      · rename_i usable
        obtain ⟨middle, region, remaining⟩ := Option.bind_eq_some_iff.mp freed
        rw [freeRegion_cases] at region
        split at region
        · rename_i ends
          obtain ⟨shortRest, rfl⟩ := inductionHypothesis remaining
          refine ⟨?_, ?_⟩
          · rintro other member otherUsable
            rcases List.mem_cons.mp member with rfl | inRest
            · exact ends.1
            · exact shortRest other inRest otherUsable
          · rw [← Option.some.inj region, usableFrames, usableFrames,
              List.filter_cons_of_pos (by simpa using usable), List.flatMap_cons, releaseAll,
              releaseAll, releaseAll, List.foldl_append]
        · contradiction
      · rename_i reserved
        obtain ⟨shortRest, rfl⟩ := inductionHypothesis freed
        refine ⟨?_, ?_⟩
        · rintro other member otherUsable
          rcases List.mem_cons.mp member with rfl | inRest
          · exact absurd otherUsable reserved
          · exact shortRest other inRest otherUsable
        · rw [usableFrames, usableFrames, List.filter_cons_of_neg (by simpa using reserved)]

theorem freeUsable_terminates {mmap : List E820Entry}
    (short : ∀ entry ∈ mmap, entry.Usable → entry.Short) (pmm : Pmm) :
    ∃ after, freeUsable (2 ^ 52 + 1) pmm mmap = some after := by
  induction mmap generalizing pmm with
  | nil => exact ⟨pmm, rfl⟩
  | cons entry rest inductionHypothesis =>
      have shortRest : ∀ other ∈ rest, other.Usable → other.Short :=
        fun other member => short other (List.mem_cons_of_mem _ member)
      rw [freeUsable]
      split
      · rename_i usable
        have rounds := entry.rounds_le
        rw [freeRegion_cases, if_pos ⟨short entry List.mem_cons_self usable, by omega⟩]
        exact inductionHypothesis shortRest _
      · exact inductionHypothesis shortRest pmm

end Regions

/-! ### The bits left -/

section Bits

variable (pmm : Pmm)

theorem releaseAll_bit (frames : List Word) (block : Nat) :
    (releaseAll pmm frames).bit block =
      (pmm.bit block && !decide (block ∈ frames.map BitVec.toNat)) := by
  induction frames generalizing pmm with
  | nil => simp [releaseAll]
  | cons frame frames inductionHypothesis =>
      have first : (releaseFrame pmm frame).bit block =
          (!decide (block = frame.toNat) && pmm.bit block) := Bitmap.bit_clearBit
      rw [releaseAll, List.foldl_cons]
      refine (inductionHypothesis (releaseFrame pmm frame)).trans ?_
      rw [first, List.map_cons]
      simp only [List.mem_cons, Bool.decide_or, Bool.not_or]
      cases decide (block = frame.toNat) <;> cases pmm.bit block <;> simp

theorem releaseAll_totalBlocks (frames : List Word) :
    (releaseAll pmm frames).totalBlocks = pmm.totalBlocks := by
  induction frames generalizing pmm with
  | nil => rfl
  | cons frame frames inductionHypothesis => exact inductionHypothesis (releaseFrame pmm frame)

theorem releaseAll_usedBlocks (frames : List Word) :
    (releaseAll pmm frames).usedBlocks = pmm.usedBlocks - BitVec.ofNat 32 frames.length := by
  induction frames generalizing pmm with
  | nil => simp [releaseAll]
  | cons frame frames inductionHypothesis =>
      have one : (releaseFrame pmm frame).usedBlocks = pmm.usedBlocks - 1 := rfl
      rw [releaseAll, List.foldl_cons]
      refine (inductionHypothesis (releaseFrame pmm frame)).trans ?_
      rw [one, List.length_cons, Nat.add_comm, BitVec.ofNat_add, ← BitVec.sub_sub]
      rfl

/-- Marking sets the first `count` bits and counts those that were clear. -/
theorem markUsed_spec {count : Nat} (small : count ≤ 2 ^ 32) :
    (∀ block, (markUsed pmm count).bit block = (decide (block < count) || pmm.bit block)) ∧
      (markUsed pmm count).totalBlocks = pmm.totalBlocks ∧
      (markUsed pmm count).usedBlocks =
        pmm.usedBlocks + BitVec.ofNat 32 (Bitmap.clearBits pmm.bitmap count).length := by
  induction count with
  | zero => simp [markUsed, Bitmap.clearBits]
  | succ count inductionHypothesis =>
      obtain ⟨bits, total, used⟩ := inductionHypothesis (by omega)
      have index : (BitVec.ofNat 32 count).toNat = count := by
        rw [BitVec.toNat_ofNat, Nat.mod_eq_of_lt (by omega)]
      have here : (markUsed pmm count).bit count = pmm.bit count := by
        rw [bits, decide_eq_false (lt_irrefl count), Bool.false_or]
      have tested := testBlock_eq_zero_iff (markUsed pmm count) (BitVec.ofNat 32 count)
      rw [index, here] at tested
      rw [markUsed, Bitmap.clearBits_succ]
      simp only [tested]
      cases value : pmm.bit count with
      | false =>
          have counted : Bitmap.bit pmm.bitmap count = false := value
          simp only [if_true, counted, Bool.false_eq_true, if_false]
          refine ⟨fun block => ?_, total, ?_⟩
          · have set : (setBlock (markUsed pmm count) (BitVec.ofNat 32 count)).bit block =
                (decide (block = count) || (markUsed pmm count).bit block) := by
              rw [setBlock, index]
              exact Bitmap.bit_setBit
            refine set.trans ?_
            rw [bits, ← Bool.or_assoc, ← Bool.decide_or]
            simp only [Nat.lt_succ_iff_lt_or_eq, or_comm]
          · rw [used, List.length_append, BitVec.ofNat_add, BitVec.add_assoc]
            rfl
      | true =>
          have counted : Bitmap.bit pmm.bitmap count = true := value
          simp only [Bool.true_eq_false, if_false, counted, if_true, List.append_nil]
          refine ⟨fun block => ?_, total, used⟩
          rw [bits]
          by_cases last : block = count
          · rw [last, value, Bool.or_true, Bool.or_true]
          · simp only [Nat.lt_succ_iff_lt_or_eq, last, or_false]

end Bits

/-! ### The initial state -/

section Initial

variable (memory : Image) (kernelEnd : Word) (mmap : List E820Entry)

/-- The blocks marked as holding the kernel and the bitmap. -/
def reservedBlocks : Nat := (kernelAndBitmapBlocks kernelEnd (bitmapSizeOf mmap)).toNat

def Released (block : Nat) : Prop := block ∈ (usableFrames mmap).map BitVec.toNat

instance (block : Nat) : Decidable (Released mmap block) := inferInstanceAs (Decidable (_ ∈ _))

/-- The block's bit is clear when the marking starts: the block was released, or
the bit lies past the filled bytes and memory held a zero there. -/
def ClearBeforeMarking (block : Nat) : Prop :=
  Released mmap block ∨
    8 * (bitmapSizeOf mmap).toNat ≤ block ∧ Bitmap.bit memory block = false

instance (block : Nat) : Decidable (ClearBeforeMarking memory mmap block) :=
  inferInstanceAs (Decidable (_ ∨ _))

/-- `used_blocks` at the end: every round of the releasing loops counts down,
every block marked counts up. -/
def usedAtStart : Word :=
  totalBlocksOf mmap - BitVec.ofNat 32 (usableFrames mmap).length +
    BitVec.ofNat 32 ((List.range (reservedBlocks kernelEnd mmap)).filter fun block =>
      ClearBeforeMarking memory mmap block).length

/-- A byte filled with 0xFF has its eight bits set. -/
theorem bit_memset (count block : Nat) :
    Bitmap.bit (memset memory 0 0xFF count) block =
      (decide (block < 8 * count) || Bitmap.bit memory block) := by
  rw [Bitmap.bit_eq_getLsbD, Bitmap.bit_eq_getLsbD, memset_eq_fill, fill]
  by_cases filled : block < 8 * count
  · rw [if_pos (by omega), decide_eq_true filled, Bool.true_or,
      show (0xFF : Byte) = BitVec.allOnes 8 from rfl, BitVec.getLsbD_allOnes]
    simp [Nat.mod_lt block (show 0 < 8 by decide)]
  · rw [if_neg (by omega), decide_eq_false filled, Bool.false_or]

variable {memory kernelEnd mmap}

/-- What `pmm_init` leaves, when it returns. -/
theorem pmmInit_eq_some {fuel : Nat} {pmm : Pmm}
    (initialised : pmmInit fuel memory kernelEnd mmap = some pmm) :
    (∀ entry ∈ mmap, entry.Usable → entry.Short) ∧
      (∀ block, pmm.bit block = false ↔
        reservedBlocks kernelEnd mmap ≤ block ∧ ClearBeforeMarking memory mmap block) ∧
      pmm.totalBlocks = totalBlocksOf mmap ∧
      pmm.usedBlocks = usedAtStart memory kernelEnd mmap := by
  obtain ⟨freed, released, rfl⟩ := Option.map_eq_some_iff.mp initialised
  obtain ⟨short, rfl⟩ := freeUsable_eq_some released
  have clear : ∀ block, (releaseAll (fullPmm memory mmap) (usableFrames mmap)).bit block = false ↔
      ClearBeforeMarking memory mmap block := by
    intro block
    rw [releaseAll_bit, Pmm.bit, fullPmm, bit_memset, ClearBeforeMarking, Released]
    simp only [Bool.and_eq_false_iff, Bool.or_eq_false_iff, decide_eq_false_iff_not, Nat.not_lt,
      Bool.not_eq_false', decide_eq_true_eq]
    exact or_comm
  obtain ⟨bits, total, used⟩ := markUsed_spec (releaseAll (fullPmm memory mmap) (usableFrames mmap))
    (show reservedBlocks kernelEnd mmap ≤ 2 ^ 32 from (BitVec.isLt _).le)
  refine ⟨short, fun block => ?_, total.trans (releaseAll_totalBlocks _ _), ?_⟩
  · rw [← clear block]
    refine (iff_of_eq (congrArg (· = false) (bits block))).trans ?_
    rw [Bool.or_eq_false_iff, decide_eq_false_iff_not, Nat.not_lt]
  · refine used.trans ?_
    rw [releaseAll_usedBlocks, usedAtStart, Bitmap.clearBits]
    congr 3
    apply List.filter_congr
    intro block _
    rw [Bool.eq_iff_iff, Bool.not_eq_true', decide_eq_true_iff]
    exact clear block

/-- `pmm_init` returns when every usable region is short enough. -/
theorem pmmInit_terminates (short : ∀ entry ∈ mmap, entry.Usable → entry.Short)
    (memory : Image) (kernelEnd : Word) :
    ∃ fuel pmm, pmmInit fuel memory kernelEnd mmap = some pmm := by
  obtain ⟨freed, released⟩ := freeUsable_terminates short (fullPmm memory mmap)
  exact ⟨_, _, Option.map_eq_some_iff.mpr ⟨freed, released, rfl⟩⟩

end Initial

end BrainDance.Memory
