import BrainDance.Memory.Pmm.Init

/-!
Owns the counter that `pmm_init` sets up. The counter goes down once for each
round of the loops over the usable regions, the bitmap loses a bit only when a
round clears one that is still set, and a round past the last whole block of
memory clears a bit that no allocation covers. The main result says exactly
when the two agree.
-/

namespace BrainDance.Memory

open BrainDance.Foundation
open BrainDance.Libc

section Accounting

variable (memory : Image) (kernelEnd : Word) (mmap : List E820Entry)

/-- After `pmm_init` the counter is the number of marked blocks. -/
def CountsMarked : Prop :=
  ∀ fuel pmm, pmmInit fuel memory kernelEnd mmap = some pmm →
    pmm.usedBlocks.toNat = Bitmap.count pmm.bitmap pmm.totalBlocks.toNat

/-- The loops that free the regions change no bit past the last block, whatever
stands there. -/
def NoStrayWrite : Prop :=
  ∀ memory fuel freed, freeUsable fuel (fullPmm memory mmap) mmap = some freed →
    ∀ block, (totalBlocksOf mmap).toNat ≤ block →
      freed.bit block = (fullPmm memory mmap).bit block

def AccountsFor : Prop := CountsMarked memory kernelEnd mmap ∧ NoStrayWrite mmap

/-- The blocks that are clear when the marking starts, up to the last block of
memory or the last one marked. -/
def clearBlocks : List Nat :=
  (List.range (max (reservedBlocks kernelEnd mmap) (totalBlocksOf mmap).toNat)).filter fun block =>
    ClearBeforeMarking memory mmap block

/-- Every round clears a block of memory. -/
def FreesInside : Prop := ∀ frame ∈ usableFrames mmap, frame.toNat < (totalBlocksOf mmap).toNat

/-- As many rounds as clear blocks, as far as a 32-bit counter can tell. -/
def RoundsMatch : Prop :=
  (usableFrames mmap).length % 2 ^ 32 = (clearBlocks memory kernelEnd mmap).length % 2 ^ 32

variable {memory kernelEnd mmap}

/-! ### Stray writes -/

theorem noStrayWrite_iff (short : ∀ entry ∈ mmap, entry.Usable → entry.Short) :
    NoStrayWrite mmap ↔ FreesInside mmap := by
  constructor
  · intro spared frame member
    by_contra outside
    rw [Nat.not_lt] at outside
    obtain ⟨freed, released⟩ := freeUsable_terminates short (fullPmm (fun _ => 0xFF) mmap)
    have kept := spared _ _ _ released frame.toNat outside
    have cleared : frame.toNat ∈ (usableFrames mmap).map BitVec.toNat :=
      List.mem_map_of_mem member
    have wasSet : (fullPmm (fun _ => 0xFF) mmap).bit frame.toNat = true := by
      rw [Pmm.bit, fullPmm, bit_memset, Bitmap.bit_eq_getLsbD,
        show (0xFF : Byte) = BitVec.allOnes 8 from rfl, BitVec.getLsbD_allOnes]
      simp [Nat.mod_lt frame.toNat (show 0 < 8 by decide)]
    rw [(freeUsable_eq_some released).2, releaseAll_bit, wasSet, decide_eq_true cleared] at kept
    contradiction
  · intro inside memory fuel freed released block past
    have untouched : block ∉ (usableFrames mmap).map BitVec.toNat := by
      intro member
      obtain ⟨frame, inMap, rfl⟩ := List.mem_map.mp member
      exact absurd (inside frame inMap) (Nat.not_lt.mpr past)
    rw [(freeUsable_eq_some released).2, releaseAll_bit, decide_eq_false untouched, Bool.not_false,
      Bool.and_true]

/-! ### The counter -/

/-- The marked blocks, counted through the clear ones. -/
theorem count_of_pmmInit {fuel : Nat} {pmm : Pmm}
    (initialised : pmmInit fuel memory kernelEnd mmap = some pmm) :
    Bitmap.count pmm.bitmap pmm.totalBlocks.toNat +
      ((List.range (totalBlocksOf mmap).toNat).filter fun block =>
        reservedBlocks kernelEnd mmap ≤ block ∧ ClearBeforeMarking memory mmap block).length =
      (totalBlocksOf mmap).toNat := by
  obtain ⟨_, bits, total, _⟩ := pmmInit_eq_some initialised
  have clear : Bitmap.clearBits pmm.bitmap (totalBlocksOf mmap).toNat =
      (List.range (totalBlocksOf mmap).toNat).filter fun block =>
        reservedBlocks kernelEnd mmap ≤ block ∧ ClearBeforeMarking memory mmap block := by
    apply List.filter_congr
    intro block _
    rw [Bool.eq_iff_iff, Bool.not_eq_true', decide_eq_true_iff]
    exact bits block
  rw [total, ← clear]
  exact Bitmap.count_add_clearBits _ _

theorem countsMarked_iff (short : ∀ entry ∈ mmap, entry.Usable → entry.Short) :
    CountsMarked memory kernelEnd mmap ↔ RoundsMatch memory kernelEnd mmap := by
  have agree : ∀ fuel pmm, pmmInit fuel memory kernelEnd mmap = some pmm →
      (pmm.usedBlocks.toNat = Bitmap.count pmm.bitmap pmm.totalBlocks.toNat ↔
        RoundsMatch memory kernelEnd mmap) := by
    intro fuel pmm initialised
    have marked := count_of_pmmInit initialised
    obtain ⟨_, _, _, used⟩ := pmmInit_eq_some initialised
    have split := Bitmap.length_filter_range_max (reservedBlocks kernelEnd mmap)
      (totalBlocksOf mmap).toNat (ClearBeforeMarking memory mmap)
    have total := (totalBlocksOf mmap).isLt
    rw [RoundsMatch, clearBlocks, ← split, used, usedAtStart]
    simp only [BitVec.toNat_add, BitVec.toNat_sub, BitVec.toNat_ofNat]
    omega
  constructor
  · intro counts
    obtain ⟨fuel, pmm, initialised⟩ := pmmInit_terminates short memory kernelEnd
    exact (agree fuel pmm initialised).mp (counts fuel pmm initialised)
  · exact fun same fuel pmm initialised => (agree fuel pmm initialised).mpr same

/-- `pmm_init` accounts for the blocks exactly when it does not return, or every
round of its freeing loops clears a block of memory and the rounds are as many
as the blocks that are clear when the marking starts. -/
theorem accountsFor_iff_general (memory : Image) (kernelEnd : Word) (mmap : List E820Entry) :
    AccountsFor memory kernelEnd mmap ↔
      (∃ entry ∈ mmap, entry.Usable ∧ ¬ entry.Short) ∨
        FreesInside mmap ∧ RoundsMatch memory kernelEnd mmap := by
  by_cases short : ∀ entry ∈ mmap, entry.Usable → entry.Short
  · have returns : ¬ ∃ entry ∈ mmap, entry.Usable ∧ ¬ entry.Short := by
      rintro ⟨entry, member, usable, long⟩
      exact long (short entry member usable)
    rw [or_iff_right returns, AccountsFor, countsMarked_iff short, noStrayWrite_iff short, and_comm]
  · have diverges : ∃ entry ∈ mmap, entry.Usable ∧ ¬ entry.Short := by
      simpa only [not_forall, exists_prop] using short
    simp only [diverges, true_or, iff_true]
    constructor
    · intro fuel pmm initialised
      exact absurd (pmmInit_eq_some initialised).1 short
    · intro memory fuel freed released
      exact absurd (freeUsable_eq_some released).1 short

/-- The blocks released, each counted once. -/
theorem length_released (inside : FreesInside mmap) :
    ((List.range (totalBlocksOf mmap).toNat).filter fun block => Released mmap block).length =
      ((usableFrames mmap).map BitVec.toNat).dedup.length := by
  apply List.Perm.length_eq
  rw [List.perm_ext_iff_of_nodup (List.nodup_range.filter _) (List.nodup_dedup _)]
  intro block
  rw [List.mem_filter, List.mem_range, decide_eq_true_iff, List.mem_dedup, Released]
  refine and_iff_right_of_imp fun member => ?_
  obtain ⟨frame, inMap, rfl⟩ := List.mem_map.mp member
  exact inside frame inMap

/-- Where the filled bytes cover all blocks, the rounds match exactly when no
block is released twice. -/
theorem roundsMatch_iff_nodup (wholeBytes : (totalBlocksOf mmap).toNat % 8 = 0)
    (reserved : reservedBlocks kernelEnd mmap ≤ (totalBlocksOf mmap).toNat)
    (few : (usableFrames mmap).length < 2 ^ 32) (inside : FreesInside mmap) :
    RoundsMatch memory kernelEnd mmap ↔ (usableFrames mmap).Nodup := by
  have filled : 8 * (bitmapSizeOf mmap).toNat = (totalBlocksOf mmap).toNat := by
    rw [bitmapSizeOf, BitVec.toNat_udiv, show blocksPerByte.toNat = 8 from rfl]
    omega
  have clear : clearBlocks memory kernelEnd mmap =
      (List.range (totalBlocksOf mmap).toNat).filter fun block => Released mmap block := by
    rw [clearBlocks, Nat.max_eq_right reserved]
    apply List.filter_congr
    intro block member
    have below := List.mem_range.mp member
    rw [decide_eq_decide, ClearBeforeMarking]
    exact or_iff_left fun past => absurd past.1 (by omega)
  have injective : ((usableFrames mmap).map BitVec.toNat).Nodup ↔ (usableFrames mmap).Nodup :=
    List.nodup_map_iff fun _ _ same => BitVec.eq_of_toNat_eq same
  have shorter := (List.dedup_sublist ((usableFrames mmap).map BitVec.toNat)).length_le
  rw [List.length_map] at shorter
  rw [RoundsMatch, clear, length_released inside, ← injective, Nat.mod_eq_of_lt few,
    Nat.mod_eq_of_lt (by omega)]
  constructor
  · intro same
    rw [← List.dedup_eq_self]
    apply (List.dedup_sublist _).eq_of_length
    rw [List.length_map, same]
  · intro distinct
    rw [distinct.dedup, List.length_map]

/-- `pmm_init` accounts for the blocks exactly when it does not return, or every
round of its freeing loops clears a block of memory and the rounds are as many
as the blocks that are clear when the marking starts. Where the bitmap's bytes
cover all blocks the rounds match exactly when no block is released twice. -/
theorem accountsFor_iff (memory : Image) (kernelEnd : Word) (mmap : List E820Entry) :
    (AccountsFor memory kernelEnd mmap ↔
      (∃ entry ∈ mmap, entry.Usable ∧ ¬ entry.Short) ∨
        FreesInside mmap ∧ RoundsMatch memory kernelEnd mmap) ∧
    ((totalBlocksOf mmap).toNat % 8 = 0 →
      reservedBlocks kernelEnd mmap ≤ (totalBlocksOf mmap).toNat →
        (usableFrames mmap).length < 2 ^ 32 →
          (AccountsFor memory kernelEnd mmap ↔
            (∃ entry ∈ mmap, entry.Usable ∧ ¬ entry.Short) ∨
              FreesInside mmap ∧ (usableFrames mmap).Nodup)) := by
  have general := accountsFor_iff_general memory kernelEnd mmap
  refine ⟨general, fun wholeBytes reserved few => ?_⟩
  rw [general, and_congr_right (roundsMatch_iff_nodup wholeBytes reserved few)]

end Accounting

/-! ### A region that ends inside a block -/

/-- The maps a sane firmware gives: no entry passes 2^64, usable entries do not
overlap, and memory ends below 4 GiB. -/
structure SaneMap (mmap : List E820Entry) : Prop where
  inSpace : ∀ entry ∈ mmap, entry.base.toNat + entry.len.toNat ≤ 2 ^ 64
  apart : mmap.Pairwise fun left right => left.Usable → right.Usable →
    left.base.toNat + left.len.toNat ≤ right.base.toNat ∨
      right.base.toNat + right.len.toNat ≤ left.base.toNat
  below4GiB : (totalMemory mmap).toNat < 2 ^ 32

/-- 8 blocks of low memory and 8 from 1 MiB on. -/
def alignedMap : List E820Entry := [⟨0, 0x8000, 1⟩, ⟨0x100000, 0x8000, 1⟩]

theorem usableFrames_alignedMap : usableFrames alignedMap =
    [0, 1, 2, 3, 4, 5, 6, 7, 256, 257, 258, 259, 260, 261, 262, 263] := by decide +kernel

theorem accountsFor_iff_alignedMap : AccountsFor (fun _ => 0) 0x100010 alignedMap := by
  have total : (totalBlocksOf alignedMap).toNat = 264 := by decide +kernel
  have apart : (usableFrames alignedMap).Nodup := by
    rw [usableFrames_alignedMap]
    decide +kernel
  have inside : FreesInside alignedMap := by
    rw [FreesInside, usableFrames_alignedMap, total]
    simp
  refine ((accountsFor_iff (fun _ => 0) 0x100010 alignedMap).2 ?_ ?_ ?_).mpr
    (.inr ⟨inside, apart⟩)
  · rw [total]
  · rw [total]
    decide +kernel
  · rw [usableFrames_alignedMap]
    decide

/-- One usable region at 1 MiB, one byte longer than a block. -/
def raggedMap : List E820Entry := [⟨0x100000, 0x1001, 1⟩]

theorem raggedMap_sane : SaneMap raggedMap where
  inSpace := by decide
  apart := List.pairwise_singleton _ _
  below4GiB := by decide

/-- The second round clears bit 257, past the 257 blocks of memory, and counts
it: 255 used blocks where 256 bits are set. -/
theorem accountsFor_fails :
    ¬ ∀ (memory : Image) (kernelEnd : Word) (mmap : List E820Entry), SaneMap mmap →
      AccountsFor memory kernelEnd mmap := by
  intro always
  have short : ∀ entry ∈ raggedMap, entry.Usable → entry.Short := by decide
  have stray : ¬ FreesInside raggedMap := by
    intro inside
    exact absurd (inside 257 (by decide +kernel)) (by decide)
  exact stray ((noStrayWrite_iff short).mp (always (fun _ => 0) 0x100000 raggedMap raggedMap_sane).2)

end BrainDance.Memory
