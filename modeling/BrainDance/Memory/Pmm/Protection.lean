import BrainDance.Memory.Pmm.Init

/-!
Owns what successive allocations hand out, and whether the blocks that
`pmm_init` leaves free keep clear of the kernel and of the bitmap behind it.

`pmm_init` marks `(&_kernel_end + bitmap_size) / BLOCK_SIZE` blocks, rounded
down, so the block that holds the last bytes of the bitmap is marked only when
they end on a block boundary. The main result says exactly when that shows.
-/

namespace BrainDance.Memory

open BrainDance.Foundation
open BrainDance.Libc

/-! ### Successive allocations -/

/-- The state after `count` calls of `pmm_alloc_block`. -/
def afterAllocs (pmm : Pmm) : Nat → Pmm
  | 0 => pmm
  | count + 1 => (pmmAllocBlock (afterAllocs pmm count)).2

/-- The address of a block, as the code computes it in 32 bits. -/
def blockAddress (frame : Nat) : Word := BitVec.ofNat 32 frame * blockSize

/-- The blocks that successive allocations hand out: the clear ones the search
covers, as many as the counter says are free. -/
def Pmm.offers (pmm : Pmm) : List Nat :=
  (Bitmap.clearBits pmm.bitmap pmm.searched).take
    (pmm.totalBlocks.toNat - pmm.usedBlocks.toNat)

section Allocations

variable {pmm : Pmm}

theorem pmmAllocBlock_of_no_offers (none : pmm.offers = []) : pmmAllocBlock pmm = (0, pmm) := by
  rcases pmmAllocBlock_cases pmm with ⟨_, result⟩ | ⟨frame, room, searched, clear, _, _⟩
  · exact result
  · rw [Pmm.offers, List.take_eq_nil_iff] at none
    rcases none with full | empty
    · rw [BitVec.lt_def] at room
      omega
    · have member := Bitmap.mem_clearBits.mpr ⟨searched, clear⟩
      rw [empty] at member
      exact absurd member List.not_mem_nil

theorem pmmAllocBlock_of_offers {frame : Nat} {rest : List Nat}
    (first : pmm.offers = frame :: rest) :
    pmmAllocBlock pmm = (blockAddress frame, pmm.taken frame) ∧ (pmm.taken frame).offers = rest := by
  unfold Pmm.offers at first
  obtain ⟨budget, left⟩ := Nat.exists_eq_succ_of_ne_zero
    (show pmm.totalBlocks.toNat - pmm.usedBlocks.toNat ≠ 0 by
      intro zero
      rw [zero, List.take_zero] at first
      contradiction)
  rw [left] at first
  cases clear : Bitmap.clearBits pmm.bitmap pmm.searched with
  | nil =>
      rw [clear, List.take_nil] at first
      contradiction
  | cons head others =>
      rw [clear, List.take_succ_cons, List.cons.injEq] at first
      obtain ⟨rfl, rfl⟩ := first
      have headFirst : Bitmap.findClear pmm.bitmap (pmm.totalBlocks.toNat / 32) = some head := by
        rw [Bitmap.findClear_eq_head?]
        exact congrArg List.head? clear
      obtain ⟨headSearched, headClear, _⟩ := Bitmap.findClear_eq_some_iff.mp headFirst
      rcases pmmAllocBlock_cases pmm with
        ⟨full | allUsed, _⟩ | ⟨frame, room, searched, frameClear, earlier, result⟩
      · rw [BitVec.le_def] at full
        omega
      · have used := allUsed head headSearched
        rw [Pmm.bit, headClear] at used
        contradiction
      · have same := Bitmap.findClear_eq_some_iff.mpr ⟨searched, frameClear, earlier⟩
        rw [headFirst, Option.some.injEq] at same
        subst same
        refine ⟨result, ?_⟩
        have counted : (pmm.usedBlocks + 1).toNat = pmm.usedBlocks.toNat + 1 := by
          have limit := pmm.totalBlocks.isLt
          rw [BitVec.lt_def] at room
          rw [BitVec.toNat_add, show (1 : Word).toNat = 1 from rfl, Nat.mod_eq_of_lt (by omega)]
        have remaining := Bitmap.clearBits_setBit clear
        simp only [Pmm.offers, Pmm.taken, Pmm.searched, counted] at remaining ⊢
        rw [remaining, show pmm.totalBlocks.toNat - (pmm.usedBlocks.toNat + 1) = budget by omega]

/-- Each allocation takes the next offer. -/
theorem afterAllocs_offers (pmm : Pmm) (count : Nat) :
    (afterAllocs pmm count).offers = pmm.offers.drop count := by
  induction count with
  | zero => rfl
  | succ count inductionHypothesis =>
      rw [afterAllocs]
      cases offers : (afterAllocs pmm count).offers with
      | nil =>
          rw [pmmAllocBlock_of_no_offers offers, offers]
          rw [inductionHypothesis, List.drop_eq_nil_iff] at offers
          exact (List.drop_eq_nil_of_le (by omega)).symm
      | cons frame rest =>
          obtain ⟨result, remaining⟩ := pmmAllocBlock_of_offers offers
          rw [result, remaining]
          rw [inductionHypothesis] at offers
          rw [← List.tail_drop, offers, List.tail_cons]

/-- The address that call number `count` returns. -/
theorem alloc_address (pmm : Pmm) (count : Nat) :
    (pmmAllocBlock (afterAllocs pmm count)).1 = (pmm.offers[count]?).elim 0 blockAddress := by
  have offers := afterAllocs_offers pmm count
  have next : pmm.offers[count]? = (pmm.offers.drop count).head? := List.head?_drop.symm
  rw [next, ← offers]
  cases remaining : (afterAllocs pmm count).offers with
  | nil => rw [pmmAllocBlock_of_no_offers remaining]; rfl
  | cons frame rest => rw [(pmmAllocBlock_of_offers remaining).1]; rfl

/-- The block at `address` lies at or above `limit`. -/
def BlockAbove (limit : Nat) (address : Word) : Prop :=
  ∀ byte, address.toNat ≤ byte → byte < address.toNat + blockSize.toNat → limit ≤ byte

theorem blockAbove_iff {limit : Nat} {address : Word} :
    BlockAbove limit address ↔ limit ≤ address.toNat := by
  constructor
  · intro above
    exact above address.toNat le_rfl (by rw [show blockSize.toNat = 4096 from rfl]; omega)
  · intro le byte from_ _
    exact le.trans from_

/-- A block's address wraps every 2^20 blocks. -/
theorem blockAddress_toNat (frame : Nat) : (blockAddress frame).toNat = 4096 * (frame % 2 ^ 20) := by
  rw [blockAddress, BitVec.toNat_mul, BitVec.toNat_ofNat, show blockSize.toNat = 4096 from rfl]
  omega

/-- Every block that some allocation returns has the property exactly when every
offer has it or the address 0. -/
theorem allocs_iff (pmm : Pmm) (Property : Nat → Prop) :
    (∀ count, (pmmAllocBlock (afterAllocs pmm count)).1 ≠ 0 →
        Property (pmmAllocBlock (afterAllocs pmm count)).1.toNat) ↔
      ∀ frame ∈ pmm.offers, frame % 2 ^ 20 = 0 ∨ Property (4096 * (frame % 2 ^ 20)) := by
  have zero : ∀ frame, blockAddress frame = 0 ↔ frame % 2 ^ 20 = 0 := by
    intro frame
    rw [← BitVec.toNat_inj, blockAddress_toNat, show (0 : Word).toNat = 0 from rfl]
    omega
  simp only [alloc_address]
  constructor
  · intro allocs frame member
    obtain ⟨count, found⟩ := List.mem_iff_getElem?.mp member
    have here := allocs count
    rw [found, Option.elim_some, blockAddress_toNat, ne_eq, zero] at here
    exact or_iff_not_imp_left.mpr here
  · intro offers count
    cases found : pmm.offers[count]? with
    | none => exact fun notZero => absurd rfl notZero
    | some frame =>
        rw [Option.elim_some, blockAddress_toNat, ne_eq, zero]
        exact or_iff_not_imp_left.mp (offers frame (List.mem_of_getElem? found))

end Allocations

/-! ### The kernel and the bitmap -/

section Kernel

variable (memory : Image) (kernelEnd : Word) (mmap : List E820Entry)

/-- The first byte after the kernel and the bytes of the bitmap that are
filled. -/
def bitmapEnd : Nat := kernelEnd.toNat + (bitmapSizeOf mmap).toNat

/-- The blocks handed out after `pmm_init`: the released ones past the reserved
ones, as many as the counter says are free. -/
def handedOut : List Nat :=
  ((List.range (32 * ((totalBlocksOf mmap).toNat / 32))).filter fun block =>
      reservedBlocks kernelEnd mmap ≤ block ∧ Released mmap block).take
    ((totalBlocksOf mmap).toNat - (usedAtStart memory kernelEnd mmap).toNat)

/-- No allocation after `pmm_init` returns a block that overlaps the kernel or
the bitmap. -/
def ProtectsKernel : Prop :=
  ∀ fuel pmm, pmmInit fuel memory kernelEnd mmap = some pmm → ∀ count,
    (pmmAllocBlock (afterAllocs pmm count)).1 ≠ 0 →
      BlockAbove (bitmapEnd kernelEnd mmap) (pmmAllocBlock (afterAllocs pmm count)).1

variable {memory kernelEnd mmap}

theorem offers_of_pmmInit {fuel : Nat} {pmm : Pmm}
    (initialised : pmmInit fuel memory kernelEnd mmap = some pmm) :
    pmm.offers = handedOut memory kernelEnd mmap := by
  obtain ⟨_, bits, total, used⟩ := pmmInit_eq_some initialised
  rw [Pmm.offers, handedOut, Pmm.searched, Bitmap.clearBits, total, used]
  congr 1
  apply List.filter_congr
  intro block inside
  have filled : block < 8 * (bitmapSizeOf mmap).toNat := by
    rw [List.mem_range] at inside
    rw [bitmapSizeOf, BitVec.toNat_udiv, show blocksPerByte.toNat = 8 from rfl]
    omega
  have clear : ClearBeforeMarking memory mmap block ↔ Released mmap block :=
    or_iff_left fun past => absurd past.1 (by omega)
  rw [Bool.eq_iff_iff, Bool.not_eq_true', decide_eq_true_iff, ← clear]
  exact bits block

/-- The blocks that any run of allocations after `pmm_init` returns have a property
exactly when `pmm_init` does not return or every block of `handedOut` has it. -/
theorem allocated_iff_handedOut (memory : Image) (kernelEnd : Word) (mmap : List E820Entry)
    (Property : Nat → Prop) :
    (∀ fuel pmm, pmmInit fuel memory kernelEnd mmap = some pmm → ∀ count,
        (pmmAllocBlock (afterAllocs pmm count)).1 ≠ 0 →
          Property (pmmAllocBlock (afterAllocs pmm count)).1.toNat) ↔
      (∃ entry ∈ mmap, entry.Usable ∧ ¬ entry.Short) ∨
        ∀ frame ∈ handedOut memory kernelEnd mmap,
          frame % 2 ^ 20 = 0 ∨ Property (4096 * (frame % 2 ^ 20)) := by
  by_cases short : ∀ entry ∈ mmap, entry.Usable → entry.Short
  · have returns : ¬ ∃ entry ∈ mmap, entry.Usable ∧ ¬ entry.Short := by
      rintro ⟨entry, member, usable, long⟩
      exact long (short entry member usable)
    obtain ⟨fuel, pmm, initialised⟩ := pmmInit_terminates short memory kernelEnd
    rw [or_iff_right returns]
    constructor
    · intro allocated
      rw [← offers_of_pmmInit initialised, ← allocs_iff]
      exact allocated fuel pmm initialised
    · intro offered fuel' pmm' initialised'
      rw [allocs_iff, offers_of_pmmInit initialised']
      exact offered
  · have diverges : ∃ entry ∈ mmap, entry.Usable ∧ ¬ entry.Short := by
      simpa only [not_forall, exists_prop] using short
    simp only [diverges, true_or, iff_true]
    intro fuel pmm initialised
    exact absurd (pmmInit_eq_some initialised).1 short

theorem protectsKernel_iff_handedOut (memory : Image) (kernelEnd : Word) (mmap : List E820Entry) :
    ProtectsKernel memory kernelEnd mmap ↔
      (∃ entry ∈ mmap, entry.Usable ∧ ¬ entry.Short) ∨
        ∀ frame ∈ handedOut memory kernelEnd mmap,
          frame % 2 ^ 20 = 0 ∨ bitmapEnd kernelEnd mmap ≤ 4096 * (frame % 2 ^ 20) := by
  rw [← allocated_iff_handedOut, ProtectsKernel]
  simp only [blockAbove_iff]

theorem mem_handedOut {frame : Nat} (member : frame ∈ handedOut memory kernelEnd mmap) :
    frame < 32 * ((totalBlocksOf mmap).toNat / 32) ∧ reservedBlocks kernelEnd mmap ≤ frame ∧
      Released mmap frame ∧ usedAtStart memory kernelEnd mmap < totalBlocksOf mmap := by
  have inside := List.mem_filter.mp (List.mem_of_mem_take member)
  rw [List.mem_range, decide_eq_true_iff] at inside
  refine ⟨inside.1, inside.2.1, inside.2.2, ?_⟩
  by_contra full
  rw [BitVec.lt_def] at full
  rw [handedOut, show (totalBlocksOf mmap).toNat - (usedAtStart memory kernelEnd mmap).toNat = 0 by
    omega, List.take_zero] at member
  exact List.not_mem_nil member

/-- The first block past the reserved ones is the first to be handed out, if it
is free. -/
theorem reservedBlocks_mem_handedOut
    (searched : reservedBlocks kernelEnd mmap < 32 * ((totalBlocksOf mmap).toNat / 32))
    (released : Released mmap (reservedBlocks kernelEnd mmap))
    (room : usedAtStart memory kernelEnd mmap < totalBlocksOf mmap) :
    reservedBlocks kernelEnd mmap ∈ handedOut memory kernelEnd mmap := by
  rw [BitVec.lt_def] at room
  obtain ⟨budget, left⟩ := Nat.exists_eq_succ_of_ne_zero
    (show (totalBlocksOf mmap).toNat - (usedAtStart memory kernelEnd mmap).toNat ≠ 0 by omega)
  have first : ((List.range (32 * ((totalBlocksOf mmap).toNat / 32))).filter fun block =>
      reservedBlocks kernelEnd mmap ≤ block ∧ Released mmap block).head? =
        some (reservedBlocks kernelEnd mmap) := by
    rw [List.head?_filter, List.find?_range_eq_some]
    simp only [le_refl, released, and_self, decide_true, true_and, List.mem_range]
    exact ⟨searched, fun earlier below => by simp [Nat.not_le.mpr below]⟩
  obtain ⟨rest, shape⟩ := List.head?_eq_some_iff.mp first
  rw [handedOut, shape, left, List.take_succ_cons]
  exact List.mem_cons_self

/-- The block that the end of the bitmap falls into is free after `pmm_init`: the
map releases it, the search covers it and the counter leaves room. -/
def TailFree (memory : Image) (kernelEnd : Word) (mmap : List E820Entry) : Prop :=
  Released mmap (bitmapEnd kernelEnd mmap / 4096) ∧
    bitmapEnd kernelEnd mmap / 4096 < 32 * ((totalBlocksOf mmap).toNat / 32) ∧
      usedAtStart memory kernelEnd mmap < totalBlocksOf mmap

/-- Below 4 GiB only the block that the end of the bitmap falls into is at risk. -/
theorem handedOut_above_iff (aboveOneMiB : 0x100000 ≤ kernelEnd.toNat)
    (fits : bitmapEnd kernelEnd mmap ≤ (totalMemory mmap).toNat)
    (below4GiB : (totalMemory mmap).toNat < 2 ^ 32) :
    (∀ frame ∈ handedOut memory kernelEnd mmap,
        frame % 2 ^ 20 = 0 ∨ bitmapEnd kernelEnd mmap ≤ 4096 * (frame % 2 ^ 20)) ↔
      bitmapEnd kernelEnd mmap % 4096 = 0 ∨ ¬ TailFree memory kernelEnd mmap := by
  have total : (totalBlocksOf mmap).toNat < 2 ^ 20 := by
    rw [totalBlocksOf, BitVec.toNat_setWidth, BitVec.toNat_udiv,
      show (4096 : BitVec 64).toNat = 4096 from rfl]
    omega
  have reserved : reservedBlocks kernelEnd mmap = bitmapEnd kernelEnd mmap / 4096 := by
    rw [reservedBlocks, kernelAndBitmapBlocks, BitVec.toNat_udiv, BitVec.toNat_add, bitmapEnd,
      show blockSize.toNat = 4096 from rfl, Nat.mod_eq_of_lt]
    rw [bitmapEnd] at fits
    omega
  have high : 256 ≤ bitmapEnd kernelEnd mmap / 4096 := by
    rw [bitmapEnd]
    omega
  constructor
  · intro above
    by_contra damaged
    rw [not_or, not_not] at damaged
    obtain ⟨partly, released, searched, room⟩ := damaged
    rw [← reserved] at released searched
    have member := reservedBlocks_mem_handedOut searched released room
    have := above _ member
    rw [reserved] at this
    omega
  · intro safe frame member
    obtain ⟨searched, past, released, room⟩ := mem_handedOut member
    by_contra overlaps
    have tail : frame = bitmapEnd kernelEnd mmap / 4096 := by omega
    rcases safe with aligned | kept
    · omega
    · exact kept ⟨tail ▸ released, tail ▸ searched, room⟩

/-- After `pmm_init` the kernel and the bitmap are safe exactly when `pmm_init`
does not return, or every block that is handed out lies above them or has the
address 0. Below 4 GiB they are safe exactly when the bitmap ends on a block
boundary or the block it ends in is not free. -/
theorem protectsKernel_iff (memory : Image) (kernelEnd : Word) (mmap : List E820Entry) :
    (ProtectsKernel memory kernelEnd mmap ↔
      (∃ entry ∈ mmap, entry.Usable ∧ ¬ entry.Short) ∨
        ∀ frame ∈ handedOut memory kernelEnd mmap,
          frame % 2 ^ 20 = 0 ∨ bitmapEnd kernelEnd mmap ≤ 4096 * (frame % 2 ^ 20)) ∧
    (0x100000 ≤ kernelEnd.toNat → bitmapEnd kernelEnd mmap ≤ (totalMemory mmap).toNat →
      (totalMemory mmap).toNat < 2 ^ 32 →
        (ProtectsKernel memory kernelEnd mmap ↔
          (∃ entry ∈ mmap, entry.Usable ∧ ¬ entry.Short) ∨
            bitmapEnd kernelEnd mmap % 4096 = 0 ∨ ¬ TailFree memory kernelEnd mmap)) := by
  have general := protectsKernel_iff_handedOut memory kernelEnd mmap
  refine ⟨general, fun aboveOneMiB fits below4GiB => ?_⟩
  rw [general, handedOut_above_iff aboveOneMiB fits below4GiB]

end Kernel

/-! ### A kernel that ends inside a block -/

/-- One usable region of 32 blocks from 1 MiB on. -/
def smallMap : List E820Entry := [⟨0x100000, 0x20000, 1⟩]

theorem protectsKernel_iff_smallMap : ProtectsKernel (fun _ => 0) 0x100FDC smallMap :=
  ((protectsKernel_iff (fun _ => 0) 0x100FDC smallMap).2 (by decide) (by decide +kernel)
    (by decide +kernel)).mpr (.inr (.inl (by decide)))

/-- With the kernel ending at 0x100010 the first block handed out is the one at
1 MiB, which holds the end of the kernel and the whole bitmap. -/
theorem protectsKernel_fails :
    ¬ ∀ (memory : Image) (kernelEnd : Word) (mmap : List E820Entry),
      0x100000 ≤ kernelEnd.toNat → bitmapEnd kernelEnd mmap ≤ (totalMemory mmap).toNat →
        ProtectsKernel memory kernelEnd mmap := by
  intro always
  have facts : 256 ∈ handedOut (fun _ => 0) 0x100010 smallMap ∧
      bitmapEnd 0x100010 smallMap = 0x100034 ∧ (totalMemory smallMap).toNat = 0x120000 ∧
      ∀ entry ∈ smallMap, entry.Usable → entry.Short := by decide +kernel
  obtain ⟨offered, limit, total, short⟩ := facts
  have protects := always (fun _ => 0) 0x100010 smallMap (by decide) (by rw [limit, total]; decide)
  obtain ⟨fuel, pmm, initialised⟩ := pmmInit_terminates short (fun _ => 0) 0x100010
  have allocated := protects fuel pmm initialised
  simp only [blockAbove_iff] at allocated
  have above := (allocs_iff pmm (bitmapEnd 0x100010 smallMap ≤ ·)).mp allocated 256
    (offers_of_pmmInit initialised ▸ offered)
  rw [limit] at above
  revert above
  decide

end BrainDance.Memory
