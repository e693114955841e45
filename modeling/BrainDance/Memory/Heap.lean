import BrainDance.Foundation.Bytes

/-!
Owns the model of `memory/heap.c`: the bump allocator. Each function takes
`heap_ptr` and gives the block, 0 for none, and `heap_ptr` after the call.
`kfree` does nothing and is not modelled.
-/

namespace BrainDance.Memory

open BrainDance.Foundation

def heapStart : Word := 0x400000

def heapEnd : Word := 0x800000

def kmalloc (heapPtr size : Word) : Word × Word :=
  if heapPtr + size > heapEnd then (0, heapPtr) else (heapPtr, heapPtr + size)

/-- The address that `alloc_aligned` tries. -/
def alignUp (addr alignment : Word) : Word :=
  if addr % alignment ≠ 0 then (addr + alignment - 1) &&& ~~~(alignment - 1) else addr

def allocAligned (heapPtr size alignment : Word) : Word × Word :=
  let addr := alignUp heapPtr alignment
  if addr + size > heapEnd then (0, heapPtr) else (addr, addr + size)

section Allocations

variable {heapPtr size addr alignment : Word}

theorem heapEnd_toNat : heapEnd.toNat = 0x800000 := rfl

theorem kmalloc_of_fits (fits : heapPtr.toNat + size.toNat ≤ 0x800000) :
    kmalloc heapPtr size = (heapPtr, heapPtr + size) := by
  have sum : (heapPtr + size).toNat = heapPtr.toNat + size.toNat := by
    rw [BitVec.toNat_add, Nat.mod_eq_of_lt (by omega)]
  rw [kmalloc, if_neg]
  rw [gt_iff_lt, BitVec.lt_def, sum, heapEnd_toNat]
  omega

theorem allocAligned_of_fits
    (fits : (alignUp heapPtr alignment).toNat + size.toNat ≤ 0x800000) :
    allocAligned heapPtr size alignment =
      (alignUp heapPtr alignment, alignUp heapPtr alignment + size) := by
  have sum : (alignUp heapPtr alignment + size).toNat =
      (alignUp heapPtr alignment).toNat + size.toNat := by
    rw [BitVec.toNat_add, Nat.mod_eq_of_lt (by omega)]
  rw [allocAligned, if_neg]
  rw [gt_iff_lt, BitVec.lt_def, sum, heapEnd_toNat]
  omega

/-- Clearing the low bits rounds down to a multiple of the power of two. -/
theorem and_not_mask_toNat (addr : Word) {bits : Nat} (small : bits < 32) :
    (addr &&& ~~~(BitVec.twoPow 32 bits - 1)).toNat = addr.toNat / 2 ^ bits * 2 ^ bits := by
  have shifted : addr &&& ~~~(BitVec.twoPow 32 bits - 1) = addr >>> bits <<< bits := by
    have mask : ∀ i < 32, (BitVec.twoPow 32 bits - 1).getLsbD i = decide (i < bits) := by
      intro i _
      have value : (BitVec.twoPow 32 bits - 1).toNat = 2 ^ bits - 1 := by
        have power : 2 ^ bits < 2 ^ 32 := Nat.pow_lt_pow_right (by decide) small
        have positive : 0 < 2 ^ bits := Nat.two_pow_pos bits
        rw [BitVec.toNat_sub, BitVec.toNat_twoPow, Nat.mod_eq_of_lt power,
          show (1 : Word).toNat = 1 from rfl]
        omega
      rw [BitVec.getLsbD, value, Nat.testBit_two_pow_sub_one]
    apply BitVec.eq_of_getLsbD_eq
    intro i inWord
    rw [BitVec.getLsbD_and, BitVec.getLsbD_not, mask i inWord, BitVec.getLsbD_shiftLeft,
      BitVec.getLsbD_ushiftRight]
    by_cases low : i < bits
    · simp [low]
    · simp [low, inWord, show bits + (i - bits) = i by omega]
  have inWord := addr.isLt
  have rounded := Nat.div_mul_le_self addr.toNat (2 ^ bits)
  rw [shifted, BitVec.toNat_shiftLeft, BitVec.toNat_ushiftRight, Nat.shiftRight_eq_div_pow,
    Nat.shiftLeft_eq, Nat.mod_eq_of_lt (by omega)]

/-- For every power of two the address tried is the next multiple of it. -/
theorem alignUp_twoPow_toNat {heapPtr : Word} {bits : Nat} (below : heapPtr.toNat ≤ 0x800000)
    (small : bits < 32) :
    (alignUp heapPtr (BitVec.twoPow 32 bits)).toNat =
      (heapPtr.toNat + (2 ^ bits - 1)) / 2 ^ bits * 2 ^ bits := by
  have power : 2 ^ bits ≤ 2 ^ 31 := Nat.pow_le_pow_right (by decide) (by omega)
  have positive : 0 < 2 ^ bits := Nat.two_pow_pos bits
  have value : (BitVec.twoPow 32 bits).toNat = 2 ^ bits := by
    rw [BitVec.toNat_twoPow, Nat.mod_eq_of_lt (by omega)]
  have aligned : heapPtr % BitVec.twoPow 32 bits ≠ 0 ↔ heapPtr.toNat % 2 ^ bits ≠ 0 := by
    rw [ne_eq, ← BitVec.toNat_inj, BitVec.toNat_umod, value]
    rfl
  rw [alignUp]
  simp only [aligned]
  split
  · have raised : (heapPtr + BitVec.twoPow 32 bits - 1).toNat =
        heapPtr.toNat + (2 ^ bits - 1) := by
      rw [BitVec.toNat_sub, BitVec.toNat_add, value, show (1 : Word).toNat = 1 from rfl]
      omega
    rw [and_not_mask_toNat _ small, raised]
  · rename_i multiple
    have whole : heapPtr.toNat / 2 ^ bits * 2 ^ bits = heapPtr.toNat := by
      have division := Nat.div_add_mod' heapPtr.toNat (2 ^ bits)
      omega
    have quotient : (heapPtr.toNat + (2 ^ bits - 1)) / 2 ^ bits = heapPtr.toNat / 2 ^ bits := by
      apply Nat.div_eq_of_lt_le
      · omega
      · rw [Nat.add_mul, whole]
        omega
    rw [quotient, whole]

theorem alignUp_toNat {heapPtr : Word} (below : heapPtr.toNat ≤ 0x800000) :
    (alignUp heapPtr 16).toNat = (heapPtr.toNat + 15) / 16 * 16 :=
  alignUp_twoPow_toNat below (by decide : 4 < 32)

end Allocations

end BrainDance.Memory
