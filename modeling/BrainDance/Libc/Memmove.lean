import BrainDance.Foundation.AddressSpace
import BrainDance.Libc.Memcore

/-!
Owns `memmove` on pointers: 32-bit addresses, an `unsigned` counter, and a comparison
of the two pointers that picks the direction. The bytes arrive as they were before the
call, however the ranges overlap. Within one object this is the `memmove` on offsets.
-/

namespace BrainDance.Libc.Memmove

open BrainDance.Foundation

/-! ### Model -/

/-- The first loop, with `i` reached. -/
def forward (dest src count : Word) (memory : AddressSpace) (i : Word) : AddressSpace :=
  if i < count then
    forward dest src count (memory.setByte (dest + i) (memory.byte (src + i))) (i + 1)
  else memory
termination_by count.toNat - i.toNat
decreasing_by bv_omega

/-- The second loop, with `i` reached. -/
def backward (dest src : Word) (memory : AddressSpace) (i : Word) : AddressSpace :=
  if i ≠ 0 then
    backward dest src (memory.setByte (dest + (i - 1)) (memory.byte (src + (i - 1)))) (i - 1)
  else memory
termination_by i.toNat
decreasing_by bv_omega

/-- What `memmove` returns and the memory behind it. -/
def memmove (memory : AddressSpace) (dest src count : Word) : Word × AddressSpace :=
  (dest, if dest < src then forward dest src count memory 0 else backward dest src memory count)

/-! ### The invariant of both loops -/

/-- The bytes at the offsets from `low` up to `high` have arrived as they were in `start`,
and no other byte has changed. -/
structure Moved (memory start : AddressSpace) (dest src : Word) (low high : Nat) : Prop where
  arrived : ∀ offset, low ≤ offset → offset < high →
    memory.byte (dest + BitVec.ofNat 32 offset) = start.byte (src + BitVec.ofNat 32 offset)
  frame : ∀ address, (∀ offset, low ≤ offset → offset < high →
    address ≠ dest + BitVec.ofNat 32 offset) → memory.byte address = start.byte address

section Loops

variable {memory start : AddressSpace} {dest src count : Word} {low high : Nat}

theorem moved_start (memory : AddressSpace) (dest src : Word) (offset : Nat) :
    Moved memory memory dest src offset offset where
  arrived _ atLeast below := absurd atLeast (Nat.not_le.mpr below)
  frame _ _ := rfl

/-- Offsets in the address space are apart when they are different. -/
theorem address_ne {left right : Nat} (leftInside : left < 2 ^ 32) (rightInside : right < 2 ^ 32)
    (different : left ≠ right) : dest + BitVec.ofNat 32 left ≠ dest + BitVec.ofNat 32 right := by
  bv_omega

/-- A byte that has not been overwritten is copied behind the others. -/
theorem Moved.next (moved : Moved memory start dest src low high) (ordered : low ≤ high)
    (inside : high < 2 ^ 32)
    (unwritten : ∀ offset, low ≤ offset → offset < high →
      src + BitVec.ofNat 32 high ≠ dest + BitVec.ofNat 32 offset) :
    Moved (memory.setByte (dest + BitVec.ofNat 32 high) (memory.byte (src + BitVec.ofNat 32 high)))
      start dest src low (high + 1) where
  arrived offset atLeast below := by
    by_cases last : offset = high
    · rw [last, AddressSpace.setByte_self, moved.frame _ unwritten]
    · rw [AddressSpace.setByte_of_ne (address_ne (by omega) inside last),
        moved.arrived offset atLeast (by omega)]
  frame address apart := by
    rw [AddressSpace.setByte_of_ne (apart high ordered (Nat.lt_succ_self high))]
    exact moved.frame address fun offset atLeast below =>
      apart offset atLeast (Nat.lt_succ_of_lt below)

/-- A byte that has not been overwritten is copied in front of the others. -/
theorem Moved.previous (moved : Moved memory start dest src (low + 1) high) (ordered : low < high)
    (inside : high ≤ 2 ^ 32)
    (unwritten : ∀ offset, low + 1 ≤ offset → offset < high →
      src + BitVec.ofNat 32 low ≠ dest + BitVec.ofNat 32 offset) :
    Moved (memory.setByte (dest + BitVec.ofNat 32 low) (memory.byte (src + BitVec.ofNat 32 low)))
      start dest src low high where
  arrived offset atLeast below := by
    by_cases first : offset = low
    · rw [first, AddressSpace.setByte_self, moved.frame _ unwritten]
    · rw [AddressSpace.setByte_of_ne (address_ne (by omega) (by omega) first),
        moved.arrived offset (by omega) below]
  frame address apart := by
    rw [AddressSpace.setByte_of_ne (apart low (Nat.le_refl low) ordered)]
    exact moved.frame address fun offset atLeast below =>
      apart offset (Nat.le_of_succ_le atLeast) below

/-- Upwards the bytes still to be read lie above the ones that were written. -/
theorem forward_moved (before : dest < src) (srcFits : src.toNat + count.toNat ≤ 2 ^ 32)
    (i : Word) (reached : i ≤ count) (moved : Moved memory start dest src 0 i.toNat) :
    Moved (forward dest src count memory i) start dest src 0 count.toNat := by
  fun_induction forward dest src count memory i with
  | case1 memory i more inductionHypothesis =>
      have here := moved.next (Nat.zero_le _) i.isLt (by
        intro offset _ below
        rw [BitVec.ofNat_toNat, BitVec.setWidth_eq]
        bv_omega)
      rw [BitVec.ofNat_toNat, BitVec.setWidth_eq] at here
      have next : (i + 1).toNat = i.toNat + 1 := by bv_omega
      exact inductionHypothesis (by bv_omega) (next ▸ here)
  | case2 memory i done =>
      have all : i = count := by bv_omega
      rwa [all] at moved

/-- Downwards they lie below. -/
theorem backward_moved (behind : src ≤ dest) (destFits : dest.toNat + high ≤ 2 ^ 32)
    (i : Word) (reached : i.toNat ≤ high) (moved : Moved memory start dest src i.toNat high) :
    Moved (backward dest src memory i) start dest src 0 high := by
  fun_induction backward dest src memory i with
  | case1 memory i more inductionHypothesis =>
      have previous : (i - 1).toNat + 1 = i.toNat := by bv_omega
      rw [← previous] at moved reached
      have here := moved.previous reached (by omega) (by
        intro offset atLeast below
        rw [BitVec.ofNat_toNat, BitVec.setWidth_eq]
        bv_omega)
      rw [BitVec.ofNat_toNat, BitVec.setWidth_eq] at here
      exact inductionHypothesis (Nat.le_of_succ_le reached) here
  | case2 memory i done =>
      have all : i = 0 := Decidable.not_not.mp done
      rwa [all] at moved

theorem memmove_moved (memory : AddressSpace)
    (destFits : dest.toNat + count.toNat ≤ 2 ^ 32) (srcFits : src.toNat + count.toNat ≤ 2 ^ 32) :
    Moved (memmove memory dest src count).2 memory dest src 0 count.toNat := by
  rw [memmove]
  split
  · rename_i before
    exact forward_moved before srcFits 0 (by bv_omega) (moved_start memory dest src 0)
  · rename_i behind
    exact backward_moved (by bv_omega) destFits count (Nat.le_refl _)
      (moved_start memory dest src count.toNat)

end Loops

/-! ### Overlapping ranges -/

/-- The bytes at `dest` are those that were at `src`, and no byte outside has changed. -/
theorem memmove_correct (memory : AddressSpace) (dest src count : Word)
    (destFits : dest.toNat + count.toNat ≤ 2 ^ 32) (srcFits : src.toNat + count.toNat ≤ 2 ^ 32) :
    (∀ offset < count, (memmove memory dest src count).2.byte (dest + offset) =
        memory.byte (src + offset)) ∧
      ∀ address : Word,
        ¬ (dest.toNat ≤ address.toNat ∧ address.toNat < dest.toNat + count.toNat) →
          (memmove memory dest src count).2.byte address = memory.byte address := by
  have moved := memmove_moved memory destFits srcFits
  constructor
  · intro offset inside
    have here := moved.arrived offset.toNat (Nat.zero_le _) (by bv_omega)
    rwa [BitVec.ofNat_toNat, BitVec.setWidth_eq] at here
  · intro address outside
    apply moved.frame
    intro offset _ below
    bv_omega

/-- Four bytes go up by two. -/
theorem memmove_correct_overlap :
    let memory : AddressSpace := ⟨fun address => address.setWidth 8⟩
    (∀ offset : Word, offset < 4 → (memmove memory 0x1002 0x1000 4).2.byte (0x1002 + offset) =
        memory.byte (0x1000 + offset)) ∧
      ∀ address : Word, ¬ (0x1002 ≤ address.toNat ∧ address.toNat < 0x1002 + 4) →
        (memmove memory 0x1002 0x1000 4).2.byte address = memory.byte address :=
  memmove_correct ⟨fun address => address.setWidth 8⟩ 0x1002 0x1000 4 (by decide) (by decide)

/-- Within one object that does not wrap it is the `memmove` on offsets. -/
theorem memmove_view (memory : AddressSpace) {base : Word} {size dest src count : Nat}
    (fits : base.toNat + size < 2 ^ 32) (destInside : dest + count ≤ size)
    (srcInside : src + count ≤ size) (offset : Nat) (inside : offset < size) :
    (memmove memory (base + BitVec.ofNat 32 dest) (base + BitVec.ofNat 32 src)
      (BitVec.ofNat 32 count)).2.view base offset =
        Libc.memmove (memory.view base) dest src count offset := by
  have number : (BitVec.ofNat 32 count).toNat = count := by
    rw [BitVec.toNat_ofNat, Nat.mod_eq_of_lt (by omega)]
  have place : ∀ {other : Nat}, other ≤ size →
      (base + BitVec.ofNat 32 other).toNat = base.toNat + other := by
    intro other within
    rw [BitVec.toNat_add, BitVec.toNat_ofNat, Nat.add_mod_mod, Nat.mod_eq_of_lt (by omega)]
  have moved := @memmove_moved (base + BitVec.ofNat 32 dest) (base + BitVec.ofNat 32 src)
    (BitVec.ofNat 32 count) memory (by rw [number, place (by omega)]; omega)
    (by rw [number, place (by omega)]; omega)
  rw [number] at moved
  rw [memmove_eq_blit, AddressSpace.view]
  by_cases covered : dest ≤ offset ∧ offset < dest + count
  · have arrived := moved.arrived (offset - dest) (Nat.zero_le _) (by omega)
    rw [BitVec.add_assoc, ← BitVec.ofNat_add, Nat.add_sub_cancel' covered.1, BitVec.add_assoc,
      ← BitVec.ofNat_add] at arrived
    rw [arrived, blit_inside _ _ covered]
    rfl
  · rw [blit_outside _ _ (by omega)]
    apply moved.frame
    intro other _ below same
    have toNat := congrArg BitVec.toNat same
    rw [place (by omega), BitVec.add_assoc, ← BitVec.ofNat_add, place (by omega)] at toNat
    omega

end BrainDance.Libc.Memmove
