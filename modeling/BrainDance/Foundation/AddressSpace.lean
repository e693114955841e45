import BrainDance.Foundation.Bytes

/-!
Owns the 32-bit address space: every address has a byte, and addresses wrap. Words
are loaded and stored little-endian at any address. Words that were pushed one below
the other are an overlay of the memory, and each is read back where it stands.
-/

namespace BrainDance.Foundation

@[ext]
structure AddressSpace where
  byte : Word → Byte

namespace AddressSpace

/-- What a pointer sees. -/
def view (memory : AddressSpace) (address : Word) : Image :=
  fun offset => memory.byte (address + BitVec.ofNat 32 offset)

def load (memory : AddressSpace) (address : Word) : Word := wordAt (memory.view address) 0

def store (memory : AddressSpace) (address word : Word) : AddressSpace where
  byte other :=
    if (other - address).toNat < 4 then wordImage word (other - address).toNat
    else memory.byte other

def setByte (memory : AddressSpace) (address : Word) (value : Byte) : AddressSpace where
  byte := Function.update memory.byte address value

/-- The bytes of words that follow each other. -/
def wordsImage (words : List Word) : Image := fun offset =>
  wordImage (words.getD (offset / 4) 0) (offset % 4)

/-- The memory with the words laid over it from `base` on. -/
def overlay (memory : AddressSpace) (base : Word) (words : List Word) : AddressSpace where
  byte other :=
    if (other - base).toNat < 4 * words.length then wordsImage words (other - base).toNat
    else memory.byte other

variable {memory other : AddressSpace} {base : Word} {words : List Word} {word : Word}

theorem setByte_self {address : Word} {value : Byte} :
    (memory.setByte address value).byte address = value :=
  Function.update_self ..

theorem setByte_of_ne {address place : Word} {value : Byte} (apart : place ≠ address) :
    (memory.setByte address value).byte place = memory.byte place :=
  Function.update_of_ne apart ..

theorem overlay_nil (memory : AddressSpace) (base : Word) : memory.overlay base [] = memory := by
  ext address
  simp [overlay]

/-- The word pushed below others lies in front of them. -/
theorem store_overlay (fits : words.length < 2 ^ 30) :
    (memory.overlay base words).store (base - 4) word =
      memory.overlay (base - 4) (word :: words) := by
  ext1
  funext address
  have distance : (address - base).toNat =
      (2 ^ 32 - 4 + (address - (base - 4)).toNat) % 2 ^ 32 := by
    bv_omega
  have below := (address - (base - 4)).isLt
  dsimp only [store, overlay]
  rw [List.length_cons, distance]
  generalize (address - (base - 4)).toNat = offset at *
  by_cases first : offset < 4
  · rw [if_pos first, if_pos (by omega), wordsImage, Nat.div_eq_of_lt first,
      Nat.mod_eq_of_lt first]
    rfl
  · have shifted : (2 ^ 32 - 4 + offset) % 2 ^ 32 = offset - 4 := by omega
    rw [if_neg first, shifted]
    by_cases inside : offset - 4 < 4 * words.length
    · rw [if_pos inside, if_pos (by omega), wordsImage, wordsImage,
        show offset / 4 = (offset - 4) / 4 + 1 by omega, List.getD_cons_succ,
        show (offset - 4) % 4 = offset % 4 by omega]
    · rw [if_neg inside, if_neg (by omega)]

theorem load_overlay_of_outside {address : Word}
    (outside : ∀ offset < 4,
      4 * words.length ≤ (address + BitVec.ofNat 32 offset - base).toNat) :
    (memory.overlay base words).load address = memory.load address := by
  apply wordAt_congr
  intro offset inWord
  rw [Nat.zero_add]
  exact if_neg (Nat.not_lt.mpr (outside offset inWord))

/-- The words stand in the memory from `base` on. -/
def Stacked (memory : AddressSpace) (base : Word) (words : List Word) : Prop :=
  ∀ index, (inside : index < words.length) →
    memory.load (base + BitVec.ofNat 32 (4 * index)) = words[index]

theorem stacked_overlay (fits : words.length ≤ 2 ^ 30) :
    (memory.overlay base words).Stacked base words := by
  intro index inside
  apply wordAt_of_image
  intro offset inWord
  have distance : base + BitVec.ofNat 32 (4 * index) + BitVec.ofNat 32 (0 + offset) - base =
      BitVec.ofNat 32 (4 * index + offset) := by
    rw [Nat.zero_add, BitVec.add_assoc, ← BitVec.ofNat_add, BitVec.add_comm, BitVec.add_sub_cancel]
  have place : (BitVec.ofNat 32 (4 * index + offset)).toNat = 4 * index + offset := by
    rw [BitVec.toNat_ofNat, Nat.mod_eq_of_lt (by omega)]
  rw [view, overlay]
  dsimp only
  rw [distance, place, if_pos (by omega), wordsImage, show (4 * index + offset) / 4 = index by omega,
    show (4 * index + offset) % 4 = offset by omega, List.getD_eq_getElem?_getD,
    List.getElem?_eq_getElem inside, Option.getD_some]

/-- Words are kept where their bytes are. -/
theorem Stacked.congr (stacked : memory.Stacked base words)
    (same : ∀ offset < 4 * words.length,
      other.byte (base + BitVec.ofNat 32 offset) = memory.byte (base + BitVec.ofNat 32 offset)) :
    other.Stacked base words := by
  intro index inside
  rw [← stacked index inside]
  apply wordAt_congr
  intro offset inWord
  rw [view, view, Nat.zero_add, BitVec.add_assoc, ← BitVec.ofNat_add]
  exact same _ (by omega)

theorem Stacked.head (stacked : memory.Stacked base (word :: words)) : memory.load base = word := by
  have first := stacked 0 (Nat.succ_pos _)
  rwa [Nat.mul_zero, BitVec.add_zero] at first

theorem Stacked.tail (stacked : memory.Stacked base (word :: words)) :
    memory.Stacked (base + 4) words := by
  intro index inside
  have next := stacked (index + 1) (Nat.succ_lt_succ inside)
  rw [show 4 * (index + 1) = 4 + 4 * index by omega, BitVec.ofNat_add, ← BitVec.add_assoc] at next
  exact next

theorem Stacked.get (stacked : memory.Stacked base words) {index : Nat}
    (here : words[index]? = some word) :
    memory.load (base + BitVec.ofNat 32 (4 * index)) = word := by
  obtain ⟨inside, same⟩ := List.getElem?_eq_some_iff.mp here
  rw [stacked index inside, same]

end AddressSpace

end BrainDance.Foundation
