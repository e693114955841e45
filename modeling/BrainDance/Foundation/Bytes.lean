import Mathlib.Algebra.GroupWithZero.Nat
import Mathlib.Logic.Function.Basic

/-!
Owns bytes, 32-bit words and byte images. An image is what a pointer sees: the
byte at each offset from it. The two writes of this module, `fill` and `blit`,
replace one range of an image; every other offset keeps its byte. It also owns
the little-endian layout of a word and the round trip between the two.

It does not own array bounds: an image has no end, and the model of an array
checks its own.
-/

namespace BrainDance.Foundation

abbrev Byte := BitVec 8

abbrev Word := BitVec 32

abbrev Image := Nat → Byte

/-! ### Range writes -/

/-- The `count` bytes from `start` on become `value`. -/
def fill (image : Image) (start count : Nat) (value : Byte) : Image := fun offset =>
  if start ≤ offset ∧ offset < start + count then value else image offset

/-- The `count` bytes from `start` on become the first bytes of `source`. -/
def blit (image : Image) (start : Nat) (source : Image) (count : Nat) : Image := fun offset =>
  if start ≤ offset ∧ offset < start + count then source (offset - start) else image offset

/-- The `count` bytes from `start` on, in order. -/
def slice (image : Image) (start count : Nat) : List Byte :=
  (List.range count).map fun offset => image (start + offset)

theorem fill_outside (image : Image) {start count offset : Nat} (value : Byte)
    (outside : offset < start ∨ start + count ≤ offset) :
    fill image start count value offset = image offset := by
  unfold fill
  rw [if_neg (by omega)]

theorem blit_inside (image source : Image) {start count offset : Nat}
    (inside : start ≤ offset ∧ offset < start + count) :
    blit image start source count offset = source (offset - start) := by
  unfold blit
  rw [if_pos inside]

theorem blit_outside (image source : Image) {start count offset : Nat}
    (outside : offset < start ∨ start + count ≤ offset) :
    blit image start source count offset = image offset := by
  unfold blit
  rw [if_neg (by omega)]

@[simp] theorem slice_zero (image : Image) (start : Nat) : slice image start 0 = [] := rfl

/-- Two slices are equal exactly when every byte of them is. -/
theorem slice_eq_slice_iff (left right : Image) (leftStart rightStart count : Nat) :
    slice left leftStart count = slice right rightStart count ↔
      ∀ offset < count, left (leftStart + offset) = right (rightStart + offset) := by
  unfold slice
  rw [List.map_inj_left]
  simp only [List.mem_range]

@[simp] theorem slice_length (image : Image) (start count : Nat) :
    (slice image start count).length = count := by
  rw [slice, List.length_map, List.length_range]

theorem slice_add (image : Image) (start left right : Nat) :
    slice image start (left + right) = slice image start left ++ slice image (start + left) right := by
  unfold slice
  rw [List.range_add, List.map_append, List.map_map]
  simp only [Function.comp_def, Nat.add_assoc]

/-- The image starts with the bytes. -/
def ShowsBytes (image : Image) (bytes : List Byte) : Prop := slice image 0 bytes.length = bytes

theorem showsBytes_iff {image : Image} {bytes : List Byte} :
    ShowsBytes image bytes ↔ ∀ offset, (inside : offset < bytes.length) →
      image offset = bytes[offset] := by
  rw [ShowsBytes, List.ext_getElem_iff]
  constructor
  · intro same offset inside
    have here := same.2 offset (by rw [slice_length]; exact inside) inside
    simpa [slice] using here
  · intro same
    refine ⟨slice_length _ _ _, fun offset _ inside => ?_⟩
    simpa [slice] using same offset inside

theorem showsBytes_append {image : Image} {left right : List Byte} :
    ShowsBytes image (left ++ right) ↔
      ShowsBytes image left ∧ ShowsBytes (fun offset => image (left.length + offset)) right := by
  unfold ShowsBytes
  rw [List.length_append, slice_add, Nat.zero_add]
  constructor
  · intro both
    obtain ⟨first, second⟩ := List.append_inj both (by rw [slice_length])
    refine ⟨first, Eq.trans ?_ second⟩
    simp only [slice, Nat.zero_add]
  · rintro ⟨first, second⟩
    rw [first]
    refine congrArg _ (Eq.trans ?_ second)
    simp only [slice, Nat.zero_add]

theorem showsBytes_slice (image : Image) (count : Nat) :
    ShowsBytes image (slice image 0 count) := by
  rw [ShowsBytes, slice_length]

/-- Bytes that an image starts with are a prefix of longer ones it starts with. -/
theorem ShowsBytes.eq_append {image : Image} {left bytes : List Byte}
    (shortShows : ShowsBytes image left) (shows : ShowsBytes image bytes)
    (shorter : left.length ≤ bytes.length) : bytes = left ++ bytes.drop left.length := by
  have both : ShowsBytes image (bytes.take left.length ++ bytes.drop left.length) := by
    rw [List.take_append_drop]
    exact shows
  have taken := (showsBytes_append.mp both).1
  rw [ShowsBytes, List.length_take, Nat.min_eq_left shorter] at taken
  calc bytes = bytes.take left.length ++ bytes.drop left.length :=
        (List.take_append_drop _ _).symm
    _ = left ++ bytes.drop left.length := by rw [← taken, shortShows]

/-! ### Words -/

/-- The bytes of a word, least significant first. -/
def wordImage (word : Word) : Image := fun offset => word.extractLsb' (8 * offset) 8

/-- The word whose four bytes stand at `start`, least significant first. -/
def wordAt (image : Image) (start : Nat) : Word :=
  image (start + 3) ++ image (start + 2) ++ image (start + 1) ++ image start

/-- The word is stored at `start`, least significant byte first. -/
def storeWord (image : Image) (start : Nat) (word : Word) : Image :=
  blit image start (wordImage word) 4

theorem wordAt_congr {left right : Image} {leftStart rightStart : Nat}
    (same : ∀ offset < 4, left (leftStart + offset) = right (rightStart + offset)) :
    wordAt left leftStart = wordAt right rightStart := by
  unfold wordAt
  rw [same 3 (by decide), same 2 (by decide), same 1 (by decide)]
  have first := same 0 (by decide)
  rw [Nat.add_zero, Nat.add_zero] at first
  rw [first]

/-- A word is read back from its own bytes. -/
theorem wordAt_wordImage (word : Word) : wordAt (wordImage word) 0 = word := by
  apply BitVec.eq_of_getLsbD_eq
  intro bit bitLt
  simp only [wordAt, wordImage, BitVec.getLsbD_append, BitVec.getLsbD_extractLsb']
  by_cases first : bit < 8
  · simp [first]
  · by_cases second : bit - 8 < 8
    · rw [if_neg first, if_pos second, show 8 * (0 + 1) + (bit - 8) = bit by omega]
      simp [second]
    · by_cases third : bit - 8 - 8 < 8
      · rw [if_neg first, if_neg second, if_pos third,
          show 8 * (0 + 2) + (bit - 8 - 8) = bit by omega]
        simp [third]
      · rw [if_neg first, if_neg second, if_neg third,
          show 8 * (0 + 3) + (bit - 8 - 8 - 8) = bit by omega]
        simp [show bit - 8 - 8 - 8 < 8 by omega]

theorem wordAt_of_image {image : Image} {start : Nat} {word : Word}
    (stored : ∀ offset < 4, image (start + offset) = wordImage word offset) :
    wordAt image start = word := by
  rw [← wordAt_wordImage word]
  exact wordAt_congr (by simpa using stored)

theorem wordAt_storeWord_self (image : Image) (start : Nat) (word : Word) :
    wordAt (storeWord image start word) start = word := by
  apply wordAt_of_image
  intro offset below
  rw [storeWord, blit_inside _ _ (by omega), Nat.add_sub_cancel_left]

theorem wordAt_storeWord_of_apart (image : Image) {start other : Nat} (word : Word)
    (apart : other + 4 ≤ start ∨ start + 4 ≤ other) :
    wordAt (storeWord image start word) other = wordAt image other := by
  apply wordAt_congr
  intro offset below
  rw [storeWord, blit_outside _ _ (by omega)]

/-- Bit `bit` of a word is a bit of its byte `bit / 8`. -/
theorem getLsbD_wordAt (image : Image) (start : Nat) {bit : Nat} (below : bit < 32) :
    (wordAt image start).getLsbD bit = (image (start + bit / 8)).getLsbD (bit % 8) := by
  simp only [wordAt, BitVec.getLsbD_append]
  by_cases first : bit < 8
  · rw [if_pos first, show bit / 8 = 0 by omega, show bit % 8 = bit by omega, Nat.add_zero]
  · by_cases second : bit - 8 < 8
    · rw [if_neg first, if_pos second, show bit / 8 = 1 by omega, show bit % 8 = bit - 8 by omega]
    · by_cases third : bit - 8 - 8 < 8
      · rw [if_neg first, if_neg second, if_pos third, show bit / 8 = 2 by omega,
          show bit % 8 = bit - 8 - 8 by omega]
      · rw [if_neg first, if_neg second, if_neg third, show bit / 8 = 3 by omega,
          show bit % 8 = bit - 8 - 8 - 8 by omega]

/-- The bytes of a word that was read are the ones it was read from. -/
theorem wordImage_wordAt (image : Image) (start : Nat) {offset : Nat} (inWord : offset < 4) :
    wordImage (wordAt image start) offset = image (start + offset) := by
  apply BitVec.eq_of_getLsbD_eq
  intro bit inByte
  rw [wordImage, BitVec.getLsbD_extractLsb', decide_eq_true inByte, Bool.true_and]
  rw [getLsbD_wordAt _ _ (by omega)]
  rw [show (8 * offset + bit) / 8 = offset by omega, show (8 * offset + bit) % 8 = bit by omega]

theorem shows_wordAt (image : Image) :
    ShowsBytes image (slice (wordImage (wordAt image 0)) 0 4) := by
  rw [ShowsBytes, slice_length, slice_eq_slice_iff]
  intro offset inWord
  rw [Nat.zero_add, wordImage_wordAt image 0 inWord, Nat.zero_add]

end BrainDance.Foundation
