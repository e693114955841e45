import Mathlib.Data.List.OfFn
import Mathlib.Data.List.TakeWhile
import BrainDance.Foundation.Bytes

/-!
Owns the memory and string routines of `libc/memcore.c` that the file system and
the editor call: `memset`, `memcpy`, `memmove`, `strlen`, `strcmp`, `strcpy`,
`strncpy` and `strcat`. A string argument is a `CString`, the characters in front
of its NUL. A string kept in a `char` array is read back with `stringIn`; `strcmp`
against such an array is zero exactly when the stored string is the other operand.

`strcpy` asks for a proof that the string and its NUL fit the array, so every
call site of the model shows that it stays in bounds.
-/

namespace BrainDance.Libc

open BrainDance.Foundation

/-! ### Memory -/

/-- `memset`: the loop writes `value` at `start`, `start + 1`, and so on. -/
def memset (dest : Image) (start : Nat) (value : Byte) : Nat → Image
  | 0 => dest
  | count + 1 => Function.update (memset dest start value count) (start + count) value

/-- `memcpy` from another object: the loop copies byte after byte. -/
def memcpy (dest : Image) (start : Nat) (src : Image) : Nat → Image
  | 0 => dest
  | count + 1 => Function.update (memcpy dest start src count) (start + count) (src count)

/-- The first loop of `memmove`, within one object: from the first byte on. -/
def moveForward (image : Image) (dest src : Nat) : Nat → Image
  | 0 => image
  | count + 1 =>
      let moved := moveForward image dest src count
      Function.update moved (dest + count) (moved (src + count))

/-- The second loop: from the last byte down. -/
def moveBackward (image : Image) (dest src : Nat) : Nat → Image
  | 0 => image
  | count + 1 =>
      moveBackward (Function.update image (dest + count) (image (src + count))) dest src count

def memmove (image : Image) (dest src count : Nat) : Image :=
  if dest < src then moveForward image dest src count else moveBackward image dest src count

theorem memset_eq_fill (dest : Image) (start : Nat) (value : Byte) (count : Nat) :
    memset dest start value count = fill dest start count value := by
  induction count with
  | zero =>
      funext offset
      exact (fill_outside dest value (by omega)).symm
  | succ count inductionHypothesis =>
      funext offset
      rw [memset, inductionHypothesis]
      by_cases last : offset = start + count
      · subst last
        simp [fill]
      · rw [Function.update_of_ne last]
        unfold fill
        congr 1
        simp only [eq_iff_iff]
        omega

theorem memcpy_eq_blit (dest : Image) (start : Nat) (src : Image) (count : Nat) :
    memcpy dest start src count = blit dest start src count := by
  induction count with
  | zero =>
      funext offset
      exact (blit_outside dest src (by omega)).symm
  | succ count inductionHypothesis =>
      funext offset
      rw [memcpy, inductionHypothesis]
      by_cases last : offset = start + count
      · subst last
        simp [blit]
      · rw [Function.update_of_ne last]
        unfold blit
        congr 1
        simp only [eq_iff_iff]
        omega

/-- The bytes are copied one after the other in front of the ones still to be read. -/
theorem moveForward_eq_blit (image : Image) {dest src : Nat} (before : dest < src) (count : Nat) :
    moveForward image dest src count =
      blit image dest (fun offset => image (src + offset)) count := by
  induction count with
  | zero =>
      funext offset
      exact (blit_outside image _ (by omega)).symm
  | succ count inductionHypothesis =>
      funext offset
      rw [moveForward, inductionHypothesis,
        @blit_outside image _ dest count (src + count) (by omega)]
      by_cases last : offset = dest + count
      · subst last
        simp [blit]
      · rw [Function.update_of_ne last]
        unfold blit
        congr 1
        simp only [eq_iff_iff]
        omega

theorem moveBackward_eq_blit (image : Image) {dest src : Nat} (behind : src ≤ dest)
    (count : Nat) :
    moveBackward image dest src count =
      blit image dest (fun offset => image (src + offset)) count := by
  induction count generalizing image with
  | zero =>
      funext offset
      exact (blit_outside image _ (by omega)).symm
  | succ count inductionHypothesis =>
      funext offset
      rw [moveBackward, inductionHypothesis]
      by_cases inside : dest ≤ offset ∧ offset < dest + count
      · rw [blit_inside _ _ inside, blit_inside _ _ (by omega), Function.update_of_ne (by omega)]
      · rw [blit_outside _ _ (by omega)]
        by_cases last : offset = dest + count
        · subst last
          rw [Function.update_self, blit_inside _ _ (by omega), Nat.add_sub_cancel_left]
        · rw [Function.update_of_ne last, blit_outside _ _ (by omega)]

/-- The bytes arrive as they were, also where the two ranges overlap. -/
theorem memmove_eq_blit (image : Image) (dest src count : Nat) :
    memmove image dest src count = blit image dest (fun offset => image (src + offset)) count := by
  unfold memmove
  split
  · rename_i before
    exact moveForward_eq_blit image before count
  · rename_i behind
    exact moveBackward_eq_blit image (Nat.le_of_not_lt behind) count

theorem memcpy_congr {dest src other : Image} {start count : Nat}
    (same : ∀ offset < count, src offset = other offset) :
    memcpy dest start src count = memcpy dest start other count := by
  rw [memcpy_eq_blit, memcpy_eq_blit]
  funext offset
  unfold blit
  split
  · exact same _ (by omega)
  · rfl

/-- Bytes copied behind the ones in place follow them. -/
theorem showsBytes_memcpy {image : Image} {bytes : List Byte} (shows : ShowsBytes image bytes)
    (src : Image) (count : Nat) :
    ShowsBytes (memcpy image bytes.length src count) (bytes ++ slice src 0 count) := by
  rw [memcpy_eq_blit]
  refine showsBytes_append.mpr ⟨?_, ?_⟩
  · refine showsBytes_iff.mpr fun offset inside => ?_
    rw [blit_outside _ _ (Or.inl inside), showsBytes_iff.mp shows offset inside]
  · refine showsBytes_iff.mpr fun offset inside => ?_
    rw [slice_length] at inside
    rw [blit_inside _ _ (by omega), Nat.add_sub_cancel_left]
    simp [slice]

theorem showsBytes_update {image : Image} {bytes : List Byte} (shows : ShowsBytes image bytes)
    (byte : Byte) : ShowsBytes (Function.update image bytes.length byte) (bytes ++ [byte]) :=
  showsBytes_memcpy shows (fun _ => byte) 1

/-! ### Strings -/

/-- A NUL-terminated string: its characters, none of which is the terminator. -/
@[ext]
structure CString where
  bytes : List Byte
  noNul : ∀ char ∈ bytes, char ≠ 0
deriving DecidableEq

/-- The bytes of ASCII characters. -/
def asciiBytes (chars : List Char) : List Byte := chars.map fun char => BitVec.ofNat 8 char.toNat

/-- A string literal of the source. -/
def literal (chars : List Char)
    (noNul : ((asciiBytes chars).all fun char => char != 0) = true := by decide) : CString where
  bytes := asciiBytes chars
  noNul := by simpa using noNul

/-- The string that a pointer to a text literal of the source sees, which ends at a NUL. -/
def message (text : String) : CString where
  bytes := (asciiBytes text.toList).takeWhile fun char => char != 0
  noNul := fun char member => by simpa using List.mem_takeWhile_imp member

/-- The bytes a pointer to the string sees: its characters, then the NUL. -/
def CString.image (string : CString) : Image := fun offset => string.bytes.getD offset 0

def strlen (str : CString) : Nat := str.bytes.length

/-- `strncpy`: the characters, then NULs, until `count` bytes are written. -/
def strncpy (dest : Image) (src : CString) (count : Nat) : Image := memcpy dest 0 src.image count

/-- `strcat` onto the string `dest` at `start`, where `src` stands apart from it. -/
def strcat (image : Image) (start : Nat) (dest src : CString) : Image :=
  memcpy image (start + strlen dest) src.image (strlen src + 1)

def CString.nil : CString := ⟨[], by simp⟩

def CString.cons (char : Byte) (notNul : char ≠ 0) (rest : CString) : CString where
  bytes := char :: rest.bytes
  noNul := List.forall_mem_cons.mpr ⟨notNul, rest.noNul⟩

/-- The string that starts at `offset`, if its NUL is among the next `fuel` bytes. -/
def scanString (image : Image) : Nat → Nat → Option CString
  | 0, _ => none
  | fuel + 1, offset =>
      if nul : image offset = 0 then some CString.nil
      else (scanString image fuel (offset + 1)).map (CString.cons (image offset) nul)

/-- The `strcmp` loop with `str1` advanced by `offset` and `rest` left of `str2`. -/
def strcmpFrom (str1 : Image) (offset : Nat) : List Byte → Int
  | [] => (str1 offset).toNat
  | char :: rest =>
      if str1 offset ≠ 0 ∧ str1 offset = char then strcmpFrom str1 (offset + 1) rest
      else (str1 offset).toNat - char.toNat

def strcmp (str1 : Image) (str2 : CString) : Int := strcmpFrom str1 0 str2.bytes

/-- The image starts with the string and its NUL. -/
def Holds (image : Image) (string : CString) : Prop :=
  ∀ offset ≤ string.bytes.length, image offset = string.image offset

theorem CString.image_of_lt (string : CString) {offset : Nat}
    (inside : offset < string.bytes.length) : string.image offset = string.bytes[offset] := by
  simp [CString.image, inside]

theorem CString.image_end (string : CString) : string.image string.bytes.length = 0 := by
  simp [CString.image]

theorem CString.image_ne_zero (string : CString) {offset : Nat}
    (inside : offset < string.bytes.length) : string.image offset ≠ 0 := by
  rw [string.image_of_lt inside]
  exact string.noNul _ (List.getElem_mem inside)

theorem CString.holds_image (string : CString) : Holds string.image string := fun _ _ => rfl

/-- An image holds at most one string: the first NUL ends both. -/
theorem Holds.unique {image : Image} {left right : CString}
    (holdsLeft : Holds image left) (holdsRight : Holds image right) : left = right := by
  have sameLength : left.bytes.length = right.bytes.length := by
    by_contra different
    rcases Nat.lt_or_gt_of_ne different with shorter | longer
    · apply right.image_ne_zero shorter
      rw [← holdsRight _ shorter.le, holdsLeft _ le_rfl, left.image_end]
    · apply left.image_ne_zero longer
      rw [← holdsLeft _ longer.le, holdsRight _ le_rfl, right.image_end]
  apply CString.ext
  apply List.ext_getElem sameLength
  intro offset inLeft inRight
  rw [← left.image_of_lt inLeft, ← right.image_of_lt inRight, ← holdsLeft _ inLeft.le,
    ← holdsRight _ inRight.le]

theorem CString.image_eq_getElem (string : CString) {offset : Nat}
    (inside : offset < (string.bytes ++ [0]).length) :
    string.image offset = (string.bytes ++ [0])[offset] := by
  rw [List.length_append, List.length_singleton] at inside
  rw [List.getElem_append]
  split
  · rename_i inString
    exact string.image_of_lt inString
  · obtain rfl : offset = string.bytes.length := by omega
    rw [string.image_end]
    exact (List.getElem_singleton _).symm

theorem holds_iff_showsBytes {image : Image} {string : CString} :
    Holds image string ↔ ShowsBytes image (string.bytes ++ [0]) := by
  rw [showsBytes_iff]
  constructor
  · intro holds offset inside
    rw [← string.image_eq_getElem inside]
    rw [List.length_append, List.length_singleton] at inside
    exact holds offset (Nat.le_of_lt_succ inside)
  · intro shows offset inString
    have inside : offset < (string.bytes ++ [0]).length := by
      rw [List.length_append, List.length_singleton]
      exact Nat.lt_succ_of_le inString
    rw [shows offset inside, string.image_eq_getElem inside]

/-- A string in memory is found by a scan that goes far enough. -/
theorem scanString_of_shown {image : Image} {string : CString} {start fuel : Nat}
    (shown : ∀ offset ≤ string.bytes.length, image (start + offset) = string.image offset)
    (enough : string.bytes.length < fuel) : scanString image fuel start = some string := by
  obtain ⟨bytes, noNul⟩ := string
  induction bytes generalizing start fuel with
  | nil =>
      obtain ⟨fuel, rfl⟩ := Nat.exists_eq_succ_of_ne_zero (Nat.ne_of_gt enough)
      have nul : image start = 0 := shown 0 (Nat.le_refl 0)
      rw [scanString, dif_pos nul]
      rfl
  | cons char bytes inductionHypothesis =>
      obtain ⟨fuel, rfl⟩ := Nat.exists_eq_succ_of_ne_zero (Nat.ne_of_gt (Nat.zero_lt_of_lt enough))
      have first : image start = char := shown 0 (Nat.zero_le _)
      have notNul : image start ≠ 0 := first ▸ noNul char List.mem_cons_self
      have rest := @inductionHypothesis (start + 1) fuel
        (fun other member => noNul other (List.mem_cons_of_mem char member)) (by
          intro offset inString
          have next := shown (offset + 1) (Nat.succ_le_succ inString)
          rw [← Nat.add_assoc, Nat.add_right_comm] at next
          exact next) (Nat.lt_of_succ_lt_succ enough)
      rw [scanString, dif_neg notNul, rest, Option.map_some]
      simp only [CString.cons, first]

/-- A string that a scan finds stands where the scan started. -/
theorem scanString_shown {image : Image} {fuel start : Nat} {string : CString}
    (found : scanString image fuel start = some string) :
    ∀ offset ≤ string.bytes.length, image (start + offset) = string.image offset := by
  induction fuel generalizing start string with
  | zero => contradiction
  | succ fuel inductionHypothesis =>
      rw [scanString] at found
      split at found
      · rename_i nul
        obtain rfl := Option.some.inj found
        intro offset inString
        obtain rfl := Nat.le_zero.mp inString
        exact nul
      · obtain ⟨rest, foundRest, rfl⟩ := Option.map_eq_some_iff.mp found
        intro offset inString
        cases offset with
        | zero => rfl
        | succ offset =>
            have shown := inductionHypothesis foundRest offset (Nat.le_of_succ_le_succ inString)
            rw [Nat.add_assoc, Nat.add_comm 1] at shown
            exact shown

private theorem strcmpFrom_eq_zero_iff (str1 : Image) (rest : List Byte)
    (noNul : ∀ char ∈ rest, char ≠ 0) (start : Nat) :
    strcmpFrom str1 start rest = 0 ↔
      ∀ offset ≤ rest.length, str1 (start + offset) = rest.getD offset 0 := by
  induction rest generalizing start with
  | nil => simp [strcmpFrom, ← BitVec.toNat_inj]
  | cons char rest inductionHypothesis =>
      have charNe : char ≠ 0 := noNul char (by simp)
      have tail := inductionHypothesis (fun c member => noNul c (by simp [member])) (start + 1)
      by_cases same : str1 start = char
      · have continues : str1 start ≠ 0 ∧ str1 start = char := ⟨same ▸ charNe, same⟩
        rw [strcmpFrom, if_pos continues, tail]
        constructor
        · intro agree offset bound
          cases offset with
          | zero => simpa using same
          | succ offset =>
              have := agree offset (by simpa using bound)
              rw [Nat.add_assoc, Nat.add_comm 1 offset] at this
              simpa using this
        · intro agree offset bound
          have := agree (offset + 1) (by simpa using bound)
          rw [Nat.add_assoc, Nat.add_comm 1 offset]
          simpa using this
      · rw [strcmpFrom, if_neg (fun both => same both.2)]
        constructor
        · intro zero
          refine absurd (BitVec.eq_of_toNat_eq ?_) same
          omega
        · intro agree
          exact absurd (by simpa using agree 0 (Nat.zero_le _)) same

theorem strcmp_eq_zero_iff (str1 : Image) (str2 : CString) :
    strcmp str1 str2 = 0 ↔ Holds str1 str2 := by
  rw [strcmp, strcmpFrom_eq_zero_iff str1 str2.bytes str2.noNul 0]
  simp only [Nat.zero_add]
  rfl

theorem strcmp_image_eq_zero_iff (str1 str2 : CString) :
    strcmp str1.image str2 = 0 ↔ str1 = str2 := by
  rw [strcmp_eq_zero_iff]
  constructor
  · exact fun holds => str1.holds_image.unique holds
  · rintro rfl
    exact str1.holds_image

/-! ### Strings in character arrays -/

/-- Some byte of the array is NUL, so a scan from its start stops inside. -/
def Terminated {size : Nat} (array : Fin size → Byte) : Prop := ∃ index, array index = 0

/-- The string an array holds: its bytes before the first NUL. -/
def stringIn {size : Nat} (array : Fin size → Byte) : CString where
  bytes := (List.ofFn array).takeWhile (· != 0)
  noNul char member := by simpa using List.mem_takeWhile_imp member

def strcpy {size : Nat} (dest : Fin size → Byte) (src : CString)
    (_fits : src.bytes.length < size) : Fin size → Byte := fun index =>
  if index.val ≤ src.bytes.length then src.image index.val else dest index

section Arrays

variable {size : Nat} {array : Fin size → Byte} {image : Image}

theorem stringIn_length_lt (terminated : Terminated array) :
    (stringIn array).bytes.length < size := by
  obtain ⟨index, zero⟩ := terminated
  have notAll : (stringIn array).bytes ≠ List.ofFn array := by
    intro all
    have member : array index ∈ (stringIn array).bytes := by
      rw [all]
      exact (List.mem_ofFn' _ _).mpr ⟨index, rfl⟩
    exact (stringIn array).noNul _ member zero
  have isPrefix : (stringIn array).bytes <+: List.ofFn array := List.takeWhile_prefix _
  have shorter := isPrefix.length_le
  rw [List.length_ofFn] at shorter
  refine lt_of_le_of_ne shorter fun full => notAll (isPrefix.eq_of_length ?_)
  rw [full, List.length_ofFn]

/-- An image that starts with a terminated array holds the array's string. -/
theorem holds_stringIn (terminated : Terminated array)
    (shows : ∀ index : Fin size, image index.val = array index) :
    Holds image (stringIn array) := by
  intro offset bound
  have lengthLt := stringIn_length_lt terminated
  have inArray : offset < size := by omega
  have isPrefix : (stringIn array).bytes <+: List.ofFn array := List.takeWhile_prefix _
  rw [shows ⟨offset, inArray⟩]
  rcases Nat.lt_or_eq_of_le bound with inside | atEnd
  · rw [CString.image_of_lt _ inside, isPrefix.getElem inside, List.getElem_ofFn]
  · subst atEnd
    rw [CString.image_end]
    have scanned : (stringIn array).bytes.length =
        min ((List.ofFn array).findIdx fun char => !(char != 0)) (List.ofFn array).length := by
      rw [← List.length_take, ← List.takeWhile_eq_take_findIdx_not]
      rfl
    rw [List.length_ofFn] at scanned
    have stops := @List.findIdx_getElem Byte (fun char => !(char != 0)) (List.ofFn array)
      (by rw [List.length_ofFn]; omega)
    simp only [List.getElem_ofFn, Bool.not_eq_true', bne_eq_false_iff_eq] at stops
    rw [← stops]
    congr 2
    omega

theorem strcmp_array_eq_zero_iff (terminated : Terminated array)
    (shows : ∀ index : Fin size, image index.val = array index) (string : CString) :
    strcmp image string = 0 ↔ stringIn array = string := by
  rw [strcmp_eq_zero_iff]
  have own := holds_stringIn terminated shows
  constructor
  · exact fun holds => own.unique holds
  · rintro rfl
    exact own

theorem strcpy_terminated (dest : Fin size → Byte) (src : CString)
    (fits : src.bytes.length < size) : Terminated (strcpy dest src fits) :=
  ⟨⟨src.bytes.length, fits⟩, by simp [strcpy, CString.image_end]⟩

theorem stringIn_strcpy (dest : Fin size → Byte) (src : CString)
    (fits : src.bytes.length < size) : stringIn (strcpy dest src fits) = src := by
  let shown : Image := fun offset =>
    if inside : offset < size then strcpy dest src fits ⟨offset, inside⟩ else 0
  have own : Holds shown (stringIn (strcpy dest src fits)) :=
    holds_stringIn (strcpy_terminated dest src fits) fun index => by simp [shown]
  apply own.unique
  intro offset bound
  simp [shown, strcpy, bound, show offset < size by omega]

/-- The stored string is empty exactly when the first byte is NUL. -/
theorem stringIn_bytes_eq_nil_iff {array : Fin (size + 1) → Byte} :
    (stringIn array).bytes = [] ↔ array 0 = 0 := by
  simp [stringIn, List.ofFn_succ, List.takeWhile_cons]

end Arrays

end BrainDance.Libc
