import Mathlib.Data.Nat.Bitwise
import BrainDance.Foundation.Bytes

/-!
Owns the address translation of a 32-bit processor with two-level page tables:
the entry format, the walk from a page directory, and accesses to virtual
addresses. Memory is an image of the physical address space. An access to an
address without a translation is a page fault, `none`.

It does not own a translation cache, access rights or large pages: the walk is
that of a supervisor access without write protection.
-/

namespace BrainDance.Arch

open BrainDance.Foundation

/-! ### Entries -/

/-- A page directory or page table entry. `attributes` are the bits between
`user` and `frame`. -/
@[ext]
structure PageEntry where
  present : BitVec 1
  rw : BitVec 1
  user : BitVec 1
  attributes : BitVec 9
  frame : BitVec 20
deriving DecidableEq

def PageEntry.toWord (entry : PageEntry) : Word :=
  entry.frame ++ entry.attributes ++ entry.user ++ entry.rw ++ entry.present

def PageEntry.ofWord (word : Word) : PageEntry where
  present := word.extractLsb' 0 1
  rw := word.extractLsb' 1 1
  user := word.extractLsb' 2 1
  attributes := word.extractLsb' 3 9
  frame := word.extractLsb' 12 20

/-- The fields' places inside the word. -/
theorem PageEntry.toWord_toNat (entry : PageEntry) :
    entry.toWord.toNat = 4096 * entry.frame.toNat + 8 * entry.attributes.toNat +
      4 * entry.user.toNat + 2 * entry.rw.toNat + entry.present.toNat := by
  rw [PageEntry.toWord, BitVec.toNat_append, BitVec.toNat_append, BitVec.toNat_append,
    BitVec.toNat_append, ← Nat.shiftLeft_add_eq_or_of_lt entry.attributes.isLt,
    ← Nat.shiftLeft_add_eq_or_of_lt entry.user.isLt, ← Nat.shiftLeft_add_eq_or_of_lt entry.rw.isLt,
    ← Nat.shiftLeft_add_eq_or_of_lt entry.present.isLt]
  simp only [Nat.shiftLeft_eq]
  omega

/-- An entry is read back from its own word. -/
theorem PageEntry.ofWord_toWord (entry : PageEntry) : PageEntry.ofWord entry.toWord = entry := by
  have value := entry.toWord_toNat
  have present := entry.present.isLt
  have rw := entry.rw.isLt
  have user := entry.user.isLt
  have attributes := entry.attributes.isLt
  have frame := entry.frame.isLt
  apply PageEntry.ext <;> apply BitVec.eq_of_toNat_eq <;>
    simp only [PageEntry.ofWord, BitVec.extractLsb'_toNat, Nat.shiftRight_eq_div_pow, value] <;>
    omega

theorem PageEntry.ofWord_zero : PageEntry.ofWord 0 = ⟨0, 0, 0, 0, 0⟩ := by decide

/-! ### Address parts -/

def pageSize : Nat := 4096

def directoryIndex (address : Word) : Nat := (address >>> 22).toNat

def tableIndex (address : Word) : Nat := ((address >>> 12) &&& 0x3FF).toNat

def pageOffset (address : Word) : Nat := (address &&& 0xFFF).toNat

theorem directoryIndex_eq (address : Word) : directoryIndex address = address.toNat / 2 ^ 22 := by
  rw [directoryIndex, BitVec.toNat_ushiftRight, Nat.shiftRight_eq_div_pow]

theorem tableIndex_eq (address : Word) : tableIndex address = address.toNat / 2 ^ 12 % 2 ^ 10 := by
  rw [tableIndex, BitVec.toNat_and, BitVec.toNat_ushiftRight, Nat.shiftRight_eq_div_pow,
    show (0x3FF : Word).toNat = 2 ^ 10 - 1 from rfl, Nat.and_two_pow_sub_one_eq_mod]

theorem pageOffset_eq (address : Word) : pageOffset address = address.toNat % 2 ^ 12 := by
  rw [pageOffset, BitVec.toNat_and, show (0xFFF : Word).toNat = 2 ^ 12 - 1 from rfl,
    Nat.and_two_pow_sub_one_eq_mod]

/-! ### Tables in memory -/

/-- Where entry `index` of the table in `frame` stands. -/
def entryAddress (frame : BitVec 20) (index : Nat) : Nat := pageSize * frame.toNat + 4 * index

def entryIn (memory : Image) (frame : BitVec 20) (index : Nat) : PageEntry :=
  PageEntry.ofWord (wordAt memory (entryAddress frame index))

def setEntry (memory : Image) (frame : BitVec 20) (index : Nat) (entry : PageEntry) : Image :=
  storeWord memory (entryAddress frame index) entry.toWord

section Tables

variable {memory : Image} {frame other : BitVec 20} {index otherIndex : Nat}

theorem entryIn_setEntry_self (memory : Image) (frame : BitVec 20) (index : Nat)
    (entry : PageEntry) : entryIn (setEntry memory frame index entry) frame index = entry := by
  rw [entryIn, setEntry, wordAt_storeWord_self, PageEntry.ofWord_toWord]

theorem entryIn_setEntry_of_ne (entry : PageEntry) (inTable : index < 1024)
    (otherInTable : otherIndex < 1024) (different : other ≠ frame ∨ otherIndex ≠ index) :
    entryIn (setEntry memory frame index entry) other otherIndex =
      entryIn memory other otherIndex := by
  have frames : other ≠ frame → other.toNat ≠ frame.toNat :=
    fun ne same => ne (BitVec.eq_of_toNat_eq same)
  rw [entryIn, entryIn, setEntry, wordAt_storeWord_of_apart]
  simp only [entryAddress, pageSize]
  rcases different with elsewhere | elsewhere
  · have := frames elsewhere
    omega
  · omega

/-- A cleared page is a table of entries that are not present. -/
theorem entryIn_fill_self (memory : Image) (frame : BitVec 20) (inTable : index < 1024) :
    entryIn (fill memory (pageSize * frame.toNat) pageSize 0) frame index = ⟨0, 0, 0, 0, 0⟩ := by
  have cleared : wordAt (fill memory (pageSize * frame.toNat) pageSize 0)
      (entryAddress frame index) = 0 := by
    rw [← wordAt_wordImage 0]
    apply wordAt_congr
    intro offset below
    rw [fill, if_pos (by simp only [entryAddress, pageSize]; omega)]
    simp [wordImage]
  rw [entryIn, cleared, PageEntry.ofWord_zero]

theorem entryIn_fill_of_ne (inTable : otherIndex < 1024) (different : other ≠ frame) :
    entryIn (fill memory (pageSize * frame.toNat) pageSize 0) other otherIndex =
      entryIn memory other otherIndex := by
  have frames : other.toNat ≠ frame.toNat := fun same => different (BitVec.eq_of_toNat_eq same)
  rw [entryIn, entryIn]
  congr 1
  apply wordAt_congr
  intro offset below
  apply fill_outside
  simp only [entryAddress, pageSize]
  omega

end Tables

/-! ### Translation -/

/-- The physical address of a virtual one, through the directory in `directory`. -/
def walk (memory : Image) (directory : BitVec 20) (address : Word) : Option Nat :=
  let pde := entryIn memory directory (directoryIndex address)
  if pde.present = 0 then none
  else
    let pte := entryIn memory pde.frame (tableIndex address)
    if pte.present = 0 then none else some (pageSize * pte.frame.toNat + pageOffset address)

def readVirtual (memory : Image) (directory : BitVec 20) (address : Word) : Option PageEntry :=
  (walk memory directory address).map fun physical => PageEntry.ofWord (wordAt memory physical)

def writeVirtual (memory : Image) (directory : BitVec 20) (address : Word) (entry : PageEntry) :
    Option Image :=
  (walk memory directory address).map fun physical => storeWord memory physical entry.toWord

/-- A word stored at a virtual address that keeps to one page. -/
def storeVirtual (memory : Image) (directory : BitVec 20) (address word : Word) : Option Image :=
  (walk memory directory address).map fun physical => storeWord memory physical word

/-- `memset` on virtual addresses: every byte is translated on its own. -/
def memsetVirtual (memory : Image) (directory : BitVec 20) (address : Word) (value : Byte) :
    Nat → Option Image
  | 0 => some memory
  | count + 1 =>
      (memsetVirtual memory directory address value count).bind fun written =>
        (walk written directory (address + BitVec.ofNat 32 count)).map fun physical =>
          Function.update written physical value

section Translation

variable {memory : Image} {directory : BitVec 20} {address : Word}

theorem walk_of_present {pde pte : PageEntry}
    (table : entryIn memory directory (directoryIndex address) = pde) (tablePresent : pde.present ≠ 0)
    (page : entryIn memory pde.frame (tableIndex address) = pte) (pagePresent : pte.present ≠ 0) :
    walk memory directory address = some (pageSize * pte.frame.toNat + pageOffset address) := by
  unfold walk
  simp only [table, if_neg tablePresent, page, if_neg pagePresent]

/-- A `memset` whose range keeps its translation while it is written fills the
physical range. -/
theorem memsetVirtual_eq_fill (value : Byte) {start count : Nat}
    (stable : ∀ written : Image,
      (∀ offset, offset < start ∨ start + count ≤ offset → written offset = memory offset) →
        ∀ offset < count,
          walk written directory (address + BitVec.ofNat 32 offset) = some (start + offset)) :
    memsetVirtual memory directory address value count = some (fill memory start count value) := by
  have upTo : ∀ part ≤ count,
      memsetVirtual memory directory address value part = some (fill memory start part value) := by
    intro part within
    induction part with
    | zero =>
        rw [memsetVirtual]
        congr 1
        funext offset
        exact (fill_outside memory value (by omega)).symm
    | succ part inductionHypothesis =>
        have translated := stable (fill memory start part value)
          (fun offset outside => fill_outside memory value (by omega)) part (by omega)
        rw [memsetVirtual, inductionHypothesis (by omega), Option.bind_some, translated,
          Option.map_some]
        congr 1
        funext offset
        by_cases last : offset = start + part
        · rw [last, Function.update_self, fill, if_pos (by omega)]
        · rw [Function.update_of_ne last, fill, fill]
          congr 1
          simp only [eq_iff_iff]
          omega
  exact upTo count le_rfl

/-- A `memset` has written every shorter range on its way. -/
theorem memsetVirtual_of_le {value : Byte} {part count : Nat} {after : Image} (within : part ≤ count)
    (done : memsetVirtual memory directory address value count = some after) :
    ∃ middle, memsetVirtual memory directory address value part = some middle := by
  induction count generalizing after with
  | zero =>
      obtain rfl := Nat.le_zero.mp within
      exact ⟨after, done⟩
  | succ count inductionHypothesis =>
      rcases Nat.lt_or_eq_of_le within with shorter | rfl
      · obtain ⟨written, earlier, _⟩ := Option.bind_eq_some_iff.mp done
        exact inductionHypothesis (by omega) earlier
      · exact ⟨after, done⟩

/-- A `memset` of a range that already holds the value changes nothing. -/
theorem memsetVirtual_eq_self (value : Byte) {start count : Nat}
    (reached : ∀ offset < count,
      walk memory directory (address + BitVec.ofNat 32 offset) = some (start + offset))
    (held : ∀ offset < count, memory (start + offset) = value) :
    memsetVirtual memory directory address value count = some memory := by
  induction count with
  | zero => rfl
  | succ count inductionHypothesis =>
      rw [memsetVirtual, inductionHypothesis (fun offset below => reached offset (by omega))
        (fun offset below => held offset (by omega)), Option.bind_some, reached count (by omega),
        Option.map_some, ← held count (by omega), Function.update_eq_self]

/-- A byte that holds the value when a `memset` has come to `part` holds it at the end. -/
theorem memsetVirtual_keeps {value : Byte} {part count physical : Nat} {middle after : Image}
    (within : part ≤ count) (upTo : memsetVirtual memory directory address value part = some middle)
    (held : middle physical = value)
    (done : memsetVirtual memory directory address value count = some after) :
    after physical = value := by
  induction count generalizing after with
  | zero =>
      obtain rfl := Nat.le_zero.mp within
      rw [upTo, Option.some.injEq] at done
      rwa [← done]
  | succ count inductionHypothesis =>
      rcases Nat.lt_or_eq_of_le within with shorter | rfl
      · obtain ⟨written, earlier, last⟩ := Option.bind_eq_some_iff.mp done
        obtain ⟨target, _, rfl⟩ := Option.map_eq_some_iff.mp last
        by_cases here : physical = target
        · rw [here, Function.update_self]
        · rw [Function.update_of_ne here]
          exact inductionHypothesis (by omega) earlier
      · rw [upTo, Option.some.injEq] at done
        rwa [← done]

end Translation

end BrainDance.Arch
