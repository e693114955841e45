import BrainDance.App.Cable.Document
import BrainDance.App.Cable.Keypress
import BrainDance.Libc.Edits

/-!
Owns the rows of a document as strings. A padded row is a string that ends within
its 80 bytes and has zero bytes behind it, so a row of the buffer and its string
determine each other, and the accesses of an editing function on such rows are
reads and moves inside the array.
-/

namespace BrainDance.App.Cable

open BrainDance.Foundation
open BrainDance.Libc

/-! ### Padded rows -/

/-- Row `y` is the string, which ends within the row, and zero bytes. -/
structure ShowsRow (buffer : Image) (y : Nat) (row : CString) : Prop where
  ends : strlen row < editorCols
  shows : ∀ col < editorCols, buffer (y * editorCols + col) = row.image col

/-- Every row is NUL-terminated with only zero bytes behind its terminator. -/
def RowsPadded (buffer : Image) : Prop := ∀ y < editorRows, ∃ row, ShowsRow buffer y row

/-- The two buffers have the same bytes in row `y`. -/
def SameRow (left right : Image) (y : Nat) : Prop :=
  ∀ col < editorCols, left (y * editorCols + col) = right (y * editorCols + col)

/-- The characters of the first `count` rows. -/
def documentText (buffer : Image) : Nat → List Byte
  | 0 => []
  | count + 1 => documentText buffer count ++ (rowOf buffer count).bytes

/-- The document's rows are padded, and the cursor is in one of them or at its end. -/
structure InText (editor : EditorState) : Prop where
  padded : RowsPadded editor.buffer
  top : 0 ≤ editor.cy
  bottom : editor.cy < editorRows
  left : 0 ≤ editor.cx
  right : editor.cx ≤ strlen (rowOf editor.buffer editor.cy.toNat)

section Rows

variable {buffer other : Image} {y : Nat} {row : CString}

theorem ShowsRow.rowString (shows : ShowsRow buffer y row) (inDocument : y < editorRows) :
    rowString buffer y = some row := by
  have width : editorCols = 80 := rfl
  have rows : editorRows = 24 := rfl
  have ends := shows.ends
  rw [strlen] at ends
  refine scanString_of_shown (fun offset inString => shows.shows offset (by omega)) ?_
  rw [width] at ends ⊢
  omega

theorem ShowsRow.rowOf (shows : ShowsRow buffer y row) (inDocument : y < editorRows) :
    rowOf buffer y = row :=
  rowOf_of_some (shows.rowString inDocument)

/-- Row `y` of one buffer is a copy of row `z` of another. -/
theorem ShowsRow.copy {z : Nat} (shows : ShowsRow buffer z row)
    (same : ∀ col < editorCols, other (y * editorCols + col) = buffer (z * editorCols + col)) :
    ShowsRow other y row :=
  ⟨shows.ends, fun col inRow => (same col inRow).trans (shows.shows col inRow)⟩

theorem RowsPadded.shows (padded : RowsPadded buffer) (inDocument : y < editorRows) :
    ShowsRow buffer y (rowOf buffer y) := by
  obtain ⟨row, shows⟩ := padded y inDocument
  rw [shows.rowOf inDocument]
  exact shows

theorem RowsPadded.rowAt (padded : RowsPadded buffer) (inDocument : y < editorRows) :
    rowAt buffer y = some (rowOf buffer y) := by
  rw [Cable.rowAt, if_pos ⟨Int.natCast_nonneg y, Int.ofNat_lt.mpr inDocument⟩, Int.toNat_natCast]
  exact (padded.shows inDocument).rowString inDocument

/-- Texts are equal when their rows are. -/
theorem documentText_congr {count : Nat} (same : ∀ y < count, rowOf buffer y = rowOf other y) :
    documentText buffer count = documentText other count := by
  induction count with
  | zero => rfl
  | succ count inductionHypothesis =>
      rw [documentText, documentText, same count (Nat.lt_succ_self count),
        inductionHypothesis fun y inRange => same y (Nat.lt_succ_of_lt inRange)]

end Rows

/-- The row of the cursor. -/
theorem InText.row {editor : EditorState} (inText : InText editor) :
    ShowsRow editor.buffer editor.cy.toNat (rowOf editor.buffer editor.cy.toNat) := by
  have ⟨padded, top, bottom, _, _⟩ := inText
  exact padded.shows (by omega)

/-! ### Cells -/

theorem cellOffset_natCast (x y : Nat) :
    cellOffset x y = ((y * editorCols + x : Nat) : Int) := by
  rw [cellOffset, Int.natCast_add, Int.natCast_mul]

/-- A move inside the array returns. -/
theorem moveCells_natCast (buffer : Image) {dest src count : Nat}
    (destFits : dest + count ≤ editorRows * editorCols)
    (srcFits : src + count ≤ editorRows * editorCols) :
    moveCells buffer dest src (BitVec.ofInt 32 count) =
      some (blit buffer dest (fun offset => buffer (src + offset)) count) := by
  have size : editorRows * editorCols = 1920 := rfl
  have small : (BitVec.ofInt 32 (count : Int)).toNat = count := by
    rw [BitVec.ofInt_natCast, BitVec.toNat_ofNat]
    omega
  rw [moveCells, small, if_pos (by omega), memmove_eq_blit, Int.toNat_natCast, Int.toNat_natCast]

/-! ### Rows of letters -/

/-- `length` times the letter a. -/
def letters (length : Nat) : CString where
  bytes := List.replicate length 0x61
  noNul := fun char member => by
    rw [List.eq_of_mem_replicate member]
    decide

/-- The first `count` rows hold `length` letters each. -/
def letterRows (count length : Nat) : Image := fun offset =>
  if offset / editorCols < count ∧ offset % editorCols < length then 0x61 else 0

/-- The cursor in a document of such rows. -/
def letterDocument (count length cx cy : Nat) : EditorState where
  cx := cx
  cy := cy
  buffer := letterRows count length
  filename := (literal ['a', '.', 't', 'x', 't']).image
  dirty := 0

section Letters

variable {count length : Nat}

@[simp] theorem strlen_letters : strlen (letters length) = length :=
  List.length_replicate

theorem letterRows_shows (short : length < editorCols) (y : Nat) :
    ShowsRow (letterRows count length) y (if y < count then letters length else CString.nil) := by
  constructor
  · split
    · rw [strlen_letters]
      exact short
    · decide
  · intro col inRow
    rw [letterRows, cell_row y inRow, cell_column y inRow]
    by_cases written : y < count
    · rw [if_pos written, CString.image, letters, List.getD_eq_getElem?_getD,
        List.getElem?_replicate]
      by_cases inString : col < length
      · rw [if_pos ⟨written, inString⟩, if_pos inString, Option.getD_some]
      · rw [if_neg (fun both => inString both.2), if_neg inString, Option.getD_none]
    · rw [if_neg (fun both => written both.1), if_neg written]
      exact (CString.image_of_le CString.nil (Nat.zero_le col)).symm

theorem letterRows_padded (short : length < editorCols) : RowsPadded (letterRows count length) :=
  fun y _ => ⟨_, letterRows_shows short y⟩

theorem letterRows_row (short : length < editorCols) {y : Nat} (inDocument : y < editorRows)
    (written : y < count) : rowOf (letterRows count length) y = letters length := by
  have shows := @letterRows_shows count length short y
  rw [if_pos written] at shows
  exact shows.rowOf inDocument

theorem letterDocument_inText (short : length < editorCols) {cx cy : Nat}
    (inDocument : cy < editorRows) (written : cy < count) (inLine : cx ≤ length) :
    InText (letterDocument count length cx cy) where
  padded := letterRows_padded short
  top := Int.natCast_nonneg cy
  bottom := Int.ofNat_lt.mpr inDocument
  left := Int.natCast_nonneg cx
  right := by
    rw [letterDocument, Int.toNat_natCast, letterRows_row short inDocument written,
      strlen_letters]
    exact Int.ofNat_le.mpr inLine

end Letters

end BrainDance.App.Cable
