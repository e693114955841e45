import BrainDance.App.Cable.Rows

/-!
Owns what `editor_insert_char` does to a document of padded rows. The function
looks at the column only, so a line of 79 characters grows to 80 and loses its
terminator when a character is put in front of its end.
-/

namespace BrainDance.App.Cable

open BrainDance.Foundation
open BrainDance.Libc

/-! ### The property -/

/-- The character is put in at the cursor, which goes right, and no other row
changes. -/
structure Inserts {c : Byte} (notNul : c ≠ 0) (before after : EditorState) : Prop where
  row : ShowsRow after.buffer before.cy.toNat
    ((rowOf before.buffer before.cy.toNat).insertIdx before.cx.toNat c notNul)
  others : ∀ y < editorRows, y ≠ before.cy.toNat → SameRow after.buffer before.buffer y
  rest : after = { before with buffer := after.buffer, cx := before.cx + 1, dirty := 1 }

/-- `editor_insert_char` returns, and inserts or leaves the state as it is. -/
def InsertsOrStays {c : Byte} (notNul : c ≠ 0) (before : EditorState) : Prop :=
  ∃ after, editorInsertChar c before = some after ∧ (after = before ∨ Inserts notNul before after)

/-! ### The moved line -/

section Line

variable {c : Byte} {buffer : Image} {row : CString} {x y : Nat}

/-- The line behind column `x` moved right by one, and `c` in its place. -/
def insertedCells (buffer : Image) (x y length : Nat) (c : Byte) : Image :=
  Function.update (blit buffer (y * editorCols + x + 1)
    (fun offset => buffer (y * editorCols + x + offset)) (length - x)) (y * editorCols + x) c

theorem insertedCells_row (shows : ShowsRow buffer y row) (notNul : c ≠ 0)
    (inLine : x ≤ strlen row) {col : Nat} (inRow : col < editorCols) :
    insertedCells buffer x y (strlen row) c (y * editorCols + col) =
      (row.insertIdx x c notNul).image col := by
  rw [insertedCells, CString.image_insertIdx notNul inLine]
  by_cases before : col < x
  · rw [if_pos before, Function.update_of_ne (by omega), blit_outside _ _ (by omega),
      shows.shows col inRow]
  · rw [if_neg before]
    by_cases here : col = x
    · rw [if_pos here, here, Function.update_self]
    · rw [if_neg here, Function.update_of_ne (by omega)]
      by_cases inside : col ≤ strlen row
      · rw [blit_inside _ _ (by omega), ← shows.shows (col - 1) (by omega)]
        congr 1
        omega
      · rw [blit_outside _ _ (by omega), shows.shows col inRow, row.image_of_le (by omega),
          row.image_of_le (by omega)]

theorem insertedCells_other {length : Nat} (inLine : x ≤ length) (short : length < editorCols)
    {z : Nat} (other : z ≠ y) : SameRow (insertedCells buffer x y length c) buffer z := by
  have width : editorCols = 80 := rfl
  intro col inRow
  rw [width] at short inRow
  rw [insertedCells, width, Function.update_of_ne (by omega), blit_outside _ _ (by omega)]

end Line

/-! ### When it inserts -/

section Inserting

variable {c : Byte} {editor : EditorState}

theorem editorInsertChar_stays (full : ¬ editor.cx < editorCols - 1) :
    editorInsertChar c editor = some editor := by
  rw [editorInsertChar, if_neg full]

/-- In front of column 79 the line is moved. -/
theorem editorInsertChar_moves (inText : InText editor) (room : editor.cx < editorCols - 1) :
    editorInsertChar c editor = some { editor with
      buffer := insertedCells editor.buffer editor.cx.toNat editor.cy.toNat
        (strlen (rowOf editor.buffer editor.cy.toNat)) c
      cx := editor.cx + 1
      dirty := 1 } := by
  have width : editorCols = 80 := rfl
  have rows : editorRows = 24 := rfl
  obtain ⟨padded, top, bottom, left, right⟩ := inText
  obtain ⟨cx, cy, buffer, filename, dirty⟩ := editor
  obtain ⟨x, rfl⟩ := Int.eq_ofNat_of_zero_le left
  obtain ⟨y, rfl⟩ := Int.eq_ofNat_of_zero_le top
  dsimp only at padded bottom right room ⊢
  rw [Int.toNat_natCast] at right ⊢
  rw [Int.toNat_natCast]
  have inDocument := Int.ofNat_lt.mp bottom
  have inLine := Int.ofNat_le.mp right
  have ends := (padded.shows inDocument).ends
  have length : (strlen (rowOf buffer y) : Int) - x = ((strlen (rowOf buffer y) - x : Nat) : Int) :=
    (Int.ofNat_sub inLine).symm
  have cell : cellOffset x y + 1 = ((y * editorCols + x + 1 : Nat) : Int) := by
    rw [cellOffset_natCast, Int.natCast_add]
    rfl
  rw [width] at ends
  rw [editorInsertChar, if_pos room]
  dsimp only
  rw [padded.rowAt inDocument, Option.bind_eq_bind, Option.bind_some, length, cell,
    cellOffset_natCast, moveCells_natCast _ (by rw [width, rows]; omega)
      (by rw [width, rows]; omega), Option.bind_eq_bind, Option.bind_some, Int.toNat_natCast]
  rfl

/-- The character is inserted, or nothing happens, exactly when the line has room for
it or the cursor is in the last column. -/
theorem insertsOrStays_iff (inText : InText editor) (notNul : c ≠ 0) :
    InsertsOrStays notNul editor ↔
      strlen (rowOf editor.buffer editor.cy.toNat) < editorCols - 1 ∨
        editor.cx = editorCols - 1 := by
  have width : editorCols = 80 := rfl
  have shows := inText.row
  have inLine : editor.cx.toNat ≤ strlen (rowOf editor.buffer editor.cy.toNat) := by
    have := inText.right
    omega
  have ends := shows.ends
  by_cases room : editor.cx < editorCols - 1
  · rw [InsertsOrStays, editorInsertChar_moves inText room]
    constructor
    · rintro ⟨after, done, unchanged | inserted⟩
      · rw [unchanged] at done
        have same := congrArg EditorState.cx (Option.some.inj done)
        dsimp only at same
        omega
      · have longer := inserted.row.ends
        rw [strlen_insertIdx notNul inLine] at longer
        exact .inl (by omega)
    · intro fits
      have short := fits.resolve_right (by omega)
      refine ⟨_, rfl, .inr ⟨⟨?_, ?_⟩, ?_, rfl⟩⟩
      · rw [strlen_insertIdx notNul inLine]
        omega
      · exact fun col inRow => insertedCells_row shows notNul inLine inRow
      · exact fun z _ other => insertedCells_other inLine ends other
  · rw [InsertsOrStays, editorInsertChar_stays room]
    have last : editor.cx = editorCols - 1 := by
      have := inText.right
      omega
    exact ⟨fun _ => .inr last, fun _ => ⟨editor, rfl, .inl rfl⟩⟩

end Inserting

/-! ### A full line -/

/-- At the end of a line of one letter. -/
theorem insertsOrStays_iff_end :
    InsertsOrStays (show (0x62 : Byte) ≠ 0 by decide) (letterDocument 1 1 1 0) :=
  (insertsOrStays_iff (letterDocument_inText (by decide) (by decide) (by decide) (by decide))
    _).mpr (.inl (by decide +kernel))

/-- At the start of a line of 79 letters the line loses its terminator. -/
theorem insertsOrStays_fails :
    ¬ ∀ (c : Byte) (notNul : c ≠ 0) (editor : EditorState), 32 ≤ c.toNat ∧ c.toNat ≤ 126 →
      InText editor → InsertsOrStays notNul editor := by
  intro always
  have short : 79 < editorCols := by decide
  have inText : InText (letterDocument 1 79 0 0) :=
    letterDocument_inText short (by decide) (by decide) (by decide)
  have holds := (insertsOrStays_iff inText _).mp (always 0x62 (by decide) _ (by decide) inText)
  rcases holds with room | last
  · rw [letterDocument, Int.toNat_natCast, letterRows_row short (by decide) (by decide),
      strlen_letters] at room
    exact absurd room (by decide)
  · exact absurd last (by decide)

end BrainDance.App.Cable
