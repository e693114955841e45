import BrainDance.App.Cable.Rows

/-!
Owns what `editor_delete_char` does to a document of padded rows: the character in
front of the cursor goes, or the line joins the one above it. The rows below a
joined line move up by one, but the last row is not cleared, so what it held stays
there as well.
-/

namespace BrainDance.App.Cable

open BrainDance.Foundation
open BrainDance.Libc

/-! ### The property -/

/-- The character in front of the cursor is gone, the cursor has gone left, and no
other row changes. -/
structure Erases (before after : EditorState) : Prop where
  row : ShowsRow after.buffer before.cy.toNat
    ((rowOf before.buffer before.cy.toNat).eraseIdx (before.cx.toNat - 1))
  others : ∀ y < editorRows, y ≠ before.cy.toNat → SameRow after.buffer before.buffer y
  rest : after = { before with buffer := after.buffer, cx := before.cx - 1, dirty := 1 }

/-- The line stands behind the one above it, the rows below have moved up, the last
row is empty and the cursor is at the join. The text is the same as before. -/
structure JoinsLines (before after : EditorState) : Prop where
  above : ∀ y, y + 1 < before.cy.toNat → SameRow after.buffer before.buffer y
  joined : ShowsRow after.buffer (before.cy.toNat - 1)
    ((rowOf before.buffer (before.cy.toNat - 1)).append (rowOf before.buffer before.cy.toNat))
  below : ∀ y, before.cy.toNat ≤ y → y + 1 < editorRows →
    ShowsRow after.buffer y (rowOf before.buffer (y + 1))
  last : ShowsRow after.buffer (editorRows - 1) CString.nil
  rest : after = { before with
    buffer := after.buffer
    cy := before.cy - 1
    cx := strlen (rowOf before.buffer (before.cy.toNat - 1))
    dirty := 1 }
  text : documentText after.buffer editorRows = documentText before.buffer editorRows

/-- The cursor is at the start of a line that fits behind the one above it. -/
def AtJoin (editor : EditorState) : Prop :=
  editor.cx = 0 ∧ 0 < editor.cy ∧
    strlen (rowOf editor.buffer (editor.cy.toNat - 1)) +
      strlen (rowOf editor.buffer editor.cy.toNat) < editorCols - 1

instance (editor : EditorState) : Decidable (AtJoin editor) :=
  inferInstanceAs (Decidable (_ ∧ _ ∧ _))

/-- `editor_delete_char` returns, and erases in a line, joins at a join and leaves any
other state as it is. -/
def ErasesOrJoins (before : EditorState) : Prop :=
  ∃ after, editorDeleteChar before = some after ∧
    (0 < before.cx → Erases before after) ∧
    (AtJoin before → JoinsLines before after) ∧
    (¬ 0 < before.cx → ¬ AtJoin before → after = before)

/-! ### The closed line -/

section Line

variable {buffer : Image} {row : CString} {x y : Nat}

/-- The line behind column `x` moved left by one. -/
def erasedCells (buffer : Image) (x y length : Nat) : Image :=
  blit buffer (y * editorCols + x) (fun offset => buffer (y * editorCols + x + 1 + offset))
    (length - x)

theorem erasedCells_row (shows : ShowsRow buffer y row) (inLine : x < strlen row) {col : Nat}
    (inRow : col < editorCols) :
    erasedCells buffer x y (strlen row) (y * editorCols + col) = (row.eraseIdx x).image col := by
  have ends := shows.ends
  rw [erasedCells, row.image_eraseIdx]
  by_cases before : col < x
  · rw [if_pos before, blit_outside _ _ (by omega), shows.shows col inRow]
  · rw [if_neg before]
    by_cases inside : col < strlen row
    · rw [blit_inside _ _ (by omega), ← shows.shows (col + 1) (by omega)]
      congr 1
      omega
    · rw [blit_outside _ _ (by omega), shows.shows col inRow, row.image_of_le (by omega),
        row.image_of_le (by omega)]

theorem erasedCells_other {length : Nat} (inLine : x < length) (short : length < editorCols)
    {z : Nat} (other : z ≠ y) : SameRow (erasedCells buffer x y length) buffer z := by
  have width : editorCols = 80 := rfl
  intro col inRow
  rw [width] at short inRow
  rw [erasedCells, width, blit_outside _ _ (by omega)]

end Line

/-! ### The joined lines -/

section Join

variable {buffer : Image} {previous row : CString} {y : Nat}

/-- Row `y + 1` behind row `y`, and the rows below it moved up. -/
def joinedCells (buffer : Image) (previous row : CString) (y : Nat) : Image :=
  let appended := strcat buffer (y * editorCols) previous row
  blit appended ((y + 1) * editorCols) (fun offset => appended ((y + 1 + 1) * editorCols + offset))
    ((editorRows - (y + 1) - 1) * editorCols)

/-- `strcat` stays in its row. -/
theorem strcat_other (short : strlen previous + strlen row < editorCols) {z : Nat}
    (other : z ≠ y) : SameRow (strcat buffer (y * editorCols) previous row) buffer z := by
  have width : editorCols = 80 := rfl
  intro col inRow
  rw [width] at short inRow
  rw [strcat, width, memcpy_eq_blit, blit_outside _ _ (by omega)]

theorem joinedCells_above (short : strlen previous + strlen row < editorCols) {z : Nat}
    (above : z < y) : SameRow (joinedCells buffer previous row y) buffer z := by
  have width : editorCols = 80 := rfl
  intro col inRow
  rw [joinedCells, blit_outside _ _ (by rw [width] at inRow ⊢; omega)]
  exact strcat_other short (Nat.ne_of_lt above) col inRow

theorem joinedCells_joined (shows : ShowsRow buffer y previous)
    (short : strlen previous + strlen row < editorCols) :
    ShowsRow (joinedCells buffer previous row y) y (previous.append row) := by
  have width : editorCols = 80 := rfl
  refine ⟨by rw [strlen_append]; exact short, fun col inRow => ?_⟩
  rw [joinedCells, blit_outside _ _ (by rw [width] at inRow ⊢; omega), strcat, memcpy_eq_blit,
    previous.image_append row col]
  by_cases before : col < strlen previous
  · rw [if_pos before, blit_outside _ _ (by omega), shows.shows col inRow]
  · rw [if_neg before]
    by_cases inside : col ≤ strlen previous + strlen row
    · rw [blit_inside _ _ (by omega)]
      congr 1
      omega
    · rw [blit_outside _ _ (by omega), shows.shows col inRow, previous.image_of_le (by omega),
        row.image_of_le (by omega)]

theorem joinedCells_below (short : strlen previous + strlen row < editorCols) {z : Nat}
    (below : y < z) (inner : z + 1 < editorRows) {col : Nat} (inRow : col < editorCols) :
    joinedCells buffer previous row y (z * editorCols + col) =
      buffer ((z + 1) * editorCols + col) := by
  have width : editorCols = 80 := rfl
  have rows : editorRows = 24 := rfl
  have source : (y + 1 + 1) * editorCols + (z * editorCols + col - (y + 1) * editorCols) =
      (z + 1) * editorCols + col := by
    rw [width]
    omega
  rw [joinedCells, blit_inside _ _ (by rw [width] at inRow ⊢; rw [rows] at inner ⊢; omega),
    source]
  exact strcat_other short (by omega) col inRow

/-- The last row keeps what it held. -/
theorem joinedCells_last (short : strlen previous + strlen row < editorCols)
    (inDocument : y + 1 < editorRows) :
    SameRow (joinedCells buffer previous row y) buffer (editorRows - 1) := by
  have width : editorCols = 80 := rfl
  have rows : editorRows = 24 := rfl
  intro col inRow
  rw [joinedCells, blit_outside _ _ (by rw [width] at inRow ⊢; rw [rows] at inDocument ⊢; omega)]
  exact strcat_other short (by omega) col inRow

/-- Joining puts the characters of two rows next to each other in one; with nothing in
the last row the text stays. -/
theorem joinedCells_text {after : Image} (inDocument : y + 1 < editorRows)
    (above : ∀ z < y, rowOf after z = rowOf buffer z)
    (joined : rowOf after y = (rowOf buffer y).append (rowOf buffer (y + 1)))
    (below : ∀ z, y < z → z + 1 < editorRows → rowOf after z = rowOf buffer (z + 1))
    (last : rowOf after (editorRows - 1) = CString.nil) :
    documentText after editorRows = documentText buffer editorRows := by
  have rows : editorRows = 23 + 1 := rfl
  have moved : ∀ count, y + 1 + count < editorRows →
      documentText after (y + 1 + count) = documentText buffer (y + 1 + count + 1) := by
    intro count
    induction count with
    | zero =>
        intro _
        rw [Nat.add_zero, documentText, documentText, documentText, documentText_congr above,
          joined, List.append_assoc]
        rfl
    | succ count inductionHypothesis =>
        intro inRange
        rw [← Nat.add_assoc, documentText, inductionHypothesis (by omega),
          below _ (by omega) (by omega)]
        rfl
  have all := moved (22 - y) (by omega)
  have index : y + 1 + (22 - y) = 23 := by omega
  rw [index] at all
  rw [rows] at last ⊢
  rw [documentText, all, show 23 = 23 + 1 - 1 from rfl, last]
  exact List.append_nil _

end Join

/-! ### When it erases or joins -/

section Deleting

variable {editor : EditorState}

/-- In a line the rest of it is moved. -/
theorem editorDeleteChar_erases (inText : InText editor) (inLine : 0 < editor.cx) :
    editorDeleteChar editor = some { editor with
      buffer := erasedCells editor.buffer (editor.cx.toNat - 1) editor.cy.toNat
        (strlen (rowOf editor.buffer editor.cy.toNat))
      cx := editor.cx - 1
      dirty := 1 } := by
  have width : editorCols = 80 := rfl
  have rows : editorRows = 24 := rfl
  obtain ⟨padded, top, bottom, left, right⟩ := inText
  obtain ⟨cx, cy, buffer, filename, dirty⟩ := editor
  obtain ⟨x, rfl⟩ := Int.eq_ofNat_of_zero_le left
  obtain ⟨y, rfl⟩ := Int.eq_ofNat_of_zero_le top
  dsimp only at padded bottom right inLine ⊢
  rw [Int.toNat_natCast] at right ⊢
  rw [Int.toNat_natCast]
  have inDocument := Int.ofNat_lt.mp bottom
  have behind := Int.ofNat_le.mp right
  have ends := (padded.shows inDocument).ends
  have column : (x : Int) - 1 = ((x - 1 : Nat) : Int) := by omega
  have length : (strlen (rowOf buffer y) : Int) - ((x - 1 : Nat) : Int) =
      ((strlen (rowOf buffer y) - (x - 1) : Nat) : Int) := (Int.ofNat_sub (by omega)).symm
  have next : ((y * editorCols + (x - 1) : Nat) : Int) + 1 =
      ((y * editorCols + (x - 1) + 1 : Nat) : Int) := rfl
  rw [width] at ends
  rw [editorDeleteChar, if_pos inLine]
  dsimp only
  rw [padded.rowAt inDocument, Option.bind_eq_bind, Option.bind_some, column, length,
    cellOffset_natCast, next, moveCells_natCast _ (by rw [width, rows]; omega)
      (by rw [width, rows]; omega), Option.bind_eq_bind, Option.bind_some]
  rfl

/-- At a join the lines are joined. -/
theorem editorDeleteChar_joins (inText : InText editor) (atJoin : AtJoin editor) :
    editorDeleteChar editor = some { editor with
      buffer := joinedCells editor.buffer (rowOf editor.buffer (editor.cy.toNat - 1))
        (rowOf editor.buffer editor.cy.toNat) (editor.cy.toNat - 1)
      cy := editor.cy - 1
      cx := strlen (rowOf editor.buffer (editor.cy.toNat - 1))
      dirty := 1 } := by
  have width : editorCols = 80 := rfl
  have rows : editorRows = 24 := rfl
  obtain ⟨padded, _, bottom, _, _⟩ := inText
  obtain ⟨start, below, fits⟩ := atJoin
  obtain ⟨cx, cy, buffer, filename, dirty⟩ := editor
  dsimp only at padded bottom start below fits ⊢
  obtain ⟨y, rfl⟩ : ∃ y : Nat, cy = ((y + 1 : Nat) : Int) := ⟨cy.toNat - 1, by omega⟩
  rw [Int.toNat_natCast, Nat.add_sub_cancel] at fits ⊢
  have inDocument := Int.ofNat_lt.mp bottom
  have previousRow : ((y + 1 : Nat) : Int) - 1 = (y : Int) := by omega
  have count : ((editorRows : Nat) : Int) - ((y + 1 : Nat) : Int) - 1 =
      ((editorRows - (y + 1) - 1 : Nat) : Int) := by omega
  have cell : ∀ row : Nat, cellOffset 0 row = ((row * editorCols : Nat) : Int) :=
    fun row => cellOffset_natCast 0 row
  have next : ((y + 1 : Nat) : Int) + 1 = ((y + 1 + 1 : Nat) : Int) := rfl
  rw [editorDeleteChar, if_neg (by dsimp only; omega), if_pos below]
  dsimp only
  rw [previousRow, padded.rowAt (by omega), padded.rowAt inDocument, Option.bind_eq_bind,
    Option.bind_some, Option.bind_some, if_pos fits, count, next, cell, cell, cell,
    Int.toNat_natCast, ← Int.natCast_mul, moveCells_natCast _ (by rw [width, rows]; omega)
      (by rw [width, rows]; omega)]
  rfl

/-- Everything else is left as it is. -/
theorem editorDeleteChar_stays (inText : InText editor) (start : ¬ 0 < editor.cx)
    (apart : ¬ AtJoin editor) : editorDeleteChar editor = some editor := by
  obtain ⟨padded, _, bottom, left, _⟩ := inText
  rw [editorDeleteChar, if_neg start]
  by_cases below : 0 < editor.cy
  · have rowAbove := @RowsPadded.rowAt _ (editor.cy.toNat - 1) padded (by omega)
    have rowHere := @RowsPadded.rowAt _ editor.cy.toNat padded (by omega)
    rw [show ((editor.cy.toNat - 1 : Nat) : Int) = editor.cy - 1 by omega] at rowAbove
    rw [Int.toNat_of_nonneg (Int.le_of_lt below)] at rowHere
    have long : ¬ strlen (rowOf editor.buffer (editor.cy.toNat - 1)) +
        strlen (rowOf editor.buffer editor.cy.toNat) < editorCols - 1 :=
      fun fits => apart ⟨by omega, below, fits⟩
    rw [if_pos below, rowAbove, rowHere, Option.bind_eq_bind, Option.bind_some,
      Option.bind_eq_bind, Option.bind_some, if_neg long]
  · rw [if_neg below]

theorem erases_of_inLine (inText : InText editor) (inLine : 0 < editor.cx) :
    ErasesOrJoins editor := by
  have shows := inText.row
  have behind : editor.cx.toNat - 1 < strlen (rowOf editor.buffer editor.cy.toNat) := by
    have := inText.right
    omega
  refine ⟨_, editorDeleteChar_erases inText inLine, fun _ => ?_,
    fun atJoin => absurd atJoin.1 (Int.ne_of_gt inLine), fun start => absurd inLine start⟩
  refine ⟨⟨?_, fun col inRow => erasedCells_row shows behind inRow⟩,
    fun z _ other => erasedCells_other behind shows.ends other, rfl⟩
  rw [strlen_eraseIdx behind]
  exact Nat.lt_of_le_of_lt (Nat.sub_le _ 1) shows.ends

/-- What the lines and the rows below them become at a join. -/
theorem joinedCells_joinsLines {y : Nat} (inText : InText editor)
    (here : editor.cy.toNat = y + 1)
    (short : strlen (rowOf editor.buffer y) + strlen (rowOf editor.buffer (y + 1)) < editorCols)
    (empty : strlen (rowOf editor.buffer (editorRows - 1)) = 0) :
    JoinsLines editor { editor with
      buffer := joinedCells editor.buffer (rowOf editor.buffer y) (rowOf editor.buffer (y + 1)) y
      cy := editor.cy - 1
      cx := strlen (rowOf editor.buffer y)
      dirty := 1 } := by
  have inside : y + 1 < editorRows := by
    have := inText.bottom
    omega
  have shown : ∀ {z}, z < editorRows → ShowsRow editor.buffer z (rowOf editor.buffer z) :=
    inText.padded.shows
  have above : ∀ z, z < y → SameRow (joinedCells editor.buffer (rowOf editor.buffer y)
      (rowOf editor.buffer (y + 1)) y) editor.buffer z :=
    fun z isAbove => joinedCells_above short isAbove
  have joined := joinedCells_joined (shown (Nat.lt_of_succ_lt inside)) short
  have below : ∀ z, y < z → z + 1 < editorRows →
      ShowsRow (joinedCells editor.buffer (rowOf editor.buffer y)
        (rowOf editor.buffer (y + 1)) y) z (rowOf editor.buffer (z + 1)) :=
    fun z isBelow inner => (shown inner).copy fun col inRow =>
      joinedCells_below short isBelow inner inRow
  have last := (shown (show editorRows - 1 < editorRows by decide)).copy
    (joinedCells_last short inside)
  have lastNil : rowOf editor.buffer (editorRows - 1) = CString.nil :=
    CString.ext (List.length_eq_zero_iff.mp empty)
  rw [lastNil] at last
  have text := joinedCells_text inside
    (fun z isAbove => ((shown (by omega)).copy (above z isAbove)).rowOf (by omega))
    (joined.rowOf (by omega))
    (fun z isBelow inner => (below z isBelow inner).rowOf (by omega))
    (last.rowOf (by decide))
  constructor
  · exact fun z isAbove => above z (by omega)
  · rw [here]
    exact joined
  · exact fun z isBelow inner => below z (by omega) inner
  · exact last
  · rw [here]
    rfl
  · exact text

/-- A join keeps the text exactly when the last row is empty. -/
theorem joins_iff (inText : InText editor) (atJoin : AtJoin editor) :
    ErasesOrJoins editor ↔ strlen (rowOf editor.buffer (editorRows - 1)) = 0 := by
  have ⟨start, below, fits⟩ := atJoin
  have bottom := inText.bottom
  have done := editorDeleteChar_joins inText atJoin
  obtain ⟨y, here⟩ : ∃ y, editor.cy.toNat = y + 1 := ⟨editor.cy.toNat - 1, by omega⟩
  rw [here, Nat.add_sub_cancel] at done fits
  have short : strlen (rowOf editor.buffer y) + strlen (rowOf editor.buffer (y + 1)) <
      editorCols := by omega
  constructor
  · rintro ⟨after, moved, _, joins, _⟩
    have same := congrArg EditorState.buffer (Option.some.inj (done.symm.trans moved))
    have empty := (joins atJoin).last
    have kept := (inText.padded.shows (show editorRows - 1 < editorRows by decide)).copy
      (@joinedCells_last editor.buffer _ _ y short (by omega))
    rw [← same] at empty
    rw [← kept.rowOf (by decide), empty.rowOf (by decide)]
    rfl
  · intro empty
    exact ⟨_, done, fun inLine => absurd atJoin.1 (Int.ne_of_gt inLine),
      fun _ => joinedCells_joinsLines inText here short empty, fun _ apart => absurd atJoin apart⟩

/-- A character is erased, lines are joined or nothing happens, exactly when no lines
are joined above text in the last row. -/
theorem erasesOrJoins_iff (inText : InText editor) :
    ErasesOrJoins editor ↔
      (AtJoin editor → strlen (rowOf editor.buffer (editorRows - 1)) = 0) := by
  by_cases atJoin : AtJoin editor
  · rw [joins_iff inText atJoin]
    exact ⟨fun empty _ => empty, fun empty => empty atJoin⟩
  · refine ⟨fun _ join => absurd join atJoin, fun _ => ?_⟩
    by_cases inLine : 0 < editor.cx
    · exact erases_of_inLine inText inLine
    · exact ⟨editor, editorDeleteChar_stays inText inLine atJoin,
        fun inside => absurd inside inLine, fun join => absurd join atJoin, fun _ _ => rfl⟩

end Deleting

/-! ### The last row -/

/-- The second of two rows with one letter each. -/
theorem erasesOrJoins_iff_second : ErasesOrJoins (letterDocument 2 1 0 1) :=
  (erasesOrJoins_iff (letterDocument_inText (by decide) (by decide) (by decide)
    (by decide))).mpr fun _ => by decide +kernel

/-- The last of 24 rows with one letter each is joined and stays. -/
theorem erasesOrJoins_fails : ¬ ∀ editor : EditorState, InText editor → ErasesOrJoins editor := by
  intro always
  have short : 1 < editorCols := by decide
  have inText : InText (letterDocument 24 1 0 23) :=
    letterDocument_inText short (by decide) (by decide) (by decide)
  have rowOfLetter : ∀ y < editorRows, rowOf (letterRows 24 1) y = letters 1 :=
    fun y inDocument => letterRows_row short inDocument inDocument
  have atJoin : AtJoin (letterDocument 24 1 0 23) := by
    refine ⟨rfl, by decide, ?_⟩
    rw [letterDocument, Int.toNat_natCast, rowOfLetter _ (by decide), rowOfLetter _ (by decide),
      strlen_letters]
    decide
  have empty := (erasesOrJoins_iff inText).mp (always _ inText) atJoin
  rw [letterDocument, rowOfLetter _ (by decide), strlen_letters] at empty
  exact Nat.one_ne_zero empty

end BrainDance.App.Cable
