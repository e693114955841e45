import Mathlib.Data.List.GetD
import BrainDance.App.Cable.Model

/-!
Owns what `editor_save_file` assembles from the document and what the loop of
`editor_init` makes of it again. Each row of the file is a string of the
document that is not empty; loading puts these strings one under the other. So
a document comes back exactly when no empty row has text below it.
-/

namespace BrainDance.App.Cable

open BrainDance.Foundation
open BrainDance.Libc

/-! ### The bytes of the file -/

/-- Row `y` of the document, empty if its string does not end. -/
def rowOf (buffer : Image) (y : Nat) : CString := (rowString buffer y).getD CString.nil

/-- What a row adds to the file: nothing if it is empty, and its newline unless
it is the last. -/
def rowBytes (y : Nat) (row : CString) : List Byte :=
  if row.bytes = [] then []
  else if y < editorRows - 1 then row.bytes ++ [lineFeed]
  else row.bytes

/-- The bytes of the first `count` rows. -/
def fileBytes (buffer : Image) : Nat → List Byte
  | 0 => []
  | count + 1 => fileBytes buffer count ++ rowBytes count (rowOf buffer count)

/-- The rows' strings end inside the array. -/
def RowsEnd (buffer : Image) (count : Nat) : Prop := ∀ y < count, rowString buffer y ≠ none

/-- The rows are NUL-terminated with at most 79 characters. -/
def RowsTerminated (buffer : Image) : Prop :=
  ∀ y < editorRows, ∃ row, rowString buffer y = some row ∧ strlen row ≤ 79

/-- The file's bytes fit `save_buffer`. -/
def FitsSaveBuffer (buffer : Image) : Prop :=
  (fileBytes buffer editorRows).length ≤ editorRows * editorCols

section Saving

variable {buffer : Image} {saved : SaveBuffer}

/-- `save_buffer` starts with the bytes and `len` counts them. -/
def SaveBuffer.Has (saved : SaveBuffer) (bytes : List Byte) : Prop :=
  saved.len = bytes.length ∧ ShowsBytes saved.bytes bytes

theorem SaveBuffer.Has.append {bytes : List Byte} (has : saved.Has bytes) {src : Image}
    {count : Nat} (fits : bytes.length + count ≤ editorRows * editorCols) :
    ∃ after, saved.append src count = some after ∧ after.Has (bytes ++ slice src 0 count) := by
  obtain ⟨len, shows⟩ := has
  rw [SaveBuffer.append, len, if_pos fits]
  refine ⟨_, rfl, ?_, showsBytes_memcpy shows src count⟩
  rw [List.length_append, slice_length]

theorem append_fits {after : SaveBuffer} {src : Image} {count : Nat}
    (appended : saved.append src count = some after) :
    after.len ≤ editorRows * editorCols := by
  unfold SaveBuffer.append at appended
  split at appended
  · obtain rfl := Option.some.inj appended
    assumption
  · contradiction

theorem rowOf_of_some {y : Nat} {row : CString} (found : rowString buffer y = some row) :
    rowOf buffer y = row := by
  rw [rowOf, found, Option.getD_some]

/-- A row's bytes stand at its place in the buffer. -/
theorem slice_row {y : Nat} {row : CString} (found : rowString buffer y = some row) :
    slice (fun offset => buffer (y * editorCols + offset)) 0 (strlen row) = row.bytes := by
  have shown := scanString_shown found
  refine showsBytes_iff.mpr fun offset inside => ?_
  rw [shown offset (Nat.le_of_lt inside), row.image_of_lt inside]

theorem saveRow_has {y : Nat} {bytes : List Byte} (has : saved.Has bytes)
    (ends : rowString buffer y ≠ none)
    (fits : (bytes ++ rowBytes y (rowOf buffer y)).length ≤ editorRows * editorCols) :
    ∃ after, saveRow buffer y saved = some after ∧
      after.Has (bytes ++ rowBytes y (rowOf buffer y)) := by
  obtain ⟨row, found⟩ := Option.ne_none_iff_exists'.mp ends
  rw [rowOf_of_some found] at fits ⊢
  rw [saveRow, found, Option.bind_eq_bind, Option.bind_some]
  rw [List.length_append] at fits
  unfold rowBytes at fits ⊢
  by_cases empty : row.bytes = []
  · rw [if_pos empty, List.append_nil, if_neg (by rw [strlen, empty]; exact Nat.lt_irrefl 0)]
    exact ⟨saved, rfl, has⟩
  · have positive : strlen row > 0 := List.length_pos_iff.mpr empty
    rw [if_neg empty] at fits ⊢
    rw [if_pos positive]
    by_cases inner : y < editorRows - 1
    · rw [if_pos inner, List.length_append, List.length_singleton] at fits
      obtain ⟨withRow, first, hasRow⟩ := has.append
        (show bytes.length + strlen row ≤ _ by rw [strlen]; omega)
      rw [slice_row found] at hasRow
      obtain ⟨after, second, hasAll⟩ := hasRow.append
        (show (bytes ++ row.bytes).length + 1 ≤ _ by rw [List.length_append]; omega)
      refine ⟨after, ?_, ?_⟩
      · rw [first, Option.bind_eq_bind, Option.bind_some, if_pos inner, second]
      · rw [if_pos inner, ← List.append_assoc]
        exact hasAll
    · rw [if_neg inner] at fits
      obtain ⟨withRow, first, hasRow⟩ := has.append
        (show bytes.length + strlen row ≤ _ by rw [strlen]; omega)
      rw [slice_row found] at hasRow
      refine ⟨withRow, ?_, ?_⟩
      · rw [first, Option.bind_eq_bind, Option.bind_some, if_neg inner]
      · rw [if_neg inner]
        exact hasRow

theorem RowsTerminated.rowsEnd (terminated : RowsTerminated buffer) :
    RowsEnd buffer editorRows := by
  intro y inDocument
  obtain ⟨row, found, _⟩ := terminated y inDocument
  rw [found]
  exact Option.some_ne_none row

/-- A row and its newline are no longer than a row of the buffer. -/
theorem RowsTerminated.fileBytes_length (terminated : RowsTerminated buffer) {count : Nat}
    (within : count ≤ editorRows) : (fileBytes buffer count).length ≤ count * editorCols := by
  have width : editorCols = 80 := rfl
  induction count with
  | zero => exact Nat.zero_le _
  | succ count inductionHypothesis =>
      obtain ⟨row, found, short⟩ := terminated count within
      have earlier := inductionHypothesis (Nat.le_of_succ_le within)
      rw [strlen] at short
      have last : (rowBytes count row).length ≤ 80 := by
        unfold rowBytes
        split
        · exact Nat.zero_le _
        · split
          · rw [List.length_append, List.length_singleton]
            omega
          · omega
      rw [fileBytes, rowOf_of_some found, List.length_append, Nat.succ_mul]
      omega

theorem fileBytes_length_mono (buffer : Image) (count : Nat) :
    (fileBytes buffer count).length ≤ (fileBytes buffer (count + 1)).length := by
  rw [fileBytes, List.length_append]
  exact Nat.le_add_right _ _

theorem saveRows_has {count : Nat} (stack : Image) (ends : RowsEnd buffer count)
    (fits : (fileBytes buffer count).length ≤ editorRows * editorCols) :
    ∃ saved, saveRows buffer count ⟨stack, 0⟩ = some saved ∧ saved.Has (fileBytes buffer count) := by
  induction count with
  | zero => exact ⟨⟨stack, 0⟩, rfl, rfl, rfl⟩
  | succ count inductionHypothesis =>
      obtain ⟨middle, earlier, has⟩ := inductionHypothesis
        (fun y inRange => ends y (Nat.lt_succ_of_lt inRange))
        ((fileBytes_length_mono buffer count).trans fits)
      obtain ⟨after, last, hasAll⟩ := saveRow_has has (ends count (Nat.lt_succ_self count)) fits
      exact ⟨after, Option.bind_eq_some_iff.mpr ⟨middle, earlier, last⟩, hasAll⟩

/-- A round that returns has found the row's end and the room for it. -/
theorem saveRow_cases {y : Nat} {bytes : List Byte} {after : SaveBuffer} (has : saved.Has bytes)
    (fits : bytes.length ≤ editorRows * editorCols)
    (done : saveRow buffer y saved = some after) :
    rowString buffer y ≠ none ∧
      (bytes ++ rowBytes y (rowOf buffer y)).length ≤ editorRows * editorCols := by
  obtain ⟨row, found, done⟩ := Option.bind_eq_some_iff.mp done
  refine ⟨by rw [found]; exact Option.some_ne_none row, ?_⟩
  rw [rowOf_of_some found, List.length_append]
  unfold rowBytes
  split
  · rename_i empty
    exact fits
  · rename_i nonempty
    have positive : strlen row > 0 := List.length_pos_iff.mpr nonempty
    rw [if_pos positive] at done
    obtain ⟨withRow, first, second⟩ := Option.bind_eq_some_iff.mp done
    have rowLen : withRow.len = bytes.length + row.bytes.length := by
      rw [SaveBuffer.append] at first
      split at first
      · rw [← Option.some.inj first, has.1, strlen]
      · contradiction
    have rowFits := append_fits first
    split
    · rename_i inner
      rw [if_pos inner, SaveBuffer.append] at second
      split at second
      · rw [List.length_append, List.length_singleton]
        omega
      · contradiction
    · omega

theorem saveRows_cases {count : Nat} {stack : Image}
    (done : saveRows buffer count ⟨stack, 0⟩ = some saved) :
    RowsEnd buffer count ∧ (fileBytes buffer count).length ≤ editorRows * editorCols := by
  induction count generalizing saved with
  | zero => exact ⟨fun _ none => absurd none (Nat.not_lt_zero _), Nat.zero_le _⟩
  | succ count inductionHypothesis =>
      obtain ⟨middle, earlier, last⟩ := Option.bind_eq_some_iff.mp done
      obtain ⟨ends, fits⟩ := inductionHypothesis earlier
      obtain ⟨_, same, has⟩ := saveRows_has stack ends fits
      obtain rfl := Option.some.inj (earlier.symm.trans same)
      obtain ⟨endsLast, fitsAll⟩ := saveRow_cases has fits last
      refine ⟨fun y inRange => ?_, fitsAll⟩
      by_cases isLast : y = count
      · exact isLast ▸ endsLast
      · exact ends y (by omega)

/-- The file is assembled exactly when all strings end and their bytes fit. -/
theorem assembleFile_isSome_iff (stack : Image) :
    (∃ saved, assembleFile stack buffer = some saved) ↔
      RowsEnd buffer editorRows ∧ FitsSaveBuffer buffer := by
  constructor
  · rintro ⟨saved, assembled⟩
    exact saveRows_cases assembled
  · rintro ⟨ends, fits⟩
    obtain ⟨saved, assembled, _⟩ := saveRows_has stack ends fits
    exact ⟨saved, assembled⟩

theorem assembleFile_has {stack : Image} (assembled : assembleFile stack buffer = some saved) :
    saved.Has (fileBytes buffer editorRows) := by
  obtain ⟨ends, fits⟩ := saveRows_cases assembled
  obtain ⟨_, same, has⟩ := saveRows_has stack ends fits
  obtain rfl := Option.some.inj (assembled.symm.trans same)
  exact has

end Saving

/-! ### Loading -/

/-- The buffer with these rows on top and zero bytes elsewhere. -/
def layout (rows : List CString) : Image := fun offset =>
  (rows.getD (offset / editorCols) CString.nil).image (offset % editorCols)

theorem cell_row (y : Nat) {col : Nat} (inRow : col < editorCols) :
    (y * editorCols + col) / editorCols = y := by
  have width : editorCols = 80 := rfl
  rw [width] at inRow ⊢
  omega

theorem cell_column (y : Nat) {col : Nat} (inRow : col < editorCols) :
    (y * editorCols + col) % editorCols = col := by
  have width : editorCols = 80 := rfl
  rw [width] at inRow ⊢
  omega

theorem layout_at (rows : List CString) {y col : Nat} (inRow : col < editorCols) :
    layout rows (y * editorCols + col) = (rows.getD y CString.nil).image col := by
  rw [layout, cell_row y inRow, cell_column y inRow]

section Loading

theorem loadFile_append (left right : List Byte) (state : LoadState) :
    loadFile (left ++ right) state = loadFile right (loadFile left state) := by
  induction left generalizing state with
  | nil => rfl
  | cons byte left inductionHypothesis =>
      rw [List.cons_append, loadFile, loadFile]
      split
      · exact inductionHypothesis _
      · rename_i full
        cases right with
        | nil => rfl
        | cons byte right => rw [loadFile, if_neg full]

/-- Characters of a row are put behind the ones in place. -/
theorem loadFile_chars {chars : List Byte} (noFeed : lineFeed ∉ chars) {buffer : Image}
    {row col : Nat} (inDocument : row < editorRows) (inRow : col + chars.length ≤ 79) :
    loadFile chars ⟨buffer, row, col⟩ =
      ⟨blit buffer (row * editorCols + col) (fun offset => chars.getD offset 0) chars.length, row,
        col + chars.length⟩ := by
  induction chars generalizing buffer col with
  | nil =>
      rw [loadFile]
      congr 1
      funext offset
      exact (blit_outside _ _ (by rw [List.length_nil]; omega)).symm
  | cons char chars inductionHypothesis =>
      rw [List.length_cons] at inRow
      have notFeed : char ≠ lineFeed := fun same => noFeed (same ▸ List.mem_cons_self)
      have room : col < editorCols - 1 := by
        have width : editorCols = 80 := rfl
        omega
      rw [loadFile, if_pos inDocument, loadByte, if_neg notFeed, if_pos room,
        inductionHypothesis (fun member => noFeed (List.mem_cons_of_mem char member))
          (show col + 1 + chars.length ≤ 79 by omega)]
      simp only [LoadState.mk.injEq, true_and]
      refine ⟨?_, by rw [List.length_cons]; omega⟩
      funext offset
      unfold blit
      by_cases first : offset = row * editorCols + col
      · subst first
        rw [if_neg (by omega), Function.update_self, if_pos (by rw [List.length_cons]; omega),
          Nat.sub_self]
        rfl
      · rw [Function.update_of_ne first, List.length_cons]
        by_cases later : row * editorCols + (col + 1) ≤ offset ∧
            offset < row * editorCols + (col + 1) + chars.length
        · obtain ⟨steps, rfl⟩ := Nat.exists_eq_add_of_le later.1
          rw [if_pos later, if_pos (by omega), Nat.add_sub_cancel_left,
            show row * editorCols + (col + 1) + steps - (row * editorCols + col) = steps + 1 by omega]
          rfl
        · rw [if_neg later, if_neg (by omega)]

/-- A row below the others is its characters in a row of zero bytes. -/
theorem layout_append_row {rows : List CString} {row : CString} (short : strlen row ≤ 79) :
    blit (layout rows) (rows.length * editorCols) row.image (strlen row) =
      layout (rows ++ [row]) := by
  have width : editorCols = 80 := rfl
  rw [strlen] at *
  funext offset
  by_cases above : offset / editorCols < rows.length
  · rw [blit_outside _ _ (Or.inl (by rw [width] at above ⊢; omega)), layout, layout,
      List.getD_append _ _ _ _ above]
  · have outside : layout rows offset = 0 := by
      rw [layout, List.getD_eq_default _ _ (Nat.le_of_not_lt above)]
      rfl
    by_cases here : offset / editorCols = rows.length
    · have row' : layout (rows ++ [row]) offset = row.image (offset % editorCols) := by
        rw [layout, here, List.getD_append_right _ _ _ _ le_rfl, Nat.sub_self,
          List.getD_cons_zero]
      have place : offset = rows.length * editorCols + offset % editorCols := by
        rw [width] at here ⊢
        omega
      rw [row']
      by_cases inString : offset % editorCols < row.bytes.length
      · rw [blit_inside _ _ (by rw [width] at *; omega)]
        congr 1
        omega
      · rw [blit_outside _ _ (Or.inr (by omega)), outside, CString.image,
          List.getD_eq_default _ _ (Nat.le_of_not_lt inString)]
    · rw [blit_outside _ _ (Or.inr (by rw [width] at *; omega)), outside, layout,
        List.getD_eq_default]
      · rfl
      · rw [List.length_append, List.length_singleton]
        omega

/-- A line is loaded under the rows in place. -/
theorem loadFile_line {rows : List CString} {line : CString} (short : strlen line ≤ 79)
    (noFeed : lineFeed ∉ line.bytes) (above : rows.length < editorRows) :
    loadFile line.bytes ⟨layout rows, rows.length, 0⟩ =
      ⟨layout (rows ++ [line]), rows.length, strlen line⟩ := by
  rw [loadFile_chars noFeed above (by rw [strlen] at short; omega), Nat.add_zero, Nat.zero_add,
    ← layout_append_row short]
  rfl

/-- What is loaded into one part of a buffer depends on that part only. -/
theorem loadFile_congr {left right : Image} {size : Nat}
    (same : ∀ offset < size, left offset = right offset) (content : List Byte) (row col : Nat) :
    (loadFile content ⟨left, row, col⟩).row = (loadFile content ⟨right, row, col⟩).row ∧
    (loadFile content ⟨left, row, col⟩).col = (loadFile content ⟨right, row, col⟩).col ∧
    ∀ offset < size, (loadFile content ⟨left, row, col⟩).buffer offset =
      (loadFile content ⟨right, row, col⟩).buffer offset := by
  induction content generalizing left right row col with
  | nil => exact ⟨rfl, rfl, same⟩
  | cons byte content inductionHypothesis =>
      rw [loadFile, loadFile]
      dsimp only
      split
      · rw [loadByte, loadByte]
        dsimp only
        split
        · exact inductionHypothesis same _ _
        · split
          · refine inductionHypothesis (fun offset inside => ?_) _ _
            by_cases here : offset = row * editorCols + col
            · rw [here, Function.update_self, Function.update_self]
            · rw [Function.update_of_ne here, Function.update_of_ne here, same offset inside]
          · exact inductionHypothesis same _ _
      · exact ⟨rfl, rfl, same⟩

end Loading

end BrainDance.App.Cable
