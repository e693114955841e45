import Mathlib.Data.List.Induction
import BrainDance.App.Cable.Rows

/-!
Owns the files that the editor keeps as they are: lines that are not empty and fit
the document's rows, each with its newline but for a 24th. Such a file is loaded line
by line under each other, and saving the rows puts the same bytes together again.
-/

namespace BrainDance.App.Cable

open BrainDance.Foundation
open BrainDance.Libc
open BrainDance.Fs.Bdfs

/-! ### Canonical files -/

/-- A line of a canonical file, which has no NUL either. -/
structure IsLine (line : CString) : Prop where
  nonempty : line.bytes ≠ []
  short : strlen line ≤ 79
  noFeed : lineFeed ∉ line.bytes

/-- Line `y` with its newline, which the 24th does not have. -/
def lineBytes (y : Nat) (line : CString) : List Byte :=
  if y < editorRows - 1 then line.bytes ++ [lineFeed] else line.bytes

def linesFile (lines : List CString) : List Byte :=
  lines.zipIdx.flatMap fun numbered => lineBytes numbered.2 numbered.1

def IsCanonical (content : List Byte) : Prop :=
  ∃ lines, lines.length ≤ editorRows ∧ (∀ line ∈ lines, IsLine line) ∧ content = linesFile lines

/-- What is loaded is a document with the cursor at the end of one of its rows, and
is saved as the content it was loaded from. -/
structure Reproduces (content : List Byte) (loaded : LoadState) : Prop where
  saved : ∀ stack, ∃ saved, assembleFile stack loaded.buffer = some saved ∧
    slice saved.bytes 0 saved.len = content
  terminated : RowsTerminated loaded.buffer
  row : loaded.row < editorRows
  col : loaded.col = strlen (rowOf loaded.buffer loaded.row)

section Canonical

variable {lines : List CString}

theorem linesFile_concat (lines : List CString) (line : CString) :
    linesFile (lines ++ [line]) = linesFile lines ++ lineBytes lines.length line := by
  simp [linesFile, List.zipIdx_append]

/-! ### Loading -/

/-- Lines with their newlines leave the cursor at the start of the row below. -/
theorem loadFile_linesFile (areLines : ∀ line ∈ lines, IsLine line)
    (inner : lines.length ≤ editorRows - 1) :
    loadFile (linesFile lines) ⟨fun _ => 0, 0, 0⟩ = ⟨layout lines, lines.length, 0⟩ := by
  have rows : editorRows = 24 := rfl
  induction lines using List.reverseRecOn with
  | nil => rfl
  | append_singleton lines line inductionHypothesis =>
      rw [List.length_append, List.length_singleton] at inner
      have last := areLines line (by simp)
      have earlier := inductionHypothesis (fun other member => areLines other (by simp [member]))
        (by omega)
      have above : lines.length < editorRows := by omega
      rw [linesFile_concat, loadFile_append, earlier, lineBytes, if_pos (by omega),
        loadFile_append, loadFile_line last.short last.noFeed above, loadFile, if_pos above,
        loadByte, if_pos rfl, loadFile, List.length_append]
      rfl

/-- The loaded document: the lines as rows, and the cursor at the end of the 24th or at
the start of an empty row. -/
theorem loadFile_canonical (areLines : ∀ line ∈ lines, IsLine line)
    (within : lines.length ≤ editorRows) :
    ∃ y < editorRows, loadFile (linesFile lines) ⟨fun _ => 0, 0, 0⟩ =
      ⟨layout lines, y, strlen (lines.getD y CString.nil)⟩ := by
  have rows : editorRows = 24 := rfl
  by_cases inner : lines.length ≤ editorRows - 1
  · refine ⟨lines.length, by omega, ?_⟩
    rw [loadFile_linesFile areLines inner, List.getD_eq_default _ _ le_rfl]
    rfl
  · obtain ⟨lines, line, rfl⟩ := List.eq_nil_or_concat' lines |>.resolve_left
      fun empty => inner (by rw [empty]; exact Nat.zero_le _)
    rw [List.length_append, List.length_singleton] at inner within
    have last := areLines line (by simp)
    have earlier := loadFile_linesFile (fun other member => areLines other (by simp [member]))
      (show lines.length ≤ editorRows - 1 by omega)
    refine ⟨lines.length, by omega, ?_⟩
    rw [linesFile_concat, loadFile_append, earlier, lineBytes, if_neg (by omega),
      loadFile_line last.short last.noFeed (by omega),
      List.getD_append_right _ _ _ _ le_rfl, Nat.sub_self]
    rfl

/-! ### Saving -/

theorem IsLine.ends {line : CString} (isLine : IsLine line) : strlen line < editorCols :=
  Nat.lt_of_le_of_lt isLine.short (by decide)

/-- The rows of the loaded document, also in a buffer that is cleared only where the
document is. -/
theorem showsRow_of_layout {buffer : Image} (areLines : ∀ line ∈ lines, IsLine line)
    (same : ∀ offset < editorRows * editorCols, buffer offset = layout lines offset) {y : Nat}
    (inDocument : y < editorRows) : ShowsRow buffer y (lines.getD y CString.nil) := by
  have width : editorCols = 80 := rfl
  constructor
  · by_cases isText : y < lines.length
    · rw [List.getD_eq_getElem _ _ isText]
      exact (areLines _ (List.getElem_mem isText)).ends
    · rw [List.getD_eq_default _ _ (Nat.le_of_not_lt isText)]
      decide
  · intro col inRow
    rw [same _ (by rw [width] at inRow ⊢; omega), layout_at _ inRow]

/-- The rows make up the file again. -/
theorem fileBytes_eq_linesFile {buffer : Image} (areLines : ∀ line ∈ lines, IsLine line)
    (shows : ∀ y < editorRows, ShowsRow buffer y (lines.getD y CString.nil)) {count : Nat}
    (within : count ≤ editorRows) : fileBytes buffer count = linesFile (lines.take count) := by
  induction count with
  | zero => rfl
  | succ count inductionHypothesis =>
      rw [fileBytes, inductionHypothesis (Nat.le_of_succ_le within),
        (shows count within).rowOf within]
      by_cases isText : count < lines.length
      · rw [List.getD_eq_getElem _ _ isText, List.take_succ_eq_append_getElem isText,
          linesFile_concat, List.length_take, Nat.min_eq_left (Nat.le_of_lt isText), rowBytes,
          if_neg (areLines _ (List.getElem_mem isText)).nonempty]
        rfl
      · have all := Nat.le_of_not_lt isText
        rw [List.getD_eq_default _ _ all, List.take_of_length_le all,
          List.take_of_length_le (Nat.le_succ_of_le all)]
        exact List.append_nil _

/-- A canonical file fits the document. -/
theorem linesFile_length (areLines : ∀ line ∈ lines, IsLine line) :
    (linesFile lines).length ≤ lines.length * editorCols := by
  have width : editorCols = 80 := rfl
  induction lines using List.reverseRecOn with
  | nil => exact Nat.zero_le _
  | append_singleton lines line inductionHypothesis =>
      have earlier := inductionHypothesis fun other member => areLines other (by simp [member])
      have short := (areLines line (by simp)).short
      rw [strlen] at short
      have last : (lineBytes lines.length line).length ≤ editorCols := by
        unfold lineBytes
        split
        · rw [List.length_append, List.length_singleton]
          omega
        · omega
      rw [linesFile_concat, List.length_append, List.length_append, List.length_singleton,
        Nat.succ_mul]
      omega

/-- Loading a canonical file into a cleared document gives a document that is saved as
the same file. -/
theorem reproduces_linesFile {cleared : Image} (areLines : ∀ line ∈ lines, IsLine line)
    (within : lines.length ≤ editorRows)
    (zero : ∀ offset < editorRows * editorCols, cleared offset = 0) :
    Reproduces (linesFile lines) (loadFile (linesFile lines) ⟨cleared, 0, 0⟩) := by
  obtain ⟨y, inDocument, loaded⟩ := loadFile_canonical areLines within
  obtain ⟨row, col, same⟩ := loadFile_congr zero (linesFile lines) 0 0
  rw [loaded] at row col same
  generalize loadFile (linesFile lines) ⟨cleared, 0, 0⟩ = state at *
  have shows : ∀ y < editorRows, ShowsRow state.buffer y (lines.getD y CString.nil) :=
    fun _ below => showsRow_of_layout areLines same below
  have terminated : RowsTerminated state.buffer := fun y below =>
    ⟨_, (shows y below).rowString below, Nat.le_of_lt_succ (shows y below).ends⟩
  refine ⟨fun stack => ?_, terminated, ?_, ?_⟩
  · obtain ⟨saved, assembled, len, shown⟩ := saveRows_has stack terminated.rowsEnd
      (terminated.fileBytes_length le_rfl)
    refine ⟨saved, assembled, ?_⟩
    rw [len, shown, fileBytes_eq_linesFile areLines shows le_rfl, List.take_of_length_le within]
  · rw [row]
    exact inDocument
  · rw [col, row, (shows y inDocument).rowOf inDocument]

end Canonical

/-- Loading a canonical file and saving it again gives the same bytes, and the cursor
is at the end of a row. `editor_init` does so when it reads such a file. -/
theorem canonical_reproduced {content : List Byte} (canonical : IsCanonical content)
    (filename : CString) (previous : EditorState) :
    Reproduces content
      (loadFile content ⟨memset previous.buffer 0 0 (editorRows * editorCols), 0, 0⟩) ∧
    ∀ fs bytesRead, bdfsReadFile fs filename = some (.ok (bytesRead, content)) →
      ∃ editor row col, editorInit filename fs previous = some editor ∧
        editor.cy = (row : Nat) ∧ editor.cx = (col : Nat) ∧
          Reproduces content ⟨editor.buffer, row, col⟩ := by
  obtain ⟨lines, within, areLines, rfl⟩ := canonical
  have cleared : ∀ offset < editorRows * editorCols,
      memset previous.buffer 0 0 (editorRows * editorCols) offset = 0 := by
    intro offset inside
    rw [memset_eq_fill, fill, if_pos ⟨Nat.zero_le _, by omega⟩]
  have reproduces := reproduces_linesFile areLines within cleared
  refine ⟨reproduces, fun fs bytesRead read => ?_⟩
  have short : (linesFile lines).length ≤ editorRows * editorCols :=
    (linesFile_length areLines).trans (Nat.mul_le_mul_right _ within)
  unfold editorInit
  rw [read]
  dsimp only
  rw [if_pos short]
  exact ⟨_, _, _, rfl, rfl, rfl, reproduces⟩

/-- Two lines, the first with a space in it. -/
def twoLines : List CString := [literal ['a', ' ', 'b'], literal ['c']]

theorem twoLines_canonical : IsCanonical (linesFile twoLines) := by
  refine ⟨twoLines, by decide, ?_, rfl⟩
  rw [twoLines, List.forall_mem_cons]
  refine ⟨⟨by decide, by decide, by decide⟩, ?_⟩
  rw [List.forall_mem_singleton]
  exact ⟨by decide, by decide, by decide⟩

/-- After a session on another document. -/
theorem canonical_reproduced_twoLines :
    Reproduces (linesFile twoLines) (loadFile (linesFile twoLines)
      ⟨memset (letterDocument 3 5 0 2).buffer 0 0 (editorRows * editorCols), 0, 0⟩) ∧
    ∀ fs bytesRead,
      bdfsReadFile fs (literal ['f']) = some (.ok (bytesRead, linesFile twoLines)) →
        ∃ editor row col,
          editorInit (literal ['f']) fs (letterDocument 3 5 0 2) = some editor ∧
            editor.cy = (row : Nat) ∧ editor.cx = (col : Nat) ∧
              Reproduces (linesFile twoLines) ⟨editor.buffer, row, col⟩ :=
  canonical_reproduced twoLines_canonical _ _

end BrainDance.App.Cable
