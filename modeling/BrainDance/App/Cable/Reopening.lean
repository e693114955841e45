import BrainDance.App.Cable.RoundTrip
import BrainDance.App.Cable.Session

/-!
Owns a session from one opening of a file to the next: what is typed and saved is there
when the file is opened again, unless an empty line has text below it or the write does
not land.
-/

namespace BrainDance.App.Cable

open BrainDance.Foundation
open BrainDance.Libc
open BrainDance.Exec
open BrainDance.Fs.Bdfs
open BrainDance.Drivers

/-! ### Texts that files can hold -/

/-- No line has a newline or a NUL in it. -/
def PlainLines (lines : Nat → List Byte) : Prop := ∀ y, ∀ c ∈ lines y, c ≠ 0 ∧ c ≠ lineFeed

/-- No empty line has text below it. -/
def Gapless (lines : Nat → List Byte) : Prop := ∀ y z, y < z → lines z ≠ [] → lines y ≠ []

theorem charEdit_insert {c typed : Byte} (meant : charEdit c = some (.insert typed)) :
    typed ≠ 0 ∧ typed ≠ lineFeed := by
  unfold charEdit at meant
  split at meant
  · cases meant
  · split at meant
    · cases meant
    · split at meant
      · cases meant
      · split at meant
        · rename_i notNul notFeed _ _
          cases meant
          exact ⟨notNul, notFeed⟩
        · cases meant

theorem keyEdit_insert {event : KeyEvent} {typed : Byte}
    (meant : keyEdit event = some (.insert typed)) : typed ≠ 0 ∧ typed ≠ lineFeed := by
  unfold keyEdit at meant
  split at meant
  · cases meant
  · split at meant
    · cases meant
    · split at meant
      · cases meant
      · split at meant
        · cases meant
        · exact charEdit_insert meant

/-- No key puts a newline or a NUL into a line. -/
theorem PlainLines.step {path : CString} {session next : TextSession} {event : KeyEvent}
    (plain : PlainLines session.text.lines) (step : (lineEditor path).Step session event next) :
    PlainLines next.text.lines := by
  simp only [lineEditor] at step
  split at step
  · rw [step]
    exact plain
  · split at step
    · rw [step.2.1]
      exact plain
    · split at step
      · exact step.elim
      · obtain ⟨_, step⟩ := step
        split at step
        · rw [step.1]
          exact plain
        · rename_i edit meant
          intro y c member
          rcases TextBuffer.mem_edit step.1 member with rfl | ⟨z, old⟩
          · exact keyEdit_insert meant
          · exact plain z c old

theorem PlainLines.run {path : CString} {session last : TextSession} {events : List KeyEvent}
    (plain : PlainLines session.text.lines) (run : (lineEditor path).Run session events last) :
    PlainLines last.text.lines := by
  induction run with
  | nil => exact plain
  | cons step _ inductionHypothesis => exact inductionHypothesis (plain.step step)

/-! ### Loading what was saved -/

section Loading

variable {editor : EditorState} {text : TextBuffer Byte}

theorem ShowsText.isDocument (shows : ShowsText editor text) (plain : PlainLines text.lines) :
    IsDocument editor.buffer := fun y inDocument => by
  obtain ⟨showsRow, bytes⟩ := shows.rowOf inDocument
  exact ⟨_, Nat.le_of_lt_succ showsRow.ends, fun feed => (plain y _ (bytes ▸ feed)).2 rfl,
    showsRow.shows⟩

theorem ShowsText.noGap (shows : ShowsText editor text) (plain : PlainLines text.lines)
    (gapless : Gapless text.lines) : NoGap editor.buffer := by
  intro y z above inDocument written
  have document := shows.isDocument plain
  have lower := (document.row_eq_nil_iff inDocument).not.mpr written
  have upper := (@IsDocument.row_eq_nil_iff _ document y (Nat.lt_trans above inDocument)).not
  rw [(shows.rowOf inDocument).2] at lower
  rw [(shows.rowOf (Nat.lt_trans above inDocument)).2] at upper
  exact upper.mp (gapless y z above lower)

/-- The file of a document without gaps is loaded into the same rows, whatever the cleared array
holds behind the document, and the cursor ends up in the text. -/
theorem loadFile_fileBytes_rows {buffer cleared : Image} (document : IsDocument buffer)
    (noGap : NoGap buffer) (zero : ∀ offset < editorRows * editorCols, cleared offset = 0) :
    (∀ y < editorRows, ShowsRow (loadFile (fileBytes buffer editorRows) ⟨cleared, 0, 0⟩).buffer y
      (rowOf buffer y)) ∧
    (loadFile (fileBytes buffer editorRows) ⟨cleared, 0, 0⟩).row < editorRows ∧
      (loadFile (fileBytes buffer editorRows) ⟨cleared, 0, 0⟩).col ≤
        strlen (rowOf buffer (loadFile (fileBytes buffer editorRows) ⟨cleared, 0, 0⟩).row) := by
  have rows : editorRows = 23 + 1 := rfl
  have width : editorCols = 80 := rfl
  obtain ⟨sameRow, sameCol, same⟩ := loadFile_congr zero (fileBytes buffer editorRows) 0 0
  rw [sameRow, sameCol]
  have inPlace := noGap.inPlace document
  constructor
  · intro y inDocument
    obtain ⟨_, short, _, _⟩ := document.rowString inDocument
    refine ⟨Nat.lt_succ_of_le short, fun col inRow => ?_⟩
    rw [same _ (by rw [width] at inRow ⊢; omega), loaded_layout document, layout_at _ inRow,
      inPlace y inDocument]
  · have below := textRows_length buffer 23
    have above : (textRows buffer 23).length < editorRows := by omega
    have inner := loadFile_fileBytes document (show 23 ≤ editorRows - 1 by decide)
    rw [rows, fileBytes, loadFile_append, inner, rowBytes]
    split
    · exact ⟨above, Nat.zero_le _⟩
    · rename_i written
      rw [if_neg (by decide), loadFile_row document (show 23 < editorRows by decide) above]
      have last := inPlace 23 (by decide)
      have all : (textRows buffer 23).length = 23 := by
        by_contra fewer
        rw [rows, textRows, if_neg written, List.getD_eq_default _ _ (by
          rw [List.length_append, List.length_singleton]; omega)] at last
        exact written (congrArg CString.bytes last).symm
      refine ⟨above, ?_⟩
      dsimp only
      rw [all]

/-- A file with the bytes of a text without gaps is opened as this text. -/
theorem editorInit_textFile {path : CString} {fs : FileSystem} {length : Word}
    (shows : ShowsText editor text) (plain : PlainLines text.lines) (gapless : Gapless text.lines)
    (reads : bdfsReadFile fs path = some (.ok (length, textFile text.lines)))
    (previous : EditorState) :
    ∃ opened row col, editorInit path fs previous = some opened ∧
      ShowsText opened { text with row, col } ∧ opened.dirty = 0 ∧
        opened.filename = strncpy previous.filename path (filenameSize - 1) := by
  have cleared : ∀ offset < editorRows * editorCols,
      memset previous.buffer 0 0 (editorRows * editorCols) offset = 0 := by
    intro offset inside
    rw [memset_eq_fill, fill, if_pos ⟨Nat.zero_le _, by omega⟩]
  obtain ⟨rows, inDocument, inLine⟩ :=
    loadFile_fileBytes_rows (shows.isDocument plain) (shows.noGap plain gapless) cleared
  have short := shows.rowsTerminated.fileBytes_length (Nat.le_refl editorRows)
  rw [shows.fileBytes] at rows inDocument inLine short
  unfold editorInit
  rw [reads]
  dsimp only
  rw [if_pos short]
  refine ⟨_, _, _, rfl, ⟨rfl, rfl, fun y inRange => ?_, ?_⟩, rfl, rfl⟩
  · exact ⟨_, rows y inRange, (shows.rowOf inRange).2⟩
  · refine ⟨inDocument, ?_, shows.valid.fits, shows.valid.below⟩
    rw [shows.strlen inDocument] at inLine
    exact inLine

end Loading

/-! ### From one session to the next -/

/-- A name that is short enough is copied whole. -/
theorem scanString_strncpy (dest : Image) {path : CString} (short : strlen path < filenameSize - 1) :
    scanString (strncpy dest path (filenameSize - 1)) filenameSize 0 = some path := by
  rw [strlen] at short
  refine scanString_of_shown (fun offset inString => ?_) (by omega)
  rw [strncpy, memcpy_eq_blit, blit_inside _ _ (by omega), Nat.zero_add, Nat.sub_zero]

/-- Opening a file with the bytes of a text without gaps starts a session on the text. -/
theorem editorInit_starts {path : CString} {kernel : Kernel} {length : Word} {editor : EditorState}
    {text : TextBuffer Byte} (shows : ShowsText editor text) (plain : PlainLines text.lines)
    (gapless : Gapless text.lines) (short : strlen path < filenameSize - 1)
    (reads : bdfsReadFile kernel.fileSystem path = some (.ok (length, textFile text.lines)))
    (previous : EditorState) :
    ∃ opened row col, editorInit path kernel.fileSystem previous = some opened ∧
      ShowsSession path (opened, kernel) ⟨{ text with row, col }, false, kernel⟩ := by
  obtain ⟨opened, row, col, done, showsOpened, clean, name⟩ :=
    editorInit_textFile shows plain gapless reads previous
  refine ⟨opened, row, col, done, showsOpened, clean, ?_, rfl⟩
  rw [name]
  exact scanString_strncpy previous.filename short

/-- What the keys of a session leave is saved, and the next session on the file starts with
the same lines. -/
theorem edited_document_reopens {Opens : CString → FileSystem → Prop} {path : CString}
    {state : EditorState × Kernel} {session last : TextSession} {events : List KeyEvent}
    (shows : ShowsSession path state session) (plain : PlainLines session.text.lines)
    (run : (lineEditor path).Run session events last) (gapless : Gapless last.text.lines)
    (short : strlen path < filenameSize - 1)
    (fits : FitsBytecode path (BitVec.ofNat 32 (textFile last.text.lines).length))
    (lands : Lands last.kernel.fileSystem path (textFile last.text.lines))
    {final : EditorState × Kernel} (ran : (editing Opens).Run state events final)
    (saveStack bytecodeStack : Image) (previous : EditorState) :
    ∃ saved opened row col,
      editorSaveFile bytecodeSize saveStack bytecodeStack final.1 final.2 = some saved ∧
        editorInit path saved.2.fileSystem previous = some opened ∧
          ShowsSession path (opened, saved.2) ⟨{ last.text with row, col }, false, saved.2⟩ := by
  obtain ⟨showsLast, _, named, kernel⟩ := shows.run run ran
  have inBuffer := showsLast.rowsTerminated.fileBytes_length (Nat.le_refl editorRows)
  rw [showsLast.fileBytes] at inBuffer
  have bytes : ShowsBytes (fun offset => (textFile last.text.lines).getD offset 0)
      (textFile last.text.lines) := showsBytes_iff.mpr fun offset inside => by
    rw [List.getD_eq_getElem _ _ inside]
  obtain ⟨code, fs, written, reads⟩ :=
    (readsBack_iff bytes (Nat.lt_of_le_of_lt inBuffer (by decide))).mpr lands
  have performed : performCall (writeBytes path (textFile last.text.lines)) final.2 =
      some { final.2 with fileSystem := fs } := by
    rw [kernel, writeBytes, performCall, written]
    rfl
  have saved := showsLast.save named fits performed saveStack bytecodeStack
  obtain ⟨opened, row, col, done, showsOpened⟩ := @editorInit_starts path
    { final.2 with fileSystem := fs } _ _ _ showsLast (plain.run run) gapless short reads previous
  exact ⟨_, opened, row, col, saved, done, showsOpened⟩

/-! ### A letter in an empty file -/

def notesKernel : Kernel := { newKernel with fileSystem := notesFileSystem }

theorem letterText_file : textFile letterText.lines = [0x61, lineFeed] := by decide +kernel

theorem letterText_lands : Lands notesFileSystem (literal ['p']) [0x61, lineFeed] :=
  notesFileSystem_lands (by decide)

theorem edited_document_reopens_letter :
    ∃ final saved opened row col,
      (editing fun _ _ => True).Run (emptyEditor, notesKernel) [letterKey] final ∧
        editorSaveFile bytecodeSize (fun _ => 0) (fun _ => 0) final.1 final.2 = some saved ∧
          editorInit (literal ['p']) saved.2.fileSystem emptyEditor = some opened ∧
            ShowsSession (literal ['p']) (opened, saved.2)
              ⟨{ letterText with row, col }, false, saved.2⟩ := by
  obtain ⟨final, ran⟩ := @ShowsSession.runs (fun _ _ => True) _ _ _ _ _
    (emptyEditor_shows notesKernel) (letterKey_typed notesKernel)
  have gapless : Gapless letterText.lines := by
    intro y z above written
    have here : z = 0 := by
      by_contra other
      exact written (Function.update_of_ne other _ _)
    omega
  obtain ⟨saved, opened, row, col, done⟩ := edited_document_reopens
    (emptyEditor_shows notesKernel) (fun _ _ member => absurd member List.not_mem_nil)
    (letterKey_typed notesKernel) gapless (by decide)
    (by rw [letterText_file, FitsBytecode]; decide)
    (by rw [letterText_file]; exact letterText_lands) ran (fun _ => 0) (fun _ => 0) emptyEditor
  exact ⟨final, saved, opened, row, col, ran, done⟩

end BrainDance.App.Cable
