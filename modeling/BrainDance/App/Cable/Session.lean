import BrainDance.App.Cable.Canonical
import BrainDance.App.Cable.CursorRow
import BrainDance.App.Cable.Delete
import BrainDance.App.Cable.Insert
import BrainDance.App.Cable.Save
import BrainDance.Foundation.TextBuffer

/-!
Owns whole sessions of the editor. As long as no key asks for an edit that the editor of
lines has no result for, the array, the cursor and `dirty` follow the editor of lines, and
every save is one write of the lines' file.
-/

namespace BrainDance.App.Cable

open BrainDance.Foundation
open BrainDance.Libc
open BrainDance.Exec
open BrainDance.Fs.Bdfs
open BrainDance.Drivers

/-! ### Sessions of the editor of lines -/

/-- The longest line: `EDITOR_COLS` less one for the terminator. -/
abbrev lineRoom : Nat := editorCols - 1

/-- The row below which the down key does not go. -/
abbrev lowestRow : Nat := editorRows - 2

/-- What the `switch` makes of a character. -/
def charEdit (c : Byte) : Option (Edit Byte) :=
  if c = 0 then none
  else if c = lineFeed then some .newline
  else if c = backspace then some .erase
  else if 32 ≤ c.toNat ∧ c.toNat ≤ 126 then some (.insert c)
  else none

def keyEdit (event : KeyEvent) : Option (Edit Byte) :=
  if event.scancode = 0x48 then some .up
  else if event.scancode = 0x50 then some .down
  else if event.scancode = 0x4B then some .left
  else if event.scancode = 0x4D then some .right
  else charEdit event.char

/-- What a line adds to the file. -/
def lineFile (y : Nat) (line : List Byte) : List Byte :=
  if line = [] then [] else if y < editorRows - 1 then line ++ [lineFeed] else line

/-- The file of the lines. -/
def textFile (lines : Nat → List Byte) : List Byte :=
  (List.range editorRows).flatMap fun y => lineFile y (lines y)

/-- The text, whether it is marked as changed, and the kernel. -/
structure TextSession where
  text : TextBuffer Byte
  dirty : Bool
  kernel : Kernel

/-- The call that puts a list of bytes into a file. -/
def writeBytes (path : CString) (bytes : List Byte) : BdxCall :=
  .writeFile path (fun offset => bytes.getD offset 0) (BitVec.ofNat 32 bytes.length)

/-- Key after key until the one that quits. A save needs room for its bytecode and makes
one write. -/
def lineEditor (path : CString) : TransitionSystem TextSession KeyEvent where
  Init _ := True
  Step before event after :=
    if event.scancode = 0 then after = before
    else if event.scancode = 0x1F ∧ event.ctrlPressed then
      FitsBytecode path (BitVec.ofNat 32 (textFile before.text.lines).length) ∧
        after.text = before.text ∧ after.dirty = false ∧
        performCall (writeBytes path (textFile before.text.lines)) before.kernel =
          some after.kernel
    else if event.scancode = 0x10 ∧ event.ctrlPressed then False
    else
      after.kernel = before.kernel ∧
        match keyEdit event with
        | none => after.text = before.text ∧ after.dirty = before.dirty
        | some edit =>
            before.text.edit editorRows lineRoom lowestRow edit = some after.text ∧
              after.dirty = (before.dirty || decide (before.text.Touches lineRoom edit))

/-! ### The array -/

/-- The array holds the lines, each NUL-terminated in its row, and the cursor is theirs. -/
structure ShowsText (editor : EditorState) (text : TextBuffer Byte) : Prop where
  col : editor.cx = text.col
  row : editor.cy = text.row
  rows : ∀ y < editorRows, ∃ string, ShowsRow editor.buffer y string ∧ string.bytes = text.lines y
  valid : text.Valid editorRows lineRoom

section Shows

variable {editor : EditorState} {text : TextBuffer Byte}

theorem ShowsText.rowOf (shows : ShowsText editor text) {y : Nat} (inDocument : y < editorRows) :
    ShowsRow editor.buffer y (rowOf editor.buffer y) ∧
      (rowOf editor.buffer y).bytes = text.lines y := by
  obtain ⟨string, showsRow, bytes⟩ := shows.rows y inDocument
  rw [showsRow.rowOf inDocument]
  exact ⟨showsRow, bytes⟩

theorem ShowsText.strlen (shows : ShowsText editor text) {y : Nat} (inDocument : y < editorRows) :
    strlen (Cable.rowOf editor.buffer y) = (text.lines y).length :=
  congrArg List.length (shows.rowOf inDocument).2

theorem ShowsText.inText (shows : ShowsText editor text) : InText editor := by
  obtain ⟨row, col, _, _⟩ := shows.valid
  refine ⟨fun y inDocument => ⟨_, (shows.rowOf inDocument).1⟩, ?_, ?_, ?_, ?_⟩
  · rw [shows.row]
    exact Int.natCast_nonneg _
  · rw [shows.row]
    exact Int.ofNat_lt.mpr row
  · rw [shows.col]
    exact Int.natCast_nonneg _
  · rw [shows.row, Int.toNat_natCast, shows.strlen row, shows.col]
    exact Int.ofNat_le.mpr col

/-- Another line in the cursor's row, and nothing else changed in the array. -/
theorem ShowsText.replaceLine (shows : ShowsText editor text) {buffer : Image} {string : CString}
    {col : Nat} {cx dirty : Int} (column : cx = col) (inLine : col ≤ Libc.strlen string)
    (row : ShowsRow buffer text.row string)
    (others : ∀ y < editorRows, y ≠ text.row → SameRow buffer editor.buffer y) :
    ShowsText { editor with buffer, cx, dirty } (text.replaceLine string.bytes col) := by
  refine ⟨column, shows.row, fun y inDocument => ?_,
    shows.valid.replaceLine (Nat.le_of_lt_succ row.ends) inLine⟩
  by_cases here : y = text.row
  · refine ⟨string, here ▸ row, ?_⟩
    rw [here]
    exact text.line_replaceLine string.bytes col |>.symm
  · obtain ⟨other, showsOther, bytes⟩ := shows.rows y inDocument
    refine ⟨other, showsOther.copy (others y inDocument here), bytes.trans ?_⟩
    exact (Function.update_of_ne here _ _).symm

theorem ShowsText.insert (shows : ShowsText editor text) {c : Byte} (notNul : c ≠ 0)
    {next : TextBuffer Byte}
    (edited : text.edit editorRows lineRoom lowestRow (.insert c) = some next) :
    ∃ after, editorInsertChar c editor = some after ∧ ShowsText after next ∧
      after.filename = editor.filename ∧
      after.dirty = if text.Touches lineRoom (.insert c) then 1 else editor.dirty := by
  have width : editorCols = 80 := rfl
  have longest : lineRoom = 79 := rfl
  have inText := shows.inText
  have row := shows.valid.row
  have column : editor.cx.toNat = text.col := by rw [shows.col, Int.toNat_natCast]
  have here : editor.cy.toNat = text.row := by rw [shows.row, Int.toNat_natCast]
  rw [TextBuffer.edit] at edited
  by_cases room : text.col < lineRoom
  · rw [if_pos room] at edited
    split at edited
    · rename_i short
      obtain rfl := Option.some.inj edited
      obtain ⟨showsRow, bytes⟩ := shows.rowOf row
      have inLine : text.col ≤ Libc.strlen (Cable.rowOf editor.buffer text.row) := by
        rw [shows.strlen row]
        exact shows.valid.col
      have longer := strlen_insertIdx notNul inLine
      refine ⟨_, editorInsertChar_moves inText (by rw [shows.col]; omega), ?_, rfl,
        (if_pos room).symm⟩
      rw [column, here, show text.line = (Cable.rowOf editor.buffer text.row).bytes from bytes.symm]
      have inserted : ShowsRow (insertedCells editor.buffer text.col text.row
          (Libc.strlen (Cable.rowOf editor.buffer text.row)) c) text.row
          ((Cable.rowOf editor.buffer text.row).insertIdx text.col c notNul) := by
        refine ⟨?_, fun col inRow => insertedCells_row showsRow notNul inLine inRow⟩
        rw [longer, shows.strlen row]
        exact Nat.succ_lt_succ short
      exact shows.replaceLine (by rw [shows.col]; rfl) (by omega) inserted fun z _ other =>
        insertedCells_other inLine showsRow.ends other
    · contradiction
  · rw [if_neg room] at edited
    obtain rfl := Option.some.inj edited
    exact ⟨editor, editorInsertChar_stays (by rw [shows.col]; omega), shows, rfl,
      (if_neg room).symm⟩

theorem ShowsText.atJoin_iff (shows : ShowsText editor text) :
    AtJoin editor ↔ text.col = 0 ∧ text.Joinable lineRoom := by
  have row := shows.valid.row
  rw [AtJoin, TextBuffer.Joinable, shows.col, shows.row, Int.toNat_natCast,
    shows.strlen row, shows.strlen (show text.row - 1 < editorRows by omega)]
  exact and_congr Int.natCast_eq_zero (and_congr Int.natCast_pos Iff.rfl)

/-- The rows of the array behind a join are the joined lines: the last row, which the code does
not clear, was empty. -/
theorem ShowsText.joined (shows : ShowsText editor text) (joinable : text.Joinable lineRoom)
    (last : text.lines (editorRows - 1) = []) (dirty : Int) :
    ShowsText { editor with
      buffer := joinedCells editor.buffer (Cable.rowOf editor.buffer (text.row - 1))
        (Cable.rowOf editor.buffer text.row) (text.row - 1)
      cy := editor.cy - 1
      cx := Libc.strlen (Cable.rowOf editor.buffer (text.row - 1))
      dirty } text.joined := by
  have rows : editorRows = 24 := rfl
  have width : editorCols = 80 := rfl
  have longest : lineRoom = 79 := rfl
  have above := joinable.1
  have fits := joinable.2
  have row := shows.valid.row
  obtain ⟨y, here⟩ : ∃ y, text.row = y + 1 := ⟨text.row - 1, by omega⟩
  have short : Libc.strlen (Cable.rowOf editor.buffer y) +
      Libc.strlen (Cable.rowOf editor.buffer (y + 1)) < editorCols := by
    rw [shows.strlen (by omega), shows.strlen (by omega)]
    rw [TextBuffer.line, here, Nat.add_sub_cancel] at fits
    omega
  have lines : ∀ z, text.joined.lines z =
      if z + 1 < y + 1 then text.lines z
      else if z + 1 = y + 1 then text.lines z ++ text.lines (z + 1)
      else text.lines (z + 1) := fun z => by rw [← here]; rfl
  rw [here, Nat.add_sub_cancel]
  refine ⟨?_, ?_, fun z inDocument => ?_, shows.valid.joined joinable⟩
  · rw [TextBuffer.joined, here, Nat.add_sub_cancel, shows.strlen (by omega)]
  · rw [TextBuffer.joined, here, Nat.add_sub_cancel]
    show editor.cy - 1 = y
    rw [shows.row, here]
    omega
  · rw [lines]
    by_cases isAbove : z < y
    · rw [if_pos (by omega)]
      obtain ⟨showsRow, bytes⟩ := shows.rowOf inDocument
      exact ⟨_, showsRow.copy (joinedCells_above short isAbove), bytes⟩
    · rw [if_neg (by omega)]
      by_cases atJoin : z = y
      · obtain rfl := atJoin
        obtain ⟨showsRow, bytes⟩ := shows.rowOf inDocument
        obtain ⟨_, bytesBelow⟩ := @ShowsText.rowOf _ _ shows (z + 1) (by omega)
        rw [if_pos rfl]
        exact ⟨_, joinedCells_joined showsRow short, congrArg₂ _ bytes bytesBelow⟩
      · rw [if_neg (by omega)]
        by_cases inner : z + 1 < editorRows
        · obtain ⟨showsRow, bytes⟩ := shows.rowOf inner
          exact ⟨_, showsRow.copy fun col inRow =>
            joinedCells_below short (by omega) inner inRow, bytes⟩
        · obtain rfl : z = editorRows - 1 := by omega
          obtain ⟨showsRow, bytes⟩ := shows.rowOf inDocument
          refine ⟨_, showsRow.copy (joinedCells_last short (by omega)), ?_⟩
          rw [bytes, last, shows.valid.below (editorRows - 1 + 1) (by omega)]

theorem ShowsText.erase (shows : ShowsText editor text) {next : TextBuffer Byte}
    (edited : text.edit editorRows lineRoom lowestRow .erase = some next) :
    ∃ after, editorDeleteChar editor = some after ∧ ShowsText after next ∧
      after.filename = editor.filename ∧
      after.dirty = if text.Touches lineRoom .erase then 1 else editor.dirty := by
  have inText := shows.inText
  have row := shows.valid.row
  have column : editor.cx.toNat = text.col := by rw [shows.col, Int.toNat_natCast]
  have here : editor.cy.toNat = text.row := by rw [shows.row, Int.toNat_natCast]
  rw [TextBuffer.edit] at edited
  by_cases inLine : 0 < text.col
  · rw [if_pos inLine] at edited
    obtain rfl := Option.some.inj edited
    obtain ⟨showsRow, bytes⟩ := shows.rowOf row
    have behind : text.col - 1 < Libc.strlen (Cable.rowOf editor.buffer text.row) := by
      have := shows.valid.col
      rw [shows.strlen row]
      rw [TextBuffer.line] at this
      omega
    have shorter := strlen_eraseIdx behind
    have erased : ShowsRow (erasedCells editor.buffer (text.col - 1) text.row
        (Libc.strlen (Cable.rowOf editor.buffer text.row))) text.row
        ((Cable.rowOf editor.buffer text.row).eraseIdx (text.col - 1)) :=
      ⟨by have := showsRow.ends; omega, fun col inRow => erasedCells_row showsRow behind inRow⟩
    refine ⟨_, editorDeleteChar_erases inText (by rw [shows.col]; omega), ?_, rfl,
      (if_pos (.inl inLine)).symm⟩
    rw [column, here, show text.line = (Cable.rowOf editor.buffer text.row).bytes from bytes.symm]
    exact shows.replaceLine (by rw [shows.col]; omega) (by omega) erased fun z _ other =>
      erasedCells_other behind showsRow.ends other
  · rw [if_neg inLine] at edited
    have start : ¬ 0 < editor.cx := by
      rw [shows.col]
      omega
    by_cases joinable : text.Joinable lineRoom
    · rw [if_pos joinable] at edited
      split at edited
      · rename_i last
        obtain rfl := Option.some.inj edited
        have atJoin := shows.atJoin_iff.mpr ⟨by omega, joinable⟩
        refine ⟨_, editorDeleteChar_joins inText atJoin, ?_, rfl, (if_pos (.inr joinable)).symm⟩
        rw [here]
        exact shows.joined joinable last 1
      · contradiction
    · rw [if_neg joinable] at edited
      obtain rfl := Option.some.inj edited
      have apart : ¬ AtJoin editor := fun atJoin => joinable (shows.atJoin_iff.mp atJoin).2
      exact ⟨editor, editorDeleteChar_stays inText start apart, shows, rfl,
        (if_neg (fun touches => touches.elim inLine joinable)).symm⟩

/-- What an edit leaves: an editor that shows the new text. -/
def Leaves (editor : EditorState) (text : TextBuffer Byte) (edit : Edit Byte)
    (next : TextBuffer Byte) (result : Option EditorState) : Prop :=
  ∃ after, result = some after ∧ ShowsText after next ∧ after.filename = editor.filename ∧
    after.dirty = if text.Touches lineRoom edit then 1 else editor.dirty

theorem ShowsText.moves (shows : ShowsText editor text) {edit : Edit Byte}
    (calm : ¬ text.Touches lineRoom edit) {row col : Nat} {cx cy : Int} (column : cx = col)
    (line : cy = row) (valid : TextBuffer.Valid editorRows lineRoom { text with row, col }) :
    Leaves editor text edit { text with row, col } (some { editor with cx, cy }) :=
  ⟨_, rfl, ⟨column, line, shows.rows, valid⟩, rfl, (if_neg calm).symm⟩

theorem ShowsText.stays (shows : ShowsText editor text) {edit : Edit Byte}
    (calm : ¬ text.Touches lineRoom edit) : Leaves editor text edit text (some editor) :=
  ⟨editor, rfl, shows, rfl, (if_neg calm).symm⟩

theorem ShowsText.typeChar (shows : ShowsText editor text) {c : Byte} {edit : Edit Byte}
    {next : TextBuffer Byte} (meant : charEdit c = some edit)
    (edited : text.edit editorRows lineRoom lowestRow edit = some next) :
    Leaves editor text edit next (editorTypeChar c editor) := by
  have valid := shows.valid.edit (by decide) edited
  unfold charEdit at meant
  unfold editorTypeChar
  split at meant
  · contradiction
  · rename_i notNul
    rw [if_neg notNul]
    split at meant
    · rename_i feed
      rw [if_pos feed]
      obtain rfl := Option.some.inj meant
      rw [TextBuffer.edit] at edited
      split at edited
      · obtain rfl := Option.some.inj edited
        exact shows.moves id rfl (by rw [shows.row]; rfl) valid
      · contradiction
    · rename_i noFeed
      rw [if_neg noFeed]
      split at meant
      · rename_i erases
        rw [if_pos erases]
        obtain rfl := Option.some.inj meant
        exact shows.erase edited
      · rename_i types
        rw [if_neg types]
        split at meant
        · rename_i printable
          rw [if_pos printable]
          obtain rfl := Option.some.inj meant
          exact shows.insert notNul edited
        · contradiction

theorem ShowsText.key (shows : ShowsText editor text) {event : KeyEvent} {edit : Edit Byte}
    {next : TextBuffer Byte} (meant : keyEdit event = some edit)
    (edited : text.edit editorRows lineRoom lowestRow edit = some next) :
    Leaves editor text edit next (editorKey event editor) := by
  have rows : editorRows = 24 := rfl
  have lowest : lowestRow = 22 := rfl
  have valid := shows.valid.edit (by decide) edited
  have row := shows.row
  have col := shows.col
  unfold keyEdit at meant
  unfold editorKey
  split at meant
  · rename_i up
    rw [if_pos up]
    obtain rfl := Option.some.inj meant
    rw [TextBuffer.edit] at edited
    split at edited
    · rename_i top
      obtain rfl := Option.some.inj edited
      rw [if_neg (by omega)]
      exact shows.stays id
    · rename_i below
      obtain ⟨_, rfl⟩ := TextBuffer.moveTo_eq_some edited
      rw [if_pos (by omega)]
      exact shows.moves id col (by omega) valid
  · rename_i notUp
    rw [if_neg notUp]
    split at meant
    · rename_i down
      rw [if_pos down]
      obtain rfl := Option.some.inj meant
      rw [TextBuffer.edit] at edited
      split at edited
      · obtain ⟨_, rfl⟩ := TextBuffer.moveTo_eq_some edited
        rw [if_pos (by omega)]
        exact shows.moves id col (by omega) valid
      · obtain rfl := Option.some.inj edited
        rw [if_neg (by omega)]
        exact shows.stays id
    · rename_i notDown
      rw [if_neg notDown]
      split at meant
      · rename_i left
        rw [if_pos left]
        obtain rfl := Option.some.inj meant
        obtain rfl := Option.some.inj edited
        by_cases behind : 0 < text.col
        · rw [if_pos (by omega)]
          exact shows.moves id (by omega) row valid
        · rw [if_neg (by omega), show text.col - 1 = text.col by omega]
          exact shows.stays id
      · rename_i notLeft
        rw [if_neg notLeft]
        split at meant
        · rename_i right
          rw [if_pos right]
          obtain rfl := Option.some.inj meant
          obtain rfl := Option.some.inj edited
          have found := shows.inText.padded.rowAt shows.valid.row
          have length : Libc.strlen (Cable.rowOf editor.buffer text.row) = text.line.length :=
            shows.strlen shows.valid.row
          rw [← row] at found
          rw [found, Option.map_some]
          by_cases inLine : text.col < text.line.length
          · rw [if_pos inLine] at valid ⊢
            rw [if_pos (by omega)]
            exact shows.moves id (by omega) row valid
          · rw [if_neg inLine, if_neg (by omega)]
            exact shows.stays id
        · rename_i notRight
          rw [if_neg notRight]
          exact shows.typeChar meant edited

theorem editorTypeChar_of_none {c : Byte} (meant : charEdit c = none) :
    editorTypeChar c editor = some editor := by
  unfold charEdit at meant
  unfold editorTypeChar
  split at meant
  · rename_i isNul
    rw [if_pos isNul]
  · split at meant
    · contradiction
    · split at meant
      · contradiction
      · split at meant
        · contradiction
        · rename_i notNul notFeed notErase notPrintable
          rw [if_neg notNul, if_neg notFeed, if_neg notErase, if_neg notPrintable]

/-- A key that means no edit leaves the editor as it is. -/
theorem editorKey_of_none {event : KeyEvent} (meant : keyEdit event = none) :
    editorKey event editor = some editor := by
  unfold keyEdit at meant
  unfold editorKey
  split at meant
  · contradiction
  · split at meant
    · contradiction
    · split at meant
      · contradiction
      · split at meant
        · contradiction
        · rename_i notUp notDown notLeft notRight
          rw [if_neg notUp, if_neg notDown, if_neg notLeft, if_neg notRight]
          exact editorTypeChar_of_none meant

/-! ### Saves -/

/-- The file that is assembled is the lines' file. -/
theorem ShowsText.fileBytes (shows : ShowsText editor text) :
    fileBytes editor.buffer editorRows = textFile text.lines := by
  have upTo : ∀ count ≤ editorRows, Cable.fileBytes editor.buffer count =
      (List.range count).flatMap fun y => lineFile y (text.lines y) := by
    intro count within
    induction count with
    | zero => rfl
    | succ count inductionHypothesis =>
        rw [Cable.fileBytes, inductionHypothesis (Nat.le_of_succ_le within), List.range_succ,
          List.flatMap_append, List.flatMap_singleton, ← (shows.rowOf within).2]
        rfl
  exact upTo editorRows (Nat.le_refl _)

theorem ShowsText.rowsTerminated (shows : ShowsText editor text) :
    RowsTerminated editor.buffer := fun _ inDocument =>
  have showsRow := (shows.rowOf inDocument).1
  ⟨_, showsRow.rowString inDocument, Nat.le_of_lt_succ showsRow.ends⟩

/-- The write of what is assembled is that of the list of its bytes. -/
theorem performCall_writeBytes {saved : SaveBuffer} {bytes : List Byte} (has : saved.Has bytes)
    (path : CString) :
    performCall (writeBytes path bytes) =
      performCall (.writeFile path saved.bytes (BitVec.ofNat 32 saved.len)) := by
  obtain ⟨len, showsBytes⟩ := has
  rw [writeBytes, ← len]
  refine performCall_congr fun offset inside => ?_
  have short : offset < bytes.length := by
    rw [BitVec.toNat_ofNat] at inside
    exact Nat.lt_of_lt_of_le inside (len ▸ Nat.mod_le _ _)
  rw [showsBytes_iff.mp showsBytes offset short, List.getD_eq_getElem _ _ short]

/-- A save that returns has cleared `dirty` and made one write of the lines' file. -/
theorem ShowsText.saved (shows : ShowsText editor text) {fuel : Nat}
    {saveStack bytecodeStack : Image} {kernel : Kernel} {path : CString}
    (named : scanString editor.filename filenameSize 0 = some path)
    {after : EditorState × Kernel}
    (done : editorSaveFile fuel saveStack bytecodeStack editor kernel = some after) :
    after.1 = { editor with dirty := 0 } ∧
      performCall (writeBytes path (textFile text.lines)) kernel = some after.2 := by
  obtain ⟨edited, final⟩ := after
  obtain ⟨saved, samePath, assembled, namedAgain, _, performed⟩ := write_of_editorSaveFile done
  obtain rfl := Option.some.inj (named.symm.trans namedAgain)
  have has := assembleFile_has assembled
  rw [shows.fileBytes] at has
  constructor
  · obtain ⟨_, _, done⟩ := Option.bind_eq_some_iff.mp done
    obtain ⟨_, _, done⟩ := Option.bind_eq_some_iff.mp done
    obtain ⟨_, _, done⟩ := Option.bind_eq_some_iff.mp done
    exact (Prod.mk.inj (Option.some.inj done)).1.symm
  · rw [performCall_writeBytes has]
    exact performed

/-- Where the bytecode fits and the write returns, so does the save. -/
theorem ShowsText.save (shows : ShowsText editor text) {kernel after : Kernel} {path : CString}
    (named : scanString editor.filename filenameSize 0 = some path)
    (fits : FitsBytecode path (BitVec.ofNat 32 (textFile text.lines).length))
    (written : performCall (writeBytes path (textFile text.lines)) kernel = some after)
    (saveStack bytecodeStack : Image) :
    editorSaveFile bytecodeSize saveStack bytecodeStack editor kernel =
      some ({ editor with dirty := 0 }, after) := by
  obtain ⟨saved, assembled, has⟩ := saveRows_has saveStack shows.rowsTerminated.rowsEnd
    (shows.rowsTerminated.fileBytes_length (Nat.le_refl _))
  rw [shows.fileBytes] at has
  rw [← has.1] at fits
  rw [performCall_writeBytes has, performCall] at written
  rw [editorSaveFile_of_fits (Nat.le_refl _) bytecodeStack kernel assembled named fits]
  obtain ⟨result, wrote, rfl⟩ := Option.map_eq_some_iff.mp written
  rw [wrote]
  rfl

end Shows

/-! ### Sessions -/

/-- The state of the program shows the editor of lines. -/
structure ShowsSession (path : CString) (state : EditorState × Kernel) (session : TextSession) :
    Prop where
  text : ShowsText state.1 session.text
  dirty : state.1.dirty = if session.dirty then 1 else 0
  named : scanString state.1.filename filenameSize 0 = some path
  kernel : state.2 = session.kernel

section Sessions

variable {path : CString} {state : EditorState × Kernel} {session next : TextSession}
  {event : KeyEvent}

/-- What `editor_process_keypress` does for a step of the editor of lines, whatever the fuel and
the stack: it stops short, or shows the next state. -/
theorem ShowsSession.pressed (shows : ShowsSession path state session)
    (step : (lineEditor path).Step session event next) {fuel : Nat}
    {saveStack bytecodeStack : Image} {after : EditorState × Kernel}
    (pressed : editorProcessKeypress fuel saveStack bytecodeStack event state.1 state.2 =
      some (1, after)) :
    ShowsSession path after next := by
  obtain ⟨editor, kernel⟩ := state
  obtain ⟨text, dirty, named, rfl⟩ := shows
  unfold editorProcessKeypress at pressed
  simp only [lineEditor] at step
  split at step
  · rename_i released
    rw [if_pos released] at pressed
    obtain rfl := (Prod.mk.inj (Option.some.inj pressed)).2
    rw [step]
    exact ⟨text, dirty, named, rfl⟩
  · rename_i pressedKey
    rw [if_neg pressedKey] at pressed
    split at step
    · rename_i saves
      rw [if_pos saves] at pressed
      obtain ⟨saved, done, same⟩ := Option.map_eq_some_iff.mp pressed
      obtain rfl := (Prod.mk.inj same).2
      obtain ⟨_, sameText, clean, written⟩ := step
      obtain ⟨cleared, performed⟩ := text.saved named done
      rw [performed] at written
      obtain ⟨edited, final⟩ := saved
      obtain rfl := cleared
      refine ⟨?_, ?_, named, Option.some.inj written⟩
      · rw [sameText]
        exact ⟨text.col, text.row, text.rows, text.valid⟩
      · rw [clean]
        rfl
    · rename_i notSave
      rw [if_neg notSave] at pressed
      split at step
      · exact step.elim
      · rename_i notQuit
        rw [if_neg notQuit] at pressed
        obtain ⟨sameKernel, step⟩ := step
        split at step
        · rename_i meant
          rw [editorKey_of_none meant, Option.map_some] at pressed
          obtain rfl := (Prod.mk.inj (Option.some.inj pressed)).2
          refine ⟨?_, ?_, named, sameKernel.symm⟩
          · rw [step.1]
            exact text
          · rw [step.2]
            exact dirty
        · rename_i edit meant
          obtain ⟨editedNext, done, showsNext, sameName, changed⟩ := text.key meant step.1
          rw [done, Option.map_some] at pressed
          obtain rfl := (Prod.mk.inj (Option.some.inj pressed)).2
          refine ⟨showsNext, ?_, by rw [← named, ← sameName], sameKernel.symm⟩
          rw [changed, step.2, dirty]
          cases session.dirty <;> simp

/-- The program can take every step of the editor of lines. -/
theorem ShowsSession.press (shows : ShowsSession path state session)
    (step : (lineEditor path).Step session event next) (saveStack bytecodeStack : Image) :
    ∃ after, editorProcessKeypress bytecodeSize saveStack bytecodeStack event state.1 state.2 =
      some (1, after) := by
  obtain ⟨editor, kernel⟩ := state
  obtain ⟨text, dirty, named, rfl⟩ := shows
  unfold editorProcessKeypress
  simp only [lineEditor] at step
  split at step
  · rename_i released
    exact ⟨_, if_pos released⟩
  · rename_i pressedKey
    rw [if_neg pressedKey]
    split at step
    · rename_i saves
      obtain ⟨fits, _, _, written⟩ := step
      rw [if_pos saves, text.save named fits written]
      exact ⟨_, rfl⟩
    · rename_i notSave
      rw [if_neg notSave]
      split at step
      · exact step.elim
      · rename_i notQuit
        rw [if_neg notQuit]
        obtain ⟨_, step⟩ := step
        split at step
        · rename_i meant
          rw [editorKey_of_none meant]
          exact ⟨_, rfl⟩
        · rename_i edit meant
          obtain ⟨edited, done, _⟩ := text.key meant step.1
          rw [done]
          exact ⟨_, rfl⟩

end Sessions

/-- The program runs along every run of the editor of lines. -/
theorem ShowsSession.runs {Opens : CString → FileSystem → Prop} {path : CString}
    {state : EditorState × Kernel} {session last : TextSession} {events : List KeyEvent}
    (shows : ShowsSession path state session)
    (run : (lineEditor path).Run session events last) :
    ∃ final, (editing Opens).Run state events final := by
  induction run generalizing state with
  | nil session => exact ⟨state, .nil state⟩
  | cons step _ inductionHypothesis =>
      obtain ⟨after, pressed⟩ := shows.press step (fun _ => 0) fun _ => 0
      obtain ⟨final, rest⟩ := inductionHypothesis (shows.pressed step pressed)
      exact ⟨final, .cons ⟨_, _, _, pressed⟩ rest⟩

/-- All runs of the program on the keys of a run of the editor of lines show its last state. -/
theorem ShowsSession.run {Opens : CString → FileSystem → Prop} {path : CString}
    {state final : EditorState × Kernel} {session last : TextSession} {events : List KeyEvent}
    (shows : ShowsSession path state session) (run : (lineEditor path).Run session events last)
    (ran : (editing Opens).Run state events final) : ShowsSession path final last := by
  induction run generalizing state with
  | nil session =>
      cases ran
      exact shows
  | cons step _ inductionHypothesis =>
      cases ran with
      | cons first rest =>
          obtain ⟨fuel, saveStack, bytecodeStack, pressed⟩ := first
          exact inductionHypothesis (shows.pressed step pressed) rest

/-- Along every run of the editor of lines the program runs too, and all its runs on the same
keys end with an array, a cursor, `dirty` and a kernel that show the last state. -/
theorem editing_follows_lineEditor {Opens : CString → FileSystem → Prop} {path : CString}
    {state : EditorState × Kernel} {session last : TextSession} {events : List KeyEvent}
    (shows : ShowsSession path state session)
    (run : (lineEditor path).Run session events last) :
    (∃ final, (editing Opens).Run state events final) ∧
      ∀ final, (editing Opens).Run state events final → ShowsSession path final last :=
  ⟨shows.runs run, fun _ ran => shows.run run ran⟩

/-! ### A letter in an empty document -/

/-- The empty text and the text of one letter. -/
def emptyText : TextBuffer Byte := ⟨fun _ => [], 0, 0⟩

def letterText : TextBuffer Byte := emptyText.replaceLine [0x61] 1

/-- The editor on an empty document named `p`. -/
def emptyEditor : EditorState where
  cx := 0
  cy := 0
  buffer := fun _ => 0
  filename := Function.update (fun _ => 0) 0 0x70
  dirty := 0

theorem emptyEditor_shows (kernel : Kernel) :
    ShowsSession (literal ['p']) (emptyEditor, kernel) ⟨emptyText, false, kernel⟩ := by
  have top : 0 < editorRows := by decide
  have named : scanString emptyEditor.filename filenameSize 0 = some (literal ['p']) := by decide
  refine ⟨⟨rfl, rfl, fun y _ => ⟨CString.nil, ⟨by decide, fun col _ => ?_⟩, rfl⟩,
    ⟨top, Nat.le_refl _, fun _ => Nat.zero_le _, fun _ _ => rfl⟩⟩, rfl, named, rfl⟩
  exact (CString.nil.image_of_le (Nat.zero_le col)).symm

theorem letterKey_typed (kernel : Kernel) :
    (lineEditor (literal ['p'])).Run ⟨emptyText, false, kernel⟩ [letterKey]
      ⟨letterText, true, kernel⟩ :=
  .cons (show (lineEditor _).Step _ letterKey ⟨letterText, true, kernel⟩ from ⟨rfl, rfl, rfl⟩)
    (.nil _)

theorem editing_follows_lineEditor_letter :
    ∃ final, (editing fun _ _ => True).Run (emptyEditor, newKernel) [letterKey] final ∧
      ShowsSession (literal ['p']) final ⟨letterText, true, newKernel⟩ := by
  obtain ⟨⟨final, ran⟩, shows⟩ := @editing_follows_lineEditor (fun _ _ => True) _ _ _ _ _
    (emptyEditor_shows newKernel) (letterKey_typed newKernel)
  exact ⟨final, ran, shows final ran⟩

/-! ### Typing and erasing -/

/-- The key neither saves nor quits, and means the edit. -/
structure Means (event : KeyEvent) (edit : Edit Byte) : Prop where
  pressed : event.scancode ≠ 0
  notSave : ¬ (event.scancode = 0x1F ∧ event.ctrlPressed)
  notQuit : ¬ (event.scancode = 0x10 ∧ event.ctrlPressed)
  edit : keyEdit event = some edit

/-- Keys that mean edits run the editor of lines through these. -/
theorem lineEditor_edits {path : CString} {events : List KeyEvent} {edits : List (Edit Byte)}
    (mean : List.Forall₂ Means events edits) {session : TextSession} {text : TextBuffer Byte}
    (edited : session.text.edits editorRows lineRoom lowestRow edits = some text) :
    ∃ dirty, (lineEditor path).Run session events ⟨text, dirty, session.kernel⟩ := by
  induction mean generalizing session with
  | nil =>
      obtain rfl := Option.some.inj edited
      exact ⟨session.dirty, .nil session⟩
  | @cons event edit events edits means _ inductionHypothesis =>
      rw [TextBuffer.edits_cons] at edited
      obtain ⟨next, first, rest⟩ := Option.bind_eq_some_iff.mp edited
      have step : (lineEditor path).Step session event
          ⟨next, session.dirty || decide (session.text.Touches lineRoom edit), session.kernel⟩ := by
        simp only [lineEditor]
        rw [if_neg means.pressed, if_neg means.notSave, if_neg means.notQuit]
        simp only [means.edit]
        exact ⟨trivial, first, trivial⟩
      obtain ⟨dirty, run⟩ := @inductionHypothesis
        ⟨next, session.dirty || decide (session.text.Touches lineRoom edit), session.kernel⟩ rest
      exact ⟨dirty, .cons step run⟩

/-- Characters typed in a line that has room for them, and as many backspaces: the array shows
the same lines and the cursor stands where it was. -/
theorem typed_keys_erased {Opens : CString → FileSystem → Prop} {path : CString}
    {state : EditorState × Kernel} {session : TextSession} (shows : ShowsSession path state session)
    {keys : List KeyEvent} {chars : List Byte}
    (typed : List.Forall₂ Means keys (chars.map .insert))
    (room : session.text.line.length + chars.length ≤ lineRoom)
    {back : KeyEvent} (erases : Means back .erase) :
    (∃ final, (editing Opens).Run state (keys ++ List.replicate chars.length back) final) ∧
      ∀ final, (editing Opens).Run state (keys ++ List.replicate chars.length back) final →
        ShowsText final.1 session.text ∧ final.2 = state.2 := by
  have backs : List.Forall₂ Means (List.replicate chars.length back)
      (List.replicate chars.length .erase) := by
    induction chars.length with
    | zero => exact .nil
    | succ count inductionHypothesis => exact .cons erases inductionHypothesis
  obtain ⟨dirty, run⟩ := @lineEditor_edits path _ _ (List.rel_append typed backs) session _
    (TextBuffer.edits_typed_erased shows.text.valid.col room)
  refine ⟨shows.runs run, fun final ran => ?_⟩
  have last := shows.run run ran
  exact ⟨last.text, last.kernel.trans shows.kernel.symm⟩

/-- One letter and one backspace. -/
theorem typed_keys_erased_letter :
    ∃ final, (editing fun _ _ => True).Run (emptyEditor, newKernel)
        [letterKey, ⟨0x0E, false, 0⟩] final ∧ ShowsText final.1 emptyText := by
  have letter : Means letterKey (.insert 0x61) := ⟨by decide, by decide, by decide, rfl⟩
  have back : Means ⟨0x0E, false, 0⟩ .erase := ⟨by decide, by decide, by decide, rfl⟩
  obtain ⟨⟨final, ran⟩, shows⟩ := @typed_keys_erased (fun _ _ => True) _ _ _
    (emptyEditor_shows newKernel) _ [0x61] (.cons letter .nil) (by decide) _ back
  exact ⟨final, ran, (shows final ran).1⟩

end BrainDance.App.Cable
