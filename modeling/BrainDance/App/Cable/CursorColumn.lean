import Mathlib.Data.List.TakeWhile
import BrainDance.App.Cable.CursorRow

/-!
Owns the column of the cursor. Every key that edits moves the column together with
the line, so `cx` stays at most `strlen` of its row; the keys that change the row
keep `cx`, and `editor_init` counts NULs of the file as characters. Where neither
puts `cx` behind the end of a line no length that is handed to `memmove` is
negative.
-/

namespace BrainDance.App.Cable

open BrainDance.Foundation
open BrainDance.Libc
open BrainDance.Exec
open BrainDance.Fs.Bdfs
open BrainDance.Drivers

/-! ### The property and the condition -/

/-- Row `y` does not end in front of column `cx`. -/
def ReachesColumn (buffer : Image) (y cx : Int) : Prop :=
  ∀ col : Nat, col < cx → buffer (y.toNat * editorCols + col) ≠ 0

/-- The column is in the line or at its end. -/
def ColumnInLine (editor : EditorState) : Prop :=
  0 ≤ editor.cx ∧ ReachesColumn editor.buffer editor.cy editor.cx

/-- The bytes behind the last newline. -/
def lastLine (content : List Byte) : List Byte :=
  (content.reverse.takeWhile (· ≠ lineFeed)).reverse

/-- What the document shows of the file's last line has no NUL in it. -/
def OpensInLine (filename : CString) (fs : FileSystem) : Prop :=
  ∀ bytesRead content, bdfsReadFile fs filename = some (.ok (bytesRead, content)) →
    content.count lineFeed < editorRows → 0 ∉ (lastLine content).take (editorCols - 1)

/-- Up and Down go to a row that is long enough for the column. -/
structure MovesInLine (state : EditorState × Kernel) (event : KeyEvent) : Prop where
  up : event.scancode = 0x48 → state.1.cy > 0 →
    ReachesColumn state.1.buffer (state.1.cy - 1) state.1.cx
  down : event.scancode = 0x50 → state.1.cy < editorRows - 2 →
    ReachesColumn state.1.buffer (state.1.cy + 1) state.1.cx

section Columns

variable {buffer : Image} {y cx : Int}

theorem ReachesColumn.mono (reaches : ReachesColumn buffer y cx) {smaller : Int}
    (below : smaller ≤ cx) : ReachesColumn buffer y smaller :=
  fun col inLine => reaches col (inLine.trans_le below)

theorem reachesColumn_zero : ReachesColumn buffer y 0 := fun _ inLine => by omega

/-- Where the row's string ends in the array, its length decides. -/
theorem reachesColumn_iff {row : CString} (found : rowAt buffer y = some row) :
    ReachesColumn buffer y cx ↔ cx ≤ strlen row := by
  have shown := scanString_shown (rowAt_eq_some found).2.2
  unfold strlen
  constructor
  · intro reaches
    by_contra behind
    apply reaches row.bytes.length (by omega)
    rw [shown _ le_rfl, row.image_end]
  · intro inLine col before
    rw [shown col (by omega)]
    exact row.image_ne_zero (by omega)

end Columns

/-! ### Opening -/

section Opening

variable {buffer : Image} {content : List Byte}

theorem lastLine_concat_feed : lastLine (content ++ [lineFeed]) = [] := by
  simp [lastLine]

theorem lastLine_concat {byte : Byte} (noFeed : byte ≠ lineFeed) :
    lastLine (content ++ [byte]) = lastLine content ++ [byte] := by
  simp [lastLine, noFeed]

/-- The cursor's row shows the last line, as far as it fits. -/
theorem loadFile_lastLine (content : List Byte) (short : content.count lineFeed < editorRows) :
    (loadFile content ⟨buffer, 0, 0⟩).col = min 79 (lastLine content).length ∧
      ∀ col < (loadFile content ⟨buffer, 0, 0⟩).col,
        (loadFile content ⟨buffer, 0, 0⟩).buffer
          ((loadFile content ⟨buffer, 0, 0⟩).row * editorCols + col) =
            (lastLine content).getD col 0 := by
  have width : editorCols = 80 := rfl
  induction content using List.reverseRecOn with
  | nil => exact ⟨rfl, fun _ none => absurd none (Nat.not_lt_zero _)⟩
  | append_singleton content byte inductionHypothesis =>
      have earlier : content.count lineFeed < editorRows := by
        rw [List.count_append] at short
        omega
      have inside : (loadFile content ⟨buffer, 0, 0⟩).row < editorRows := by
        rw [loadFile_row_eq]
        omega
      obtain ⟨column, shows⟩ := inductionHypothesis earlier
      rw [loadFile_concat, if_pos inside]
      generalize loadFile content ⟨buffer, 0, 0⟩ = state at *
      by_cases feed : byte = lineFeed
      · rw [feed, lastLine_concat_feed, loadByte, if_pos rfl]
        exact ⟨rfl, fun _ none => absurd none (Nat.not_lt_zero _)⟩
      · rw [lastLine_concat feed, loadByte, if_neg feed, List.length_append,
          List.length_singleton]
        by_cases room : state.col < editorCols - 1
        · rw [if_pos room]
          dsimp only
          refine ⟨by omega, fun col before => ?_⟩
          by_cases last : col = state.col
          · rw [last, Function.update_self, List.getD_append_right _ _ _ _ (by omega),
              show state.col - (lastLine content).length = 0 by omega, List.getD_cons_zero]
          · rw [Function.update_of_ne (by omega), shows col (by omega),
              List.getD_append _ _ _ _ (by omega)]
        · rw [if_neg room]
          refine ⟨by omega, fun col before => ?_⟩
          rw [shows col before, List.getD_append _ _ _ _ (by omega)]

/-- Behind the last row nothing is shown. -/
theorem loadFile_col_end (content : List Byte) (long : editorRows ≤ content.count lineFeed) :
    (loadFile content ⟨buffer, 0, 0⟩).col = 0 := by
  induction content using List.reverseRecOn with
  | nil => rfl
  | append_singleton content byte inductionHypothesis =>
      rw [loadFile_concat, loadFile_row_eq]
      rw [List.count_append] at long
      split
      · rename_i inside
        have feed : byte = lineFeed := by
          by_contra other
          rw [count_singleton_of_ne other] at long
          omega
        rw [loadByte, if_pos feed]
      · exact inductionHypothesis (by omega)

theorem editorInit_column_iff {filename : CString} {fs : FileSystem}
    {previous editor : EditorState} (opened : editorInit filename fs previous = some editor) :
    ColumnInLine editor ↔ OpensInLine filename fs := by
  have width : editorCols = 80 := rfl
  unfold ColumnInLine OpensInLine
  rcases editorInit_cases opened with
    ⟨code, read, left, _⟩ | ⟨bytesRead, content, start, read, column, row, document⟩
  · rw [read, left]
    refine ⟨fun _ _ _ same => ?_, fun _ => ⟨le_rfl, reachesColumn_zero⟩⟩
    exact absurd (Option.some.inj same) (by simp)
  · rw [read, column, row, document]
    by_cases short : content.count lineFeed < editorRows
    · obtain ⟨shown, shows⟩ := @loadFile_lastLine start content short
      constructor
      · rintro ⟨_, reaches⟩ _ _ same _ nul
        obtain ⟨_, rfl⟩ := Prod.mk.inj (Except.ok.inj (Option.some.inj same))
        obtain ⟨col, before, isNul⟩ := List.mem_take_iff_getElem.mp nul
        have inLine : col < (loadFile content ⟨start, 0, 0⟩).col := by omega
        apply reaches col (by omega)
        rw [Int.toNat_natCast, shows col inLine, List.getD_eq_getElem _ _ (by omega), isNul]
      · intro noNul
        refine ⟨Int.natCast_nonneg _, fun col before isNul => ?_⟩
        have inLine : col < (loadFile content ⟨start, 0, 0⟩).col := by omega
        rw [Int.toNat_natCast, shows col inLine, List.getD_eq_getElem _ _ (by omega)] at isNul
        exact noNul bytesRead content rfl short
          (List.mem_take_iff_getElem.mpr ⟨col, by omega, isNul⟩)
    · rw [loadFile_col_end content (Nat.le_of_not_lt short)]
      refine ⟨fun _ _ _ same fits => ?_, fun _ => ⟨le_rfl, reachesColumn_zero⟩⟩
      obtain ⟨_, rfl⟩ := Prod.mk.inj (Except.ok.inj (Option.some.inj same))
      exact absurd fits short

end Opening

/-! ### Keys -/

section Keys

variable {c : Byte} {event : KeyEvent} {before after : EditorState}

theorem cellOffset_toNat {cx cy : Int} (column : 0 ≤ cx) (row : 0 ≤ cy) :
    (cellOffset cx cy).toNat = cy.toNat * editorCols + cx.toNat := by
  have width : ((editorCols : Nat) : Int) = 80 := rfl
  have width' : editorCols = 80 := rfl
  rw [cellOffset, width, width']
  omega

/-- The new character takes the place of the first one that is moved. -/
theorem editorInsertChar_columnInLine (inLine : ColumnInLine before) (printable : c ≠ 0)
    (done : editorInsertChar c before = some after) : ColumnInLine after := by
  rcases editorInsertChar_cases done with same | ⟨row, moved, _, found, move, same⟩
  · rw [same]
    exact inLine
  · obtain ⟨left, reaches⟩ := inLine
    obtain ⟨top, _, _⟩ := rowAt_eq_some found
    obtain ⟨_, _, atCell, _, rfl⟩ := moveCells_eq_some move
    have cell := cellOffset_toNat left top
    rw [same]
    refine ⟨by dsimp only; omega, fun col inRow => ?_⟩
    dsimp only at inRow ⊢
    rw [cell]
    by_cases new : col = before.cx.toNat
    · rw [new, Function.update_self]
      exact printable
    · rw [Function.update_of_ne (by omega), blit_outside _ _ (by omega)]
      exact reaches col (by omega)

/-- What closes up stands behind the column, and a joined line is behind the one
above it. -/
theorem editorDeleteChar_columnInLine (inLine : ColumnInLine before)
    (done : editorDeleteChar before = some after) : ColumnInLine after := by
  have width : editorCols = 80 := rfl
  obtain ⟨left, reaches⟩ := inLine
  rcases editorDeleteChar_cases done with
    same | ⟨row, moved, inside, found, move, same⟩ |
      ⟨previous, row, moved, _, below, found, _, fits, move, same⟩
  · rw [same]
    exact ⟨left, reaches⟩
  · obtain ⟨top, _, _⟩ := rowAt_eq_some found
    obtain ⟨_, _, _, _, rfl⟩ := moveCells_eq_some move
    have cell := @cellOffset_toNat (before.cx - 1) before.cy (by omega) top
    rw [same]
    refine ⟨by dsimp only; omega, fun col inRow => ?_⟩
    dsimp only at inRow ⊢
    rw [blit_outside _ _ (by omega)]
    exact reaches col (by omega)
  · have shown := scanString_shown (rowAt_eq_some found).2.2
    obtain ⟨_, _, _, _, rfl⟩ := moveCells_eq_some move
    have cell := @cellOffset_toNat 0 before.cy le_rfl (by omega)
    have above := @cellOffset_toNat 0 (before.cy - 1) le_rfl (by omega)
    rw [same]
    refine ⟨Int.natCast_nonneg _, fun col inRow => ?_⟩
    dsimp only at inRow ⊢
    unfold strlen at fits inRow
    rw [width] at cell above ⊢
    rw [blit_outside _ _ (by omega), strcat, memcpy_eq_blit,
      blit_outside _ _ (by unfold strlen; omega), shown col (by omega)]
    exact previous.image_ne_zero (by omega)

/-- Every key but Up and Down keeps the column in its line. -/
theorem KeyEffect.columnInLine (effect : KeyEffect event before after)
    (notUp : event.scancode ≠ 0x48) (notDown : event.scancode ≠ 0x50)
    (inLine : ColumnInLine before) : ColumnInLine after := by
  have ⟨nonneg, reaches⟩ := inLine
  cases effect with
  | still column row document =>
      unfold ColumnInLine
      rw [column, row, document]
      exact inLine
  | up key _ _ => exact absurd key notUp
  | down key _ _ => exact absurd key notDown
  | left behind moved =>
      rw [moved]
      exact ⟨by dsimp only; omega, reaches.mono (by dsimp only; omega)⟩
  | right row found inRow moved =>
      rw [moved]
      exact ⟨by dsimp only; omega, (reachesColumn_iff found).mpr (by dsimp only; omega)⟩
  | enter _ moved =>
      rw [moved]
      exact ⟨le_rfl, reachesColumn_zero⟩
  | insert c printable done => exact editorInsertChar_columnInLine inLine printable done
  | delete done => exact editorDeleteChar_columnInLine inLine done

theorem editorProcessKeypress_up (key : event.scancode = 0x48) (fuel : Nat)
    (saveStack bytecodeStack : Image) (editor : EditorState) (kernel : Kernel) :
    editorProcessKeypress fuel saveStack bytecodeStack event editor kernel =
      some (1, if editor.cy > 0 then { editor with cy := editor.cy - 1 } else editor, kernel) := by
  rw [editorProcessKeypress_of_key (by rw [key]; decide), editorKey, key]
  rfl

theorem editorProcessKeypress_down (key : event.scancode = 0x50) (fuel : Nat)
    (saveStack bytecodeStack : Image) (editor : EditorState) (kernel : Kernel) :
    editorProcessKeypress fuel saveStack bytecodeStack event editor kernel =
      some (1, if editor.cy < editorRows - 2 then { editor with cy := editor.cy + 1 } else editor,
        kernel) := by
  rw [editorProcessKeypress_of_key (by rw [key]; decide), editorKey, key]
  rfl

/-- One key keeps the column in its line exactly when it does not move to a row that
is too short. -/
theorem editing_column_iff {Opens : CString → FileSystem → Prop}
    {before after : EditorState × Kernel} (step : (editing Opens).Step before event after)
    (inLine : ColumnInLine before.1) : ColumnInLine after.1 ↔ MovesInLine before event := by
  by_cases up : event.scancode = 0x48
  · obtain ⟨fuel, saveStack, bytecodeStack, pressed⟩ := step
    rw [editorProcessKeypress_up up] at pressed
    obtain rfl := (Prod.mk.inj (Option.some.inj pressed)).2
    have noDown : event.scancode ≠ 0x50 := by rw [up]; decide
    split
    · rename_i below
      exact ⟨fun inLine => ⟨fun _ _ => inLine.2, fun down => absurd down noDown⟩,
        fun moves => ⟨inLine.1, moves.up up below⟩⟩
    · rename_i top
      exact ⟨fun _ => ⟨fun _ below => absurd below top, fun down => absurd down noDown⟩,
        fun _ => inLine⟩
  · by_cases down : event.scancode = 0x50
    · obtain ⟨fuel, saveStack, bytecodeStack, pressed⟩ := step
      rw [editorProcessKeypress_down down] at pressed
      obtain rfl := (Prod.mk.inj (Option.some.inj pressed)).2
      split
      · rename_i above
        exact ⟨fun inLine => ⟨fun up' => absurd up' up, fun _ _ => inLine.2⟩,
          fun moves => ⟨inLine.1, moves.down down above⟩⟩
      · rename_i bottom
        exact ⟨fun _ => ⟨fun up' => absurd up' up, fun _ above => absurd above bottom⟩,
          fun _ => inLine⟩
    · exact ⟨fun _ => ⟨fun up' => absurd up' up, fun down' => absurd down' down⟩,
        fun _ => (editing_effect step).columnInLine up down inLine⟩

end Keys

/-- The column is in its line in every state of a session on a file without a NUL in
its last line in which Up and Down go to rows that are long enough only. Any other
file opens behind the end of a line, and any other Up or Down leads there. -/
theorem cursorColumn_inLine {state : EditorState × Kernel}
    (reachable : ((editing OpensInLine).guard MovesInLine).Reachable state) :
    ColumnInLine state.1 ∧
    (∀ row, rowAt state.1.buffer state.1.cy = some row →
      0 ≤ state.1.cx ∧ state.1.cx ≤ strlen row) ∧
    (∀ event after, (editing OpensInLine).Step state event after →
      (ColumnInLine after.1 ↔ MovesInLine state event)) ∧
    ∀ filename fs previous editor, editorInit filename fs previous = some editor →
      (ColumnInLine editor ↔ OpensInLine filename fs) := by
  have inLine : ColumnInLine state.1 := by
    refine reachable.invariant (fun state => ColumnInLine state.1) ?_ ?_
    · rintro state ⟨filename, previous, opens, opened⟩
      exact (editorInit_column_iff opened).mpr opens
    · rintro before event after _ inLine ⟨moves, step⟩
      exact (editing_column_iff step inLine).mpr moves
  exact ⟨inLine, fun row found => ⟨inLine.1, (reachesColumn_iff found).mp inLine.2⟩,
    fun _ _ step => editing_column_iff step inLine, fun _ _ _ _ => editorInit_column_iff⟩

/-! ### Down to an empty row -/

/-- The arrow key down. -/
def downKey : KeyEvent := ⟨0x50, false, 0⟩

/-- The new document after an A has been typed. -/
def shortDocument : EditorState :=
  { newDocument with buffer := Function.update (fun _ => 0) 0 0x61, cx := 1, dirty := 1 }

theorem shortDocument_typed (Opens : CString → FileSystem → Prop) :
    (editing Opens).Step (newDocument, newKernel) letterKey (shortDocument, newKernel) :=
  ⟨0, fun _ => 0, fun _ => 0, rfl⟩

theorem newDocument_opensInLine : OpensInLine (literal ['n', 'e', 'w']) newKernel.fileSystem :=
  fun bytesRead content read => absurd read (newDocument_unread bytesRead content)

/-- One letter typed. -/
theorem cursorColumn_inLine_typed :
    ColumnInLine shortDocument ∧
    (∀ row, rowAt shortDocument.buffer 0 = some row →
      0 ≤ shortDocument.cx ∧ shortDocument.cx ≤ strlen row) ∧
    (∀ event after, (editing OpensInLine).Step (shortDocument, newKernel) event after →
      (ColumnInLine after.1 ↔ MovesInLine (shortDocument, newKernel) event)) ∧
    ∀ filename fs previous editor, editorInit filename fs previous = some editor →
      (ColumnInLine editor ↔ OpensInLine filename fs) :=
  cursorColumn_inLine ((newDocument_reachable newDocument_opensInLine).step
    ⟨⟨fun up => absurd up (by decide), fun down => absurd down (by decide)⟩,
      shortDocument_typed _⟩)

/-- After A and Down a second letter is put behind the end of an empty row, and the
length of the move wraps. -/
theorem cursorColumn_leaves :
    (∃ state row,
      ((editing fun _ _ => True).guard fun state _ => RowInDocument state.1).Reachable state ∧
        RowInDocument state.1 ∧ rowAt state.1.buffer state.1.cy = some row ∧
          BitVec.ofInt 32 (strlen row - state.1.cx) = 0xFFFFFFFF ∧
            ∀ fuel saveStack bytecodeStack, editorProcessKeypress fuel saveStack bytecodeStack
              letterKey state.1 state.2 = none) ∧
    ¬ ∀ state row,
      ((editing fun _ _ => True).guard fun state _ => RowInDocument state.1).Reachable state →
        rowAt state.1.buffer state.1.cy = some row →
          0 ≤ state.1.cx ∧ state.1.cx ≤ strlen row := by
  have start : ((editing fun _ _ => True).guard fun state _ => RowInDocument state.1).Reachable
      (newDocument, newKernel) := newDocument_reachable trivial
  have typed := start.step ⟨show RowInDocument newDocument by decide, shortDocument_typed _⟩
  have moved := @TransitionSystem.Reachable.step _ _ _ _ ({ shortDocument with cy := 1 }, newKernel)
    downKey typed ⟨show RowInDocument shortDocument by decide, 0, fun _ => 0, fun _ => 0, rfl⟩
  have empty : rowAt shortDocument.buffer 1 = some CString.nil := rfl
  have inside : RowInDocument { shortDocument with cy := 1 } := by decide
  refine ⟨⟨_, CString.nil, moved, inside, empty, rfl, fun _ _ _ => rfl⟩, fun always => ?_⟩
  exact absurd (always _ _ moved empty).2 (by decide)

end BrainDance.App.Cable
