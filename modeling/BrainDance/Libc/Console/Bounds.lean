import BrainDance.Libc.Console.Window

/-!
Owns that the console's counters stay in their ranges. `InBounds` holds at the
start and every call keeps it, in any order; from it follows that each call has a
result, since an access outside `scrollback_buffer` has none, and that the cells
behind the buffer and behind VGA memory keep what they hold.
-/

namespace BrainDance.Libc

open BrainDance.Foundation

/-- The four counters are rows and columns of the arrays they index. -/
structure InBounds (console : Console) : Prop where
  cursorRow : 0 ≤ console.cursorRow ∧ console.cursorRow < scrollbackRows
  cursorCol : 0 ≤ console.cursorCol ∧ console.cursorCol < vgaWidth
  scrollbackRow : 0 ≤ console.scrollbackRow ∧ console.scrollbackRow < scrollbackRows
  viewRow : 0 ≤ console.viewRow ∧ console.viewRow < scrollbackRows

/-- Only cells of the two arrays differ. -/
structure Confined (before after : Console) : Prop where
  buffer : ∀ row ≥ scrollbackRows, after.scrollbackBuffer row = before.scrollbackBuffer row
  vga : ∀ row col, ¬ (row < vgaHeight ∧ col < vgaWidth) → after.vga row col = before.vga row col

theorem Confined.refl (console : Console) : Confined console console :=
  ⟨fun _ _ => rfl, fun _ _ _ => rfl⟩

theorem Confined.trans {before middle after : Console} (first : Confined before middle)
    (second : Confined middle after) : Confined before after where
  buffer row behind := (second.buffer row behind).trans (first.buffer row behind)
  vga row col behind := (second.vga row col behind).trans (first.vga row col behind)

section Parts

variable {console : Console}

theorem InBounds.origin (row : console.cursorRow = 0) (col : console.cursorCol = 0)
    (scrollback : console.scrollbackRow = 0) (view : console.viewRow = 0) :
    InBounds console := by
  refine ⟨?_, ?_, ?_, ?_⟩
  · rw [row]
    decide
  · rw [col]
    decide
  · rw [scrollback]
    decide
  · rw [view]
    decide

theorem refreshScreen_confined (shown : 0 ≤ console.viewRow) :
    ∃ after, refreshScreen console = some after ∧ Confined console after ∧
      after.cursorRow = console.cursorRow ∧ after.cursorCol = console.cursorCol ∧
      after.scrollbackRow = console.scrollbackRow ∧ after.viewRow = console.viewRow := by
  refine ⟨_, refreshScreen_of_nonneg shown, ⟨fun _ _ => rfl, ?_⟩, rfl, rfl, rfl, rfl⟩
  intro row col behind
  exact if_neg fun inside => behind ⟨inside.1, inside.2.1⟩

theorem InBounds.refreshScreen (inBounds : InBounds console) :
    ∃ after, Libc.refreshScreen console = some after ∧ Confined console after ∧
      InBounds after := by
  obtain ⟨after, refreshed, confined, row, col, scrollback, view⟩ :=
    refreshScreen_confined inBounds.viewRow.1
  refine ⟨after, refreshed, confined, ?_⟩
  exact ⟨row ▸ inBounds.cursorRow, col ▸ inBounds.cursorCol,
    scrollback ▸ inBounds.scrollbackRow, view ▸ inBounds.viewRow⟩

/-- The last two steps of printing. -/
theorem InBounds.finish (inBounds : InBounds console) :
    ∃ after, ((Libc.refreshScreen console).bind fun console => some (updateCursor console)) =
        some after ∧ Confined console after ∧ InBounds after := by
  obtain ⟨shown, refreshed, confined, kept⟩ := inBounds.refreshScreen
  refine ⟨updateCursor shown, by rw [refreshed]; rfl, ⟨confined.buffer, confined.vga⟩, ?_⟩
  exact ⟨kept.cursorRow, kept.cursorCol, kept.scrollbackRow, kept.viewRow⟩

theorem storeCell_confined (console : Console) {row col : Int}
    (inBuffer : 0 ≤ row ∧ row < scrollbackRows)
    (inRow : 0 ≤ col ∧ col < vgaWidth) (cell : Cell) :
    ∃ after, storeCell console row col cell = some after ∧ Confined console after ∧
      after.cursorRow = console.cursorRow ∧ after.cursorCol = console.cursorCol ∧
      after.scrollbackRow = console.scrollbackRow ∧ after.viewRow = console.viewRow := by
  refine ⟨_, if_pos ⟨inBuffer, inRow⟩, ⟨?_, fun _ _ _ => rfl⟩, rfl, rfl, rfl, rfl⟩
  intro behind outside
  funext column
  exact if_neg fun here => by omega

end Parts

/-! ### Printing -/

section Printing

variable {console : Console}

/-- Storing or a newline leaves the column at most one behind the row's end. -/
theorem InBounds.putChar (inBounds : InBounds console) (c color : Byte) :
    ∃ after, Libc.putChar c color console = some after ∧ Confined console after ∧
      0 ≤ after.cursorRow ∧ 0 ≤ after.cursorCol ∧ after.cursorCol ≤ vgaWidth ∧
      (after.cursorRow < scrollbackRows ∨
        after.cursorRow = scrollbackRows ∧ after.cursorCol = 0) ∧
      after.scrollbackRow = console.scrollbackRow := by
  have ⟨row, col, _, _⟩ := inBounds
  unfold Libc.putChar
  by_cases newline : c = lineFeed
  · rw [if_pos newline]
    refine ⟨_, rfl, ⟨fun _ _ => rfl, fun _ _ _ => rfl⟩, ?_⟩
    dsimp only
    omega
  · rw [if_neg newline]
    obtain ⟨stored, placed, confined, storedRow, storedCol, scrollback, _⟩ :=
      storeCell_confined console row col ⟨c, color⟩
    rw [placed, Option.map_some]
    refine ⟨_, rfl, ⟨confined.buffer, confined.vga⟩, ?_⟩
    dsimp only
    omega

theorem wrapCursor_spec (console : Console) (col : 0 ≤ console.cursorCol)
    (full : console.cursorCol ≤ vgaWidth) :
    Confined console (wrapCursor console) ∧
      (wrapCursor console).scrollbackRow = console.scrollbackRow ∧
      (0 ≤ (wrapCursor console).cursorCol ∧ (wrapCursor console).cursorCol < vgaWidth) ∧
      (console.cursorCol < vgaWidth ∧ (wrapCursor console).cursorRow = console.cursorRow ∨
        console.cursorCol = vgaWidth ∧
          (wrapCursor console).cursorRow = console.cursorRow + 1) := by
  have width : vgaWidth = 80 := rfl
  unfold wrapCursor
  by_cases wraps : console.cursorCol ≥ vgaWidth
  · rw [if_pos wraps]
    refine ⟨⟨fun _ _ => rfl, fun _ _ _ => rfl⟩, rfl, ?_, ?_⟩ <;> dsimp only <;> omega
  · rw [if_neg wraps]
    exact ⟨.refl console, rfl, by omega, by omega⟩

/-- The furthest row is noted, and the buffer scrolls when that is one behind it. -/
theorem settle_spec (console : Console)
    (row : 0 ≤ console.cursorRow ∧ console.cursorRow ≤ scrollbackRows)
    (col : 0 ≤ console.cursorCol ∧ console.cursorCol < vgaWidth)
    (scrollback : 0 ≤ console.scrollbackRow ∧ console.scrollbackRow < scrollbackRows) :
    Confined console (followCursor (scrollBuffer (raiseScrollbackRow console))) ∧
      InBounds (followCursor (scrollBuffer (raiseScrollbackRow console))) := by
  have rows : scrollbackRows = 100 := rfl
  have raised : (raiseScrollbackRow console).cursorRow = console.cursorRow ∧
      (raiseScrollbackRow console).cursorCol = console.cursorCol ∧
      (raiseScrollbackRow console).scrollbackRow =
        max console.scrollbackRow console.cursorRow ∧
      Confined console (raiseScrollbackRow console) := by
    unfold raiseScrollbackRow
    split
    · exact ⟨rfl, rfl, by dsimp only; omega, fun _ _ => rfl, fun _ _ _ => rfl⟩
    · exact ⟨rfl, rfl, by omega, .refl console⟩
  obtain ⟨raisedRow, raisedCol, raisedScrollback, confined⟩ := raised
  have scrolled : Confined console (scrollBuffer (raiseScrollbackRow console)) ∧
      (scrollBuffer (raiseScrollbackRow console)).cursorRow = min console.cursorRow 99 ∧
      (scrollBuffer (raiseScrollbackRow console)).cursorCol = console.cursorCol ∧
      (scrollBuffer (raiseScrollbackRow console)).scrollbackRow =
        min 99 (max console.scrollbackRow console.cursorRow) := by
    unfold scrollBuffer
    split
    · refine ⟨confined.trans ⟨?_, fun _ _ _ => rfl⟩, by dsimp only; omega, raisedCol,
        by dsimp only; omega⟩
      intro behind outside
      funext column
      dsimp only [shiftUp]
      rw [if_neg (by omega), if_neg (by omega)]
    · exact ⟨confined, by omega, raisedCol, by omega⟩
  obtain ⟨confined, scrolledRow, scrolledCol, scrolledScrollback⟩ := scrolled
  refine ⟨⟨confined.buffer, confined.vga⟩, ?_, ?_, ?_, ?_⟩
  · show 0 ≤ (scrollBuffer _).cursorRow ∧ (scrollBuffer _).cursorRow < _
    omega
  · show 0 ≤ (scrollBuffer _).cursorCol ∧ (scrollBuffer _).cursorCol < _
    omega
  · show 0 ≤ (scrollBuffer _).scrollbackRow ∧ (scrollBuffer _).scrollbackRow < _
    omega
  · rw [followCursor_viewRow]
    omega

theorem InBounds.printChar (inBounds : InBounds console) (c color : Byte) :
    ∃ after, Libc.printChar c color console = some after ∧ Confined console after ∧
      InBounds after := by
  obtain ⟨stored, put, storedConfined, row, col, full, rowBelow, scrollback⟩ :=
    inBounds.putChar c color
  obtain ⟨wrapConfined, wrapScrollback, wrapCol, wrapRow⟩ := wrapCursor_spec stored col full
  have furthest := inBounds.scrollbackRow
  rw [← scrollback, ← wrapScrollback] at furthest
  have rows : scrollbackRows = 100 := rfl
  have width : vgaWidth = 80 := rfl
  obtain ⟨settleConfined, settled⟩ :=
    settle_spec (wrapCursor stored) (by omega) wrapCol furthest
  obtain ⟨after, finished, confined, kept⟩ := settled.finish
  refine ⟨after, ?_, (storedConfined.trans (wrapConfined.trans settleConfined)).trans confined,
    kept⟩
  rw [Libc.printChar, put]
  exact finished

/-- A blank at the cursor. -/
theorem InBounds.blankCursor (inBounds : InBounds console) :
    ∃ after, ((storeCell console console.cursorRow console.cursorCol blankCell).bind
        fun console => (Libc.refreshScreen console).bind
          fun console => some (updateCursor console)) = some after ∧
      Confined console after ∧ InBounds after := by
  have ⟨row, col, scrollback, view⟩ := inBounds
  obtain ⟨stored, placed, confined, storedRow, storedCol, storedScrollback, storedView⟩ :=
    storeCell_confined console row col blankCell
  have bounds : InBounds stored := ⟨by omega, by omega, by omega, by omega⟩
  obtain ⟨after, finished, finishConfined, kept⟩ := bounds.finish
  refine ⟨after, ?_, confined.trans finishConfined, kept⟩
  rw [placed]
  exact finished

theorem InBounds.printBackspace (inBounds : InBounds console) :
    ∃ after, Libc.printBackspace console = some after ∧ Confined console after ∧
      InBounds after := by
  have ⟨row, col, scrollback, view⟩ := inBounds
  have width : vgaWidth = 80 := rfl
  unfold Libc.printBackspace
  by_cases inRow : console.cursorCol > 0
  · rw [if_pos inRow]
    have moved : InBounds { console with cursorCol := console.cursorCol - 1 } :=
      ⟨row, by dsimp only; omega, scrollback, view⟩
    obtain ⟨after, blanked, confined, kept⟩ := moved.blankCursor
    exact ⟨after, blanked, ⟨confined.buffer, confined.vga⟩, kept⟩
  · rw [if_neg inRow]
    by_cases lower : console.cursorRow > 0
    · rw [if_pos lower]
      have moved : InBounds { console with
          cursorRow := console.cursorRow - 1, cursorCol := vgaWidth - 1 } :=
        ⟨by dsimp only; omega, by dsimp only; omega, scrollback, view⟩
      obtain ⟨after, blanked, confined, kept⟩ := moved.blankCursor
      exact ⟨after, blanked, ⟨confined.buffer, confined.vga⟩, kept⟩
    · rw [if_neg lower]
      exact inBounds.finish

end Printing

/-! ### The other calls -/

section Calls

variable {console : Console}

theorem clearScreen_inBounds (color : Byte) (console : Console) :
    ∃ after, clearScreen color console = some after ∧ Confined console after ∧
      InBounds after := by
  have bounds : InBounds
      { console with
        scrollbackBuffer := fun row col =>
          if row < scrollbackRows ∧ col < vgaWidth then ⟨0x20, color⟩
          else console.scrollbackBuffer row col
        cursorRow := 0
        cursorCol := 0
        scrollbackRow := 0
        viewRow := 0 } := .origin rfl rfl rfl rfl
  obtain ⟨after, refreshed, confined, kept⟩ := bounds.refreshScreen
  refine ⟨after, refreshed, ⟨fun row behind => ?_, confined.vga⟩, kept⟩
  rw [confined.buffer row behind]
  funext col
  exact if_neg fun inside => by omega

theorem InBounds.scrollUp (inBounds : InBounds console) :
    ∃ after, Libc.scrollUp console = some after ∧ Confined console after ∧ InBounds after := by
  have ⟨row, col, scrollback, view⟩ := inBounds
  unfold Libc.scrollUp
  split
  · have bounds : InBounds { console with viewRow := console.viewRow - 1 } :=
      ⟨row, col, scrollback, by dsimp only; omega⟩
    obtain ⟨after, refreshed, confined, kept⟩ := bounds.refreshScreen
    exact ⟨after, refreshed, ⟨confined.buffer, confined.vga⟩, kept⟩
  · exact ⟨console, rfl, .refl console, inBounds⟩

theorem InBounds.scrollDown (inBounds : InBounds console) :
    ∃ after, Libc.scrollDown console = some after ∧ Confined console after ∧
      InBounds after := by
  have ⟨row, col, scrollback, view⟩ := inBounds
  unfold Libc.scrollDown
  split
  · have bounds : InBounds { console with viewRow := console.viewRow + 1 } :=
      ⟨row, col, scrollback, by dsimp only; omega⟩
    obtain ⟨after, refreshed, confined, kept⟩ := bounds.refreshScreen
    exact ⟨after, refreshed, ⟨confined.buffer, confined.vga⟩, kept⟩
  · exact ⟨console, rfl, .refl console, inBounds⟩

theorem InBounds.setCursor (inBounds : InBounds console) (x y : Nat) :
    Confined console (Libc.setCursor x y console) ∧ InBounds (Libc.setCursor x y console) := by
  have rows : scrollbackRows = 100 := rfl
  have height : vgaHeight = 25 := rfl
  unfold Libc.setCursor
  split
  · exact ⟨.refl console, inBounds⟩
  · exact ⟨⟨fun _ _ => rfl, fun _ _ _ => rfl⟩, by dsimp only [updateCursor]; omega,
      by dsimp only [updateCursor]; omega, inBounds.scrollbackRow, inBounds.viewRow⟩

end Calls

/-! ### Runs -/

/-- A call of the console; `set_cursor` gets a position that is not negative. -/
inductive ConsoleCall where
  | printChar (c color : Byte)
  | printBackspace
  | clearScreen (color : Byte)
  | scrollUp
  | scrollDown
  | setCursor (x y : Nat)
deriving DecidableEq

def ConsoleCall.exec (console : Console) : ConsoleCall → Option Console
  | .printChar c color => Libc.printChar c color console
  | .printBackspace => Libc.printBackspace console
  | .clearScreen color => Libc.clearScreen color console
  | .scrollUp => Libc.scrollUp console
  | .scrollDown => Libc.scrollDown console
  | .setCursor x y => some (Libc.setCursor x y console)

/-- The console before the first call: `scrollback_buffer` and the counters are
zero, VGA memory and the hardware cursor are as they were found. -/
def startConsole (vga : Nat → Nat → Cell) (hardwareCursor : BitVec 16) : Console where
  cursorRow := 0
  cursorCol := 0
  scrollbackRow := 0
  viewRow := 0
  scrollbackBuffer := fun _ _ => ⟨0, 0⟩
  vga := vga
  hardwareCursor := hardwareCursor

theorem InBounds.exec {console : Console} (inBounds : InBounds console) (call : ConsoleCall) :
    ∃ after, call.exec console = some after ∧ Confined console after ∧ InBounds after := by
  cases call with
  | printChar c color => exact inBounds.printChar c color
  | printBackspace => exact inBounds.printBackspace
  | clearScreen color => exact clearScreen_inBounds color console
  | scrollUp => exact inBounds.scrollUp
  | scrollDown => exact inBounds.scrollDown
  | setCursor x y => exact ⟨_, rfl, inBounds.setCursor x y⟩

theorem InBounds.run {console : Console} (inBounds : InBounds console)
    (calls : List ConsoleCall) :
    ∃ after, calls.foldlM ConsoleCall.exec console = some after ∧ Confined console after ∧
      InBounds after := by
  induction calls generalizing console with
  | nil => exact ⟨console, rfl, .refl console, inBounds⟩
  | cons call rest inductionHypothesis =>
      obtain ⟨middle, first, confined, kept⟩ := inBounds.exec call
      obtain ⟨after, run, restConfined, inside⟩ := inductionHypothesis kept
      refine ⟨after, ?_, confined.trans restConfined, inside⟩
      rw [List.foldlM_cons, first]
      exact run

/-- Any calls in any order from the start have a result, with every counter in its
range and no cell outside the arrays changed. -/
theorem console_inBounds (vga : Nat → Nat → Cell) (hardwareCursor : BitVec 16)
    (calls : List ConsoleCall) :
    ∃ after, calls.foldlM ConsoleCall.exec (startConsole vga hardwareCursor) = some after ∧
      Confined (startConsole vga hardwareCursor) after ∧ InBounds after := by
  exact (InBounds.origin rfl rfl rfl rfl).run calls

end BrainDance.Libc
