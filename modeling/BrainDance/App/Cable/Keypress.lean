import BrainDance.App.Cable.Model
import BrainDance.Drivers.Keyboard
import BrainDance.Foundation.Transition

/-!
Owns the model of a session of the editor in `app/utils/cable.c`: `editor_init`,
`editor_insert_char`, `editor_delete_char` and `editor_process_keypress`, and all
that one key can do to the cursor and the document.

An access to a row that is not in `editor.buffer` has no result, nor has a
`memmove` that leaves the array. The length of a `memmove` is computed as the
source does, so a negative one is a large unsigned count.
-/

namespace BrainDance.App.Cable

open BrainDance.Foundation
open BrainDance.Libc
open BrainDance.Exec
open BrainDance.Fs.Bdfs
open BrainDance.Drivers

/-! ### Opening -/

/-- `editor_init` on the state that an earlier session left. -/
def editorInit (filename : CString) (fs : FileSystem) (previous : EditorState) :
    Option EditorState :=
  let opened : EditorState :=
    { cx := 0
      cy := 0
      buffer := memset previous.buffer 0 0 (editorRows * editorCols)
      filename := strncpy previous.filename filename (filenameSize - 1)
      dirty := 0 }
  match bdfsReadFile fs filename with
  | none => none
  | some (.error _) => some opened
  | some (.ok (_, content)) =>
      if content.length ≤ editorRows * editorCols then
        let loaded := loadFile content ⟨opened.buffer, 0, 0⟩
        some { opened with cx := loaded.col, cy := loaded.row, buffer := loaded.buffer }
      else none

/-! ### Editing -/

/-- The string at `editor.buffer[y]`, if the array has the row. -/
def rowAt (buffer : Image) (y : Int) : Option CString :=
  if 0 ≤ y ∧ y < editorRows then rowString buffer y.toNat else none

/-- `memmove` within `editor.buffer`. -/
def moveCells (buffer : Image) (dest src : Int) (count : Word) : Option Image :=
  if 0 ≤ dest ∧ dest + count.toNat ≤ editorRows * editorCols ∧
      0 ≤ src ∧ src + count.toNat ≤ editorRows * editorCols then
    some (memmove buffer dest.toNat src.toNat count.toNat)
  else none

/-- The offset of `editor.buffer[cy][cx]`. -/
def cellOffset (cx cy : Int) : Int := cy * editorCols + cx

def editorInsertChar (c : Byte) (editor : EditorState) : Option EditorState :=
  if editor.cx < editorCols - 1 then do
    let row ← rowAt editor.buffer editor.cy
    let cell := cellOffset editor.cx editor.cy
    let buffer ← moveCells editor.buffer (cell + 1) cell (BitVec.ofInt 32 (strlen row - editor.cx))
    some { editor with
      buffer := Function.update buffer cell.toNat c
      cx := editor.cx + 1
      dirty := 1 }
  else some editor

def editorDeleteChar (editor : EditorState) : Option EditorState :=
  if editor.cx > 0 then do
    let cx := editor.cx - 1
    let row ← rowAt editor.buffer editor.cy
    let cell := cellOffset cx editor.cy
    let buffer ← moveCells editor.buffer cell (cell + 1) (BitVec.ofInt 32 (strlen row - cx))
    some { editor with buffer := buffer, cx := cx, dirty := 1 }
  else if editor.cy > 0 then do
    let previous ← rowAt editor.buffer (editor.cy - 1)
    let row ← rowAt editor.buffer editor.cy
    if strlen previous + strlen row < editorCols - 1 then do
      let joined := strcat editor.buffer (cellOffset 0 (editor.cy - 1)).toNat previous row
      let buffer ← moveCells joined (cellOffset 0 editor.cy) (cellOffset 0 (editor.cy + 1))
        (BitVec.ofInt 32 ((editorRows - editor.cy - 1) * editorCols))
      some { editor with
        buffer := buffer
        cy := editor.cy - 1
        cx := strlen previous
        dirty := 1 }
    else some editor
  else some editor

/-! ### Keys -/

/-- The backspace character. -/
def backspace : Byte := 8

/-- The `switch` on the key's character. -/
def editorTypeChar (c : Byte) (editor : EditorState) : Option EditorState :=
  if c = 0 then some editor
  else if c = lineFeed then some { editor with cy := editor.cy + 1, cx := 0 }
  else if c = backspace then editorDeleteChar editor
  else if 32 ≤ c.toNat ∧ c.toNat ≤ 126 then editorInsertChar c editor
  else some editor

/-- The keys that do not end the session or save. -/
def editorKey (event : KeyEvent) (editor : EditorState) : Option EditorState :=
  if event.scancode = 0x48 then
    some (if editor.cy > 0 then { editor with cy := editor.cy - 1 } else editor)
  else if event.scancode = 0x50 then
    some (if editor.cy < editorRows - 2 then { editor with cy := editor.cy + 1 } else editor)
  else if event.scancode = 0x4B then
    some (if editor.cx > 0 then { editor with cx := editor.cx - 1 } else editor)
  else if event.scancode = 0x4D then
    (rowAt editor.buffer editor.cy).map fun row =>
      if editor.cx < strlen row then { editor with cx := editor.cx + 1 } else editor
  else editorTypeChar event.char editor

/-- The result of `editor_process_keypress`, and what it leaves. -/
def editorProcessKeypress (fuel : Nat) (saveStack bytecodeStack : Image) (event : KeyEvent)
    (editor : EditorState) (kernel : Kernel) : Option (Int × EditorState × Kernel) :=
  if event.scancode = 0 then some (1, editor, kernel)
  else if event.scancode = 0x1F ∧ event.ctrlPressed then
    (editorSaveFile fuel saveStack bytecodeStack editor kernel).map fun saved => (1, saved)
  else if event.scancode = 0x10 ∧ event.ctrlPressed then some (0, editor, kernel)
  else (editorKey event editor).map fun after => (1, after, kernel)

/-- Any other key is left to the rest of `editor_process_keypress`. -/
theorem editorProcessKeypress_of_key {event : KeyEvent}
    (plain : ∀ code ∈ [0, 0x1F, 0x10], event.scancode ≠ (code : Byte)) (fuel : Nat)
    (saveStack bytecodeStack : Image) (editor : EditorState) (kernel : Kernel) :
    editorProcessKeypress fuel saveStack bytecodeStack event editor kernel =
      (editorKey event editor).map fun after => (1, after, kernel) := by
  simp only [List.forall_mem_cons] at plain
  obtain ⟨none, save, quit, _⟩ := plain
  rw [editorProcessKeypress, if_neg none, if_neg (fun both => save both.1),
    if_neg (fun both => quit both.1)]

/-- Sessions on the files for which `Opens` holds: `editor_init`, then key after
key while `editor_process_keypress` returns 1. -/
def editing (Opens : CString → FileSystem → Prop) :
    TransitionSystem (EditorState × Kernel) KeyEvent where
  Init state := ∃ filename previous, Opens filename state.2.fileSystem ∧
    editorInit filename state.2.fileSystem previous = some state.1
  Step before event after := ∃ fuel saveStack bytecodeStack,
    editorProcessKeypress fuel saveStack bytecodeStack event before.1 before.2 = some (1, after)

/-! ### Inversion -/

section Inversion

variable {buffer : Image} {c : Byte} {event : KeyEvent} {before after : EditorState}

theorem rowAt_eq_some {y : Int} {row : CString} (found : rowAt buffer y = some row) :
    0 ≤ y ∧ y < editorRows ∧ rowString buffer y.toNat = some row := by
  unfold rowAt at found
  split at found
  · rename_i inside
    exact ⟨inside.1, inside.2, found⟩
  · contradiction

theorem moveCells_eq_some {dest src : Int} {count : Word} {moved : Image}
    (done : moveCells buffer dest src count = some moved) :
    0 ≤ dest ∧ dest + count.toNat ≤ editorRows * editorCols ∧ 0 ≤ src ∧
      src + count.toNat ≤ editorRows * editorCols ∧
        moved = blit buffer dest.toNat (fun offset => buffer (src.toNat + offset)) count.toNat := by
  unfold moveCells at done
  split at done
  · rename_i inside
    rw [← Option.some.inj done, memmove_eq_blit]
    exact ⟨inside.1, inside.2.1, inside.2.2.1, inside.2.2.2, rfl⟩
  · contradiction

/-- A full row stays as it is; in any other the rest of the line makes room. -/
theorem editorInsertChar_cases (done : editorInsertChar c before = some after) :
    after = before ∨ ∃ row moved, before.cx < 79 ∧ rowAt before.buffer before.cy = some row ∧
      moveCells before.buffer (cellOffset before.cx before.cy + 1)
        (cellOffset before.cx before.cy) (BitVec.ofInt 32 (strlen row - before.cx)) = some moved ∧
      after = { before with
        buffer := Function.update moved (cellOffset before.cx before.cy).toNat c
        cx := before.cx + 1
        dirty := 1 } := by
  unfold editorInsertChar at done
  split at done
  · rename_i room
    obtain ⟨row, found, done⟩ := Option.bind_eq_some_iff.mp done
    obtain ⟨moved, move, done⟩ := Option.bind_eq_some_iff.mp done
    exact .inr ⟨row, moved, room, found, move, (Option.some.inj done).symm⟩
  · exact .inl (Option.some.inj done).symm

/-- The rest of the line closes up, or the line is put behind the one above it and
the rows below follow. -/
theorem editorDeleteChar_cases (done : editorDeleteChar before = some after) :
    after = before ∨
      (∃ row moved, 0 < before.cx ∧ rowAt before.buffer before.cy = some row ∧
        moveCells before.buffer (cellOffset (before.cx - 1) before.cy)
          (cellOffset (before.cx - 1) before.cy + 1)
          (BitVec.ofInt 32 (strlen row - (before.cx - 1))) = some moved ∧
        after = { before with buffer := moved, cx := before.cx - 1, dirty := 1 }) ∨
      ∃ previous row moved, before.cx ≤ 0 ∧ 0 < before.cy ∧
        rowAt before.buffer (before.cy - 1) = some previous ∧
        rowAt before.buffer before.cy = some row ∧ strlen previous + strlen row < 79 ∧
        moveCells
          (strcat before.buffer (cellOffset 0 (before.cy - 1)).toNat previous row)
          (cellOffset 0 before.cy) (cellOffset 0 (before.cy + 1))
          (BitVec.ofInt 32 ((editorRows - before.cy - 1) * editorCols)) = some moved ∧
        after = { before with
          buffer := moved, cy := before.cy - 1, cx := strlen previous, dirty := 1 } := by
  unfold editorDeleteChar at done
  split at done
  · rename_i inLine
    obtain ⟨row, found, done⟩ := Option.bind_eq_some_iff.mp done
    obtain ⟨moved, move, done⟩ := Option.bind_eq_some_iff.mp done
    exact .inr (.inl ⟨row, moved, inLine, found, move, (Option.some.inj done).symm⟩)
  · rename_i atStart
    split at done
    · rename_i below
      obtain ⟨previous, foundPrevious, done⟩ := Option.bind_eq_some_iff.mp done
      obtain ⟨row, found, done⟩ := Option.bind_eq_some_iff.mp done
      split at done
      · rename_i fits
        obtain ⟨moved, move, done⟩ := Option.bind_eq_some_iff.mp done
        exact .inr (.inr ⟨previous, row, moved, Int.not_lt.mp atStart, below, foundPrevious,
          found, fits, move, (Option.some.inj done).symm⟩)
      · exact .inl (Option.some.inj done).symm
    · exact .inl (Option.some.inj done).symm

/-- What a key can do. -/
inductive KeyEffect (event : KeyEvent) (before after : EditorState) : Prop where
  | still (column : after.cx = before.cx) (row : after.cy = before.cy)
      (document : after.buffer = before.buffer)
  | up (key : event.scancode = 0x48) (below : 0 < before.cy)
      (moved : after = { before with cy := before.cy - 1 })
  | down (key : event.scancode = 0x50) (above : before.cy < 22)
      (moved : after = { before with cy := before.cy + 1 })
  | left (behind : 0 < before.cx) (moved : after = { before with cx := before.cx - 1 })
  | right (row : CString) (found : rowAt before.buffer before.cy = some row)
      (inLine : before.cx < strlen row) (moved : after = { before with cx := before.cx + 1 })
  | enter (key : event.char = lineFeed)
      (moved : after = { before with cy := before.cy + 1, cx := 0 })
  | insert (c : Byte) (printable : c ≠ 0) (done : editorInsertChar c before = some after)
  | delete (done : editorDeleteChar before = some after)

theorem KeyEffect.of_same (same : before = after) : KeyEffect event before after :=
  .still (by rw [same]) (by rw [same]) (by rw [same])

theorem editorTypeChar_effect (done : editorTypeChar event.char before = some after) :
    KeyEffect event before after := by
  unfold editorTypeChar at done
  split at done
  · exact .of_same (Option.some.inj done)
  · rename_i printable
    split at done
    · rename_i key
      exact .enter key (Option.some.inj done).symm
    · split at done
      · exact .delete done
      · split at done
        · exact .insert event.char printable done
        · exact .of_same (Option.some.inj done)

theorem editorKey_effect (done : editorKey event before = some after) :
    KeyEffect event before after := by
  unfold editorKey at done
  split at done
  · rename_i key
    have same := Option.some.inj done
    split at same
    · rename_i below
      exact .up key below same.symm
    · exact .of_same same
  · split at done
    · rename_i key
      have same := Option.some.inj done
      split at same
      · rename_i above
        exact .down key above same.symm
      · exact .of_same same
    · split at done
      · have same := Option.some.inj done
        split at same
        · rename_i behind
          exact .left behind same.symm
        · exact .of_same same
      · split at done
        · obtain ⟨row, found, same⟩ := Option.map_eq_some_iff.mp done
          split at same
          · rename_i inLine
            exact .right row found inLine same.symm
          · exact .of_same same
        · exact editorTypeChar_effect done

theorem editing_effect {Opens : CString → FileSystem → Prop} {before after : EditorState × Kernel}
    (step : (editing Opens).Step before event after) : KeyEffect event before.1 after.1 := by
  obtain ⟨fuel, saveStack, bytecodeStack, pressed⟩ := step
  unfold editorProcessKeypress at pressed
  split at pressed
  · obtain rfl := (Prod.mk.inj (Option.some.inj pressed)).2
    exact .of_same rfl
  · split at pressed
    · obtain ⟨saved, done, same⟩ := Option.map_eq_some_iff.mp pressed
      obtain rfl := (Prod.mk.inj same).2
      obtain ⟨_, _, done⟩ := Option.bind_eq_some_iff.mp done
      obtain ⟨_, _, done⟩ := Option.bind_eq_some_iff.mp done
      obtain ⟨_, _, done⟩ := Option.bind_eq_some_iff.mp done
      obtain rfl := Option.some.inj done
      exact .still rfl rfl rfl
    · split at pressed
      · exact absurd (Prod.mk.inj (Option.some.inj pressed)).1 (by decide)
      · obtain ⟨next, done, same⟩ := Option.map_eq_some_iff.mp pressed
        obtain rfl := (Prod.mk.inj same).2
        exact editorKey_effect done

end Inversion

end BrainDance.App.Cable
