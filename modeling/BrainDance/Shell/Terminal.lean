import BrainDance.Foundation.Transition
import BrainDance.Shell.Line
import BrainDance.Shell.Session

/-!
Owns the terminal that the shell is: the text printed since the screen was last cleared, the
line being typed, and the files. No console, command buffer or bytecode is left in it. A
command adds its text and changes the files; while the editor draws over the screen there is
no text to add to.
-/

namespace BrainDance.Shell

open BrainDance.Foundation
open BrainDance.Libc
open BrainDance.Exec
open BrainDance.Fs.Bdfs
open BrainDance.App.Cable
open BrainDance.Drivers

/-! ### Effects -/

/-- What commands leave: the text on the screen, unless the editor has drawn over it, the files,
and what the editor holds. -/
structure View where
  printed : Option (List Byte)
  fileSystem : FileSystem
  editor : EditorState

def View.prints (view : View) (text : List Byte) : View :=
  { view with printed := view.printed.map fun printed => printed ++ text }

def View.cleared (view : View) : View := { view with printed := some [] }

/-- A call of a program. -/
def performView : BdxCall → View → Option View
  | .print str, view => some (view.prints str.bytes)
  | .writeFile path data len, view =>
      (bdfsWriteFile view.fileSystem path data len).map fun result =>
        { view with fileSystem := result.2 }

/-- A program run on its calls alone. -/
def executeView (fuel : Nat) (stack : Image) (path : CString) (view : View) : Option View :=
  match bdfsReadFile view.fileSystem path with
  | none => none
  | some (.error _) => some view
  | some (.ok (_, program)) =>
      if program.length ≤ maxBytecodeSize then
        interpretBdx performView (loadedBytecode stack program) fuel 0 view
      else none

/-- A save writes the lines that the editor shows. -/
def saveView (saveStack : Image) (editor : EditorState) (fs : FileSystem) :
    Option (EditorState × FileSystem) := do
  let saved ← assembleFile saveStack editor.buffer
  let path ← scanString editor.filename filenameSize 0
  let result ← bdfsWriteFile fs path saved.bytes (BitVec.ofNat 32 saved.len)
  some ({ editor with dirty := 0 }, result.2)

/-- A key of the editor, without its drawing. -/
def keyView (round : EditorRound) (editor : EditorState) (fs : FileSystem) :
    Option (Int × EditorState × FileSystem) :=
  if round.event.scancode = 0 then some (1, editor, fs)
  else if round.event.scancode = 0x1F ∧ round.event.ctrlPressed then
    (saveView round.saveStack editor fs).map fun saved => (1, saved)
  else if round.event.scancode = 0x10 ∧ round.event.ctrlPressed then some (0, editor, fs)
  else (editorKey round.event editor).map fun after => (1, after, fs)

/-- The keys of the editor up to the one that quits. -/
def editView : List EditorRound → EditorState × FileSystem → Option (EditorState × FileSystem)
  | [], _ => none
  | round :: rest, state => do
      let result ← keyView round state.1 state.2
      if result.1 = 0 then some result.2 else editView rest result.2

/-- The editor draws over the text. -/
def cableView (rounds : List EditorRound) (filename : CString) (view : View) : Option View := do
  let editor ← editorInit filename view.fileSystem view.editor
  let result ← editView rounds (editor, view.fileSystem)
  some ⟨none, result.2, result.1⟩

def tellReport (view : View) (report : Report) : View :=
  { view.prints (outputText report.1) with fileSystem := report.2 }

def Call.effect (fuel : Nat) (occasion : Occasion) (view : View) : Call → Option View
  | .clear | .clearScreen _ => some view.cleared
  | .cableMain filename => cableView occasion.rounds filename view
  | .executeBdx path => executeView fuel occasion.stack path view
  | call => (call.report occasion.toSurroundings view.fileSystem).map (tellReport view)

/-! ### Lines -/

/-- The calls of a line that has a word. -/
def lineCalls (executeBdx : CString → Int) (command : CString) : Option (List Call) :=
  (nextWord command).map fun split =>
    match handlers.find? fun entry => entry.1 = split.1 with
    | some entry => entry.2.calls split.2
    | none => otherCalls executeBdx command

/-- The prompt. -/
def promptText (fs : FileSystem) : Option (List Byte) :=
  (bdfsGetCurrentDirName fs).map fun dirName => dirName.bytes ++ asciiBytes "> ".toList

/-! ### The terminal -/

structure Terminal where
  printed : List Byte
  line : CString
  fileSystem : FileSystem
  editor : EditorState

/-- What a key other than Enter does to the line. -/
def editCommand (line : CString) (key : Byte) : CString :=
  ⟨editKey line.bytes key, editKey_noNul line.noNul key⟩

/-- Enter puts the line into the text, and its commands print behind it. -/
def Terminal.enter (fuel : Nat) (occasion : Occasion) (terminal : Terminal) : Option Terminal := do
  let calls ← lineCalls (bdxResult terminal.fileSystem) terminal.line
  let view ← calls.foldlM (Call.effect fuel occasion)
    ⟨some (terminal.printed ++ terminal.line.bytes ++ [lineFeed]), terminal.fileSystem,
      terminal.editor⟩
  let printed ← view.printed
  let prompt ← promptText view.fileSystem
  some ⟨printed ++ prompt, CString.nil, view.fileSystem, view.editor⟩

def terminal : TransitionSystem Terminal SessionEvent where
  Init state := state.line = CString.nil ∧ system.Init state.fileSystem ∧
    ∃ messages prompt, promptText state.fileSystem = some prompt ∧
      state.printed = messages ++ asciiBytes "Welcome to BrainDance OS\n".toList ++ prompt
  Step before event after :=
    match event with
    | .key c => c ≠ lineFeed ∧ { before with line := editCommand before.line c } = after
    | .enter occasion => ∃ fuel, before.enter fuel occasion = some after

end BrainDance.Shell
