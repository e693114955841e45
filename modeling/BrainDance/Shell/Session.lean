import BrainDance.App.Cable.Screen
import BrainDance.Shell.Report

/-!
Owns whole sessions of `shell/shell.c`: `start_shell`, the keys of a line, and Enter, which
hands the line to `process_command`, makes the calls that this makes and prints the next
prompt. The screen, the files and the editor's state go from command to command.
-/

namespace BrainDance.Shell

open BrainDance.Foundation
open BrainDance.Libc
open BrainDance.Exec
open BrainDance.Fs.Bdfs
open BrainDance.App.Cable
open BrainDance.Drivers

/-! ### Commands -/

/-- A key that the editor reads, and what the arrays of `editor_draw_status_bar`,
`editor_save_file` and `syscall_write` hold before it. -/
structure EditorRound where
  event : KeyEvent
  statusStack : Image
  saveStack : Image
  bytecodeStack : Image

/-- What a line meets besides the state of the shell: the keys of the editor if it opens one,
what the array of `execute_bdx` holds, and what `cmd` and the pointer of `strtok` hold. -/
structure Occasion extends Surroundings where
  rounds : List EditorRound
  stack : Image
  cmd : Fin maxCommandLength → Byte
  strtokState : Option Nat

/-- What commands act on. -/
abbrev Machine := EditorState × Kernel

/-- The loop of `cable_main` over the keys that come. It has not ended when they run out. -/
def cableLoop (fuel : Nat) : List EditorRound → Machine → Option Machine
  | [], _ => none
  | round :: rest, machine => do
      let result ← cableRound fuel round.statusStack round.saveStack round.bytecodeStack
        round.event machine.1 machine.2
      if result.1 = 0 then some result.2 else cableLoop fuel rest result.2

/-- A call of `cable_main`. -/
def cableCommand (fuel : Nat) (rounds : List EditorRound) (filename : CString)
    (machine : Machine) : Option Machine :=
  (editorInit filename machine.2.fileSystem machine.1).bind fun editor =>
    cableLoop fuel rounds (editor, machine.2)

def onConsole (routine : Console → Option Console) (machine : Machine) : Option Machine :=
  (routine machine.2.console).map fun console => (machine.1, { machine.2 with console := console })

/-- The report printed, and its file system left. -/
def giveReport (machine : Machine) (report : Report) : Option Machine :=
  (printAll report.1 machine.2.console).map fun console => (machine.1, ⟨console, report.2⟩)

def Call.perform (fuel : Nat) (occasion : Occasion) (machine : Machine) : Call → Option Machine
  | .clear => onConsole (Libc.clearScreen 0x07) machine
  | .clearScreen color => onConsole (Libc.clearScreen color) machine
  | .cableMain filename => cableCommand fuel occasion.rounds filename machine
  | .executeBdx path =>
      (Exec.executeBdx fuel occasion.stack path machine.2).map fun result => (machine.1, result.2)
  | call => (call.report occasion.toSurroundings machine.2.fileSystem).bind (giveReport machine)

/-! ### Lines -/

/-- What `execute_bdx` returns, where it returns. -/
def bdxResult (fs : FileSystem) (path : CString) : Int :=
  match bdfsReadFile fs path with
  | some (.error _) => -1
  | _ => 0

/-- A line as long as the array `cmd` is not copied into it. -/
def processLine (occasion : Occasion) (fs : FileSystem) (command : CString) : Option (List Call) :=
  if fits : command.bytes.length < maxCommandLength then
    processCommand (bdxResult fs) occasion.cmd occasion.strtokState command fits
  else none

/-- The array `dir_name` has room for `BDFS_MAX_FILENAME_LENGTH` bytes. -/
def printPrompt (kernel : Kernel) : Option Console :=
  (bdfsGetCurrentDirName kernel.fileSystem).bind fun dirName =>
    if strlen dirName < bdfsMaxFilenameLength then
      printAll [.print dirName colorPrompt, .print (message "> ") colorPrompt] kernel.console
    else none

/-! ### Sessions -/

/-- The shell's line and console, the files and `editor`. -/
structure Session where
  shell : CommandLine
  fileSystem : FileSystem
  editor : EditorState

/-- Enter. -/
def Session.enter (fuel : Nat) (occasion : Occasion) (session : Session) : Option Session := do
  let entered ← enterCommand session.shell
  let command ← scanString entered.commandBuffer maxCommandLength 0
  let calls ← processLine occasion session.fileSystem command
  let machine ← calls.foldlM (Call.perform fuel occasion)
    (session.editor, ⟨entered.console, session.fileSystem⟩)
  let console ← printPrompt machine.2
  some ⟨⟨console, memset entered.commandBuffer 0 0 maxCommandLength, 0⟩, machine.2.fileSystem,
    machine.1⟩

/-- `start_shell` up to its loop. -/
def startShell (session : Session) : Option Session := do
  let console ← printAll [.print (message "Welcome to BrainDance OS\n") colorPrompt]
    session.shell.console
  let console ← printPrompt ⟨console, session.fileSystem⟩
  some { session with shell := { session.shell with console := console } }

/-- A character that `keyboard_get_char` returns; Enter comes with what its line meets. -/
inductive SessionEvent where
  | key (c : Byte)
  | enter (occasion : Occasion)

/-- The shell on a console that shows the messages of the boot and on new files. -/
def shellSession : TransitionSystem Session SessionEvent where
  Init session := ∃ booted messages, booted.shell.commandLen = 0 ∧
    Transcribes messages [] booted.shell.console ∧ system.Init booted.fileSystem ∧
      startShell booted = some session
  Step before event after :=
    match event with
    | .key c => c ≠ lineFeed ∧
        (shellKey c before.shell).map (fun shell => { before with shell := shell }) = some after
    | .enter occasion => ∃ fuel, before.enter fuel occasion = some after

end BrainDance.Shell
