import BrainDance.App.Cable.Save
import BrainDance.Fs.Bdfs.Steps
import BrainDance.Shell.Model

/-!
Owns the commands of `shell/shell.c` that change files, and runs of them. What
they print is left out. `.bdx` programs are executed as `execute_bdx` does, with
any bytes on the stack behind the loaded ones. A program's own bytes may be any:
besides the commands a run may put them into a file. Of `cable` a run has the saves,
of whatever the editor shows.
-/

namespace BrainDance.Shell

open BrainDance.Foundation
open BrainDance.Libc
open BrainDance.Exec
open BrainDance.Fs.Bdfs

/-! ### Commands -/

inductive Command where
  | touch (filename : CString)
  | write (filename data : CString)
  | rm (filename : CString)
  | mv (oldFilename newFilename : CString)
  | mkdir (dirname : CString)
  | cd (dirname : CString)
  | execute (path : CString) (stack : Image)

/-- The call of the file system that a command makes, its result dropped. -/
def runOp (op : Op) (kernel : Kernel) : Option Kernel :=
  (op.exec kernel.fileSystem).map fun result => { kernel with fileSystem := result.2 }

def Command.exec (fuel : Nat) (kernel : Kernel) : Command → Option Kernel
  | .touch filename => runOp (.createFile filename) kernel
  | .write filename data =>
      runOp (.writeFile filename data.image (BitVec.ofNat 32 (strlen data))) kernel
  | .rm filename => runOp (.deleteFile filename) kernel
  | .mv oldFilename newFilename => runOp (.renameFile oldFilename newFilename) kernel
  | .mkdir dirname => runOp (.mkdir dirname) kernel
  | .cd dirname => runOp (.chdir dirname) kernel
  | .execute path stack => (executeBdx fuel stack path kernel).map Prod.snd

/-- `".bdx"`. -/
def bdxSuffix : CString := literal ".bdx".toList

/-- The data of a `write` comes from the command line, and a line that executes a program ends
in `.bdx`. -/
def Command.FitsLine : Command → Prop
  | .write _ data => strlen data < maxCommandLength
  | .execute path _ => bdxSuffix.bytes <:+ path.bytes
  | _ => True

/-- A command, a save in the editor that `cable` runs, or a program's bytes put into
a file. -/
inductive Event where
  | command (command : Command)
  | save (editor : App.Cable.EditorState) (saveStack bytecodeStack : Image)
  | place (filename : CString) (program : List Byte)

/-- The shell on a new file system. -/
def shellSystem : TransitionSystem Kernel Event where
  Init kernel := system.Init kernel.fileSystem
  Step before event after :=
    match event with
    | .command command => command.FitsLine ∧ ∃ fuel, command.exec fuel before = some after
    | .save editor saveStack bytecodeStack => ∃ fuel edited,
        App.Cable.editorSaveFile fuel saveStack bytecodeStack editor before = some (edited, after)
    | .place filename program => program.length ≤ maxBytecodeSize ∧
        runOp (.writeFile filename (fun offset => program.getD offset 0)
          (BitVec.ofNat 32 program.length)) before = some after

/-! ### Inversion -/

section Inversion

variable {fuel : Nat} {before after : Kernel}

theorem runOp_of_exec {op : Op} {code : Int} {fs : FileSystem}
    (executed : op.exec before.fileSystem = some (code, fs)) :
    runOp op before = some { before with fileSystem := fs } := by
  rw [runOp, executed]
  rfl

theorem runOp_eq_some {op : Op} (ran : runOp op before = some after) :
    ∃ code, op.exec before.fileSystem = some (code, after.fileSystem) := by
  obtain ⟨⟨code, fs⟩, executed, rfl⟩ := Option.map_eq_some_iff.mp ran
  exact ⟨code, executed⟩

/-- A program that cannot be read changes nothing; any other makes the calls on the
way to its stop. -/
theorem executeBdx_cases {path : CString} {stack : Image} {result : Int}
    (executed : executeBdx fuel stack path before = some (result, after)) :
    after = before ∨ ∃ bytesRead program calls stop,
      bdfsReadFile before.fileSystem path = some (.ok (bytesRead, program)) ∧
        (flow (loadedBytecode stack program)).Run 0 calls stop ∧
          Stops (loadedBytecode stack program) stop ∧
            performAll performCall calls before = some after := by
  unfold executeBdx at executed
  cases loaded : bdfsReadFile before.fileSystem path with
  | none => simp [loaded] at executed
  | some outcome =>
      rw [loaded] at executed
      cases outcome with
      | error code => exact .inl (Prod.mk.inj (Option.some.inj executed)).2.symm
      | ok read =>
          obtain ⟨bytesRead, program⟩ := read
          dsimp only at executed
          split at executed
          · obtain ⟨final, interpreted, same⟩ := Option.map_eq_some_iff.mp executed
            obtain rfl := (Prod.mk.inj same).2
            obtain ⟨calls, stop, run, stops, performed⟩ :=
              interpretBdx_eq_some_iff.mp ⟨fuel, interpreted⟩
            exact .inr ⟨bytesRead, program, calls, stop, rfl, run, stops, performed⟩
          · contradiction

theorem writeFile_bytesOk {filename : CString} {buffer : Image} {bytes : Nat}
    (short : bytes ≤ 1024) :
    (Op.writeFile filename buffer (BitVec.ofNat 32 bytes)).BytesOk
      fun bytes => bytes.toNat ≤ 1024 := by
  show (BitVec.ofNat 32 bytes).toNat ≤ 1024
  rw [BitVec.toNat_ofNat]
  exact (Nat.mod_le _ _).trans short

/-- A step is a call of the file system that writes at most 1024 bytes, or the
execution of a program. -/
theorem shellStep_cases {event : Event} (step : shellSystem.Step before event after) :
    (∃ op : Op, op.BytesOk (fun bytes => bytes.toNat ≤ 1024) ∧
        ∃ code, op.exec before.fileSystem = some (code, after.fileSystem)) ∨
      ∃ path stack fuel, event = .command (.execute path stack) ∧
        (executeBdx fuel stack path before).map Prod.snd = some after := by
  have line : maxCommandLength = 256 := rfl
  have array : App.Cable.bytecodeSize = 1024 := rfl
  cases event with
  | save editor saveStack bytecodeStack =>
      obtain ⟨fuel, edited, done⟩ := step
      obtain ⟨saved, path, _, _, fits, performed⟩ := App.Cable.write_of_editorSaveFile done
      obtain ⟨⟨code, fs⟩, written, rfl⟩ := Option.map_eq_some_iff.mp performed
      unfold App.Cable.FitsBytecode at fits
      have short : (BitVec.ofNat 32 saved.len).toNat ≤ 1024 := by omega
      exact .inl ⟨.writeFile path saved.bytes (BitVec.ofNat 32 saved.len), short, code, written⟩
  | place filename program =>
      obtain ⟨fits, ran⟩ := step
      exact .inl ⟨_, writeFile_bytesOk fits, runOp_eq_some ran⟩
  | command command =>
      obtain ⟨fitsLine, fuel, ran⟩ := step
      cases command with
      | touch filename => exact .inl ⟨.createFile filename, trivial, runOp_eq_some ran⟩
      | write filename data =>
          have bounded : strlen data < maxCommandLength := fitsLine
          exact .inl ⟨_, writeFile_bytesOk (by omega), runOp_eq_some ran⟩
      | rm filename => exact .inl ⟨.deleteFile filename, trivial, runOp_eq_some ran⟩
      | mv oldFilename newFilename =>
          exact .inl ⟨.renameFile oldFilename newFilename, trivial, runOp_eq_some ran⟩
      | mkdir dirname => exact .inl ⟨.mkdir dirname, trivial, runOp_eq_some ran⟩
      | cd dirname => exact .inl ⟨.chdir dirname, trivial, runOp_eq_some ran⟩
      | execute path stack => exact .inr ⟨path, stack, fuel, rfl, ran⟩

/-- A print leaves the files alone. -/
theorem performCall_cases {call : BdxCall} (performed : performCall call before = some after) :
    after.fileSystem = before.fileSystem ∨ ∃ path data len code,
      call = .writeFile path data len ∧
        bdfsWriteFile before.fileSystem path data len = some (code, after.fileSystem) := by
  cases call with
  | print str =>
      obtain ⟨console, _, rfl⟩ := Option.map_eq_some_iff.mp performed
      exact .inl rfl
  | writeFile path data len =>
      obtain ⟨⟨code, fs⟩, written, rfl⟩ := Option.map_eq_some_iff.mp performed
      exact .inr ⟨path, data, len, code, rfl, written⟩

/-- The calls of a program are calls of the file system. -/
theorem performAll_reachable {calls : List BdxCall}
    (reachable : system.Reachable before.fileSystem)
    (performed : performAll performCall calls before = some after) :
    system.Reachable after.fileSystem := by
  induction calls generalizing before with
  | nil => exact Option.some.inj performed ▸ reachable
  | cons call rest inductionHypothesis =>
      obtain ⟨middle, first, others⟩ := Option.bind_eq_some_iff.mp performed
      refine inductionHypothesis ?_ others
      rcases performCall_cases first with same | ⟨path, data, len, code, _, written⟩
      · rw [same]
        exact reachable
      · exact @reachable_exec _ _ (.writeFile path data len) code reachable written

/-- The shell does to its files what runs of the file system do. -/
theorem shell_fileSystem_reachable {kernel : Kernel} (reachable : shellSystem.Reachable kernel) :
    system.Reachable kernel.fileSystem := by
  refine reachable.invariant (fun kernel => system.Reachable kernel.fileSystem) ?_ ?_
  · exact fun _ initial => .init initial
  · rintro before event after _ reached step
    rcases shellStep_cases step with ⟨op, _, code, executed⟩ | ⟨path, stack, fuel, _, ran⟩
    · exact .step reached ⟨code, executed⟩
    · obtain ⟨⟨result, done⟩, executed, rfl⟩ := Option.map_eq_some_iff.mp ran
      rcases executeBdx_cases executed with rfl | ⟨_, _, _, _, _, _, _, performed⟩
      · exact reached
      · exact performAll_reachable reached performed

end Inversion

end BrainDance.Shell
