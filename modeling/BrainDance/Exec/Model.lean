import BrainDance.Fs.Bdfs.Model
import BrainDance.Libc.Console.Model

/-!
Owns the model of `interpret_bdx` and `execute_bdx` in `exec/exec.c`. The
interpreter is given what a call does to the state it runs on, so that a
statement about it is one about the calls it makes. `ip` is the source's 32-bit
counter, and an offset from the bytecode's address wraps with it.

`fuel` bounds the instructions and the search for a string's NUL. The interpreter
has no result when a call has none or the fuel runs out.
-/

namespace BrainDance.Exec

open BrainDance.Foundation
open BrainDance.Libc
open BrainDance.Fs.Bdfs

/-- `OPCODE_SYSCALL_PRINT`. -/
def opcodeSyscallPrint : Byte := 0x01

/-- `OPCODE_SYSCALL_WRITE`. -/
def opcodeSyscallWrite : Byte := 0x03

/-- `OPCODE_EXIT`. -/
def opcodeExit : Byte := 0x04

/-- `print(str, COLOR_INPUT)` or `bdfs_write_file(path, data, len)`. -/
inductive BdxCall where
  | print (str : CString)
  | writeFile (path : CString) (data : Image) (len : Word)

/-- `&bytecode[ip]`. -/
def pointerAt (bytecode : Image) (ip : Word) : Image := fun offset =>
  bytecode (ip + BitVec.ofNat 32 offset).toNat

def interpretBdx {State : Type} (perform : BdxCall → State → Option State) (bytecode : Image) :
    Nat → Word → State → Option State
  | 0, _, _ => none
  | fuel + 1, ip, state =>
      let opcode := pointerAt bytecode ip 0
      let ip := ip + 1
      if opcode = opcodeSyscallPrint then do
        let str ← scanString (pointerAt bytecode ip) fuel 0
        let state ← perform (.print str) state
        interpretBdx perform bytecode fuel (ip + (BitVec.ofNat 32 (strlen str) + 1)) state
      else if opcode = opcodeSyscallWrite then do
        let path ← scanString (pointerAt bytecode ip) fuel 0
        let ip := ip + (BitVec.ofNat 32 (strlen path) + 1)
        let len := wordAt (pointerAt bytecode ip) 0
        let ip := ip + 4
        let state ← perform (.writeFile path (pointerAt bytecode ip) len) state
        interpretBdx perform bytecode fuel (ip + len) state
      else
        -- `OPCODE_EXIT` and every unknown opcode
        some state

/-! ### The calls -/

/-- What programs act on. -/
structure Kernel where
  console : Console
  fileSystem : FileSystem

/-- The call made; its result is not looked at. -/
def performCall : BdxCall → Kernel → Option Kernel
  | .print str, kernel =>
      (print (str.bytes ++ [0]) colorInput kernel.console).map fun console =>
        { kernel with console := console }
  | .writeFile path data len, kernel =>
      (bdfsWriteFile kernel.fileSystem path data len).map fun result =>
        { kernel with fileSystem := result.2 }

/-! ### Program files -/

/-- `MAX_BYTECODE_SIZE`. -/
abbrev maxBytecodeSize : Nat := 1024

/-- The array `bytecode` with the file's bytes in front of what the stack held. -/
def loadedBytecode (stack : Image) (program : List Byte) : Image :=
  memcpy stack 0 (fun offset => program.getD offset 0) program.length

/-- A file that is longer than the array `bytecode` has no result. -/
def executeBdx (fuel : Nat) (stack : Image) (path : CString) (kernel : Kernel) :
    Option (Int × Kernel) :=
  match bdfsReadFile kernel.fileSystem path with
  | none => none
  | some (.error _) => some (-1, kernel)
  | some (.ok (_, program)) =>
      if program.length ≤ maxBytecodeSize then
        (interpretBdx performCall (loadedBytecode stack program) fuel 0 kernel).map fun after =>
          (0, after)
      else none

end BrainDance.Exec
