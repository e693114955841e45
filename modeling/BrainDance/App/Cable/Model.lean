import BrainDance.Exec.Model

/-!
Owns the model of the editor in `app/utils/cable.c`: the document, saving it with
`editor_save_file`, which hands the bytes to `syscall_write` as a program of one
instruction, and the loop of `editor_init` that loads it.

`editor.buffer` is one array of 24 * 80 bytes, so a row's string may run on into
the rows below, but not past the array. A write past the end of a local array has
no result. `stack` stands for the bytes of such an array before it is written.
-/

namespace BrainDance.App.Cable

open BrainDance.Foundation
open BrainDance.Libc
open BrainDance.Exec

/-- `EDITOR_ROWS`. -/
abbrev editorRows : Nat := 24

/-- `EDITOR_COLS`. -/
abbrev editorCols : Nat := 80

/-- `sizeof(editor.filename)`. -/
abbrev filenameSize : Nat := 32

/-- `sizeof` of the array `bytecode`. -/
abbrev bytecodeSize : Nat := 1024

structure EditorState where
  cx : Int
  cy : Int
  buffer : Image
  filename : Image
  dirty : Int

/-! ### Saving -/

/-- The bytecode that `syscall_write` builds. -/
def syscallBytecode (stack : Image) (path : CString) (buffer : Image) (len : Word) :
    Option Image :=
  let pathEnd := 1 + (strlen path + 1)
  let dataAt := pathEnd + 4
  let exitAt := dataAt + len.toNat
  if exitAt < bytecodeSize then
    let bytecode := Function.update stack 0 opcodeSyscallWrite
    let bytecode := memcpy bytecode 1 path.image (strlen path + 1)
    let bytecode := storeWord bytecode pathEnd len
    let bytecode := memcpy bytecode dataAt buffer len.toNat
    some (Function.update bytecode exitAt opcodeExit)
  else none

def syscallWrite (fuel : Nat) (stack : Image) (path : CString) (buffer : Image) (len : Word)
    (kernel : Kernel) : Option Kernel := do
  let bytecode ← syscallBytecode stack path buffer len
  interpretBdx performCall bytecode fuel 0 kernel

/-- The string at `editor.buffer[y]`. -/
def rowString (buffer : Image) (y : Nat) : Option CString :=
  scanString buffer (editorRows * editorCols - y * editorCols) (y * editorCols)

/-- `save_buffer` and `len`. -/
structure SaveBuffer where
  bytes : Image
  len : Nat

/-- `memcpy(save_buffer + len, src, count); len += count`. -/
def SaveBuffer.append (saved : SaveBuffer) (src : Image) (count : Nat) : Option SaveBuffer :=
  if saved.len + count ≤ editorRows * editorCols then
    some ⟨memcpy saved.bytes saved.len src count, saved.len + count⟩
  else none

/-- A round of the loop of `editor_save_file`. -/
def saveRow (buffer : Image) (y : Nat) (saved : SaveBuffer) : Option SaveBuffer := do
  let row ← rowString buffer y
  if strlen row > 0 then
    let saved ← saved.append (fun offset => buffer (y * editorCols + offset)) (strlen row)
    if y < editorRows - 1 then saved.append (fun _ => lineFeed) 1 else some saved
  else some saved

/-- The first `count` rounds. -/
def saveRows (buffer : Image) : Nat → SaveBuffer → Option SaveBuffer
  | 0, saved => some saved
  | count + 1, saved => (saveRows buffer count saved).bind (saveRow buffer count)

/-- The bytes of the file that `editor_save_file` assembles. -/
def assembleFile (stack buffer : Image) : Option SaveBuffer :=
  saveRows buffer editorRows ⟨stack, 0⟩

def editorSaveFile (fuel : Nat) (saveStack bytecodeStack : Image) (editor : EditorState)
    (kernel : Kernel) : Option (EditorState × Kernel) := do
  let saved ← assembleFile saveStack editor.buffer
  let path ← scanString editor.filename filenameSize 0
  let kernel ← syscallWrite fuel bytecodeStack path saved.bytes (BitVec.ofNat 32 saved.len) kernel
  some ({ editor with dirty := 0 }, kernel)

/-! ### Loading -/

/-- `editor.buffer`, `row` and `col` in the loop of `editor_init`. -/
structure LoadState where
  buffer : Image
  row : Nat
  col : Nat

/-- A round of the loop. -/
def loadByte (state : LoadState) (byte : Byte) : LoadState :=
  if byte = lineFeed then { state with row := state.row + 1, col := 0 }
  else if state.col < editorCols - 1 then
    { state with
      buffer := Function.update state.buffer (state.row * editorCols + state.col) byte
      col := state.col + 1 }
  else state

/-- The loop over the bytes of the file, which stops behind the last row. -/
def loadFile : List Byte → LoadState → LoadState
  | [], state => state
  | byte :: rest, state =>
      if state.row < editorRows then loadFile rest (loadByte state byte) else state

end BrainDance.App.Cable
