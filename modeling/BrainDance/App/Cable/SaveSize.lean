import BrainDance.App.Cable.Rows
import BrainDance.App.Cable.Syscall

/-!
Owns how large a save is. The file that `editor_save_file` assembles always fits its
buffer, which has the size of the document. The array that `syscall_write` builds
its bytecode in is smaller, so the bytecode of a nearly full document overruns it.
-/

namespace BrainDance.App.Cable

open BrainDance.Foundation
open BrainDance.Libc

/-- The bytes of a row in the file: its characters, and a newline unless the row is
empty or the last. -/
def rowSize (y length : Nat) : Nat :=
  if length = 0 then 0 else if y < editorRows - 1 then length + 1 else length

/-- The bytes of the first `count` rows. -/
def documentSize (buffer : Image) : Nat → Nat
  | 0 => 0
  | count + 1 => documentSize buffer count + rowSize count (strlen (rowOf buffer count))

/-- The file fits `save_buffer` and the bytecode of its write fits `bytecode`. -/
def SaveFits (saveStack bytecodeStack : Image) (editor : EditorState) : Prop :=
  ∃ saved path bytecode, assembleFile saveStack editor.buffer = some saved ∧
    saved.len ≤ editorRows * editorCols ∧
    scanString editor.filename filenameSize 0 = some path ∧
    syscallBytecode bytecodeStack path saved.bytes (BitVec.ofNat 32 saved.len) = some bytecode

section Size

variable {buffer : Image} {editor : EditorState} {path : CString}

theorem rowBytes_length (y : Nat) (row : CString) :
    (rowBytes y row).length = rowSize y (strlen row) := by
  rw [rowBytes, rowSize, strlen]
  by_cases empty : row.bytes = []
  · rw [if_pos empty, empty]
    rfl
  · rw [if_neg empty, if_neg (mt List.length_eq_zero_iff.mp empty)]
    split
    · rw [List.length_append, List.length_singleton]
    · rfl

theorem fileBytes_length (buffer : Image) (count : Nat) :
    (fileBytes buffer count).length = documentSize buffer count := by
  induction count with
  | zero => rfl
  | succ count inductionHypothesis =>
      rw [fileBytes, documentSize, List.length_append, inductionHypothesis, rowBytes_length]

/-- The file is assembled, and its length is the size of the document. -/
theorem assembleFile_of_terminated (terminated : RowsTerminated buffer) (saveStack : Image) :
    ∃ saved, assembleFile saveStack buffer = some saved ∧
      saved.len = documentSize buffer editorRows ∧ saved.len ≤ editorRows * editorCols := by
  have fits := terminated.fileBytes_length le_rfl
  obtain ⟨saved, assembled, len, _⟩ := saveRows_has saveStack terminated.rowsEnd fits
  refine ⟨saved, assembled, len.trans (fileBytes_length buffer editorRows), ?_⟩
  rw [len]
  exact fits

/-- A save stays in its first array always, and in its second exactly when the file,
the path and seven more bytes fit it. -/
theorem saveFits_iff (terminated : RowsTerminated editor.buffer)
    (named : scanString editor.filename filenameSize 0 = some path)
    (saveStack bytecodeStack : Image) :
    (∃ saved, assembleFile saveStack editor.buffer = some saved ∧
      saved.len ≤ editorRows * editorCols) ∧
    (SaveFits saveStack bytecodeStack editor ↔
      documentSize editor.buffer editorRows + strlen path + 7 ≤ bytecodeSize) := by
  have area : editorRows * editorCols = 1920 := rfl
  obtain ⟨saved, assembled, len, fits⟩ := assembleFile_of_terminated terminated saveStack
  have small : (BitVec.ofNat 32 saved.len).toNat = saved.len := by
    rw [BitVec.toNat_ofNat]
    omega
  have bytecodeFits : (∃ bytecode, syscallBytecode bytecodeStack path saved.bytes
      (BitVec.ofNat 32 saved.len) = some bytecode) ↔
        documentSize editor.buffer editorRows + strlen path + 7 ≤ bytecodeSize := by
    rw [syscallBytecode_isSome_iff, FitsBytecode, small, len, Nat.add_comm (strlen path)]
  refine ⟨⟨saved, assembled, fits⟩, ?_⟩
  rw [← bytecodeFits]
  constructor
  · rintro ⟨other, otherPath, bytecode, otherAssembled, _, otherNamed, built⟩
    obtain rfl := Option.some.inj (assembled.symm.trans otherAssembled)
    obtain rfl := Option.some.inj (named.symm.trans otherNamed)
    exact ⟨bytecode, built⟩
  · rintro ⟨bytecode, built⟩
    exact ⟨saved, path, bytecode, assembled, fits, named, built⟩

end Size

/-! ### A full document -/

section Letters

variable {count length : Nat}

theorem letterRows_terminated (short : length < editorCols) :
    RowsTerminated (letterRows count length) := by
  intro y inDocument
  have shows := @letterRows_shows count length short y
  exact ⟨_, shows.rowString inDocument, Nat.le_of_lt_succ shows.ends⟩

theorem letterDocument_named (cx cy : Nat) :
    scanString (letterDocument count length cx cy).filename filenameSize 0 =
      some (literal ['a', '.', 't', 'x', 't']) :=
  scanString_of_shown (fun offset _ => by rw [Nat.zero_add]; rfl) (by decide)

end Letters

/-- A row with one letter. -/
theorem saveFits_iff_letter :
    (∃ saved, assembleFile (fun _ => 0) (letterDocument 1 1 0 0).buffer = some saved ∧
      saved.len ≤ editorRows * editorCols) ∧
    SaveFits (fun _ => 0) (fun _ => 0) (letterDocument 1 1 0 0) := by
  have rows : RowsTerminated (letterDocument 1 1 0 0).buffer := letterRows_terminated (by decide)
  obtain ⟨assembled, fits⟩ :=
    saveFits_iff rows (letterDocument_named 0 0) (fun _ => 0) (fun _ => 0)
  exact ⟨assembled, fits.mpr (by decide +kernel)⟩

/-- The bytecode of 24 rows of 79 letters has 1931 bytes. -/
theorem saveFits_fails :
    ¬ ∀ (saveStack bytecodeStack : Image) (editor : EditorState) (path : CString),
      RowsTerminated editor.buffer →
        scanString editor.filename filenameSize 0 = some path →
          SaveFits saveStack bytecodeStack editor := by
  intro always
  have terminated : RowsTerminated (letterDocument 24 79 0 0).buffer :=
    letterRows_terminated (by decide)
  have named := @letterDocument_named 24 79 0 0
  have fits := (saveFits_iff terminated named (fun _ => 0) fun _ => 0).2.mp
    (always _ _ _ _ terminated named)
  have full : ∀ count ≤ editorRows,
      79 * count ≤ documentSize (letterDocument 24 79 0 0).buffer count := by
    intro count within
    induction count with
    | zero => exact Nat.zero_le _
    | succ count inductionHypothesis =>
        have earlier := inductionHypothesis (Nat.le_of_succ_le within)
        rw [documentSize, letterDocument, letterRows_row (by decide) within within,
          strlen_letters, rowSize, if_neg (by decide)]
        rw [letterDocument] at earlier
        split <;> omega
  have large := full editorRows le_rfl
  have rows : editorRows = 24 := rfl
  have array : bytecodeSize = 1024 := rfl
  omega

end BrainDance.App.Cable
