import BrainDance.App.Cable.RoundTrip
import BrainDance.App.Cable.Syscall
import BrainDance.Fs.Bdfs.Landing

/-!
Owns what a save is worth. `editor_save_file` clears `dirty` whatever became of
the write, whose result `interpret_bdx` drops. So the document is in the file
exactly when every step on the way went well: the rows are read, the file is
assembled, the bytecode is built, and the write lands. A write may fail and yet
leave what was to be written, when nothing was: then `dirty` must have been clear.
-/

namespace BrainDance.App.Cable

open BrainDance.Foundation
open BrainDance.Libc
open BrainDance.Exec
open BrainDance.Fs.Bdfs

/-! ### The property and the condition -/

/-- The save returns, and leaves `dirty` at 0 only if the file reads back as the
bytes that were assembled; where the write fails, `dirty` stays set. -/
def SavesTruly (fuel : Nat) (saveStack bytecodeStack : Image) (editor : EditorState)
    (kernel : Kernel) : Prop :=
  ∃ saved path after, assembleFile saveStack editor.buffer = some saved ∧
    scanString editor.filename filenameSize 0 = some path ∧
      editorSaveFile fuel saveStack bytecodeStack editor kernel = some after ∧
        (after.1.dirty = 0 → bdfsReadFile after.2.fileSystem path =
          some (.ok (BitVec.ofNat 32 saved.len, slice saved.bytes 0 saved.len))) ∧
        ∀ code written, bdfsWriteFile kernel.fileSystem path saved.bytes
            (BitVec.ofNat 32 saved.len) = some (code, written) →
          code < 0 → editor.dirty ≠ 0 → after.1.dirty ≠ 0

/-- The rows and the file name end inside their arrays, the file and the bytecode
fit theirs, and the write lands and is accepted, unless `dirty` is clear. -/
structure SaveLands (editor : EditorState) (fs : FileSystem) : Prop where
  rowsEnd : RowsEnd editor.buffer editorRows
  fitsSaveBuffer : FitsSaveBuffer editor.buffer
  written : ∃ path, scanString editor.filename filenameSize 0 = some path ∧
    FitsBytecode path (BitVec.ofNat 32 (fileBytes editor.buffer editorRows).length) ∧
      Lands fs path (fileBytes editor.buffer editorRows) ∧
        (editor.dirty = 0 ∨
          Accepts fs path (BitVec.ofNat 32 (fileBytes editor.buffer editorRows).length))

/-! ### A save as one write -/

section Saving

variable {fuel : Nat} {saveStack bytecodeStack : Image} {editor : EditorState} {kernel : Kernel}
  {saved : SaveBuffer} {path : CString}

theorem fileBytes_short {buffer : Image} (fits : FitsSaveBuffer buffer) :
    (fileBytes buffer editorRows).length < 2 ^ 31 :=
  Nat.lt_of_le_of_lt fits (by decide)

/-- A save whose bytecode fits is the write, and `dirty` is cleared. -/
theorem editorSaveFile_of_fits (enough : bytecodeSize ≤ fuel) (bytecodeStack : Image)
    (kernel : Kernel)
    (assembled : assembleFile saveStack editor.buffer = some saved)
    (named : scanString editor.filename filenameSize 0 = some path)
    (fits : FitsBytecode path (BitVec.ofNat 32 saved.len)) :
    editorSaveFile fuel saveStack bytecodeStack editor kernel =
      (bdfsWriteFile kernel.fileSystem path saved.bytes (BitVec.ofNat 32 saved.len)).map
        fun result => ({ editor with dirty := 0 }, { kernel with fileSystem := result.2 }) := by
  rw [editorSaveFile, assembled, named]
  dsimp only [Option.bind_eq_bind, Option.bind_some]
  rw [syscallWrite_of_fits fits enough, performCall]
  cases bdfsWriteFile kernel.fileSystem path saved.bytes (BitVec.ofNat 32 saved.len) <;> rfl

/-- A save that returns has made one write, which fits its bytecode. -/
theorem write_of_editorSaveFile {edited : EditorState} {after : Kernel}
    (done : editorSaveFile fuel saveStack bytecodeStack editor kernel = some (edited, after)) :
    ∃ saved path, assembleFile saveStack editor.buffer = some saved ∧
      scanString editor.filename filenameSize 0 = some path ∧
      FitsBytecode path (BitVec.ofNat 32 saved.len) ∧
      performCall (.writeFile path saved.bytes (BitVec.ofNat 32 saved.len)) kernel =
        some after := by
  obtain ⟨saved, assembled, done⟩ := Option.bind_eq_some_iff.mp done
  obtain ⟨path, named, done⟩ := Option.bind_eq_some_iff.mp done
  obtain ⟨_, written, same⟩ := Option.bind_eq_some_iff.mp done
  obtain ⟨_, rfl⟩ := Prod.mk.inj (Option.some.inj same)
  obtain ⟨fits, performed⟩ := syscallWrite_eq_some written
  exact ⟨saved, path, assembled, named, fits, performed⟩

/-- A save that returns has built its bytecode. -/
theorem fits_of_editorSaveFile {after : EditorState × Kernel}
    (assembled : assembleFile saveStack editor.buffer = some saved)
    (named : scanString editor.filename filenameSize 0 = some path)
    (done : editorSaveFile fuel saveStack bytecodeStack editor kernel = some after) :
    FitsBytecode path (BitVec.ofNat 32 saved.len) := by
  obtain ⟨saved', path', assembled', named', fits, _⟩ := write_of_editorSaveFile done
  obtain rfl := Option.some.inj (assembled.symm.trans assembled')
  obtain rfl := Option.some.inj (named.symm.trans named')
  exact fits

/-- Once the bytecode is built a save is true exactly when the write reads back and does not
fail, unless `dirty` was clear before. -/
theorem savesTruly_iff_readsBack (enough : bytecodeSize ≤ fuel)
    (assembled : assembleFile saveStack editor.buffer = some saved)
    (named : scanString editor.filename filenameSize 0 = some path)
    (has : saved.Has (fileBytes editor.buffer editorRows))
    (short : (fileBytes editor.buffer editorRows).length < 2 ^ 31)
    (fits : FitsBytecode path (BitVec.ofNat 32 saved.len)) :
    SavesTruly fuel saveStack bytecodeStack editor kernel ↔
      ReadsBack kernel.fileSystem path saved.bytes (fileBytes editor.buffer editorRows) ∧
        (editor.dirty = 0 ∨
          Accepts kernel.fileSystem path
            (BitVec.ofNat 32 (fileBytes editor.buffer editorRows).length)) := by
  have small : (BitVec.ofNat 32 (fileBytes editor.buffer editorRows).length).toNat < 2 ^ 31 := by
    rw [BitVec.toNat_ofNat]
    omega
  have run := editorSaveFile_of_fits enough bytecodeStack kernel assembled named fits
  obtain ⟨len, shows⟩ := has
  have bytes : slice saved.bytes 0 saved.len = fileBytes editor.buffer editorRows := by
    rw [len]
    exact shows
  constructor
  · rintro ⟨sameSaved, samePath, after, assembledAgain, namedAgain, done, isTrue, staysSet⟩
    obtain rfl := Option.some.inj (assembled.symm.trans assembledAgain)
    obtain rfl := Option.some.inj (named.symm.trans namedAgain)
    rw [run] at done
    obtain ⟨⟨code, written⟩, wrote, rfl⟩ := Option.map_eq_some_iff.mp done
    have back := isTrue rfl
    have kept := staysSet code written wrote
    rw [bytes] at back
    rw [len] at wrote back
    refine ⟨⟨code, written, wrote, back⟩, or_iff_not_imp_left.mpr fun dirty => ?_⟩
    by_contra refused
    exact kept ((bdfsWriteFile_fails_iff small wrote).mpr refused) dirty rfl
  · rintro ⟨⟨code, written, wrote, back⟩, accepted⟩
    have fails := bdfsWriteFile_fails_iff small wrote
    rw [← len] at wrote back
    refine ⟨saved, path, _, assembled, named, by rw [run, wrote]; rfl, fun _ => ?_,
      fun otherCode otherAfter wroteAgain negative dirty => ?_⟩
    · rw [bytes]
      exact back
    · obtain ⟨rfl, _⟩ := Prod.mk.inj (Option.some.inj (wrote.symm.trans wroteAgain))
      exact absurd (accepted.resolve_left dirty) (fails.mp negative)

/-- The document is in the file, as the cleared `dirty` says, exactly when every
step of the save went well. -/
theorem savesTruly_iff (enough : bytecodeSize ≤ fuel) (saveStack bytecodeStack : Image)
    (editor : EditorState) (kernel : Kernel) :
    SavesTruly fuel saveStack bytecodeStack editor kernel ↔
      SaveLands editor kernel.fileSystem := by
  constructor
  · intro savesTruly
    have ⟨saved, path, after, assembled, named, done, _⟩ := savesTruly
    obtain ⟨ends, fitsSave⟩ := (assembleFile_isSome_iff saveStack).mp ⟨saved, assembled⟩
    have has := assembleFile_has assembled
    have short := fileBytes_short fitsSave
    have fits := fits_of_editorSaveFile assembled named done
    obtain ⟨back, accepted⟩ :=
      (savesTruly_iff_readsBack enough assembled named has short fits).mp savesTruly
    rw [has.1] at fits
    exact ⟨ends, fitsSave, path, named, fits,
      (readsBack_iff has.2 (Nat.lt_trans short (by decide))).mp back, accepted⟩
  · rintro ⟨ends, fitsSave, path, named, fits, lands, accepted⟩
    obtain ⟨saved, assembled⟩ := (assembleFile_isSome_iff saveStack).mpr ⟨ends, fitsSave⟩
    have has := assembleFile_has assembled
    have short := fileBytes_short fitsSave
    rw [← has.1] at fits
    exact (savesTruly_iff_readsBack enough assembled named has short fits).mpr
      ⟨(readsBack_iff has.2 (Nat.lt_trans short (by decide))).mpr lands, accepted⟩

end Saving

/-! ### A document without a file -/

/-- The kernel with a blank console and a new file system. -/
def newKernel : Kernel where
  console :=
    { cursorRow := 0, cursorCol := 0, scrollbackRow := 0, viewRow := 0
      scrollbackBuffer := fun _ _ => blankCell, vga := fun _ _ => blankCell, hardwareCursor := 0 }
  fileSystem := freshFileSystem

/-- Two rows of text under a name that no file of the new file system has. -/
def lostDocument : EditorState where
  cx := 0
  cy := 0
  buffer := twoRows 1
  filename := Function.update (fun _ => 0) 0 0x61
  dirty := 1

theorem lostDocument_bytes :
    fileBytes lostDocument.buffer editorRows = [0x61, lineFeed, 0x62, lineFeed] := by
  decide +kernel

theorem lostDocument_fits : FitsSaveBuffer lostDocument.buffer := by
  rw [FitsSaveBuffer, lostDocument_bytes]
  decide

/-- Under the name of the empty file `p` the rows are saved. -/
theorem savesTruly_iff_saved :
    SavesTruly 1024 (fun _ => 0) (fun _ => 0)
      { lostDocument with filename := Function.update (fun _ => 0) 0 0x70 }
      { newKernel with fileSystem := notesFileSystem } := by
  have document : IsDocument lostDocument.buffer := twoRows_document Nat.one_pos
  have lands : Lands notesFileSystem (literal ['p']) [0x61, lineFeed, 0x62, lineFeed] :=
    notesFileSystem_lands (by decide)
  refine (savesTruly_iff le_rfl _ _ _ _).mpr
    ⟨document.rowsTerminated.rowsEnd, lostDocument_fits, literal ['p'], by decide, ?_⟩
  dsimp only
  rw [lostDocument_bytes, FitsBytecode]
  exact ⟨by decide, lands,
    .inr ⟨9, 1, notesFileSystem_found.1, notesFileSystem_found.2,
      notesFileSystem_chosen (by decide)⟩⟩

/-- The save of a document that has no file returns and clears `dirty`, and
there is nothing to read back. -/
theorem savesTruly_fails :
    (∃ after, editorSaveFile 1024 (fun _ => 0) (fun _ => 0) lostDocument newKernel = some after ∧
      after.1.dirty = 0 ∧
        bdfsReadFile after.2.fileSystem (literal ['a']) = some (.error (-1))) ∧
    ¬ ∀ (editor : EditorState) (kernel : Kernel),
      SavesTruly 1024 (fun _ => 0) (fun _ => 0) editor kernel := by
  have document : IsDocument lostDocument.buffer := twoRows_document Nat.one_pos
  have named : scanString lostDocument.filename filenameSize 0 = some (literal ['a']) := by
    decide
  have noFile : findEntryInDir freshFileSystem.fileTable (literal ['a'])
      freshFileSystem.currentDirInode = none := by
    decide +kernel
  obtain ⟨saved, assembled⟩ :=
    (assembleFile_isSome_iff (fun _ => 0)).mpr ⟨document.rowsTerminated.rowsEnd, lostDocument_fits⟩
  have has := assembleFile_has assembled
  have fits : FitsBytecode (literal ['a']) (BitVec.ofNat 32 saved.len) := by
    rw [has.1, lostDocument_bytes, FitsBytecode]
    decide
  have run := editorSaveFile_of_fits le_rfl (fun _ => 0) newKernel assembled named fits
  have unwritten : bdfsWriteFile newKernel.fileSystem (literal ['a']) saved.bytes
      (BitVec.ofNat 32 saved.len) = some (-1, freshFileSystem) := by
    rw [bdfsWriteFile, newKernel, noFile]
  rw [unwritten, Option.map_some] at run
  refine ⟨⟨_, run, rfl, by rw [bdfsReadFile, noFile]⟩, fun always => ?_⟩
  obtain ⟨_, accepted⟩ := (savesTruly_iff_readsBack le_rfl assembled named has
    (fileBytes_short lostDocument_fits) fits).mp (always lostDocument newKernel)
  obtain ⟨slot, _, found, _⟩ := accepted.resolve_left (by decide)
  exact absurd (found.symm.trans noFile) (by simp)

end BrainDance.App.Cable
