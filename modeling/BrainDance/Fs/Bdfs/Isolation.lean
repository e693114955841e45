import BrainDance.Fs.Bdfs.Contents

/-!
Owns what a call leaves of the files it is not about. `Frame` says that an
entry and the part of its extent past the table image are kept; every call
frames every file but its subject. What is left is the head of the data region,
the four bytes that hold the last entry's length: a file that starts at sector
0 keeps its contents exactly when the call keeps the bytes of that length it
can see.
-/

namespace BrainDance.Fs.Bdfs

open BrainDance.Foundation
open BrainDance.Libc

/-! ### Subjects and frames -/

/-- The entry a call is about: the free one a create would take, or the one a
delete, a rename or a write names. -/
def Op.subject (fs : FileSystem) : Op → Option Slot
  | .createFile _ | .mkdir _ => findFreeEntry fs.fileTable
  | .deleteFile name | .renameFile name _ | .writeFile name _ _ =>
      findEntryInDir fs.fileTable name fs.currentDirInode
  | .chdir _ => none

/-- The entry is kept, and so is its data past the table image. -/
structure Frame (slot : Slot) (before after : FileSystem) : Prop where
  entry : after.fileTable slot = before.fileTable slot
  data : ∀ offset < (before.fileTable slot).length.toNat,
    4 + fileTableSize ≤ dataPosition (before.fileTable slot).startSector + offset →
      after.storage (dataPosition (before.fileTable slot).startSector + offset) =
        before.storage (dataPosition (before.fileTable slot).startSector + offset)

section Framing

variable {fs after : FileSystem} {slot : Slot} {code : Int}

theorem Frame.refl (slot : Slot) (fs : FileSystem) : Frame slot fs fs :=
  ⟨rfl, fun _ _ _ => rfl⟩

/-- Changing another entry and syncing frames the file. -/
theorem Frame.edited {other : Slot} (different : slot ≠ other) (entry : FileEntry) :
    Frame slot fs
      (bdfsSyncFileTable { fs with fileTable := Function.update fs.fileTable other entry }) where
  entry := Function.update_of_ne different _ _
  data _ _ past := bdfsSyncFileTable_storage _ past

/-- Writing another file frames the file. -/
theorem Frame.stored {other : Slot} {startSector length : Word} {buffer : Image}
    (placement : Placement fs other startSector length) (extents : ExtentsOk fs.fileTable)
    (isFile : (fs.fileTable slot).IsFile) (different : slot ≠ other) :
    Frame slot fs (storedFile fs other startSector buffer length) where
  entry := Function.update_of_ne different _ _
  data offset inside past := by
    rw [storedFile_storage past]
    apply blit_outside
    have nonempty : (fs.fileTable slot).length ≠ 0 := by
      intro zero
      rw [zero] at inside
      exact absurd inside (Nat.not_lt_zero _)
    have apart := placement.apart extents different isFile nonempty
    have slotInside := extents.inside slot isFile
    have otherInside := placement.inside extents
    have slotBytes := toNat_le_of_sectorCount (le_refl (sectorCount (fs.fileTable slot).length))
    have otherBytes := toNat_le_of_sectorCount (le_refl (sectorCount length))
    simp only [FileEntry.Apart, FileEntry.endSector, FileEntry.placed] at apart slotInside
    rw [dataPosition_eq (by omega), dataPosition_eq (by omega)]
    omega

theorem createEntry_frame {name : CString} {type : BdfsFileType} {directory : Word}
    {free : Slot} {table : FileTable} (other : findFreeEntry fs.fileTable ≠ some slot)
    (created : createEntry fs.fileTable name type directory = .ok (free, table)) :
    Frame slot fs (bdfsSyncFileTable { fs with fileTable := table }) := by
  obtain ⟨fits, _, picked, rfl⟩ := createEntry_eq_ok_iff.mp created
  exact Frame.edited (by rintro rfl; exact other picked) _

theorem bdfsCreateFile_frame (filename : CString)
    (other : findFreeEntry fs.fileTable ≠ some slot) :
    Frame slot fs (bdfsCreateFile fs filename).2 := by
  unfold bdfsCreateFile
  split
  · rename_i created
    exact createEntry_frame other created
  · exact Frame.refl slot fs

theorem bdfsMkdir_frame (dirname : CString) (other : findFreeEntry fs.fileTable ≠ some slot) :
    Frame slot fs (bdfsMkdir fs dirname).2 := by
  unfold bdfsMkdir bdfsCreateDirEntry
  split
  · rename_i created
    exact createEntry_frame other created
  · exact Frame.refl slot fs

theorem bdfsDeleteFile_frame {filename : CString}
    (other : findEntryInDir fs.fileTable filename fs.currentDirInode ≠ some slot) :
    Frame slot fs (bdfsDeleteFile fs filename).2 := by
  unfold bdfsDeleteFile
  split
  · exact Frame.refl slot fs
  · rename_i found
    exact Frame.edited (by rintro rfl; exact other found) _

theorem bdfsRenameFile_frame {oldFilename : CString} (newFilename : CString)
    (other : findEntryInDir fs.fileTable oldFilename fs.currentDirInode ≠ some slot) :
    Frame slot fs (bdfsRenameFile fs oldFilename newFilename).2 := by
  unfold bdfsRenameFile
  split
  · exact Frame.refl slot fs
  · split
    · exact Frame.refl slot fs
    · rename_i found
      split
      · exact Frame.refl slot fs
      · exact Frame.edited (by rintro rfl; exact other found) _

theorem bdfsChdir_frame {dirname : CString} (moved : bdfsChdir fs dirname = some (code, after)) :
    Frame slot fs after := by
  have kept := bdfsChdir_keeps moved
  exact ⟨by rw [kept.2], fun _ _ _ => by rw [kept.1]⟩

theorem bdfsWriteFile_frame (extents : ExtentsOk fs.fileTable)
    (isFile : (fs.fileTable slot).IsFile) {filename : CString} {buffer : Image}
    {bytesToWrite : Word}
    (other : findEntryInDir fs.fileTable filename fs.currentDirInode ≠ some slot)
    (written : bdfsWriteFile fs filename buffer bytesToWrite = some (code, after)) :
    Frame slot fs after := by
  rcases bdfsWriteFile_cases written with ⟨rfl, _⟩ | ⟨_, _, found, placement, _, rfl⟩
  · exact Frame.refl slot _
  · exact Frame.stored placement extents isFile (by rintro rfl; exact other found)

/-- A call frames every file it is not about. -/
theorem exec_frame (extents : ExtentsOk fs.fileTable) (isFile : (fs.fileTable slot).IsFile)
    {op : Op} (other : op.subject fs ≠ some slot) (executed : op.exec fs = some (code, after)) :
    Frame slot fs after := by
  cases op with
  | createFile filename =>
      rw [← (Prod.mk.inj (Option.some.inj executed)).2]
      exact bdfsCreateFile_frame filename other
  | mkdir dirname =>
      rw [← (Prod.mk.inj (Option.some.inj executed)).2]
      exact bdfsMkdir_frame dirname other
  | deleteFile filename =>
      rw [← (Prod.mk.inj (Option.some.inj executed)).2]
      exact bdfsDeleteFile_frame other
  | renameFile oldFilename newFilename =>
      rw [← (Prod.mk.inj (Option.some.inj executed)).2]
      exact bdfsRenameFile_frame newFilename other
  | chdir dirname => exact bdfsChdir_frame executed
  | writeFile filename buffer bytesToWrite =>
      exact bdfsWriteFile_frame extents isFile other executed

end Framing

/-! ### The length of the last entry -/

/-- The last entry's length after the call: a create that takes the entry
clears it, and a write of that file sets it. -/
def Op.lastLengthAfter (fs : FileSystem) : Op → Word
  | .createFile name | .mkdir name =>
      if name.bytes.length < bdfsMaxFilenameLength ∧
          findEntryInDir fs.fileTable name fs.currentDirInode = none ∧
          findFreeEntry fs.fileTable = some 63 then 0
      else lastLength fs.fileTable
  | .writeFile name _ bytesToWrite =>
      if findEntryInDir fs.fileTable name fs.currentDirInode = some 63 ∧
          (fs.fileTable 63).type = .file ∧
          chooseStartSector fs.fileTable (fs.fileTable 63) bytesToWrite ≠ none then bytesToWrite
      else lastLength fs.fileTable
  | .deleteFile _ | .renameFile _ _ | .chdir _ => lastLength fs.fileTable

section LastLength

variable {fs after : FileSystem} {code : Int}

private theorem lastLength_update (table : FileTable) (slot : Slot) (entry : FileEntry) :
    lastLength (Function.update table slot entry) =
      if slot = 63 then entry.length else lastLength table := by
  unfold lastLength
  split
  · rename_i last
    rw [last, Function.update_self]
  · rename_i notLast
    rw [Function.update_of_ne (Ne.symm notLast)]

theorem lastLength_tableAfter_createEntry (table : FileTable) (name : CString)
    (type : BdfsFileType) (directory : Word) :
    lastLength (tableAfter table (createEntry table name type directory)) =
      if name.bytes.length < bdfsMaxFilenameLength ∧ findEntryInDir table name directory = none ∧
          findFreeEntry table = some 63 then 0
      else lastLength table := by
  cases result : createEntry table name type directory with
  | error code =>
      rw [if_neg]
      · rfl
      · rintro ⟨fits, absent, picked⟩
        rw [createEntry_eq_ok_iff.mpr ⟨fits, absent, picked, rfl⟩] at result
        contradiction
  | ok created =>
      obtain ⟨slot, updated⟩ := created
      obtain ⟨fits, absent, picked, rfl⟩ := createEntry_eq_ok_iff.mp result
      simp only [tableAfter, lastLength_update, fits, absent, picked, true_and, Option.some.injEq]
      rfl

theorem lastLength_bdfsCreateFile (filename : CString) :
    lastLength (bdfsCreateFile fs filename).2.fileTable =
      (Op.createFile filename).lastLengthAfter fs := by
  rw [Op.lastLengthAfter, ← lastLength_tableAfter_createEntry _ _ .file]
  unfold bdfsCreateFile
  cases createEntry fs.fileTable filename .file fs.currentDirInode <;> rfl

theorem lastLength_bdfsMkdir (dirname : CString) :
    lastLength (bdfsMkdir fs dirname).2.fileTable = (Op.mkdir dirname).lastLengthAfter fs := by
  rw [Op.lastLengthAfter, ← lastLength_tableAfter_createEntry _ _ .directory]
  unfold bdfsMkdir bdfsCreateDirEntry
  cases createEntry fs.fileTable dirname .directory fs.currentDirInode <;> rfl

/-- A change of an entry's name keeps the last length. -/
private theorem lastLength_update_of_length {table : FileTable} {slot : Slot} {entry : FileEntry}
    (same : entry.length = (table slot).length) :
    lastLength (Function.update table slot entry) = lastLength table := by
  rw [lastLength_update]
  split
  · rename_i last
    rw [same, last, lastLength]
  · rfl

theorem lastLength_bdfsDeleteFile (filename : CString) :
    lastLength (bdfsDeleteFile fs filename).2.fileTable = lastLength fs.fileTable := by
  unfold bdfsDeleteFile
  split
  · rfl
  · exact lastLength_update_of_length rfl

theorem lastLength_bdfsRenameFile (oldFilename newFilename : CString) :
    lastLength (bdfsRenameFile fs oldFilename newFilename).2.fileTable =
      lastLength fs.fileTable := by
  unfold bdfsRenameFile
  split
  · rfl
  · split
    · rfl
    · split
      · rfl
      · exact lastLength_update_of_length rfl

theorem lastLength_bdfsWriteFile (extents : ExtentsOk fs.fileTable) {filename : CString}
    {buffer : Image} {bytesToWrite : Word} (noWrap : bytesToWrite.toNat + 511 < 2 ^ 32)
    (written : bdfsWriteFile fs filename buffer bytesToWrite = some (code, after)) :
    lastLength after.fileTable = (Op.writeFile filename buffer bytesToWrite).lastLengthAfter fs := by
  rw [Op.lastLengthAfter]
  split
  · rename_i accepted
    obtain ⟨found, isFile, fits⟩ := accepted
    obtain ⟨startSector, chosen⟩ := Option.ne_none_iff_exists'.mp fits
    rw [bdfsWriteFile_of_found extents found isFile buffer noWrap, chosen, Option.some.injEq,
      Prod.mk.injEq] at written
    rw [← written.2, storedFile]
    exact lastLength_placeFile fs.fileTable 63 startSector bytesToWrite
  · rename_i notLast
    rcases bdfsWriteFile_cases written with ⟨rfl, _⟩ | ⟨slot, startSector, found, placement, _, rfl⟩
    · rfl
    · have different : slot ≠ 63 := by
        rintro rfl
        exact notLast ⟨found, placement.isFile, by simp [placement.chosen]⟩
      rw [storedFile]
      exact (lastLength_placeFile fs.fileTable slot startSector bytesToWrite).trans
        (if_neg different)

theorem exec_lastLength (extents : ExtentsOk fs.fileTable) {op : Op} (noWrap : op.NoWrap)
    (executed : op.exec fs = some (code, after)) :
    lastLength after.fileTable = op.lastLengthAfter fs := by
  cases op with
  | createFile filename =>
      rw [← (Prod.mk.inj (Option.some.inj executed)).2]
      exact lastLength_bdfsCreateFile filename
  | mkdir dirname =>
      rw [← (Prod.mk.inj (Option.some.inj executed)).2]
      exact lastLength_bdfsMkdir dirname
  | deleteFile filename =>
      rw [← (Prod.mk.inj (Option.some.inj executed)).2]
      exact lastLength_bdfsDeleteFile filename
  | renameFile oldFilename newFilename =>
      rw [← (Prod.mk.inj (Option.some.inj executed)).2]
      exact lastLength_bdfsRenameFile oldFilename newFilename
  | chdir dirname =>
      rw [(bdfsChdir_keeps executed).2]
      rfl
  | writeFile filename buffer bytesToWrite =>
      exact lastLength_bdfsWriteFile extents noWrap executed

end LastLength

/-! ### Contents -/

/-- What `bdfs_read_file` returns for the entry, called in its own directory. -/
def readBack (fs : FileSystem) (slot : Slot) : Option (Except Int (Word × List Byte)) :=
  bdfsReadFile { fs with currentDirInode := (fs.fileTable slot).parentInode }
    (stringIn (fs.fileTable slot).name)

/-- The call keeps the bytes at the head of the data region that a read of the
file sees. -/
def Op.SparesHead (fs : FileSystem) (slot : Slot) (op : Op) : Prop :=
  (fs.fileTable slot).startSector ≠ 0 ∨
    ∀ offset < min 4 (fs.fileTable slot).length.toNat,
      wordImage (op.lastLengthAfter fs) offset = wordImage (lastLength fs.fileTable) offset

instance (fs : FileSystem) (slot : Slot) (op : Op) : Decidable (op.SparesHead fs slot) :=
  inferInstanceAs (Decidable (_ ∨ _))

section Contents

variable {fs after : FileSystem} {slot : Slot}

theorem readBack_of_file (names : NamesOk fs.fileTable) (extents : ExtentsOk fs.fileTable)
    (isFile : (fs.fileTable slot).IsFile) :
    readBack fs slot = some (.ok ((fs.fileTable slot).length, contentsOf fs slot)) := by
  let entered : FileSystem := { fs with currentDirInode := (fs.fileTable slot).parentInode }
  have found : findEntryInDir entered.fileTable (stringIn (fs.fileTable slot).name)
      entered.currentDirInode = some slot := findEntryInDir_of_live names isFile.1
  have extents' : ExtentsOk entered.fileTable := extents
  exact bdfsReadFile_of_found extents' found isFile.2

/-- A framed file keeps its contents exactly when the last length keeps the
bytes that a read of the file sees. -/
theorem Frame.contentsOf_eq_iff (frame : Frame slot fs after) (extents : ExtentsOk fs.fileTable)
    (isFile : (fs.fileTable slot).IsFile) (synced : Synced fs) (syncedAfter : Synced after) :
    contentsOf after slot = contentsOf fs slot ↔
      (fs.fileTable slot).startSector ≠ 0 ∨
        ∀ offset < min 4 (fs.fileTable slot).length.toNat,
          wordImage (lastLength after.fileTable) offset =
            wordImage (lastLength fs.fileTable) offset := by
  have position := extents.dataPosition_eq isFile
  have beyond : ∀ offset < (fs.fileTable slot).length.toNat,
      (fs.fileTable slot).startSector ≠ 0 ∨ 4 ≤ offset →
        after.storage (dataPosition (fs.fileTable slot).startSector + offset) =
          fs.storage (dataPosition (fs.fileTable slot).startSector + offset) := by
    intro offset inside past
    apply frame.data offset inside
    rw [position]
    simp only [fileTableSize, dataStart]
    rcases past with elsewhere | later
    · have : (fs.fileTable slot).startSector.toNat ≠ 0 :=
        fun zero => elsewhere (BitVec.eq_of_toNat_eq zero)
      omega
    · omega
  unfold contentsOf
  rw [frame.entry, slice_eq_slice_iff]
  by_cases zero : (fs.fileTable slot).startSector = 0
  · have atHead : dataPosition (fs.fileTable slot).startSector = dataStart := by
      rw [position, zero]
      rfl
    simp only [zero, ne_eq, not_true_eq_false, false_or] at beyond ⊢
    rw [zero] at atHead
    constructor
    · intro same offset below
      rw [lt_min_iff] at below
      rw [← synced.head below.1, ← syncedAfter.head below.1, ← atHead]
      exact same offset below.2
    · intro same offset inside
      by_cases below : offset < 4
      · rw [atHead, synced.head below, syncedAfter.head below]
        exact same offset (lt_min below inside)
      · exact beyond offset inside (by omega)
  · simp only [zero, ne_eq, not_false_eq_true, true_or, iff_true]
    exact fun offset inside => beyond offset inside (Or.inl zero)

/-- A call about another entry has a result and keeps the file's contents
exactly when it spares the head of the data region. -/
theorem readBack_eq_iff_sparesHead (reachable : system.Reachable fs)
    (isFile : (fs.fileTable slot).IsFile) {op : Op} (noWrap : op.NoWrap)
    (other : op.subject fs ≠ some slot) :
    (∃ code after, op.exec fs = some (code, after) ∧ readBack after slot = readBack fs slot) ↔
      op.SparesHead fs slot := by
  have extents := reachable_extentsOk reachable
  obtain ⟨code, after, executed⟩ := exec_total reachable noWrap
  have reachableAfter := reachable_exec reachable executed
  have frame := exec_frame extents isFile other executed
  have isFileAfter : (after.fileTable slot).IsFile := by rwa [frame.entry]
  have same : readBack after slot = readBack fs slot ↔ op.SparesHead fs slot := by
    rw [readBack_of_file (reachable_namesOk reachable) extents isFile,
      readBack_of_file (reachable_namesOk reachableAfter) (reachable_extentsOk reachableAfter)
        isFileAfter, frame.entry, Op.SparesHead, ← exec_lastLength extents noWrap executed,
      ← frame.contentsOf_eq_iff extents isFile (reachable_synced reachable)
        (reachable_synced reachableAfter)]
    simp
  rw [← same]
  constructor
  · rintro ⟨code', after', executed', kept⟩
    rw [executed, Option.some.injEq, Prod.mk.injEq] at executed'
    rwa [executed'.2]
  · exact fun kept => ⟨code, after, executed, kept⟩

end Contents

/-- After any sequence of calls a call about another entry has a result and
leaves what `bdfs_read_file` returns for a file unchanged exactly when the file
does not start at sector 0 or the call keeps the bytes of the last entry's
length that stand in for the file's own first four. -/
theorem other_file_unchanged_iff {fs : FileSystem}
    (reachable : (system.restrict Op.WithinDisk).Reachable fs) {slot : Slot}
    (isFile : (fs.fileTable slot).IsFile) {op : Op} (within : op.WithinDisk)
    (other : op.subject fs ≠ some slot) :
    (∃ code after, op.exec fs = some (code, after) ∧ readBack after slot = readBack fs slot) ↔
      op.SparesHead fs slot :=
  readBack_eq_iff_sparesHead reachable.of_restrict isFile (Op.NoWrap.of_withinDisk within) other

/-- A new directory spares the byte of `log`, which is in sector 0. -/
theorem other_file_unchanged_iff_note :
    (pairFileSystem.fileTable 8).startSector = 0 ∧ (pairFileSystem.fileTable 8).length = 1 ∧
      ∃ code after, (Op.mkdir (literal ['d'])).exec pairFileSystem = some (code, after) ∧
        readBack after 8 = readBack pairFileSystem 8 := by
  have isFile : (pairFileSystem.fileTable 8).IsFile := by decide +kernel
  have other : (Op.mkdir (literal ['d'])).subject pairFileSystem ≠ some 8 :=
    show findFreeEntry pairFileSystem.fileTable ≠ some 8 by decide +kernel
  have spares : (Op.mkdir (literal ['d'])).SparesHead pairFileSystem 8 := by decide +kernel
  have reachable := pairFileSystem_reachable
    (show ∀ op ∈ pairCalls, op.WithinDisk by simp [pairCalls, Op.BytesOk])
  exact ⟨by decide +kernel, by decide +kernel,
    (other_file_unchanged_iff reachable isFile
      (show (Op.mkdir (literal ['d'])).WithinDisk from trivial) other).mpr spares⟩

/-! ### A full table -/

def crowdedName (index : Fin 56) : CString where
  bytes := [BitVec.ofNat 8 (65 + index.val)]
  noNul := by
    intro char member
    rw [List.mem_singleton.mp member]
    intro zero
    have value := congrArg BitVec.toNat zero
    rw [BitVec.toNat_ofNat, show (0 : Byte).toNat = 0 from rfl] at value
    omega

/-- The new file system with 56 empty files more, which fill the table. -/
def crowdedFileSystem : FileSystem :=
  (List.finRange 56).foldl (fun fs index => (bdfsCreateFile fs (crowdedName index)).2)
    freshFileSystem

theorem crowdedFileSystem_reachable :
    (system.restrict Op.WithinDisk).Reachable crowdedFileSystem := by
  have along : ∀ (names : List (Fin 56)) (fs : FileSystem),
      (system.restrict Op.WithinDisk).Reachable fs →
        (system.restrict Op.WithinDisk).Reachable
          (names.foldl (fun fs index => (bdfsCreateFile fs (crowdedName index)).2) fs) := by
    intro names
    induction names with
    | nil => exact fun _ reachable => reachable
    | cons index names inductionHypothesis =>
        intro fs reachable
        have created : Op.exec fs (.createFile (crowdedName index)) =
            some (bdfsCreateFile fs (crowdedName index)) := rfl
        have allowed : Op.WithinDisk (.createFile (crowdedName index)) := trivial
        exact inductionHypothesis _ (.step reachable ⟨allowed, _, created⟩)
  exact along _ _ (.init freshFileSystem_init)

/-- The full file system after one byte is written to the file in entry 8. -/
def crowdedWritten : FileSystem := storedFile crowdedFileSystem 8 0 (fun _ => 1) 1

/-- What is needed below of the two states. -/
theorem crowded_facts :
    (findEntryInDir crowdedFileSystem.fileTable (crowdedName 0)
        crowdedFileSystem.currentDirInode = some 8 ∧
      (crowdedFileSystem.fileTable 8).type = .file ∧
      chooseStartSector crowdedFileSystem.fileTable (crowdedFileSystem.fileTable 8) 1 = some 0) ∧
    (crowdedWritten.fileTable 8).IsFile ∧ (crowdedWritten.fileTable 63).IsFile ∧
      Op.subject crowdedWritten (.writeFile (crowdedName 55) (fun _ => 1) 1) = some 63 ∧
      ¬ Op.SparesHead crowdedWritten 8 (.writeFile (crowdedName 55) (fun _ => 1) 1) := by
  decide +kernel

theorem crowdedWritten_reachable : (system.restrict Op.WithinDisk).Reachable crowdedWritten := by
  obtain ⟨found, isFile, chosen⟩ := crowded_facts.1
  have extents := reachable_extentsOk crowdedFileSystem_reachable.of_restrict
  have written := bdfsWriteFile_of_found extents found isFile (fun _ => 1)
    (show (1 : Word).toNat + 511 < 2 ^ 32 by decide)
  rw [chosen] at written
  have within : Op.WithinDisk (.writeFile (crowdedName 0) (fun _ => 1) 1) :=
    show (1 : Word).toNat ≤ 64 * 512 by decide
  exact .step crowdedFileSystem_reachable ⟨within, _, written⟩

/-- A write to the file in entry 63 changes the first byte of the file at
sector 0. -/
theorem other_file_unchanged_fails :
    ¬ ∀ fs : FileSystem, (system.restrict Op.WithinDisk).Reachable fs →
      ∀ slot other : Slot, slot ≠ other → (fs.fileTable slot).IsFile →
        (fs.fileTable other).IsFile → ∀ op : Op, op.WithinDisk → op.subject fs = some other →
          ∃ code after, op.exec fs = some (code, after) ∧
            readBack after slot = readBack fs slot := by
  intro always
  obtain ⟨isFile, otherIsFile, about, damages⟩ := crowded_facts.2
  have within : Op.WithinDisk (.writeFile (crowdedName 55) (fun _ => 1) 1) :=
    show (1 : Word).toNat ≤ 64 * 512 by decide
  have unchanged := always _ crowdedWritten_reachable 8 63 (by decide) isFile otherIsFile _ within
    about
  rw [readBack_eq_iff_sparesHead crowdedWritten_reachable.of_restrict isFile
    (Op.NoWrap.of_withinDisk within) (by rw [about]; decide)] at unchanged
  exact damages unchanged

end BrainDance.Fs.Bdfs
