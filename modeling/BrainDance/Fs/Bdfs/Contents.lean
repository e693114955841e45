import BrainDance.Fs.Bdfs.Persistence
import BrainDance.Fs.Bdfs.Totality

/-!
Owns what `bdfs_read_file` returns. The table image ends four bytes inside the
data region, so after every sync data bytes 0 to 3 are the length field of
entry 63. A read of a file that starts at sector 0 sees those bytes in place of
its own first four. The two main results say exactly when that shows: after a
write of the file itself, and after an operation on another file.
-/

namespace BrainDance.Fs.Bdfs

open BrainDance.Foundation
open BrainDance.Libc

/-- The length field of the last entry, which the sync puts over the first four
data bytes. -/
def lastLength (table : FileTable) : Word := (table 63).length

/-- The bytes of an entry's extent. -/
def contentsOf (fs : FileSystem) (slot : Slot) : List Byte :=
  slice fs.storage (dataPosition (fs.fileTable slot).startSector) (fs.fileTable slot).length.toNat

section Reading

variable {fs : FileSystem} {slot : Slot} {name : CString}

theorem ExtentsOk.dataPosition_eq (extents : ExtentsOk fs.fileTable)
    (isFile : (fs.fileTable slot).IsFile) :
    dataPosition (fs.fileTable slot).startSector =
      dataStart + 512 * (fs.fileTable slot).startSector.toNat := by
  have inside := extents.inside slot isFile
  unfold FileEntry.endSector at inside
  exact Bdfs.dataPosition_eq (by omega)

/-- A read returns the extent of the file it finds, if that is in the storage. -/
theorem bdfsReadFile_of_inStorage
    (found : findEntryInDir fs.fileTable name fs.currentDirInode = some slot)
    (isFile : (fs.fileTable slot).type = .file)
    (inStorage : dataPosition (fs.fileTable slot).startSector +
      (fs.fileTable slot).length.toNat ≤ storageSize) :
    bdfsReadFile fs name = some (.ok ((fs.fileTable slot).length, contentsOf fs slot)) := by
  unfold bdfsReadFile
  simp only [found]
  rw [if_neg (not_not.mpr isFile), if_pos inStorage]
  split
  · rfl
  · rename_i empty
    have zero : (fs.fileTable slot).length.toNat = 0 := by
      simpa [GT.gt, BitVec.lt_def] using empty
    rw [contentsOf, zero, slice_zero]

/-- A read of a file found in the current directory returns its extent. -/
theorem bdfsReadFile_of_found (extents : ExtentsOk fs.fileTable)
    (found : findEntryInDir fs.fileTable name fs.currentDirInode = some slot)
    (isFile : (fs.fileTable slot).type = .file) :
    bdfsReadFile fs name = some (.ok ((fs.fileTable slot).length, contentsOf fs slot)) := by
  have isFileEntry : (fs.fileTable slot).IsFile := ⟨(live_of_findEntryInDir found).1, isFile⟩
  have inside := extents.inside slot isFileEntry
  unfold FileEntry.endSector at inside
  have short := toNat_le_of_sectorCount (le_refl (sectorCount (fs.fileTable slot).length))
  refine bdfsReadFile_of_inStorage found isFile ?_
  rw [extents.dataPosition_eq isFileEntry]
  simp only [dataStart, storageSize]
  omega

/-- A read copies as many bytes as it reports. -/
theorem bdfsReadFile_length {length : Word} {data : List Byte}
    (loaded : bdfsReadFile fs name = some (.ok (length, data))) :
    data.length = length.toNat := by
  unfold bdfsReadFile at loaded
  cases found : findEntryInDir fs.fileTable name fs.currentDirInode with
  | none => simp [found] at loaded
  | some slot =>
      rw [found] at loaded
      dsimp only at loaded
      split at loaded
      · simp at loaded
      · split at loaded
        · split at loaded
          · simp only [Option.some.injEq, Except.ok.injEq, Prod.mk.injEq] at loaded
            rw [← loaded.2, slice_length, loaded.1]
          · contradiction
        · rename_i empty
          simp only [Option.some.injEq, Except.ok.injEq, Prod.mk.injEq] at loaded
          have zero : (fs.fileTable slot).length.toNat = 0 := by
            simpa [GT.gt, BitVec.lt_def] using empty
          rw [← loaded.2, ← loaded.1, zero]
          rfl

/-- Data bytes 0 to 3 of a synced storage are the last entry's length. -/
theorem Synced.head (synced : Synced fs) {offset : Nat} (below : offset < 4) :
    fs.storage (dataStart + offset) = wordImage (lastLength fs.fileTable) offset := by
  have stored := synced.table (2044 + offset) (by simp only [fileTableSize]; omega)
  have last := tableImage_slot fs.fileTable 63 (show 28 + offset < 32 by omega)
  rw [show 32 * (63 : Slot).val + (28 + offset) = 2044 + offset by
    rw [show (63 : Slot).val = 63 from rfl]; omega] at last
  rw [show dataStart + offset = 4 + (2044 + offset) by simp only [dataStart]; omega, stored, last,
    FileEntry.image_length _ below]
  rfl

end Reading

/-! ### Finding a file again -/

section Searching

variable {entry : FileEntry} {table : FileTable} {slot : Slot} {startSector length : Word}

/-- A name that a file's bytes hold ends before the type field does, since that
starts with a zero byte. -/
theorem FileEntry.holds_length_le (isFile : entry.type = .file) {name : CString}
    (holds : Holds entry.image name) : name.bytes.length ≤ 16 := by
  by_contra longer
  have typeByte : entry.image 16 = 0 := by
    unfold FileEntry.image
    rw [dif_neg (by decide), if_pos (by decide), isFile]
    rfl
  rw [holds 16 (by omega)] at typeByte
  exact name.image_ne_zero (by omega) typeByte

theorem FileEntry.image_placed {offset : Nat} (below : offset < 24) :
    (entry.placed startSector length).image offset = entry.image offset := by
  unfold FileEntry.image FileEntry.placed
  dsimp only
  split
  · rfl
  · split
    · rfl
    · rfl

theorem FileEntry.strcmp_placed (isFile : entry.type = .file) (name : CString) :
    strcmp (entry.placed startSector length).image name = 0 ↔ strcmp entry.image name = 0 := by
  rw [Libc.strcmp_eq_zero_iff, Libc.strcmp_eq_zero_iff]
  constructor
  · intro holds offset inString
    have short := @FileEntry.holds_length_le (entry.placed startSector length) isFile name holds
    rw [← holds offset inString, FileEntry.image_placed (by omega)]
  · intro holds offset inString
    have short := FileEntry.holds_length_le isFile holds
    rw [← holds offset inString, FileEntry.image_placed (by omega)]

/-- Placing a file changes no search by name. -/
theorem findEntryInDir_placed (isFile : (table slot).type = .file) (name : CString)
    (directory : Word) :
    findEntryInDir (placeFile table slot startSector length) name directory =
      findEntryInDir table name directory := by
  unfold findEntryInDir
  congr 1
  funext other
  by_cases same : other = slot
  · subst same
    rw [placeFile, Function.update_self]
    have sameName := @FileEntry.strcmp_placed _ startSector length isFile name
    exact decide_eq_decide.mpr (and_congr Iff.rfl (and_congr Iff.rfl sameName))
  · rw [placeFile, Function.update_of_ne same]

end Searching

/-! ### Writing a file and reading it back -/

/-- The sector a write to the entry goes to. -/
def writeStart (table : FileTable) (entry : FileEntry) : Word :=
  if entry.length = 0 then findFreeSector table else entry.startSector

/-- The last entry's length after a write of `bytesToWrite` bytes to `slot`. -/
def lastLengthAfterWrite (table : FileTable) (slot : Slot) (bytesToWrite : Word) : Word :=
  if slot = 63 then bytesToWrite else lastLength table

/-- The sync does not damage the data: it goes elsewhere than sector 0, or its
first four bytes are the ones the sync writes anyway. -/
def HeadKept (table : FileTable) (slot : Slot) (buffer : Image) (bytesToWrite : Word) : Prop :=
  writeStart table (table slot) ≠ 0 ∨
    ∀ offset < min 4 bytesToWrite.toNat,
      wordImage (lastLengthAfterWrite table slot bytesToWrite) offset = buffer offset

instance (table : FileTable) (slot : Slot) (buffer : Image) (bytesToWrite : Word) :
    Decidable (HeadKept table slot buffer bytesToWrite) := inferInstanceAs (Decidable (_ ∨ _))

section Writing

variable {fs : FileSystem} {slot : Slot} {startSector length : Word} {buffer : Image}

theorem lastLength_placeFile (table : FileTable) (slot : Slot) (startSector length : Word) :
    lastLength (placeFile table slot startSector length) =
      lastLengthAfterWrite table slot length := by
  unfold lastLength placeFile lastLengthAfterWrite
  by_cases last : slot = 63
  · subst last
    rw [if_pos rfl, Function.update_self]
    rfl
  · rw [if_neg last, Function.update_of_ne (Ne.symm last)]
    rfl

theorem storedFile_synced (fs : FileSystem) (slot : Slot) (startSector : Word) (buffer : Image)
    (length : Word) : Synced (storedFile fs slot startSector buffer length) :=
  bdfsSyncFileTable_synced _

theorem storedFile_entry (fs : FileSystem) (slot : Slot) (startSector : Word) (buffer : Image)
    (length : Word) :
    (storedFile fs slot startSector buffer length).fileTable slot =
      (fs.fileTable slot).placed startSector length := by
  simp [storedFile, bdfsSyncFileTable, placeFile]

theorem storedFile_keeps (fs : FileSystem) (slot : Slot) (startSector : Word) (buffer : Image)
    (length : Word) :
    (storedFile fs slot startSector buffer length).fileTable =
        placeFile fs.fileTable slot startSector length ∧
      (storedFile fs slot startSector buffer length).currentDirInode = fs.currentDirInode :=
  ⟨rfl, rfl⟩

/-- Past the table image a store writes the data and nothing else. -/
theorem storedFile_storage {offset : Nat} (past : 4 + fileTableSize ≤ offset) :
    (storedFile fs slot startSector buffer length).storage offset =
      blit fs.storage (dataPosition startSector) buffer length.toNat offset := by
  unfold storedFile
  rw [bdfsSyncFileTable_storage _ past, memcpy_eq_blit]

theorem Placement.startSector_eq (placement : Placement fs slot startSector length)
    (extents : ExtentsOk fs.fileTable) :
    startSector = writeStart fs.fileTable (fs.fileTable slot) := by
  unfold writeStart
  rcases placement.cases extents with ⟨empty, rfl, _⟩ | ⟨content, rfl, _⟩
  · rw [if_pos empty]
  · rw [if_neg content]

/-- What a store leaves in the data region at the file's byte `offset`. -/
theorem Placement.storage_at (placement : Placement fs slot startSector length)
    (extents : ExtentsOk fs.fileTable) {offset : Nat} (inside : offset < length.toNat) :
    (storedFile fs slot startSector buffer length).storage (dataPosition startSector + offset) =
      if startSector = 0 ∧ offset < 4 then
        wordImage (lastLengthAfterWrite fs.fileTable slot length) offset
      else buffer offset := by
  have startLe := placement.inside extents
  have position := dataPosition_eq (show startSector.toNat ≤ 64 by omega)
  split
  · rename_i atHead
    obtain ⟨rfl, below⟩ := atHead
    rw [position, show (0 : Word).toNat = 0 from rfl, Nat.mul_zero, Nat.add_zero,
      (storedFile_synced fs slot 0 buffer length).head below]
    congr 1
    exact lastLength_placeFile _ _ _ _
  · rename_i notHead
    have later : startSector = 0 → 4 ≤ offset := by
      intro zero
      by_contra small
      exact notHead ⟨zero, by omega⟩
    have past : 4 + fileTableSize ≤ dataPosition startSector + offset := by
      rw [position]
      simp only [fileTableSize, dataStart]
      by_cases zero : startSector = 0
      · have := later zero
        omega
      · have : startSector.toNat ≠ 0 := fun none => zero (BitVec.eq_of_toNat_eq none)
        omega
    rw [storedFile_storage past, blit_inside _ _ (by omega), Nat.add_sub_cancel_left]

/-- The stored file reads back as the data exactly when the sync spares it. -/
theorem Placement.contentsOf_eq_iff (placement : Placement fs slot startSector length)
    (extents : ExtentsOk fs.fileTable) :
    contentsOf (storedFile fs slot startSector buffer length) slot =
        slice buffer 0 length.toNat ↔
      HeadKept fs.fileTable slot buffer length := by
  unfold contentsOf HeadKept
  rw [storedFile_entry, ← placement.startSector_eq extents]
  simp only [FileEntry.placed, slice_eq_slice_iff, Nat.zero_add]
  constructor
  · intro same
    by_cases zero : startSector = 0
    · refine Or.inr fun offset below => ?_
      rw [lt_min_iff] at below
      rw [← same offset below.2, placement.storage_at extents below.2, if_pos ⟨zero, below.1⟩]
    · exact Or.inl zero
  · intro kept offset inside
    rw [placement.storage_at extents inside]
    split
    · rename_i atHead
      rcases kept with elsewhere | same
      · exact absurd atHead.1 elsewhere
      · exact same offset (lt_min atHead.2 inside)
    · rfl

end Writing

/-- Of the memory behind the buffer a write looks at the bytes it counts only. -/
theorem bdfsWriteFile_congr {fs : FileSystem} {filename : CString} {buffer other : Image}
    {bytesToWrite : Word}
    (same : ∀ offset < bytesToWrite.toNat, buffer offset = other offset) :
    bdfsWriteFile fs filename buffer bytesToWrite = bdfsWriteFile fs filename other bytesToWrite := by
  unfold bdfsWriteFile storeFile storedFile
  simp only [memcpy_congr same]

/-- The write has a result, and if it succeeds the file reads back as the bytes
written. -/
def ReadAfterWrite (fs : FileSystem) (filename : CString) (buffer : Image) (bytesToWrite : Word) :
    Prop :=
  ∃ code after, bdfsWriteFile fs filename buffer bytesToWrite = some (code, after) ∧
    (0 ≤ code →
      bdfsReadFile after filename = some (.ok (bytesToWrite, slice buffer 0 bytesToWrite.toNat)))

theorem Placement.toInt_nonneg {fs : FileSystem} {slot : Slot} {startSector length : Word}
    (placement : Placement fs slot startSector length) : 0 ≤ length.toInt := by
  have := placement.inStorage
  simp only [storageSize] at this
  rw [BitVec.toInt_eq_toNat_of_lt (by omega)]
  exact Int.natCast_nonneg _

/-- A write to a file reads back exactly when the space check refuses it or the
sync spares its data. -/
theorem readAfterWrite_iff_of_found {fs : FileSystem} {filename : CString} {slot : Slot}
    {buffer : Image} {bytesToWrite : Word} (extents : ExtentsOk fs.fileTable)
    (found : findEntryInDir fs.fileTable filename fs.currentDirInode = some slot)
    (isFile : (fs.fileTable slot).type = .file) (noWrap : bytesToWrite.toNat + 511 < 2 ^ 32) :
    ReadAfterWrite fs filename buffer bytesToWrite ↔
      chooseStartSector fs.fileTable (fs.fileTable slot) bytesToWrite = none ∨
        HeadKept fs.fileTable slot buffer bytesToWrite := by
  have isFileEntry : (fs.fileTable slot).IsFile := ⟨(live_of_findEntryInDir found).1, isFile⟩
  unfold ReadAfterWrite
  rw [bdfsWriteFile_of_found extents found isFile buffer noWrap]
  cases chosen : chooseStartSector fs.fileTable (fs.fileTable slot) bytesToWrite with
  | none =>
      simp only [true_or, iff_true]
      exact ⟨-2, fs, rfl, fun success => absurd success (by decide)⟩
  | some startSector =>
      have placement : Placement fs slot startSector bytesToWrite :=
        { found := ⟨filename, found⟩
          isFile := isFile
          chosen := chosen
          inStorage := inStorage_of_chooseStartSector extents isFileEntry noWrap chosen }
      have entry := storedFile_entry fs slot startSector buffer bytesToWrite
      have readBack : bdfsReadFile (storedFile fs slot startSector buffer bytesToWrite) filename =
          some (.ok (bytesToWrite,
            contentsOf (storedFile fs slot startSector buffer bytesToWrite) slot)) := by
        rw [bdfsReadFile_of_found (placement.extentsOk extents)
          ((findEntryInDir_placed isFile filename _).trans found) (by rw [entry]; exact isFile), entry]
        rfl
      simp only [Option.some.injEq, Prod.mk.injEq, reduceCtorEq, false_or]
      rw [← placement.contentsOf_eq_iff extents]
      constructor
      · rintro ⟨_, _, ⟨rfl, rfl⟩, reads⟩
        have := reads placement.toInt_nonneg
        rw [readBack] at this
        simpa using this
      · intro same
        refine ⟨_, _, ⟨rfl, rfl⟩, fun _ => ?_⟩
        rw [readBack, same]

/-- In a reachable state a write to a regular file reads back exactly when the
space check refuses it, or its data goes elsewhere than sector 0, or its first
four bytes are the ones the sync puts there. -/
theorem readAfterWrite_iff {fs : FileSystem} (reachable : system.Reachable fs)
    {filename : CString} {slot : Slot}
    (found : findEntryInDir fs.fileTable filename fs.currentDirInode = some slot)
    (isFile : (fs.fileTable slot).type = .file) (buffer : Image) {bytesToWrite : Word}
    (bounded : bytesToWrite.toNat ≤ 64 * 512) :
    ReadAfterWrite fs filename buffer bytesToWrite ↔
      chooseStartSector fs.fileTable (fs.fileTable slot) bytesToWrite = none ∨
        HeadKept fs.fileTable slot buffer bytesToWrite :=
  readAfterWrite_iff_of_found (reachable_extentsOk reachable) found isFile (by omega)


theorem readAfterWrite_iff_pair :
    ReadAfterWrite pairFileSystem (literal ['p']) (literal ['d', 'e']).image 2 := by
  have file : findEntryInDir pairFileSystem.fileTable (literal ['p'])
        pairFileSystem.currentDirInode = some 9 ∧
      (pairFileSystem.fileTable 9).type = .file := by decide +kernel
  have reachable := (@pairFileSystem_reachable (fun _ => True) fun _ _ => trivial).of_restrict
  exact (readAfterWrite_iff reachable file.1 file.2 _ (by decide)).mpr (.inr (by decide +kernel))

/-- One byte written to the first file of a new file system reads back as 0. -/
theorem readAfterWrite_fails :
    ¬ ∀ fs : FileSystem, system.Reachable fs → ∀ (filename : CString) (slot : Slot),
      findEntryInDir fs.fileTable filename fs.currentDirInode = some slot →
      (fs.fileTable slot).type = .file → ∀ (buffer : Image) (bytesToWrite : Word),
      bytesToWrite.toNat ≤ 64 * 512 → ReadAfterWrite fs filename buffer bytesToWrite := by
  intro always
  have reachable := (@logFileSystem_reachable (fun _ => True) trivial).of_restrict
  have reads := always logFileSystem reachable _ 8 logFileSystem_found.1 logFileSystem_found.2
    (fun _ => 1) 1 (by decide)
  rw [readAfterWrite_iff_of_found (reachable_extentsOk reachable) logFileSystem_found.1
    logFileSystem_found.2 (by decide)] at reads
  revert reads
  decide +kernel

end BrainDance.Fs.Bdfs
