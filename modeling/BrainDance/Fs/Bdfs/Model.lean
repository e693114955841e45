import Mathlib.Data.List.FinRange
import BrainDance.Libc.Memcore

/-!
Owns the model of `fs/bdfs.c`: the file table, the byte array `bdfs_storage`
with the layout `bdfs_sync_file_table` gives it, and the operations the shell
and the interpreter call.

An operation that would read or write past the end of an array returns `none`;
it has no next state. An `int` result is the code the source returns, and a
file index of `-1` is `none`. Console output is not modelled here, and neither
are `bdfs_list_files` and `bdfs_get_current_dir_name`, which only print or copy a
name.
-/

namespace BrainDance.Fs.Bdfs

open BrainDance.Foundation
open BrainDance.Libc

/-! ### Layout -/

def bdfsMagic : Word := 0x42444653

abbrev bdfsMaxFiles : Nat := 64

instance : NeZero bdfsMaxFiles := ⟨by decide⟩

abbrev bdfsMaxFilenameLength : Nat := 16

/-- `BDFS_FILE_TABLE_SECTORS * 512`: where the data region starts. -/
abbrev dataStart : Nat := 4 * 512

def bdfsDataSectors : Word := 64

/-- `sizeof(bdfs_storage)`: the file table sectors, then the data sectors. -/
abbrev storageSize : Nat := (4 + 64) * 512

/-- `sizeof(file_table)`: 64 entries of 32 bytes. -/
abbrev fileTableSize : Nat := 64 * 32

inductive BdfsFileType where
  | file
  | directory
deriving DecidableEq, Repr

def BdfsFileType.toWord : BdfsFileType → Word
  | .file => 0
  | .directory => 1

def BdfsFileType.ofWord (word : Word) : Option BdfsFileType :=
  if word = 0 then some .file else if word = 1 then some .directory else none

structure FileEntry where
  name : Fin bdfsMaxFilenameLength → Byte
  type : BdfsFileType
  parentInode : Word
  startSector : Word
  length : Word

/-- The entry's 32 bytes in memory: the name, then four words. -/
def FileEntry.image (entry : FileEntry) : Image := fun offset =>
  if inName : offset < bdfsMaxFilenameLength then entry.name ⟨offset, inName⟩
  else if offset < 20 then wordImage entry.type.toWord (offset - 16)
  else if offset < 24 then wordImage entry.parentInode (offset - 20)
  else if offset < 28 then wordImage entry.startSector (offset - 24)
  else wordImage entry.length (offset - 28)

/-- An entry is in use while its name is not the empty string. -/
def FileEntry.Live (entry : FileEntry) : Prop := entry.name 0 ≠ 0

instance (entry : FileEntry) : Decidable entry.Live := inferInstanceAs (Decidable (_ ≠ _))

/-- A position in the file table, the inode number of the entry kept there. -/
abbrev Slot := Fin bdfsMaxFiles

abbrev FileTable := Slot → FileEntry

/-- A slot as the `uint32_t` that `parent_inode` and `current_dir_inode` hold. -/
def inodeOf (slot : Slot) : Word := BitVec.ofNat 32 slot.val

/-- `file_table[inode]`, when the index is inside the table. -/
def entryAt (table : FileTable) (inode : Word) : Option FileEntry :=
  if inTable : inode.toNat < bdfsMaxFiles then some (table ⟨inode.toNat, inTable⟩) else none

/-- The bytes of the array `file_table`. -/
def tableImage (table : FileTable) : Image := fun offset =>
  if inTable : offset / 32 < bdfsMaxFiles then (table ⟨offset / 32, inTable⟩).image (offset % 32)
  else 0

/-- The table whose bytes stand at `start`, when every type field there is an
enumerator. -/
def loadTable (image : Image) (start : Nat) : Option FileTable :=
  let type (slot : Slot) := BdfsFileType.ofWord (wordAt image (start + 32 * slot.val + 16))
  if types : ∀ slot : Slot, (type slot).isSome then
    some fun slot =>
      { name := fun index => image (start + 32 * slot.val + index.val)
        type := (type slot).get (types slot)
        parentInode := wordAt image (start + 32 * slot.val + 20)
        startSector := wordAt image (start + 32 * slot.val + 24)
        length := wordAt image (start + 32 * slot.val + 28) }
  else none

structure FileSystem where
  storage : Image
  fileTable : FileTable
  currentDirInode : Word

/-! ### Table searches -/

def findEntryInDir (table : FileTable) (name : CString) (parentInode : Word) : Option Slot :=
  (List.finRange bdfsMaxFiles).find? fun slot =>
    decide ((table slot).Live ∧ (table slot).parentInode = parentInode ∧
      strcmp (table slot).image name = 0)

def findFreeEntry (table : FileTable) : Option Slot :=
  (List.finRange bdfsMaxFiles).find? fun slot => decide (¬ (table slot).Live)

/-- `(bytes + 511) / 512` in 32-bit arithmetic. -/
def sectorsFor (bytes : Word) : Word := (bytes + 511) / 512

/-- One round of the `find_free_sector` loop. -/
def raiseLastSector (lastSector : Word) (entry : FileEntry) : Word :=
  if entry.Live ∧ entry.type = .file then
    let fileEndSector := entry.startSector + sectorsFor entry.length
    if fileEndSector > lastSector then fileEndSector else lastSector
  else lastSector

def findFreeSector (table : FileTable) : Word :=
  (List.finRange bdfsMaxFiles).foldl (fun lastSector slot => raiseLastSector lastSector (table slot)) 0

/-! ### Creating entries -/

/-- The entry a create leaves in the free slot that held `stale`. -/
def newEntry (stale : FileEntry) (name : CString) (type : BdfsFileType) (parentInode : Word)
    (fits : name.bytes.length < bdfsMaxFilenameLength) : FileEntry where
  name := strcpy stale.name name fits
  type := type
  parentInode := parentInode
  startSector := 0
  length := 0

/-- What `bdfs_create_file` and `bdfs_create_dir_entry` do to the table: the
slot taken and the table after it, or the error code. -/
def createEntry (table : FileTable) (name : CString) (type : BdfsFileType) (parentInode : Word) :
    Except Int (Slot × FileTable) :=
  if tooLong : strlen name ≥ bdfsMaxFilenameLength then .error (-1)
  else if findEntryInDir table name parentInode ≠ none then .error (-2)
  else
    match findFreeEntry table with
    | none => .error (-3)
    | some freeIndex =>
        .ok (freeIndex, Function.update table freeIndex
          (newEntry (table freeIndex) name type parentInode (Nat.lt_of_not_le tooLong)))

def bdfsCreateDirEntry (table : FileTable) (dirname : CString) (parentInode : Word) :
    Except Int (Slot × FileTable) :=
  createEntry table dirname .directory parentInode

/-! ### Initialisation and persistence -/

def bdfsSyncFileTable (fs : FileSystem) : FileSystem :=
  let cleared := memset fs.storage 0 0 dataStart
  let marked := storeWord cleared 0 bdfsMagic
  { fs with storage := memcpy marked 4 (tableImage fs.fileTable) fileTableSize }

def zeroEntry : FileEntry where
  name := fun _ => 0
  type := .file
  parentInode := 0
  startSector := 0
  length := 0

/-- The cleared table with the root directory at inode 0, its own parent. -/
def rootTable : FileTable :=
  Function.update (fun _ => zeroEntry) 0
    { zeroEntry with name := strcpy zeroEntry.name (literal ['/']) (by decide), type := .directory }

/-- The table after a create whose error code is ignored. -/
def tableAfter (table : FileTable) (result : Except Int (Slot × FileTable)) : FileTable :=
  match result with
  | .ok (_, created) => created
  | .error _ => table

def createDefault (table : FileTable) (dirname : CString) (parentInode : Word) : FileTable :=
  tableAfter table (bdfsCreateDirEntry table dirname parentInode)

/-- The table of a new file system. -/
def defaultTable : FileTable :=
  let table := createDefault rootTable (literal ['s', 'o', 'u', 'l']) 0
  let table := createDefault table (literal ['c', 'o', 'r', 't', 'e', 'x']) 0
  let vault := bdfsCreateDirEntry table (literal ['v', 'a', 'u', 'l', 't']) 0
  let table := tableAfter table vault
  let table := createDefault table (literal ['c', 'h', 'r', 'o', 'm', 'e']) 0
  let table := createDefault table (literal ['d', 'r', 'i', 'f', 't']) 0
  let table := createDefault table (literal ['g', 'h', 'o', 's', 't']) 0
  match vault with
  | .ok (vaultInode, _) =>
      createDefault table (literal ['c', 'y', 'p', 'h', 'e', 'r']) (inodeOf vaultInode)
  | .error _ => table

def bdfsInit (fs : FileSystem) : Option FileSystem :=
  if wordAt fs.storage 0 ≠ bdfsMagic then
    some { bdfsSyncFileTable { fs with fileTable := defaultTable } with currentDirInode := 0 }
  else
    (loadTable fs.storage 4).map fun loaded =>
      { fs with fileTable := loaded, currentDirInode := 0 }

/-! ### Directory operations -/

def bdfsCreateFile (fs : FileSystem) (filename : CString) : Int × FileSystem :=
  match createEntry fs.fileTable filename .file fs.currentDirInode with
  | .ok (_, table) => (0, bdfsSyncFileTable { fs with fileTable := table })
  | .error code => (code, fs)

def bdfsMkdir (fs : FileSystem) (dirname : CString) : Int × FileSystem :=
  match bdfsCreateDirEntry fs.fileTable dirname fs.currentDirInode with
  | .ok (_, table) => (0, bdfsSyncFileTable { fs with fileTable := table })
  | .error code => (code, fs)

/-- The entry after `name[0] = '\0'`: free, its other bytes still in place. -/
def FileEntry.freed (entry : FileEntry) : FileEntry :=
  { entry with name := Function.update entry.name 0 0 }

def bdfsDeleteFile (fs : FileSystem) (filename : CString) : Int × FileSystem :=
  match findEntryInDir fs.fileTable filename fs.currentDirInode with
  | none => (-1, fs)
  | some fileIndex =>
      (0, bdfsSyncFileTable
        { fs with
          fileTable := Function.update fs.fileTable fileIndex (fs.fileTable fileIndex).freed })

/-- The entry under another name. -/
def FileEntry.renamed (entry : FileEntry) (newName : CString)
    (fits : newName.bytes.length < bdfsMaxFilenameLength) : FileEntry :=
  { entry with name := strcpy entry.name newName fits }

def bdfsRenameFile (fs : FileSystem) (oldFilename newFilename : CString) : Int × FileSystem :=
  if tooLong : strlen newFilename ≥ bdfsMaxFilenameLength then (-1, fs)
  else
    match findEntryInDir fs.fileTable oldFilename fs.currentDirInode with
    | none => (-2, fs)
    | some oldFileIndex =>
        if findEntryInDir fs.fileTable newFilename fs.currentDirInode ≠ none then (-3, fs)
        else
          (0, bdfsSyncFileTable
            { fs with
              fileTable := Function.update fs.fileTable oldFileIndex
                ((fs.fileTable oldFileIndex).renamed newFilename (Nat.lt_of_not_le tooLong)) })

def dot : CString := literal ['.']

def dotDot : CString := literal ['.', '.']

def bdfsChdir (fs : FileSystem) (dirname : CString) : Option (Int × FileSystem) :=
  if strcmp dirname.image dot = 0 then some (0, fs)
  else if strcmp dirname.image dotDot = 0 then
    if fs.currentDirInode ≠ 0 then
      (entryAt fs.fileTable fs.currentDirInode).map fun current =>
        (0, { fs with currentDirInode := current.parentInode })
    else some (0, fs)
  else
    match findEntryInDir fs.fileTable dirname fs.currentDirInode with
    | none => some (-1, fs)
    | some dirIndex =>
        if (fs.fileTable dirIndex).type ≠ .directory then some (-2, fs)
        else some (0, { fs with currentDirInode := inodeOf dirIndex })

/-! ### File contents -/

/-- `BDFS_FILE_TABLE_SECTORS * 512 + start_sector * 512` in 32-bit arithmetic. -/
def dataPosition (startSector : Word) : Nat := (BitVec.ofNat 32 dataStart + startSector * 512).toNat

/-- The sector a write of `bytesToWrite` bytes goes to, if the space check lets
it through: the first sector after every file for an empty file, the file's own
extent otherwise. -/
def chooseStartSector (table : FileTable) (file : FileEntry) (bytesToWrite : Word) : Option Word :=
  let neededSectors := sectorsFor bytesToWrite
  if file.length = 0 then
    let startSector := findFreeSector table
    if startSector + neededSectors > bdfsDataSectors then none else some startSector
  else
    let allocatedSectors := sectorsFor file.length
    if neededSectors > allocatedSectors then none else some file.startSector

/-- The entry with another extent. -/
def FileEntry.placed (entry : FileEntry) (startSector length : Word) : FileEntry :=
  { entry with startSector := startSector, length := length }

/-- The table after a write of `length` bytes placed at `startSector`. -/
def placeFile (table : FileTable) (slot : Slot) (startSector length : Word) : FileTable :=
  Function.update table slot ((table slot).placed startSector length)

/-- The state after the rest of a write: the entry set, the data copied, the
table synced. -/
def storedFile (fs : FileSystem) (fileIndex : Slot) (startSector : Word) (buffer : Image)
    (bytesToWrite : Word) : FileSystem :=
  bdfsSyncFileTable
    { fs with
      storage := memcpy fs.storage (dataPosition startSector) buffer bytesToWrite.toNat
      fileTable := placeFile fs.fileTable fileIndex startSector bytesToWrite }

/-- The rest of a write, when the copy stays inside the storage. -/
def storeFile (fs : FileSystem) (fileIndex : Slot) (startSector : Word) (buffer : Image)
    (bytesToWrite : Word) : Option FileSystem :=
  if dataPosition startSector + bytesToWrite.toNat ≤ storageSize then
    some (storedFile fs fileIndex startSector buffer bytesToWrite)
  else none

def bdfsWriteFile (fs : FileSystem) (filename : CString) (buffer : Image) (bytesToWrite : Word) :
    Option (Int × FileSystem) :=
  match findEntryInDir fs.fileTable filename fs.currentDirInode with
  | none => some (-1, fs)
  | some fileIndex =>
      let file := fs.fileTable fileIndex
      if file.type ≠ .file then some (-3, fs)
      else
        match chooseStartSector fs.fileTable file bytesToWrite with
        | none => some (-2, fs)
        | some startSector =>
            (storeFile fs fileIndex startSector buffer bytesToWrite).map fun stored =>
              (bytesToWrite.toInt, stored)

/-- `bdfs_read_file`: an error code, or `*bytes_read` and the bytes copied. -/
def bdfsReadFile (fs : FileSystem) (filename : CString) : Option (Except Int (Word × List Byte)) :=
  match findEntryInDir fs.fileTable filename fs.currentDirInode with
  | none => some (.error (-1))
  | some fileIndex =>
      let file := fs.fileTable fileIndex
      if file.type ≠ .file then some (.error (-2))
      else if file.length > 0 then
        if dataPosition file.startSector + file.length.toNat ≤ storageSize then
          some (.ok (file.length, slice fs.storage (dataPosition file.startSector) file.length.toNat))
        else none
      else some (.ok (file.length, []))

end BrainDance.Fs.Bdfs
