import Mathlib.Logic.Relation
import BrainDance.Foundation.Transition
import BrainDance.Fs.Bdfs.Model

/-!
Owns the BDFS transition system and the inversion of its steps. `Op.exec` runs
one file-system call; `Effect` lists everything a call can do to the state,
with the facts the code has checked by then. `exec_effect` says the list is
complete, so an invariant needs one case per effect and never unfolds an
operation.

The system starts from `bdfs_init` on a storage without the magic number, as
the zeroed static array is. A call that would leave `bdfs_storage` has no step.
-/

namespace BrainDance.Fs.Bdfs

open BrainDance.Foundation
open BrainDance.Libc

/-! ### Operations -/

inductive Op where
  | createFile (filename : CString)
  | mkdir (dirname : CString)
  | deleteFile (filename : CString)
  | renameFile (oldFilename newFilename : CString)
  | chdir (dirname : CString)
  | writeFile (filename : CString) (buffer : Image) (bytesToWrite : Word)

def Op.exec (fs : FileSystem) : Op → Option (Int × FileSystem)
  | .createFile filename => some (bdfsCreateFile fs filename)
  | .mkdir dirname => some (bdfsMkdir fs dirname)
  | .deleteFile filename => some (bdfsDeleteFile fs filename)
  | .renameFile oldFilename newFilename => some (bdfsRenameFile fs oldFilename newFilename)
  | .chdir dirname => bdfsChdir fs dirname
  | .writeFile filename buffer bytesToWrite => bdfsWriteFile fs filename buffer bytesToWrite

def system : TransitionSystem FileSystem Op where
  Init fs := ∃ boot : FileSystem, wordAt boot.storage 0 ≠ bdfsMagic ∧ bdfsInit boot = some fs
  Step before op after := ∃ code, op.exec before = some (code, after)

theorem reachable_exec {fs after : FileSystem} {op : Op} {code : Int}
    (reachable : system.Reachable fs) (executed : op.exec fs = some (code, after)) :
    system.Reachable after := .step reachable ⟨code, executed⟩

/-- Every byte count the call is given satisfies `Ok`. -/
def Op.BytesOk (Ok : Word → Prop) : Op → Prop
  | .writeFile _ _ bytesToWrite => Ok bytesToWrite
  | _ => True

/-- The rounding of the requested byte count to sectors does not wrap. -/
abbrev Op.NoWrap (op : Op) : Prop := op.BytesOk fun bytesToWrite => bytesToWrite.toNat + 511 < 2 ^ 32

/-- At most as many bytes are requested as the data sectors hold. -/
abbrev Op.WithinDisk (op : Op) : Prop := op.BytesOk fun bytesToWrite => bytesToWrite.toNat ≤ 64 * 512

theorem Op.NoWrap.of_withinDisk {op : Op} (within : op.WithinDisk) : op.NoWrap := by
  cases op with
  | writeFile filename buffer bytesToWrite =>
      have bounded : bytesToWrite.toNat ≤ 64 * 512 := within
      exact show bytesToWrite.toNat + 511 < 2 ^ 32 by omega
  | _ => trivial

/-! ### Searches -/

section Searches

variable {table : FileTable} {name : CString} {directory : Word} {slot : Slot}

theorem live_of_findEntryInDir (found : findEntryInDir table name directory = some slot) :
    (table slot).Live ∧ (table slot).parentInode = directory ∧
      strcmp (table slot).image name = 0 := by
  simpa using List.find?_some found

theorem findEntryInDir_eq_none_iff :
    findEntryInDir table name directory = none ↔
      ∀ slot, (table slot).Live → (table slot).parentInode = directory →
        strcmp (table slot).image name ≠ 0 := by
  simp [findEntryInDir, List.find?_eq_none]

theorem free_of_findFreeEntry (picked : findFreeEntry table = some slot) :
    ¬ (table slot).Live := by
  simpa using List.find?_some picked

theorem findFreeEntry_eq_none_iff :
    findFreeEntry table = none ↔ ∀ slot, (table slot).Live := by
  simp [findFreeEntry, List.find?_eq_none]

end Searches

/-! ### Effects -/

/-- The changes to the name space that a call in `directory` can make. -/
inductive NameEdit (directory : Word) (table : FileTable) : FileTable → Prop where
  | occupy {slot : Slot} {name : CString} (type : BdfsFileType)
      (fits : name.bytes.length < bdfsMaxFilenameLength)
      (absent : findEntryInDir table name directory = none)
      (picked : findFreeEntry table = some slot) :
      NameEdit directory table
        (Function.update table slot (newEntry (table slot) name type directory fits))
  | release {slot : Slot} {name : CString}
      (found : findEntryInDir table name directory = some slot) :
      NameEdit directory table (Function.update table slot (table slot).freed)
  | rename {slot : Slot} {oldName newName : CString}
      (fits : newName.bytes.length < bdfsMaxFilenameLength)
      (found : findEntryInDir table oldName directory = some slot)
      (absent : findEntryInDir table newName directory = none) :
      NameEdit directory table
        (Function.update table slot ((table slot).renamed newName fits))

/-- A write the checks let through: the file it names and where its data goes. -/
structure Placement (fs : FileSystem) (slot : Slot) (startSector length : Word) : Prop where
  found : ∃ name, findEntryInDir fs.fileTable name fs.currentDirInode = some slot
  isFile : (fs.fileTable slot).type = .file
  chosen : chooseStartSector fs.fileTable (fs.fileTable slot) length = some startSector
  inStorage : dataPosition startSector + length.toNat ≤ storageSize

/-- Everything one call can do to the file system. -/
inductive Effect (fs : FileSystem) : FileSystem → Prop where
  | unchanged : Effect fs fs
  | ascend {current : FileEntry} (notRoot : fs.currentDirInode ≠ 0)
      (here : entryAt fs.fileTable fs.currentDirInode = some current) :
      Effect fs { fs with currentDirInode := current.parentInode }
  | descend {slot : Slot} {name : CString}
      (found : findEntryInDir fs.fileTable name fs.currentDirInode = some slot)
      (isDirectory : (fs.fileTable slot).type = .directory) :
      Effect fs { fs with currentDirInode := inodeOf slot }
  | rearrange {table : FileTable} (edit : NameEdit fs.currentDirInode fs.fileTable table) :
      Effect fs (bdfsSyncFileTable { fs with fileTable := table })
  | store {slot : Slot} {startSector length : Word} (buffer : Image)
      (placement : Placement fs slot startSector length) :
      Effect fs (storedFile fs slot startSector buffer length)

/-! ### Inversion -/

/-- A create that succeeds fills the first free slot. -/
theorem createEntry_eq_ok_iff {table created : FileTable} {name : CString} {type : BdfsFileType}
    {directory : Word} {slot : Slot} :
    createEntry table name type directory = .ok (slot, created) ↔
      ∃ fits : name.bytes.length < bdfsMaxFilenameLength,
        findEntryInDir table name directory = none ∧ findFreeEntry table = some slot ∧
          created = Function.update table slot (newEntry (table slot) name type directory fits) := by
  unfold createEntry strlen
  split
  · rename_i tooLong
    simp only [reduceCtorEq, false_iff]
    rintro ⟨fits, _⟩
    omega
  · rename_i fits
    cases present : findEntryInDir table name directory with
    | some other => simp
    | none =>
        cases free : findFreeEntry table with
        | none => simp
        | some picked =>
            simp only [ne_eq, not_true_eq_false, if_false, Except.ok.injEq, Prod.mk.injEq,
              true_and, Option.some.injEq]
            constructor
            · rintro ⟨rfl, rfl⟩
              exact ⟨Nat.lt_of_not_le fits, rfl, rfl⟩
            · rintro ⟨_, rfl, rfl⟩
              exact ⟨rfl, rfl⟩

theorem nameEdit_of_createEntry {table created : FileTable} {name : CString}
    {type : BdfsFileType} {directory : Word} {slot : Slot}
    (created_eq : createEntry table name type directory = .ok (slot, created)) :
    NameEdit directory table created := by
  obtain ⟨fits, absent, picked, rfl⟩ := createEntry_eq_ok_iff.mp created_eq
  exact .occupy type fits absent picked

/-- A call that changes nothing, or the name space and nothing else. -/
inductive Rearranges (fs : FileSystem) : FileSystem → Prop where
  | unchanged : Rearranges fs fs
  | edit {table : FileTable} (edit : NameEdit fs.currentDirInode fs.fileTable table) :
      Rearranges fs (bdfsSyncFileTable { fs with fileTable := table })

theorem Rearranges.effect {fs after : FileSystem} (rearranges : Rearranges fs after) :
    Effect fs after := by
  cases rearranges with
  | unchanged => exact .unchanged
  | edit edit => exact .rearrange edit

section Inversion

variable {fs after : FileSystem} {code : Int}

theorem bdfsCreateFile_rearranges (filename : CString) :
    Rearranges fs (bdfsCreateFile fs filename).2 := by
  unfold bdfsCreateFile
  split
  · rename_i created
    exact .edit (nameEdit_of_createEntry created)
  · exact .unchanged

theorem bdfsMkdir_rearranges (dirname : CString) : Rearranges fs (bdfsMkdir fs dirname).2 := by
  unfold bdfsMkdir bdfsCreateDirEntry
  split
  · rename_i created
    exact .edit (nameEdit_of_createEntry created)
  · exact .unchanged

theorem bdfsDeleteFile_rearranges (filename : CString) :
    Rearranges fs (bdfsDeleteFile fs filename).2 := by
  unfold bdfsDeleteFile
  split
  · exact .unchanged
  · rename_i found
    exact .edit (.release found)

theorem bdfsRenameFile_rearranges (oldFilename newFilename : CString) :
    Rearranges fs (bdfsRenameFile fs oldFilename newFilename).2 := by
  unfold bdfsRenameFile
  split
  · exact .unchanged
  · split
    · exact .unchanged
    · rename_i found
      split
      · exact .unchanged
      · rename_i absent
        exact .edit (.rename _ found (not_not.mp absent))

/-- A change of directory stays, goes to the parent of the current directory or
goes to a directory found in it. -/
theorem bdfsChdir_cases {dirname : CString} (moved : bdfsChdir fs dirname = some (code, after)) :
    after = fs ∨
      (fs.currentDirInode ≠ 0 ∧ ∃ current, entryAt fs.fileTable fs.currentDirInode = some current ∧
        after = { fs with currentDirInode := current.parentInode }) ∨
      ∃ slot, findEntryInDir fs.fileTable dirname fs.currentDirInode = some slot ∧
        (fs.fileTable slot).type = .directory ∧
        after = { fs with currentDirInode := inodeOf slot } := by
  unfold bdfsChdir at moved
  split at moved
  · exact Or.inl (Prod.mk.inj (Option.some.inj moved)).2.symm
  · split at moved
    · split at moved
      · rename_i notRoot
        obtain ⟨current, here, result⟩ := Option.map_eq_some_iff.mp moved
        exact Or.inr (Or.inl ⟨notRoot, current, here, (Prod.mk.inj result).2.symm⟩)
      · exact Or.inl (Prod.mk.inj (Option.some.inj moved)).2.symm
    · split at moved
      · exact Or.inl (Prod.mk.inj (Option.some.inj moved)).2.symm
      · rename_i slot found
        split at moved
        · exact Or.inl (Prod.mk.inj (Option.some.inj moved)).2.symm
        · rename_i isDirectory
          exact Or.inr (Or.inr ⟨slot, found, not_not.mp isDirectory,
            (Prod.mk.inj (Option.some.inj moved)).2.symm⟩)

theorem bdfsChdir_effect {dirname : CString} (moved : bdfsChdir fs dirname = some (code, after)) :
    Effect fs after := by
  rcases bdfsChdir_cases moved with
    rfl | ⟨notRoot, current, here, rfl⟩ | ⟨slot, found, isDirectory, rfl⟩
  · exact .unchanged
  · exact .ascend notRoot here
  · exact .descend found isDirectory

/-- `bdfs_chdir` changes nothing but the current directory. -/
theorem bdfsChdir_keeps {dirname : CString} (moved : bdfsChdir fs dirname = some (code, after)) :
    after.storage = fs.storage ∧ after.fileTable = fs.fileTable := by
  rcases bdfsChdir_cases moved with rfl | ⟨_, _, _, rfl⟩ | ⟨_, _, _, rfl⟩ <;> exact ⟨rfl, rfl⟩

/-- A write either stops at one of its checks, with the state unchanged, or
stores the data of the file it names. -/
theorem bdfsWriteFile_cases {filename : CString} {buffer : Image} {bytesToWrite : Word}
    (written : bdfsWriteFile fs filename buffer bytesToWrite = some (code, after)) :
    (after = fs ∧ code < 0) ∨
      ∃ slot startSector, findEntryInDir fs.fileTable filename fs.currentDirInode = some slot ∧
        Placement fs slot startSector bytesToWrite ∧ code = bytesToWrite.toInt ∧
        after = storedFile fs slot startSector buffer bytesToWrite := by
  unfold bdfsWriteFile at written
  split at written
  · obtain ⟨rfl, rfl⟩ := Prod.mk.inj (Option.some.inj written)
    exact Or.inl ⟨rfl, by decide⟩
  · rename_i slot found
    simp only [] at written
    split at written
    · obtain ⟨rfl, rfl⟩ := Prod.mk.inj (Option.some.inj written)
      exact Or.inl ⟨rfl, by decide⟩
    · rename_i isFile
      split at written
      · obtain ⟨rfl, rfl⟩ := Prod.mk.inj (Option.some.inj written)
        exact Or.inl ⟨rfl, by decide⟩
      · rename_i startSector chosen
        obtain ⟨stored, storing, result⟩ := Option.map_eq_some_iff.mp written
        obtain ⟨rfl, rfl⟩ := Prod.mk.inj result
        unfold storeFile at storing
        split at storing
        · rename_i inStorage
          refine Or.inr ⟨slot, startSector, found, ?_, rfl, (Option.some.inj storing).symm⟩
          exact ⟨⟨filename, found⟩, not_not.mp isFile, chosen, inStorage⟩
        · contradiction

theorem bdfsWriteFile_effect {filename : CString} {buffer : Image} {bytesToWrite : Word}
    (written : bdfsWriteFile fs filename buffer bytesToWrite = some (code, after)) :
    Effect fs after := by
  rcases bdfsWriteFile_cases written with ⟨rfl, _⟩ | ⟨slot, startSector, _, placement, _, rfl⟩
  · exact .unchanged
  · exact .store buffer placement

theorem exec_effect {op : Op} (executed : op.exec fs = some (code, after)) : Effect fs after := by
  cases op with
  | createFile filename =>
      rw [← (Prod.mk.inj (Option.some.inj executed)).2]
      exact (bdfsCreateFile_rearranges filename).effect
  | mkdir dirname =>
      rw [← (Prod.mk.inj (Option.some.inj executed)).2]
      exact (bdfsMkdir_rearranges dirname).effect
  | deleteFile filename =>
      rw [← (Prod.mk.inj (Option.some.inj executed)).2]
      exact (bdfsDeleteFile_rearranges filename).effect
  | renameFile oldFilename newFilename =>
      rw [← (Prod.mk.inj (Option.some.inj executed)).2]
      exact (bdfsRenameFile_rearranges oldFilename newFilename).effect
  | chdir dirname => exact bdfsChdir_effect executed
  | writeFile filename buffer bytesToWrite => exact bdfsWriteFile_effect executed

end Inversion

/-! ### Initial states -/

private theorem tableAfter_edits (table : FileTable) (name : CString) (directory : Word) :
    Relation.ReflTransGen (fun before after => ∃ directory, NameEdit directory before after) table
      (tableAfter table (bdfsCreateDirEntry table name directory)) := by
  cases result : bdfsCreateDirEntry table name directory with
  | error code => exact .refl
  | ok created =>
      obtain ⟨slot, after⟩ := created
      exact .single ⟨directory, nameEdit_of_createEntry result⟩

/-- The default table is the root directory followed by creates. -/
theorem defaultTable_edits :
    Relation.ReflTransGen (fun before after => ∃ directory, NameEdit directory before after)
      rootTable defaultTable := by
  have atGhost : Relation.ReflTransGen
      (fun before after => ∃ directory, NameEdit directory before after) rootTable _ :=
    (tableAfter_edits rootTable (literal ['s', 'o', 'u', 'l']) 0).trans
      ((tableAfter_edits _ (literal ['c', 'o', 'r', 't', 'e', 'x']) 0).trans
        ((tableAfter_edits _ (literal ['v', 'a', 'u', 'l', 't']) 0).trans
          ((tableAfter_edits _ (literal ['c', 'h', 'r', 'o', 'm', 'e']) 0).trans
            ((tableAfter_edits _ (literal ['d', 'r', 'i', 'f', 't']) 0).trans
              (tableAfter_edits _ (literal ['g', 'h', 'o', 's', 't']) 0)))))
  unfold defaultTable createDefault
  simp only []
  split
  · exact atGhost.trans (tableAfter_edits _ _ _)
  · exact atGhost

/-- A table property that holds of the bare root and survives every change of
the name space holds of the default table. -/
theorem defaultTable_property {Property : FileTable → Prop} (atRoot : Property rootTable)
    (preserved : ∀ directory before after, Property before → NameEdit directory before after →
      Property after) : Property defaultTable := by
  have along : ∀ table, Relation.ReflTransGen
      (fun before after => ∃ directory, NameEdit directory before after) rootTable table →
        Property table := by
    intro table edits
    induction edits with
    | refl => exact atRoot
    | tail _ edit inductionHypothesis =>
        obtain ⟨directory, edit⟩ := edit
        exact preserved directory _ _ inductionHypothesis edit
  exact along defaultTable defaultTable_edits

theorem system_init_iff (fs : FileSystem) :
    system.Init fs ↔ ∃ boot : FileSystem, wordAt boot.storage 0 ≠ bdfsMagic ∧
      fs = { bdfsSyncFileTable { boot with fileTable := defaultTable } with
        currentDirInode := 0 } := by
  constructor
  · rintro ⟨boot, noMagic, started⟩
    rw [bdfsInit, if_pos noMagic] at started
    exact ⟨boot, noMagic, (Option.some.inj started).symm⟩
  · rintro ⟨boot, noMagic, rfl⟩
    exact ⟨boot, noMagic, by rw [bdfsInit, if_pos noMagic]⟩

/-- The state after `bdfs_init` on the zeroed static arrays. -/
def freshFileSystem : FileSystem :=
  bdfsSyncFileTable
    { storage := fun _ => 0, fileTable := defaultTable, currentDirInode := 0 }

theorem freshFileSystem_init : system.Init freshFileSystem :=
  (system_init_iff _).mpr
    ⟨{ storage := fun _ => 0, fileTable := fun _ => zeroEntry, currentDirInode := 0 },
      by decide, rfl⟩

theorem freshFileSystem_reachable : system.Reachable freshFileSystem := .init freshFileSystem_init

/-- The new file system with an empty file `log` in the root directory. -/
def logFileSystem : FileSystem := (bdfsCreateFile freshFileSystem (literal ['l', 'o', 'g'])).2

theorem logFileSystem_reachable {Allowed : Op → Prop}
    (allowed : Allowed (.createFile (literal ['l', 'o', 'g']))) :
    (system.restrict Allowed).Reachable logFileSystem :=
  .step (.init freshFileSystem_init) ⟨allowed, 0, rfl⟩

theorem logFileSystem_found :
    findEntryInDir logFileSystem.fileTable (literal ['l', 'o', 'g'])
        logFileSystem.currentDirInode = some 8 ∧
      (logFileSystem.fileTable 8).type = .file := by decide +kernel

/-- A write to a file that the space check lets through and that stays in the storage. -/
theorem exec_writeFile {fs : FileSystem} {filename : CString} {slot : Slot}
    {startSector bytesToWrite : Word} (buffer : Image)
    (found : findEntryInDir fs.fileTable filename fs.currentDirInode = some slot)
    (isFile : (fs.fileTable slot).type = .file)
    (chosen : chooseStartSector fs.fileTable (fs.fileTable slot) bytesToWrite = some startSector)
    (inStorage : dataPosition startSector + bytesToWrite.toNat ≤ storageSize) :
    (Op.writeFile filename buffer bytesToWrite).exec fs =
      some (bytesToWrite.toInt, storedFile fs slot startSector buffer bytesToWrite) := by
  rw [Op.exec, bdfsWriteFile]
  simp only [found, chosen]
  rw [if_neg (not_not.mpr isFile), storeFile, if_pos inStorage, Option.map_some]

/-- An empty file gets the first free sector. -/
theorem chooseStartSector_of_empty {table : FileTable} {file : FileEntry}
    {startSector bytesToWrite : Word} (empty : file.length = 0)
    (free : findFreeSector table = startSector)
    (fits : startSector + sectorsFor bytesToWrite ≤ bdfsDataSectors) :
    chooseStartSector table file bytesToWrite = some startSector := by
  rw [chooseStartSector, if_pos empty, free]
  exact if_neg (BitVec.not_lt.mpr fits)

/-- `log` with the byte `a`, in sector 0. -/
def noteFileSystem : FileSystem := storedFile logFileSystem 8 0 (literal ['a']).image 1

theorem noteFileSystem_written :
    (Op.writeFile (literal ['l', 'o', 'g']) (literal ['a']).image 1).exec logFileSystem =
      some (1, noteFileSystem) :=
  exec_writeFile _ logFileSystem_found.1 logFileSystem_found.2 (by decide +kernel) (by decide)

/-- An empty file `p` more. -/
def notesFileSystem : FileSystem := (bdfsCreateFile noteFileSystem (literal ['p'])).2

theorem notesFileSystem_found :
    findEntryInDir notesFileSystem.fileTable (literal ['p']) notesFileSystem.currentDirInode =
        some 9 ∧
      (notesFileSystem.fileTable 9).type = .file := by decide +kernel

theorem notesFileSystem_chosen {bytesToWrite : Word}
    (fits : 1 + sectorsFor bytesToWrite ≤ bdfsDataSectors) :
    chooseStartSector notesFileSystem.fileTable (notesFileSystem.fileTable 9) bytesToWrite =
      some 1 := by
  have empty : (notesFileSystem.fileTable 9).length = 0 ∧
      findFreeSector notesFileSystem.fileTable = 1 := by decide +kernel
  exact chooseStartSector_of_empty empty.1 empty.2 fits

/-- Two bytes in `p`, in sector 1. -/
def pairFileSystem : FileSystem := storedFile notesFileSystem 9 1 (literal ['b', 'c']).image 2

theorem pairFileSystem_written :
    (Op.writeFile (literal ['p']) (literal ['b', 'c']).image 2).exec notesFileSystem =
      some (2, pairFileSystem) :=
  exec_writeFile _ notesFileSystem_found.1 notesFileSystem_found.2
    (notesFileSystem_chosen (by decide)) (by decide)

/-- The calls that lead to it: two files are created and written. -/
def pairCalls : List Op := [
  .createFile (literal ['l', 'o', 'g']),
  .writeFile (literal ['l', 'o', 'g']) (literal ['a']).image 1,
  .createFile (literal ['p']),
  .writeFile (literal ['p']) (literal ['b', 'c']).image 2]

theorem pairFileSystem_run {Allowed : Op → Prop} (allowed : ∀ op ∈ pairCalls, Allowed op) :
    (system.restrict Allowed).Run freshFileSystem pairCalls pairFileSystem := by
  simp only [pairCalls, List.forall_mem_cons] at allowed
  obtain ⟨log, note, notes, pair, _⟩ := allowed
  exact .cons ⟨log, 0, rfl⟩ (.cons ⟨note, 1, noteFileSystem_written⟩
    (.cons ⟨notes, 0, rfl⟩ (.cons ⟨pair, 2, pairFileSystem_written⟩ (.nil _))))

/-- Two files with content are reached by calls that a caller may make. -/
theorem pairFileSystem_reachable {Allowed : Op → Prop} (allowed : ∀ op ∈ pairCalls, Allowed op) :
    (system.restrict Allowed).Reachable pairFileSystem :=
  (pairFileSystem_run allowed).reachable (.init freshFileSystem_init)

end BrainDance.Fs.Bdfs
