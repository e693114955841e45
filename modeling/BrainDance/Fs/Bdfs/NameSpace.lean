import Mathlib.Order.Lattice.Nat
import BrainDance.Fs.Bdfs.Extents
import BrainDance.Fs.Bdfs.Names

/-!
Owns the abstract file system: a map from keys to inodes and attributes, with a
current directory. `NameSpace.Step` says what each call is for, in terms of the
map: which code it returns and which map it leaves. The map has no slot order,
no stale entries and no 32-bit arithmetic; a new key may take any unused inode.

It does not own the file table. `nameSpaceOf` reads one as a map, and the
counting lemmas below give the table's searches for room their meaning there.
-/

namespace BrainDance.Fs.Bdfs

open BrainDance.Foundation
open BrainDance.Libc

structure NameSpace where
  entries : Key → Option (Slot × Attributes)
  currentDir : Word

namespace NameSpace

/-! ### The map -/

/-- The number of keys. -/
noncomputable def size (space : NameSpace) : Nat := Set.ncard {key | space.entries key ≠ none}

/-- No key has the inode. -/
def Unused (space : NameSpace) (slot : Slot) : Prop :=
  ∀ key attributes, space.entries key ≠ some (slot, attributes)

def insert (space : NameSpace) (key : Key) (value : Slot × Attributes) : NameSpace :=
  { space with entries := Function.update space.entries key (some value) }

def erase (space : NameSpace) (key : Key) : NameSpace :=
  { space with entries := Function.update space.entries key none }

/-- The key of a name in the current directory. -/
def here (space : NameSpace) (name : CString) : Key := (space.currentDir, name)

/-- The first sector after every file. -/
noncomputable def highWater (space : NameSpace) : Nat :=
  sSup {sector | ∃ key slot attributes, space.entries key = some (slot, attributes) ∧
    attributes.type = .file ∧
    sector = attributes.startSector.toNat + sectorCount attributes.length}

/-! ### Operations -/

section Operations

variable (before : NameSpace) (code : Int) (after : NameSpace)

/-- The call fails with `error` and changes nothing. -/
def Fails (error : Int) : Prop := code = error ∧ after = before

def Create (name : CString) (type : BdfsFileType) : Prop :=
  if bdfsMaxFilenameLength ≤ name.bytes.length then before.Fails code after (-1)
  else if before.entries (before.here name) ≠ none then before.Fails code after (-2)
  else if bdfsMaxFiles ≤ before.size then before.Fails code after (-3)
  else
    code = 0 ∧ ∃ slot, before.Unused slot ∧
      after = before.insert (before.here name) (slot, ⟨type, 0, 0⟩)

def Delete (name : CString) : Prop :=
  match before.entries (before.here name) with
  | none => before.Fails code after (-1)
  | some _ => code = 0 ∧ after = before.erase (before.here name)

def Rename (oldName newName : CString) : Prop :=
  if bdfsMaxFilenameLength ≤ newName.bytes.length then before.Fails code after (-1)
  else
    match before.entries (before.here oldName) with
    | none => before.Fails code after (-2)
    | some value =>
        if before.entries (before.here newName) ≠ none then before.Fails code after (-3)
        else
          code = 0 ∧
            after = (before.erase (before.here oldName)).insert (before.here newName) value

/-- Up one level: to the directory that holds the current one, at the root
nowhere. -/
def Ascend : Prop :=
  if before.currentDir = 0 then after = before
  else
    ∃ key slot attributes, before.entries key = some (slot, attributes) ∧
      inodeOf slot = before.currentDir ∧ attributes.type = .directory ∧
      after = { before with currentDir := key.1 }

def ChangeDir (name : CString) : Prop :=
  if name = dot then code = 0 ∧ after = before
  else if name = dotDot then code = 0 ∧ before.Ascend after
  else
    match before.entries (before.here name) with
    | none => before.Fails code after (-1)
    | some (slot, attributes) =>
        if attributes.type ≠ .directory then before.Fails code after (-2)
        else code = 0 ∧ after = { before with currentDir := inodeOf slot }

/-- An empty file is placed after every file; a file with content keeps its
place and may not grow past its sectors. -/
def Write (name : CString) (length : Word) : Prop :=
  match before.entries (before.here name) with
  | none => before.Fails code after (-1)
  | some (slot, attributes) =>
      if attributes.type ≠ .file then before.Fails code after (-3)
      else if attributes.length = 0 then
        if bdfsDataSectors.toNat < before.highWater + sectorCount length then
          before.Fails code after (-2)
        else
          code = length.toNat ∧ after = before.insert (before.here name)
            (slot, ⟨.file, BitVec.ofNat 32 before.highWater, length⟩)
      else if sectorCount attributes.length < sectorCount length then
        before.Fails code after (-2)
      else
        code = length.toNat ∧ after = before.insert (before.here name)
          (slot, ⟨.file, attributes.startSector, length⟩)

/-- What a call does to the map. -/
def Step : Op → Prop
  | .createFile name => before.Create code after name .file
  | .mkdir name => before.Create code after name .directory
  | .deleteFile name => before.Delete code after name
  | .renameFile oldName newName => before.Rename code after oldName newName
  | .chdir name => before.ChangeDir code after name
  | .writeFile name _ bytesToWrite => before.Write code after name bytesToWrite

end Operations

end NameSpace

/-! ### Reading a file system as a map -/

/-- The abstract file system a state stands for. -/
def nameSpaceOf (fs : FileSystem) : NameSpace where
  entries := (keyedSlots fs.fileTable).lookup
  currentDir := fs.currentDirInode

section Reading

variable {fs : FileSystem} {slot : Slot} {name : CString}

theorem lookup_of_found (names : NamesOk fs.fileTable)
    (found : findEntryInDir fs.fileTable name fs.currentDirInode = some slot) :
    (nameSpaceOf fs).entries ((nameSpaceOf fs).here name) =
      some (slot, (fs.fileTable slot).attributes) :=
  (Slots.lookup_eq_some_iff names.unique).mpr (keyed_of_findEntryInDir names found)

theorem lookup_of_missing (names : NamesOk fs.fileTable)
    (missing : findEntryInDir fs.fileTable name fs.currentDirInode = none) :
    (nameSpaceOf fs).entries ((nameSpaceOf fs).here name) = none :=
  (findEntryInDir_eq_none_iff_lookup names).mp missing

/-- The map holds exactly the live entries. -/
theorem entries_eq_some_iff (names : NamesOk fs.fileTable) {key : Key} {attributes : Attributes} :
    (nameSpaceOf fs).entries key = some (slot, attributes) ↔
      (fs.fileTable slot).Live ∧ key = (fs.fileTable slot).key ∧
        attributes = (fs.fileTable slot).attributes := by
  rw [nameSpaceOf, Slots.lookup_eq_some_iff names.unique, keyedSlots, FileEntry.keyed]
  by_cases live : (fs.fileTable slot).Live
  · rw [if_pos live]
    simp only [Option.some.injEq, Prod.mk.injEq, live, true_and]
    exact and_congr eq_comm eq_comm
  · rw [if_neg live]
    simp [live]

theorem unused_of_free (free : ¬ (fs.fileTable slot).Live) : (nameSpaceOf fs).Unused slot := by
  intro key attributes held
  have kept := Slots.eq_some_of_lookup held
  rw [keyedSlots, FileEntry.keyed_eq_none_iff.mpr free] at kept
  contradiction

/-- The table has no free entry exactly when the map is at capacity. -/
theorem findFreeEntry_eq_none_iff_size (names : NamesOk fs.fileTable) :
    findFreeEntry fs.fileTable = none ↔ bdfsMaxFiles ≤ (nameSpaceOf fs).size := by
  have counted : (nameSpaceOf fs).size =
      (Finset.univ.filter fun slot => keyedSlots fs.fileTable slot ≠ none).card :=
    Slots.ncard_keys names.unique
  have live : ∀ slot, keyedSlots fs.fileTable slot ≠ none ↔ (fs.fileTable slot).Live :=
    fun slot => not_iff_comm.mp FileEntry.keyed_eq_none_iff.symm
  have slots : (Finset.univ : Finset Slot).card = bdfsMaxFiles := Finset.card_fin _
  rw [findFreeEntry_eq_none_iff, counted]
  simp only [live]
  constructor
  · intro allLive
    rw [Finset.filter_true_of_mem fun slot _ => allLive slot, slots]
  · intro full slot
    have everySlot := Finset.eq_of_subset_of_card_le
      (Finset.filter_subset (fun slot => (fs.fileTable slot).Live) Finset.univ)
      (by rw [slots]; exact full)
    have member : slot ∈ Finset.univ.filter fun slot => (fs.fileTable slot).Live := by
      rw [everySlot]
      exact Finset.mem_univ slot
    exact (Finset.mem_filter.mp member).2

/-- `find_free_sector` computes the high-water mark of the map. -/
theorem findFreeSector_eq_highWater (names : NamesOk fs.fileTable)
    (extents : ExtentsOk fs.fileTable) :
    (findFreeSector fs.fileTable).toNat = (nameSpaceOf fs).highWater := by
  have reached : ∀ sector, (∃ key slot attributes,
      (nameSpaceOf fs).entries key = some (slot, attributes) ∧ attributes.type = .file ∧
        sector = attributes.startSector.toNat + sectorCount attributes.length) ↔
      ∃ slot, (fs.fileTable slot).IsFile ∧ sector = (fs.fileTable slot).endSector := by
    intro sector
    constructor
    · rintro ⟨key, slot, attributes, held, isFile, rfl⟩
      obtain ⟨live, _, rfl⟩ := (entries_eq_some_iff names).mp held
      exact ⟨slot, ⟨live, isFile⟩, rfl⟩
    · rintro ⟨slot, isFile, rfl⟩
      exact ⟨_, slot, _, (entries_eq_some_iff names).mpr ⟨isFile.1, rfl, rfl⟩, isFile.2, rfl⟩
  unfold NameSpace.highWater
  simp only [reached]
  apply le_antisymm
  · rw [findFreeSector_le_iff extents]
    intro slot isFile
    refine le_csSup ⟨64, ?_⟩ ⟨slot, isFile, rfl⟩
    rintro sector ⟨other, otherIsFile, rfl⟩
    exact extents.inside other otherIsFile
  · apply csSup_le'
    rintro sector ⟨slot, isFile, rfl⟩
    exact endSector_le_findFreeSector extents isFile

end Reading

end BrainDance.Fs.Bdfs
