import BrainDance.Fs.Bdfs.NameSpace
import BrainDance.Fs.Bdfs.Totality

/-!
Owns the refinement of the abstract file system by the file table. One theorem
per operation says that the code's result is the abstract operation's, read
through `nameSpaceOf`; the main result puts them together for every reachable
state.

Names are not empty, as the shell's tokeniser guarantees. A create with the
empty name would take a slot and leave it free.
-/

namespace BrainDance.Fs.Bdfs

open BrainDance.Foundation
open BrainDance.Libc

/-- The names a call is given. -/
def Op.names : Op → List CString
  | .createFile name | .mkdir name | .deleteFile name | .chdir name | .writeFile name _ _ => [name]
  | .renameFile oldName newName => [oldName, newName]

/-- A call the shell can make: no empty name, and a write no larger than the
data sectors. -/
def Op.FromShell (op : Op) : Prop := op.WithinDisk ∧ ∀ name ∈ op.names, name.bytes ≠ []

/-! ### Table changes -/

section Changes

variable {fs : FileSystem} {slot : Slot}

/-- The sync does not show in the map. -/
theorem nameSpaceOf_sync (fs : FileSystem) : nameSpaceOf (bdfsSyncFileTable fs) = nameSpaceOf fs :=
  rfl

theorem nameSpaceOf_occupied (names : NamesOk fs.fileTable) {name : CString}
    (type : BdfsFileType) (fits : name.bytes.length < bdfsMaxFilenameLength)
    (nonempty : name.bytes ≠ [])
    (absent : findEntryInDir fs.fileTable name fs.currentDirInode = none)
    (picked : findFreeEntry fs.fileTable = some slot) :
    nameSpaceOf { fs with
        fileTable := Function.update fs.fileTable slot
          (newEntry (fs.fileTable slot) name type fs.currentDirInode fits) } =
      (nameSpaceOf fs).insert ((nameSpaceOf fs).here name) (slot, ⟨type, 0, 0⟩) := by
  have free := FileEntry.keyed_eq_none_iff.mpr (free_of_findFreeEntry picked)
  have filled := (Slots.lookup_fill names.unique free
    ((findEntryInDir_eq_none_iff_lookup names).mp absent) (⟨type, 0, 0⟩ : Attributes)).2
  rw [nameSpaceOf, keyedSlots_update, keyed_newEntry, if_neg nonempty, filled]
  rfl

theorem nameSpaceOf_released (names : NamesOk fs.fileTable) {name : CString}
    (found : findEntryInDir fs.fileTable name fs.currentDirInode = some slot) :
    nameSpaceOf { fs with
        fileTable := Function.update fs.fileTable slot (fs.fileTable slot).freed } =
      (nameSpaceOf fs).erase ((nameSpaceOf fs).here name) := by
  have freed := (Slots.lookup_free names.unique (keyed_of_findEntryInDir names found)).2
  rw [nameSpaceOf, keyedSlots_update, FileEntry.keyed_freed, freed]
  rfl

theorem nameSpaceOf_renamed (names : NamesOk fs.fileTable) {oldName newName : CString}
    (fits : newName.bytes.length < bdfsMaxFilenameLength) (nonempty : newName.bytes ≠ [])
    (found : findEntryInDir fs.fileTable oldName fs.currentDirInode = some slot)
    (absent : findEntryInDir fs.fileTable newName fs.currentDirInode = none) :
    nameSpaceOf { fs with
        fileTable := Function.update fs.fileTable slot
          ((fs.fileTable slot).renamed newName fits) } =
      ((nameSpaceOf fs).erase ((nameSpaceOf fs).here oldName)).insert
        ((nameSpaceOf fs).here newName) (slot, (fs.fileTable slot).attributes) := by
  have moved := (Slots.lookup_move names.unique (keyed_of_findEntryInDir names found)
    ((findEntryInDir_eq_none_iff_lookup names).mp absent) (fs.fileTable slot).attributes).2
  rw [nameSpaceOf, keyedSlots_update, FileEntry.keyed_renamed, if_neg nonempty,
    (live_of_findEntryInDir found).2.1, moved]
  rfl

theorem nameSpaceOf_placed (names : NamesOk fs.fileTable) {name : CString}
    (found : findEntryInDir fs.fileTable name fs.currentDirInode = some slot)
    (startSector length : Word) :
    nameSpaceOf { fs with fileTable := placeFile fs.fileTable slot startSector length } =
      (nameSpaceOf fs).insert ((nameSpaceOf fs).here name)
        (slot, ⟨(fs.fileTable slot).type, startSector, length⟩) := by
  have held := keyed_of_findEntryInDir names found
  have replaced := (Slots.lookup_replace names.unique held
    (⟨(fs.fileTable slot).type, startSector, length⟩ : Attributes)).2
  have live := (live_of_findEntryInDir found).1
  have key : (fs.fileTable slot).key = (fs.currentDirInode, name) := by
    rw [keyedSlots, FileEntry.keyed_of_live live] at held
    exact (Prod.mk.inj (Option.some.inj held)).1
  rw [nameSpaceOf, placeFile, keyedSlots_update, FileEntry.keyed_placed, if_pos live, key, replaced]
  rfl

end Changes

/-! ### Operations -/

section Operations

variable {fs after : FileSystem} {code : Int}

/-- A create does to the map what the abstract create does, with the error code
or with 0 and the table it leaves. -/
theorem createEntry_refines (names : NamesOk fs.fileTable) {name : CString}
    (nonempty : name.bytes ≠ []) (type : BdfsFileType) :
    match createEntry fs.fileTable name type fs.currentDirInode with
    | .ok (_, table) =>
        (nameSpaceOf fs).Create 0 (nameSpaceOf { fs with fileTable := table }) name type
    | .error error => (nameSpaceOf fs).Create error (nameSpaceOf fs) name type := by
  unfold createEntry strlen NameSpace.Create
  by_cases tooLong : bdfsMaxFilenameLength ≤ name.bytes.length
  · rw [dif_pos tooLong]
    simp only [if_pos tooLong]
    exact ⟨rfl, rfl⟩
  · rw [dif_neg tooLong]
    simp only [if_neg tooLong]
    cases present : findEntryInDir fs.fileTable name fs.currentDirInode with
    | some slot =>
        rw [if_pos (Option.some_ne_none slot)]
        simp only [lookup_of_found names present]
        exact ⟨rfl, rfl⟩
    | none =>
        rw [if_neg (not_not.mpr rfl)]
        simp only [lookup_of_missing names present, ne_eq, not_true_eq_false, if_false]
        have room := findFreeEntry_eq_none_iff_size names
        cases picked : findFreeEntry fs.fileTable with
        | none =>
            simp only [if_pos (room.mp picked)]
            exact ⟨rfl, rfl⟩
        | some slot =>
            have notFull : ¬ bdfsMaxFiles ≤ (nameSpaceOf fs).size := by
              rw [← room, picked]
              exact Option.some_ne_none slot
            simp only [if_neg notFull, true_and]
            exact ⟨slot, unused_of_free (free_of_findFreeEntry picked),
              nameSpaceOf_occupied names type _ nonempty present picked⟩

theorem bdfsCreateFile_refines (names : NamesOk fs.fileTable) {filename : CString}
    (nonempty : filename.bytes ≠ []) :
    (nameSpaceOf fs).Create (bdfsCreateFile fs filename).1
      (nameSpaceOf (bdfsCreateFile fs filename).2) filename .file := by
  have refines := createEntry_refines names nonempty .file
  unfold bdfsCreateFile
  split
  · rename_i result
    rw [result] at refines
    exact refines
  · rename_i result
    rw [result] at refines
    exact refines

theorem bdfsMkdir_refines (names : NamesOk fs.fileTable) {dirname : CString}
    (nonempty : dirname.bytes ≠ []) :
    (nameSpaceOf fs).Create (bdfsMkdir fs dirname).1
      (nameSpaceOf (bdfsMkdir fs dirname).2) dirname .directory := by
  have refines := createEntry_refines names nonempty .directory
  unfold bdfsMkdir bdfsCreateDirEntry
  split
  · rename_i result
    rw [result] at refines
    exact refines
  · rename_i result
    rw [result] at refines
    exact refines

theorem bdfsDeleteFile_refines (names : NamesOk fs.fileTable) (filename : CString) :
    (nameSpaceOf fs).Delete (bdfsDeleteFile fs filename).1
      (nameSpaceOf (bdfsDeleteFile fs filename).2) filename := by
  unfold bdfsDeleteFile NameSpace.Delete
  cases found : findEntryInDir fs.fileTable filename fs.currentDirInode with
  | none =>
      simp only [lookup_of_missing names found]
      exact ⟨rfl, rfl⟩
  | some slot =>
      simp only [lookup_of_found names found, nameSpaceOf_sync, nameSpaceOf_released names found,
        and_self]

theorem bdfsRenameFile_refines (names : NamesOk fs.fileTable) (oldFilename : CString)
    {newFilename : CString} (nonempty : newFilename.bytes ≠ []) :
    (nameSpaceOf fs).Rename (bdfsRenameFile fs oldFilename newFilename).1
      (nameSpaceOf (bdfsRenameFile fs oldFilename newFilename).2) oldFilename newFilename := by
  unfold bdfsRenameFile NameSpace.Rename strlen
  by_cases tooLong : bdfsMaxFilenameLength ≤ newFilename.bytes.length
  · rw [dif_pos tooLong, if_pos tooLong]
    exact ⟨rfl, rfl⟩
  · rw [dif_neg tooLong, if_neg tooLong]
    cases found : findEntryInDir fs.fileTable oldFilename fs.currentDirInode with
    | none =>
        simp only [lookup_of_missing names found]
        exact ⟨rfl, rfl⟩
    | some slot =>
        simp only [lookup_of_found names found]
        cases present : findEntryInDir fs.fileTable newFilename fs.currentDirInode with
        | some other =>
            rw [if_pos (Option.some_ne_none other), lookup_of_found names present,
              if_pos (Option.some_ne_none _)]
            exact ⟨rfl, rfl⟩
        | none =>
            rw [if_neg (not_not.mpr rfl), lookup_of_missing names present,
              if_neg (not_not.mpr rfl)]
            exact ⟨rfl, nameSpaceOf_renamed names _ nonempty found present⟩

theorem bdfsChdir_dotDot_refines (names : NamesOk fs.fileTable) {path : List Slot}
    (climbs : RootPath fs.fileTable fs.currentDirInode path)
    (moved : (if fs.currentDirInode ≠ 0 then
        (entryAt fs.fileTable fs.currentDirInode).map fun current =>
          ((0 : Int), { fs with currentDirInode := current.parentInode })
      else some (0, fs)) = some (code, after)) :
    code = 0 ∧ (nameSpaceOf fs).Ascend (nameSpaceOf after) := by
  unfold NameSpace.Ascend
  by_cases atRoot : fs.currentDirInode = 0
  · rw [if_neg (not_not.mpr atRoot), Option.some.injEq, Prod.mk.injEq] at moved
    obtain ⟨rfl, rfl⟩ := moved
    exact ⟨rfl, if_pos atRoot ▸ rfl⟩
  · rw [if_pos atRoot] at moved
    rw [if_neg (show (nameSpaceOf fs).currentDir ≠ 0 from atRoot)]
    obtain ⟨current, here, result⟩ := Option.map_eq_some_iff.mp moved
    obtain ⟨rfl, rfl⟩ := Prod.mk.inj result
    refine ⟨rfl, ?_⟩
    generalize inode_eq : fs.currentDirInode = inode at climbs atRoot here
    cases climbs with
    | root => exact absurd rfl atRoot
    | @child slot rest _ live isDirectory _ =>
        rw [entryAt_inodeOf, Option.some.injEq] at here
        subst here
        exact ⟨(fs.fileTable slot).key, slot, (fs.fileTable slot).attributes,
          (entries_eq_some_iff names).mpr ⟨live, rfl, rfl⟩, inode_eq.symm, isDirectory, rfl⟩

theorem bdfsChdir_refines (names : NamesOk fs.fileTable) {path : List Slot}
    (climbs : RootPath fs.fileTable fs.currentDirInode path) {dirname : CString}
    (moved : bdfsChdir fs dirname = some (code, after)) :
    (nameSpaceOf fs).ChangeDir code (nameSpaceOf after) dirname := by
  unfold bdfsChdir at moved
  unfold NameSpace.ChangeDir
  simp only [strcmp_image_eq_zero_iff] at moved
  by_cases stays : dirname = dot
  · rw [if_pos stays, Option.some.injEq, Prod.mk.injEq] at moved
    obtain ⟨rfl, rfl⟩ := moved
    rw [if_pos stays]
    exact ⟨rfl, rfl⟩
  · rw [if_neg stays] at moved ⊢
    by_cases up : dirname = dotDot
    · rw [if_pos up] at moved ⊢
      exact bdfsChdir_dotDot_refines names climbs moved
    · rw [if_neg up] at moved ⊢
      cases found : findEntryInDir fs.fileTable dirname fs.currentDirInode with
      | none =>
          simp only [found, Option.some.injEq, Prod.mk.injEq] at moved
          obtain ⟨rfl, rfl⟩ := moved
          simp only [lookup_of_missing names found]
          exact ⟨rfl, rfl⟩
      | some slot =>
          simp only [found] at moved
          simp only [lookup_of_found names found, FileEntry.attributes]
          by_cases isDirectory : (fs.fileTable slot).type = .directory
          · rw [if_neg (not_not.mpr isDirectory), Option.some.injEq, Prod.mk.injEq] at moved
            obtain ⟨rfl, rfl⟩ := moved
            rw [if_neg (not_not.mpr isDirectory)]
            exact ⟨rfl, rfl⟩
          · rw [if_pos isDirectory, Option.some.injEq, Prod.mk.injEq] at moved
            obtain ⟨rfl, rfl⟩ := moved
            rw [if_pos isDirectory]
            exact ⟨rfl, rfl⟩

theorem bdfsWriteFile_refines (names : NamesOk fs.fileTable) (extents : ExtentsOk fs.fileTable)
    {filename : CString} {buffer : Image} {bytesToWrite : Word}
    (bounded : bytesToWrite.toNat ≤ 64 * 512)
    (written : bdfsWriteFile fs filename buffer bytesToWrite = some (code, after)) :
    (nameSpaceOf fs).Write code (nameSpaceOf after) filename bytesToWrite := by
  unfold NameSpace.Write
  cases found : findEntryInDir fs.fileTable filename fs.currentDirInode with
  | none =>
      rw [bdfsWriteFile, found, Option.some.injEq, Prod.mk.injEq] at written
      obtain ⟨rfl, rfl⟩ := written
      simp only [lookup_of_missing names found]
      exact ⟨rfl, rfl⟩
  | some slot =>
      simp only [lookup_of_found names found, FileEntry.attributes]
      by_cases isFile : (fs.fileTable slot).type = .file
      · rw [bdfsWriteFile_of_found extents found isFile buffer (by omega)] at written
        rw [if_neg (not_not.mpr isFile)]
        have isFileEntry : (fs.fileTable slot).IsFile :=
          ⟨(live_of_findEntryInDir found).1, isFile⟩
        cases chosen : chooseStartSector fs.fileTable (fs.fileTable slot) bytesToWrite with
        | none =>
            obtain ⟨full, grows⟩ :=
              (chooseStartSector_eq_none_iff extents isFileEntry (by omega)).mp chosen
            rw [chosen, Option.some.injEq, Prod.mk.injEq] at written
            obtain ⟨rfl, rfl⟩ := written
            by_cases empty : (fs.fileTable slot).length = 0
            · rw [if_pos empty, ← findFreeSector_eq_highWater names extents,
                if_pos (show bdfsDataSectors.toNat < _ from full empty)]
              exact ⟨rfl, rfl⟩
            · rw [if_neg empty, if_pos (grows empty)]
              exact ⟨rfl, rfl⟩
        | some startSector =>
            rw [chosen, Option.some.injEq, Prod.mk.injEq] at written
            obtain ⟨rfl, rfl⟩ := written
            have reported : bytesToWrite.toInt = bytesToWrite.toNat :=
              BitVec.toInt_eq_toNat_of_lt (by omega)
            have placed := nameSpaceOf_placed names found startSector bytesToWrite
            rw [isFile] at placed
            rcases (chooseStartSector_eq_some_iff extents isFileEntry (by omega)).mp chosen with
              ⟨empty, rfl, fits⟩ | ⟨content, rfl, shrinks⟩
            · rw [if_pos empty, ← findFreeSector_eq_highWater names extents,
                if_neg (show ¬ bdfsDataSectors.toNat < _ from Nat.not_lt.mpr fits),
                BitVec.ofNat_toNat, BitVec.setWidth_eq]
              exact ⟨reported, placed⟩
            · rw [if_neg content, if_neg (Nat.not_lt.mpr shrinks)]
              exact ⟨reported, placed⟩
      · rw [if_pos isFile]
        simp only [bdfsWriteFile, found, if_pos isFile, Option.some.injEq, Prod.mk.injEq] at written
        obtain ⟨rfl, rfl⟩ := written
        exact ⟨rfl, rfl⟩

/-- Every call does to the map what the abstract call does. -/
theorem exec_refines (reachable : system.Reachable fs) {op : Op} (fromShell : op.FromShell)
    (executed : op.exec fs = some (code, after)) :
    (nameSpaceOf fs).Step code (nameSpaceOf after) op := by
  have names := reachable_namesOk reachable
  obtain ⟨within, nonempty⟩ := fromShell
  cases op with
  | createFile filename =>
      rw [← (Prod.mk.inj (Option.some.inj executed)).1,
        ← (Prod.mk.inj (Option.some.inj executed)).2]
      exact bdfsCreateFile_refines names (nonempty filename (List.mem_singleton.mpr rfl))
  | mkdir dirname =>
      rw [← (Prod.mk.inj (Option.some.inj executed)).1,
        ← (Prod.mk.inj (Option.some.inj executed)).2]
      exact bdfsMkdir_refines names (nonempty dirname (List.mem_singleton.mpr rfl))
  | deleteFile filename =>
      rw [← (Prod.mk.inj (Option.some.inj executed)).1,
        ← (Prod.mk.inj (Option.some.inj executed)).2]
      exact bdfsDeleteFile_refines names filename
  | renameFile oldFilename newFilename =>
      rw [← (Prod.mk.inj (Option.some.inj executed)).1,
        ← (Prod.mk.inj (Option.some.inj executed)).2]
      exact bdfsRenameFile_refines names oldFilename
        (nonempty newFilename (List.mem_cons_of_mem _ (List.mem_singleton.mpr rfl)))
  | chdir dirname =>
      obtain ⟨path, climbs⟩ := reachable_rootPath reachable
      exact bdfsChdir_refines names climbs executed
  | writeFile filename buffer bytesToWrite =>
      exact bdfsWriteFile_refines names (reachable_extentsOk reachable) within executed

end Operations

/-- In every state that calls from the shell can reach, the live entries are a
map: their names are terminated, no two share a directory and a name, and
`nameSpaceOf` holds exactly them. The next call has a result, and it changes the
map as the abstract call does, with the same code. -/
theorem file_table_refines_name_space {fs : FileSystem}
    (reachable : (system.restrict Op.FromShell).Reachable fs) :
    (∀ slot, (fs.fileTable slot).Live → Terminated (fs.fileTable slot).name) ∧
      (∀ left right, (fs.fileTable left).Live → (fs.fileTable right).Live →
        (fs.fileTable left).key = (fs.fileTable right).key → left = right) ∧
      (∀ key slot attributes, (nameSpaceOf fs).entries key = some (slot, attributes) ↔
        (fs.fileTable slot).Live ∧ key = (fs.fileTable slot).key ∧
          attributes = (fs.fileTable slot).attributes) ∧
      ∀ op : Op, op.FromShell → ∃ code after, op.exec fs = some (code, after) ∧
        (nameSpaceOf fs).Step code (nameSpaceOf after) op := by
  have names := reachable_namesOk reachable.of_restrict
  refine ⟨fun slot _ => names.terminated slot, fun left right leftLive rightLive same => ?_,
    fun key slot attributes => entries_eq_some_iff names, fun op fromShell => ?_⟩
  · have leftHeld : keyedSlots fs.fileTable left = _ := FileEntry.keyed_of_live leftLive
    have rightHeld : keyedSlots fs.fileTable right = _ := FileEntry.keyed_of_live rightLive
    rw [same] at leftHeld
    exact names.unique leftHeld rightHeld
  · obtain ⟨code, after, executed⟩ :=
      exec_total reachable.of_restrict (Op.NoWrap.of_withinDisk fromShell.1)
    exact ⟨code, after, executed, exec_refines reachable.of_restrict fromShell executed⟩

theorem file_table_refines_name_space_withLog :
    (∀ slot, (logFileSystem.fileTable slot).Live →
        Terminated (logFileSystem.fileTable slot).name) ∧
      (∀ left right, (logFileSystem.fileTable left).Live → (logFileSystem.fileTable right).Live →
        (logFileSystem.fileTable left).key = (logFileSystem.fileTable right).key →
          left = right) ∧
      (∀ key slot attributes,
        (nameSpaceOf logFileSystem).entries key = some (slot, attributes) ↔
          (logFileSystem.fileTable slot).Live ∧ key = (logFileSystem.fileTable slot).key ∧
            attributes = (logFileSystem.fileTable slot).attributes) ∧
      ∀ op : Op, op.FromShell → ∃ code after, op.exec logFileSystem = some (code, after) ∧
        (nameSpaceOf logFileSystem).Step code (nameSpaceOf after) op :=
  file_table_refines_name_space
    (logFileSystem_reachable ⟨trivial, fun name member => by
      rw [List.mem_singleton.mp member]
      decide⟩)

end BrainDance.Fs.Bdfs
