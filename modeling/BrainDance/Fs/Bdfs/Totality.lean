import BrainDance.Fs.Bdfs.Extents
import BrainDance.Fs.Bdfs.Navigation

/-!
Owns the absence of out-of-bounds accesses. In a reachable state no call leaves
`file_table` or `bdfs_storage`, as long as the byte count of a write does not
wrap when it is rounded to sectors. With the extent invariant this gives the
statement about data sectors that callers rely on: files never overlap, along
any sequence of such calls.
-/

namespace BrainDance.Fs.Bdfs

open BrainDance.Foundation
open BrainDance.Libc

section Totality

variable {fs : FileSystem}

/-- `bdfs_chdir` indexes the table only at the inode of a live directory. -/
theorem bdfsChdir_total {path : List Slot}
    (climbs : RootPath fs.fileTable fs.currentDirInode path) (dirname : CString) :
    ∃ code after, bdfsChdir fs dirname = some (code, after) := by
  unfold bdfsChdir
  split
  · exact ⟨_, _, rfl⟩
  · split
    · split
      · rename_i notRoot
        generalize fs.currentDirInode = inode at climbs notRoot
        cases climbs with
        | root => exact absurd rfl notRoot
        | child => exact ⟨_, _, by rw [entryAt_inodeOf]; rfl⟩
      · exact ⟨_, _, rfl⟩
    · split
      · exact ⟨_, _, rfl⟩
      · split
        · exact ⟨_, _, rfl⟩
        · exact ⟨_, _, rfl⟩

/-- A write to a file ends with the bytes stored, or with the space check. -/
theorem bdfsWriteFile_of_found (extents : ExtentsOk fs.fileTable) {filename : CString}
    {slot : Slot} (found : findEntryInDir fs.fileTable filename fs.currentDirInode = some slot)
    (isFile : (fs.fileTable slot).type = .file) (buffer : Image) {bytesToWrite : Word}
    (noWrap : bytesToWrite.toNat + 511 < 2 ^ 32) :
    bdfsWriteFile fs filename buffer bytesToWrite =
      match chooseStartSector fs.fileTable (fs.fileTable slot) bytesToWrite with
      | none => some (-2, fs)
      | some startSector =>
          some (bytesToWrite.toInt, storedFile fs slot startSector buffer bytesToWrite) := by
  have isFileEntry : (fs.fileTable slot).IsFile := ⟨(live_of_findEntryInDir found).1, isFile⟩
  unfold bdfsWriteFile
  simp only [found]
  rw [if_neg (not_not.mpr isFile)]
  cases chosen : chooseStartSector fs.fileTable (fs.fileTable slot) bytesToWrite with
  | none => rfl
  | some startSector =>
      have inStorage := inStorage_of_chooseStartSector extents isFileEntry noWrap chosen
      simp only []
      rw [storeFile, if_pos inStorage]
      rfl

theorem bdfsWriteFile_total (extents : ExtentsOk fs.fileTable) (filename : CString)
    (buffer : Image) {bytesToWrite : Word} (noWrap : bytesToWrite.toNat + 511 < 2 ^ 32) :
    ∃ code after, bdfsWriteFile fs filename buffer bytesToWrite = some (code, after) := by
  cases found : findEntryInDir fs.fileTable filename fs.currentDirInode with
  | none => exact ⟨-1, fs, by simp [bdfsWriteFile, found]⟩
  | some slot =>
      by_cases isFile : (fs.fileTable slot).type = .file
      · rw [bdfsWriteFile_of_found extents found isFile buffer noWrap]
        split <;> exact ⟨_, _, rfl⟩
      · exact ⟨-3, fs, by simp [bdfsWriteFile, found, isFile]⟩

/-- In a reachable state every call has a result. -/
theorem exec_total (reachable : system.Reachable fs) {op : Op} (noWrap : op.NoWrap) :
    ∃ code after, op.exec fs = some (code, after) := by
  cases op with
  | createFile filename => exact ⟨_, _, rfl⟩
  | mkdir dirname => exact ⟨_, _, rfl⟩
  | deleteFile filename => exact ⟨_, _, rfl⟩
  | renameFile oldFilename newFilename => exact ⟨_, _, rfl⟩
  | chdir dirname =>
      obtain ⟨path, climbs⟩ := reachable_rootPath reachable
      exact bdfsChdir_total climbs dirname
  | writeFile filename buffer bytesToWrite =>
      exact bdfsWriteFile_total (reachable_extentsOk reachable) filename buffer noWrap

end Totality

/-- After any sequence of calls every file with content lies inside the 64 data
sectors, no two such files share a sector, and the next call has a result. -/
theorem files_occupy_disjoint_sectors {fs : FileSystem}
    (reachable : (system.restrict Op.NoWrap).Reachable fs) :
    (∀ slot, (fs.fileTable slot).IsFile → (fs.fileTable slot).length ≠ 0 →
        (fs.fileTable slot).sectors ⊆ Finset.range 64) ∧
      (∀ left right, left ≠ right → (fs.fileTable left).IsFile → (fs.fileTable right).IsFile →
        (fs.fileTable left).length ≠ 0 → (fs.fileTable right).length ≠ 0 →
          Disjoint (fs.fileTable left).sectors (fs.fileTable right).sectors) ∧
      ∀ op : Op, op.NoWrap → ∃ code after, op.exec fs = some (code, after) := by
  have extents := reachable_extentsOk reachable.of_restrict
  refine ⟨fun slot isFile _ => ?_, fun left right different leftFile rightFile leftContent
    rightContent => ?_, fun op noWrap => exec_total reachable.of_restrict noWrap⟩
  · have inside := extents.inside slot isFile
    intro sector member
    simp only [FileEntry.sectors, Finset.mem_Ico] at member
    rw [Finset.mem_range]
    omega
  · exact (extents.apart left right different leftFile rightFile leftContent
      rightContent).disjoint

/-- Of a byte in `log` and two in `p`. -/
theorem files_occupy_disjoint_sectors_pair :
    (pairFileSystem.fileTable 8).sectors ⊆ Finset.range 64 ∧
      (pairFileSystem.fileTable 9).sectors ⊆ Finset.range 64 ∧
      Disjoint (pairFileSystem.fileTable 8).sectors (pairFileSystem.fileTable 9).sectors ∧
      ∀ op : Op, op.NoWrap → ∃ code after, op.exec pairFileSystem = some (code, after) := by
  have files : (pairFileSystem.fileTable 8).IsFile ∧ (pairFileSystem.fileTable 9).IsFile ∧
      (pairFileSystem.fileTable 8).length ≠ 0 ∧ (pairFileSystem.fileTable 9).length ≠ 0 := by
    decide +kernel
  obtain ⟨log, notes, logContent, notesContent⟩ := files
  obtain ⟨inside, apart, total⟩ :=
    files_occupy_disjoint_sectors (pairFileSystem_reachable (by simp [pairCalls, Op.BytesOk]))
  exact ⟨inside 8 log logContent, inside 9 notes notesContent,
    apart 8 9 (by decide) log notes logContent notesContent, total⟩

end BrainDance.Fs.Bdfs
