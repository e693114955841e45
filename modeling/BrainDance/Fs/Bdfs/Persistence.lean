import BrainDance.Fs.Bdfs.Steps

/-!
Owns the bytes of `bdfs_storage` that `bdfs_sync_file_table` writes: the magic
number at offset 0 and the table image at offset 4, which ends four bytes
inside the data region. Every call leaves the storage synced, and a synced
storage loads back as the table it was synced from.
-/

namespace BrainDance.Fs.Bdfs

open BrainDance.Foundation
open BrainDance.Libc

/-! ### Entry and table images -/

section Images

variable (entry : FileEntry) {offset : Nat}

theorem FileEntry.image_type (below : offset < 4) :
    entry.image (16 + offset) = wordImage entry.type.toWord offset := by
  unfold FileEntry.image
  rw [dif_neg (by simp only [bdfsMaxFilenameLength]; omega), if_pos (by omega),
    Nat.add_sub_cancel_left]

theorem FileEntry.image_parentInode (below : offset < 4) :
    entry.image (20 + offset) = wordImage entry.parentInode offset := by
  unfold FileEntry.image
  rw [dif_neg (by simp only [bdfsMaxFilenameLength]; omega), if_neg (by omega),
    if_pos (by omega), Nat.add_sub_cancel_left]

theorem FileEntry.image_startSector (below : offset < 4) :
    entry.image (24 + offset) = wordImage entry.startSector offset := by
  unfold FileEntry.image
  rw [dif_neg (by simp only [bdfsMaxFilenameLength]; omega), if_neg (by omega),
    if_neg (by omega), if_pos (by omega), Nat.add_sub_cancel_left]

theorem FileEntry.image_length (below : offset < 4) :
    entry.image (28 + offset) = wordImage entry.length offset := by
  unfold FileEntry.image
  rw [dif_neg (by simp only [bdfsMaxFilenameLength]; omega), if_neg (by omega),
    if_neg (by omega), if_neg (by omega), Nat.add_sub_cancel_left]

theorem BdfsFileType.ofWord_toWord (type : BdfsFileType) :
    BdfsFileType.ofWord type.toWord = some type := by
  cases type <;> rfl

/-- Entry `slot` of the table stands at byte `32 * slot` of its image. -/
theorem tableImage_slot (table : FileTable) (slot : Slot) (below : offset < 32) :
    tableImage table (32 * slot.val + offset) = (table slot).image offset := by
  have quotient : (32 * slot.val + offset) / 32 = slot.val := by omega
  have remainder : (32 * slot.val + offset) % 32 = offset := by omega
  unfold tableImage
  rw [dif_pos (by rw [quotient]; exact slot.isLt), remainder]
  congr 2
  exact Fin.ext quotient

/-- The image of a table loads back as the table. -/
theorem loadTable_of_image {image : Image} {start : Nat} {table : FileTable}
    (stored : ∀ offset < fileTableSize, image (start + offset) = tableImage table offset) :
    loadTable image start = some table := by
  have entryByte : ∀ (slot : Slot) (offset : Nat), offset < 32 →
      image (start + 32 * slot.val + offset) = (table slot).image offset := by
    intro slot offset below
    have inTable := slot.isLt
    simp only [bdfsMaxFiles] at inTable
    rw [Nat.add_assoc, stored _ (by simp only [fileTableSize]; omega),
      tableImage_slot table slot below]
  have typeWord : ∀ slot : Slot,
      BdfsFileType.ofWord (wordAt image (start + 32 * slot.val + 16)) = some (table slot).type := by
    intro slot
    rw [wordAt_of_image, BdfsFileType.ofWord_toWord]
    intro offset below
    rw [Nat.add_assoc, entryByte slot _ (by omega), (table slot).image_type below]
  unfold loadTable
  simp only []
  rw [dif_pos fun slot => by rw [typeWord slot]; rfl, Option.some.injEq]
  funext slot
  have nameBytes : (fun index : Fin bdfsMaxFilenameLength =>
      image (start + 32 * slot.val + index.val)) = (table slot).name := by
    funext index
    have inName := index.isLt
    simp only [bdfsMaxFilenameLength] at inName
    rw [entryByte slot _ (by omega)]
    simp [FileEntry.image]
  have parentInode : wordAt image (start + 32 * slot.val + 20) = (table slot).parentInode := by
    apply wordAt_of_image
    intro offset below
    rw [Nat.add_assoc, entryByte slot _ (by omega), (table slot).image_parentInode below]
  have startSector : wordAt image (start + 32 * slot.val + 24) = (table slot).startSector := by
    apply wordAt_of_image
    intro offset below
    rw [Nat.add_assoc, entryByte slot _ (by omega), (table slot).image_startSector below]
  have length : wordAt image (start + 32 * slot.val + 28) = (table slot).length := by
    apply wordAt_of_image
    intro offset below
    rw [Nat.add_assoc, entryByte slot _ (by omega), (table slot).image_length below]
  simp only [nameBytes, parentInode, startSector, length, typeWord, Option.get_some]

end Images

/-! ### The sync -/

/-- The storage starts with the magic number and the table. -/
structure Synced (fs : FileSystem) : Prop where
  magic : ∀ offset < 4, fs.storage offset = wordImage bdfsMagic offset
  table : ∀ offset < fileTableSize, fs.storage (4 + offset) = tableImage fs.fileTable offset

theorem bdfsSyncFileTable_synced (fs : FileSystem) : Synced (bdfsSyncFileTable fs) where
  magic offset below := by
    simp only [bdfsSyncFileTable, memcpy_eq_blit, storeWord]
    rw [blit_outside _ _ (by omega), blit_inside _ _ (by omega), Nat.sub_zero]
  table offset below := by
    simp only [bdfsSyncFileTable, memcpy_eq_blit]
    rw [blit_inside _ _ (by omega), Nat.add_sub_cancel_left]

/-- The sync writes no byte past the table image. -/
theorem bdfsSyncFileTable_storage (fs : FileSystem) {offset : Nat}
    (past : 4 + fileTableSize ≤ offset) :
    (bdfsSyncFileTable fs).storage offset = fs.storage offset := by
  simp only [bdfsSyncFileTable, memcpy_eq_blit, memset_eq_fill, storeWord]
  simp only [fileTableSize, dataStart] at past ⊢
  rw [blit_outside _ _ (by omega), blit_outside _ _ (by omega), fill_outside _ _ (by omega)]

theorem Effect.synced {fs after : FileSystem} (effect : Effect fs after) (synced : Synced fs) :
    Synced after := by
  cases effect with
  | unchanged => exact synced
  | ascend => exact ⟨synced.magic, synced.table⟩
  | descend => exact ⟨synced.magic, synced.table⟩
  | rearrange => exact bdfsSyncFileTable_synced _
  | store => exact bdfsSyncFileTable_synced _

theorem reachable_synced {fs : FileSystem} (reachable : system.Reachable fs) : Synced fs := by
  apply reachable.invariant Synced
  · intro fs initial
    obtain ⟨boot, _, rfl⟩ := (system_init_iff fs).mp initial
    have synced := bdfsSyncFileTable_synced { boot with fileTable := defaultTable }
    exact ⟨synced.magic, synced.table⟩
  · rintro before op after _ synced ⟨code, executed⟩
    exact (exec_effect executed).synced synced

/-- `bdfs_init` loads the table a synced storage holds. -/
theorem Synced.bdfsInit {fs : FileSystem} (synced : Synced fs) {other : FileSystem}
    (sameStorage : other.storage = fs.storage) :
    bdfsInit other = some { fs with currentDirInode := 0 } := by
  have magic : wordAt other.storage 0 = bdfsMagic := by
    apply wordAt_of_image
    intro offset below
    rw [sameStorage, Nat.zero_add]
    exact synced.magic offset below
  rw [Bdfs.bdfsInit, if_neg (not_not.mpr magic), sameStorage,
    loadTable_of_image synced.table, Option.map_some]

/-- In every reachable state the storage starts with the magic number, the bytes
that follow decode to the table in memory, and `bdfs_init` run on that storage
loads that table with the current directory at inode 0. -/
theorem storage_persists_table {fs : FileSystem} (reachable : system.Reachable fs) :
    wordAt fs.storage 0 = bdfsMagic ∧ loadTable fs.storage 4 = some fs.fileTable ∧
      ∀ other : FileSystem, other.storage = fs.storage →
        bdfsInit other = some { fs with currentDirInode := 0 } := by
  have synced := reachable_synced reachable
  refine ⟨wordAt_of_image fun offset below => ?_, loadTable_of_image synced.table,
    fun other same => synced.bdfsInit same⟩
  rw [Nat.zero_add]
  exact synced.magic offset below

theorem storage_persists_table_pair :
    wordAt pairFileSystem.storage 0 = bdfsMagic ∧
      loadTable pairFileSystem.storage 4 = some pairFileSystem.fileTable ∧
        ∀ other : FileSystem, other.storage = pairFileSystem.storage →
          bdfsInit other = some { pairFileSystem with currentDirInode := 0 } :=
  storage_persists_table
    (@pairFileSystem_reachable (fun _ => True) fun _ _ => trivial).of_restrict

end BrainDance.Fs.Bdfs
