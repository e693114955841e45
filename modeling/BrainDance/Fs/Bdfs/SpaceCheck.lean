import BrainDance.Fs.Bdfs.Contents

/-!
Owns the space check of `bdfs_write_file` over all 32-bit byte counts. The
check is exact on counts whose rounding to sectors does not wrap. The 511 counts
above them round to no sector at all, pass the check and copy nearly 4 GiB.
-/

namespace BrainDance.Fs.Bdfs

open BrainDance.Foundation
open BrainDance.Libc

/-- The sectors a write to the entry may fill: those behind every file for an
empty file, the entry's own otherwise. -/
def availableSectors (table : FileTable) (entry : FileEntry) : Nat :=
  if entry.length = 0 then 64 - (findFreeSector table).toNat else sectorCount entry.length

/-- A byte of the storage in the sectors that a write to the entry may fill. -/
def InOwnSectors (table : FileTable) (entry : FileEntry) (place : Nat) : Prop :=
  dataStart + 512 * (writeStart table entry).toNat ≤ place ∧
    place < dataStart + 512 * ((writeStart table entry).toNat + availableSectors table entry)

/-- The write is done inside the file's own sectors. -/
structure WritesInside (before : FileSystem) (slot : Slot) (bytesToWrite : Word)
    (after : FileSystem) : Prop where
  length : (after.fileTable slot).length = bytesToWrite
  copied : ∀ offset < bytesToWrite.toNat, InOwnSectors before.fileTable (before.fileTable slot)
    (dataPosition (after.fileTable slot).startSector + offset)
  others : ∀ place, 4 + fileTableSize ≤ place →
    ¬ InOwnSectors before.fileTable (before.fileTable slot) place →
      after.storage place = before.storage place

/-- The check refuses more bytes than the available sectors hold, changing
nothing, and lets any other write be done inside them. -/
def SpaceCheckRight (fs : FileSystem) (filename : CString) (slot : Slot) (buffer : Image)
    (bytesToWrite : Word) : Prop :=
  (512 * availableSectors fs.fileTable (fs.fileTable slot) < bytesToWrite.toNat →
      ∃ code < 0, bdfsWriteFile fs filename buffer bytesToWrite = some (code, fs)) ∧
    (bytesToWrite.toNat ≤ 512 * availableSectors fs.fileTable (fs.fileTable slot) →
      ∃ code after, bdfsWriteFile fs filename buffer bytesToWrite = some (code, after) ∧
        WritesInside fs slot bytesToWrite after)

section Check

variable {fs : FileSystem} {filename : CString} {slot : Slot} {bytesToWrite : Word}

theorem lt_sectorCount_iff {length : Word} {available : Nat} :
    available < sectorCount length ↔ 512 * available < length.toNat := by
  unfold sectorCount
  omega

theorem availableSectors_inside (extents : ExtentsOk fs.fileTable)
    (isFile : (fs.fileTable slot).IsFile) :
    (writeStart fs.fileTable (fs.fileTable slot)).toNat +
      availableSectors fs.fileTable (fs.fileTable slot) ≤ 64 := by
  unfold writeStart availableSectors
  split
  · have free := findFreeSector_le extents
    omega
  · exact extents.inside slot isFile

/-- Without a wrap the code's check compares with the available sectors. -/
theorem chooseStartSector_eq (extents : ExtentsOk fs.fileTable)
    (isFile : (fs.fileTable slot).IsFile) (noWrap : bytesToWrite.toNat + 511 < 2 ^ 32) :
    chooseStartSector fs.fileTable (fs.fileTable slot) bytesToWrite =
      if availableSectors fs.fileTable (fs.fileTable slot) < sectorCount bytesToWrite then none
      else some (writeStart fs.fileTable (fs.fileTable slot)) := by
  have free := findFreeSector_le extents
  unfold availableSectors writeStart
  by_cases empty : (fs.fileTable slot).length = 0
  · rw [if_pos empty, if_pos empty]
    split
    · rw [chooseStartSector_eq_none_iff extents isFile noWrap]
      exact ⟨fun _ => by omega, fun content => absurd empty content⟩
    · rw [chooseStartSector_eq_some_iff extents isFile noWrap]
      exact .inl ⟨empty, rfl, by omega⟩
  · rw [if_neg empty, if_neg empty]
    split
    · rename_i grows
      rw [chooseStartSector_eq_none_iff extents isFile noWrap]
      exact ⟨fun none => absurd none empty, fun _ => grows⟩
    · rw [chooseStartSector_eq_some_iff extents isFile noWrap]
      exact .inr ⟨empty, rfl, by omega⟩

theorem storedFile_writesInside (extents : ExtentsOk fs.fileTable)
    (isFile : (fs.fileTable slot).IsFile) (buffer : Image)
    (fits : bytesToWrite.toNat ≤ 512 * availableSectors fs.fileTable (fs.fileTable slot)) :
    WritesInside fs slot bytesToWrite
      (storedFile fs slot (writeStart fs.fileTable (fs.fileTable slot)) buffer bytesToWrite) := by
  have inside := availableSectors_inside extents isFile
  have position := dataPosition_eq
    (show (writeStart fs.fileTable (fs.fileTable slot)).toNat ≤ 64 by omega)
  have entry := storedFile_entry fs slot (writeStart fs.fileTable (fs.fileTable slot)) buffer
    bytesToWrite
  refine ⟨by rw [entry]; rfl, fun offset below => ?_, fun place past other => ?_⟩
  · rw [entry]
    show InOwnSectors fs.fileTable (fs.fileTable slot)
      (dataPosition (writeStart fs.fileTable (fs.fileTable slot)) + offset)
    rw [position, InOwnSectors]
    omega
  · rw [storedFile_storage past, position]
    rw [InOwnSectors] at other
    exact blit_outside _ _ (by omega)

/-- Near 2^32 the rounded count is 0: the check passes and the copy leaves the
storage. -/
theorem bdfsWriteFile_of_wrap
    (found : findEntryInDir fs.fileTable filename fs.currentDirInode = some slot)
    (isFile : (fs.fileTable slot).type = .file) (extents : ExtentsOk fs.fileTable)
    (buffer : Image) (wraps : 2 ^ 32 ≤ bytesToWrite.toNat + 511) :
    bdfsWriteFile fs filename buffer bytesToWrite = none := by
  have bounded := bytesToWrite.isLt
  have needed : sectorsFor bytesToWrite = 0 := by
    apply BitVec.eq_of_toNat_eq
    unfold sectorsFor
    rw [BitVec.toNat_udiv, BitVec.toNat_add, show (511 : Word).toNat = 511 from rfl,
      show (512 : Word).toNat = 512 from rfl, show (0 : Word).toNat = 0 from rfl]
    omega
  have chosen : ∃ startSector,
      chooseStartSector fs.fileTable (fs.fileTable slot) bytesToWrite = some startSector := by
    have free := findFreeSector_le extents
    unfold chooseStartSector
    rw [needed]
    dsimp only
    split
    · rw [if_neg]
      · exact ⟨_, rfl⟩
      · rw [gt_iff_lt, BitVec.lt_def, BitVec.toNat_add, show bdfsDataSectors.toNat = 64 from rfl,
          show (0 : Word).toNat = 0 from rfl]
        omega
    · rw [if_neg]
      · exact ⟨_, rfl⟩
      · rw [gt_iff_lt, BitVec.lt_def, show (0 : Word).toNat = 0 from rfl]
        omega
  obtain ⟨startSector, chosen⟩ := chosen
  unfold bdfsWriteFile
  rw [found]
  dsimp only
  rw [if_neg (not_not.mpr isFile), chosen]
  dsimp only
  rw [storeFile, if_neg, Option.map_none]
  simp only [storageSize]
  omega

theorem not_spaceCheckRight_of_wrap (reachable : system.Reachable fs)
    (found : findEntryInDir fs.fileTable filename fs.currentDirInode = some slot)
    (isFile : (fs.fileTable slot).type = .file) (buffer : Image)
    (wraps : 2 ^ 32 ≤ bytesToWrite.toNat + 511) :
    ¬ SpaceCheckRight fs filename slot buffer bytesToWrite := by
  rintro ⟨refuses, _⟩
  have extents := reachable_extentsOk reachable
  have inside := availableSectors_inside extents ⟨(live_of_findEntryInDir found).1, isFile⟩
  obtain ⟨code, _, written⟩ := refuses (by omega)
  rw [bdfsWriteFile_of_wrap found isFile extents buffer wraps] at written
  contradiction

/-- The space check is right exactly for the byte counts whose rounding to
sectors does not wrap. -/
theorem spaceCheck_iff (reachable : system.Reachable fs)
    (found : findEntryInDir fs.fileTable filename fs.currentDirInode = some slot)
    (isFile : (fs.fileTable slot).type = .file) (buffer : Image) (bytesToWrite : Word) :
    SpaceCheckRight fs filename slot buffer bytesToWrite ↔ bytesToWrite.toNat + 511 < 2 ^ 32 := by
  have extents := reachable_extentsOk reachable
  have isFileEntry : (fs.fileTable slot).IsFile := ⟨(live_of_findEntryInDir found).1, isFile⟩
  constructor
  · intro right
    by_contra wraps
    exact not_spaceCheckRight_of_wrap reachable found isFile buffer (Nat.le_of_not_lt wraps) right
  · intro noWrap
    rw [SpaceCheckRight, bdfsWriteFile_of_found extents found isFile buffer noWrap,
      chooseStartSector_eq extents isFileEntry noWrap]
    constructor
    · intro tooMany
      rw [if_pos (lt_sectorCount_iff.mpr tooMany)]
      exact ⟨-2, by decide, rfl⟩
    · intro fits
      rw [if_neg fun tooMany => Nat.not_lt.mpr fits (lt_sectorCount_iff.mp tooMany)]
      exact ⟨_, _, rfl, storedFile_writesInside extents isFileEntry buffer fits⟩

end Check

/-! ### A count near 2^32 -/

theorem spaceCheck_iff_log :
    SpaceCheckRight logFileSystem (literal ['l', 'o', 'g']) 8 (fun _ => 0) 1 :=
  (spaceCheck_iff (@logFileSystem_reachable (fun _ => True) trivial).of_restrict
    logFileSystem_found.1 logFileSystem_found.2 _ _).mpr (by decide)

/-- A program's write of 2^32 - 1 bytes to an empty file passes the check. -/
theorem spaceCheck_fails :
    ¬ ∀ fs : FileSystem, system.Reachable fs → ∀ (filename : CString) (slot : Slot),
      findEntryInDir fs.fileTable filename fs.currentDirInode = some slot →
      (fs.fileTable slot).type = .file → ∀ (buffer : Image) (bytesToWrite : Word),
      SpaceCheckRight fs filename slot buffer bytesToWrite := by
  intro always
  have reachable := (@logFileSystem_reachable (fun _ => True) trivial).of_restrict
  have right := always logFileSystem reachable _ 8 logFileSystem_found.1 logFileSystem_found.2
    (fun _ => 0) 0xFFFFFFFF
  exact not_spaceCheckRight_of_wrap reachable logFileSystem_found.1 logFileSystem_found.2
    (fun _ => 0) (by decide) right

end BrainDance.Fs.Bdfs
