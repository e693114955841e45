import BrainDance.Fs.Bdfs.Contents

/-!
Owns when the bytes handed to `bdfs_write_file` are what `bdfs_read_file` then
returns, in any state of the file system, reached by its operations or not. What
can go wrong is that the write is refused, leaves the storage, or is overwritten
by the sync.
-/

namespace BrainDance.Fs.Bdfs

open BrainDance.Foundation
open BrainDance.Libc

/-! ### The condition -/

/-- The bytes that the sync puts at the start of the storage. -/
def syncHeader (table : FileTable) : Image := fun offset =>
  if offset < 4 then wordImage bdfsMagic offset else tableImage table (offset - 4)

/-- The bytes that the sync overwrites are the ones it puts there anyway. -/
def HeaderSpares (table : FileTable) (startSector : Word) (bytes : List Byte) : Prop :=
  ∀ offset, (inside : offset < bytes.length) →
    dataPosition startSector + offset < 4 + fileTableSize →
      syncHeader table (dataPosition startSector + offset) = bytes[offset]

/-- The write goes through and the sync spares it. -/
structure Stores (fs : FileSystem) (slot : Slot) (startSector : Word) (bytes : List Byte) :
    Prop where
  chosen : chooseStartSector fs.fileTable (fs.fileTable slot) (BitVec.ofNat 32 bytes.length) =
    some startSector
  inStorage : dataPosition startSector + bytes.length ≤ storageSize
  spares : HeaderSpares (placeFile fs.fileTable slot startSector (BitVec.ofNat 32 bytes.length))
    startSector bytes

/-- The name is a regular file's, which is empty as the data is, or the write
goes through. -/
def Lands (fs : FileSystem) (filename : CString) (bytes : List Byte) : Prop :=
  ∃ slot, findEntryInDir fs.fileTable filename fs.currentDirInode = some slot ∧
    (fs.fileTable slot).type = .file ∧
      (bytes = [] ∧ (fs.fileTable slot).length = 0 ∨
        ∃ startSector, Stores fs slot startSector bytes)

/-- `bdfs_write_file` gets past its checks. -/
def Accepts (fs : FileSystem) (path : CString) (len : Word) : Prop :=
  ∃ slot startSector, findEntryInDir fs.fileTable path fs.currentDirInode = some slot ∧
    (fs.fileTable slot).type = .file ∧
      chooseStartSector fs.fileTable (fs.fileTable slot) len = some startSector

/-! ### Reading the data back -/

section Data

variable {fs : FileSystem} {slot : Slot} {startSector : Word} {buffer : Image} {filename : CString}
  {bytes : List Byte}

/-- What a store leaves at any place of the storage. -/
theorem storedFile_storage_at (fs : FileSystem) (slot : Slot) (startSector length : Word)
    (buffer : Image) (offset : Nat) :
    (storedFile fs slot startSector buffer length).storage offset =
      if offset < 4 + fileTableSize then
        syncHeader (placeFile fs.fileTable slot startSector length) offset
      else blit fs.storage (dataPosition startSector) buffer length.toNat offset := by
  have synced := storedFile_synced fs slot startSector buffer length
  split
  · rename_i inHeader
    unfold syncHeader
    split
    · rename_i inMagic
      exact synced.magic offset inMagic
    · rename_i behind
      obtain ⟨place, rfl⟩ := Nat.exists_eq_add_of_le (Nat.le_of_not_lt behind)
      rw [Nat.add_sub_cancel_left, synced.table place (by omega)]
      rfl
  · exact storedFile_storage (by omega)

theorem stored_slice_iff (fs : FileSystem) (slot : Slot) (startSector : Word)
    (shows : ShowsBytes buffer bytes) (short : bytes.length < 2 ^ 32) :
    slice (storedFile fs slot startSector buffer (BitVec.ofNat 32 bytes.length)).storage
        (dataPosition startSector) bytes.length = bytes ↔
      HeaderSpares (placeFile fs.fileTable slot startSector (BitVec.ofNat 32 bytes.length))
        startSector bytes := by
  have length : (BitVec.ofNat 32 bytes.length).toNat = bytes.length := by
    rw [BitVec.toNat_ofNat, Nat.mod_eq_of_lt short]
  have sliced : slice (storedFile fs slot startSector buffer
      (BitVec.ofNat 32 bytes.length)).storage (dataPosition startSector) bytes.length = bytes ↔
        ShowsBytes (fun offset => (storedFile fs slot startSector buffer
          (BitVec.ofNat 32 bytes.length)).storage (dataPosition startSector + offset)) bytes := by
    rw [ShowsBytes]
    simp only [slice, Nat.zero_add]
  rw [sliced, showsBytes_iff, HeaderSpares]
  refine forall_congr' fun offset => forall_congr' fun inside => ?_
  rw [storedFile_storage_at, length]
  by_cases inHeader : dataPosition startSector + offset < 4 + fileTableSize
  · rw [if_pos inHeader]
    exact ⟨fun same _ => same, fun spares => spares inHeader⟩
  · rw [if_neg inHeader, blit_inside _ _ (by omega), Nat.add_sub_cancel_left,
      showsBytes_iff.mp shows offset inside]
    exact ⟨fun _ absurdity => absurd absurdity inHeader, fun _ => rfl⟩

/-- A read that succeeds has found a regular file, and counts its length. -/
theorem bdfsReadFile_ok {length : Word} {data : List Byte}
    (back : bdfsReadFile fs filename = some (.ok (length, data))) :
    ∃ slot, findEntryInDir fs.fileTable filename fs.currentDirInode = some slot ∧
      (fs.fileTable slot).type = .file ∧ (fs.fileTable slot).length = length := by
  unfold bdfsReadFile at back
  cases found : findEntryInDir fs.fileTable filename fs.currentDirInode with
  | none => simp [found] at back
  | some slot =>
      rw [found] at back
      dsimp only at back
      split at back
      · simp at back
      · rename_i isFile
        refine ⟨slot, rfl, not_not.mp isFile, ?_⟩
        split at back
        · split at back
          · simp only [Option.some.injEq, Except.ok.injEq, Prod.mk.injEq] at back
            exact back.1
          · contradiction
        · simp only [Option.some.injEq, Except.ok.injEq, Prod.mk.injEq] at back
          exact back.1

/-- A write to what is no regular file leaves the state alone. -/
theorem bdfsWriteFile_no_file {code : Int} {after : FileSystem} {bytesToWrite : Word}
    (noFile : ∀ slot, findEntryInDir fs.fileTable filename fs.currentDirInode = some slot →
      (fs.fileTable slot).type ≠ .file)
    (written : bdfsWriteFile fs filename buffer bytesToWrite = some (code, after)) :
    after = fs := by
  unfold bdfsWriteFile at written
  cases found : findEntryInDir fs.fileTable filename fs.currentDirInode with
  | none =>
      rw [found] at written
      exact (Prod.mk.inj (Option.some.inj written)).2.symm
  | some slot =>
      rw [found] at written
      dsimp only at written
      rw [if_pos (noFile slot found)] at written
      exact (Prod.mk.inj (Option.some.inj written)).2.symm

/-- Where the count fits an `int`, a write fails exactly when it is not accepted. -/
theorem bdfsWriteFile_fails_iff {len : Word} (small : len.toNat < 2 ^ 31) {code : Int}
    {after : FileSystem} (written : bdfsWriteFile fs filename buffer len = some (code, after)) :
    code < 0 ↔ ¬ Accepts fs filename len := by
  have count : len.toInt = len.toNat := BitVec.toInt_eq_toNat_of_lt (by omega)
  unfold bdfsWriteFile at written
  cases found : findEntryInDir fs.fileTable filename fs.currentDirInode with
  | none =>
      rw [found] at written
      obtain ⟨rfl, _⟩ := Prod.mk.inj (Option.some.inj written)
      refine iff_of_true (by decide) ?_
      rintro ⟨slot, _, same, _⟩
      exact Option.some_ne_none slot (same.symm.trans found)
  | some slot =>
      rw [found] at written
      dsimp only at written
      have accepted : Accepts fs filename len ↔ (fs.fileTable slot).type = .file ∧
          ∃ startSector, chooseStartSector fs.fileTable (fs.fileTable slot) len =
            some startSector := by
        constructor
        · rintro ⟨other, startSector, same, isFile, chosen⟩
          obtain rfl := Option.some.inj (same.symm.trans found)
          exact ⟨isFile, startSector, chosen⟩
        · rintro ⟨isFile, startSector, chosen⟩
          exact ⟨slot, startSector, found, isFile, chosen⟩
      rw [accepted]
      by_cases isFile : (fs.fileTable slot).type = .file
      · rw [if_neg (not_not.mpr isFile)] at written
        cases chosen : chooseStartSector fs.fileTable (fs.fileTable slot) len with
        | none =>
            rw [chosen] at written
            obtain ⟨rfl, _⟩ := Prod.mk.inj (Option.some.inj written)
            exact iff_of_true (by decide) (by simp)
        | some startSector =>
            rw [chosen] at written
            obtain ⟨stored, _, same⟩ := Option.map_eq_some_iff.mp written
            obtain ⟨rfl, _⟩ := Prod.mk.inj same
            exact iff_of_false (by omega) (not_not.mpr ⟨isFile, startSector, rfl⟩)
      · rw [if_pos isFile] at written
        obtain ⟨rfl, _⟩ := Prod.mk.inj (Option.some.inj written)
        exact iff_of_true (by decide) fun accepts => isFile accepts.1

/-- A stored file is read from where it was put. -/
theorem bdfsReadFile_storedFile (buffer : Image)
    (found : findEntryInDir fs.fileTable filename fs.currentDirInode = some slot)
    (isFile : (fs.fileTable slot).type = .file) {length : Word}
    (inStorage : dataPosition startSector + length.toNat ≤ storageSize) :
    bdfsReadFile (storedFile fs slot startSector buffer length) filename =
      some (.ok (length, slice (storedFile fs slot startSector buffer length).storage
        (dataPosition startSector) length.toNat)) := by
  have foundAgain : findEntryInDir (storedFile fs slot startSector buffer length).fileTable filename
      (storedFile fs slot startSector buffer length).currentDirInode = some slot :=
    (findEntryInDir_placed isFile filename fs.currentDirInode).trans found
  have entry := storedFile_entry fs slot startSector buffer length
  rw [bdfsReadFile_of_inStorage foundAgain (by rw [entry]; exact isFile)
    (by rw [entry]; exact inStorage), contentsOf, entry]
  rfl

/-- The write of `bytes` returns and the file then reads back as `bytes`. -/
def ReadsBack (fs : FileSystem) (filename : CString) (buffer : Image) (bytes : List Byte) : Prop :=
  ∃ code after,
    bdfsWriteFile fs filename buffer (BitVec.ofNat 32 bytes.length) = some (code, after) ∧
      bdfsReadFile after filename = some (.ok (BitVec.ofNat 32 bytes.length, bytes))

/-- A write that goes through reads back exactly when the sync spares it. -/
theorem readsBack_iff_of_chosen
    (found : findEntryInDir fs.fileTable filename fs.currentDirInode = some slot)
    (isFile : (fs.fileTable slot).type = .file) (shows : ShowsBytes buffer bytes)
    (short : bytes.length < 2 ^ 32)
    (chosen : chooseStartSector fs.fileTable (fs.fileTable slot) (BitVec.ofNat 32 bytes.length) =
      some startSector) :
    ReadsBack fs filename buffer bytes ↔ Stores fs slot startSector bytes := by
  have length : (BitVec.ofNat 32 bytes.length).toNat = bytes.length := by
    rw [BitVec.toNat_ofNat, Nat.mod_eq_of_lt short]
  unfold ReadsBack bdfsWriteFile storeFile
  rw [found]
  dsimp only
  rw [if_neg (not_not.mpr isFile), chosen]
  dsimp only
  rw [length]
  by_cases inStorage : dataPosition startSector + bytes.length ≤ storageSize
  · rw [if_pos inStorage, Option.map_some]
    have reads := bdfsReadFile_storedFile buffer found isFile
      (show dataPosition startSector + (BitVec.ofNat 32 bytes.length).toNat ≤ storageSize by
        rw [length]; exact inStorage)
    rw [length] at reads
    have spares := stored_slice_iff fs slot startSector shows short
    constructor
    · rintro ⟨code, after, written, back⟩
      obtain ⟨_, rfl⟩ := Prod.mk.inj (Option.some.inj written)
      rw [reads, Option.some.injEq, Except.ok.injEq, Prod.mk.injEq] at back
      exact ⟨chosen, inStorage, spares.mp back.2⟩
    · intro stores
      exact ⟨_, _, rfl, by rw [reads, spares.mpr stores.spares]⟩
  · rw [if_neg inStorage, Option.map_none]
    constructor
    · rintro ⟨code, after, written, _⟩
      contradiction
    · exact fun stores => absurd stores.inStorage inStorage

/-- An empty write into an empty file stays inside the storage. -/
theorem stores_of_empty (empty : (fs.fileTable slot).length = 0)
    (chosen : chooseStartSector fs.fileTable (fs.fileTable slot) (BitVec.ofNat 32 0) =
      some startSector) : Stores fs slot startSector [] where
  chosen := chosen
  inStorage := by
    unfold chooseStartSector at chosen
    rw [if_pos empty] at chosen
    dsimp only at chosen
    split at chosen
    · contradiction
    · rename_i fits
      obtain rfl := Option.some.inj chosen
      have noSectors : findFreeSector fs.fileTable + sectorsFor (BitVec.ofNat 32 0) =
          findFreeSector fs.fileTable := BitVec.add_zero _
      have inside : (findFreeSector fs.fileTable).toNat ≤ 64 := by
        rw [noSectors, GT.gt, BitVec.lt_def] at fits
        exact Nat.le_of_not_lt fits
      rw [dataPosition_eq inside, List.length_nil]
      simp only [dataStart, storageSize]
      omega
  spares := fun offset inside => absurd inside (Nat.not_lt_zero offset)

/-- A write that the space check refuses reads back only when there is nothing
to write and nothing in the file. -/
theorem readsBack_iff_of_refused
    (found : findEntryInDir fs.fileTable filename fs.currentDirInode = some slot)
    (isFile : (fs.fileTable slot).type = .file) (short : bytes.length < 2 ^ 32)
    (refused : chooseStartSector fs.fileTable (fs.fileTable slot)
      (BitVec.ofNat 32 bytes.length) = none) :
    ReadsBack fs filename buffer bytes ↔ bytes = [] ∧ (fs.fileTable slot).length = 0 := by
  have written : bdfsWriteFile fs filename buffer (BitVec.ofNat 32 bytes.length) =
      some (-2, fs) := by
    unfold bdfsWriteFile
    rw [found]
    dsimp only
    rw [if_neg (not_not.mpr isFile), refused]
  unfold ReadsBack
  rw [written]
  simp only [Option.some.injEq, Prod.mk.injEq]
  constructor
  · rintro ⟨code, after, ⟨_, rfl⟩, back⟩
    obtain ⟨other, foundOther, _, sameLength⟩ := bdfsReadFile_ok back
    obtain rfl := Option.some.inj (found.symm.trans foundOther)
    by_cases empty : (fs.fileTable slot).length = 0
    · have zero := congrArg BitVec.toNat (empty.symm.trans sameLength)
      rw [BitVec.toNat_ofNat, Nat.mod_eq_of_lt short] at zero
      exact ⟨List.length_eq_zero_iff.mp zero.symm, empty⟩
    · unfold chooseStartSector at refused
      rw [if_neg empty, sameLength] at refused
      simp at refused
  · rintro ⟨rfl, empty⟩
    refine ⟨-2, fs, ⟨rfl, rfl⟩, ?_⟩
    unfold bdfsReadFile
    rw [found]
    dsimp only
    rw [if_neg (not_not.mpr isFile), empty]
    rfl

theorem lands_iff_of_found
    (found : findEntryInDir fs.fileTable filename fs.currentDirInode = some slot)
    (isFile : (fs.fileTable slot).type = .file) :
    Lands fs filename bytes ↔ bytes = [] ∧ (fs.fileTable slot).length = 0 ∨
      ∃ startSector, Stores fs slot startSector bytes := by
  constructor
  · rintro ⟨other, foundOther, _, lands⟩
    obtain rfl := Option.some.inj (found.symm.trans foundOther)
    exact lands
  · exact fun lands => ⟨slot, found, isFile, lands⟩

/-- The bytes handed to a write are read back exactly when the write lands. -/
theorem readsBack_iff (shows : ShowsBytes buffer bytes) (short : bytes.length < 2 ^ 32) :
    ReadsBack fs filename buffer bytes ↔ Lands fs filename bytes := by
  by_cases file : ∃ slot, findEntryInDir fs.fileTable filename fs.currentDirInode = some slot ∧
      (fs.fileTable slot).type = .file
  · obtain ⟨slot, found, isFile⟩ := file
    rw [lands_iff_of_found found isFile]
    cases chosen : chooseStartSector fs.fileTable (fs.fileTable slot)
        (BitVec.ofNat 32 bytes.length) with
    | none =>
        rw [readsBack_iff_of_refused found isFile short chosen]
        refine (or_iff_left_of_imp ?_).symm
        rintro ⟨startSector, stores⟩
        exact absurd (chosen.symm.trans stores.chosen) (by simp)
    | some startSector =>
        rw [readsBack_iff_of_chosen found isFile shows short chosen]
        constructor
        · exact fun stores => Or.inr ⟨startSector, stores⟩
        · rintro (⟨rfl, empty⟩ | ⟨other, stores⟩)
          · exact stores_of_empty empty chosen
          · obtain rfl := Option.some.inj (chosen.symm.trans stores.chosen)
            exact stores
  · constructor
    · rintro ⟨code, after, written, back⟩
      obtain rfl := bdfsWriteFile_no_file
        (fun slot found isFile => file ⟨slot, found, isFile⟩) written
      obtain ⟨slot, found, isFile, _⟩ := bdfsReadFile_ok back
      exact absurd ⟨slot, found, isFile⟩ file
    · rintro ⟨slot, found, isFile, _⟩
      exact absurd ⟨slot, found, isFile⟩ file

/-- Data that is put behind the header lands. -/
theorem lands_behind_header
    (found : findEntryInDir fs.fileTable filename fs.currentDirInode = some slot)
    (isFile : (fs.fileTable slot).type = .file)
    (chosen : chooseStartSector fs.fileTable (fs.fileTable slot) (BitVec.ofNat 32 bytes.length) =
      some startSector)
    (behind : 4 + fileTableSize ≤ dataPosition startSector)
    (inStorage : dataPosition startSector + bytes.length ≤ storageSize) :
    Lands fs filename bytes :=
  ⟨slot, found, isFile, .inr ⟨startSector, chosen, inStorage, fun _ _ inHeader => by omega⟩⟩

end Data

/-- A sector of data for the empty file `p` lands, in sector 1. -/
theorem notesFileSystem_lands {bytes : List Byte} (small : bytes.length ≤ 512) :
    Lands notesFileSystem (literal ['p']) bytes := by
  have position : dataPosition 1 = 2560 := rfl
  have length : (BitVec.ofNat 32 bytes.length).toNat = bytes.length :=
    Nat.mod_eq_of_lt (show bytes.length < 2 ^ 32 by omega)
  have fits : 1 + sectorsFor (BitVec.ofNat 32 bytes.length) ≤ bdfsDataSectors := by
    have sectors := @sectorsFor_toNat (BitVec.ofNat 32 bytes.length) (by omega)
    rw [sectorCount, length] at sectors
    rw [BitVec.le_def, BitVec.toNat_add, sectors, show (1 : Word).toNat = 1 from rfl,
      show bdfsDataSectors.toNat = 64 from rfl]
    omega
  refine lands_behind_header notesFileSystem_found.1 notesFileSystem_found.2
    (notesFileSystem_chosen fits) ?_ ?_
  · rw [position]
    decide
  · rw [position, storageSize]
    omega

end BrainDance.Fs.Bdfs
