import BrainDance.Memory.Paging.Model

/-!
Owns the invariant of the page tables and what each access of `map_page` and
`get_phys_addr` reaches under it. The directory is reached at its own physical
address through the first table, and every table through the last directory
entry, which points back to the directory. The invariant keeps these two
entries in place and the tables in distinct frames off the directory.
-/

namespace BrainDance.Memory

open BrainDance.Foundation
open BrainDance.Libc
open BrainDance.Arch

/-! ### Addresses -/

section Addresses

variable {pd : Word}

theorem pdIdx_toNat (virtAddr : Word) : (pdIdx virtAddr).toNat = virtAddr.toNat / 2 ^ 22 :=
  directoryIndex_eq virtAddr

theorem ptIdx_toNat (virtAddr : Word) : (ptIdx virtAddr).toNat = virtAddr.toNat / 2 ^ 12 % 2 ^ 10 :=
  tableIndex_eq virtAddr

theorem pdIdx_lt (virtAddr : Word) : (pdIdx virtAddr).toNat < 1024 := by
  have := virtAddr.isLt
  rw [pdIdx_toNat]
  omega

theorem ptIdx_lt (virtAddr : Word) : (ptIdx virtAddr).toNat < 1024 := by
  rw [ptIdx_toNat]
  omega

theorem firstTableFrame_ne : firstTableFrame ≠ directoryFrame := by decide

theorem frameOf_toNat (address : Word) : (frameOf address).toNat = address.toNat / 4096 := by
  have := address.isLt
  rw [frameOf, BitVec.toNat_setWidth, BitVec.toNat_ushiftRight, Nat.shiftRight_eq_div_pow]
  omega

theorem directoryEntry_toNat (below : pd.toNat < 1024) :
    (directoryEntry pd).toNat = 0x90000 + 4 * pd.toNat := by
  rw [directoryEntry, BitVec.toNat_add, BitVec.toNat_mul, show pageDirectory.toNat = 0x90000 from rfl,
    show (4 : Word).toNat = 4 from rfl]
  omega

theorem tableWindow_toNat (below : pd.toNat < 1024) :
    (tableWindow pd).toNat = 0xFFC00000 + 4096 * pd.toNat := by
  have shifted : (pd <<< 12).toNat = 4096 * pd.toNat := by
    rw [BitVec.toNat_shiftLeft, Nat.shiftLeft_eq]
    omega
  rw [tableWindow, BitVec.toNat_or, shifted, show (0xFFC00000 : Word).toNat = 1023 <<< 22 from rfl,
    ← Nat.shiftLeft_add_eq_or_of_lt (by omega)]
  rfl

theorem tableWindow_add_toNat (below : pd.toNat < 1024) {offset : Nat} (inPage : offset < 4096) :
    (tableWindow pd + BitVec.ofNat 32 offset).toNat = 0xFFC00000 + 4096 * pd.toNat + offset := by
  rw [BitVec.toNat_add, tableWindow_toNat below, BitVec.toNat_ofNat]
  omega

theorem tableEntry_eq (virtAddr : Word) :
    tableEntry virtAddr =
      tableWindow (pdIdx virtAddr) + BitVec.ofNat 32 (4 * (ptIdx virtAddr).toNat) := by
  have scaled : 4 * ptIdx virtAddr = BitVec.ofNat 32 (4 * (ptIdx virtAddr).toNat) := by
    apply BitVec.eq_of_toNat_eq
    rw [BitVec.toNat_mul, BitVec.toNat_ofNat]
    rfl
  rw [tableEntry, scaled]

end Addresses

/-! ### The invariant -/

/-- Entry `index` of the page directory. -/
abbrev pdeAt (memory : Image) (index : Nat) : PageEntry := entryIn memory directoryFrame index

/-- The page tables of a directory that maps itself. Entries 0 to 1022 are the
ones that lead to tables. -/
structure TablesOk (memory : Image) : Prop where
  selfPresent : (pdeAt memory 1023).present ≠ 0
  selfFrame : (pdeAt memory 1023).frame = directoryFrame
  firstPresent : (pdeAt memory 0).present ≠ 0
  firstFrame : (pdeAt memory 0).frame = firstTableFrame
  directoryPresent : (entryIn memory firstTableFrame 0x90).present ≠ 0
  directoryMapped : (entryIn memory firstTableFrame 0x90).frame = directoryFrame
  offDirectory : ∀ index < 1023, (pdeAt memory index).present ≠ 0 →
    (pdeAt memory index).frame ≠ directoryFrame
  distinct : ∀ index < 1023, ∀ other < 1023, index ≠ other → (pdeAt memory index).present ≠ 0 →
    (pdeAt memory other).present ≠ 0 → (pdeAt memory index).frame ≠ (pdeAt memory other).frame

section Accesses

variable {memory : Image} {pd : Word}

/-- The directory entry is reached at its physical address. -/
theorem TablesOk.walk_directoryEntry (ok : TablesOk memory) (below : pd.toNat < 1024) :
    walk memory directoryFrame (directoryEntry pd) = some (entryAddress directoryFrame pd.toNat) := by
  have address := directoryEntry_toNat below
  have inDirectory : directoryIndex (directoryEntry pd) = 0 := by
    rw [directoryIndex_eq, address]
    omega
  have inTable : tableIndex (directoryEntry pd) = 0x90 := by
    rw [tableIndex_eq, address]
    omega
  have offset : pageOffset (directoryEntry pd) = 4 * pd.toNat := by
    rw [pageOffset_eq, address]
    omega
  rw [walk_of_present (show entryIn memory directoryFrame _ = _ from congrArg _ inDirectory)
    ok.firstPresent (show entryIn memory _ _ = _ from by rw [ok.firstFrame, inTable])
    ok.directoryPresent, ok.directoryMapped, offset]
  rfl

/-- A present table is reached through its window. -/
theorem walk_tableWindow (selfPresent : (pdeAt memory 1023).present ≠ 0)
    (selfFrame : (pdeAt memory 1023).frame = directoryFrame) (below : pd.toNat < 1024)
    (present : (pdeAt memory pd.toNat).present ≠ 0) {offset : Nat} (inPage : offset < 4096) :
    walk memory directoryFrame (tableWindow pd + BitVec.ofNat 32 offset) =
      some (pageSize * (pdeAt memory pd.toNat).frame.toNat + offset) := by
  have address := tableWindow_add_toNat below inPage
  have inDirectory : directoryIndex (tableWindow pd + BitVec.ofNat 32 offset) = 1023 := by
    rw [directoryIndex_eq, address]
    omega
  have inTable : tableIndex (tableWindow pd + BitVec.ofNat 32 offset) = pd.toNat := by
    rw [tableIndex_eq, address]
    omega
  have within : pageOffset (tableWindow pd + BitVec.ofNat 32 offset) = offset := by
    rw [pageOffset_eq, address]
    omega
  rw [walk_of_present (show entryIn memory directoryFrame _ = _ from congrArg _ inDirectory)
    selfPresent (show entryIn memory _ _ = _ from by rw [selfFrame, inTable]) present, within]

theorem TablesOk.readVirtual_directoryEntry (ok : TablesOk memory) (below : pd.toNat < 1024) :
    readVirtual memory directoryFrame (directoryEntry pd) = some (pdeAt memory pd.toNat) := by
  rw [readVirtual, ok.walk_directoryEntry below]
  rfl

theorem TablesOk.writeVirtual_directoryEntry (ok : TablesOk memory) (below : pd.toNat < 1024)
    (entry : PageEntry) :
    writeVirtual memory directoryFrame (directoryEntry pd) entry =
      some (setEntry memory directoryFrame pd.toNat entry) := by
  rw [writeVirtual, ok.walk_directoryEntry below]
  rfl

theorem TablesOk.walk_tableEntry (ok : TablesOk memory) (virtAddr : Word)
    (present : (pdeAt memory (pdIdx virtAddr).toNat).present ≠ 0) :
    walk memory directoryFrame (tableEntry virtAddr) =
      some (entryAddress (pdeAt memory (pdIdx virtAddr).toNat).frame (ptIdx virtAddr).toNat) := by
  have small := ptIdx_lt virtAddr
  rw [tableEntry_eq, walk_tableWindow ok.selfPresent ok.selfFrame (pdIdx_lt virtAddr) present
    (by omega)]
  rfl

theorem TablesOk.readVirtual_tableEntry (ok : TablesOk memory) (virtAddr : Word)
    (present : (pdeAt memory (pdIdx virtAddr).toNat).present ≠ 0) :
    readVirtual memory directoryFrame (tableEntry virtAddr) =
      some (entryIn memory (pdeAt memory (pdIdx virtAddr).toNat).frame (ptIdx virtAddr).toNat) := by
  rw [readVirtual, ok.walk_tableEntry virtAddr present]
  rfl

theorem TablesOk.writeVirtual_tableEntry (ok : TablesOk memory) (virtAddr : Word)
    (present : (pdeAt memory (pdIdx virtAddr).toNat).present ≠ 0) (entry : PageEntry) :
    writeVirtual memory directoryFrame (tableEntry virtAddr) entry =
      some (setEntry memory (pdeAt memory (pdIdx virtAddr).toNat).frame (ptIdx virtAddr).toNat
        entry) := by
  rw [writeVirtual, ok.walk_tableEntry virtAddr present]
  rfl

end Accesses

end BrainDance.Memory
