import BrainDance.Arch.Mmu
import BrainDance.Libc.Memcore

/-!
Owns the model of `memory/paging.c`: the page directory and first table that
`paging_install` builds, `map_page` and `get_phys_addr`, which reach every
table through the last directory entry, and `unmap_page`, which uses a table's
physical address as a pointer.

`paging_install` runs before translation is on and writes physical addresses.
The other functions go through the processor's walk; an access that faults, and
an allocation failure, on which the source halts, have no result. The page fault
handler, which only prints and halts, is not modelled.
-/

namespace BrainDance.Memory

open BrainDance.Foundation
open BrainDance.Libc
open BrainDance.Arch

/-- `page_directory`, the value loaded into `cr3`. -/
def pageDirectory : Word := 0x90000

def firstPageTable : Word := 0x91000

def ptePresent : Word := 0x1

def pteRw : Word := 0x2

def pteUser : Word := 0x4

/-- `address >> 12`, as a `frame` field holds it. -/
def frameOf (address : Word) : BitVec 20 := (address >>> 12).setWidth 20

def directoryFrame : BitVec 20 := frameOf pageDirectory

def firstTableFrame : BitVec 20 := frameOf firstPageTable

/-! ### Installation -/

/-- The loop that maps page `i` of the first 4 MiB to frame `i`. -/
def identityMap (memory : Image) : Nat → Image
  | 0 => memory
  | i + 1 =>
      let before := identityMap memory i
      let pte := entryIn before firstTableFrame i
      let physicalAddr : Word := BitVec.ofNat 32 i * 0x1000
      setEntry before firstTableFrame i
        { pte with present := 1, rw := 1, frame := frameOf physicalAddr }

/-- Entry `index` of the directory made to point to `target`. -/
def linkDirectory (memory : Image) (index : Nat) (target : Word) : Image :=
  setEntry memory directoryFrame index
    { entryIn memory directoryFrame index with present := 1, rw := 1, frame := frameOf target }

def pagingInstall (memory : Image) : Image :=
  let cleared := memset (memset memory pageDirectory.toNat 0 pageSize) firstPageTable.toNat 0 pageSize
  let mapped := identityMap cleared 1024
  linkDirectory (linkDirectory mapped 0 firstPageTable) 1023 pageDirectory

/-! ### Mapping -/

def pdIdx (virtAddr : Word) : Word := virtAddr >>> 22

def ptIdx (virtAddr : Word) : Word := (virtAddr >>> 12) &&& 0x03FF

/-- `&page_directory->tables[pd_idx]`. -/
def directoryEntry (pdIdx : Word) : Word := pageDirectory + 4 * pdIdx

/-- The virtual address at which the last directory entry shows table `pd_idx`. -/
def tableWindow (pdIdx : Word) : Word := (0xFFC00000 : Word) ||| (pdIdx <<< 12)

/-- `&page_table->pages[pt_idx]` of the table seen through its window. -/
def tableEntry (virtAddr : Word) : Word := tableWindow (pdIdx virtAddr) + 4 * ptIdx virtAddr

/-- The first half of `map_page`: a directory entry that is not present gets the
block that `pmm_alloc_block` returned, cleared through its window. -/
def ensureTable (memory : Image) (allocated pdIdx : Word) : Option Image :=
  (readVirtual memory directoryFrame (directoryEntry pdIdx)).bind fun pde =>
    if pde.present ≠ 0 then some memory
    else if allocated = 0 then none
    else
      (writeVirtual memory directoryFrame (directoryEntry pdIdx)
          { pde with present := 1, rw := 1, user := 1, frame := frameOf allocated }).bind
        fun linked => memsetVirtual linked directoryFrame (tableWindow pdIdx) 0 pageSize

/-- A flag as a one-bit field. -/
def flagBit (flags flag : Word) : BitVec 1 := if flags &&& flag ≠ 0 then 1 else 0

/-- `map_page`, where `allocated` is what `pmm_alloc_block` returns if called. -/
def mapPage (memory : Image) (allocated physAddr virtAddr flags : Word) : Option Image :=
  (ensureTable memory allocated (pdIdx virtAddr)).bind fun ready =>
    (readVirtual ready directoryFrame (tableEntry virtAddr)).bind fun pte =>
      writeVirtual ready directoryFrame (tableEntry virtAddr)
        { pte with
          present := flagBit flags ptePresent
          rw := flagBit flags pteRw
          user := flagBit flags pteUser
          frame := frameOf physAddr }

/-- `&page_table->pages[pt_idx]` of the table that the directory entry points to,
as `unmap_page` computes it. -/
def tablePointer (frame : BitVec 20) (virtAddr : Word) : Word :=
  (frame.setWidth 32 <<< 12) + 4 * ptIdx virtAddr

/-- `unmap_page`; `none` is a fault. -/
def unmapPage (memory : Image) (virtAddr : Word) : Option Image :=
  (readVirtual memory directoryFrame (directoryEntry (pdIdx virtAddr))).bind fun pde =>
    if pde.present = 0 then some memory
    else memsetVirtual memory directoryFrame (tablePointer pde.frame virtAddr) 0 4

/-- `get_phys_addr`; `none` is a fault. -/
def getPhysAddr (memory : Image) (virtAddr : Word) : Option Word :=
  (readVirtual memory directoryFrame (directoryEntry (pdIdx virtAddr))).bind fun pde =>
    if pde.present = 0 then some 0
    else
      (readVirtual memory directoryFrame (tableEntry virtAddr)).map fun pte : PageEntry =>
        if pte.present = 0 then (0 : Word)
        else (pte.frame.setWidth 32 <<< 12) + (virtAddr &&& 0xFFF)

end BrainDance.Memory
