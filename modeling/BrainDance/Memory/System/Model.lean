import BrainDance.Memory.Paging.Frames
import BrainDance.Memory.Paging.Runs
import BrainDance.Memory.Pmm.Protection

/-!
Owns the memory system that `memory/pmm.c` and `memory/paging.c` make together. The
bitmap, the page tables and the blocks lie in one physical memory: `map_page` takes
its tables from `pmm_alloc_block`, and callers write the blocks they were handed. The
bitmap lies in the first 4 MiB, which stay mapped to themselves, so the allocator's
accesses are to physical addresses.

Beside it stands the manager, which says what the system is for.
-/

namespace BrainDance.Memory

open BrainDance.Foundation
open BrainDance.Arch

/-! ### One memory -/

/-- Physical memory and the two counters of `pmm.c`. -/
structure Ram where
  memory : Image
  totalBlocks : Word
  usedBlocks : Word

namespace Ram

/-- The allocator with its bitmap at `kernelEnd`. -/
def pmm (kernelEnd : Word) (ram : Ram) : Pmm where
  bitmap offset := ram.memory (kernelEnd.toNat + offset)
  totalBlocks := ram.totalBlocks
  usedBlocks := ram.usedBlocks

/-- The memory from `kernelEnd` on as the allocator leaves it. -/
def withPmm (kernelEnd : Word) (ram : Ram) (pmm : Pmm) : Ram where
  memory address :=
    if kernelEnd.toNat ≤ address then pmm.bitmap (address - kernelEnd.toNat)
    else ram.memory address
  totalBlocks := pmm.totalBlocks
  usedBlocks := pmm.usedBlocks

def allocBlock (kernelEnd : Word) (ram : Ram) : Word × Ram :=
  ((pmmAllocBlock (ram.pmm kernelEnd)).1,
    ram.withPmm kernelEnd (pmmAllocBlock (ram.pmm kernelEnd)).2)

def freeBlock (kernelEnd : Word) (ram : Ram) (block : Word) : Ram :=
  ram.withPmm kernelEnd (pmmFreeBlock (ram.pmm kernelEnd) block)

/-- `map_page` with the block that it takes where it needs a table. -/
def mapPage (kernelEnd : Word) (ram : Ram) (physAddr virtAddr flags : Word) : Option Ram := do
  let pde ← readVirtual ram.memory directoryFrame (directoryEntry (pdIdx virtAddr))
  let (allocated, ready) := if pde.present ≠ 0 then (0, ram) else ram.allocBlock kernelEnd
  let memory ← Memory.mapPage ready.memory allocated physAddr virtAddr flags
  some { ready with memory := memory }

end Ram

/-- The first byte behind the words of the bitmap that the search covers. -/
def searchedEnd (kernelEnd totalBlocks : Word) : Nat :=
  kernelEnd.toNat + 4 * (totalBlocks.toNat / 32)

/-- What `pmm_init` has to leave: the blocks below the end of the bitmap are marked. -/
structure PmmReady (kernelEnd : Word) (pmm : Pmm) : Prop where
  above : 0x100000 ≤ kernelEnd.toNat
  low : searchedEnd kernelEnd pmm.totalBlocks ≤ 0x400000
  small : pmm.totalBlocks.toNat ≤ 2 ^ 20
  guarded : ∀ block < pmm.searched, 4096 * block < searchedEnd kernelEnd pmm.totalBlocks →
    pmm.bit block = true

/-- The kernel's end and the memory map for which `pmm_init` leaves that: the bitmap ends
where the marked blocks do, or the block it ends inside is not one that `pmm_init` frees. -/
structure BitmapKept (kernelEnd : Word) (mmap : List E820Entry) : Prop where
  above : 0x100000 ≤ kernelEnd.toNat
  low : searchedEnd kernelEnd (totalBlocksOf mmap) ≤ 0x400000
  small : (totalBlocksOf mmap).toNat ≤ 2 ^ 20
  tail : searchedEnd kernelEnd (totalBlocksOf mmap) ≤ 4096 * reservedBlocks kernelEnd mmap ∨
    ¬ (searchedEnd kernelEnd (totalBlocksOf mmap) / 4096 < 32 * ((totalBlocksOf mmap).toNat / 32) ∧
      Released mmap (searchedEnd kernelEnd (totalBlocksOf mmap) / 4096))

/-- `pmm_init` in the machine's memory. -/
def bootRam (fuel : Nat) (memory : Image) (kernelEnd : Word) (mmap : List E820Entry) : Option Ram :=
  (pmmInit fuel (fun offset => memory (kernelEnd.toNat + offset)) kernelEnd mmap).map
    (Ram.withPmm kernelEnd ⟨memory, 0, 0⟩)

/-! ### Callers -/

/-- The memory and the blocks that callers hold. -/
structure MemoryClient where
  ram : Ram
  outstanding : Finset Word

/-- What callers do, with what they see: the address of an allocation, the byte at a
virtual address, the answer of `get_phys_addr`. -/
inductive MemoryEvent where
  | alloc (block : Word)
  | free (block : Word)
  | write (virtAddr : Word) (value : Byte)
  | read (virtAddr : Word) (value : Byte)
  | map (physAddr virtAddr flags : Word)
  | resolve (virtAddr answer : Word)

/-- The address, which is below the window on the tables, leads to the byte of a block
that the caller holds. -/
def MemoryClient.Reaches (client : MemoryClient) (virtAddr block : Word) (offset : Nat) : Prop :=
  virtAddr.toNat < 0xFFC00000 ∧ block ∈ client.outstanding ∧ offset < 4096 ∧
    walk client.ram.memory directoryFrame virtAddr = some (block.toNat + offset)

/-- From `pmm_init` and then `paging_install` on; between the two, `kernel_main` writes
below the kernel's end. Callers keep to the blocks they hold. -/
def memorySystem (kernelEnd : Word) (mmap : List E820Entry) :
    TransitionSystem MemoryClient MemoryEvent where
  Init client := ∃ fuel memory booted unpaged, bootRam fuel memory kernelEnd mmap = some booted ∧
    (∀ address, kernelEnd.toNat ≤ address → unpaged address = booted.memory address) ∧
    client = ⟨{ booted with memory := pagingInstall unpaged }, ∅⟩
  Step before event after :=
    match event with
    | .alloc block =>
        block = (before.ram.allocBlock kernelEnd).1 ∧
          after.ram = (before.ram.allocBlock kernelEnd).2 ∧
          after.outstanding =
            if block = 0 then before.outstanding else insert block before.outstanding
    | .free block =>
        block ∈ before.outstanding ∧ after.ram = before.ram.freeBlock kernelEnd block ∧
          after.outstanding = before.outstanding.erase block
    | .write virtAddr value =>
        ∃ block offset, before.Reaches virtAddr block offset ∧
          after = { before with
            ram.memory := Function.update before.ram.memory (block.toNat + offset) value }
    | .read virtAddr value =>
        ∃ block offset, before.Reaches virtAddr block offset ∧
          value = before.ram.memory (block.toNat + offset) ∧ after = before
    | .map physAddr virtAddr flags =>
        Mappable virtAddr ∧
          before.ram.mapPage kernelEnd physAddr virtAddr flags = some after.ram ∧
          after.outstanding = before.outstanding
    | .resolve virtAddr answer =>
        virtAddr.toNat < 0xFFC00000 ∧ getPhysAddr before.ram.memory virtAddr = some answer ∧
          after = before

/-! ### The manager -/

/-- Blocks are private and keep their bytes; a page leads to the frame it was last mapped
to. -/
structure Manager where
  held : Finset Word
  contents : Word → Nat → Byte
  map : Nat → Option (BitVec 20)

/-- The address's page was last mapped to the block, which is held. -/
def Manager.Reaches (state : Manager) (virtAddr block : Word) : Prop :=
  virtAddr.toNat < 0xFFC00000 ∧ block ∈ state.held ∧
    state.map (pageOf virtAddr) = some (frameOf block)

/-- An allocation may fail, or it gives a block that nobody holds, with any bytes in it. -/
def manager : TransitionSystem Manager MemoryEvent where
  Init state := state.held = ∅ ∧ state.map = identityPages
  Step before event after :=
    match event with
    | .alloc block =>
        after.map = before.map ∧
          (∀ other ∈ before.held, after.contents other = before.contents other) ∧
          (block = 0 ∧ after.held = before.held ∨
            block ≠ 0 ∧ block.toNat % 4096 = 0 ∧ block ∉ before.held ∧
              after.held = insert block before.held)
    | .free block =>
        block ∈ before.held ∧ after = { before with held := before.held.erase block }
    | .write virtAddr value =>
        ∃ block, before.Reaches virtAddr block ∧
          after = { before with
            contents := Function.update before.contents block
              (Function.update (before.contents block) (pageOffset virtAddr) value) }
    | .read virtAddr value =>
        ∃ block, before.Reaches virtAddr block ∧
          value = before.contents block (pageOffset virtAddr) ∧ after = before
    | .map physAddr virtAddr flags =>
        Mappable virtAddr ∧
          after = { before with map := assign before.map ⟨physAddr, virtAddr, flags, 0⟩ }
    | .resolve virtAddr answer =>
        virtAddr.toNat < 0xFFC00000 ∧
          answer = physicalAddress (before.map (pageOf virtAddr)) virtAddr ∧ after = before

end BrainDance.Memory
