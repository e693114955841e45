import BrainDance.Memory.Heap
import BrainDance.Memory.Paging.Model

/-!
Owns the model of `network/e1000.c`: `e1000_init`, which maps the device's
registers, carves two descriptor rings out of the heap and gives each descriptor
a buffer and a block of physical memory.

`blocks` holds the results of the next calls of `pmm_alloc_block`, made by the
driver or by `map_page` for a table. The device is not modelled: a register
access is a translated access that leaves memory as it is, and a register write
is recorded. An access that faults has no result. Console output is not modelled.
-/

namespace BrainDance.Network

open BrainDance.Foundation
open BrainDance.Arch
open BrainDance.Memory

/-! ### The machine -/

structure Machine where
  memory : Image
  heapPtr : Word
  blocks : List Word
  registers : List (Word × Word)

/-- `pmm_alloc_block`. -/
def Machine.takeBlock (machine : Machine) : Option (Word × Machine) :=
  match machine.blocks with
  | [] => none
  | block :: rest => some (block, { machine with blocks := rest })

/-- The directory entry of the address is there, so `map_page` takes no block. -/
def hasTable (memory : Image) (virtAddr : Word) : Option Bool :=
  (readVirtual memory directoryFrame (directoryEntry (pdIdx virtAddr))).map fun pde =>
    decide (pde.present ≠ 0)

/-- `map_page(phys_addr, virt_addr, PTE_PRESENT | PTE_RW)`. -/
def Machine.mapPage (machine : Machine) (physAddr virtAddr : Word) : Option Machine := do
  if ← hasTable machine.memory virtAddr then
    let memory ← Memory.mapPage machine.memory 0 physAddr virtAddr (ptePresent ||| pteRw)
    some { machine with memory := memory }
  else
    let (block, machine) ← machine.takeBlock
    let memory ← Memory.mapPage machine.memory block physAddr virtAddr (ptePresent ||| pteRw)
    some { machine with memory := memory }

/-! ### Registers -/

/-- `e1000_write`. -/
def e1000Write (mmioBase offset value : Word) (machine : Machine) : Option Machine :=
  (walk machine.memory directoryFrame (mmioBase + 4 * (offset / 4))).map fun _ =>
    { machine with registers := machine.registers ++ [(offset, value)] }

/-- The registers of a ring. -/
structure RingRegisters where
  bal : Word
  bah : Word
  len : Word
  head : Word
  tail : Word
  control : Word

def rxRegisters : RingRegisters := ⟨0x2800, 0x2804, 0x2808, 0x2810, 0x2818, 0x0100⟩

def txRegisters : RingRegisters := ⟨0x3800, 0x3804, 0x3808, 0x3810, 0x3818, 0x0400⟩

/-- `RCTL_EN | RCTL_BAM | RCTL_SECRC`. -/
def rctl : Word := (1 <<< 1) ||| (1 <<< 15) ||| (1 <<< 26)

/-- `TCTL_EN | TCTL_PSP`. -/
def tctl : Word := (1 <<< 1) ||| (1 <<< 3)

/-- The six register writes that hand a ring to the device. -/
def startRing (mmioBase : Word) (registers : RingRegisters) (ring length tail control : Word)
    (machine : Machine) : Option Machine := do
  let low ← getPhysAddr machine.memory ring
  let machine ← e1000Write mmioBase registers.bal low machine
  -- the address is 32 bits wide, so its upper half is 0
  let _ ← getPhysAddr machine.memory ring
  let machine ← e1000Write mmioBase registers.bah 0 machine
  let machine ← e1000Write mmioBase registers.len length machine
  let machine ← e1000Write mmioBase registers.head 0 machine
  let machine ← e1000Write mmioBase registers.tail tail machine
  e1000Write mmioBase registers.control control machine

/-! ### Rings -/

/-- `sizeof` of both descriptor types. -/
def descSize : Word := 16

def rxDescCount : Nat := 32

def txDescCount : Nat := 8

/-- The place of `status` in a receive descriptor. -/
def rxStatusAt : Word := 12

/-- The place of `cmd` in a transmit descriptor. -/
def txCmdAt : Word := 11

/-- The upper half of `(uint64_t)phys_addr`: a pointer is sign-extended when it is widened. -/
def pointerHigh (physAddr : Word) : Word := (physAddr.signExtend 64 >>> 32).setWidth 32

/-- A descriptor's buffer and the block whose address is stored in its `addr`. -/
structure DmaSlot where
  buffer : Word
  addr : Word
deriving DecidableEq

structure DmaRing where
  base : Word
  slots : List DmaSlot

/-- `addr = (uint64_t)phys_addr` and the byte at `clearedAt` set to 0. -/
def storeDescriptor (memory : Image) (descriptor physAddr clearedAt : Word) : Option Image := do
  let memory ← storeVirtual memory directoryFrame descriptor physAddr
  let memory ← storeVirtual memory directoryFrame (descriptor + 4) (pointerHigh physAddr)
  memsetVirtual memory directoryFrame (descriptor + clearedAt) 0 1

/-- One round of a ring's loop. -/
def fillSlot (ring clearedAt : Word) (index : Nat) (machine : Machine) :
    Option (DmaSlot × Machine) := do
  let (physAddr, machine) ← machine.takeBlock
  let allocated := kmalloc machine.heapPtr 4096
  let buffer := allocated.1
  let machine ← { machine with heapPtr := allocated.2 }.mapPage physAddr buffer
  let memory ← storeDescriptor machine.memory (ring + BitVec.ofNat 32 index * descSize) physAddr
    clearedAt
  some (⟨buffer, physAddr⟩, { machine with memory := memory })

/-- The first `count` rounds. -/
def fillRing (ring clearedAt : Word) : Nat → Machine → Option (List DmaSlot × Machine)
  | 0, machine => some ([], machine)
  | count + 1, machine => do
      let (slots, machine) ← fillRing ring clearedAt count machine
      let (slot, machine) ← fillSlot ring clearedAt count machine
      some (slots ++ [slot], machine)

def setUpRing (count : Nat) (clearedAt : Word) (machine : Machine) :
    Option (DmaRing × Machine) := do
  let allocated := allocAligned machine.heapPtr (descSize * BitVec.ofNat 32 count) 16
  let base := allocated.1
  let (slots, machine) ← fillRing base clearedAt count { machine with heapPtr := allocated.2 }
  some (⟨base, slots⟩, machine)

/-! ### Initialisation -/

/-- The first `count` rounds of the loop that maps the registers. -/
def mapRegisters (mmioBase : Word) : Nat → Machine → Option Machine
  | 0, machine => some machine
  | count + 1, machine => do
      let machine ← mapRegisters mmioBase count machine
      let page := mmioBase + BitVec.ofNat 32 count * 0x1000
      machine.mapPage page page

structure E1000 where
  mmioBase : Word
  rx : DmaRing
  tx : DmaRing

/-- `e1000_init`, where `bar0` is what `pci_config_read` returned: the driver's
state if the result is `true`. -/
def e1000Init (bar0 : Word) (machine : Machine) : Option (Option E1000 × Machine) := do
  if bar0 &&& 1 ≠ 0 then
    some (none, machine)
  else
    let mmioBase := bar0 &&& 0xFFFFFFF0
    let machine ← mapRegisters mmioBase 16 machine
    let _ ← walk machine.memory directoryFrame (mmioBase + 8)
    let (rx, machine) ← setUpRing rxDescCount rxStatusAt machine
    let machine ← startRing mmioBase rxRegisters rx.base (BitVec.ofNat 32 rxDescCount * descSize)
      (BitVec.ofNat 32 rxDescCount - 1) rctl machine
    let (tx, machine) ← setUpRing txDescCount txCmdAt machine
    let machine ← startRing mmioBase txRegisters tx.base (BitVec.ofNat 32 txDescCount * descSize)
      0 tctl machine
    some (some ⟨mmioBase, rx, tx⟩, machine)

end BrainDance.Network
