import Mathlib.Data.List.Nodup
import BrainDance.Memory.Paging.Runs
import BrainDance.Network.E1000.Progress

/-!
Owns where the DMA descriptors point. A ring starts at a multiple of 16 and its
buffers follow it, so the buffers of the two rings cannot both start on page
boundaries; the block a descriptor names does, and a buffer's bytes keep their
offset in the page. So whenever `e1000_init` succeeds, one of the rings names
addresses its buffers are not at.
-/

namespace BrainDance.Network

open BrainDance.Foundation
open BrainDance.Arch
open BrainDance.Memory

/-! ### The property -/

/-- Every byte of the buffer stands where the descriptor says. -/
def DmaSlot.Backs (memory : Image) (slot : DmaSlot) : Prop :=
  ∀ k < 4096, getPhysAddr memory (slot.buffer + BitVec.ofNat 32 k) =
    some (slot.addr + BitVec.ofNat 32 k)

/-- No byte of the ring stands in the block that the descriptor names. -/
def DmaSlot.Spares (memory : Image) (slot : DmaSlot) (ring : DmaRing) : Prop :=
  ∀ offset < 16 * ring.slots.length, ∀ physical,
    getPhysAddr memory (ring.base + BitVec.ofNat 32 offset) = some physical →
      physical.toNat < slot.addr.toNat ∨ slot.addr.toNat + 4096 ≤ physical.toNat

def E1000.slots (driver : E1000) : List DmaSlot := driver.rx.slots ++ driver.tx.slots

/-- The descriptors point at the buffers and at nothing of the rings. -/
structure DescriptorsOk (driver : E1000) (memory : Image) : Prop where
  backs : ∀ slot ∈ driver.slots, slot.Backs memory
  spares : ∀ slot ∈ driver.slots, slot.Spares memory driver.rx ∧ slot.Spares memory driver.tx

/-- The blocks handed out are whole pages, none of them page 0. -/
def PageBlocks (blocks : List Word) : Prop :=
  ∀ block ∈ blocks, block ≠ 0 ∧ block.toNat % 4096 = 0

/-! ### What each step leaves -/

section Steps

variable {machine after : Machine}

/-- The step allocates nothing from the heap. -/
structure Machine.Keeps (machine after : Machine) : Prop where
  heapPtr : after.heapPtr = machine.heapPtr
  blocks : after.blocks <:+ machine.blocks

theorem Machine.Keeps.refl (machine : Machine) : machine.Keeps machine :=
  ⟨rfl, List.suffix_rfl⟩

theorem Machine.Keeps.trans {middle : Machine} (first : machine.Keeps middle)
    (second : middle.Keeps after) : machine.Keeps after :=
  ⟨second.heapPtr.trans first.heapPtr, second.blocks.trans first.blocks⟩

theorem takeBlock_cases {block : Word} (taken : machine.takeBlock = some (block, after)) :
    machine.blocks = block :: after.blocks ∧ after = { machine with blocks := after.blocks } := by
  unfold Machine.takeBlock at taken
  split at taken
  · contradiction
  · rename_i head rest shape
    obtain ⟨rfl, rfl⟩ := Prod.mk.inj (Option.some.inj taken)
    exact ⟨shape, rfl⟩

theorem takeBlock_keeps {block : Word} (taken : machine.takeBlock = some (block, after)) :
    machine.Keeps after := by
  obtain ⟨shape, same⟩ := takeBlock_cases taken
  refine ⟨by rw [same], ?_⟩
  rw [shape]
  exact List.suffix_cons _ _

theorem mapPage_keeps {physAddr virtAddr : Word}
    (mapped : machine.mapPage physAddr virtAddr = some after) : machine.Keeps after := by
  obtain ⟨table, _, mapped⟩ := Option.bind_eq_some_iff.mp mapped
  cases table with
  | true =>
      obtain ⟨memory, _, result⟩ := Option.bind_eq_some_iff.mp mapped
      rw [← Option.some.inj result]
      exact ⟨rfl, List.suffix_rfl⟩
  | false =>
      obtain ⟨⟨block, middle⟩, taken, mapped⟩ := Option.bind_eq_some_iff.mp mapped
      obtain ⟨memory, _, result⟩ := Option.bind_eq_some_iff.mp mapped
      rw [← Option.some.inj result]
      exact (takeBlock_keeps taken).trans ⟨rfl, List.suffix_rfl⟩

theorem mapRegisters_keeps {mmioBase : Word} {count : Nat}
    (mapped : mapRegisters mmioBase count machine = some after) : machine.Keeps after := by
  induction count generalizing after with
  | zero =>
      rw [← Option.some.inj mapped]
      exact .refl machine
  | succ count inductionHypothesis =>
      obtain ⟨middle, earlier, last⟩ := Option.bind_eq_some_iff.mp mapped
      exact (inductionHypothesis earlier).trans (mapPage_keeps last)

theorem e1000Write_keeps {mmioBase offset value : Word}
    (written : e1000Write mmioBase offset value machine = some after) : machine.Keeps after := by
  obtain ⟨_, _, rfl⟩ := Option.map_eq_some_iff.mp written
  exact ⟨rfl, List.suffix_rfl⟩

theorem startRing_keeps {mmioBase ring length tail control : Word} {registers : RingRegisters}
    (started : startRing mmioBase registers ring length tail control machine = some after) :
    machine.Keeps after := by
  obtain ⟨_, _, started⟩ := Option.bind_eq_some_iff.mp started
  obtain ⟨first, bal, started⟩ := Option.bind_eq_some_iff.mp started
  obtain ⟨_, _, started⟩ := Option.bind_eq_some_iff.mp started
  obtain ⟨second, bah, started⟩ := Option.bind_eq_some_iff.mp started
  obtain ⟨third, len, started⟩ := Option.bind_eq_some_iff.mp started
  obtain ⟨fourth, head, started⟩ := Option.bind_eq_some_iff.mp started
  obtain ⟨fifth, tail, control⟩ := Option.bind_eq_some_iff.mp started
  exact (e1000Write_keeps bal).trans ((e1000Write_keeps bah).trans ((e1000Write_keeps len).trans
    ((e1000Write_keeps head).trans ((e1000Write_keeps tail).trans (e1000Write_keeps control)))))

/-- A round takes its buffer from the heap and its block from the allocator. -/
theorem fillSlot_cases {ring clearedAt : Word} {index : Nat} {slot : DmaSlot}
    (filled : fillSlot ring clearedAt index machine = some (slot, after)) :
    slot.buffer = (kmalloc machine.heapPtr 4096).1 ∧ slot.addr ∈ machine.blocks ∧
      after.heapPtr = (kmalloc machine.heapPtr 4096).2 ∧ after.blocks <:+ machine.blocks := by
  obtain ⟨⟨block, withoutBlock⟩, taken, filled⟩ := Option.bind_eq_some_iff.mp filled
  obtain ⟨mapped, mapping, filled⟩ := Option.bind_eq_some_iff.mp filled
  obtain ⟨memory, _, result⟩ := Option.bind_eq_some_iff.mp filled
  obtain ⟨rfl, rfl⟩ := Prod.mk.inj (Option.some.inj result)
  obtain ⟨shape, same⟩ := takeBlock_cases taken
  have keeps := mapPage_keeps mapping
  have unchanged : withoutBlock.heapPtr = machine.heapPtr := (takeBlock_keeps taken).heapPtr
  refine ⟨?_, ?_, ?_, ?_⟩
  · dsimp only
    rw [unchanged]
  · rw [shape]
    exact List.mem_cons_self
  · have moved := keeps.heapPtr
    dsimp only at moved ⊢
    rw [moved, unchanged]
  · exact keeps.blocks.trans (takeBlock_keeps taken).blocks

/-- The buffers of a ring follow one another from `heap_ptr` on. -/
theorem fillRing_cases {ring clearedAt : Word} {count : Nat} {slots : List DmaSlot}
    (fits : machine.heapPtr.toNat + 4096 * count ≤ 0x800000)
    (filled : fillRing ring clearedAt count machine = some (slots, after)) :
    slots.map DmaSlot.buffer =
        (List.range count).map (fun index => machine.heapPtr + BitVec.ofNat 32 (4096 * index)) ∧
      (∀ slot ∈ slots, slot.addr ∈ machine.blocks) ∧
        after.heapPtr = machine.heapPtr + BitVec.ofNat 32 (4096 * count) ∧
          after.blocks <:+ machine.blocks := by
  induction count generalizing slots after with
  | zero =>
      obtain ⟨rfl, rfl⟩ := Prod.mk.inj (Option.some.inj filled)
      exact ⟨rfl, by simp, by simp, List.suffix_rfl⟩
  | succ count inductionHypothesis =>
      obtain ⟨⟨earlier, middle⟩, first, filled⟩ := Option.bind_eq_some_iff.mp filled
      obtain ⟨⟨slot, last⟩, second, result⟩ := Option.bind_eq_some_iff.mp filled
      obtain ⟨rfl, rfl⟩ := Prod.mk.inj (Option.some.inj result)
      obtain ⟨buffers, addrs, heapPtr, blocks⟩ := inductionHypothesis (by omega) first
      obtain ⟨buffer, addr, heapPtrAfter, blocksAfter⟩ := fillSlot_cases second
      have position : middle.heapPtr.toNat = machine.heapPtr.toNat + 4096 * count := by
        rw [heapPtr, BitVec.toNat_add, BitVec.toNat_ofNat]
        omega
      have size : (4096 : Word).toNat = 4096 := by decide
      have room : middle.heapPtr.toNat + (4096 : Word).toNat ≤ 0x800000 := by omega
      have allocated := kmalloc_of_fits room
      rw [allocated] at buffer heapPtrAfter
      refine ⟨?_, ?_, ?_, blocksAfter.trans blocks⟩
      · rw [List.map_append, buffers, List.range_succ, List.map_append, List.map_singleton,
          List.map_singleton, buffer, heapPtr]
      · intro other member
        rcases List.mem_append.mp member with inEarlier | isLast
        · exact addrs other inEarlier
        · rw [List.mem_singleton.mp isLast]
          exact blocks.subset addr
      · have next : BitVec.ofNat 32 (4096 * (count + 1)) =
            BitVec.ofNat 32 (4096 * count) + 4096 := by
          rw [Nat.mul_succ, BitVec.ofNat_add]
          rfl
        rw [heapPtrAfter, heapPtr, next, BitVec.add_assoc]

/-- A ring starts at the next multiple of 16, and its first buffer right behind it. -/
theorem setUpRing_cases {clearedAt : Word} {count : Nat} {ring : DmaRing} (positive : 0 < count)
    (fits : (alignUp machine.heapPtr 16).toNat + count * (16 + 4096) ≤ 0x800000)
    (done : setUpRing count clearedAt machine = some (ring, after)) :
    (∃ first ∈ ring.slots, first.addr ∈ machine.blocks ∧
      first.buffer.toNat = (alignUp machine.heapPtr 16).toNat + 16 * count) ∧
        after.heapPtr.toNat = (alignUp machine.heapPtr 16).toNat + count * (16 + 4096) ∧
          after.blocks <:+ machine.blocks := by
  obtain ⟨⟨slots, last⟩, filled, result⟩ := Option.bind_eq_some_iff.mp done
  obtain ⟨rfl, rfl⟩ := Prod.mk.inj (Option.some.inj result)
  have size : (descSize * BitVec.ofNat 32 count).toNat = 16 * count := by
    rw [BitVec.toNat_mul, BitVec.toNat_ofNat, show descSize.toNat = 16 from rfl]
    omega
  have room : (alignUp machine.heapPtr 16).toNat + (descSize * BitVec.ofNat 32 count).toNat ≤
      0x800000 := by omega
  rw [allocAligned_of_fits room] at filled
  have start : (alignUp machine.heapPtr 16 + descSize * BitVec.ofNat 32 count).toNat =
      (alignUp machine.heapPtr 16).toNat + 16 * count := by
    rw [BitVec.toNat_add, size]
    omega
  obtain ⟨buffers, addrs, heapPtr, blocks⟩ :=
    fillRing_cases (by dsimp only; rw [start]; omega) filled
  dsimp only at buffers addrs heapPtr blocks
  refine ⟨?_, ?_, blocks⟩
  · obtain ⟨rounds, rfl⟩ := Nat.exists_eq_succ_of_ne_zero (Nat.ne_of_gt positive)
    rw [List.range_succ_eq_map, List.map_cons] at buffers
    obtain ⟨first, rest, rfl, buffer, _⟩ := List.map_eq_cons_iff.mp buffers
    refine ⟨first, List.mem_cons_self, addrs first List.mem_cons_self, ?_⟩
    rw [buffer, Nat.mul_zero, BitVec.add_zero, start]
  · rw [heapPtr, BitVec.toNat_add, start, BitVec.toNat_ofNat]
    omega

end Steps

/-! ### The two rings -/

section Rings

variable {bar0 : Word} {machine after : Machine} {driver : E1000}

/-- Where the first buffers of both rings are, and the blocks their descriptors name. -/
theorem e1000Init_buffers (fits : HeapHolds machine.heapPtr)
    (initialised : e1000Init bar0 machine = some (some driver, after)) :
    ∃ rx ∈ driver.rx.slots, ∃ tx ∈ driver.tx.slots,
      rx.addr ∈ machine.blocks ∧ tx.addr ∈ machine.blocks ∧
        tx.buffer.toNat = rx.buffer.toNat + 32 * 4096 + 128 := by
  unfold e1000Init at initialised
  split at initialised
  · cases initialised
  · obtain ⟨mapped, mapping, initialised⟩ := Option.bind_eq_some_iff.mp initialised
    obtain ⟨_, _, initialised⟩ := Option.bind_eq_some_iff.mp initialised
    obtain ⟨⟨rxRing, withRx⟩, rxDone, initialised⟩ := Option.bind_eq_some_iff.mp initialised
    obtain ⟨started, starting, initialised⟩ := Option.bind_eq_some_iff.mp initialised
    obtain ⟨⟨txRing, withTx⟩, txDone, initialised⟩ := Option.bind_eq_some_iff.mp initialised
    obtain ⟨last, _, result⟩ := Option.bind_eq_some_iff.mp initialised
    obtain ⟨same, _⟩ := Prod.mk.inj (Option.some.inj result)
    obtain rfl := Option.some.inj same
    have room := fits.fits
    have mapKeeps := mapRegisters_keeps mapping
    have startKeeps := startRing_keeps starting
    have rxStart : (alignUp mapped.heapPtr 16).toNat = (machine.heapPtr.toNat + 15) / 16 * 16 := by
      rw [mapKeeps.heapPtr, alignUp_toNat fits.inHeap.2]
    rw [alignUp_toNat fits.inHeap.2] at room
    obtain ⟨⟨rx, rxIn, rxAddr, rxBuffer⟩, rxEnd, rxBlocks⟩ :=
      @setUpRing_cases mapped withRx rxStatusAt 32 rxRing (by decide) (by omega) rxDone
    have txStart : (alignUp started.heapPtr 16).toNat = withRx.heapPtr.toNat := by
      rw [startKeeps.heapPtr, alignUp_toNat (by omega)]
      omega
    obtain ⟨⟨tx, txIn, txAddr, txBuffer⟩, _, _⟩ :=
      @setUpRing_cases started withTx txCmdAt 8 txRing (by decide) (by omega) txDone
    refine ⟨rx, rxIn, tx, txIn, mapKeeps.blocks.subset rxAddr, ?_, ?_⟩
    · exact mapKeeps.blocks.subset (rxBlocks.subset (startKeeps.blocks.subset txAddr))
    · omega

end Rings

/-! ### Descriptors that miss their buffers -/

/-- An address that is mapped keeps its place in the page. -/
theorem getPhysAddr_offset {memory : Image} {virtAddr physical : Word}
    (answer : getPhysAddr memory virtAddr = some physical) (nonzero : physical ≠ 0) :
    physical.toNat % 4096 = virtAddr.toNat % 4096 := by
  obtain ⟨pde, _, answer⟩ := Option.bind_eq_some_iff.mp answer
  split at answer
  · exact absurd (Option.some.inj answer).symm nonzero
  · obtain ⟨pte, _, answer⟩ := Option.map_eq_some_iff.mp answer
    split at answer
    · exact absurd answer.symm nonzero
    · have offset : (virtAddr &&& 0xFFF).toNat = virtAddr.toNat % 4096 := pageOffset_eq virtAddr
      rw [← answer, BitVec.toNat_add, offset, BitVec.toNat_shiftLeft, BitVec.toNat_setWidth,
        Nat.shiftLeft_eq]
      omega

/-- Only a buffer on a page boundary is backed by a page. -/
theorem DmaSlot.Backs.aligned {memory : Image} {slot : DmaSlot} (backs : slot.Backs memory)
    (nonzero : slot.addr ≠ 0) (page : slot.addr.toNat % 4096 = 0) :
    slot.buffer.toNat % 4096 = 0 := by
  have first := backs 0 (by decide)
  rw [BitVec.add_zero, BitVec.add_zero] at first
  rw [← getPhysAddr_offset first nonzero, page]

section Misses

variable {bar0 : Word} {machine after : Machine} {driver : E1000}

/-- The first buffers of the two rings are not a whole number of pages apart. -/
theorem exists_slot_not_backs (holds : HeapHolds machine.heapPtr)
    (blocks : PageBlocks machine.blocks)
    (initialised : e1000Init bar0 machine = some (some driver, after)) :
    ∃ slot ∈ driver.slots, ¬ slot.Backs after.memory := by
  obtain ⟨rx, rxIn, tx, txIn, rxAddr, txAddr, apart⟩ := e1000Init_buffers holds initialised
  by_contra none
  have backs : ∀ slot ∈ driver.slots, slot.Backs after.memory := fun slot member =>
    not_not.mp fun misses => none ⟨slot, member, misses⟩
  have rxAligned := (backs rx (List.mem_append_left _ rxIn)).aligned (blocks _ rxAddr).1
    (blocks _ rxAddr).2
  have txAligned := (backs tx (List.mem_append_right _ txIn)).aligned (blocks _ txAddr).1
    (blocks _ txAddr).2
  omega

/-- No initialisation that succeeds makes all descriptors point at their buffers. -/
theorem descriptors_never_ok (holds : HeapHolds machine.heapPtr)
    (blocks : PageBlocks machine.blocks)
    (initialised : e1000Init bar0 machine = some (some driver, after)) :
    ¬ DescriptorsOk driver after.memory := by
  intro descriptorsOk
  obtain ⟨slot, member, misses⟩ := exists_slot_not_backs holds blocks initialised
  exact misses (descriptorsOk.backs slot member)

end Misses

/-! ### An initialisation at the start of the heap -/

/-- Page `index` from 16 MiB on. -/
def startBlock (index : Nat) : Word := BitVec.ofNat 32 (0x1000000 + 0x1000 * index)

/-- The tables as installed, nothing allocated, and 96 blocks from 16 MiB on. -/
def startMachine : Machine where
  memory := pagingInstall fun _ => 0
  heapPtr := heapStart
  blocks := (List.range 96).map startBlock
  registers := []

theorem startMachine_memory : startMachine.memory = pagingInstall fun _ => 0 := by
  rw [startMachine]

theorem startBlock_toNat {index : Nat} (inRange : index < 96) :
    (startBlock index).toNat = 0x1000000 + 0x1000 * index := by
  rw [startBlock, BitVec.toNat_ofNat]
  omega

theorem frameOf_startBlock {index : Nat} (inRange : index < 96) :
    (frameOf (startBlock index)).toNat = 0x1000 + index := by
  rw [frameOf, BitVec.toNat_setWidth, BitVec.toNat_ushiftRight, startBlock_toNat inRange,
    Nat.shiftRight_eq_div_pow]
  omega

theorem mem_startMachine_blocks {block : Word} :
    block ∈ startMachine.blocks ↔ ∃ index < 96, startBlock index = block := by
  rw [startMachine, List.mem_map]
  simp only [List.mem_range]

theorem startMachine_holds : HeapHolds startMachine.heapPtr := by
  constructor <;> decide

theorem startMachine_pageBlocks : PageBlocks startMachine.blocks := by
  intro block member
  obtain ⟨index, inRange, rfl⟩ := mem_startMachine_blocks.mp member
  have value := startBlock_toNat inRange
  refine ⟨fun zero => ?_, by omega⟩
  rw [zero, show (0 : Word).toNat = 0 from rfl] at value
  omega

theorem startMachine_ready : Ready [] startMachine where
  tables := startMachine_memory ▸ (pagingInstall_refines fun _ => 0).tables
  fresh := by
    intro block member
    rw [List.append_nil] at member
    obtain ⟨index, inRange, rfl⟩ := mem_startMachine_blocks.mp member
    have frame := frameOf_startBlock inRange
    rw [startMachine_memory]
    refine freshBlock_pagingInstall (startMachine_pageBlocks _ member).1 ?_ ?_
    · intro same
      rw [same, show directoryFrame.toNat = 0x90 by decide] at frame
      omega
    · intro same
      rw [same, show firstTableFrame.toNat = 0x91 by decide] at frame
      omega
  distinct := by
    rw [List.append_nil, startMachine, List.map_map]
    refine List.Nodup.map_on ?_ List.nodup_range
    intro first firstIn second secondIn same
    have frames := congrArg BitVec.toNat same
    rw [Function.comp, Function.comp, frameOf_startBlock (List.mem_range.mp firstIn),
      frameOf_startBlock (List.mem_range.mp secondIn)] at frames
    omega

theorem startRegisters_apart : RegistersApart (0xFEBC0000 &&& 0xFFFFFFF0) := by
  constructor <;> decide

theorem startMachine_returns :
    ∃ driver after, e1000Init 0xFEBC0000 startMachine = some (some driver, after) :=
  e1000Init_returns startMachine_ready (by decide) startRegisters_apart startMachine_holds
    (by decide) (by rw [startMachine, List.length_map, List.length_range])

theorem descriptors_never_ok_start :
    ∃ driver after, e1000Init 0xFEBC0000 startMachine = some (some driver, after) ∧
      ¬ DescriptorsOk driver after.memory := by
  obtain ⟨driver, after, initialised⟩ := startMachine_returns
  exact ⟨driver, after, initialised,
    descriptors_never_ok startMachine_holds startMachine_pageBlocks initialised⟩

/-- With the heap's first page for the ring, the buffers start behind it. -/
theorem descriptors_fail :
    ¬ ∀ (bar0 : Word) (machine after : Machine) (driver : E1000),
      HeapHolds machine.heapPtr → PageBlocks machine.blocks → Ready [] machine →
        RegistersApart (bar0 &&& 0xFFFFFFF0) →
          e1000Init bar0 machine = some (some driver, after) → DescriptorsOk driver after.memory := by
  intro always
  obtain ⟨driver, after, initialised⟩ := startMachine_returns
  have descriptorsOk := always _ _ _ _ startMachine_holds startMachine_pageBlocks
    startMachine_ready startRegisters_apart initialised
  obtain ⟨slot, member, misses⟩ :=
    exists_slot_not_backs startMachine_holds startMachine_pageBlocks initialised
  exact misses (descriptorsOk.backs slot member)

end BrainDance.Network
