import BrainDance.Memory.Paging.Frames
import BrainDance.Network.E1000.Model

/-!
Owns that `e1000_init` returns. `Ready` is the invariant: the page tables are in
order and the blocks still to come, and those that hold data, are distinct and
none of them a table. Under it every mapping, descriptor store and register
access of the initialisation goes through, when the rings stay inside their
pages and the registers lie between the heap and the window on the tables.
-/

namespace BrainDance.Network

open BrainDance.Foundation
open BrainDance.Arch
open BrainDance.Memory

/-- The invariant, with the blocks in `data` holding data. -/
structure Ready (data : List Word) (machine : Machine) : Prop where
  tables : TablesOk machine.memory
  fresh : ∀ block ∈ machine.blocks ++ data, FreshBlock machine.memory block
  distinct : ((machine.blocks ++ data).map frameOf).Nodup

/-- The page leads to the block. -/
abbrev Leads (machine : Machine) (page : Nat) (block : Word) : Prop :=
  Memory.translate machine.memory page = some (frameOf block)

/-! ### Mapping -/

section Mapping

variable {machine : Machine} {data : List Word}

theorem hasTable_eq (ok : TablesOk machine.memory) (virtAddr : Word) :
    hasTable machine.memory virtAddr =
      some (decide ((pdeAt machine.memory (pdIdx virtAddr).toNat).present ≠ 0)) := by
  rw [hasTable, ok.readVirtual_directoryEntry (pdIdx_lt virtAddr)]
  rfl

/-- What a mapping leaves: at most one block is gone, and one page is changed. -/
structure Mapped (data : List Word) (machine : Machine) (physAddr virtAddr : Word)
    (after : Machine) : Prop where
  ready : Ready data after
  heapPtr : after.heapPtr = machine.heapPtr
  supply : machine.blocks.length ≤ after.blocks.length + 1
  here : Leads after (pageOf virtAddr) physAddr
  others : ∀ page < 1023 * 1024, page ≠ pageOf virtAddr →
    Memory.translate after.memory page = Memory.translate machine.memory page

/-- A block that is neither a table nor the one just taken is still fresh. -/
theorem freshBlock_of_exec {memory after : Image} {call : MapCall} {block : Word}
    (ok : TablesOk memory) (inRange : call.InRange) (fresh : call.GetsFresh memory)
    (executed : call.exec memory = some after) (blockFresh : FreshBlock memory block)
    (other : (pdeAt memory (pdIdx call.virtAddr).toNat).present = 0 →
      frameOf call.allocated ≠ frameOf block) : FreshBlock after block where
  nonzero := blockFresh.nonzero
  notDirectory := blockFresh.notDirectory
  notFirstTable := blockFresh.notFirstTable
  unused index inTable := by
    rw [ok.pdeAt_exec inRange fresh executed (by omega)]
    split
    · rename_i new
      exact fun _ => other (new.1 ▸ new.2)
    · exact blockFresh.unused index inTable

theorem mapped_of_exec {after : Image} {rest : List Word} {call : MapCall}
    (ready : Ready data machine) (inRange : call.InRange) (present : call.flags &&& ptePresent ≠ 0)
    (fresh : call.GetsFresh machine.memory) (executed : call.exec machine.memory = some after)
    (left : rest <:+ machine.blocks) (supply : machine.blocks.length ≤ rest.length + 1)
    (spared : (pdeAt machine.memory (pdIdx call.virtAddr).toNat).present = 0 →
      ∀ block ∈ rest ++ data, frameOf call.allocated ≠ frameOf block) :
    Mapped data machine call.physAddr call.virtAddr
      { machine with memory := after, blocks := rest } := by
  obtain ⟨after', executed', refines⟩ := ready.tables.refines.step inRange fresh
  rw [executed, Option.some.injEq] at executed'
  subst executed'
  have page : 1024 ≤ pageOf call.virtAddr ∧ pageOf call.virtAddr < 1023 * 1024 :=
    Mappable.page inRange
  have sublist : (rest ++ data).Sublist (machine.blocks ++ data) :=
    left.sublist.append (List.Sublist.refl data)
  refine ⟨⟨refines.tables, ?_, ?_⟩, rfl, supply, ?_, ?_⟩
  · intro block member
    exact freshBlock_of_exec ready.tables inRange fresh executed
      (ready.fresh block (sublist.subset member)) fun absent => spared absent block member
  · exact (sublist.map frameOf).nodup ready.distinct
  · rw [Leads, refines.translates _ page.2, assign, Function.update_self, if_pos present]
  · intro other inMap different
    rw [refines.translates other inMap, assign, Function.update_of_ne different]

theorem mapPage_of_absent (ok : TablesOk machine.memory) {physAddr virtAddr block : Word}
    {rest : List Word} (absent : (pdeAt machine.memory (pdIdx virtAddr).toNat).present = 0)
    (shape : machine.blocks = block :: rest) :
    machine.mapPage physAddr virtAddr =
      (Memory.mapPage machine.memory block physAddr virtAddr (ptePresent ||| pteRw)).map
        fun memory => { machine with memory := memory, blocks := rest } := by
  unfold Machine.mapPage Machine.takeBlock
  rw [hasTable_eq ok, decide_eq_false (not_not.mpr absent), shape]
  simp only [Option.bind_eq_bind, Option.bind_some, Bool.false_eq_true, if_false]
  cases Memory.mapPage machine.memory block physAddr virtAddr (ptePresent ||| pteRw) <;> rfl

theorem mapPage_of_present (ok : TablesOk machine.memory) {physAddr virtAddr : Word}
    (present : (pdeAt machine.memory (pdIdx virtAddr).toNat).present ≠ 0) :
    machine.mapPage physAddr virtAddr =
      (Memory.mapPage machine.memory 0 physAddr virtAddr (ptePresent ||| pteRw)).map fun memory =>
        { machine with memory := memory } := by
  unfold Machine.mapPage
  rw [hasTable_eq ok, decide_eq_true present]
  simp only [Option.bind_eq_bind, Option.bind_some, if_true]
  cases Memory.mapPage machine.memory 0 physAddr virtAddr (ptePresent ||| pteRw) <;> rfl

/-- A mapping goes through while a block is left for its table. -/
theorem Ready.mapPage (ready : Ready data machine) {virtAddr : Word} (physAddr : Word)
    (mappable : Mappable virtAddr) (supply : machine.blocks ≠ []) :
    ∃ after, machine.mapPage physAddr virtAddr = some after ∧
      Mapped data machine physAddr virtAddr after := by
  have present : (ptePresent ||| pteRw) &&& ptePresent ≠ 0 := by decide
  let call (allocated : Word) : MapCall := ⟨physAddr, virtAddr, ptePresent ||| pteRw, allocated⟩
  have inRange : ∀ allocated, (call allocated).InRange := fun _ => mappable
  by_cases absent : (pdeAt machine.memory (pdIdx virtAddr).toNat).present = 0
  · obtain ⟨block, rest, shape⟩ := List.exists_cons_of_ne_nil supply
    have fresh : (call block).GetsFresh machine.memory :=
      fun _ => ready.fresh block (by rw [shape]; simp)
    obtain ⟨memory, executed, _⟩ := ready.tables.refines.step (inRange block) fresh
    refine ⟨{ machine with memory := memory, blocks := rest }, ?_, ?_⟩
    · rw [mapPage_of_absent ready.tables absent shape]
      exact Option.map_eq_some_iff.mpr ⟨memory, executed, rfl⟩
    · refine mapped_of_exec ready (inRange block) present fresh executed (by rw [shape]; simp)
        (by rw [shape]; simp) fun _ other member same => ?_
      have distinct := ready.distinct
      rw [shape, List.cons_append, List.map_cons, List.nodup_cons] at distinct
      exact distinct.1 (List.mem_map.mpr ⟨other, member, same.symm⟩)
  · have fresh : (call 0).GetsFresh machine.memory := fun none => absurd none absent
    obtain ⟨memory, executed, _⟩ := ready.tables.refines.step (inRange 0) fresh
    refine ⟨{ machine with memory := memory }, ?_, ?_⟩
    · rw [mapPage_of_present ready.tables absent]
      exact Option.map_eq_some_iff.mpr ⟨memory, executed, rfl⟩
    · exact mapped_of_exec ready (inRange 0) present fresh executed List.suffix_rfl (by omega)
        fun none => absurd none absent

end Mapping

/-! ### Registers -/

section Registers

variable {machine : Machine} {data : List Word} {mmioBase : Word}

/-- The pages of the registers are mapped. -/
def RegistersMapped (mmioBase : Word) (memory : Image) : Prop :=
  ∀ page < 16, ∃ frame, Memory.translate memory (pageOf mmioBase + page) = some frame

/-- The registers lie between the heap and the window on the tables. -/
def RegistersApart (mmioBase : Word) : Prop :=
  0x800000 ≤ mmioBase.toNat ∧ mmioBase.toNat + 0x10000 ≤ 0xFFC00000

theorem mapRegisters_returns (ready : Ready data machine) (apart : RegistersApart mmioBase)
    {count : Nat} (within : count ≤ 16) (supply : count ≤ machine.blocks.length) :
    ∃ after, mapRegisters mmioBase count machine = some after ∧ Ready data after ∧
      after.heapPtr = machine.heapPtr ∧ machine.blocks.length ≤ after.blocks.length + count ∧
        ∀ page < count, ∃ frame,
          Memory.translate after.memory (pageOf mmioBase + page) = some frame := by
  obtain ⟨above, below⟩ := apart
  induction count with
  | zero => exact ⟨machine, rfl, ready, rfl, le_rfl, fun _ none => absurd none (Nat.not_lt_zero _)⟩
  | succ count inductionHypothesis =>
      obtain ⟨middle, earlier, readyMiddle, heapPtr, left, mapped⟩ :=
        inductionHypothesis (by omega) (by omega)
      have address : (mmioBase + BitVec.ofNat 32 count * 0x1000).toNat =
          mmioBase.toNat + 4096 * count := by
        rw [BitVec.toNat_add, BitVec.toNat_mul, BitVec.toNat_ofNat,
          show (0x1000 : Word).toNat = 4096 from rfl]
        omega
      have page : pageOf (mmioBase + BitVec.ofNat 32 count * 0x1000) = pageOf mmioBase + count := by
        rw [pageOf, pageOf, address]
        omega
      obtain ⟨after, done, result⟩ := readyMiddle.mapPage
        (mmioBase + BitVec.ofNat 32 count * 0x1000)
        (show Mappable (mmioBase + BitVec.ofNat 32 count * 0x1000) by
          rw [Mappable, address]; omega)
        (List.ne_nil_of_length_pos (by omega))
      have inMap : pageOf mmioBase + 16 ≤ 1023 * 1024 := by
        rw [pageOf]
        omega
      refine ⟨after, Option.bind_eq_some_iff.mpr ⟨middle, earlier, done⟩, result.ready,
        result.heapPtr.trans heapPtr, ?_, ?_⟩
      · have := result.supply
        omega
      · intro other inPages
        by_cases last : other = count
        · subst last
          exact ⟨_, page ▸ result.here⟩
        · rw [result.others _ (by omega) (by omega)]
          exact mapped other (by omega)

/-- A register access stays on the mapped pages. -/
theorem RegistersMapped.walk (mapped : RegistersMapped mmioBase machine.memory)
    (apart : RegistersApart mmioBase) {offset : Word} (inPages : offset.toNat < 0xF000) :
    ∃ physical, walk machine.memory directoryFrame (mmioBase + offset) = some physical := by
  obtain ⟨above, below⟩ := apart
  have address : (mmioBase + offset).toNat = mmioBase.toNat + offset.toNat := by
    rw [BitVec.toNat_add]
    omega
  obtain ⟨frame, found⟩ := mapped (pageOf (mmioBase + offset) - pageOf mmioBase) (by
    rw [pageOf, pageOf, address]
    omega)
  have page : pageOf mmioBase + (pageOf (mmioBase + offset) - pageOf mmioBase) =
      pageOf (mmioBase + offset) := by
    rw [pageOf, pageOf, address]
    omega
  rw [page] at found
  rw [walk_eq_translate, found]
  exact ⟨_, rfl⟩

theorem e1000Write_returns (mapped : RegistersMapped mmioBase machine.memory)
    (apart : RegistersApart mmioBase) {offset : Word} (inPages : (4 * (offset / 4)).toNat < 0xF000)
    (value : Word) :
    e1000Write mmioBase offset value machine =
      some { machine with registers := machine.registers ++ [(offset, value)] } := by
  obtain ⟨physical, reached⟩ := mapped.walk apart inPages
  rw [e1000Write, reached]
  rfl

/-- All registers of the ring lie on the mapped pages. -/
structure RingRegisters.InPages (registers : RingRegisters) : Prop where
  bal : (4 * (registers.bal / 4)).toNat < 0xF000
  bah : (4 * (registers.bah / 4)).toNat < 0xF000
  len : (4 * (registers.len / 4)).toNat < 0xF000
  head : (4 * (registers.head / 4)).toNat < 0xF000
  tail : (4 * (registers.tail / 4)).toNat < 0xF000
  control : (4 * (registers.control / 4)).toNat < 0xF000

theorem startRing_returns (ok : TablesOk machine.memory)
    (mapped : RegistersMapped mmioBase machine.memory) (apart : RegistersApart mmioBase)
    {registers : RingRegisters} (inPages : registers.InPages) (ring length tail control : Word) :
    ∃ written, startRing mmioBase registers ring length tail control machine =
      some { machine with registers := written } := by
  unfold startRing
  rw [ok.getPhysAddr_eq]
  simp only [Option.bind_eq_bind, Option.bind_some, e1000Write_returns mapped apart inPages.bal,
    ok.getPhysAddr_eq]
  rw [e1000Write_returns (by exact mapped) apart inPages.bah, Option.bind_some,
    e1000Write_returns (by exact mapped) apart inPages.len, Option.bind_some,
    e1000Write_returns (by exact mapped) apart inPages.head, Option.bind_some,
    e1000Write_returns (by exact mapped) apart inPages.tail, Option.bind_some,
    e1000Write_returns (by exact mapped) apart inPages.control]
  exact ⟨_, rfl⟩

end Registers

/-! ### Descriptors -/

section Stores

variable {memory : Image} {block : Word}

theorem storeVirtual_returns {address : Word}
    (leads : Memory.translate memory (pageOf address) = some (frameOf block))
    (inPage : address.toNat % 4096 + 4 ≤ 4096) (word : Word) :
    ∃ written, storeVirtual memory directoryFrame address word = some written ∧
      SameOutside memory block written := by
  have reached := walk_eq_translate memory address
  rw [leads, Option.map_some, pageOffset_eq] at reached
  rw [storeVirtual, reached, Option.map_some]
  refine ⟨_, rfl, fun offset outside => ?_⟩
  simp only [pageSize] at outside ⊢
  exact blit_outside _ _ (by omega)

theorem memsetVirtual_returns {address : Word}
    (leads : Memory.translate memory (pageOf address) = some (frameOf block)) (value : Byte) :
    ∃ written, memsetVirtual memory directoryFrame address value 1 = some written ∧
      SameOutside memory block written := by
  have reached := walk_eq_translate memory address
  rw [leads, Option.map_some, pageOffset_eq] at reached
  rw [memsetVirtual, memsetVirtual, Option.bind_some, BitVec.add_zero, reached,
    Option.map_some]
  refine ⟨_, rfl, fun offset outside => Function.update_of_ne ?_ _ _⟩
  simp only [pageSize] at outside ⊢
  omega

theorem storeDescriptor_returns (fresh : FreshBlock memory block) {descriptor clearedAt : Word}
    (leads : Memory.translate memory (pageOf descriptor) = some (frameOf block))
    (inMap : pageOf descriptor < 1023 * 1024) (inPage : descriptor.toNat % 4096 + 16 ≤ 4096)
    (inDescriptor : clearedAt.toNat < 16) (physAddr : Word) :
    ∃ written, storeDescriptor memory descriptor physAddr clearedAt = some written ∧
      SameOutside memory block written := by
  have limit := descriptor.isLt
  have high : (descriptor + 4).toNat = descriptor.toNat + 4 := by
    rw [BitVec.toNat_add, show (4 : Word).toNat = 4 from rfl]
    omega
  have cleared : (descriptor + clearedAt).toNat = descriptor.toNat + clearedAt.toNat := by
    rw [BitVec.toNat_add]
    omega
  have highPage : pageOf (descriptor + 4) = pageOf descriptor := by
    rw [pageOf, pageOf, high]
    omega
  have clearedPage : pageOf (descriptor + clearedAt) = pageOf descriptor := by
    rw [pageOf, pageOf, cleared]
    omega
  obtain ⟨first, firstDone, firstSame⟩ := storeVirtual_returns leads (by omega) physAddr
  obtain ⟨second, secondDone, secondSame⟩ := @storeVirtual_returns first block (descriptor + 4)
    (by rw [highPage, firstSame.otherPage fresh inMap, leads]) (by omega) (pointerHigh physAddr)
  have bothSame := firstSame.trans secondSame
  obtain ⟨third, thirdDone, thirdSame⟩ := @memsetVirtual_returns second block
    (descriptor + clearedAt) (by rw [clearedPage, bothSame.otherPage fresh inMap, leads]) 0
  refine ⟨third, ?_, bothSame.trans thirdSame⟩
  exact Option.bind_eq_some_iff.mpr ⟨first, firstDone,
    Option.bind_eq_some_iff.mpr ⟨second, secondDone, thirdDone⟩⟩

end Stores

/-! ### Rings -/

section Rings

variable {machine : Machine} {data : List Word}

/-- A write to a block of data keeps the invariant. -/
theorem Ready.write (ready : Ready data machine) {block : Word} (member : block ∈ data)
    {written : Image} (same : SameOutside machine.memory block written) :
    Ready data { machine with memory := written } := by
  have fresh := ready.fresh block (List.mem_append_right _ member)
  exact ⟨same.tablesOk fresh ready.tables, fun other otherMember =>
    same.freshBlock fresh (ready.fresh other otherMember), ready.distinct⟩

/-- The heap and the registers do not matter to it. -/
theorem Ready.congr (ready : Ready data machine) {heapPtr : Word}
    {registers : List (Word × Word)} :
    Ready data { machine with heapPtr := heapPtr, registers := registers } :=
  ⟨ready.tables, ready.fresh, ready.distinct⟩

/-- The block taken becomes a block of data. -/
theorem Ready.takeBlock (ready : Ready data machine) {block : Word} {rest : List Word}
    (shape : machine.blocks = block :: rest) :
    Ready (block :: data) { machine with blocks := rest } := by
  have moved : (rest ++ block :: data).Perm (machine.blocks ++ data) := by
    rw [shape]
    exact List.perm_middle
  refine ⟨ready.tables, fun other member => ready.fresh other (moved.subset member), ?_⟩
  exact (moved.map frameOf).nodup_iff.mpr ready.distinct

/-- Some block of data is what the page leads to. -/
def LeadsToData (data : List Word) (machine : Machine) (page : Nat) : Prop :=
  ∃ block ∈ data, Leads machine page block

/-- What rounds of a ring's loop leave: the buffers are taken from the heap, and
the pages outside them keep their translation. -/
structure Filled (data : List Word) (machine : Machine) (count : Nat) (after : Machine) : Prop where
  ready : ∃ dataAfter, Ready dataAfter after ∧
    (0 < count → LeadsToData dataAfter after (pageOf machine.heapPtr))
  heapPtr : after.heapPtr.toNat = machine.heapPtr.toNat + 4096 * count
  supply : machine.blocks.length ≤ after.blocks.length + 2 * count
  others : ∀ page < 1023 * 1024,
    page < pageOf machine.heapPtr ∨ pageOf machine.heapPtr + count ≤ page →
      Memory.translate after.memory page = Memory.translate machine.memory page

/-- A round goes through when the ring's page is the buffer's or leads to data. -/
theorem fillSlot_returns (ready : Ready data machine) {ring clearedAt : Word} {index : Nat}
    {page : Nat} (supply : 2 ≤ machine.blocks.length)
    (inHeap : 0x400000 ≤ machine.heapPtr.toNat ∧ machine.heapPtr.toNat + 4096 ≤ 0x800000)
    (inDescriptor : clearedAt.toNat < 16)
    (descriptorPage : pageOf (ring + BitVec.ofNat 32 index * descSize) = page)
    (inMap : page < 1023 * 1024)
    (inPage : (ring + BitVec.ofNat 32 index * descSize).toNat % 4096 + 16 ≤ 4096)
    (reached : page = pageOf machine.heapPtr ∨ LeadsToData data machine page) :
    ∃ slot after dataAfter, fillSlot ring clearedAt index machine = some (slot, after) ∧
      Ready dataAfter after ∧ LeadsToData dataAfter after page ∧
        after.heapPtr.toNat = machine.heapPtr.toNat + 4096 ∧
          machine.blocks.length ≤ after.blocks.length + 2 ∧
            ∀ other < 1023 * 1024, other ≠ pageOf machine.heapPtr →
              Memory.translate after.memory other = Memory.translate machine.memory other := by
  obtain ⟨block, rest, shape⟩ :=
    List.exists_cons_of_length_pos (show 0 < machine.blocks.length by omega)
  have left : machine.blocks.length = rest.length + 1 := by rw [shape, List.length_cons]
  have size : (4096 : Word).toNat = 4096 := rfl
  have allocated := @kmalloc_of_fits machine.heapPtr 4096 (by omega)
  have readyTaken : Ready (block :: data)
      { machine with blocks := rest, heapPtr := machine.heapPtr + 4096 } :=
    (ready.takeBlock shape).congr
  obtain ⟨mapped, mapping, result⟩ := readyTaken.mapPage block
    (show Mappable machine.heapPtr from ⟨inHeap.1, by omega⟩)
    (List.ne_nil_of_length_pos (show 0 < rest.length by omega))
  have leads : LeadsToData (block :: data) mapped page := by
    by_cases here : page = pageOf machine.heapPtr
    · exact ⟨block, List.mem_cons_self, here ▸ result.here⟩
    · obtain ⟨other, member, otherLeads⟩ := reached.resolve_left here
      exact ⟨other, List.mem_cons_of_mem _ member, (result.others page inMap here).trans otherLeads⟩
  obtain ⟨target, member, targetLeads⟩ := leads
  have fresh := result.ready.fresh target (List.mem_append_right _ member)
  obtain ⟨written, stored, same⟩ := storeDescriptor_returns fresh
    (descriptorPage ▸ targetLeads) (descriptorPage ▸ inMap) inPage inDescriptor block
  refine ⟨⟨machine.heapPtr, block⟩, { mapped with memory := written }, block :: data, ?_,
    result.ready.write member same, ⟨target, member, ?_⟩, ?_, ?_, ?_⟩
  · refine Option.bind_eq_some_iff.mpr ⟨(block, { machine with blocks := rest }), ?_, ?_⟩
    · rw [Machine.takeBlock, shape]
    · dsimp only
      rw [allocated]
      exact Option.bind_eq_some_iff.mpr ⟨mapped, mapping,
        Option.bind_eq_some_iff.mpr ⟨written, stored, rfl⟩⟩
  · exact (same.otherPage fresh inMap).trans targetLeads
  · rw [show ({ mapped with memory := written } : Machine).heapPtr = mapped.heapPtr from rfl,
      result.heapPtr, BitVec.toNat_add, size]
    omega
  · have := result.supply
    dsimp only at this ⊢
    omega
  · intro other otherInMap different
    exact (same.otherPage fresh otherInMap).trans (result.others other otherInMap different)

/-- All rounds go through when the ring lies in the page of the first buffer. -/
theorem fillRing_returns (ready : Ready data machine) {ring clearedAt : Word} {count : Nat}
    (supply : 2 * count ≤ machine.blocks.length)
    (inHeap : 0x400000 ≤ machine.heapPtr.toNat ∧ machine.heapPtr.toNat + 4096 * count ≤ 0x800000)
    (inDescriptor : clearedAt.toNat < 16) (inPage : ring.toNat % 4096 + 16 * count ≤ 4096)
    (samePage : pageOf ring = pageOf machine.heapPtr) :
    ∃ slots after, fillRing ring clearedAt count machine = some (slots, after) ∧
      Filled data machine count after := by
  induction count with
  | zero =>
      exact ⟨[], machine, rfl, ⟨data, ready, fun none => absurd none (Nat.not_lt_zero 0)⟩, rfl,
        le_rfl, fun _ _ _ => rfl⟩
  | succ count inductionHypothesis =>
      obtain ⟨slots, middle, earlier, filled⟩ :=
        inductionHypothesis (by omega) ⟨inHeap.1, by omega⟩ (by omega)
      obtain ⟨dataMiddle, readyMiddle, reached⟩ := filled.ready
      have position := filled.heapPtr
      have left := filled.supply
      have limit := ring.isLt
      have descriptor : (ring + BitVec.ofNat 32 count * descSize).toNat =
          ring.toNat + 16 * count := by
        rw [BitVec.toNat_add, BitVec.toNat_mul, BitVec.toNat_ofNat,
          show descSize.toNat = 16 from rfl]
        omega
      have descriptorPage : pageOf (ring + BitVec.ofNat 32 count * descSize) =
          pageOf machine.heapPtr := by
        rw [← samePage, pageOf, pageOf, descriptor]
        omega
      have bufferPage : pageOf middle.heapPtr = pageOf machine.heapPtr + count := by
        rw [pageOf, pageOf, position]
        omega
      have inMap : pageOf machine.heapPtr < 1023 * 1024 := by
        rw [pageOf]
        omega
      obtain ⟨slot, after, dataAfter, done, readyAfter, leads, heapPtr, supplied, others⟩ :=
        fillSlot_returns readyMiddle (by omega) ⟨by omega, by omega⟩ inDescriptor descriptorPage
          inMap (by rw [descriptor]; omega) (by
            rcases Nat.eq_zero_or_pos count with none | positive
            · exact Or.inl (by rw [bufferPage, none, Nat.add_zero])
            · exact Or.inr (reached positive))
      refine ⟨slots ++ [slot], after, ?_, ⟨dataAfter, readyAfter, fun _ => leads⟩, ?_, ?_, ?_⟩
      · exact Option.bind_eq_some_iff.mpr ⟨(slots, middle), earlier,
          Option.bind_eq_some_iff.mpr ⟨(slot, after), done, rfl⟩⟩
      · rw [heapPtr, position, Nat.mul_succ, Nat.add_assoc]
      · omega
      · intro page pageInMap apart
        rw [others page pageInMap (by omega), filled.others page pageInMap (by omega)]

/-- What setting up a ring leaves. -/
structure RingSetUp (machine : Machine) (count : Nat) (after : Machine) : Prop where
  ready : ∃ data, Ready data after
  heapPtr : after.heapPtr.toNat = (alignUp machine.heapPtr 16).toNat + count * (16 + 4096)
  supply : machine.blocks.length ≤ after.blocks.length + 2 * count
  others : ∀ page < 1023 * 1024, 0x800 ≤ page →
    Memory.translate after.memory page = Memory.translate machine.memory page

theorem setUpRing_returns (ready : Ready data machine) {clearedAt : Word} {count : Nat}
    (supply : 2 * count ≤ machine.blocks.length) (inHeap : 0x400000 ≤ machine.heapPtr.toNat)
    (aligned : machine.heapPtr.toNat ≤ (alignUp machine.heapPtr 16).toNat)
    (fits : (alignUp machine.heapPtr 16).toNat + count * (16 + 4096) ≤ 0x800000)
    (inDescriptor : clearedAt.toNat < 16)
    (inPage : (alignUp machine.heapPtr 16).toNat % 4096 + 16 * count < 4096) :
    ∃ ring after, setUpRing count clearedAt machine = some (ring, after) ∧
      RingSetUp machine count after := by
  have size : (descSize * BitVec.ofNat 32 count).toNat = 16 * count := by
    rw [BitVec.toNat_mul, BitVec.toNat_ofNat, show descSize.toNat = 16 from rfl]
    omega
  have allocated := @allocAligned_of_fits machine.heapPtr (descSize * BitVec.ofNat 32 count) 16
    (by omega)
  have start : (alignUp machine.heapPtr 16 + descSize * BitVec.ofNat 32 count).toNat =
      (alignUp machine.heapPtr 16).toNat + 16 * count := by
    rw [BitVec.toNat_add, size]
    omega
  have readyCarved : Ready data { machine with
      heapPtr := alignUp machine.heapPtr 16 + descSize * BitVec.ofNat 32 count } := ready.congr
  have samePage : pageOf (alignUp machine.heapPtr 16) =
      pageOf (alignUp machine.heapPtr 16 + descSize * BitVec.ofNat 32 count) := by
    rw [pageOf, pageOf, start]
    omega
  have buffersFit : 0x400000 ≤ (alignUp machine.heapPtr 16 +
      descSize * BitVec.ofNat 32 count).toNat ∧ (alignUp machine.heapPtr 16 +
        descSize * BitVec.ofNat 32 count).toNat + 4096 * count ≤ 0x800000 := by
    rw [start]
    omega
  obtain ⟨slots, after, filled, result⟩ := fillRing_returns readyCarved supply
    buffersFit inDescriptor (by omega) samePage
  refine ⟨⟨alignUp machine.heapPtr 16, slots⟩, after, ?_, ?_, ?_, result.supply, ?_⟩
  · rw [setUpRing]
    dsimp only
    rw [allocated]
    exact Option.bind_eq_some_iff.mpr ⟨(slots, after), filled, rfl⟩
  · obtain ⟨dataAfter, readyAfter, _⟩ := result.ready
    exact ⟨dataAfter, readyAfter⟩
  · have heapPtr := result.heapPtr
    dsimp only at heapPtr
    rw [heapPtr, start]
    omega
  · intro page inMap behind
    exact result.others page inMap (Or.inr (by
      dsimp only
      rw [pageOf, start]
      omega))

end Rings

/-! ### Initialisation -/

/-- `heap_ptr` is inside the heap and both rings and all buffers fit behind it. -/
structure HeapHolds (heapPtr : Word) : Prop where
  inHeap : 0x400000 ≤ heapPtr.toNat ∧ heapPtr.toNat ≤ 0x800000
  fits : (alignUp heapPtr 16).toNat + (32 + 8) * (16 + 4096) ≤ 0x800000

section Initialisation

variable {machine : Machine} {mmioBase : Word}

theorem RegistersMapped.setUpRing {after : Machine} {count : Nat}
    (mapped : RegistersMapped mmioBase machine.memory) (apart : RegistersApart mmioBase)
    (result : RingSetUp machine count after) : RegistersMapped mmioBase after.memory := by
  obtain ⟨above, below⟩ := apart
  intro page inPages
  obtain ⟨frame, leads⟩ := mapped page inPages
  have position : 0x800 ≤ pageOf mmioBase ∧ pageOf mmioBase + 16 ≤ 1023 * 1024 := by
    rw [pageOf]
    omega
  exact ⟨frame, (result.others _ (by omega) (by omega)).trans leads⟩

theorem rxRegisters_inPages : rxRegisters.InPages := by
  constructor <;> decide

theorem txRegisters_inPages : txRegisters.InPages := by
  constructor <;> decide

/-- With the rings inside their pages and a block for every mapping, the driver
is initialised. -/
theorem e1000Init_returns {bar0 : Word} {data : List Word} (ready : Ready data machine)
    (memoryBar : bar0 &&& 1 = 0) (apart : RegistersApart (bar0 &&& 0xFFFFFFF0))
    (holds : HeapHolds machine.heapPtr)
    (inPage : (alignUp machine.heapPtr 16).toNat % 4096 + 640 < 4096)
    (supply : 96 ≤ machine.blocks.length) :
    ∃ driver after, e1000Init bar0 machine = some (some driver, after) := by
  have heapStart := holds.inHeap
  have fits := holds.fits
  rw [alignUp_toNat heapStart.2] at fits inPage
  obtain ⟨mapped, mapping, readyMapped, mappedHeap, mappedLeft, pages⟩ :=
    @mapRegisters_returns _ _ _ ready apart 16 le_rfl (by omega)
  have registersMapped : RegistersMapped (bar0 &&& 0xFFFFFFF0) mapped.memory := pages
  obtain ⟨status, reached⟩ := registersMapped.walk apart (show (8 : Word).toNat < 0xF000 by decide)
  have rxStart : (alignUp mapped.heapPtr 16).toNat = (machine.heapPtr.toNat + 15) / 16 * 16 := by
    rw [mappedHeap, alignUp_toNat heapStart.2]
  obtain ⟨rx, withRx, rxDone, rxResult⟩ := @setUpRing_returns mapped data readyMapped rxStatusAt 32
    (by omega) (by rw [mappedHeap]; exact heapStart.1) (by rw [rxStart, mappedHeap]; omega)
    (by omega) (by decide) (by omega)
  obtain ⟨rxData, readyRx⟩ := rxResult.ready
  have mappedRx := registersMapped.setUpRing apart rxResult
  obtain ⟨rxWritten, rxStarted⟩ := startRing_returns readyRx.tables mappedRx apart
    rxRegisters_inPages rx.base (BitVec.ofNat 32 rxDescCount * descSize)
    (BitVec.ofNat 32 rxDescCount - 1) rctl
  have rxEnd := rxResult.heapPtr
  have rxLeft := rxResult.supply
  have txStart : (alignUp withRx.heapPtr 16).toNat = withRx.heapPtr.toNat := by
    rw [alignUp_toNat (by omega)]
    omega
  have readyTx : Ready rxData { withRx with registers := rxWritten } := readyRx.congr
  obtain ⟨tx, withTx, txDone, txResult⟩ := @setUpRing_returns
    { withRx with registers := rxWritten } rxData readyTx txCmdAt 8
    (by dsimp only; omega) (by dsimp only; omega) (by dsimp only; omega)
    (by dsimp only; omega) (by decide) (by dsimp only; omega)
  obtain ⟨txData, readyWithTx⟩ := txResult.ready
  obtain ⟨txWritten, txStarted⟩ := startRing_returns readyWithTx.tables
    (RegistersMapped.setUpRing (by exact mappedRx) apart txResult) apart
    txRegisters_inPages tx.base (BitVec.ofNat 32 txDescCount * descSize) 0 tctl
  refine ⟨⟨bar0 &&& 0xFFFFFFF0, rx, tx⟩, { withTx with registers := txWritten }, ?_⟩
  rw [e1000Init, if_neg (not_not.mpr memoryBar)]
  exact Option.bind_eq_some_iff.mpr ⟨mapped, mapping, Option.bind_eq_some_iff.mpr ⟨status, reached,
    Option.bind_eq_some_iff.mpr ⟨(rx, withRx), rxDone, Option.bind_eq_some_iff.mpr
      ⟨{ withRx with registers := rxWritten }, rxStarted, Option.bind_eq_some_iff.mpr
        ⟨(tx, withTx), txDone, Option.bind_eq_some_iff.mpr
          ⟨{ withTx with registers := txWritten }, txStarted, rfl⟩⟩⟩⟩⟩⟩

end Initialisation

end BrainDance.Network
