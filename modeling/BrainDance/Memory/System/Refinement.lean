import BrainDance.Memory.System.Sound

/-!
Owns the refinement of the manager by the memory system, over every run from `pmm_init`
and `paging_install` on: the start is in the relation where the bitmap is kept, and the
manager follows every step.
-/

namespace BrainDance.Memory

open BrainDance.Foundation
open BrainDance.Arch

/-! ### The start -/

section Runs

variable {kernelEnd : Word}

/-- `pmm_init` leaves the allocator ready exactly when kernel end and map let it. -/
theorem pmmReady_iff_bitmapKept {fuel : Nat} {memory : Image} {mmap : List E820Entry} {pmm : Pmm}
    (initialised : pmmInit fuel memory kernelEnd mmap = some pmm) :
    PmmReady kernelEnd pmm ↔ BitmapKept kernelEnd mmap := by
  obtain ⟨_, bits, total, _⟩ := pmmInit_eq_some initialised
  have searchedTotal : pmm.searched = 32 * ((totalBlocksOf mmap).toNat / 32) := by
    rw [Pmm.searched, total]
  have bytes : (bitmapSizeOf mmap).toNat = (totalBlocksOf mmap).toNat / 8 := BitVec.toNat_udiv
  have clear : ∀ block < pmm.searched, (pmm.bit block = false ↔
      reservedBlocks kernelEnd mmap ≤ block ∧ Released mmap block) := by
    intro block searched
    rw [bits, ClearBeforeMarking, or_iff_left fun past => absurd past.1 (by omega)]
  have endBelow : searchedEnd kernelEnd (totalBlocksOf mmap) ≤ 0x400000 →
      searchedEnd kernelEnd (totalBlocksOf mmap) / 4096 ≤ reservedBlocks kernelEnd mmap := by
    intro low
    rw [searchedEnd] at low ⊢
    rw [reservedBlocks, kernelAndBitmapBlocks, BitVec.toNat_udiv, BitVec.toNat_add, bytes,
      show blockSize.toNat = 4096 from rfl, Nat.mod_eq_of_lt (by omega)]
    omega
  constructor
  · intro ready
    have low := ready.low
    have small := ready.small
    rw [total] at low small
    refine ⟨ready.above, low, small, ?_⟩
    rw [or_iff_not_imp_left, Nat.not_le, ← searchedTotal]
    rintro below ⟨searched, released⟩
    have marked := ready.guarded _ searched (by rw [total]; omega)
    rw [(clear _ searched).mpr ⟨by omega, released⟩] at marked
    contradiction
  · rintro ⟨above, low, small, tail⟩
    rw [← searchedTotal] at tail
    refine ⟨above, by rw [total]; exact low, by rw [total]; exact small, ?_⟩
    intro block searched below
    rw [total] at below
    by_contra unmarked
    rw [Bool.not_eq_true, clear block searched] at unmarked
    have blockEnd := endBelow low
    rcases tail with covered | kept
    · omega
    · refine kept ?_
      rw [show searchedEnd kernelEnd (totalBlocksOf mmap) / 4096 = block by omega]
      exact ⟨searched, unmarked.2⟩

/-- `paging_install` and what writes below the kernel leave the allocator as `pmm_init`
made it. -/
theorem pmm_pagingInstall {booted : Ram} {unpaged : Image} (above : 0x100000 ≤ kernelEnd.toNat)
    (kept : ∀ address, kernelEnd.toNat ≤ address → unpaged address = booted.memory address) :
    Ram.pmm kernelEnd { booted with memory := pagingInstall unpaged } = booted.pmm kernelEnd := by
  simp only [Ram.pmm, Pmm.mk.injEq, and_self, and_true]
  funext offset
  rw [pagingInstall_outside _ (by omega), kept _ (by omega)]

/-- The allocator that `pmm_init` leaves in the machine's memory. -/
theorem bootRam_pmm {fuel : Nat} {memory : Image} {mmap : List E820Entry} {booted : Ram}
    (boots : bootRam fuel memory kernelEnd mmap = some booted) :
    pmmInit fuel (fun offset => memory (kernelEnd.toNat + offset)) kernelEnd mmap =
      some (booted.pmm kernelEnd) := by
  obtain ⟨pmm, initialised, rfl⟩ := Option.map_eq_some_iff.mp boots
  rw [Ram.withPmm_pmm]
  exact initialised

theorem Sound.start {mmap : List E820Entry} {client : MemoryClient}
    (kept : BitmapKept kernelEnd mmap) (initial : (memorySystem kernelEnd mmap).Init client)
    (contents : Word → Nat → Byte) : Sound kernelEnd client ⟨∅, contents, identityPages⟩ := by
  obtain ⟨fuel, memory, booted, unpaged, boots, same, rfl⟩ := initial
  refine ⟨?_, ?_, fun _ _ => rfl, ?_, rfl, ?_, ?_⟩
  · rw [pmm_pagingInstall kept.above same]
    exact (pmmReady_iff_bitmapKept (bootRam_pmm boots)).mpr kept
  · dsimp only
    exact pagingInstall_refines unpaged
  · intro index positive inTable present
    dsimp only at present
    have first := present_pagingInstall inTable present
    omega
  · exact fun block member => absurd member (Finset.notMem_empty block)
  · exact fun block member => absurd member (Finset.notMem_empty block)

/-! ### Steps -/

/-- Callers reach a block's bytes exactly where its page was last mapped to the block. -/
theorem Sound.reaches_iff {client : MemoryClient} {state : Manager}
    (sound : Sound kernelEnd client state) (virtAddr block : Word) (offset : Nat) :
    client.Reaches virtAddr block offset ↔
      state.Reaches virtAddr block ∧ offset = pageOffset virtAddr := by
  have inPage : pageOffset virtAddr < 4096 := by
    rw [pageOffset_eq]
    exact Nat.mod_lt _ (by decide)
  have inMap : virtAddr.toNat < 0xFFC00000 → pageOf virtAddr < 1023 * 1024 := by
    rw [pageOf]
    omega
  unfold MemoryClient.Reaches Manager.Reaches
  rw [sound.held, walk_eq_translate]
  constructor
  · rintro ⟨below, member, inBlock, walked⟩
    have aligned := (sound.blocks block member).1
    rw [sound.pages.translates _ (inMap below)] at walked
    obtain ⟨frame, mapped, place⟩ := Option.map_eq_some_iff.mp walked
    rw [pageSize] at place
    have same : frame = frameOf block := by
      apply BitVec.eq_of_toNat_eq
      rw [frameOf_toNat]
      omega
    exact ⟨⟨below, member, by rw [mapped, same]⟩, by omega⟩
  · rintro ⟨⟨below, member, mapped⟩, rfl⟩
    have aligned := (sound.blocks block member).1
    refine ⟨below, member, inPage, ?_⟩
    rw [sound.pages.translates _ (inMap below), mapped, Option.map_some, frameOf_toNat, pageSize,
      Nat.mul_div_cancel' (Nat.dvd_of_mod_eq_zero aligned)]

/-- Addresses of the first 4 MiB lead to themselves. -/
theorem Sound.walk_low {client : MemoryClient} {state : Manager}
    (sound : Sound kernelEnd client state) {virtAddr : Word} (low : virtAddr.toNat < 0x400000) :
    walk client.ram.memory directoryFrame virtAddr = some virtAddr.toNat := by
  have inTable : pageOf virtAddr < 1024 := by
    rw [pageOf]
    omega
  rw [walk_eq_translate, sound.pages.translates _ (by omega), sound.identity _ inTable,
    identityPages, if_pos inTable, Option.map_some, Option.some.injEq, pageOffset_eq,
    BitVec.toNat_ofNat, pageSize, pageOf]
  omega

/-- `map_page` with its table: what it does, and that only a failed allocation stops it. -/
theorem Sound.mapPage {client : MemoryClient} {state : Manager}
    (sound : Sound kernelEnd client state) (physAddr flags : Word) {virtAddr : Word}
    (mappable : Mappable virtAddr) :
    (client.ram.mapPage kernelEnd physAddr virtAddr flags = none ∧
        (pdeAt client.ram.memory (pdIdx virtAddr).toNat).present = 0 ∧
          (client.ram.allocBlock kernelEnd).1 = 0) ∨
      ∃ after, client.ram.mapPage kernelEnd physAddr virtAddr flags = some after ∧
        Sound kernelEnd { client with ram := after }
          { state with map := assign state.map ⟨physAddr, virtAddr, flags, 0⟩ } ∧
        ((pdeAt client.ram.memory (pdIdx virtAddr).toNat).present = 0 →
          (client.ram.allocBlock kernelEnd).1 ≠ 0) := by
  have ok := sound.pages.tables
  unfold Ram.mapPage
  simp only [Option.bind_eq_bind, ok.readVirtual_directoryEntry (pdIdx_lt virtAddr),
    Option.bind_some]
  by_cases absent : (pdeAt client.ram.memory (pdIdx virtAddr).toNat).present = 0
  · rw [if_neg (not_not.mpr absent)]
    rcases client.ram.allocBlock_cases sound.ready.small with
      result | ⟨block, searched, clear, address, marks⟩
    · have read := ok.readVirtual_directoryEntry (pdIdx_lt virtAddr)
      refine Or.inl ⟨?_, absent, by rw [result]⟩
      rw [result]
      simp only [Memory.mapPage, ensureTable, read, Option.bind_some, if_neg (not_not.mpr absent),
        if_true, Option.bind_none]
    · obtain ⟨taken, spare⟩ := sound.take marks searched clear
      have high := taken.apart spare.claimed
      have quotient : (client.ram.allocBlock kernelEnd).1.toNat / 4096 = block := by omega
      obtain ⟨after, executed, final⟩ := @Sound.exec _ _ _ taken
        ⟨physAddr, virtAddr, flags, (client.ram.allocBlock kernelEnd).1⟩ mappable
        (fun _ => by rw [quotient]; exact spare)
      refine Or.inr ⟨_, by rw [MapCall.exec] at executed; rw [executed]; rfl, final, fun _ zero => ?_⟩
      rw [zero, show (0 : Word).toNat = 0 from rfl] at address
      omega
  · rw [if_pos absent]
    obtain ⟨after, executed, final⟩ := @Sound.exec _ _ _ sound
      ⟨physAddr, virtAddr, flags, 0⟩ mappable (fun none => absurd none absent)
    refine Or.inr ⟨_, by rw [MapCall.exec] at executed; rw [executed]; rfl, final, ?_⟩
    exact fun none => absurd none absent

/-- The manager can follow every step. -/
theorem Sound.follows {mmap : List E820Entry} {before after : MemoryClient} {event : MemoryEvent}
    {state : Manager} (sound : Sound kernelEnd before state)
    (step : (memorySystem kernelEnd mmap).Step before event after) :
    ∃ next, manager.Step state event next ∧ Sound kernelEnd after next := by
  cases event with
  | alloc block =>
      obtain ⟨ram, outstanding⟩ := after
      obtain ⟨rfl, rfl, rfl⟩ := step
      rcases before.ram.allocBlock_cases sound.ready.small with
        result | ⟨block, searched, clear, address, marks⟩
      · rw [result, if_pos rfl]
        exact ⟨state, ⟨rfl, fun _ _ => rfl, Or.inl ⟨rfl, rfl⟩⟩, sound⟩
      · obtain ⟨taken, spare⟩ := sound.take marks searched clear
        have high := taken.apart spare.claimed
        have quotient : (before.ram.allocBlock kernelEnd).1.toNat / 4096 = block := by omega
        have aligned : (before.ram.allocBlock kernelEnd).1.toNat % 4096 = 0 := by omega
        have nonzero : (before.ram.allocBlock kernelEnd).1 ≠ 0 := by
          intro zero
          rw [zero, show (0 : Word).toNat = 0 from rfl] at address
          omega
        have fresh : (before.ram.allocBlock kernelEnd).1 ∉ state.held := by
          rw [sound.held]
          exact fun member => spare.notHeld _ member quotient
        rw [if_neg nonzero]
        have final := taken.hold aligned (by rw [quotient]; exact spare)
        refine ⟨_, ?_, final⟩
        refine ⟨rfl, fun other member => ?_, Or.inr ⟨nonzero, aligned, fresh, rfl⟩⟩
        exact Function.update_of_ne (ne_of_mem_of_not_mem member fresh) _ _
  | free block =>
      obtain ⟨ram, outstanding⟩ := after
      obtain ⟨member, rfl, rfl⟩ := step
      exact ⟨_, ⟨by rw [sound.held]; exact member, rfl⟩, sound.free member⟩
  | write virtAddr value =>
      obtain ⟨block, offset, reaches, rfl⟩ := step
      obtain ⟨mapped, rfl⟩ := (sound.reaches_iff virtAddr block offset).mp reaches
      exact ⟨_, ⟨block, mapped, rfl⟩, sound.write reaches.2.1 reaches.2.2.1 value⟩
  | read virtAddr value =>
      obtain ⟨block, offset, reaches, rfl, rfl⟩ := step
      obtain ⟨mapped, rfl⟩ := (sound.reaches_iff virtAddr block offset).mp reaches
      exact ⟨state, ⟨block, mapped, sound.contents block reaches.2.1 _ reaches.2.2.1, rfl⟩, sound⟩
  | map physAddr virtAddr flags =>
      obtain ⟨ram, outstanding⟩ := after
      obtain ⟨mappable, executed, rfl⟩ := step
      rcases sound.mapPage physAddr flags mappable with ⟨none, _⟩ | ⟨last, result, final, _⟩
      · rw [none] at executed
        contradiction
      · rw [result, Option.some.injEq] at executed
        subst executed
        exact ⟨_, ⟨mappable, rfl⟩, final⟩
  | resolve virtAddr answer =>
      obtain ⟨below, answered, rfl⟩ := step
      rw [sound.pages.getPhysAddr_eq below, Option.some.injEq] at answered
      exact ⟨state, ⟨below, answered.symm, rfl⟩, sound⟩

/-! ### A small machine -/

/-- With the kernel ending at 0x100FDC the bitmap of 36 bytes ends on a block boundary. -/
theorem bitmapKept_smallMap : BitmapKept 0x100FDC smallMap where
  above := by decide
  low := by decide
  small := by decide
  tail := Or.inl (by decide)

/-- There the first two allocations give the two blocks behind the bitmap. -/
theorem bootRam_smallMap :
    ∃ fuel booted, bootRam fuel (fun _ => 0) 0x100FDC smallMap = some booted ∧
      (pmmAllocBlock (booted.pmm 0x100FDC)).1 = 0x101000 ∧
      (pmmAllocBlock (pmmAllocBlock (booted.pmm 0x100FDC)).2).1 = 0x102000 := by
  obtain ⟨fuel, pmm, initialised⟩ := pmmInit_terminates
    (show ∀ entry ∈ smallMap, entry.Usable → entry.Short by decide) (fun _ => 0) 0x100FDC
  have offered : (handedOut (fun _ => 0) 0x100FDC smallMap).take 2 = [0x101, 0x102] := by
    decide +kernel
  rw [← offers_of_pmmInit initialised] at offered
  have first := alloc_address pmm 0
  have second := alloc_address pmm 1
  rw [← List.getElem?_take_of_lt (show 0 < 2 by decide), offered] at first
  rw [← List.getElem?_take_of_lt (show 1 < 2 by decide), offered] at second
  refine ⟨fuel, _, Option.map_eq_some_iff.mpr ⟨pmm, initialised, rfl⟩, ?_⟩
  rw [Ram.withPmm_pmm]
  exact ⟨first, second⟩

/-- From start-up a caller takes a block, maps it to 4 MiB, writes there, and reads the byte
back at the block's own address. -/
def smallEvents : List MemoryEvent :=
  [.alloc 0x101000, .map 0x101000 0x400000 1, .write 0x400005 42, .read 0x101005 42]

theorem smallEvents_run : ∃ client after, (memorySystem 0x100FDC smallMap).Init client ∧
    (memorySystem 0x100FDC smallMap).Run client smallEvents after := by
  obtain ⟨_, booted, boots, first, second⟩ := bootRam_smallMap
  have initial : (memorySystem 0x100FDC smallMap).Init
      ⟨{ booted with memory := pagingInstall booted.memory }, ∅⟩ :=
    ⟨_, _, booted, booted.memory, boots, fun _ _ => rfl, rfl⟩
  have sound := Sound.start bitmapKept_smallMap initial fun _ _ => 0
  have pmm := @pmm_pagingInstall 0x100FDC booted _ bitmapKept_smallMap.above fun _ _ => rfl
  generalize { booted with memory := pagingInstall booted.memory } = ram at initial sound pmm
  rw [← pmm] at first second
  have alloc : (memorySystem 0x100FDC smallMap).Step ⟨ram, ∅⟩ (.alloc 0x101000)
      ⟨(ram.allocBlock 0x100FDC).2, {0x101000}⟩ := ⟨first.symm, rfl, rfl⟩
  have next : ((ram.allocBlock 0x100FDC).2.allocBlock 0x100FDC).1 = 0x102000 := by
    rw [Ram.allocBlock, Ram.allocBlock, Ram.withPmm_pmm]
    exact second
  obtain ⟨taken, ⟨unmoved, _⟩, soundTaken⟩ := sound.follows alloc
  generalize (ram.allocBlock 0x100FDC).2 = ready at alloc next soundTaken
  rcases soundTaken.mapPage 0x101000 1 (show Mappable 0x400000 from ⟨by decide, by decide⟩) with
    ⟨_, _, none⟩ | ⟨mapped, executed, soundMapped, _⟩
  · rw [next] at none
    contradiction
  have map : (memorySystem 0x100FDC smallMap).Step ⟨ready, {0x101000}⟩ (.map 0x101000 0x400000 1)
      ⟨mapped, {0x101000}⟩ := ⟨⟨by decide, by decide⟩, executed, rfl⟩
  have held : (0x101000 : Word) ∈ taken.held := by
    rw [soundTaken.held]
    exact Finset.mem_singleton_self _
  have leads : assign taken.map ⟨0x101000, 0x400000, 1, 0⟩ (pageOf 0x400005) =
      some (frameOf 0x101000) := by
    rw [assign, show pageOf 0x400005 = pageOf 0x400000 from rfl, Function.update_self]
    rfl
  have stays : assign taken.map ⟨0x101000, 0x400000, 1, 0⟩ (pageOf 0x101005) =
      some (frameOf 0x101000) := by
    have other : pageOf 0x101005 ≠ pageOf 0x400000 := by decide
    rw [assign, Function.update_of_ne other, unmoved]
    rfl
  have write : (memorySystem 0x100FDC smallMap).Step ⟨mapped, {0x101000}⟩ (.write 0x400005 42)
      ⟨{ mapped with memory := Function.update mapped.memory (0x101000 + 5) 42 }, {0x101000}⟩ :=
    ⟨0x101000, 5, (soundMapped.reaches_iff _ _ _).mpr ⟨⟨by decide, held, leads⟩, by decide⟩, rfl⟩
  have soundWritten := soundMapped.write (Finset.mem_singleton_self _) (show 5 < 4096 by decide) 42
  have stored : (42 : Byte) =
      Function.update mapped.memory (0x101000 + 5) 42 ((0x101000 : Word).toNat + 5) := by
    rw [show (0x101000 : Word).toNat = 0x101000 from rfl, Function.update_self]
  have read : (memorySystem 0x100FDC smallMap).Step
      ⟨{ mapped with memory := Function.update mapped.memory (0x101000 + 5) 42 }, {0x101000}⟩
      (.read 0x101005 42)
      ⟨{ mapped with memory := Function.update mapped.memory (0x101000 + 5) 42 }, {0x101000}⟩ :=
    ⟨0x101000, 5, (soundWritten.reaches_iff _ _ _).mpr ⟨⟨by decide, held, stays⟩, by decide⟩,
      stored, rfl⟩
  exact ⟨_, _, initial, .cons alloc (.cons map (.cons write (.cons read (.nil _))))⟩

/-! ### Runs -/

/-- Neither a page table nor the directory lies in a held block. -/
theorem Sound.tables_apart {client : MemoryClient} {state : Manager}
    (sound : Sound kernelEnd client state) {index : Nat} (inDirectory : index < 1024)
    (present : (pdeAt client.ram.memory index).present ≠ 0) {block : Word}
    (member : block ∈ client.outstanding) :
    frameOf block ≠ (pdeAt client.ram.memory index).frame := by
  have ok := sound.pages.tables
  have high := sound.apart (sound.blocks block member).2
  intro same
  have frames : block.toNat / 4096 = (pdeAt client.ram.memory index).frame.toNat := by
    rw [← same, frameOf_toNat]
  by_cases first : index = 0
  · rw [first, ok.firstFrame, show firstTableFrame.toNat = 0x91 from rfl] at frames
    omega
  · by_cases last : index = 1023
    · rw [last, ok.selfFrame, show directoryFrame.toNat = 0x90 from rfl] at frames
      omega
    · exact (sound.tables index (Nat.pos_of_ne_zero first) (by omega) present).2 block member frames

/-- Where kernel end and memory map keep the bitmap, whatever callers do with the memory
system behind its installation, in any order, the manager can do with the same results:
every byte read is the one last written to that place of the block, every address resolves
to the frame it was last mapped to. No page table lies in a block that is held. -/
theorem memorySystem_refines_manager {mmap : List E820Entry} (kept : BitmapKept kernelEnd mmap)
    {client after : MemoryClient} {events : List MemoryEvent}
    (initial : (memorySystem kernelEnd mmap).Init client)
    (run : (memorySystem kernelEnd mmap).Run client events after) (contents : Word → Nat → Byte) :
    (∃ last, manager.Run ⟨∅, contents, identityPages⟩ events last ∧
      last.held = after.outstanding) ∧
    ∀ index < 1024, (pdeAt after.ram.memory index).present ≠ 0 →
      ∀ block ∈ after.outstanding, frameOf block ≠ (pdeAt after.ram.memory index).frame := by
  obtain ⟨last, abstractRun, sound⟩ := run.refines (Sound kernelEnd)
    (fun _ _ _ _ sound step => sound.follows step) (Sound.start kept initial contents)
  exact ⟨⟨last, abstractRun, sound.held⟩,
    fun index inDirectory present block member => sound.tables_apart inDirectory present member⟩

theorem memorySystem_refines_manager_smallMap : ∃ client after last,
    (memorySystem 0x100FDC smallMap).Run client smallEvents after ∧
      manager.Run ⟨∅, fun _ _ => 0, identityPages⟩ smallEvents last ∧
        last.held = after.outstanding := by
  obtain ⟨client, after, initial, run⟩ := smallEvents_run
  obtain ⟨⟨last, abstractRun, same⟩, _⟩ :=
    memorySystem_refines_manager bitmapKept_smallMap initial run fun _ _ => 0
  exact ⟨client, after, last, run, abstractRun, same⟩

/-- In every reachable state the first 4 MiB, where bitmap and directory lie, lead to
themselves, `get_phys_addr` answers, and `map_page` faults nowhere: it stops only where it
needs a table and no block is left. -/
theorem memorySystem_faultless {mmap : List E820Entry} (kept : BitmapKept kernelEnd mmap)
    {client : MemoryClient} (reachable : (memorySystem kernelEnd mmap).Reachable client) :
    (∀ virtAddr : Word, virtAddr.toNat < 0x400000 →
      walk client.ram.memory directoryFrame virtAddr = some virtAddr.toNat) ∧
    (∀ virtAddr : Word, virtAddr.toNat < 0xFFC00000 →
      ∃ answer, getPhysAddr client.ram.memory virtAddr = some answer) ∧
    ∀ physAddr virtAddr flags, Mappable virtAddr →
      (client.ram.mapPage kernelEnd physAddr virtAddr flags = none ↔
        (pdeAt client.ram.memory (pdIdx virtAddr).toNat).present = 0 ∧
          (client.ram.allocBlock kernelEnd).1 = 0) := by
  have related : ∃ state, Sound kernelEnd client state := by
    refine reachable.invariant (fun client => ∃ state, Sound kernelEnd client state) ?_ ?_
    · exact fun client initial => ⟨_, Sound.start kept initial fun _ _ => 0⟩
    · rintro before label after _ ⟨state, sound⟩ step
      obtain ⟨next, _, soundAfter⟩ := sound.follows step
      exact ⟨next, soundAfter⟩
  obtain ⟨state, sound⟩ := related
  refine ⟨fun virtAddr low => sound.walk_low low,
    fun virtAddr below => ⟨_, sound.pages.getPhysAddr_eq below⟩, ?_⟩
  intro physAddr virtAddr flags mappable
  rcases sound.mapPage physAddr flags mappable with ⟨stops, absent, none⟩ | ⟨after, result, _, given⟩
  · exact iff_of_true stops ⟨absent, none⟩
  · refine iff_of_false ?_ fun both => given both.1 both.2
    rw [result]
    exact Option.some_ne_none after

/-- At start-up 4 MiB has no table, and there is a block for one. -/
theorem memorySystem_faultless_smallMap : ∃ client : MemoryClient,
    (∃ answer, getPhysAddr client.ram.memory 0x400000 = some answer) ∧
      client.ram.mapPage 0x100FDC 0x7000 0x400000 1 ≠ none := by
  obtain ⟨_, booted, boots, first, _⟩ := bootRam_smallMap
  obtain ⟨_, answers, stops⟩ := @memorySystem_faultless 0x100FDC smallMap bitmapKept_smallMap
    ⟨{ booted with memory := pagingInstall booted.memory }, ∅⟩
    (.init ⟨_, _, booted, booted.memory, boots, fun _ _ => rfl, rfl⟩)
  refine ⟨_, answers 0x400000 (by decide), fun none => ?_⟩
  obtain ⟨_, noBlock⟩ := (stops 0x7000 0x400000 1 ⟨by decide, by decide⟩).mp none
  rw [Ram.allocBlock, pmm_pagingInstall bitmapKept_smallMap.above fun _ _ => rfl, first] at noBlock
  exact absurd noBlock (by decide)

end Runs

end BrainDance.Memory
