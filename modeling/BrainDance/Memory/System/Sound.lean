import BrainDance.Memory.System.Model

/-!
Owns the simulation relation between the memory system and the manager, and that each
operation keeps it. The bitmap, the tables and the blocks that callers hold stay apart: a
table or a held block is marked in the bitmap and lies behind it, and no table is held.
Each operation writes only one of the three, so the other two keep their bytes.
-/

namespace BrainDance.Memory

open BrainDance.Foundation
open BrainDance.Libc
open BrainDance.Arch

/-! ### Which bytes an operation writes -/

section Pages

variable {memory written : Image} {map : Nat → Option (BitVec 20)}

/-- The images agree on the page. -/
def SamePage (memory : Image) (page : Nat) (written : Image) : Prop :=
  ∀ offset, offset / pageSize = page → written offset = memory offset

theorem SamePage.entryIn {frame : BitVec 20} (same : SamePage memory frame.toNat written)
    {index : Nat} (inTable : index < 1024) :
    entryIn written frame index = entryIn memory frame index := by
  rw [Arch.entryIn, Arch.entryIn]
  congr 1
  apply wordAt_congr
  intro byte inEntry
  apply same
  simp only [entryAddress, pageSize]
  omega

/-- Page tables depend on the bytes of the directory and of the present tables. -/
theorem Refines.congr (refines : Refines memory map)
    (directory : SamePage memory directoryFrame.toNat written)
    (tables : ∀ index < 1023, (pdeAt memory index).present ≠ 0 →
      SamePage memory (pdeAt memory index).frame.toNat written) : Refines written map := by
  have ok := refines.tables
  have pde : ∀ index < 1024, pdeAt written index = pdeAt memory index :=
    fun index inTable => directory.entryIn inTable
  have first := tables 0 (by decide) ok.firstPresent
  rw [ok.firstFrame] at first
  refine ⟨ok.congr pde (first.entryIn (by decide)), fun page inMap => ?_⟩
  rw [← refines.translates page inMap]
  unfold translate
  rw [pde _ (show page / 1024 < 1024 by omega)]
  dsimp only
  by_cases absent : (pdeAt memory (page / 1024)).present = 0
  · rw [if_pos absent, if_pos absent]
  · rw [(tables _ (by omega) absent).entryIn (Nat.mod_lt _ (by decide))]

/-- `map_page` writes the directory and the table of the address. -/
theorem TablesOk.exec_outside (ok : TablesOk memory) {call : MapCall} (inRange : call.InRange)
    (fresh : call.GetsFresh memory) (executed : call.exec memory = some written) {offset : Nat}
    (notDirectory : offset / pageSize ≠ directoryFrame.toNat)
    (notTable : offset / pageSize ≠ (pdeAt written (pdIdx call.virtAddr).toNat).frame.toNat) :
    written offset = memory offset := by
  have value := pdIdx_toNat call.virtAddr
  obtain ⟨above, below⟩ := inRange
  have inDirectory : (pdIdx call.virtAddr).toNat < 1023 := by omega
  have inTable := ptIdx_lt call.virtAddr
  have directory := ok.pdeAt_exec ⟨above, below⟩ fresh executed (pdIdx_lt call.virtAddr)
  unfold MapCall.exec mapPage at executed
  have entryOutside : ∀ (image : Image) (frame : BitVec 20) (index : Nat) (entry : PageEntry),
      index < 1024 → offset / pageSize ≠ frame.toNat →
        setEntry image frame index entry offset = image offset := by
    intro image frame index entry small different
    apply blit_outside
    simp only [entryAddress, pageSize] at different ⊢
    omega
  by_cases absent : (pdeAt memory (pdIdx call.virtAddr).toNat).present = 0
  · have block := fresh absent
    rw [if_pos ⟨rfl, absent⟩] at directory
    have here : pdeAt (withTable memory (pdIdx call.virtAddr).toNat
        (newTableEntry memory (pdIdx call.virtAddr).toNat call.allocated))
          (pdIdx call.virtAddr).toNat =
        newTableEntry memory (pdIdx call.virtAddr).toNat call.allocated := by
      rw [pdeAt_withTable (by omega) block.notDirectory (by omega), if_pos rfl]
    have present : (pdeAt (withTable memory (pdIdx call.virtAddr).toNat
        (newTableEntry memory (pdIdx call.virtAddr).toNat call.allocated))
          (pdIdx call.virtAddr).toNat).present ≠ 0 := by
      rw [here]
      exact show (1 : BitVec 1) ≠ 0 by decide
    have ready := (ok.refines.newTable (by omega) inDirectory absent (here ▸ present)
      block.notDirectory block.notFirstTable block.unused).tables
    rw [ok.ensureTable_of_absent inDirectory absent block, Option.bind_some,
      ready.readVirtual_tableEntry _ present, Option.bind_some,
      ready.writeVirtual_tableEntry _ present, Option.some.injEq, here] at executed
    rw [directory] at notTable
    rw [← executed, entryOutside _ _ _ _ inTable notTable, withTable,
      fill_outside _ _ (by simp only [pageSize] at notTable ⊢; omega),
      entryOutside _ _ _ _ (by omega) notDirectory]
  · rw [if_neg fun both => absent both.2] at directory
    rw [ok.ensureTable_of_present call.allocated inDirectory absent, Option.bind_some,
      ok.readVirtual_tableEntry _ absent, Option.bind_some,
      ok.writeVirtual_tableEntry _ absent, Option.some.injEq] at executed
    rw [directory] at notTable
    rw [← executed, entryOutside _ _ _ _ inTable notTable]

/-- The installation writes the directory and the first table. -/
theorem pagingInstall_outside (memory : Image) {offset : Nat} (above : 0x92000 ≤ offset) :
    pagingInstall memory offset = memory offset := by
  have entryOutside : ∀ (image : Image) (frame : BitVec 20) (index : Nat) (entry : PageEntry),
      frame.toNat < 0x92 → index < 1024 → setEntry image frame index entry offset = image offset := by
    intro image frame index entry low small
    apply blit_outside
    simp only [entryAddress, pageSize]
    omega
  have mapped : ∀ image count, count ≤ 1024 → identityMap image count offset = image offset := by
    intro image count within
    induction count with
    | zero => rfl
    | succ count inductionHypothesis =>
        rw [identityMap, entryOutside _ _ _ _ (by decide) (by omega),
          inductionHypothesis (by omega)]
  unfold pagingInstall linkDirectory
  simp only []
  rw [entryOutside _ _ _ _ (by decide) (by decide), entryOutside _ _ _ _ (by decide) (by decide),
    mapped _ _ le_rfl, memset_eq_fill, memset_eq_fill,
    fill_outside _ _ (by rw [show firstPageTable.toNat = 0x91000 from rfl, pageSize]; omega),
    fill_outside _ _ (by rw [show pageDirectory.toNat = 0x90000 from rfl, pageSize]; omega)]

end Pages

/-! ### The bitmap in memory -/

section Bitmap

variable {kernelEnd : Word} {before after : Ram}

/-- The call marked the block as used or free and wrote nothing but the bitmap. -/
structure Marks (kernelEnd : Word) (before after : Ram) (block : Nat) (used : Bool) : Prop where
  total : after.totalBlocks = before.totalBlocks
  bits : ∀ other, (after.pmm kernelEnd).bit other =
    if other = block then used else (before.pmm kernelEnd).bit other
  outside : ∀ offset, offset < kernelEnd.toNat ∨ searchedEnd kernelEnd before.totalBlocks ≤ offset →
    after.memory offset = before.memory offset

theorem Ram.withPmm_pmm (ram : Ram) (pmm : Pmm) : (ram.withPmm kernelEnd pmm).pmm kernelEnd = pmm := by
  cases pmm with
  | mk bitmap totalBlocks usedBlocks =>
      simp [Ram.withPmm, Ram.pmm]

theorem Ram.withPmm_self (ram : Ram) : ram.withPmm kernelEnd (ram.pmm kernelEnd) = ram := by
  cases ram with
  | mk memory totalBlocks usedBlocks =>
      simp only [Ram.withPmm, Ram.pmm, Ram.mk.injEq, and_self, and_true]
      funext address
      split
      · rw [Nat.add_sub_cancel' ‹_›]
      · rfl

/-- A word stored in the words that the search covers. -/
theorem Ram.withPmm_outside (ram : Ram) {block : Nat} (searched : block < (ram.pmm kernelEnd).searched)
    {pmm : Pmm} {stored : Word}
    (word : pmm.bitmap = storeWord (ram.pmm kernelEnd).bitmap (4 * (block / 32)) stored) {offset : Nat}
    (outside : offset < kernelEnd.toNat ∨ searchedEnd kernelEnd ram.totalBlocks ≤ offset) :
    (ram.withPmm kernelEnd pmm).memory offset = ram.memory offset := by
  simp only [Ram.withPmm]
  split
  · rename_i above
    have behind : 4 * (block / 32) + 4 ≤ offset - kernelEnd.toNat := by
      simp only [Pmm.searched, Ram.pmm] at searched
      simp only [searchedEnd] at outside
      omega
    rw [word, storeWord, blit_outside _ _ (Or.inr behind)]
    simp only [Ram.pmm, Nat.add_sub_cancel' above]
  · rfl

/-- An allocation changes nothing, or it marks a clear block and returns its address. -/
theorem Ram.allocBlock_cases (ram : Ram) (small : ram.totalBlocks.toNat ≤ 2 ^ 20) :
    ram.allocBlock kernelEnd = (0, ram) ∨
      ∃ block, block < (ram.pmm kernelEnd).searched ∧ (ram.pmm kernelEnd).bit block = false ∧
        (ram.allocBlock kernelEnd).1.toNat = 4096 * block ∧
          Marks kernelEnd ram (ram.allocBlock kernelEnd).2 block true := by
  unfold Ram.allocBlock
  rcases pmmAllocBlock_cases (ram.pmm kernelEnd) with
    ⟨_, result⟩ | ⟨block, _, searched, clear, _, result⟩
  · rw [result]
    exact Or.inl (by rw [Ram.withPmm_self])
  · have below : block < 2 ^ 20 := by
      have inside := searched.trans_le (ram.pmm kernelEnd).searched_le
      simp only [Ram.pmm] at inside
      omega
    rw [result]
    refine Or.inr ⟨block, searched, clear, frame_address below, rfl, fun other => ?_, ?_⟩
    · rw [Ram.withPmm_pmm, Pmm.bit, Pmm.taken, Bitmap.bit_setBit]
      split <;> simp [*]
    · exact fun offset outside => ram.withPmm_outside searched rfl outside

/-- A release of a marked block clears its bit. -/
theorem Ram.freeBlock_marks (ram : Ram) {block : Word}
    (searched : block.toNat / 4096 < (ram.pmm kernelEnd).searched)
    (used : (ram.pmm kernelEnd).bit (block.toNat / 4096) = true) :
    Marks kernelEnd ram (ram.freeBlock kernelEnd block) (block.toNat / 4096) false := by
  unfold Ram.freeBlock
  rcases pmmFreeBlock_cases (ram.pmm kernelEnd) block with ⟨clear, _⟩ | ⟨_, result⟩
  · rw [used] at clear
    contradiction
  · rw [result]
    refine ⟨rfl, fun other => ?_, fun offset outside => ram.withPmm_outside searched rfl outside⟩
    rw [Ram.withPmm_pmm, Pmm.bit, Bitmap.bit_clearBit]
    split <;> simp [*]

/-- The bits that the search covers lie between the kernel and the end of the bitmap. -/
theorem Ram.bit_congr
    (same : ∀ offset, kernelEnd.toNat ≤ offset → offset < searchedEnd kernelEnd before.totalBlocks →
      after.memory offset = before.memory offset) {block : Nat}
    (searched : block < (before.pmm kernelEnd).searched) :
    (after.pmm kernelEnd).bit block = (before.pmm kernelEnd).bit block := by
  rw [Pmm.bit, Pmm.bit, Bitmap.bit_eq_getLsbD, Bitmap.bit_eq_getLsbD, Ram.pmm, Ram.pmm]
  dsimp only
  rw [same _ (by omega)]
  simp only [Pmm.searched, Ram.pmm] at searched
  simp only [searchedEnd]
  omega

end Bitmap

/-! ### The simulation relation -/

/-- The block is marked and lies behind the bitmap. -/
structure Claimed (kernelEnd : Word) (ram : Ram) (block : Nat) : Prop where
  behind : searchedEnd kernelEnd ram.totalBlocks ≤ 4096 * block
  searched : block < (ram.pmm kernelEnd).searched
  used : (ram.pmm kernelEnd).bit block = true

/-- Tables and held blocks are claimed, and no block is both. -/
structure Sound (kernelEnd : Word) (client : MemoryClient) (state : Manager) : Prop where
  ready : PmmReady kernelEnd (client.ram.pmm kernelEnd)
  pages : Refines client.ram.memory state.map
  identity : ∀ page < 1024, state.map page = identityPages page
  tables : ∀ index, 0 < index → index < 1023 → (pdeAt client.ram.memory index).present ≠ 0 →
    Claimed kernelEnd client.ram (pdeAt client.ram.memory index).frame.toNat ∧
      ∀ block ∈ client.outstanding,
        block.toNat / 4096 ≠ (pdeAt client.ram.memory index).frame.toNat
  held : state.held = client.outstanding
  blocks : ∀ block ∈ client.outstanding, block.toNat % 4096 = 0 ∧
    Claimed kernelEnd client.ram (block.toNat / 4096)
  contents : ∀ block ∈ client.outstanding, ∀ offset < 4096,
    client.ram.memory (block.toNat + offset) = state.contents block offset

/-- The block is claimed, but neither held nor a table. -/
structure Spare (kernelEnd : Word) (client : MemoryClient) (block : Nat) : Prop where
  claimed : Claimed kernelEnd client.ram block
  notHeld : ∀ other ∈ client.outstanding, other.toNat / 4096 ≠ block
  notTable : ∀ index, 0 < index → index < 1023 → (pdeAt client.ram.memory index).present ≠ 0 →
    (pdeAt client.ram.memory index).frame.toNat ≠ block

section Claimed

variable {kernelEnd : Word} {before after : Ram} {block other : Nat}

theorem Claimed.of_bit (claimed : Claimed kernelEnd before other)
    (total : after.totalBlocks = before.totalBlocks)
    (bit : (after.pmm kernelEnd).bit other = (before.pmm kernelEnd).bit other) :
    Claimed kernelEnd after other where
  behind := by rw [total]; exact claimed.behind
  searched := by
    have searched := claimed.searched
    simp only [Pmm.searched, Ram.pmm, total] at searched ⊢
    exact searched
  used := by rw [bit]; exact claimed.used

theorem PmmReady.of_bits (ready : PmmReady kernelEnd (before.pmm kernelEnd))
    (total : after.totalBlocks = before.totalBlocks)
    (bits : ∀ block < (before.pmm kernelEnd).searched,
      4096 * block < searchedEnd kernelEnd before.totalBlocks →
        (after.pmm kernelEnd).bit block = (before.pmm kernelEnd).bit block) :
    PmmReady kernelEnd (after.pmm kernelEnd) := by
  have totals : (after.pmm kernelEnd).totalBlocks = (before.pmm kernelEnd).totalBlocks := total
  refine ⟨ready.above, ?_, ?_, fun block searched below => ?_⟩
  · rw [totals]
    exact ready.low
  · rw [totals]
    exact ready.small
  · rw [totals] at below
    rw [Pmm.searched, totals] at searched
    rw [bits block searched below]
    exact ready.guarded block searched below

theorem Marks.claimed_of_ne {used : Bool} (marks : Marks kernelEnd before after block used)
    (claimed : Claimed kernelEnd before other) (different : other ≠ block) :
    Claimed kernelEnd after other :=
  claimed.of_bit marks.total (by rw [marks.bits, if_neg different])

theorem Marks.ready {used : Bool} (marks : Marks kernelEnd before after block used)
    (behind : searchedEnd kernelEnd before.totalBlocks ≤ 4096 * block)
    (ready : PmmReady kernelEnd (before.pmm kernelEnd)) :
    PmmReady kernelEnd (after.pmm kernelEnd) := by
  refine ready.of_bits marks.total fun other _ below => ?_
  rw [marks.bits, if_neg]
  rintro rfl
  exact absurd behind (Nat.not_le.mpr below)

/-- Pages below the bitmap or behind it keep their bytes. -/
theorem Marks.samePage {used : Bool} (marks : Marks kernelEnd before after block used) {page : Nat}
    (apart : 4096 * page + 4096 ≤ kernelEnd.toNat ∨
      searchedEnd kernelEnd before.totalBlocks ≤ 4096 * page) :
    SamePage before.memory page after.memory := by
  intro offset inPage
  apply marks.outside
  rw [pageSize] at inPage
  omega

end Claimed

section Steps

variable {kernelEnd : Word} {client : MemoryClient} {state : Manager}

/-- The bitmap, the directory and the first table are below every claimed block. -/
theorem Sound.apart (sound : Sound kernelEnd client state) {block : Nat}
    (claimed : Claimed kernelEnd client.ram block) : 256 ≤ block := by
  have above := sound.ready.above
  have behind := claimed.behind
  rw [searchedEnd] at behind
  omega

/-- No page table changes where the bytes of the directory, of the first table and of the
claimed tables stay. -/
theorem Sound.pages_congr (sound : Sound kernelEnd client state) {written : Image}
    (low : ∀ page, page = 0x90 ∨ page = 0x91 → SamePage client.ram.memory page written)
    (claimed : ∀ index, 0 < index → index < 1023 →
      (pdeAt client.ram.memory index).present ≠ 0 →
        SamePage client.ram.memory (pdeAt client.ram.memory index).frame.toNat written) :
    Refines written state.map := by
  refine sound.pages.congr (low _ (Or.inl rfl)) fun index inTable present => ?_
  by_cases first : index = 0
  · rw [first, sound.pages.tables.firstFrame]
    exact low _ (Or.inr rfl)
  · exact claimed index (Nat.pos_of_ne_zero first) inTable present

/-- Marking a block that is no table, free or used, changes no page table. -/
theorem Sound.pages_marks (sound : Sound kernelEnd client state) {after : Ram} {block : Nat}
    {used : Bool} (marks : Marks kernelEnd client.ram after block used) :
    Refines after.memory state.map ∧
      ∀ index < 1024, pdeAt after.memory index = pdeAt client.ram.memory index := by
  have above := sound.ready.above
  have low : ∀ page, page = 0x90 ∨ page = 0x91 →
      SamePage client.ram.memory page after.memory :=
    fun page here => marks.samePage (Or.inl (by omega))
  refine ⟨sound.pages_congr low fun index positive inTable present => ?_, fun index inTable => ?_⟩
  · exact marks.samePage (Or.inr (sound.tables index positive inTable present).1.behind)
  · exact @SamePage.entryIn _ _ directoryFrame (low 0x90 (Or.inl rfl)) index inTable

/-- Marking a clear block keeps everything and leaves the block spare. -/
theorem Sound.take (sound : Sound kernelEnd client state) {after : Ram} {block : Nat}
    (marks : Marks kernelEnd client.ram after block true)
    (searched : block < (client.ram.pmm kernelEnd).searched)
    (clear : (client.ram.pmm kernelEnd).bit block = false) :
    Sound kernelEnd { client with ram := after } state ∧
      Spare kernelEnd { client with ram := after } block := by
  have different : ∀ other, Claimed kernelEnd client.ram other → other ≠ block := by
    rintro other claimed rfl
    rw [claimed.used] at clear
    contradiction
  have behind : searchedEnd kernelEnd client.ram.totalBlocks ≤ 4096 * block := by
    by_contra below
    rw [sound.ready.guarded block searched (Nat.not_le.mp below)] at clear
    contradiction
  obtain ⟨pages, directory⟩ := sound.pages_marks marks
  refine ⟨⟨marks.ready behind sound.ready, pages, sound.identity, ?_, sound.held, ?_, ?_⟩,
    ⟨?_, ?_, ?_⟩, ?_, ?_⟩
  · intro index positive inTable present
    simp only [directory index (by omega)] at present ⊢
    obtain ⟨claimed, notHeld⟩ := sound.tables index positive inTable present
    exact ⟨marks.claimed_of_ne claimed (different _ claimed), notHeld⟩
  · intro other member
    obtain ⟨aligned, claimed⟩ := sound.blocks other member
    exact ⟨aligned, marks.claimed_of_ne claimed (different _ claimed)⟩
  · intro other member offset inBlock
    obtain ⟨aligned, claimed⟩ := sound.blocks other member
    rw [← sound.contents other member offset inBlock]
    have behindOther := claimed.behind
    exact marks.outside _ (Or.inr (by omega))
  · rw [marks.total]
    exact behind
  · simp only [Pmm.searched, Ram.pmm, marks.total] at searched ⊢
    exact searched
  · rw [marks.bits, if_pos rfl]
  · exact fun other member => different _ (sound.blocks other member).2
  · intro index positive inTable present
    simp only [directory index (by omega)] at present ⊢
    exact different _ (sound.tables index positive inTable present).1

/-- A spare block may be handed out. -/
theorem Sound.hold (sound : Sound kernelEnd client state) {block : Word}
    (aligned : block.toNat % 4096 = 0) (spare : Spare kernelEnd client (block.toNat / 4096)) :
    Sound kernelEnd { client with outstanding := insert block client.outstanding }
      { state with
        held := insert block state.held
        contents := Function.update state.contents block fun offset =>
          client.ram.memory (block.toNat + offset) } where
  ready := sound.ready
  pages := sound.pages
  identity := sound.identity
  tables index positive inTable present := by
    obtain ⟨claimed, notHeld⟩ := sound.tables index positive inTable present
    refine ⟨claimed, fun other member => ?_⟩
    rcases Finset.mem_insert.mp member with rfl | earlier
    · exact (spare.notTable index positive inTable present).symm
    · exact notHeld other earlier
  held := by rw [sound.held]
  blocks other member := by
    rcases Finset.mem_insert.mp member with rfl | earlier
    · exact ⟨aligned, spare.claimed⟩
    · exact sound.blocks other earlier
  contents other member offset inBlock := by
    dsimp only
    by_cases same : other = block
    · rw [same, Function.update_self]
    · rw [Function.update_of_ne same]
      exact sound.contents other (Finset.mem_of_mem_insert_of_ne member same) offset inBlock

/-- Two held blocks are the same or lie in different pages. -/
theorem Sound.page_injective (sound : Sound kernelEnd client state) {block other : Word}
    (member : block ∈ client.outstanding) (otherMember : other ∈ client.outstanding)
    (different : other ≠ block) : other.toNat / 4096 ≠ block.toNat / 4096 := by
  have aligned := (sound.blocks block member).1
  have otherAligned := (sound.blocks other otherMember).1
  exact fun same => different (BitVec.eq_of_toNat_eq (by omega))

theorem Sound.free (sound : Sound kernelEnd client state) {block : Word}
    (member : block ∈ client.outstanding) :
    Sound kernelEnd
      { ram := client.ram.freeBlock kernelEnd block
        outstanding := client.outstanding.erase block }
      { state with held := state.held.erase block } := by
  have claimed := (sound.blocks block member).2
  have marks := client.ram.freeBlock_marks claimed.searched claimed.used
  obtain ⟨pages, directory⟩ := sound.pages_marks marks
  refine ⟨marks.ready claimed.behind sound.ready, pages, sound.identity, ?_, by rw [sound.held],
    ?_, ?_⟩
  · intro index positive inTable present
    simp only [directory index (by omega)] at present ⊢
    obtain ⟨table, notHeld⟩ := sound.tables index positive inTable present
    exact ⟨marks.claimed_of_ne table (notHeld block member).symm,
      fun other kept => notHeld other (Finset.mem_of_mem_erase kept)⟩
  · intro other kept
    obtain ⟨different, earlier⟩ := Finset.mem_erase.mp kept
    obtain ⟨aligned, otherClaimed⟩ := sound.blocks other earlier
    exact ⟨aligned,
      marks.claimed_of_ne otherClaimed (sound.page_injective member earlier different)⟩
  · intro other kept offset inBlock
    have earlier := Finset.mem_of_mem_erase kept
    obtain ⟨aligned, otherClaimed⟩ := sound.blocks other earlier
    have behind := otherClaimed.behind
    rw [← sound.contents other earlier offset inBlock]
    exact marks.outside _ (Or.inr (by omega))

theorem Sound.write (sound : Sound kernelEnd client state) {block : Word}
    (member : block ∈ client.outstanding) {offset : Nat} (inBlock : offset < 4096) (value : Byte) :
    Sound kernelEnd
      { client with
        ram.memory := Function.update client.ram.memory (block.toNat + offset) value }
      { state with
        contents := Function.update state.contents block
          (Function.update (state.contents block) offset value) } := by
  obtain ⟨aligned, claimed⟩ := sound.blocks block member
  have high := sound.apart claimed
  have behind := claimed.behind
  have same : ∀ page, page ≠ block.toNat / 4096 → SamePage client.ram.memory page
      (Function.update client.ram.memory (block.toNat + offset) value) := by
    intro page different address inPage
    rw [pageSize] at inPage
    exact Function.update_of_ne (by omega) _ _
  have bitmap : ∀ address, kernelEnd.toNat ≤ address →
      address < searchedEnd kernelEnd client.ram.totalBlocks →
        Function.update client.ram.memory (block.toNat + offset) value address =
          client.ram.memory address :=
    fun address _ below => Function.update_of_ne (by omega) _ _
  have directory : ∀ index < 1024, pdeAt
      (Function.update client.ram.memory (block.toNat + offset) value) index =
        pdeAt client.ram.memory index :=
    fun index inTable => @SamePage.entryIn _ _ directoryFrame (same 0x90 (by omega)) index inTable
  refine ⟨sound.ready.of_bits rfl fun other searched _ => Ram.bit_congr bitmap searched,
    sound.pages_congr (fun page low => same page (by omega)) fun index positive inTable present =>
      same _ ((sound.tables index positive inTable present).2 block member).symm,
    sound.identity, ?_, sound.held, ?_, ?_⟩
  · intro index positive inTable present
    simp only [directory index (by omega)] at present ⊢
    obtain ⟨table, notHeld⟩ := sound.tables index positive inTable present
    exact ⟨table.of_bit rfl (Ram.bit_congr bitmap table.searched), notHeld⟩
  · intro other otherMember
    obtain ⟨otherAligned, otherClaimed⟩ := sound.blocks other otherMember
    exact ⟨otherAligned, otherClaimed.of_bit rfl (Ram.bit_congr bitmap otherClaimed.searched)⟩
  · intro other otherMember place inOther
    have before := sound.contents other otherMember place inOther
    dsimp only
    by_cases here : other = block
    · subst here
      rw [Function.update_self]
      by_cases written : place = offset
      · rw [written, Function.update_self, Function.update_self]
      · rw [Function.update_of_ne written, Function.update_of_ne (by omega)]
        exact before
    · have apart := sound.page_injective member otherMember here
      have otherAligned := (sound.blocks other otherMember).1
      rw [Function.update_of_ne here, Function.update_of_ne (by omega)]
      exact before

/-- `map_page`, which gets a spare block if it needs a table. -/
theorem Sound.exec (sound : Sound kernelEnd client state) {call : MapCall} (inRange : call.InRange)
    (spare : (pdeAt client.ram.memory (pdIdx call.virtAddr).toNat).present = 0 →
      Spare kernelEnd client (call.allocated.toNat / 4096)) :
    ∃ after, call.exec client.ram.memory = some after ∧
      Sound kernelEnd { client with ram.memory := after }
        { state with map := assign state.map call } := by
  have ok := sound.pages.tables
  have above := sound.ready.above
  have value := pdIdx_toNat call.virtAddr
  have inDirectory : 0 < (pdIdx call.virtAddr).toNat ∧ (pdIdx call.virtAddr).toNat < 1023 := by
    have := inRange.1
    have := inRange.2
    omega
  have fresh : call.GetsFresh client.ram.memory := by
    intro absent
    have block := spare absent
    have high := sound.apart block.claimed
    have frame : ∀ other : BitVec 20, other.toNat ≠ call.allocated.toNat / 4096 →
        other ≠ frameOf call.allocated := by
      rintro other different rfl
      exact different (frameOf_toNat _)
    refine ⟨?_, (frame _ ?_).symm, (frame _ ?_).symm, fun index inTable present => frame _ ?_⟩
    · intro zero
      rw [zero, show (0 : Word).toNat = 0 from rfl] at high
      omega
    · rw [show directoryFrame.toNat = 0x90 from rfl]
      omega
    · rw [show firstTableFrame.toNat = 0x91 from rfl]
      omega
    · by_cases first : index = 0
      · rw [first, ok.firstFrame, show firstTableFrame.toNat = 0x91 from rfl]
        omega
      · exact block.notTable index (Nat.pos_of_ne_zero first) inTable present
  obtain ⟨after, executed, pages⟩ := sound.pages.step inRange fresh
  refine ⟨after, executed, ?_⟩
  have directory : ∀ index < 1024, _ :=
    fun index => @TablesOk.pdeAt_exec _ _ ok _ inRange fresh executed index
  -- the table that the call writes is claimed and not held, new or not
  have table : Claimed kernelEnd client.ram
      (pdeAt after (pdIdx call.virtAddr).toNat).frame.toNat ∧
        ∀ block ∈ client.outstanding,
          block.toNat / 4096 ≠ (pdeAt after (pdIdx call.virtAddr).toNat).frame.toNat := by
    rw [directory _ (by omega)]
    by_cases absent : (pdeAt client.ram.memory (pdIdx call.virtAddr).toNat).present = 0
    · have block := spare absent
      rw [if_pos ⟨rfl, absent⟩, newTableEntry, frameOf_toNat]
      exact ⟨block.claimed, block.notHeld⟩
    · rw [if_neg fun both => absent both.2]
      exact sound.tables _ inDirectory.1 inDirectory.2 absent
  have outside : ∀ offset, offset / 4096 ≠ 0x90 →
      offset / 4096 ≠ (pdeAt after (pdIdx call.virtAddr).toNat).frame.toNat →
        after offset = client.ram.memory offset :=
    fun offset notDirectory notTable => ok.exec_outside inRange fresh executed notDirectory notTable
  have tableBehind := table.1.behind
  have bitmap : ∀ offset, kernelEnd.toNat ≤ offset →
      offset < searchedEnd kernelEnd client.ram.totalBlocks →
        after offset = client.ram.memory offset :=
    fun offset _ _ => outside offset (by omega) (by omega)
  have keeps : ∀ block, Claimed kernelEnd client.ram block →
      Claimed kernelEnd { client.ram with memory := after } block :=
    fun block claimed => claimed.of_bit rfl (Ram.bit_congr bitmap claimed.searched)
  refine ⟨sound.ready.of_bits rfl fun other searched _ => Ram.bit_congr bitmap searched, pages,
    ?_, ?_, sound.held, ?_, ?_⟩
  · intro page low
    have other : page ≠ pageOf call.virtAddr := by
      have := inRange.1
      rw [pageOf]
      omega
    exact (Function.update_of_ne other _ _).trans (sound.identity page low)
  · intro index positive inTable present
    by_cases written : index = (pdIdx call.virtAddr).toNat
    · rw [written]
      exact ⟨keeps _ table.1, table.2⟩
    · simp only [directory index (by omega), written, false_and, if_false] at present ⊢
      obtain ⟨claimed, notHeld⟩ := sound.tables index positive inTable present
      exact ⟨keeps _ claimed, notHeld⟩
  · intro block member
    obtain ⟨aligned, claimed⟩ := sound.blocks block member
    exact ⟨aligned, keeps _ claimed⟩
  · intro block member offset inBlock
    obtain ⟨aligned, claimed⟩ := sound.blocks block member
    have notTable := table.2 block member
    have high := sound.apart claimed
    rw [← sound.contents block member offset inBlock]
    exact outside _ (by omega) (by omega)

end Steps

end BrainDance.Memory
