import BrainDance.Foundation.Transition
import BrainDance.Memory.Paging.Tables

/-!
Owns the refinement of a map from pages to frames by the page tables. `Refines`
is the simulation relation: the tables are in order and translate every page
below the window as the map does. `map_page` updates the map at one page, and
`get_phys_addr` reads it.

A call of `map_page` may create a table. The block it gets must be fresh, which
is what the physical allocator promises; the rest of the new table's pages are
unmapped before and after.
-/

namespace BrainDance.Memory

open BrainDance.Foundation
open BrainDance.Libc
open BrainDance.Arch

/-! ### Translation of pages -/

/-- The frame the tables give the page. -/
def translate (memory : Image) (page : Nat) : Option (BitVec 20) :=
  let pde := pdeAt memory (page / 1024)
  if pde.present = 0 then none
  else
    let pte := entryIn memory pde.frame (page % 1024)
    if pte.present = 0 then none else some pte.frame

/-- The address `get_phys_addr` makes of the frame, 0 for none. -/
def physicalAddress (frame : Option (BitVec 20)) (virtAddr : Word) : Word :=
  match frame with
  | none => 0
  | some frame => (frame.setWidth 32 <<< 12) + (virtAddr &&& 0xFFF)

def pageOf (virtAddr : Word) : Nat := virtAddr.toNat / 4096

theorem pageOf_div (virtAddr : Word) : pageOf virtAddr / 1024 = (pdIdx virtAddr).toNat := by
  rw [pdIdx_toNat, pageOf]
  omega

theorem pageOf_mod (virtAddr : Word) : pageOf virtAddr % 1024 = (ptIdx virtAddr).toNat := by
  rw [ptIdx_toNat, pageOf]
  rfl

theorem frameOf_shift (address : Word) :
    (frameOf address).setWidth 32 <<< 12 = address &&& ~~~0xFFF := by
  apply BitVec.eq_of_getLsbD_eq
  intro i inWord
  have mask : (0xFFF : Word).getLsbD i = decide (i < 12) := by
    rw [BitVec.getLsbD, show (0xFFF : Word).toNat = 2 ^ 12 - 1 from rfl,
      Nat.testBit_two_pow_sub_one]
  rw [BitVec.getLsbD_and, BitVec.getLsbD_not, mask, BitVec.getLsbD_shiftLeft,
    BitVec.getLsbD_setWidth, frameOf, BitVec.getLsbD_setWidth, BitVec.getLsbD_ushiftRight]
  by_cases low : i < 12
  · simp [low]
  · have place : 12 + (i - 12) = i := by omega
    have inFrame : i - 12 < 20 := by omega
    rw [place]
    simp [low, inWord, inFrame]
    omega

theorem physicalAddress_frameOf (physAddr virtAddr : Word) :
    physicalAddress (some (frameOf physAddr)) virtAddr =
      (physAddr &&& ~~~0xFFF) + (virtAddr &&& 0xFFF) := by
  rw [physicalAddress, frameOf_shift]

/-- A page of the first 4 MiB mapped to itself keeps its addresses. -/
theorem physicalAddress_identity {virtAddr : Word} (low : pageOf virtAddr < 1024) :
    physicalAddress (some (BitVec.ofNat 20 (pageOf virtAddr))) virtAddr = virtAddr := by
  have inTable : virtAddr.toNat / 4096 < 1024 := low
  have offset : (virtAddr &&& 0xFFF).toNat = virtAddr.toNat % 2 ^ 12 := pageOffset_eq virtAddr
  apply BitVec.eq_of_toNat_eq
  rw [physicalAddress, BitVec.toNat_add, offset, BitVec.toNat_shiftLeft, BitVec.toNat_setWidth,
    BitVec.toNat_ofNat, Nat.shiftLeft_eq]
  rw [pageOf]
  omega

section Lookup

variable {memory : Image}

/-- `get_phys_addr` reads the translation of the address's page. -/
theorem TablesOk.getPhysAddr_eq (ok : TablesOk memory) (virtAddr : Word) :
    getPhysAddr memory virtAddr =
      some (physicalAddress (translate memory (pageOf virtAddr)) virtAddr) := by
  unfold getPhysAddr translate
  rw [ok.readVirtual_directoryEntry (pdIdx_lt virtAddr), Option.bind_some]
  simp only [pageOf_div, pageOf_mod]
  by_cases absent : (pdeAt memory (pdIdx virtAddr).toNat).present = 0
  · rw [if_pos absent, if_pos absent]
    rfl
  · rw [if_neg absent, if_neg absent, ok.readVirtual_tableEntry virtAddr absent, Option.map_some]
    split <;> rfl

end Lookup

/-! ### The simulation relation -/

/-- The tables translate every page below the window as the map does. -/
structure Refines (memory : Image) (map : Nat → Option (BitVec 20)) : Prop where
  tables : TablesOk memory
  translates : ∀ page < 1023 * 1024, translate memory page = map page

/-- `get_phys_addr` reads the map. -/
theorem Refines.getPhysAddr_eq {memory : Image} {map : Nat → Option (BitVec 20)}
    (refines : Refines memory map) {virtAddr : Word} (below : virtAddr.toNat < 0xFFC00000) :
    getPhysAddr memory virtAddr = some (physicalAddress (map (pageOf virtAddr)) virtAddr) := by
  rw [refines.tables.getPhysAddr_eq, refines.translates]
  rw [pageOf]
  omega

/-- Tables in order refine their own translation. -/
theorem TablesOk.refines {memory : Image} (ok : TablesOk memory) :
    Refines memory (translate memory) := ⟨ok, fun _ _ => rfl⟩

/-- The block may become a page table: it is none of those in use. -/
structure FreshBlock (memory : Image) (allocated : Word) : Prop where
  nonzero : allocated ≠ 0
  notDirectory : frameOf allocated ≠ directoryFrame
  notFirstTable : frameOf allocated ≠ firstTableFrame
  unused : ∀ index < 1023, (pdeAt memory index).present ≠ 0 →
    (pdeAt memory index).frame ≠ frameOf allocated

section Steps

variable {memory : Image} {map : Nat → Option (BitVec 20)}

/-- The invariant is about the directory and one entry of the first table. -/
theorem TablesOk.congr {written : Image} (ok : TablesOk memory)
    (sameDirectory : ∀ index < 1024, pdeAt written index = pdeAt memory index)
    (sameFirst : entryIn written firstTableFrame 0x90 = entryIn memory firstTableFrame 0x90) :
    TablesOk written where
  selfPresent := by rw [sameDirectory 1023 (by decide)]; exact ok.selfPresent
  selfFrame := by rw [sameDirectory 1023 (by decide)]; exact ok.selfFrame
  firstPresent := by rw [sameDirectory 0 (by decide)]; exact ok.firstPresent
  firstFrame := by rw [sameDirectory 0 (by decide)]; exact ok.firstFrame
  directoryPresent := by rw [sameFirst]; exact ok.directoryPresent
  directoryMapped := by rw [sameFirst]; exact ok.directoryMapped
  offDirectory index below := by
    rw [sameDirectory index (by omega)]
    exact ok.offDirectory index below
  distinct index below other otherBelow := by
    rw [sameDirectory index (by omega), sameDirectory other (by omega)]
    exact ok.distinct index below other otherBelow

/-- The table of a directory entry past the first is not the first table. -/
theorem TablesOk.frame_ne_first (ok : TablesOk memory) {index : Nat} (positive : 0 < index)
    (below : index < 1023) (present : (pdeAt memory index).present ≠ 0) :
    (pdeAt memory index).frame ≠ firstTableFrame := by
  rw [← ok.firstFrame]
  exact ok.distinct index below 0 (by decide) (by omega) present ok.firstPresent

/-- The images agree outside the table entry of the page. -/
def SameElsewhere (memory : Image) (page : Nat) (written : Image) : Prop :=
  ∀ offset, offset < entryAddress (pdeAt memory (page / 1024)).frame (page % 1024) ∨
      entryAddress (pdeAt memory (page / 1024)).frame (page % 1024) + 4 ≤ offset →
    written offset = memory offset

section Entry

variable {written : Image} {page : Nat}

/-- Another entry is untouched. -/
theorem SameElsewhere.otherEntry (same : SameElsewhere memory page written) {frame : BitVec 20}
    {index : Nat} (inTable : index < 1024)
    (different : frame ≠ (pdeAt memory (page / 1024)).frame ∨ index ≠ page % 1024) :
    entryIn written frame index = entryIn memory frame index := by
  have frames : frame ≠ (pdeAt memory (page / 1024)).frame →
      frame.toNat ≠ (pdeAt memory (page / 1024)).frame.toNat :=
    fun ne equal => ne (BitVec.eq_of_toNat_eq equal)
  rw [entryIn, entryIn]
  congr 1
  apply wordAt_congr
  intro byte inEntry
  apply same
  simp only [entryAddress, pageSize]
  rcases different with elsewhere | elsewhere
  · have := frames elsewhere
    omega
  · omega

theorem sameElsewhere_setEntry (memory : Image) (page : Nat) (entry : PageEntry) :
    SameElsewhere memory page
      (setEntry memory (pdeAt memory (page / 1024)).frame (page % 1024) entry) :=
  fun _ outside => blit_outside memory (wordImage entry.toWord) outside

variable (ok : TablesOk memory) (inRange : 1024 ≤ page ∧ page < 1023 * 1024)
  (present : (pdeAt memory (page / 1024)).present ≠ 0) (same : SameElsewhere memory page written)

include ok inRange present same

theorem SameElsewhere.directory {index : Nat} (inTable : index < 1024) :
    pdeAt written index = pdeAt memory index :=
  same.otherEntry inTable (Or.inl (ok.offDirectory _ (by omega) present).symm)

theorem SameElsewhere.tablesOk : TablesOk written := by
  refine ok.congr (fun index inTable => same.directory ok inRange present inTable) ?_
  exact same.otherEntry (by decide)
    (Or.inl (ok.frame_ne_first (by omega) (by omega) present).symm)

/-- All other pages keep their translation. -/
theorem SameElsewhere.otherPage {other : Nat} (inSpace : other < 1024 * 1024)
    (different : other ≠ page) : translate written other = translate memory other := by
  unfold translate
  rw [same.directory ok inRange present (show other / 1024 < 1024 by omega)]
  dsimp only
  by_cases absent : (pdeAt memory (other / 1024)).present = 0
  · rw [if_pos absent, if_pos absent]
  · have elsewhere : (pdeAt memory (other / 1024)).frame ≠ (pdeAt memory (page / 1024)).frame ∨
        other % 1024 ≠ page % 1024 := by
      by_cases inWindow : other / 1024 = 1023
      · rw [inWindow, ok.selfFrame]
        exact Or.inl (ok.offDirectory _ (by omega) present).symm
      · by_cases sameTable : other / 1024 = page / 1024
        · exact Or.inr (by omega)
        · exact Or.inl (ok.distinct _ (by omega) _ (by omega) sameTable absent present)
    rw [same.otherEntry (Nat.mod_lt _ (by decide)) elsewhere]

end Entry

/-- Writing a table's entry changes the translation of that page only. -/
theorem Refines.setPage (refines : Refines memory map) {page : Nat} (above : 1024 ≤ page)
    (below : page < 1023 * 1024) (present : (pdeAt memory (page / 1024)).present ≠ 0)
    (entry : PageEntry) :
    Refines (setEntry memory (pdeAt memory (page / 1024)).frame (page % 1024) entry)
      (Function.update map page (if entry.present = 0 then none else some entry.frame)) := by
  have ok := refines.tables
  have same := sameElsewhere_setEntry memory page entry
  refine ⟨same.tablesOk ok ⟨above, below⟩ present, fun other otherBelow => ?_⟩
  by_cases here : other = page
  · subst here
    rw [translate, same.directory ok ⟨above, below⟩ present (by omega)]
    simp only [if_neg present, entryIn_setEntry_self, Function.update_self]
  · rw [Function.update_of_ne here, ← refines.translates other otherBelow]
    exact same.otherPage ok ⟨above, below⟩ present (by omega) here

/-- The memory after a fresh block becomes the table of directory entry `pd`. -/
def withTable (memory : Image) (pd : Nat) (entry : PageEntry) : Image :=
  fill (setEntry memory directoryFrame pd entry) (pageSize * entry.frame.toNat) pageSize 0

section NewTable

variable {pd : Nat} {entry : PageEntry}

theorem pdeAt_withTable (below : pd < 1024) (notDirectory : entry.frame ≠ directoryFrame)
    {index : Nat} (inTable : index < 1024) :
    pdeAt (withTable memory pd entry) index = if index = pd then entry else pdeAt memory index := by
  rw [pdeAt, withTable, entryIn_fill_of_ne inTable notDirectory.symm]
  split
  · rename_i same
    rw [same, entryIn_setEntry_self]
  · rename_i different
    exact entryIn_setEntry_of_ne entry below inTable (Or.inr different)

theorem entryIn_withTable (below : pd < 1024) {other : BitVec 20} {index : Nat}
    (inTable : index < 1024) (notNew : other ≠ entry.frame) (notDirectory : other ≠ directoryFrame) :
    entryIn (withTable memory pd entry) other index = entryIn memory other index := by
  rw [withTable, entryIn_fill_of_ne inTable notNew,
    entryIn_setEntry_of_ne entry below inTable (Or.inl notDirectory)]

/-- Linking a cleared fresh table changes no translation. -/
theorem Refines.newTable (refines : Refines memory map) (positive : 0 < pd) (below : pd < 1023)
    (absent : (pdeAt memory pd).present = 0) (present : entry.present ≠ 0)
    (notDirectory : entry.frame ≠ directoryFrame) (notFirst : entry.frame ≠ firstTableFrame)
    (unused : ∀ index < 1023, (pdeAt memory index).present ≠ 0 →
      (pdeAt memory index).frame ≠ entry.frame) :
    Refines (withTable memory pd entry) map := by
  have ok := refines.tables
  have pde : ∀ index < 1024, pdeAt (withTable memory pd entry) index =
      if index = pd then entry else pdeAt memory index :=
    fun index inTable => pdeAt_withTable (by omega) notDirectory inTable
  have last : pdeAt (withTable memory pd entry) 1023 = pdeAt memory 1023 := by
    rw [pde 1023 (by decide), if_neg (by omega)]
  have first : pdeAt (withTable memory pd entry) 0 = pdeAt memory 0 := by
    rw [pde 0 (by decide), if_neg (by omega)]
  have firstTable : entryIn (withTable memory pd entry) firstTableFrame 0x90 =
      entryIn memory firstTableFrame 0x90 :=
    entryIn_withTable (by omega) (by decide) notFirst.symm firstTableFrame_ne
  constructor
  · constructor
    · rw [last]
      exact ok.selfPresent
    · rw [last]
      exact ok.selfFrame
    · rw [first]
      exact ok.firstPresent
    · rw [first]
      exact ok.firstFrame
    · rw [firstTable]
      exact ok.directoryPresent
    · rw [firstTable]
      exact ok.directoryMapped
    · intro index inTable
      rw [pde index (by omega)]
      split
      · exact fun _ => notDirectory
      · exact ok.offDirectory index inTable
    · intro index inTable other otherInTable different
      rw [pde index (by omega), pde other (by omega)]
      by_cases atIndex : index = pd
      · rw [if_pos atIndex, if_neg (by omega)]
        exact fun _ otherPresent => (unused other otherInTable otherPresent).symm
      · rw [if_neg atIndex]
        by_cases atOther : other = pd
        · rw [if_pos atOther]
          exact fun indexPresent _ => unused index inTable indexPresent
        · rw [if_neg atOther]
          exact ok.distinct index inTable other otherInTable different
  · intro page inMap
    rw [← refines.translates page inMap, translate, translate, pde _ (by omega)]
    by_cases inNew : page / 1024 = pd
    · rw [if_pos inNew, inNew]
      have cleared : entryIn (withTable memory pd entry) entry.frame (page % 1024) =
          ⟨0, 0, 0, 0, 0⟩ := entryIn_fill_self _ _ (by omega)
      simp only [if_neg present, cleared, if_pos absent, if_true]
    · rw [if_neg inNew]
      by_cases noTable : (pdeAt memory (page / 1024)).present = 0
      · simp only [if_pos noTable]
      · simp only [if_neg noTable, entryIn_withTable (show pd < 1024 by omega)
          (show page % 1024 < 1024 by omega) (unused _ (by omega) noTable)
          (ok.offDirectory _ (by omega) noTable)]

end NewTable

/-- The directory entry that `map_page` makes for a new table. -/
def newTableEntry (memory : Image) (pd : Nat) (allocated : Word) : PageEntry :=
  { pdeAt memory pd with present := 1, rw := 1, user := 1, frame := frameOf allocated }

/-- Without a table, the first half of `map_page` links the block and clears it. -/
theorem TablesOk.ensureTable_of_absent (ok : TablesOk memory) {pd allocated : Word}
    (below : pd.toNat < 1023) (absent : (pdeAt memory pd.toNat).present = 0)
    (block : FreshBlock memory allocated) :
    ensureTable memory allocated pd =
      some (withTable memory pd.toNat (newTableEntry memory pd.toNat allocated)) := by
  have inTable : pd.toNat < 1024 := by omega
  unfold ensureTable
  rw [ok.readVirtual_directoryEntry inTable, Option.bind_some, if_neg (not_not.mpr absent),
    if_neg block.nonzero, ok.writeVirtual_directoryEntry inTable, Option.bind_some]
  change memsetVirtual (setEntry memory directoryFrame pd.toNat
    (newTableEntry memory pd.toNat allocated)) _ _ _ _ = _
  have present : (newTableEntry memory pd.toNat allocated).present ≠ 0 :=
    show (1 : BitVec 1) ≠ 0 by decide
  have notDirectory : (newTableEntry memory pd.toNat allocated).frame ≠ directoryFrame :=
    block.notDirectory
  generalize newTableEntry memory pd.toNat allocated = entry at present notDirectory
  -- the window shows the new block while the block is being cleared
  apply memsetVirtual_eq_fill
  intro written unchanged offset inPage
  have kept : ∀ index < 1024, pdeAt written index =
      pdeAt (setEntry memory directoryFrame pd.toNat entry) index := by
    intro index inDirectory
    rw [pdeAt, pdeAt, entryIn, entryIn]
    congr 1
    apply wordAt_congr
    intro byte _
    apply unchanged
    have frames : entry.frame.toNat ≠ directoryFrame.toNat :=
      fun same => notDirectory (BitVec.eq_of_toNat_eq same)
    simp only [entryAddress, pageSize]
    omega
  have self : pdeAt written 1023 = pdeAt memory 1023 := by
    rw [kept 1023 (by decide)]
    exact entryIn_setEntry_of_ne entry inTable (by decide) (Or.inr (by omega))
  have linked : pdeAt written pd.toNat = entry := by
    rw [kept _ inTable]
    exact entryIn_setEntry_self _ _ _ _
  have reached := walk_tableWindow (self ▸ ok.selfPresent) (self ▸ ok.selfFrame) inTable
    (linked ▸ present) inPage
  rwa [linked] at reached

/-- With a table, it does nothing. -/
theorem TablesOk.ensureTable_of_present (ok : TablesOk memory) {pd : Word} (allocated : Word)
    (below : pd.toNat < 1023) (present : (pdeAt memory pd.toNat).present ≠ 0) :
    ensureTable memory allocated pd = some memory := by
  unfold ensureTable
  rw [ok.readVirtual_directoryEntry (by omega), Option.bind_some, if_pos present]

/-- The first half of `map_page` leaves a present table and every translation. -/
theorem Refines.readyTable (refines : Refines memory map) {pd allocated : Word}
    (positive : 0 < pd.toNat) (below : pd.toNat < 1023)
    (fresh : (pdeAt memory pd.toNat).present = 0 → FreshBlock memory allocated) :
    ∃ ready, ensureTable memory allocated pd = some ready ∧ Refines ready map ∧
      (pdeAt ready pd.toNat).present ≠ 0 := by
  have ok := refines.tables
  by_cases absent : (pdeAt memory pd.toNat).present = 0
  · have block := fresh absent
    have present : (newTableEntry memory pd.toNat allocated).present ≠ 0 :=
      show (1 : BitVec 1) ≠ 0 by decide
    refine ⟨_, ok.ensureTable_of_absent below absent block, ?_, ?_⟩
    · exact refines.newTable positive below absent present block.notDirectory
        block.notFirstTable block.unused
    · rw [pdeAt_withTable (by omega) block.notDirectory (by omega), if_pos rfl]
      exact present
  · exact ⟨memory, ok.ensureTable_of_present allocated below absent, refines, absent⟩

end Steps

/-! ### Calls -/

/-- A call of `map_page`, with what `pmm_alloc_block` returns if it is called. -/
structure MapCall where
  physAddr : Word
  virtAddr : Word
  flags : Word
  allocated : Word

/-- The address lies between the first 4 MiB and the window on the tables. -/
def MapCall.InRange (call : MapCall) : Prop :=
  0x400000 ≤ call.virtAddr.toNat ∧ call.virtAddr.toNat < 0xFFC00000

/-- If the call needs a new table, it gets a fresh block. -/
def MapCall.GetsFresh (call : MapCall) (memory : Image) : Prop :=
  (pdeAt memory (pdIdx call.virtAddr).toNat).present = 0 → FreshBlock memory call.allocated

def MapCall.exec (call : MapCall) (memory : Image) : Option Image :=
  mapPage memory call.allocated call.physAddr call.virtAddr call.flags

/-- What the call does to the map. -/
def assign (map : Nat → Option (BitVec 20)) (call : MapCall) : Nat → Option (BitVec 20) :=
  Function.update map (pageOf call.virtAddr)
    (if call.flags &&& ptePresent ≠ 0 then some (frameOf call.physAddr) else none)

/-- A call in range has a result, which refines the updated map. -/
theorem Refines.step {memory : Image} {map : Nat → Option (BitVec 20)}
    (refines : Refines memory map) {call : MapCall} (inRange : call.InRange)
    (fresh : call.GetsFresh memory) :
    ∃ after, call.exec memory = some after ∧ Refines after (assign map call) := by
  obtain ⟨above, below⟩ := inRange
  have value := pdIdx_toNat call.virtAddr
  obtain ⟨ready, table, readyRefines, present⟩ := refines.readyTable
    (show 0 < (pdIdx call.virtAddr).toNat by omega) (by omega) fresh
  unfold MapCall.exec mapPage
  rw [table, Option.bind_some, readyRefines.tables.readVirtual_tableEntry _ present,
    Option.bind_some, readyRefines.tables.writeVirtual_tableEntry _ present]
  refine ⟨_, rfl, ?_⟩
  have inMap : 1024 ≤ pageOf call.virtAddr ∧ pageOf call.virtAddr < 1023 * 1024 := by
    rw [pageOf]
    omega
  have updated := fun entry => readyRefines.setPage inMap.1 inMap.2
    (show (pdeAt ready (pageOf call.virtAddr / 1024)).present ≠ 0 by rwa [pageOf_div]) entry
  simp only [pageOf_div, pageOf_mod] at updated
  have mapped : assign map call = Function.update map (pageOf call.virtAddr)
      (if flagBit call.flags ptePresent = 0 then none else some (frameOf call.physAddr)) := by
    rw [assign, flagBit]
    by_cases present : call.flags &&& ptePresent ≠ 0
    · rw [if_pos present, if_pos present, if_neg (by decide)]
    · rw [if_neg present, if_neg present, if_pos rfl]
  rw [mapped]
  exact updated _

end BrainDance.Memory
