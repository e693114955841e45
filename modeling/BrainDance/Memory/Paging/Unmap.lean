import BrainDance.Memory.Paging.Frames
import BrainDance.Memory.Paging.Runs

/-!
Owns the comparison of `unmap_page` with `map_page` and `get_phys_addr`. These
two reach a table through the window; `unmap_page` uses the table's physical
address as a virtual one, which leads to the table only while that page of
addresses is mapped to itself. The first 4 MiB are, and no code checks that
tables stay there. The main result says exactly when `unmap_page` undoes a
mapping, in every state that earlier calls leave.
-/

namespace BrainDance.Memory

open BrainDance.Foundation
open BrainDance.Libc
open BrainDance.Arch

/-! ### The pointer to the table -/

/-- The table that the directory names for the address. -/
abbrev tableFrame (memory : Image) (virtAddr : Word) : BitVec 20 :=
  (pdeAt memory (pageOf virtAddr / 1024)).frame

/-- The address's entry in that table. -/
abbrev entryOf (memory : Image) (virtAddr : Word) : Nat :=
  entryAddress (tableFrame memory virtAddr) (pageOf virtAddr % 1024)

section Pointer

variable {frame : BitVec 20} {virtAddr : Word} {offset : Nat}

theorem tablePointer_toNat (inEntry : offset < 4) :
    (tablePointer frame virtAddr + BitVec.ofNat 32 offset).toNat =
      4096 * frame.toNat + 4 * (pageOf virtAddr % 1024) + offset := by
  have small := ptIdx_lt virtAddr
  have inFrame := frame.isLt
  rw [tablePointer, BitVec.toNat_add, BitVec.toNat_add, BitVec.toNat_shiftLeft,
    BitVec.toNat_setWidth, BitVec.toNat_mul, BitVec.toNat_ofNat, Nat.shiftLeft_eq,
    show (4 : Word).toNat = 4 from rfl, pageOf_mod]
  omega

/-- The pointer leads to the frame that the table's number is mapped to. -/
theorem walk_tablePointer (memory : Image) (inEntry : offset < 4) :
    walk memory directoryFrame (tablePointer frame virtAddr + BitVec.ofNat 32 offset) =
      (translate memory frame.toNat).map fun target =>
        entryAddress target (pageOf virtAddr % 1024) + offset := by
  have address := @tablePointer_toNat frame virtAddr offset inEntry
  have inTable : pageOf virtAddr % 1024 < 1024 := Nat.mod_lt _ (by decide)
  have page : pageOf (tablePointer frame virtAddr + BitVec.ofNat 32 offset) = frame.toNat := by
    rw [pageOf, address]
    omega
  have within : pageOffset (tablePointer frame virtAddr + BitVec.ofNat 32 offset) =
      4 * (pageOf virtAddr % 1024) + offset := by
    rw [pageOffset_eq, address]
    omega
  rw [walk_eq_translate, page, within]
  congr 1
  funext target
  rw [entryAddress]
  omega

end Pointer

/-! ### The property and the condition -/

/-- The page of the address is unmapped in `after`; every other page, and every
byte off the entry that the window shows, is as it was. -/
structure Unmapped (memory : Image) (virtAddr : Word) (after : Image) : Prop where
  gone : ∀ address, pageOf address = pageOf virtAddr → getPhysAddr after address = some 0
  others : ∀ address, pageOf address ≠ pageOf virtAddr →
    getPhysAddr after address = getPhysAddr memory address
  elsewhere : ∀ offset,
    (∀ entry, walk memory directoryFrame (tableEntry virtAddr) = some entry →
      offset < entry ∨ entry + 4 ≤ offset) → after offset = memory offset

/-- `unmap_page` returns and unmaps the page. -/
def UndoesMap (memory : Image) (virtAddr : Word) : Prop :=
  ∃ after, unmapPage memory virtAddr = some after ∧ Unmapped memory virtAddr after

/-- The table's address is mapped to the table, and is not on the page itself. -/
def ReachesTable (memory : Image) (virtAddr : Word) : Prop :=
  translate memory (tableFrame memory virtAddr).toNat = some (tableFrame memory virtAddr) ∧
    (tableFrame memory virtAddr).toNat ≠ pageOf virtAddr

/-- The page is not mapped, and the table's address leads to a zero entry. -/
def NothingToDo (memory : Image) (virtAddr : Word) : Prop :=
  translate memory (pageOf virtAddr) = none ∧
    ∃ target, translate memory (tableFrame memory virtAddr).toNat = some target ∧
      ∀ offset < 4, memory (entryAddress target (pageOf virtAddr % 1024) + offset) = 0

/-- There is no table, or the table's address leads to it, or there is nothing to do. -/
def CanUnmap (memory : Image) (virtAddr : Word) : Prop :=
  (pdeAt memory (pageOf virtAddr / 1024)).present = 0 ∨ ReachesTable memory virtAddr ∨
    NothingToDo memory virtAddr

section Condition

variable {memory after : Image} {virtAddr : Word}

theorem unmapPage_of_absent (ok : TablesOk memory)
    (absent : (pdeAt memory (pageOf virtAddr / 1024)).present = 0) :
    unmapPage memory virtAddr = some memory := by
  rw [unmapPage, ok.readVirtual_directoryEntry (pdIdx_lt virtAddr), Option.bind_some, ← pageOf_div,
    if_pos absent]

theorem unmapPage_of_present (ok : TablesOk memory)
    (present : (pdeAt memory (pageOf virtAddr / 1024)).present ≠ 0) :
    unmapPage memory virtAddr =
      memsetVirtual memory directoryFrame (tablePointer (tableFrame memory virtAddr) virtAddr) 0 4 := by
  rw [unmapPage, ok.readVirtual_directoryEntry (pdIdx_lt virtAddr), Option.bind_some, ← pageOf_div,
    if_neg present]

/-- `get_phys_addr` answers 0 on the whole page exactly when the page has no frame. -/
theorem gone_iff (ok : TablesOk after) :
    (∀ address, pageOf address = pageOf virtAddr → getPhysAddr after address = some 0) ↔
      translate after (pageOf virtAddr) = none := by
  constructor
  · intro zero
    have inSpace := virtAddr.isLt
    have second : (BitVec.ofNat 32 (4096 * pageOf virtAddr + 1)).toNat =
        4096 * pageOf virtAddr + 1 := by
      rw [BitVec.toNat_ofNat, pageOf]
      omega
    have samePage : pageOf (BitVec.ofNat 32 (4096 * pageOf virtAddr + 1)) = pageOf virtAddr := by
      rw [pageOf, second]
      omega
    have answer := zero _ samePage
    rw [ok.getPhysAddr_eq, samePage, Option.some.injEq] at answer
    cases found : translate after (pageOf virtAddr) with
    | none => rfl
    | some frame =>
        have inFrame := frame.isLt
        have offset : (BitVec.ofNat 32 (4096 * pageOf virtAddr + 1) &&& 0xFFF).toNat = 1 := by
          rw [show (BitVec.ofNat 32 (4096 * pageOf virtAddr + 1) &&& 0xFFF).toNat = _ from
            pageOffset_eq _, second]
          omega
        rw [found, physicalAddress, ← BitVec.toNat_inj, BitVec.toNat_add, offset,
          BitVec.toNat_shiftLeft, BitVec.toNat_setWidth, Nat.shiftLeft_eq,
          show (0 : Word).toNat = 0 from rfl] at answer
        omega
  · intro unmapped address samePage
    rw [ok.getPhysAddr_eq, samePage, unmapped]
    rfl

theorem entryOf_walk (ok : TablesOk memory)
    (present : (pdeAt memory (pageOf virtAddr / 1024)).present ≠ 0) :
    walk memory directoryFrame (tableEntry virtAddr) = some (entryOf memory virtAddr) := by
  rw [pageOf_div] at present
  rw [ok.walk_tableEntry virtAddr present, entryOf, tableFrame, pageOf_div, pageOf_mod]

/-- A page without a frame needs no change. -/
theorem unmapped_self (ok : TablesOk memory)
    (unmapped : translate memory (pageOf virtAddr) = none) :
    Unmapped memory virtAddr memory where
  gone := (gone_iff ok).mpr unmapped
  others _ _ := rfl
  elsewhere _ _ := rfl

/-- The cleared entry is the zero entry. -/
theorem fill_entry_eq_setEntry (memory : Image) (frame : BitVec 20) (index : Nat) :
    fill memory (entryAddress frame index) 4 0 =
      setEntry memory frame index ⟨0, 0, 0, 0, 0⟩ := by
  have zeros : wordImage (PageEntry.toWord ⟨0, 0, 0, 0, 0⟩) = fun _ => 0 := by
    funext offset
    simp [wordImage, PageEntry.toWord]
  rw [setEntry, storeWord, zeros]
  rfl

theorem sameElsewhere_fill (memory : Image) (virtAddr : Word) :
    SameElsewhere memory (pageOf virtAddr) (fill memory (entryOf memory virtAddr) 4 0) :=
  fun _ outside => fill_outside memory 0 outside

/-- Clearing the entry of the address unmaps its page. -/
theorem unmapped_of_cleared (ok : TablesOk memory) (mappable : Mappable virtAddr)
    (present : (pdeAt memory (pageOf virtAddr / 1024)).present ≠ 0) :
    Unmapped memory virtAddr (fill memory (entryOf memory virtAddr) 4 0) := by
  have same := sameElsewhere_fill memory virtAddr
  have okAfter := same.tablesOk ok mappable.page present
  have inRange := mappable.page
  constructor
  · rw [gone_iff okAfter, translate, same.directory ok mappable.page present (by omega),
      fill_entry_eq_setEntry]
    simp only [entryIn_setEntry_self, if_neg present, if_true]
  · intro address other
    have inSpace : pageOf address < 1024 * 1024 := by
      have := address.isLt
      rw [pageOf]
      omega
    rw [okAfter.getPhysAddr_eq, ok.getPhysAddr_eq,
      same.otherPage ok mappable.page present inSpace other]
  · exact fun offset outside => same offset (outside _ (entryOf_walk ok present))

/-- Through a table that its address reaches, the entry is cleared. -/
theorem ReachesTable.unmapPage_eq (reaches : ReachesTable memory virtAddr) (ok : TablesOk memory)
    (mappable : Mappable virtAddr)
    (present : (pdeAt memory (pageOf virtAddr / 1024)).present ≠ 0) :
    unmapPage memory virtAddr = some (fill memory (entryOf memory virtAddr) 4 0) := by
  rw [unmapPage_of_present ok present]
  apply memsetVirtual_eq_fill
  intro written unchanged offset inEntry
  have inSpace := (tableFrame memory virtAddr).isLt
  have same : SameElsewhere memory (pageOf virtAddr) written := unchanged
  rw [walk_tablePointer written inEntry, same.otherPage ok mappable.page present inSpace reaches.2,
    reaches.1]
  rfl

theorem NothingToDo.unmapPage_eq (nothing : NothingToDo memory virtAddr) (ok : TablesOk memory)
    (present : (pdeAt memory (pageOf virtAddr / 1024)).present ≠ 0) :
    unmapPage memory virtAddr = some memory := by
  obtain ⟨_, target, leads, zero⟩ := nothing
  rw [unmapPage_of_present ok present]
  apply memsetVirtual_eq_self 0 _ zero
  intro offset inEntry
  rw [walk_tablePointer memory inEntry, leads]
  rfl

theorem CanUnmap.undoesMap (can : CanUnmap memory virtAddr) (ok : TablesOk memory)
    (mappable : Mappable virtAddr) : UndoesMap memory virtAddr := by
  by_cases absent : (pdeAt memory (pageOf virtAddr / 1024)).present = 0
  · refine ⟨memory, unmapPage_of_absent ok absent, unmapped_self ok ?_⟩
    simp only [translate, if_pos absent]
  · rcases can with none | reaches | nothing
    · exact absurd none absent
    · exact ⟨_, reaches.unmapPage_eq ok mappable absent, unmapped_of_cleared ok mappable absent⟩
    · exact ⟨memory, nothing.unmapPage_eq ok absent, unmapped_self ok nothing.1⟩

end Condition

/-! ### Where it fails -/

section Failure

variable {memory after : Image} {virtAddr : Word}

/-- An entry whose first byte is zero is not present. -/
theorem present_eq_zero {frame : BitVec 20} {index : Nat}
    (first : memory (entryAddress frame index) = 0) : (entryIn memory frame index).present = 0 := by
  apply BitVec.eq_of_getLsbD_eq
  intro bit inField
  obtain rfl : bit = 0 := by omega
  have low := getLsbD_wordAt memory (entryAddress frame index) (show 0 < 32 by decide)
  rw [Nat.zero_div, Nat.add_zero, first] at low
  simpa [entryIn, PageEntry.ofWord] using low

/-- A table whose address leads to another frame is unmapped only if there is
nothing to do: the bytes there belong to something else. -/
theorem UndoesMap.nothingToDo (undoes : UndoesMap memory virtAddr) (ok : TablesOk memory)
    (present : (pdeAt memory (pageOf virtAddr / 1024)).present ≠ 0) {target : BitVec 20}
    (leads : translate memory (tableFrame memory virtAddr).toNat = some target)
    (other : target ≠ tableFrame memory virtAddr) : NothingToDo memory virtAddr := by
  obtain ⟨after, done, unmapped⟩ := undoes
  rw [unmapPage_of_present ok present] at done
  have reached : ∀ offset < 4,
      walk memory directoryFrame
          (tablePointer (tableFrame memory virtAddr) virtAddr + BitVec.ofNat 32 offset) =
        some (entryAddress target (pageOf virtAddr % 1024) + offset) := by
    intro offset inEntry
    rw [walk_tablePointer memory inEntry, leads]
    rfl
  have apart : ∀ offset < 4, after (entryAddress target (pageOf virtAddr % 1024) + offset) =
      memory (entryAddress target (pageOf virtAddr % 1024) + offset) := by
    intro offset inEntry
    apply unmapped.elsewhere
    intro entry isEntry
    rw [entryOf_walk ok present, Option.some.injEq] at isEntry
    have frames : target.toNat ≠ (tableFrame memory virtAddr).toNat :=
      fun same => other (BitVec.eq_of_toNat_eq same)
    simp only [entryOf, entryAddress, pageSize] at isEntry ⊢
    omega
  have zero : ∀ count ≤ 4, ∀ offset < count,
      memory (entryAddress target (pageOf virtAddr % 1024) + offset) = 0 := by
    intro count
    induction count with
    | zero => exact fun _ offset below => absurd below (Nat.not_lt_zero _)
    | succ count inductionHypothesis =>
        intro within offset below
        have earlier := inductionHypothesis (by omega)
        rcases Nat.lt_succ_iff_lt_or_eq.mp below with before | rfl
        · exact earlier offset before
        · have unchanged := memsetVirtual_eq_self 0
            (fun byte inRange => reached byte (by omega)) earlier
          have next : memsetVirtual memory directoryFrame
              (tablePointer (tableFrame memory virtAddr) virtAddr) 0 (offset + 1) =
                some (Function.update memory
                  (entryAddress target (pageOf virtAddr % 1024) + offset) 0) := by
            rw [memsetVirtual, unchanged, Option.bind_some, reached offset (by omega)]
            rfl
          rw [← apart offset (by omega)]
          exact memsetVirtual_keeps within next (Function.update_self _ _ _) done
  have unchanged := memsetVirtual_eq_self 0 reached (zero 4 le_rfl)
  rw [unchanged, Option.some.injEq] at done
  subst done
  exact ⟨(gone_iff ok).mp unmapped.gone, target, leads, zero 4 le_rfl⟩

/-- A table whose address is on the page itself is lost while its entry is
being cleared. -/
theorem memsetVirtual_own_page (ok : TablesOk memory) (mappable : Mappable virtAddr)
    (present : (pdeAt memory (pageOf virtAddr / 1024)).present ≠ 0)
    (leads : translate memory (tableFrame memory virtAddr).toNat = some (tableFrame memory virtAddr))
    (own : (tableFrame memory virtAddr).toNat = pageOf virtAddr) :
    memsetVirtual memory directoryFrame (tablePointer (tableFrame memory virtAddr) virtAddr) 0 2 =
      none := by
  have inRange := mappable.page
  have first : memsetVirtual memory directoryFrame
      (tablePointer (tableFrame memory virtAddr) virtAddr) 0 1 =
        some (Function.update memory (entryOf memory virtAddr) 0) := by
    rw [memsetVirtual, memsetVirtual, Option.bind_some, walk_tablePointer memory (by decide), leads]
    rfl
  have same : SameElsewhere memory (pageOf virtAddr)
      (Function.update memory (entryOf memory virtAddr) 0) := by
    intro offset outside
    refine Function.update_of_ne ?_ _ _
    rw [entryOf, tableFrame]
    omega
  have lost : translate (Function.update memory (entryOf memory virtAddr) 0)
      (tableFrame memory virtAddr).toNat = none := by
    rw [own, translate, same.directory ok mappable.page present (by omega)]
    simp only [if_neg present,
      present_eq_zero (Function.update_self (entryOf memory virtAddr) 0 memory), if_true]
  rw [memsetVirtual, first, Option.bind_some, walk_tablePointer _ (by decide), lost]
  rfl

theorem UndoesMap.canUnmap (undoes : UndoesMap memory virtAddr) (ok : TablesOk memory)
    (mappable : Mappable virtAddr) : CanUnmap memory virtAddr := by
  by_cases absent : (pdeAt memory (pageOf virtAddr / 1024)).present = 0
  · exact Or.inl absent
  · right
    obtain ⟨after, done, unmapped⟩ := undoes
    have written := done
    rw [unmapPage_of_present ok absent] at written
    obtain ⟨middle, firstByte⟩ := memsetVirtual_of_le (show 1 ≤ 4 by decide) written
    rw [memsetVirtual, memsetVirtual, Option.bind_some, walk_tablePointer memory (by decide)]
      at firstByte
    cases leads : translate memory (tableFrame memory virtAddr).toNat with
    | none =>
        rw [leads] at firstByte
        contradiction
    | some target =>
        by_cases other : target = tableFrame memory virtAddr
        · subst other
          refine Or.inl ⟨leads, fun own => ?_⟩
          obtain ⟨middle, twoBytes⟩ := memsetVirtual_of_le (show 2 ≤ 4 by decide) written
          rw [memsetVirtual_own_page ok mappable absent leads own] at twoBytes
          contradiction
        · have undoes : UndoesMap memory virtAddr := ⟨after, done, unmapped⟩
          exact Or.inr (undoes.nothingToDo ok absent leads other)

end Failure

/-! ### Runs -/

/-- A call of `map_page` or `unmap_page`. -/
inductive PageCall where
  | map (call : MapCall)
  | unmap (virtAddr : Word)

/-- `paging_install`, then calls of `map_page` and `unmap_page` on addresses
that may be mapped. A call of `map_page` that needs a table gets a fresh block. -/
def pageCalls : TransitionSystem Image PageCall where
  Init memory := ∃ boot, memory = pagingInstall boot
  Step before call after :=
    match call with
    | .map call => call.InRange ∧ call.GetsFresh before ∧ call.exec before = some after
    | .unmap virtAddr => Mappable virtAddr ∧ unmapPage before virtAddr = some after

/-- The call is not an `unmap_page` that misses the table. -/
def PageCall.Careful (memory : Image) : PageCall → Prop
  | .map _ => True
  | .unmap virtAddr => CanUnmap memory virtAddr

/-- The blocks for new tables are not mapped as data either. -/
def PageCall.OffData (memory : Image) : PageCall → Prop
  | .map call => (pdeAt memory (pdIdx call.virtAddr).toNat).present = 0 →
      ∀ page < 1024 * 1024, translate memory page ≠ some (frameOf call.allocated)
  | .unmap _ => True

section Runs

variable {memory after : Image} {virtAddr : Word}

theorem CanUnmap.tablesOk (can : CanUnmap memory virtAddr) (ok : TablesOk memory)
    (mappable : Mappable virtAddr) (done : unmapPage memory virtAddr = some after) :
    TablesOk after := by
  by_cases absent : (pdeAt memory (pageOf virtAddr / 1024)).present = 0
  · rw [unmapPage_of_absent ok absent, Option.some.injEq] at done
    exact done ▸ ok
  · rcases can with none | reaches | nothing
    · exact absurd none absent
    · rw [reaches.unmapPage_eq ok mappable absent, Option.some.injEq] at done
      exact done ▸ (sameElsewhere_fill memory virtAddr).tablesOk ok mappable.page absent
    · rw [nothing.unmapPage_eq ok absent, Option.some.injEq] at done
      exact done ▸ ok

theorem careful_tablesOk (reachable : (pageCalls.guard PageCall.Careful).Reachable memory) :
    TablesOk memory := by
  apply reachable.invariant TablesOk
  · rintro memory ⟨boot, rfl⟩
    exact (pagingInstall_refines boot).tables
  · rintro before call after _ ok ⟨careful, step⟩
    cases call with
    | map call =>
        obtain ⟨inRange, fresh, executed⟩ := step
        obtain ⟨after', executed', refinesAfter⟩ := ok.refines.step inRange fresh
        rw [executed, Option.some.injEq] at executed'
        exact executed' ▸ refinesAfter.tables
    | unmap virtAddr => exact CanUnmap.tablesOk careful ok step.1 step.2

/-- In every run whose calls of `unmap_page` do not miss their tables, the next
one undoes the mapping exactly when there is no table, or the table's address
leads to it, or there is nothing to do. -/
theorem unmap_undoes_map_iff (reachable : (pageCalls.guard PageCall.Careful).Reachable memory)
    (mappable : Mappable virtAddr) : UndoesMap memory virtAddr ↔ CanUnmap memory virtAddr := by
  have ok := careful_tablesOk reachable
  exact ⟨fun undoes => undoes.canUnmap ok mappable, fun can => can.undoesMap ok mappable⟩

end Runs

/-! ### A table above 4 MiB -/

/-- Mapping 4 MiB to 28 KiB, with the block at `allocated` for the new table. -/
def mapWithTableAt (allocated : Word) : MapCall := ⟨0x7000, 0x400000, ptePresent, allocated⟩

theorem mapWithTableAt_inRange (allocated : Word) : (mapWithTableAt allocated).InRange := by
  rw [MapCall.InRange, show (mapWithTableAt allocated).virtAddr = 0x400000 from rfl]
  decide

theorem mapWithTableAt_absent (allocated : Word) :
    (pdeAt (pagingInstall fun _ => 0) (pdIdx (mapWithTableAt allocated).virtAddr).toNat).present =
      0 := by
  rw [show (mapWithTableAt allocated).virtAddr = 0x400000 from rfl,
    show (pdIdx 0x400000).toNat = 1 by decide, pdeAt_pagingInstall _ (by decide)]
  rfl

/-- With its table at 2 MiB, which is mapped to itself, a mapping is undone. -/
theorem unmap_undoes_map_iff_lowTable :
    ∃ memory, (mapWithTableAt 0x200000).exec (pagingInstall fun _ => 0) = some memory ∧
      UndoesMap memory 0x400000 := by
  have inRange := mapWithTableAt_inRange 0x200000
  have fresh : (mapWithTableAt 0x200000).GetsFresh (pagingInstall fun _ => 0) := fun _ =>
    freshBlock_pagingInstall (by decide) (by decide) (by decide)
  have installed := pagingInstall_refines fun _ => 0
  obtain ⟨memory, executed, refines⟩ := installed.step inRange fresh
  have step : (pageCalls.guard PageCall.Careful).Step (pagingInstall fun _ => 0)
      (.map (mapWithTableAt 0x200000)) memory := ⟨trivial, inRange, fresh, executed⟩
  have reachable : (pageCalls.guard PageCall.Careful).Reachable memory :=
    .step (.init ⟨_, rfl⟩) step
  have absent := mapWithTableAt_absent 0x200000
  have linked := installed.tables.pdeAt_exec inRange fresh executed
    (pdIdx_lt (mapWithTableAt 0x200000).virtAddr)
  rw [if_pos ⟨rfl, absent⟩] at linked
  have frame : tableFrame memory 0x400000 = 0x200 := congrArg PageEntry.frame linked
  have reaches : ReachesTable memory 0x400000 := by
    refine ⟨?_, by rw [frame]; decide⟩
    rw [frame, refines.translates _ (by decide)]
    decide
  exact ⟨memory, executed,
    (unmap_undoes_map_iff reachable (by constructor <;> decide)).mpr (.inr (.inl reaches))⟩

/-- The installed tables map no page to a frame above 4 MiB. -/
theorem translate_pagingInstall_ne (boot : Image) {frame : BitVec 20} (high : 1024 ≤ frame.toNat)
    {page : Nat} (inSpace : page < 1024 * 1024) :
    translate (pagingInstall boot) page ≠ some frame := by
  intro mapped
  by_cases inWindow : page / 1024 = 1023
  · rw [translate, inWindow, pdeAt_pagingInstall _ (by decide), if_pos rfl] at mapped
    have low : (pdeAt (pagingInstall boot) (page % 1024)).frame.toNat < 1024 := by
      rw [pdeAt_pagingInstall boot (show page % 1024 < 1024 by omega)]
      split
      · decide
      · split <;> decide
    dsimp only at mapped
    rw [if_neg (by decide)] at mapped
    split at mapped
    · contradiction
    · obtain rfl := Option.some.inj mapped
      exact absurd low (Nat.not_lt.mpr high)
  · rw [(pagingInstall_refines boot).translates page (by omega), identityPages] at mapped
    split at mapped
    · obtain rfl := Option.some.inj mapped
      rw [BitVec.toNat_ofNat] at high
      omega
    · contradiction

/-- With its table at 8 MiB, where no page of addresses is mapped, `unmap_page`
faults. -/
theorem unmap_undoes_map_fails :
    ¬ ∀ (memory : Image) (virtAddr : Word),
      (pageCalls.guard PageCall.OffData).Reachable memory → Mappable virtAddr →
        UndoesMap memory virtAddr := by
  intro always
  have mappable : Mappable 0x400000 := by constructor <;> decide
  have inRange := mapWithTableAt_inRange 0x800000
  have fresh : (mapWithTableAt 0x800000).GetsFresh (pagingInstall fun _ => 0) := fun _ =>
    freshBlock_pagingInstall (by decide) (by decide) (by decide)
  have installed := pagingInstall_refines fun _ => 0
  obtain ⟨memory, executed, refines⟩ := installed.step inRange fresh
  have offData : PageCall.OffData (pagingInstall fun _ => 0) (.map (mapWithTableAt 0x800000)) :=
    fun _ _ inSpace => translate_pagingInstall_ne _ (by decide) inSpace
  have step : (pageCalls.guard PageCall.OffData).Step (pagingInstall fun _ => 0)
      (.map (mapWithTableAt 0x800000)) memory := ⟨offData, inRange, fresh, executed⟩
  have undoes := always memory 0x400000 (.step (.init ⟨_, rfl⟩) step) mappable
  have absent := mapWithTableAt_absent 0x800000
  have linked := installed.tables.pdeAt_exec inRange fresh executed
    (pdIdx_lt (mapWithTableAt 0x800000).virtAddr)
  rw [if_pos ⟨rfl, absent⟩] at linked
  have frame : tableFrame memory 0x400000 = 0x800 := congrArg PageEntry.frame linked
  have present : (pdeAt memory (pageOf 0x400000 / 1024)).present = 1 :=
    congrArg PageEntry.present linked
  have unmapped : translate memory 0x800 = none := by
    rw [refines.translates _ (by decide)]
    decide
  rcases undoes.canUnmap refines.tables mappable with none | ⟨reaches, _⟩ | ⟨_, target, leads, _⟩
  · rw [present] at none
    exact absurd none (by decide)
  · rw [frame, show (0x800 : BitVec 20).toNat = 0x800 from rfl, unmapped] at reaches
    exact Option.some_ne_none _ reaches.symm
  · rw [frame, show (0x800 : BitVec 20).toNat = 0x800 from rfl, unmapped] at leads
    exact Option.some_ne_none _ leads.symm

end BrainDance.Memory
