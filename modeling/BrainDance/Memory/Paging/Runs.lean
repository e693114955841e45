import Mathlib.Data.List.Induction
import BrainDance.Memory.Paging.Refinement

/-!
Owns the state that `paging_install` builds and the runs of `map_page` from it.
The installed tables refine the identity on the first 4 MiB, every call keeps
the refinement, and so `get_phys_addr` answers for each address according to the
latest call for its page.
-/

namespace BrainDance.Memory

open BrainDance.Foundation
open BrainDance.Libc
open BrainDance.Arch

/-! ### Installation -/

/-- The first 4 MiB mapped to themselves, nothing else. -/
def identityPages (page : Nat) : Option (BitVec 20) :=
  if page < 1024 then some (BitVec.ofNat 20 page) else none

section Installation

variable {memory : Image}

theorem frameOf_identity (i : Nat) :
    frameOf (BitVec.ofNat 32 i * 0x1000) = BitVec.ofNat 20 i := by
  apply BitVec.eq_of_toNat_eq
  rw [frameOf_toNat, BitVec.toNat_mul, BitVec.toNat_ofNat, BitVec.toNat_ofNat,
    show (0x1000 : Word).toNat = 0x1000 from rfl]
  omega

theorem entryIn_identityMap (memory : Image) {count : Nat} (within : count ≤ 1024)
    {frame : BitVec 20} {index : Nat} (inTable : index < 1024) :
    entryIn (identityMap memory count) frame index =
      if frame = firstTableFrame ∧ index < count then
        { entryIn memory frame index with present := 1, rw := 1, frame := BitVec.ofNat 20 index }
      else entryIn memory frame index := by
  induction count with
  | zero => rw [if_neg (by omega)]; rfl
  | succ count inductionHypothesis =>
      have earlier := inductionHypothesis (by omega)
      rw [identityMap]
      by_cases last : frame = firstTableFrame ∧ index = count
      · obtain ⟨rfl, rfl⟩ := last
        rw [if_neg fun both => lt_irrefl _ both.2] at earlier
        rw [entryIn_setEntry_self, earlier, frameOf_identity, if_pos ⟨rfl, by omega⟩]
      · have different : frame ≠ firstTableFrame ∨ index ≠ count := by
          by_cases atFirst : frame = firstTableFrame
          · exact Or.inr fun atCount => last ⟨atFirst, atCount⟩
          · exact Or.inl atFirst
        rw [entryIn_setEntry_of_ne _ (by omega) inTable different, earlier]
        congr 1
        simp only [eq_iff_iff]
        refine and_congr_right fun atFirst => ?_
        have notCount : index ≠ count := fun atCount => last ⟨atFirst, atCount⟩
        omega

/-- Both tables are cleared before they are filled. -/
theorem entryIn_cleared {frame : BitVec 20} (table : frame = directoryFrame ∨ frame = firstTableFrame)
    {index : Nat} (inTable : index < 1024) :
    entryIn (memset (memset memory pageDirectory.toNat 0 pageSize) firstPageTable.toNat 0 pageSize)
      frame index = ⟨0, 0, 0, 0, 0⟩ := by
  rw [memset_eq_fill, memset_eq_fill,
    show pageDirectory.toNat = pageSize * directoryFrame.toNat by decide,
    show firstPageTable.toNat = pageSize * firstTableFrame.toNat by decide]
  rcases table with rfl | rfl
  · rw [entryIn_fill_of_ne inTable firstTableFrame_ne.symm, entryIn_fill_self _ _ inTable]
  · exact entryIn_fill_self _ _ inTable

theorem pdeAt_pagingInstall (memory : Image) {index : Nat} (inTable : index < 1024) :
    pdeAt (pagingInstall memory) index =
      if index = 1023 then ⟨1, 1, 0, 0, directoryFrame⟩
      else if index = 0 then ⟨1, 1, 0, 0, firstTableFrame⟩
      else ⟨0, 0, 0, 0, 0⟩ := by
  have mapped : ∀ other < 1024, entryIn (identityMap
      (memset (memset memory pageDirectory.toNat 0 pageSize) firstPageTable.toNat 0 pageSize) 1024)
      directoryFrame other = ⟨0, 0, 0, 0, 0⟩ := by
    intro other otherInTable
    rw [entryIn_identityMap _ le_rfl otherInTable, if_neg fun both => firstTableFrame_ne both.1.symm,
      entryIn_cleared (Or.inl rfl) otherInTable]
  unfold pagingInstall linkDirectory
  simp only []
  by_cases last : index = 1023
  · rw [if_pos last, last, pdeAt, entryIn_setEntry_self,
      entryIn_setEntry_of_ne _ (by decide) (by decide) (Or.inr (by decide)),
      mapped 1023 (by decide)]
    rfl
  · rw [if_neg last, pdeAt, entryIn_setEntry_of_ne _ (by decide) inTable (Or.inr last)]
    by_cases first : index = 0
    · rw [if_pos first, first, entryIn_setEntry_self, mapped 0 (by decide)]
      rfl
    · rw [if_neg first, entryIn_setEntry_of_ne _ (by decide) inTable (Or.inr first),
        mapped index inTable]

theorem firstTable_pagingInstall (memory : Image) {index : Nat} (inTable : index < 1024) :
    entryIn (pagingInstall memory) firstTableFrame index =
      ⟨1, 1, 0, 0, BitVec.ofNat 20 index⟩ := by
  unfold pagingInstall linkDirectory
  simp only []
  rw [entryIn_setEntry_of_ne _ (by decide) inTable (Or.inl firstTableFrame_ne),
    entryIn_setEntry_of_ne _ (by decide) inTable (Or.inl firstTableFrame_ne),
    entryIn_identityMap _ le_rfl inTable, if_pos ⟨rfl, inTable⟩,
    entryIn_cleared (Or.inr rfl) inTable]

/-- Below the window only the first table is there. -/
theorem present_pagingInstall {index : Nat} (inTable : index < 1023)
    (present : (pdeAt (pagingInstall memory) index).present ≠ 0) : index = 0 := by
  by_contra notFirst
  rw [pdeAt_pagingInstall memory (by omega), if_neg (by omega), if_neg notFirst] at present
  exact present rfl

/-- On the installed tables any block off the directory and the first table is fresh. -/
theorem freshBlock_pagingInstall {block : Word} (nonzero : block ≠ 0)
    (notDirectory : frameOf block ≠ directoryFrame)
    (notFirstTable : frameOf block ≠ firstTableFrame) :
    FreshBlock (pagingInstall memory) block where
  nonzero := nonzero
  notDirectory := notDirectory
  notFirstTable := notFirstTable
  unused index inTable present := by
    rw [present_pagingInstall inTable present, pdeAt_pagingInstall _ (by decide)]
    exact notFirstTable.symm

theorem pagingInstall_refines (memory : Image) : Refines (pagingInstall memory) identityPages := by
  have pde : ∀ index < 1024, _ := fun index => @pdeAt_pagingInstall memory index
  constructor
  · constructor
    · rw [pde 1023 (by decide)]
      decide
    · rw [pde 1023 (by decide)]
      rfl
    · rw [pde 0 (by decide)]
      decide
    · rw [pde 0 (by decide)]
      rfl
    · rw [firstTable_pagingInstall memory (by decide)]
      decide
    · rw [firstTable_pagingInstall memory (by decide)]
      decide
    · intro index inTable present
      rw [present_pagingInstall inTable present, pde 0 (by decide)]
      exact firstTableFrame_ne
    · intro index inTable other otherInTable different present otherPresent
      exact absurd ((present_pagingInstall inTable present).trans
        (present_pagingInstall otherInTable otherPresent).symm) different
  · intro page inMap
    have notLast : page / 1024 ≠ 1023 := by omega
    unfold translate identityPages
    simp only [pde _ (show page / 1024 < 1024 by omega), if_neg notLast]
    by_cases low : page < 1024
    · have first : page / 1024 = 0 := by omega
      have inFirst : page % 1024 = page := by omega
      rw [if_pos low]
      simp only [if_pos first, inFirst, firstTable_pagingInstall memory low]
      rfl
    · have later : page / 1024 ≠ 0 := by omega
      rw [if_neg low]
      simp only [if_neg later]
      rfl

end Installation

/-! ### Runs -/

/-- `paging_install`, then calls of `map_page` in range that get fresh blocks. -/
def paging : TransitionSystem Image MapCall where
  Init memory := ∃ boot, memory = pagingInstall boot
  Step before call after :=
    call.InRange ∧ call.GetsFresh before ∧ call.exec before = some after

theorem paging_run_refines {boot memory : Image} {calls : List MapCall}
    (run : paging.Run (pagingInstall boot) calls memory) :
    Refines memory (calls.foldl assign identityPages) := by
  refine run.simulation Refines assign ?_ (pagingInstall_refines boot)
  rintro before call after map refines ⟨inRange, fresh, executed⟩
  obtain ⟨after', executed', refinesAfter⟩ := refines.step inRange fresh
  rw [executed, Option.some.injEq] at executed'
  rwa [executed']

/-- The latest call for the page of an address. -/
def latest (calls : List MapCall) (virtAddr : Word) : Option MapCall :=
  calls.reverse.find? fun call => pageOf call.virtAddr = pageOf virtAddr

/-- The answer the latest call for the page of an address gives. -/
def expectedAddr (calls : List MapCall) (virtAddr : Word) : Word :=
  match latest calls virtAddr with
  | some call =>
      if call.flags &&& ptePresent ≠ 0 then (call.physAddr &&& ~~~0xFFF) + (virtAddr &&& 0xFFF)
      else 0
  | none => if virtAddr.toNat < 0x400000 then virtAddr else 0

theorem foldl_assign (calls : List MapCall) (virtAddr : Word) :
    calls.foldl assign identityPages (pageOf virtAddr) =
      match latest calls virtAddr with
      | some call =>
          if call.flags &&& ptePresent ≠ 0 then some (frameOf call.physAddr) else none
      | none => identityPages (pageOf virtAddr) := by
  induction calls using List.reverseRecOn with
  | nil => rfl
  | append_singleton calls call inductionHypothesis =>
      rw [List.foldl_append, List.foldl_cons, List.foldl_nil, assign, latest, List.reverse_append,
        List.reverse_singleton, List.singleton_append, List.find?_cons]
      by_cases samePage : pageOf call.virtAddr = pageOf virtAddr
      · rw [decide_eq_true samePage, ← samePage, Function.update_self]
      · rw [decide_eq_false samePage, Function.update_of_ne (Ne.symm samePage), inductionHypothesis]
        rfl

/-- The map after the calls gives the expected answer. -/
theorem physicalAddress_foldl_assign (calls : List MapCall) (virtAddr : Word) :
    physicalAddress (calls.foldl assign identityPages (pageOf virtAddr)) virtAddr =
      expectedAddr calls virtAddr := by
  rw [foldl_assign, expectedAddr]
  cases latest calls virtAddr with
  | some call =>
      simp only []
      split
      · exact physicalAddress_frameOf _ _
      · rfl
  | none =>
      have inLow : pageOf virtAddr < 1024 ↔ virtAddr.toNat < 0x400000 := by
        rw [pageOf]
        omega
      simp only [identityPages, inLow]
      split
      · exact physicalAddress_identity (inLow.mpr ‹_›)
      · rfl

/-- From the installed tables, after any calls, `get_phys_addr` answers for the
latest call of the address's page, and one more call has a result that leaves
every other page as it is. -/
theorem page_tables_refine_map {boot memory : Image} {calls : List MapCall}
    (run : paging.Run (pagingInstall boot) calls memory) :
    (∀ virtAddr : Word, virtAddr.toNat < 0xFFC00000 →
      getPhysAddr memory virtAddr = some (expectedAddr calls virtAddr)) ∧
    ∀ call : MapCall, call.InRange → call.GetsFresh memory →
      ∃ after, call.exec memory = some after ∧
        ∀ virtAddr : Word, virtAddr.toNat < 0xFFC00000 → pageOf virtAddr ≠ pageOf call.virtAddr →
          getPhysAddr after virtAddr = getPhysAddr memory virtAddr := by
  have refines := paging_run_refines run
  constructor
  · intro virtAddr below
    rw [refines.getPhysAddr_eq below, physicalAddress_foldl_assign]
  · intro call inRange fresh
    obtain ⟨after, executed, refinesAfter⟩ := refines.step inRange fresh
    refine ⟨after, executed, ?_⟩
    intro virtAddr below otherPage
    rw [refinesAfter.getPhysAddr_eq below, refines.getPhysAddr_eq below, assign,
      Function.update_of_ne otherPage]

/-- Mapping 4 MiB to 28 KiB builds a table, which leaves the next page unmapped. -/
theorem page_tables_refine_map_newTable :
    ∃ memory, paging.Run (pagingInstall fun _ => 0) [⟨0x7000, 0x400000, ptePresent, 0x200000⟩] memory ∧
      getPhysAddr memory 0x400123 = some 0x7123 ∧ getPhysAddr memory 0x401123 = some 0 := by
  have inRange : MapCall.InRange ⟨0x7000, 0x400000, ptePresent, 0x200000⟩ := by
    constructor <;> decide
  have fresh : MapCall.GetsFresh ⟨0x7000, 0x400000, ptePresent, 0x200000⟩
      (pagingInstall fun _ => 0) :=
    fun _ => freshBlock_pagingInstall (by decide) (by decide) (by decide)
  obtain ⟨memory, executed, _⟩ := (pagingInstall_refines fun _ => 0).step inRange fresh
  have run : paging.Run (pagingInstall fun _ => 0) [_] memory :=
    .cons ⟨inRange, fresh, executed⟩ (.nil memory)
  have answers := (page_tables_refine_map run).1
  refine ⟨memory, run, ?_, ?_⟩
  · rw [answers _ (by decide)]
    decide
  · rw [answers _ (by decide)]
    decide

end BrainDance.Memory
