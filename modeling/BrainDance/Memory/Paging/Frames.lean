import BrainDance.Memory.Paging.Refinement

/-!
Owns the frames behind the page tables: which directory entries a call of
`map_page` changes, and that a write to a block that is no table changes no
entry and no translation.
-/

namespace BrainDance.Memory

open BrainDance.Foundation
open BrainDance.Arch

/-- The address lies between the first 4 MiB and the window on the tables. -/
def Mappable (virtAddr : Word) : Prop :=
  0x400000 ≤ virtAddr.toNat ∧ virtAddr.toNat < 0xFFC00000

theorem Mappable.page {virtAddr : Word} (mappable : Mappable virtAddr) :
    1024 ≤ pageOf virtAddr ∧ pageOf virtAddr < 1023 * 1024 := by
  unfold Mappable at mappable
  rw [pageOf]
  omega

theorem walk_eq_translate (memory : Image) (address : Word) :
    walk memory directoryFrame address = (translate memory (pageOf address)).map fun frame =>
      pageSize * frame.toNat + pageOffset address := by
  have inDirectory : directoryIndex address = pageOf address / 1024 := by
    rw [directoryIndex_eq, pageOf]
    omega
  have inTable : tableIndex address = pageOf address % 1024 := by
    rw [tableIndex_eq, pageOf]
    omega
  unfold walk translate
  rw [inDirectory, inTable]
  dsimp only
  split
  · rfl
  · split <;> rfl

/-- A call changes the directory only where it makes a table. -/
theorem TablesOk.pdeAt_exec {memory after : Image} (ok : TablesOk memory) {call : MapCall}
    (inRange : call.InRange) (fresh : call.GetsFresh memory) (executed : call.exec memory = some after)
    {index : Nat} (inTable : index < 1024) :
    pdeAt after index =
      if index = (pdIdx call.virtAddr).toNat ∧ (pdeAt memory index).present = 0 then
        newTableEntry memory index call.allocated
      else pdeAt memory index := by
  obtain ⟨above, below⟩ := inRange
  have value := pdIdx_toNat call.virtAddr
  have inDirectory : (pdIdx call.virtAddr).toNat < 1023 := by omega
  unfold MapCall.exec mapPage at executed
  by_cases absent : (pdeAt memory (pdIdx call.virtAddr).toNat).present = 0
  · have block := fresh absent
    have linked : ∀ other < 1024, pdeAt (withTable memory (pdIdx call.virtAddr).toNat
        (newTableEntry memory (pdIdx call.virtAddr).toNat call.allocated)) other =
          if other = (pdIdx call.virtAddr).toNat then
            newTableEntry memory (pdIdx call.virtAddr).toNat call.allocated
          else pdeAt memory other :=
      fun other otherInTable => pdeAt_withTable (by omega) block.notDirectory otherInTable
    have here := linked (pdIdx call.virtAddr).toNat (by omega)
    rw [if_pos rfl] at here
    have present : (pdeAt (withTable memory (pdIdx call.virtAddr).toNat
        (newTableEntry memory (pdIdx call.virtAddr).toNat call.allocated))
          (pdIdx call.virtAddr).toNat).present ≠ 0 := by
      rw [here]
      exact show (1 : BitVec 1) ≠ 0 by decide
    have ready := (ok.refines.newTable (by omega) inDirectory absent (here ▸ present)
      block.notDirectory block.notFirstTable block.unused).tables
    rw [ok.ensureTable_of_absent inDirectory absent block, Option.bind_some,
      ready.readVirtual_tableEntry _ present, Option.bind_some,
      ready.writeVirtual_tableEntry _ present, Option.some.injEq, here] at executed
    rw [← executed]
    refine (entryIn_setEntry_of_ne _ (ptIdx_lt _) inTable (Or.inl ?_)).trans ?_
    · exact block.notDirectory.symm
    · refine (linked index inTable).trans ?_
      by_cases atCall : index = (pdIdx call.virtAddr).toNat
      · rw [if_pos atCall, if_pos ⟨atCall, atCall ▸ absent⟩, atCall]
      · rw [if_neg atCall, if_neg fun both => atCall both.1]
  · rw [ok.ensureTable_of_present call.allocated inDirectory absent, Option.bind_some,
      ok.readVirtual_tableEntry _ absent, Option.bind_some,
      ok.writeVirtual_tableEntry _ absent, Option.some.injEq] at executed
    have notNew : ¬ (index = (pdIdx call.virtAddr).toNat ∧ (pdeAt memory index).present = 0) :=
      fun both => absent (both.1 ▸ both.2)
    rw [← executed, if_neg notNew]
    exact entryIn_setEntry_of_ne _ (ptIdx_lt _) inTable
      (Or.inl (ok.offDirectory _ inDirectory absent).symm)

/-! ### Writes to blocks that are not tables -/

/-- The images agree outside the block. -/
def SameOutside (memory : Image) (block : Word) (written : Image) : Prop :=
  ∀ offset, offset / pageSize ≠ (frameOf block).toNat → written offset = memory offset

section Data

variable {memory written : Image} {block : Word}

theorem SameOutside.entryIn (same : SameOutside memory block written) {frame : BitVec 20}
    {index : Nat} (inTable : index < 1024) (other : frame ≠ frameOf block) :
    entryIn written frame index = entryIn memory frame index := by
  have frames : frame.toNat ≠ (frameOf block).toNat := fun equal => other (BitVec.eq_of_toNat_eq equal)
  rw [Arch.entryIn, Arch.entryIn]
  congr 1
  apply wordAt_congr
  intro byte inEntry
  apply same
  simp only [entryAddress, pageSize]
  omega

theorem SameOutside.directory (same : SameOutside memory block written)
    (fresh : FreshBlock memory block) {index : Nat} (inTable : index < 1024) :
    pdeAt written index = pdeAt memory index :=
  same.entryIn inTable fresh.notDirectory.symm

theorem SameOutside.tablesOk (same : SameOutside memory block written)
    (fresh : FreshBlock memory block) (ok : TablesOk memory) : TablesOk written :=
  ok.congr (fun _ inTable => same.directory fresh inTable)
    (same.entryIn (by decide) fresh.notFirstTable.symm)

/-- A write to a block that is no table changes no translation. -/
theorem SameOutside.otherPage (same : SameOutside memory block written)
    (fresh : FreshBlock memory block) {page : Nat} (inMap : page < 1023 * 1024) :
    translate written page = translate memory page := by
  unfold translate
  rw [same.directory fresh (show page / 1024 < 1024 by omega)]
  dsimp only
  by_cases absent : (pdeAt memory (page / 1024)).present = 0
  · rw [if_pos absent, if_pos absent]
  · rw [same.entryIn (Nat.mod_lt _ (by decide)) (fresh.unused _ (by omega) absent)]

theorem SameOutside.trans {last : Image} (first : SameOutside memory block written)
    (second : SameOutside written block last) : SameOutside memory block last :=
  fun offset outside => (second offset outside).trans (first offset outside)

/-- A block that is no table before the write is none after it. -/
theorem SameOutside.freshBlock (same : SameOutside memory block written)
    (fresh : FreshBlock memory block) {other : Word} (otherFresh : FreshBlock memory other) :
    FreshBlock written other where
  nonzero := otherFresh.nonzero
  notDirectory := otherFresh.notDirectory
  notFirstTable := otherFresh.notFirstTable
  unused index inTable := by
    rw [same.directory fresh (by omega)]
    exact otherFresh.unused index inTable

end Data

end BrainDance.Memory
