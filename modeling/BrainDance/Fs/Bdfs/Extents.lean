import Mathlib.Order.Interval.Finset.Nat
import BrainDance.Fs.Bdfs.Steps

/-!
Owns the data sectors: which of the 64 a file occupies, the meaning of
`find_free_sector` as the first sector after every file, and the invariant that
files stay inside the data region and apart from each other.

An empty file keeps a stale start sector. The invariant bounds it too, since the
high-water mark counts it.
-/

namespace BrainDance.Fs.Bdfs

open BrainDance.Foundation
open BrainDance.Libc

/-- `ceil(length / 512)`. -/
def sectorCount (length : Word) : Nat := (length.toNat + 511) / 512

/-- A live regular file. -/
def FileEntry.IsFile (entry : FileEntry) : Prop := entry.Live ∧ entry.type = .file

instance (entry : FileEntry) : Decidable entry.IsFile := inferInstanceAs (Decidable (_ ∧ _))

/-- The first sector after the entry's extent. -/
def FileEntry.endSector (entry : FileEntry) : Nat :=
  entry.startSector.toNat + sectorCount entry.length

/-- The data sectors the entry occupies. -/
def FileEntry.sectors (entry : FileEntry) : Finset Nat :=
  Finset.Ico entry.startSector.toNat entry.endSector

/-- The extents of two entries do not meet. -/
def FileEntry.Apart (left right : FileEntry) : Prop :=
  left.endSector ≤ right.startSector.toNat ∨ right.endSector ≤ left.startSector.toNat

theorem FileEntry.Apart.symm {left right : FileEntry} (apart : left.Apart right) :
    right.Apart left := apart.elim Or.inr Or.inl

theorem FileEntry.Apart.disjoint {left right : FileEntry} (apart : left.Apart right) :
    Disjoint left.sectors right.sectors := by
  rw [Finset.disjoint_left]
  intro sector inLeft inRight
  simp only [FileEntry.sectors, Finset.mem_Ico] at inLeft inRight
  unfold FileEntry.Apart at apart
  omega

/-- Files lie in the data region, and files with content lie apart. -/
structure ExtentsOk (table : FileTable) : Prop where
  inside : ∀ slot, (table slot).IsFile → (table slot).endSector ≤ 64
  apart : ∀ left right, left ≠ right → (table left).IsFile → (table right).IsFile →
    (table left).length ≠ 0 → (table right).length ≠ 0 → (table left).Apart (table right)

theorem toNat_le_of_sectorCount {length : Word} {bound : Nat} (le : sectorCount length ≤ bound) :
    length.toNat ≤ 512 * bound := by
  unfold sectorCount at le
  omega

/-- Without a wrap the code's rounding is the number of sectors. -/
theorem sectorsFor_toNat {length : Word} (noWrap : length.toNat + 511 < 2 ^ 32) :
    (sectorsFor length).toNat = sectorCount length := by
  unfold sectorsFor sectorCount
  rw [BitVec.toNat_udiv, BitVec.toNat_add, show (511 : Word).toNat = 511 from rfl,
    show (512 : Word).toNat = 512 from rfl, Nat.mod_eq_of_lt noWrap]

theorem FileEntry.noWrap_of_endSector {entry : FileEntry} (inside : entry.endSector ≤ 64) :
    entry.length.toNat + 511 < 2 ^ 32 := by
  have := toNat_le_of_sectorCount (show sectorCount entry.length ≤ 64 by
    unfold FileEntry.endSector at inside
    omega)
  omega

/-! ### The high-water mark -/

theorem raiseLastSector_toNat {lastSector : Word} {entry : FileEntry}
    (inside : entry.IsFile → entry.endSector ≤ 64) :
    (raiseLastSector lastSector entry).toNat =
      max lastSector.toNat (if entry.IsFile then entry.endSector else 0) := by
  unfold raiseLastSector
  by_cases isFile : entry.IsFile
  · have counted := sectorsFor_toNat (FileEntry.noWrap_of_endSector (inside isFile))
    have endValue : (entry.startSector + sectorsFor entry.length).toNat = entry.endSector := by
      have := inside isFile
      unfold FileEntry.endSector at this ⊢
      rw [BitVec.toNat_add, counted, Nat.mod_eq_of_lt (by omega)]
    rw [if_pos (show entry.Live ∧ entry.type = .file from isFile), if_pos isFile]
    simp only [GT.gt, BitVec.lt_def, endValue]
    split
    · rw [endValue]
      omega
    · omega
  · rw [if_neg (show ¬ (entry.Live ∧ entry.type = .file) from isFile), if_neg isFile]
    simp

private theorem foldl_raiseLastSector_le_iff {table : FileTable}
    (inside : ∀ slot, (table slot).IsFile → (table slot).endSector ≤ 64) (slots : List Slot)
    (lastSector : Word) (bound : Nat) :
    (slots.foldl (fun last slot => raiseLastSector last (table slot)) lastSector).toNat ≤ bound ↔
      lastSector.toNat ≤ bound ∧
        ∀ slot ∈ slots, (table slot).IsFile → (table slot).endSector ≤ bound := by
  induction slots generalizing lastSector with
  | nil => simp
  | cons slot slots inductionHypothesis =>
      rw [List.foldl_cons, inductionHypothesis, raiseLastSector_toNat (inside slot), max_le_iff]
      simp only [List.mem_cons, forall_eq_or_imp, and_assoc]
      refine and_congr_right fun _ => and_congr_left fun _ => ?_
      split
      · rename_i isFile
        simp [isFile]
      · rename_i notFile
        simp [notFile]

/-- `find_free_sector` is the least sector no file reaches past. -/
theorem findFreeSector_le_iff {table : FileTable} (extents : ExtentsOk table) (bound : Nat) :
    (findFreeSector table).toNat ≤ bound ↔
      ∀ slot, (table slot).IsFile → (table slot).endSector ≤ bound := by
  unfold findFreeSector
  rw [foldl_raiseLastSector_le_iff extents.inside]
  simp

theorem endSector_le_findFreeSector {table : FileTable} (extents : ExtentsOk table) {slot : Slot}
    (isFile : (table slot).IsFile) : (table slot).endSector ≤ (findFreeSector table).toNat :=
  (findFreeSector_le_iff extents _).mp le_rfl slot isFile

theorem findFreeSector_le {table : FileTable} (extents : ExtentsOk table) :
    (findFreeSector table).toNat ≤ 64 :=
  (findFreeSector_le_iff extents 64).mpr extents.inside

/-! ### Placement -/

/-- Where a write of `length` bytes goes, in sectors: after every file if the
file is empty, and over the file's own extent otherwise. -/
theorem chooseStartSector_eq_some_iff {table : FileTable} (extents : ExtentsOk table) {slot : Slot}
    (isFile : (table slot).IsFile) {length startSector : Word}
    (noWrap : length.toNat + 511 < 2 ^ 32) :
    chooseStartSector table (table slot) length = some startSector ↔
      ((table slot).length = 0 ∧ startSector = findFreeSector table ∧
          startSector.toNat + sectorCount length ≤ 64) ∨
        ((table slot).length ≠ 0 ∧ startSector = (table slot).startSector ∧
          sectorCount length ≤ sectorCount (table slot).length) := by
  have needed := sectorsFor_toNat noWrap
  have allocated := sectorsFor_toNat (FileEntry.noWrap_of_endSector (extents.inside slot isFile))
  have freeLe := findFreeSector_le extents
  have neededLe : sectorCount length < 2 ^ 23 := by
    unfold sectorCount
    omega
  have total : (findFreeSector table + sectorsFor length).toNat =
      (findFreeSector table).toNat + sectorCount length := by
    rw [BitVec.toNat_add, needed, Nat.mod_eq_of_lt (by omega)]
  unfold chooseStartSector
  simp only [GT.gt, BitVec.lt_def, total, needed, allocated,
    show bdfsDataSectors.toNat = 64 from rfl]
  by_cases empty : (table slot).length = 0
  · rw [if_pos empty]
    split
    · rename_i full
      simp only [reduceCtorEq, empty, true_and, ne_eq, not_true_eq_false, false_and, or_false,
        false_iff]
      rintro ⟨rfl, fits⟩
      omega
    · rename_i fits
      simp only [Option.some.injEq, empty, true_and, ne_eq, not_true_eq_false, false_and, or_false]
      constructor
      · rintro rfl
        exact ⟨rfl, by omega⟩
      · rintro ⟨rfl, _⟩
        rfl
  · rw [if_neg empty]
    split
    · rename_i grows
      simp only [reduceCtorEq, empty, false_and, ne_eq, not_false_eq_true, true_and, false_or,
        false_iff]
      rintro ⟨_, fits⟩
      omega
    · rename_i fits
      simp only [Option.some.injEq, empty, false_and, ne_eq, not_false_eq_true, true_and, false_or]
      constructor
      · rintro rfl
        exact ⟨rfl, by omega⟩
      · rintro ⟨rfl, _⟩
        rfl

/-- The space check refuses an empty file that would end past the data sectors,
and a file with content that would need more sectors than it has. -/
theorem chooseStartSector_eq_none_iff {table : FileTable} (extents : ExtentsOk table) {slot : Slot}
    (isFile : (table slot).IsFile) {length : Word} (noWrap : length.toNat + 511 < 2 ^ 32) :
    chooseStartSector table (table slot) length = none ↔
      ((table slot).length = 0 → 64 < (findFreeSector table).toNat + sectorCount length) ∧
        ((table slot).length ≠ 0 → sectorCount (table slot).length < sectorCount length) := by
  have accepts : ∀ startSector, _ := fun startSector =>
    @chooseStartSector_eq_some_iff table extents slot isFile length startSector noWrap
  rw [Option.eq_none_iff_forall_ne_some]
  constructor
  · intro refused
    constructor
    · intro empty
      by_contra fits
      exact refused _ ((accepts _).mpr (Or.inl ⟨empty, rfl, Nat.not_lt.mp fits⟩))
    · intro content
      by_contra shrinks
      exact refused _ ((accepts _).mpr (Or.inr ⟨content, rfl, Nat.not_lt.mp shrinks⟩))
  · rintro ⟨full, grows⟩ startSector chosen
    rcases (accepts startSector).mp chosen with ⟨empty, rfl, fits⟩ | ⟨content, _, shrinks⟩
    · exact absurd fits (Nat.not_le.mpr (full empty))
    · exact absurd shrinks (Nat.not_le.mpr (grows content))

/-- A file placed in the data region is stored at its sector's bytes. -/
theorem dataPosition_eq {startSector : Word} (inside : startSector.toNat ≤ 64) :
    dataPosition startSector = dataStart + 512 * startSector.toNat := by
  unfold dataPosition
  rw [BitVec.toNat_add, BitVec.toNat_mul, show (512 : Word).toNat = 512 from rfl,
    show (BitVec.ofNat 32 dataStart).toNat = dataStart from rfl]
  simp only [dataStart]
  omega

/-- A write the space check lets through copies inside the storage. -/
theorem inStorage_of_chooseStartSector {table : FileTable} (extents : ExtentsOk table)
    {slot : Slot} (isFile : (table slot).IsFile) {length startSector : Word}
    (noWrap : length.toNat + 511 < 2 ^ 32)
    (chosen : chooseStartSector table (table slot) length = some startSector) :
    dataPosition startSector + length.toNat ≤ storageSize := by
  have fits : startSector.toNat + sectorCount length ≤ 64 := by
    rcases (chooseStartSector_eq_some_iff extents isFile noWrap).mp chosen with
      ⟨_, _, fits⟩ | ⟨_, rfl, shrinks⟩
    · exact fits
    · have := extents.inside slot isFile
      unfold FileEntry.endSector at this
      omega
  have := toNat_le_of_sectorCount (le_refl (sectorCount length))
  rw [dataPosition_eq (by omega)]
  simp only [dataStart, storageSize]
  omega

section Placement

variable {fs : FileSystem} {slot : Slot} {startSector length : Word}

theorem Placement.isFileEntry (placement : Placement fs slot startSector length) :
    (fs.fileTable slot).IsFile := by
  obtain ⟨name, found⟩ := placement.found
  exact ⟨(live_of_findEntryInDir found).1, placement.isFile⟩

theorem Placement.noWrap (placement : Placement fs slot startSector length) :
    length.toNat + 511 < 2 ^ 32 := by
  have := placement.inStorage
  simp only [storageSize] at this
  omega

theorem Placement.cases (extents : ExtentsOk fs.fileTable)
    (placement : Placement fs slot startSector length) :
    ((fs.fileTable slot).length = 0 ∧ startSector = findFreeSector fs.fileTable ∧
        startSector.toNat + sectorCount length ≤ 64) ∨
      ((fs.fileTable slot).length ≠ 0 ∧ startSector = (fs.fileTable slot).startSector ∧
        sectorCount length ≤ sectorCount (fs.fileTable slot).length) :=
  (chooseStartSector_eq_some_iff extents placement.isFileEntry placement.noWrap).mp
    placement.chosen

theorem Placement.inside (extents : ExtentsOk fs.fileTable)
    (placement : Placement fs slot startSector length) :
    startSector.toNat + sectorCount length ≤ 64 := by
  rcases placement.cases extents with ⟨_, _, fits⟩ | ⟨_, rfl, shrinks⟩
  · exact fits
  · have := extents.inside slot placement.isFileEntry
    unfold FileEntry.endSector at this
    omega

/-- The placed file lies apart from every other file with content. -/
theorem Placement.apart (extents : ExtentsOk fs.fileTable)
    (placement : Placement fs slot startSector length) {other : Slot} (different : other ≠ slot)
    (isFile : (fs.fileTable other).IsFile) (nonempty : (fs.fileTable other).length ≠ 0) :
    ((fs.fileTable slot).placed startSector length).Apart (fs.fileTable other) := by
  rcases placement.cases extents with ⟨_, rfl, _⟩ | ⟨hasContent, rfl, shrinks⟩
  · exact Or.inr (endSector_le_findFreeSector extents isFile)
  · have before := extents.apart slot other different.symm placement.isFileEntry isFile hasContent
      nonempty
    simp only [FileEntry.Apart, FileEntry.endSector, FileEntry.placed] at before ⊢
    omega

end Placement

/-! ### The invariant -/

/-- An update keeps the invariant when the new entry, if it is a file, lies in
the data region and, if it has content, apart from the other files. -/
theorem ExtentsOk.update {table : FileTable} (extents : ExtentsOk table) {slot : Slot}
    {entry : FileEntry} (inside : entry.IsFile → entry.endSector ≤ 64)
    (apart : entry.IsFile → entry.length ≠ 0 → ∀ other ≠ slot, (table other).IsFile →
      (table other).length ≠ 0 → entry.Apart (table other)) :
    ExtentsOk (Function.update table slot entry) where
  inside other isFile := by
    by_cases same : other = slot
    · subst same
      rw [Function.update_self] at isFile ⊢
      exact inside isFile
    · rw [Function.update_of_ne same] at isFile ⊢
      exact extents.inside other isFile
  apart left right different leftFile rightFile leftContent rightContent := by
    by_cases atLeft : left = slot
    · subst atLeft
      rw [Function.update_self] at leftFile leftContent ⊢
      rw [Function.update_of_ne different.symm] at rightFile rightContent ⊢
      exact apart leftFile leftContent right different.symm rightFile rightContent
    · rw [Function.update_of_ne atLeft] at leftFile leftContent ⊢
      by_cases atRight : right = slot
      · subst atRight
        rw [Function.update_self] at rightFile rightContent ⊢
        exact (apart rightFile rightContent left different leftFile leftContent).symm
      · rw [Function.update_of_ne atRight] at rightFile rightContent ⊢
        exact extents.apart left right different leftFile rightFile leftContent rightContent

theorem ExtentsOk.nameEdit {directory : Word} {table after : FileTable}
    (extents : ExtentsOk table) (edit : NameEdit directory table after) : ExtentsOk after := by
  cases edit with
  | occupy type fits absent picked =>
      apply extents.update
      · intro _
        simp [FileEntry.endSector, newEntry, sectorCount]
      · intro _ nonempty
        exact absurd rfl nonempty
  | release found =>
      apply extents.update
      · intro isFile
        exact absurd isFile.1 (by simp [FileEntry.Live, FileEntry.freed])
      · intro isFile
        exact absurd isFile.1 (by simp [FileEntry.Live, FileEntry.freed])
  | @rename slot oldName newName fits found absent =>
      have live := (live_of_findEntryInDir found).1
      apply extents.update
      · intro isFile
        exact extents.inside slot ⟨live, isFile.2⟩
      · intro isFile nonempty other different otherFile otherContent
        exact extents.apart slot other different.symm ⟨live, isFile.2⟩ otherFile nonempty
          otherContent

theorem Placement.extentsOk {fs : FileSystem} {slot : Slot} {startSector length : Word}
    (placement : Placement fs slot startSector length) (extents : ExtentsOk fs.fileTable) :
    ExtentsOk (placeFile fs.fileTable slot startSector length) := by
  apply extents.update
  · intro _
    exact placement.inside extents
  · intro _ _ other different otherFile otherContent
    exact placement.apart extents different otherFile otherContent

theorem rootTable_extentsOk : ExtentsOk rootTable := by
  have noFile : ∀ slot, ¬ (rootTable slot).IsFile := by
    intro slot
    by_cases root : slot = 0
    · subst root
      decide
    · rw [rootTable, Function.update_of_ne root]
      decide
  exact ⟨fun slot isFile => absurd isFile (noFile slot),
    fun left _ _ isFile => absurd isFile (noFile left)⟩

theorem Effect.extentsOk {fs after : FileSystem} (effect : Effect fs after)
    (extents : ExtentsOk fs.fileTable) : ExtentsOk after.fileTable := by
  cases effect with
  | unchanged => exact extents
  | ascend => exact extents
  | descend => exact extents
  | rearrange edit => exact extents.nameEdit edit
  | store buffer placement => exact placement.extentsOk extents

theorem reachable_extentsOk {fs : FileSystem} (reachable : system.Reachable fs) :
    ExtentsOk fs.fileTable := by
  apply reachable.invariant fun fs => ExtentsOk fs.fileTable
  · intro fs initial
    obtain ⟨boot, _, rfl⟩ := (system_init_iff fs).mp initial
    exact defaultTable_property rootTable_extentsOk fun _ _ _ ok edit => ok.nameEdit edit
  · rintro before op after _ extents ⟨code, executed⟩
    exact (exec_effect executed).extentsOk extents

end BrainDance.Fs.Bdfs
