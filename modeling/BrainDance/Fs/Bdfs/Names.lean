import BrainDance.Foundation.KeyedSlots
import BrainDance.Fs.Bdfs.Steps

/-!
Owns the name-space reading of the file table: a live entry is the key
`(parent inode, name)` with the entry's type and extent, and the table is a
table of keyed slots. It proves the invariant of that reading, `NamesOk`: every
name array is terminated and no two live entries share a key. It also gives
`find_entry_in_dir` and `find_free_entry` their meaning in terms of the map.
-/

namespace BrainDance.Fs.Bdfs

open BrainDance.Foundation
open BrainDance.Libc

/-- A directory's inode and a name in it. -/
abbrev Key := Word × CString

/-- What the name space keeps of an entry besides its inode. -/
@[ext]
structure Attributes where
  type : BdfsFileType
  startSector : Word
  length : Word

def FileEntry.attributes (entry : FileEntry) : Attributes :=
  ⟨entry.type, entry.startSector, entry.length⟩

def FileEntry.key (entry : FileEntry) : Key := (entry.parentInode, stringIn entry.name)

/-- The keyed slot an entry stands for; a freed entry stands for a free slot. -/
def FileEntry.keyed (entry : FileEntry) : Option (Key × Attributes) :=
  if entry.Live then some (entry.key, entry.attributes) else none

def keyedSlots (table : FileTable) : Slots bdfsMaxFiles Key Attributes :=
  fun slot => (table slot).keyed

/-- The invariant of the name space. -/
structure NamesOk (table : FileTable) : Prop where
  terminated : ∀ slot, Terminated (table slot).name
  unique : (keyedSlots table).Unique

/-! ### Entries -/

section Entries

variable {entry : FileEntry}

theorem FileEntry.image_name (entry : FileEntry) (index : Fin bdfsMaxFilenameLength) :
    entry.image index.val = entry.name index := by
  simp [FileEntry.image, index.isLt]

theorem FileEntry.strcmp_eq_zero_iff (terminated : Terminated entry.name) (name : CString) :
    strcmp entry.image name = 0 ↔ stringIn entry.name = name :=
  strcmp_array_eq_zero_iff terminated entry.image_name name

theorem FileEntry.live_iff : entry.Live ↔ (stringIn entry.name).bytes ≠ [] := by
  rw [ne_eq, stringIn_bytes_eq_nil_iff]
  rfl

theorem FileEntry.keyed_of_live (live : entry.Live) :
    entry.keyed = some (entry.key, entry.attributes) := by
  rw [FileEntry.keyed, if_pos live]

theorem FileEntry.keyed_eq_none_iff : entry.keyed = none ↔ ¬ entry.Live := by
  unfold FileEntry.keyed
  split <;> simp_all

theorem FileEntry.freed_terminated (entry : FileEntry) : Terminated entry.freed.name :=
  ⟨0, by simp [FileEntry.freed]⟩

theorem FileEntry.keyed_freed (entry : FileEntry) : entry.freed.keyed = none := by
  rw [FileEntry.keyed_eq_none_iff]
  simp [FileEntry.Live, FileEntry.freed]

/-- An entry whose name was copied in by `strcpy` is live unless the name is
empty, and then its key is the name's. -/
theorem FileEntry.keyed_of_strcpy {dest : Fin bdfsMaxFilenameLength → Byte} {name : CString}
    {fits : name.bytes.length < bdfsMaxFilenameLength}
    (copied : entry.name = strcpy dest name fits) :
    entry.keyed =
      if name.bytes = [] then none else some ((entry.parentInode, name), entry.attributes) := by
  have stored : stringIn entry.name = name := by rw [copied, stringIn_strcpy]
  unfold FileEntry.keyed FileEntry.key
  rw [stored]
  by_cases empty : name.bytes = []
  · rw [if_neg, if_pos empty]
    rw [FileEntry.live_iff, stored]
    exact not_not.mpr empty
  · rw [if_pos, if_neg empty]
    rw [FileEntry.live_iff, stored]
    exact empty

theorem keyed_newEntry (stale : FileEntry) (name : CString) (type : BdfsFileType)
    (directory : Word) (fits : name.bytes.length < bdfsMaxFilenameLength) :
    (newEntry stale name type directory fits).keyed =
      if name.bytes = [] then none else some ((directory, name), ⟨type, 0, 0⟩) :=
  FileEntry.keyed_of_strcpy (show _ = strcpy stale.name name fits from rfl)

theorem FileEntry.keyed_renamed (entry : FileEntry) (newName : CString)
    (fits : newName.bytes.length < bdfsMaxFilenameLength) :
    (entry.renamed newName fits).keyed =
      if newName.bytes = [] then none
      else some ((entry.parentInode, newName), entry.attributes) :=
  FileEntry.keyed_of_strcpy (show _ = strcpy entry.name newName fits from rfl)

theorem FileEntry.keyed_placed (entry : FileEntry) (startSector length : Word) :
    (entry.placed startSector length).keyed =
      if entry.Live then some (entry.key, ⟨entry.type, startSector, length⟩) else none := rfl

end Entries

/-! ### Searches -/

section Searches

variable {table : FileTable} {name : CString} {directory : Word} {slot : Slot}

theorem keyedSlots_update (table : FileTable) (slot : Slot) (entry : FileEntry) :
    keyedSlots (Function.update table slot entry) =
      Function.update (keyedSlots table) slot entry.keyed := by
  funext other
  by_cases same : other = slot
  · subst same
    simp [keyedSlots]
  · simp [keyedSlots, Function.update_of_ne same]

/-- The entry a search finds is the keyed slot of the searched key. -/
theorem keyed_of_findEntryInDir (names : NamesOk table)
    (found : findEntryInDir table name directory = some slot) :
    keyedSlots table slot = some ((directory, name), (table slot).attributes) := by
  obtain ⟨live, inDirectory, equal⟩ := live_of_findEntryInDir found
  have sameName := (FileEntry.strcmp_eq_zero_iff (names.terminated slot) name).mp equal
  rw [keyedSlots, FileEntry.keyed_of_live live, FileEntry.key, inDirectory, sameName]

theorem findEntryInDir_eq_none_iff_lookup (names : NamesOk table) :
    findEntryInDir table name directory = none ↔
      (keyedSlots table).lookup (directory, name) = none := by
  rw [findEntryInDir_eq_none_iff, Slots.lookup_eq_none_iff]
  constructor
  · intro missing slot attributes held
    have live : (table slot).Live := by
      by_contra free
      rw [keyedSlots, FileEntry.keyed_eq_none_iff.mpr free] at held
      contradiction
    rw [keyedSlots, FileEntry.keyed_of_live live] at held
    simp only [FileEntry.key, Option.some.injEq, Prod.mk.injEq] at held
    obtain ⟨⟨inDirectory, sameName⟩, _⟩ := held
    exact missing slot live inDirectory
      ((FileEntry.strcmp_eq_zero_iff (names.terminated slot) name).mpr sameName)
  · intro missing slot live inDirectory equal
    have sameName := (FileEntry.strcmp_eq_zero_iff (names.terminated slot) name).mp equal
    apply missing slot (table slot).attributes
    rw [keyedSlots, FileEntry.keyed_of_live live, FileEntry.key, inDirectory, sameName]

/-- `find_entry_in_dir` looks the key up in the map. -/
theorem findEntryInDir_eq_lookup (names : NamesOk table) :
    findEntryInDir table name directory =
      ((keyedSlots table).lookup (directory, name)).map Prod.fst := by
  cases found : findEntryInDir table name directory with
  | none =>
      rw [(findEntryInDir_eq_none_iff_lookup names).mp found]
      rfl
  | some slot =>
      have held := keyed_of_findEntryInDir names found
      rw [(Slots.lookup_eq_some_iff names.unique).mpr held]
      rfl

/-- A live entry is found under its own name from its own directory. -/
theorem findEntryInDir_of_live (names : NamesOk table) (live : (table slot).Live) :
    findEntryInDir table (stringIn (table slot).name) (table slot).parentInode = some slot := by
  have held : keyedSlots table slot = some ((table slot).key, (table slot).attributes) :=
    FileEntry.keyed_of_live live
  rw [findEntryInDir_eq_lookup names]
  have found := (Slots.lookup_eq_some_iff names.unique).mpr held
  rw [FileEntry.key] at found
  rw [found]
  rfl

end Searches

/-! ### The invariant -/

section Invariant

variable {table after : FileTable} {directory : Word}

private theorem terminated_update (terminated : ∀ slot, Terminated (table slot).name)
    {slot : Slot} {entry : FileEntry} (ended : Terminated entry.name) :
    ∀ other, Terminated (Function.update table slot entry other).name := by
  intro other
  by_cases same : other = slot
  · subst same
    rwa [Function.update_self]
  · rw [Function.update_of_ne same]
    exact terminated other

/-- An update keeps the invariant when the new entry is terminated and its slot
becomes free, or keeps its key, or takes an absent key. -/
theorem NamesOk.update (names : NamesOk table) {slot : Slot} {entry : FileEntry}
    (ended : Terminated entry.name)
    (unique : Slots.Unique (Function.update (keyedSlots table) slot entry.keyed)) :
    NamesOk (Function.update table slot entry) where
  terminated := terminated_update names.terminated ended
  unique := by rwa [keyedSlots_update]

theorem unique_update_none (names : NamesOk table) (slot : Slot) :
    Slots.Unique (Function.update (keyedSlots table) slot none) := by
  cases held : keyedSlots table slot with
  | none =>
      rw [← held, Function.update_eq_self]
      exact names.unique
  | some entry => exact (Slots.lookup_free names.unique held).1

theorem NamesOk.nameEdit (names : NamesOk table) (edit : NameEdit directory table after) :
    NamesOk after := by
  cases edit with
  | @occupy slot name type fits absent picked =>
      apply names.update (strcpy_terminated _ _ fits)
      rw [keyed_newEntry]
      split
      · exact unique_update_none names slot
      · have free := FileEntry.keyed_eq_none_iff.mpr (free_of_findFreeEntry picked)
        exact (Slots.lookup_fill names.unique free
          ((findEntryInDir_eq_none_iff_lookup names).mp absent) _).1
  | @release slot name found =>
      apply names.update (FileEntry.freed_terminated _)
      rw [FileEntry.keyed_freed]
      exact unique_update_none names slot
  | @rename slot oldName newName fits found absent =>
      apply names.update (strcpy_terminated _ _ fits)
      rw [FileEntry.keyed_renamed, (live_of_findEntryInDir found).2.1]
      split
      · exact unique_update_none names slot
      · exact (Slots.lookup_move names.unique (keyed_of_findEntryInDir names found)
          ((findEntryInDir_eq_none_iff_lookup names).mp absent) _).1

theorem NamesOk.placeFile (names : NamesOk table) (slot : Slot) (startSector length : Word) :
    NamesOk (placeFile table slot startSector length) := by
  have ended : Terminated ((table slot).placed startSector length).name := names.terminated slot
  apply names.update ended
  by_cases live : (table slot).Live
  · have held : keyedSlots table slot = some ((table slot).key, (table slot).attributes) :=
      FileEntry.keyed_of_live live
    rw [FileEntry.keyed_placed, if_pos live]
    exact (Slots.lookup_replace names.unique held _).1
  · rw [FileEntry.keyed_placed, if_neg live]
    exact unique_update_none names slot

theorem rootTable_namesOk : NamesOk rootTable := by
  have noKeys : keyedSlots (fun _ => zeroEntry) = fun _ => none := by
    funext slot
    exact FileEntry.keyed_eq_none_iff.mpr (show ¬ zeroEntry.Live by decide)
  have cleared : NamesOk (fun _ => zeroEntry) :=
    { terminated := fun _ => ⟨0, rfl⟩
      unique := fun i j key left right held _ => by simp [noKeys] at held }
  apply cleared.update (strcpy_terminated _ _ (by decide))
  rw [FileEntry.keyed_of_live (by decide)]
  refine (Slots.lookup_fill cleared.unique (by rw [noKeys]) ?_ _).1
  rw [Slots.lookup_eq_none_iff]
  simp [noKeys]

theorem defaultTable_namesOk : NamesOk defaultTable :=
  defaultTable_property rootTable_namesOk fun _ _ _ names edit => names.nameEdit edit

theorem Effect.namesOk {fs after : FileSystem} (effect : Effect fs after)
    (names : NamesOk fs.fileTable) : NamesOk after.fileTable := by
  cases effect with
  | unchanged => exact names
  | ascend => exact names
  | descend => exact names
  | rearrange edit => exact names.nameEdit edit
  | store buffer placement => exact names.placeFile _ _ _

/-- Every reachable table has terminated names and no key twice. -/
theorem reachable_namesOk {fs : FileSystem} (reachable : system.Reachable fs) :
    NamesOk fs.fileTable := by
  apply reachable.invariant fun fs => NamesOk fs.fileTable
  · intro fs initial
    obtain ⟨boot, _, rfl⟩ := (system_init_iff fs).mp initial
    exact defaultTable_namesOk
  · rintro before op after _ names ⟨code, executed⟩
    exact (exec_effect executed).namesOk names

end Invariant

end BrainDance.Fs.Bdfs
