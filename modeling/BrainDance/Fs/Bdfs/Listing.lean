import BrainDance.Fs.Bdfs.NameSpace
import BrainDance.Fs.Bdfs.Totality
import BrainDance.Libc.Colors
import BrainDance.Libc.Console.Output

/-!
Owns what `fs/bdfs.c` prints: `bdfs_list_files` and the name that
`bdfs_get_current_dir_name` copies. A listing shows what the name space has in the current
directory: every name in it once, with the length of a file, and no other name.
-/

namespace BrainDance.Fs.Bdfs

open BrainDance.Foundation
open BrainDance.Libc

/-! ### Model -/

/-- The string at the entry's name, which the type behind the array ends at the latest. -/
def FileEntry.nameString (entry : FileEntry) : CString :=
  (scanString entry.image 32 0).getD CString.nil

/-- The colours of the default directories. -/
def directoryColors : List (CString × Byte) := [
  (message "soul", colorDirSoul),
  (message "cortex", colorDirCortex),
  (message "vault", colorDirVault),
  (message "chrome", colorDirChrome),
  (message "drift", colorDirDrift),
  (message "ghost", colorDirGhost)]

def directoryColor (entry : FileEntry) : Byte :=
  match directoryColors.find? fun named => strcmp entry.image named.1 == 0 with
  | some (_, color) => color
  | none => colorDir

/-- What is printed of a child of the current directory. -/
def listEntry (entry : FileEntry) : List PrintCall :=
  match entry.type with
  | .directory => [
      .print (message "d ") (directoryColor entry),
      .print entry.nameString (directoryColor entry),
      .print (message "\n") (directoryColor entry)]
  | .file => [
      .print (message "- ") colorFile,
      .print entry.nameString colorFile,
      .print (message " (") colorGhost,
      .printInt entry.length colorGhost,
      .print (message " bytes)\n") colorGhost]

/-- The entries that the loop prints. -/
def children (fs : FileSystem) : List FileEntry :=
  ((List.finRange bdfsMaxFiles).map fs.fileTable).filter fun entry =>
    decide (entry.Live ∧ entry.parentInode = fs.currentDirInode)

def bdfsListFiles (fs : FileSystem) : Option (List PrintCall) :=
  (entryAt fs.fileTable fs.currentDirInode).map fun current =>
    [.print (message "Listing for /") colorSystem,
      .print current.nameString colorSystem,
      .print (message ":\n") colorSystem] ++ (children fs).flatMap listEntry

/-- The string copied by `bdfs_get_current_dir_name`. -/
def bdfsGetCurrentDirName (fs : FileSystem) : Option CString :=
  (entryAt fs.fileTable fs.currentDirInode).map FileEntry.nameString

/-! ### Names -/

section Names

variable {entry : FileEntry} {fs : FileSystem}

theorem FileEntry.nameString_eq (terminated : Terminated entry.name) :
    entry.nameString = stringIn entry.name := by
  have holds := holds_stringIn terminated entry.image_name
  have short := stringIn_length_lt terminated
  have size : bdfsMaxFilenameLength = 16 := rfl
  have found : scanString entry.image 32 0 = some (stringIn entry.name) := by
    refine scanString_of_shown (fun offset inString => ?_) (by omega)
    rw [Nat.zero_add]
    exact holds offset inString
  rw [FileEntry.nameString, found]
  rfl

theorem FileEntry.nameString_short (terminated : Terminated entry.name) :
    strlen entry.nameString < bdfsMaxFilenameLength := by
  rw [FileEntry.nameString_eq terminated]
  exact stringIn_length_lt terminated

/-- The current directory has an entry. -/
theorem currentDir_of_reachable (reachable : system.Reachable fs) :
    ∃ slot, entryAt fs.fileTable fs.currentDirInode = some (fs.fileTable slot) := by
  obtain ⟨path, climbs⟩ := reachable_rootPath reachable
  generalize fs.currentDirInode = inode at climbs
  cases climbs with
  | root => exact ⟨0, entryAt_inodeOf fs.fileTable 0⟩
  | @child slot => exact ⟨slot, entryAt_inodeOf fs.fileTable slot⟩

/-- Its name fits the array of a caller. -/
theorem currentDirName_of_reachable (reachable : system.Reachable fs) :
    ∃ name, bdfsGetCurrentDirName fs = some name ∧ strlen name < bdfsMaxFilenameLength := by
  obtain ⟨slot, here⟩ := currentDir_of_reachable reachable
  refine ⟨_, ?_, FileEntry.nameString_short ((reachable_namesOk reachable).terminated slot)⟩
  rw [bdfsGetCurrentDirName, here, Option.map_some]

end Names

/-! ### Reading -/

/-- In a reachable state a file is read from within the storage. -/
theorem bdfsReadFile_total {fs : FileSystem} (reachable : system.Reachable fs)
    (filename : CString) : ∃ outcome, bdfsReadFile fs filename = some outcome := by
  unfold bdfsReadFile
  split
  · exact ⟨_, rfl⟩
  · rename_i slot found
    dsimp only
    split_ifs with notFile content inStorage
    · exact ⟨_, rfl⟩
    · exact ⟨_, rfl⟩
    · have isFile : (fs.fileTable slot).IsFile :=
        ⟨(live_of_findEntryInDir found).1, not_not.mp notFile⟩
      have inside := (reachable_extentsOk reachable).inside slot isFile
      unfold FileEntry.endSector sectorCount at inside
      have position : dataPosition (fs.fileTable slot).startSector =
          2048 + (fs.fileTable slot).startSector.toNat * 512 := by
        rw [dataPosition, BitVec.toNat_add, BitVec.toNat_mul, show (512 : Word).toNat = 512 from rfl,
          show (BitVec.ofNat 32 dataStart).toNat = 2048 from rfl]
        omega
      have size : storageSize = 34816 := rfl
      omega
    · exact ⟨_, rfl⟩

/-! ### The listing -/

/-- The line of an entry. -/
def entryText (entry : FileEntry) : List Byte :=
  match entry.type with
  | .directory => asciiBytes "d ".toList ++ entry.nameString.bytes ++ asciiBytes "\n".toList
  | .file => asciiBytes "- ".toList ++ entry.nameString.bytes ++ asciiBytes " (".toList ++
      decimalText entry.length.toNat ++ asciiBytes " bytes)\n".toList

/-- The text of a listing of the entries. -/
def listingText (current : FileEntry) (listed : List FileEntry) : List Byte :=
  asciiBytes "Listing for /".toList ++ current.nameString.bytes ++ asciiBytes ":\n".toList ++
    listed.flatMap entryText

/-- The entries are what the name space has in the current directory, no name twice. -/
structure ListsDirectory (fs : FileSystem) (listed : List FileEntry) : Prop where
  once : (listed.map FileEntry.nameString).Nodup
  names : ∀ name attributes,
    (∃ entry ∈ listed, entry.nameString = name ∧ entry.attributes = attributes) ↔
      ∃ slot, (nameSpaceOf fs).entries ((nameSpaceOf fs).here name) = some (slot, attributes)

section Listing

variable {fs : FileSystem} {entry : FileEntry}

theorem mem_children : entry ∈ children fs ↔
    ∃ slot, fs.fileTable slot = entry ∧ entry.Live ∧ entry.parentInode = fs.currentDirInode := by
  simp [children]

theorem entryText_eq (short : entry.type = .file → entry.length.toNat < 2 ^ 31) :
    outputText (listEntry entry) = entryText entry := by
  unfold listEntry entryText
  cases type : entry.type with
  | directory => simp [outputText, PrintCall.text, message, asciiBytes]
  | file => simp [outputText, PrintCall.text, message, asciiBytes, printedInt_of_small (short type)]

theorem children_short (extents : ExtentsOk fs.fileTable) (member : entry ∈ children fs)
    (isFile : entry.type = .file) : entry.length.toNat < 2 ^ 31 := by
  obtain ⟨slot, rfl, live, _⟩ := mem_children.mp member
  have noWrap := FileEntry.noWrap_of_endSector (extents.inside slot ⟨live, isFile⟩)
  have inside := extents.inside slot ⟨live, isFile⟩
  unfold FileEntry.endSector sectorCount at inside
  omega

theorem children_listsDirectory (names : NamesOk fs.fileTable) :
    ListsDirectory fs (children fs) := by
  constructor
  · rw [children, List.filter_map, List.map_map]
    refine List.Nodup.map_on ?_ ((List.nodup_finRange _).filter _)
    intro left inLeft right inRight same
    simp only [List.mem_filter, Function.comp_apply, decide_eq_true_eq] at inLeft inRight same
    rw [FileEntry.nameString_eq (names.terminated left),
      FileEntry.nameString_eq (names.terminated right)] at same
    have foundLeft := findEntryInDir_of_live names inLeft.2.1
    have foundRight := findEntryInDir_of_live names inRight.2.1
    rw [inLeft.2.2, same] at foundLeft
    rw [inRight.2.2] at foundRight
    exact Option.some.inj (foundLeft.symm.trans foundRight)
  · intro name attributes
    constructor
    · rintro ⟨entry, member, rfl, rfl⟩
      obtain ⟨slot, rfl, live, here⟩ := mem_children.mp member
      refine ⟨slot, (entries_eq_some_iff names).mpr ⟨live, ?_, rfl⟩⟩
      rw [FileEntry.key, here, FileEntry.nameString_eq (names.terminated slot)]
      rfl
    · rintro ⟨slot, held⟩
      obtain ⟨live, sameKey, rfl⟩ := (entries_eq_some_iff names).mp held
      obtain ⟨here, sameName⟩ := Prod.mk.inj sameKey
      refine ⟨_, mem_children.mpr ⟨slot, rfl, live, here.symm⟩, ?_, rfl⟩
      rw [FileEntry.nameString_eq (names.terminated slot)]
      exact sameName.symm

/-- In every reachable state `ls` prints, on whatever console, a line for each name that the
name space has in the current directory, and no other. -/
theorem listing_shows_directory (reachable : system.Reachable fs) :
    ∃ current calls, entryAt fs.fileTable fs.currentDirInode = some current ∧
      bdfsListFiles fs = some calls ∧
        Prints (listingText current (children fs)) (printAll calls) ∧
          ListsDirectory fs (children fs) := by
  obtain ⟨slot, here⟩ := currentDir_of_reachable reachable
  have lists : bdfsListFiles fs = some
      ([.print (literal "Listing for /".toList) colorSystem,
        .print (fs.fileTable slot).nameString colorSystem,
        .print (literal ":\n".toList) colorSystem] ++ (children fs).flatMap listEntry) := by
    rw [bdfsListFiles, here]
    rfl
  have lines : outputText ((children fs).flatMap listEntry) =
      (children fs).flatMap entryText := by
    rw [outputText, List.flatMap_assoc]
    refine List.flatMap_congr fun entry member => ?_
    exact entryText_eq (children_short (reachable_extentsOk reachable) member)
  refine ⟨_, _, here, lists, ?_, children_listsDirectory (reachable_namesOk reachable)⟩
  have prints := printAll_prints ([.print (literal "Listing for /".toList) colorSystem,
    .print (fs.fileTable slot).nameString colorSystem,
    .print (literal ":\n".toList) colorSystem] ++ (children fs).flatMap listEntry)
  rw [outputText, List.flatMap_append, ← outputText, ← outputText, lines] at prints
  simpa [listingText, outputText, PrintCall.text, literal] using prints

end Listing

/-- The new file system with two files. -/
theorem listing_shows_directory_pair :
    ∃ current calls, entryAt pairFileSystem.fileTable pairFileSystem.currentDirInode =
        some current ∧ bdfsListFiles pairFileSystem = some calls ∧
          Prints (listingText current (children pairFileSystem)) (printAll calls) ∧
            ListsDirectory pairFileSystem (children pairFileSystem) :=
  listing_shows_directory (@pairFileSystem_reachable (fun _ => True) fun _ _ => trivial).of_restrict

end BrainDance.Fs.Bdfs
