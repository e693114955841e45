import BrainDance.Fs.Bdfs.Navigation
import BrainDance.Fs.Bdfs.Refinement

/-!
Owns the root and the current directory. `TableChange` says what a call does to
the file table by which call it is, and the invariant follows from it.

The root is an entry of its own directory, so a lookup in it finds the root. A
delete that does frees it, and it is the only call that can: the result says so
for every run.
-/

namespace BrainDance.Fs.Bdfs

open BrainDance.Foundation
open BrainDance.Libc

/-- No name the call is given is empty. -/
def Op.Named (op : Op) : Prop := ∀ name ∈ op.names, name.bytes ≠ []

/-- The runs of named calls. -/
abbrev namedSystem : TransitionSystem FileSystem Op := system.restrict Op.Named

/-- The entry a delete frees. -/
def Op.victim (fs : FileSystem) : Op → Option Slot
  | .deleteFile filename => findEntryInDir fs.fileTable filename fs.currentDirInode
  | _ => none

/-! ### Calls and the table -/

/-- What a call does to the file table. -/
inductive TableChange (fs : FileSystem) (op : Op) : FileTable → Prop where
  | kept (noVictim : op.victim fs = none) : TableChange fs op fs.fileTable
  | created {slot : Slot} {name : CString} (type : BdfsFileType)
      (fits : name.bytes.length < bdfsMaxFilenameLength) (noVictim : op.victim fs = none)
      (picked : findFreeEntry fs.fileTable = some slot) :
      TableChange fs op (Function.update fs.fileTable slot
        (newEntry (fs.fileTable slot) name type fs.currentDirInode fits))
  | deleted {slot : Slot} (victim : op.victim fs = some slot) :
      TableChange fs op (Function.update fs.fileTable slot (fs.fileTable slot).freed)
  | amended {slot : Slot} {entry : FileEntry} (noVictim : op.victim fs = none)
      (wasLive : (fs.fileTable slot).Live) (live : op.Named → entry.Live)
      (sameType : entry.type = (fs.fileTable slot).type)
      (sameParent : entry.parentInode = (fs.fileTable slot).parentInode) :
      TableChange fs op (Function.update fs.fileTable slot entry)

section Changes

variable {fs after : FileSystem} {code : Int}

/-- A name copied into an entry makes it live unless the name is empty. -/
theorem strcpy_head_ne_zero (dest : Fin bdfsMaxFilenameLength → Byte) {name : CString}
    (fits : name.bytes.length < bdfsMaxFilenameLength) (nonempty : name.bytes ≠ []) :
    strcpy dest name fits 0 ≠ 0 := by
  unfold strcpy
  rw [if_pos (show (0 : Fin bdfsMaxFilenameLength).val ≤ _ from Nat.zero_le _)]
  exact name.image_ne_zero (List.length_pos_of_ne_nil nonempty)

theorem createEntry_change {op : Op} {name : CString} {type : BdfsFileType} {slot : Slot}
    {created : FileTable} (noVictim : op.victim fs = none)
    (result : createEntry fs.fileTable name type fs.currentDirInode = .ok (slot, created)) :
    TableChange fs op created := by
  obtain ⟨fits, _, picked, rfl⟩ := createEntry_eq_ok_iff.mp result
  exact .created type fits noVictim picked

theorem bdfsCreateFile_change (filename : CString) :
    TableChange fs (.createFile filename) (bdfsCreateFile fs filename).2.fileTable := by
  unfold bdfsCreateFile
  split
  · rename_i result
    exact createEntry_change rfl result
  · exact .kept rfl

theorem bdfsMkdir_change (dirname : CString) :
    TableChange fs (.mkdir dirname) (bdfsMkdir fs dirname).2.fileTable := by
  unfold bdfsMkdir bdfsCreateDirEntry
  split
  · rename_i result
    exact createEntry_change rfl result
  · exact .kept rfl

theorem bdfsDeleteFile_change (filename : CString) :
    TableChange fs (.deleteFile filename) (bdfsDeleteFile fs filename).2.fileTable := by
  unfold bdfsDeleteFile
  split
  · rename_i missing
    exact .kept missing
  · rename_i found
    exact .deleted found

theorem bdfsRenameFile_change (oldFilename newFilename : CString) :
    TableChange fs (.renameFile oldFilename newFilename)
      (bdfsRenameFile fs oldFilename newFilename).2.fileTable := by
  unfold bdfsRenameFile
  split
  · exact .kept rfl
  · rename_i fits
    split
    · exact .kept rfl
    · rename_i slot found
      split
      · exact .kept rfl
      · refine .amended rfl (live_of_findEntryInDir found).1 (fun named => ?_) rfl rfl
        exact strcpy_head_ne_zero (fs.fileTable slot).name (Nat.lt_of_not_le fits)
          (named newFilename (by simp [Op.names]))

theorem bdfsWriteFile_change {filename : CString} {buffer : Image} {bytesToWrite : Word}
    (written : bdfsWriteFile fs filename buffer bytesToWrite = some (code, after)) :
    TableChange fs (.writeFile filename buffer bytesToWrite) after.fileTable := by
  rcases bdfsWriteFile_cases written with ⟨rfl, _⟩ | ⟨slot, startSector, found, _, _, rfl⟩
  · exact .kept rfl
  · have live := (live_of_findEntryInDir found).1
    exact .amended rfl live (fun _ => live) rfl rfl

theorem exec_change {op : Op} (executed : op.exec fs = some (code, after)) :
    TableChange fs op after.fileTable := by
  cases op with
  | createFile filename =>
      rw [← (Prod.mk.inj (Option.some.inj executed)).2]
      exact bdfsCreateFile_change filename
  | mkdir dirname =>
      rw [← (Prod.mk.inj (Option.some.inj executed)).2]
      exact bdfsMkdir_change dirname
  | deleteFile filename =>
      rw [← (Prod.mk.inj (Option.some.inj executed)).2]
      exact bdfsDeleteFile_change filename
  | renameFile oldFilename newFilename =>
      rw [← (Prod.mk.inj (Option.some.inj executed)).2]
      exact bdfsRenameFile_change oldFilename newFilename
  | chdir dirname =>
      rw [(bdfsChdir_keeps executed).2]
      exact .kept rfl
  | writeFile filename buffer bytesToWrite => exact bdfsWriteFile_change executed

end Changes

/-! ### The root and the current directory -/

/-- The inode is that of a live entry of directory type. -/
def LiveDirectory (table : FileTable) (inode : Word) : Prop :=
  ∃ entry, entryAt table inode = some entry ∧ entry.Live ∧ entry.type = .directory

/-- Slot 0 holds the root: a live directory, its own parent. -/
structure RootHeld (table : FileTable) : Prop where
  live : (table 0).Live
  isDirectory : (table 0).type = .directory
  ownParent : (table 0).parentInode = 0

/-- The current directory is a live directory and inode 0 is the root. -/
structure NavigationOk (fs : FileSystem) : Prop where
  current : LiveDirectory fs.fileTable fs.currentDirInode
  root : RootHeld fs.fileTable

/-- The call does not free the root. -/
def Op.SparesRoot (fs : FileSystem) (op : Op) : Prop := op.victim fs ≠ some 0

theorem liveDirectory_inodeOf {table : FileTable} {slot : Slot} :
    LiveDirectory table (inodeOf slot) ↔ (table slot).Live ∧ (table slot).type = .directory := by
  simp [LiveDirectory, entryAt_inodeOf]

theorem LiveDirectory.slot {table : FileTable} {inode : Word} (directory : LiveDirectory table inode) :
    ∃ slot, inode = inodeOf slot ∧ (table slot).Live ∧ (table slot).type = .directory := by
  obtain ⟨entry, here, live, isDirectory⟩ := directory
  unfold entryAt at here
  split at here
  · rename_i inTable
    obtain rfl := Option.some.inj here
    exact ⟨⟨inode.toNat, inTable⟩, by simp [inodeOf], live, isDirectory⟩
  · contradiction

theorem RootHeld.update {table : FileTable} (root : RootHeld table) {slot : Slot}
    (other : slot ≠ 0) (entry : FileEntry) : RootHeld (Function.update table slot entry) := by
  have kept : Function.update table slot entry 0 = table 0 :=
    Function.update_of_ne (Ne.symm other) _ _
  constructor
  · rw [kept]; exact root.live
  · rw [kept]; exact root.isDirectory
  · rw [kept]; exact root.ownParent

section Root

variable {fs : FileSystem} {op : Op} {table : FileTable}

/-- A named call keeps the root unless it frees it. -/
theorem TableChange.rootHeld (change : TableChange fs op table) (named : op.Named)
    (spares : op.SparesRoot fs) (root : RootHeld fs.fileTable) : RootHeld table := by
  cases change with
  | kept => exact root
  | @created slot name type fits _ picked =>
      refine root.update ?_ _
      rintro rfl
      exact free_of_findFreeEntry picked root.live
  | @deleted slot victim =>
      refine root.update ?_ _
      rintro rfl
      exact spares victim
  | @amended slot entry _ wasLive live sameType sameParent =>
      by_cases atRoot : slot = 0
      · subst atRoot
        constructor
        · rw [Function.update_self]; exact live named
        · rw [Function.update_self, sameType]; exact root.isDirectory
        · rw [Function.update_self, sameParent]; exact root.ownParent
      · exact root.update atRoot _

theorem TableChange.rootFreed (change : TableChange fs op table)
    (victim : op.victim fs = some 0) : ¬ (table 0).Live := by
  cases change with
  | kept noVictim => rw [noVictim] at victim; contradiction
  | created _ _ noVictim => rw [noVictim] at victim; contradiction
  | @deleted slot found =>
      obtain rfl := Option.some.inj (found.symm.trans victim)
      simp [FileEntry.Live, FileEntry.freed]
  | amended noVictim => rw [noVictim] at victim; contradiction

theorem defaultTable_rootHeld : RootHeld defaultTable := by
  constructor <;> decide +kernel

/-- With the root in place the lower end of a path to it is a live directory. -/
theorem RootHeld.navigationOk (root : RootHeld fs.fileTable) {path : List Slot}
    (climbs : RootPath fs.fileTable fs.currentDirInode path) : NavigationOk fs where
  current := by
    generalize fs.currentDirInode = inode at climbs
    cases climbs with
    | root => exact liveDirectory_inodeOf.mpr ⟨root.live, root.isDirectory⟩
    | child _ live isDirectory _ => exact liveDirectory_inodeOf.mpr ⟨live, isDirectory⟩
  root := root

end Root

/-- The runs of named calls none of which frees the root. -/
abbrev rootedSystem : TransitionSystem FileSystem Op :=
  namedSystem.guard fun fs op => op.SparesRoot fs

theorem rooted_rootHeld {fs : FileSystem} (reachable : rootedSystem.Reachable fs) :
    RootHeld fs.fileTable := by
  apply reachable.invariant fun fs => RootHeld fs.fileTable
  · intro fs initial
    obtain ⟨boot, _, rfl⟩ := (system_init_iff fs).mp initial
    exact defaultTable_rootHeld
  · rintro before op after _ root ⟨spares, named, code, executed⟩
    exact (exec_change executed).rootHeld named spares root

theorem rooted_navigationOk {fs : FileSystem} (reachable : rootedSystem.Reachable fs) :
    NavigationOk fs := by
  obtain ⟨path, climbs⟩ := reachable_rootPath reachable.of_guard.of_restrict
  exact (rooted_rootHeld reachable).navigationOk climbs

/-- In every run that never frees the root the current directory is a directory
and the root stays; the next named call keeps this exactly when it does not
free the root. -/
theorem navigation_ok_iff_root_spared {fs : FileSystem} (reachable : rootedSystem.Reachable fs) :
    NavigationOk fs ∧ ∀ (op : Op) (code : Int) (after : FileSystem), op.Named →
      op.exec fs = some (code, after) → (NavigationOk after ↔ op.SparesRoot fs) := by
  refine ⟨rooted_navigationOk reachable, fun op code after named executed => ⟨?_, ?_⟩⟩
  · intro navigation victim
    exact (exec_change executed).rootFreed victim navigation.root.live
  · intro spares
    exact rooted_navigationOk (.step reachable ⟨spares, named, code, executed⟩)

/-- `touch log` and `rm log`. -/
theorem navigation_ok_iff_root_spared_removed :
    NavigationOk (bdfsDeleteFile logFileSystem (literal ['l', 'o', 'g'])).2 ∧
      ∀ (op : Op) (code : Int) (after : FileSystem), op.Named →
        op.exec (bdfsDeleteFile logFileSystem (literal ['l', 'o', 'g'])).2 = some (code, after) →
          (NavigationOk after ↔
            op.SparesRoot (bdfsDeleteFile logFileSystem (literal ['l', 'o', 'g'])).2) := by
  have log : rootedSystem.Reachable logFileSystem :=
    @TransitionSystem.Reachable.step _ _ _ _ _ (.createFile (literal ['l', 'o', 'g']))
      (.init freshFileSystem_init)
      ⟨fun found => absurd found (by simp [Op.victim]),
        by simp [Op.Named, Op.names, literal, asciiBytes], 0, rfl⟩
  have spared : (Op.deleteFile (literal ['l', 'o', 'g'])).SparesRoot logFileSystem :=
    show findEntryInDir _ _ _ ≠ some 0 by rw [logFileSystem_found.1]; decide
  exact navigation_ok_iff_root_spared
    (@TransitionSystem.Reachable.step _ _ _ _ _ (.deleteFile (literal ['l', 'o', 'g'])) log
      ⟨spared, by simp [Op.Named, Op.names, literal, asciiBytes], _, rfl⟩)

/-- `rm /` in the root directory frees the root and the current directory. -/
theorem navigation_breaks :
    ¬ ∀ fs, namedSystem.Reachable fs → NavigationOk fs := by
  intro always
  let rmRoot : Op := .deleteFile (literal ['/'])
  have named : rmRoot.Named := by
    intro name member
    rw [List.mem_singleton.mp member]
    decide
  have victim : rmRoot.victim freshFileSystem = some 0 :=
    show findEntryInDir defaultTable _ 0 = some 0 by decide +kernel
  have executed : rmRoot.exec freshFileSystem =
      some ((bdfsDeleteFile freshFileSystem (literal ['/'])).1,
        (bdfsDeleteFile freshFileSystem (literal ['/'])).2) := rfl
  have navigation := always _ (.step (.init freshFileSystem_init) ⟨named, _, executed⟩)
  exact (exec_change executed).rootFreed victim navigation.root.live

end BrainDance.Fs.Bdfs
