import BrainDance.Fs.Bdfs.Names

/-!
Owns the way up. `RootPath` is the chain of live directories from an inode to
inode 0, and the invariant is that the current directory has one. The parent
graph of the whole table may hold orphans and cycles; the chain survives every
call because no call touches an entry on it: freeing or renaming reaches only
children of the current directory, and no child of the chain's lower end lies
on the chain.
-/

namespace BrainDance.Fs.Bdfs

open BrainDance.Foundation
open BrainDance.Libc

/-- The live directories from an inode up to, and without, inode 0. -/
inductive RootPath (table : FileTable) : Word → List Slot → Prop where
  | root : RootPath table 0 []
  | child {slot : Slot} {path : List Slot} (notRoot : inodeOf slot ≠ 0)
      (live : (table slot).Live) (isDirectory : (table slot).type = .directory)
      (rest : RootPath table (table slot).parentInode path) :
      RootPath table (inodeOf slot) (slot :: path)

/-! ### Inodes -/

theorem inodeOf_toNat (slot : Slot) : (inodeOf slot).toNat = slot.val := by
  have := slot.isLt
  simp only [bdfsMaxFiles] at this
  rw [inodeOf, BitVec.toNat_ofNat, Nat.mod_eq_of_lt (by omega)]

theorem inodeOf_injective : Function.Injective inodeOf := by
  intro left right same
  apply Fin.ext
  rw [← inodeOf_toNat, ← inodeOf_toNat, same]

theorem entryAt_inodeOf (table : FileTable) (slot : Slot) :
    entryAt table (inodeOf slot) = some (table slot) := by
  unfold entryAt
  simp [inodeOf_toNat, slot.isLt]

/-! ### Paths -/

section Paths

variable {table : FileTable} {inode : Word} {path : List Slot} {slot : Slot}

theorem RootPath.unique {other : List Slot} (first : RootPath table inode path)
    (second : RootPath table inode other) : path = other := by
  generalize sameInode : inode = target at second
  induction first generalizing other target with
  | root =>
      cases second with
      | root => rfl
      | child notRoot => exact absurd sameInode.symm notRoot
  | @child slot path notRoot live isDirectory rest inductionHypothesis =>
      cases second with
      | root => exact absurd sameInode notRoot
      | @child slot' path' _ _ _ rest' =>
          have sameSlot := inodeOf_injective sameInode
          subst sameSlot
          rw [inductionHypothesis _ rfl rest']

/-- Above an entry on a path lies a shorter path from its parent. -/
theorem RootPath.above (climbs : RootPath table inode path) (member : slot ∈ path) :
    ∃ upper, RootPath table (table slot).parentInode upper ∧ upper.length < path.length := by
  induction climbs with
  | root => simp at member
  | @child head path notRoot live isDirectory rest inductionHypothesis =>
      rcases List.mem_cons.mp member with rfl | inPath
      · exact ⟨path, rest, by simp⟩
      · obtain ⟨upper, climbsUpper, shorter⟩ := inductionHypothesis inPath
        exact ⟨upper, climbsUpper, by simp only [List.length_cons]; omega⟩

/-- No child of a path's lower end lies on the path. -/
theorem RootPath.child_not_mem (climbs : RootPath table inode path)
    (child : (table slot).parentInode = inode) : slot ∉ path := by
  intro member
  obtain ⟨upper, climbsUpper, shorter⟩ := climbs.above member
  rw [child] at climbsUpper
  rw [climbs.unique climbsUpper] at shorter
  exact lt_irrefl _ shorter

theorem RootPath.of_mem (climbs : RootPath table inode path) (member : slot ∈ path) :
    inodeOf slot ≠ 0 ∧ (table slot).Live ∧ (table slot).type = .directory := by
  induction climbs with
  | root => simp at member
  | @child head path notRoot live isDirectory rest inductionHypothesis =>
      rcases List.mem_cons.mp member with rfl | inPath
      · exact ⟨notRoot, live, isDirectory⟩
      · exact inductionHypothesis inPath

theorem RootPath.nodup (climbs : RootPath table inode path) : path.Nodup := by
  induction climbs with
  | root => exact List.nodup_nil
  | child notRoot live isDirectory rest inductionHypothesis =>
      exact List.nodup_cons.mpr ⟨rest.child_not_mem rfl, inductionHypothesis⟩

/-- A path has at most 63 entries: distinct slots, none of them slot 0. -/
theorem RootPath.length_le (climbs : RootPath table inode path) : path.length ≤ 63 := by
  have rootOff : (0 : Slot) ∉ path := fun member => (climbs.of_mem member).1 rfl
  have all := (List.nodup_cons.mpr ⟨rootOff, climbs.nodup⟩).length_le_card
  simp only [List.length_cons, Fintype.card_fin, bdfsMaxFiles] at all
  omega

/-- A change to a slot off the path leaves the path. -/
theorem RootPath.update (climbs : RootPath table inode path) (entry : FileEntry)
    (off : slot ∉ path) : RootPath (Function.update table slot entry) inode path := by
  induction climbs with
  | root => exact .root
  | @child head path notRoot live isDirectory rest inductionHypothesis =>
      simp only [List.mem_cons, not_or] at off
      have kept : Function.update table slot entry head = table head :=
        Function.update_of_ne (Ne.symm off.1) _ _
      apply RootPath.child notRoot
      · rwa [kept]
      · rwa [kept]
      · rw [kept]
        exact inductionHypothesis off.2

end Paths

/-! ### The invariant -/

theorem RootPath.nameEdit {directory : Word} {table after : FileTable} {path : List Slot}
    (climbs : RootPath table directory path) (edit : NameEdit directory table after) :
    RootPath after directory path := by
  cases edit with
  | occupy type fits absent picked =>
      exact climbs.update _ fun member => free_of_findFreeEntry picked (climbs.of_mem member).2.1
  | release found => exact climbs.update _ (climbs.child_not_mem (live_of_findEntryInDir found).2.1)
  | rename fits found absent =>
      exact climbs.update _ (climbs.child_not_mem (live_of_findEntryInDir found).2.1)

theorem Effect.rootPath {fs after : FileSystem} (effect : Effect fs after)
    (climbs : ∃ path, RootPath fs.fileTable fs.currentDirInode path) :
    ∃ path, RootPath after.fileTable after.currentDirInode path := by
  obtain ⟨path, climbs⟩ := climbs
  cases effect with
  | unchanged => exact ⟨path, climbs⟩
  | @ascend current notRoot here =>
      generalize at_ : fs.currentDirInode = inode at climbs notRoot here
      cases climbs with
      | root => exact absurd rfl notRoot
      | @child slot rest _ _ _ upper =>
          rw [entryAt_inodeOf, Option.some.injEq] at here
          exact ⟨rest, here ▸ upper⟩
  | @descend slot name found isDirectory =>
      by_cases toRoot : inodeOf slot = 0
      · exact ⟨[], toRoot ▸ RootPath.root⟩
      · obtain ⟨live, inDirectory, _⟩ := live_of_findEntryInDir found
        exact ⟨slot :: path, .child toRoot live isDirectory (inDirectory ▸ climbs)⟩
  | rearrange edit => exact ⟨path, climbs.nameEdit edit⟩
  | @store slot startSector length buffer placement =>
      refine ⟨path, climbs.update _ fun member => ?_⟩
      have isDirectory := (climbs.of_mem member).2.2
      rw [placement.isFile] at isDirectory
      contradiction

theorem reachable_rootPath {fs : FileSystem} (reachable : system.Reachable fs) :
    ∃ path, RootPath fs.fileTable fs.currentDirInode path := by
  apply reachable.invariant fun fs => ∃ path, RootPath fs.fileTable fs.currentDirInode path
  · intro fs initial
    obtain ⟨boot, _, rfl⟩ := (system_init_iff fs).mp initial
    exact ⟨[], .root⟩
  · rintro before op after _ climbs ⟨code, executed⟩
    exact (exec_effect executed).rootPath climbs

/-! ### Climbing -/

theorem bdfsChdir_dotDot (fs : FileSystem) :
    bdfsChdir fs dotDot =
      if fs.currentDirInode ≠ 0 then
        (entryAt fs.fileTable fs.currentDirInode).map fun current =>
          (0, { fs with currentDirInode := current.parentInode })
      else some (0, fs) := by
  unfold bdfsChdir
  rw [if_neg (by rw [strcmp_image_eq_zero_iff]; decide),
    if_pos ((strcmp_image_eq_zero_iff dotDot dotDot).mpr rfl)]

/-- `bdfs_chdir("..")` called `count` times. -/
def climb (fs : FileSystem) : Nat → Option FileSystem
  | 0 => some fs
  | count + 1 => (climb fs count).bind fun middle => (bdfsChdir middle dotDot).map Prod.snd

/-- Each call walks one step up the path. -/
theorem climb_path {fs : FileSystem} {path : List Slot}
    (climbs : RootPath fs.fileTable fs.currentDirInode path) {count : Nat}
    (within : count ≤ path.length) :
    ∃ inode, climb fs count = some { fs with currentDirInode := inode } ∧
      RootPath fs.fileTable inode (path.drop count) := by
  induction count with
  | zero => exact ⟨fs.currentDirInode, rfl, climbs⟩
  | succ count inductionHypothesis =>
      obtain ⟨inode, reached, upper⟩ := inductionHypothesis (by omega)
      rw [List.drop_eq_getElem_cons (by omega)] at upper
      cases upper with
      | @child slot rest notRoot live isDirectory rest' =>
          refine ⟨(fs.fileTable path[count]).parentInode, ?_, rest'⟩
          rw [climb, reached, Option.bind_some, bdfsChdir_dotDot, if_pos notRoot,
            entryAt_inodeOf]
          rfl

/-- From every reachable state at most 63 calls of `bdfs_chdir("..")` lead to
inode 0, over live directories only. -/
theorem chdir_dotDot_reaches_root {fs : FileSystem} (reachable : system.Reachable fs) :
    ∃ count ≤ 63, climb fs count = some { fs with currentDirInode := 0 } ∧
      ∀ steps ≤ count, ∃ inode, climb fs steps = some { fs with currentDirInode := inode } ∧
        (inode ≠ 0 → ∃ entry, entryAt fs.fileTable inode = some entry ∧ entry.Live ∧
          entry.type = .directory) := by
  obtain ⟨path, climbs⟩ := reachable_rootPath reachable
  refine ⟨path.length, climbs.length_le, ?_, ?_⟩
  · obtain ⟨inode, reached, top⟩ := climb_path climbs le_rfl
    rw [List.drop_length] at top
    cases top
    exact reached
  · intro steps within
    obtain ⟨inode, reached, upper⟩ := climb_path climbs within
    refine ⟨inode, reached, fun notRoot => ?_⟩
    generalize path.drop steps = remaining at upper
    cases upper with
    | root => exact absurd rfl notRoot
    | @child slot rest _ live isDirectory _ =>
        exact ⟨fs.fileTable slot, entryAt_inodeOf _ slot, live, isDirectory⟩

/-- The new file system, entered at the default directory `vault`. -/
def vaultFileSystem : FileSystem := { freshFileSystem with currentDirInode := inodeOf 3 }

theorem vaultFileSystem_reachable : system.Reachable vaultFileSystem := by
  have found : findEntryInDir freshFileSystem.fileTable (literal ['v', 'a', 'u', 'l', 't'])
      freshFileSystem.currentDirInode = some 3 :=
    show findEntryInDir defaultTable _ 0 = some 3 by decide +kernel
  have isDirectory : (freshFileSystem.fileTable 3).type = .directory :=
    show (defaultTable 3).type = .directory by decide +kernel
  have executed : bdfsChdir freshFileSystem (literal ['v', 'a', 'u', 'l', 't']) =
      some (0, vaultFileSystem) := by
    unfold bdfsChdir
    rw [if_neg (by decide), if_neg (by decide), found]
    simp only [isDirectory]
    rfl
  exact @reachable_exec _ _ (.chdir _) _ freshFileSystem_reachable executed

theorem chdir_dotDot_reaches_root_fromVault :
    ∃ count ≤ 63, climb vaultFileSystem count = some { vaultFileSystem with currentDirInode := 0 } ∧
      ∀ steps ≤ count, ∃ inode,
        climb vaultFileSystem steps = some { vaultFileSystem with currentDirInode := inode } ∧
          (inode ≠ 0 → ∃ entry, entryAt vaultFileSystem.fileTable inode = some entry ∧
            entry.Live ∧ entry.type = .directory) :=
  chdir_dotDot_reaches_root vaultFileSystem_reachable

end BrainDance.Fs.Bdfs
