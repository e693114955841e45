import BrainDance.Fs.Bdfs.Root

/-!
Owns the directory tree: the parent of every entry. To speak of the directory
an entry was created in, the system keeps a history: how many entries began in
each slot, and the slot and count of the current directory when an entry began.

A delete frees the entry it finds without a look at the entries that name it as
their parent. Those are the only steps that break the tree, and the result says
so for every run.
-/

namespace BrainDance.Fs.Bdfs

open BrainDance.Foundation
open BrainDance.Libc

/-! ### Where entries come from -/

/-- An entry began in the slot between two tables. -/
def Begun (before after : FileTable) (slot : Slot) : Prop :=
  ¬ (before slot).Live ∧ (after slot).Live

instance (before after : FileTable) (slot : Slot) : Decidable (Begun before after slot) :=
  inferInstanceAs (Decidable (_ ∧ _))

/-- The history of a run: `begun inode` entries began at an inode, and the entry
of a slot began while `home slot` was the current directory's inode and count. -/
structure Origins where
  begun : Word → Nat
  home : Slot → Word × Nat

/-- The entries of a new file system are in the directories `bdfs_init` put them in. -/
def Origins.start : Origins where
  begun _ := 0
  home slot := ((defaultTable slot).parentInode, 0)

def Origins.record (before after : FileSystem) (origins : Origins) : Origins where
  begun inode :=
    if ∃ slot, inodeOf slot = inode ∧ Begun before.fileTable after.fileTable slot then
      origins.begun inode + 1
    else origins.begun inode
  home slot :=
    if Begun before.fileTable after.fileTable slot then
      (before.currentDirInode, origins.begun before.currentDirInode)
    else origins.home slot

/-- The runs of named calls with their history. -/
abbrev tracedSystem : TransitionSystem (FileSystem × Origins) Op :=
  namedSystem.withHistory Origins.start Origins.record

/-- The entry's parent is a live directory, the one the entry was created in. -/
def AtHome (table : FileTable) (origins : Origins) (slot : Slot) : Prop :=
  ∃ directory, (table slot).parentInode = inodeOf directory ∧ (table directory).Live ∧
    (table directory).type = .directory ∧
      origins.home slot = (inodeOf directory, origins.begun (inodeOf directory))

def TreeOk (state : FileSystem × Origins) : Prop :=
  ∀ slot, (state.1.fileTable slot).Live → AtHome state.1.fileTable state.2 slot

/-- No live entry has the one the call frees as its parent. -/
def Op.SparesParents (fs : FileSystem) (op : Op) : Prop :=
  ∀ victim, op.victim fs = some victim →
    ∀ slot, (fs.fileTable slot).Live → (fs.fileTable slot).parentInode ≠ inodeOf victim

/-- No other live entry has the one the call frees as its parent. -/
def Op.SparesOthers (fs : FileSystem) (op : Op) : Prop :=
  ∀ victim, op.victim fs = some victim → ∀ slot, slot ≠ victim →
    (fs.fileTable slot).Live → (fs.fileTable slot).parentInode ≠ inodeOf victim

section Homes

variable {before after : FileSystem} {origins : Origins} {slot : Slot}

/-- Where no entry begins, the history stays. -/
theorem Origins.record_begun (quiet : ¬ Begun before.fileTable after.fileTable slot) :
    (origins.record before after).begun (inodeOf slot) = origins.begun (inodeOf slot) := by
  apply if_neg
  rintro ⟨other, same, begun⟩
  exact quiet (inodeOf_injective same ▸ begun)

theorem Origins.record_home (quiet : ¬ Begun before.fileTable after.fileTable slot) :
    (origins.record before after).home slot = origins.home slot := if_neg quiet

theorem Origins.record_home_of_begun (begun : Begun before.fileTable after.fileTable slot) :
    (origins.record before after).home slot =
      (before.currentDirInode, origins.begun before.currentDirInode) := if_pos begun

/-- A live directory is not one that begins: its count stays. -/
theorem Origins.record_begun_of_live (live : (before.fileTable slot).Live) :
    (origins.record before after).begun (inodeOf slot) = origins.begun (inodeOf slot) :=
  Origins.record_begun fun begun => begun.1 live

/-- An entry that was live stays at home when its parent stays live and keeps
its type, and the entry its parent. -/
theorem AtHome.record (atHome : AtHome before.fileTable origins slot)
    (live : (before.fileTable slot).Live)
    (sameParent : (after.fileTable slot).parentInode = (before.fileTable slot).parentInode)
    (parentKept : ∀ directory, (before.fileTable slot).parentInode = inodeOf directory →
      (before.fileTable directory).Live → (after.fileTable directory).Live ∧
        (after.fileTable directory).type = (before.fileTable directory).type) :
    AtHome after.fileTable (origins.record before after) slot := by
  obtain ⟨directory, parent, parentLive, isDirectory, home⟩ := atHome
  have kept := parentKept directory parent parentLive
  refine ⟨directory, sameParent.trans parent, kept.1, kept.2.trans isDirectory, ?_⟩
  rw [Origins.record_home fun begun => begun.1 live, Origins.record_begun_of_live parentLive]
  exact home

/-- A new entry is at home in the current directory. -/
theorem AtHome.of_begun (current : LiveDirectory before.fileTable before.currentDirInode)
    (begun : Begun before.fileTable after.fileTable slot)
    (parent : (after.fileTable slot).parentInode = before.currentDirInode)
    (kept : ∀ other, other ≠ slot → after.fileTable other = before.fileTable other) :
    AtHome after.fileTable (origins.record before after) slot := by
  obtain ⟨directory, here, live, isDirectory⟩ := current.slot
  have other : directory ≠ slot := by
    rintro rfl
    exact begun.1 live
  refine ⟨directory, parent.trans here, ?_, ?_, ?_⟩
  · rwa [kept directory other]
  · rwa [kept directory other]
  · rw [Origins.record_home_of_begun begun, here, Origins.record_begun_of_live live]

end Homes

/-! ### Steps of the tree -/

section TreeSteps

variable {fs after : FileSystem} {op : Op} {origins : Origins}

theorem TableChange.treeOk {table : FileTable} (change : TableChange fs op table)
    (tableAfter : after.fileTable = table) (named : op.Named) (spares : op.SparesOthers fs)
    (current : LiveDirectory fs.fileTable fs.currentDirInode)
    (tree : TreeOk (fs, origins)) : TreeOk (after, origins.record fs after) := by
  intro slot liveAfter
  cases change with
  | kept =>
      have live : (fs.fileTable slot).Live := tableAfter ▸ liveAfter
      refine (tree slot live).record live (by rw [tableAfter]) fun directory _ parentLive => ?_
      rw [tableAfter]
      exact ⟨parentLive, rfl⟩
  | @created fresh name type fits _ picked =>
      have kept : ∀ other, other ≠ fresh → after.fileTable other = fs.fileTable other := by
        intro other different
        rw [tableAfter, Function.update_of_ne different]
      have free := free_of_findFreeEntry picked
      by_cases new : slot = fresh
      · subst new
        refine AtHome.of_begun current ⟨free, liveAfter⟩ ?_ kept
        rw [tableAfter, Function.update_self]
        rfl
      · have live : (fs.fileTable slot).Live := kept slot new ▸ liveAfter
        refine (tree slot live).record live (by rw [kept slot new]) fun directory _ parentLive => ?_
        rw [kept directory (by rintro rfl; exact free parentLive)]
        exact ⟨parentLive, rfl⟩
  | @deleted freed victim =>
      have kept : ∀ other, other ≠ freed → after.fileTable other = fs.fileTable other := by
        intro other different
        rw [tableAfter, Function.update_of_ne different]
      have other : slot ≠ freed := by
        rintro rfl
        rw [tableAfter, Function.update_self] at liveAfter
        exact liveAfter (by simp [FileEntry.freed])
      have live : (fs.fileTable slot).Live := kept slot other ▸ liveAfter
      refine (tree slot live).record live (by rw [kept slot other])
        fun directory parent parentLive => ?_
      rw [kept directory (by rintro rfl; exact spares _ victim slot other live parent)]
      exact ⟨parentLive, rfl⟩
  | @amended changed entry _ wasLive liveEntry sameType sameParent =>
      have facts : ∀ other, ((fs.fileTable other).Live → (after.fileTable other).Live) ∧
          ((after.fileTable other).Live → (fs.fileTable other).Live) ∧
          (after.fileTable other).type = (fs.fileTable other).type ∧
          (after.fileTable other).parentInode = (fs.fileTable other).parentInode := by
        intro other
        by_cases here : other = changed
        · subst here
          rw [tableAfter, Function.update_self]
          exact ⟨fun _ => liveEntry named, fun _ => wasLive, sameType, sameParent⟩
        · rw [tableAfter, Function.update_of_ne here]
          exact ⟨id, id, rfl, rfl⟩
      have live := (facts slot).2.1 liveAfter
      exact (tree slot live).record live (facts slot).2.2.2 fun directory _ parentLive =>
        ⟨(facts directory).1 parentLive, (facts directory).2.2.1⟩

/-- A delete that frees another live entry's parent leaves an orphan. -/
theorem TableChange.sparesOthers {table : FileTable} (change : TableChange fs op table)
    (tableAfter : after.fileTable = table) (tree : TreeOk (after, origins)) : op.SparesOthers fs := by
  intro victim found slot other live parent
  cases change with
  | kept noVictim => rw [noVictim] at found; contradiction
  | created _ _ noVictim => rw [noVictim] at found; contradiction
  | @deleted freed victim' =>
      obtain rfl := Option.some.inj (victim'.symm.trans found)
      have kept : after.fileTable slot = fs.fileTable slot := by
        rw [tableAfter, Function.update_of_ne other]
      obtain ⟨directory, parentAfter, parentLive, _⟩ := tree slot (by rwa [kept])
      rw [kept, parent] at parentAfter
      obtain rfl := inodeOf_injective parentAfter
      rw [tableAfter, Function.update_self] at parentLive
      exact parentLive (by simp [FileEntry.freed])
  | amended noVictim => rw [noVictim] at found; contradiction

end TreeSteps

/-! ### Runs of the tree -/

/-- The runs of named calls none of which frees an entry's parent. -/
abbrev treeSystem : TransitionSystem (FileSystem × Origins) Op :=
  tracedSystem.guard fun state op => op.SparesParents state.1

theorem RootHeld.sparesRoot {fs : FileSystem} {op : Op} (root : RootHeld fs.fileTable)
    (spares : op.SparesParents fs) : op.SparesRoot fs :=
  fun victim => spares 0 victim 0 root.live root.ownParent

theorem Op.SparesParents.others {fs : FileSystem} {op : Op} (spares : op.SparesParents fs) :
    op.SparesOthers fs := fun victim found slot _ live => spares victim found slot live

/-- A run that frees no entry's parent frees no root: the root is its own parent. -/
theorem tree_rooted {state : FileSystem × Origins} (reachable : treeSystem.Reachable state) :
    rootedSystem.Reachable state.1 := by
  induction reachable with
  | init initial => exact .init initial.1
  | step _ step inductionHypothesis =>
      obtain ⟨spares, call, _⟩ := step
      exact .step inductionHypothesis
        ⟨(rooted_rootHeld inductionHypothesis).sparesRoot spares, call⟩

theorem defaultTable_treeOk {fs : FileSystem} (table : fs.fileTable = defaultTable) :
    TreeOk (fs, Origins.start) := by
  intro slot live
  rw [table] at live
  have parents : ∀ slot, (defaultTable slot).Live →
      (defaultTable slot).parentInode = inodeOf 0 ∨ (defaultTable slot).parentInode = inodeOf 3 := by
    decide +kernel
  have home : ∀ directory, (defaultTable slot).parentInode = inodeOf directory →
      (defaultTable directory).Live → (defaultTable directory).type = .directory →
        AtHome defaultTable Origins.start slot := by
    intro directory parent parentLive isDirectory
    refine ⟨directory, parent, parentLive, isDirectory, ?_⟩
    show ((defaultTable slot).parentInode, 0) = (inodeOf directory, 0)
    rw [parent]
  rw [table]
  rcases parents slot live with inRoot | inVault
  · exact home 0 inRoot (by decide +kernel) (by decide +kernel)
  · exact home 3 inVault (by decide +kernel) (by decide +kernel)

theorem tree_treeOk {state : FileSystem × Origins} (reachable : treeSystem.Reachable state) :
    TreeOk state := by
  apply reachable.invariant TreeOk
  · rintro ⟨fs, origins⟩ ⟨initial, rfl⟩
    obtain ⟨boot, _, rfl⟩ := (system_init_iff fs).mp initial
    exact defaultTable_treeOk rfl
  · rintro ⟨before, origins⟩ op ⟨after, recorded⟩ earlier tree
      ⟨spares, ⟨named, code, executed⟩, same⟩
    obtain rfl : recorded = origins.record before after := same
    exact (exec_change executed).treeOk rfl named spares.others
      (rooted_navigationOk (tree_rooted earlier)).current tree

/-- In every run that never frees an entry's parent each entry's parent is the
live directory the entry was created in; the next named call keeps this exactly
when it frees no other entry's parent. -/
theorem tree_ok_iff_parents_spared {state : FileSystem × Origins}
    (reachable : treeSystem.Reachable state) :
    TreeOk state ∧ ∀ (op : Op) (code : Int) (after : FileSystem), op.Named →
      op.exec state.1 = some (code, after) →
        (TreeOk (after, state.2.record state.1 after) ↔ op.SparesOthers state.1) := by
  have tree := tree_treeOk reachable
  refine ⟨tree, fun op code after named executed => ⟨?_, ?_⟩⟩
  · exact fun treeAfter => (exec_change executed).sparesOthers rfl treeAfter
  · intro spares
    exact (exec_change executed).treeOk rfl named spares
      (rooted_navigationOk (tree_rooted reachable)).current tree

/-- `touch log` and `rm log`. -/
theorem tree_ok_iff_parents_spared_removed :
    ∃ origins, TreeOk ((bdfsDeleteFile logFileSystem (literal ['l', 'o', 'g'])).2, origins) ∧
      ∀ (op : Op) (code : Int) (after : FileSystem), op.Named →
        op.exec (bdfsDeleteFile logFileSystem (literal ['l', 'o', 'g'])).2 = some (code, after) →
          (TreeOk (after, origins.record
              (bdfsDeleteFile logFileSystem (literal ['l', 'o', 'g'])).2 after) ↔
            op.SparesOthers (bdfsDeleteFile logFileSystem (literal ['l', 'o', 'g'])).2) := by
  have log : treeSystem.Reachable
      (logFileSystem, Origins.start.record freshFileSystem logFileSystem) :=
    @TransitionSystem.Reachable.step _ _ _ (freshFileSystem, Origins.start) _
      (.createFile (literal ['l', 'o', 'g'])) (.init ⟨freshFileSystem_init, rfl⟩)
      ⟨fun _ found => absurd found (by simp [Op.victim]),
        ⟨by simp [Op.Named, Op.names, literal, asciiBytes], 0, rfl⟩, rfl⟩
  have childless : ∀ slot, (logFileSystem.fileTable slot).Live →
      (logFileSystem.fileTable slot).parentInode ≠ inodeOf 8 := by decide +kernel
  have spares : (Op.deleteFile (literal ['l', 'o', 'g'])).SparesParents logFileSystem := by
    intro victim found
    obtain rfl := Option.some.inj (found.symm.trans logFileSystem_found.1)
    exact childless
  exact ⟨_, tree_ok_iff_parents_spared
    (@TransitionSystem.Reachable.step _ _ _ _ (_, Origins.record _ _ _)
      (.deleteFile (literal ['l', 'o', 'g'])) log
      ⟨spares, ⟨by simp [Op.Named, Op.names, literal, asciiBytes], _, rfl⟩, rfl⟩)⟩

/-- `rm vault` in a new file system leaves `cypher`, created in it, without a parent. -/
theorem tree_breaks :
    ¬ ∀ state, tracedSystem.Reachable state → TreeOk state := by
  intro always
  let rmVault : Op := .deleteFile (literal ['v', 'a', 'u', 'l', 't'])
  have named : rmVault.Named := by
    intro name member
    rw [List.mem_singleton.mp member]
    decide
  have victim : rmVault.victim freshFileSystem = some 3 :=
    show findEntryInDir defaultTable _ 0 = some 3 by decide +kernel
  have cypherLive : (freshFileSystem.fileTable 7).Live :=
    show (defaultTable 7).Live by decide +kernel
  have cypherParent : (freshFileSystem.fileTable 7).parentInode = inodeOf 3 :=
    show (defaultTable 7).parentInode = inodeOf 3 by decide +kernel
  have executed : rmVault.exec freshFileSystem =
      some ((bdfsDeleteFile freshFileSystem (literal ['v', 'a', 'u', 'l', 't'])).1,
        (bdfsDeleteFile freshFileSystem (literal ['v', 'a', 'u', 'l', 't'])).2) := rfl
  have reached : namedSystem.Reachable _ :=
    .step (.init freshFileSystem_init) ⟨named, _, executed⟩
  obtain ⟨origins, traced⟩ : ∃ origins, tracedSystem.Reachable (_, origins) := reached.withHistory
  have tree := always _ traced
  exact (exec_change executed).sparesOthers rfl tree 3 victim 7 (by decide) cypherLive cypherParent

end BrainDance.Fs.Bdfs
