import BrainDance.App.Cable.Save
import BrainDance.Exec.Loaded
import BrainDance.Shell.Commands

/-!
Owns the buffers that files are read into. `bdfs_read_file` is not told their
size, so they are safe as long as no program makes a file longer than the
smallest of them, the 1024 bytes of `cat_command` and `execute_bdx`.
-/

namespace BrainDance.Shell

open BrainDance.Foundation
open BrainDance.Libc
open BrainDance.Exec
open BrainDance.Fs.Bdfs

/-! ### The property and the condition -/

/-- `sizeof` of the array that `cat_command` reads into. -/
abbrev catBufferSize : Nat := 1024

/-- Whatever file is read next, it fits the buffers of `cat_command`, `execute_bdx`
and `editor_init`. -/
def ReadersSafe (fs : FileSystem) : Prop :=
  ∀ path bytesRead data, bdfsReadFile fs path = some (.ok (bytesRead, data)) →
    data.length ≤ catBufferSize ∧ data.length ≤ maxBytecodeSize ∧
      data.length ≤ App.Cable.editorRows * App.Cable.editorCols

/-- The call does not make a file longer than the readers' buffers. -/
def ShortCall (fs : FileSystem) : BdxCall → Prop
  | .print _ => True
  | .writeFile path _ len => Accepts fs path len → len.toNat ≤ 1024

/-- The calls are short, each in the state that the earlier ones leave. -/
def ShortCalls : List BdxCall → Kernel → Prop
  | [], _ => True
  | call :: rest, kernel => ShortCall kernel.fileSystem call ∧
      ∀ after, performCall call kernel = some after → ShortCalls rest after

/-- A program that is executed makes short calls only. -/
def ShortWrites (kernel : Kernel) : Event → Prop
  | .command (.execute path stack) => ∀ bytesRead program,
      bdfsReadFile kernel.fileSystem path = some (.ok (bytesRead, program)) →
        ∀ calls stop, (flow (loadedBytecode stack program)).Run 0 calls stop →
          Stops (loadedBytecode stack program) stop → ShortCalls calls kernel
  | _ => True

/-! ### The invariant -/

/-- No file of the table is longer than the readers' buffers. -/
def FilesShort (table : FileTable) : Prop :=
  ∀ slot, (table slot).IsFile → (table slot).length.toNat ≤ 1024

section Invariant

variable {fs after : FileSystem}

theorem FilesShort.update {table : FileTable} (short : FilesShort table) {slot : Slot}
    {entry : FileEntry} (fits : entry.IsFile → entry.length.toNat ≤ 1024) :
    FilesShort (Function.update table slot entry) := by
  intro other isFile
  by_cases same : other = slot
  · subst same
    rw [Function.update_self] at isFile ⊢
    exact fits isFile
  · rw [Function.update_of_ne same] at isFile ⊢
    exact short other isFile

theorem FilesShort.nameEdit {directory : Word} {table edited : FileTable}
    (short : FilesShort table) (edit : NameEdit directory table edited) : FilesShort edited := by
  cases edit with
  | occupy type fits absent picked => exact short.update fun _ => Nat.zero_le _
  | release found =>
      refine short.update fun isFile => absurd isFile.1 ?_
      simp [FileEntry.Live, FileEntry.freed]
  | @rename slot oldName newName fits found absent =>
      exact short.update fun isFile => short slot ⟨(live_of_findEntryInDir found).1, isFile.2⟩

theorem FilesShort.rearranges (short : FilesShort fs.fileTable) (rearranges : Rearranges fs after) :
    FilesShort after.fileTable := by
  cases rearranges with
  | unchanged => exact short
  | edit edit => exact short.nameEdit edit

theorem initial_filesShort (initial : system.Init fs) : FilesShort fs.fileTable := by
  obtain ⟨boot, _, rfl⟩ := (system_init_iff fs).mp initial
  have atRoot : FilesShort rootTable := by
    intro slot isFile
    by_cases root : slot = 0
    · subst root
      exact absurd isFile (by decide)
    · rw [rootTable, Function.update_of_ne root] at isFile
      exact absurd isFile (by decide)
  exact defaultTable_property atRoot fun _ _ _ short edit => short.nameEdit edit

theorem accepts_of_placement {path : CString} {slot : Slot} {startSector len : Word}
    (found : findEntryInDir fs.fileTable path fs.currentDirInode = some slot)
    (placement : Placement fs slot startSector len) : Accepts fs path len :=
  ⟨slot, startSector, found, placement.isFile, placement.chosen⟩

/-- A write keeps the files short exactly when it is refused or short itself. -/
theorem filesShort_write_iff (short : FilesShort fs.fileTable) {path : CString} {data : Image}
    {len : Word} {code : Int} (written : bdfsWriteFile fs path data len = some (code, after)) :
    FilesShort after.fileTable ↔ ShortCall fs (.writeFile path data len) := by
  by_cases accepts : Accepts fs path len
  · have ⟨slot, startSector, found, isFile, chosen⟩ := accepts
    have stored : after = storedFile fs slot startSector data len := by
      unfold bdfsWriteFile storeFile at written
      rw [found] at written
      dsimp only at written
      rw [if_neg (not_not.mpr isFile), chosen] at written
      dsimp only at written
      split at written
      · exact (Prod.mk.inj (Option.some.inj written)).2.symm
      · contradiction
    have entry := storedFile_entry fs slot startSector data len
    rw [← stored] at entry
    constructor
    · intro after _
      have here := after slot
      rw [entry] at here
      exact here ⟨(live_of_findEntryInDir found).1, isFile⟩
    · intro shortCall
      rw [stored]
      exact short.update fun _ => shortCall accepts
  · have same : after = fs := by
      rcases bdfsWriteFile_cases written with ⟨same, _⟩ | ⟨slot, startSector, found, placement, _⟩
      · exact same
      · exact absurd (accepts_of_placement found placement) accepts
    rw [same]
    exact iff_of_true short fun accepted => absurd accepted accepts

/-- A call of the file system that writes at most 1024 bytes keeps the files short. -/
theorem exec_filesShort (short : FilesShort fs.fileTable) {op : Op} {code : Int}
    (bounded : op.BytesOk fun bytes => bytes.toNat ≤ 1024)
    (executed : op.exec fs = some (code, after)) : FilesShort after.fileTable := by
  cases op with
  | createFile filename =>
      rw [← (Prod.mk.inj (Option.some.inj executed)).2]
      exact short.rearranges (bdfsCreateFile_rearranges filename)
  | mkdir dirname =>
      rw [← (Prod.mk.inj (Option.some.inj executed)).2]
      exact short.rearranges (bdfsMkdir_rearranges dirname)
  | deleteFile filename =>
      rw [← (Prod.mk.inj (Option.some.inj executed)).2]
      exact short.rearranges (bdfsDeleteFile_rearranges filename)
  | renameFile oldFilename newFilename =>
      rw [← (Prod.mk.inj (Option.some.inj executed)).2]
      exact short.rearranges (bdfsRenameFile_rearranges oldFilename newFilename)
  | chdir dirname =>
      rw [(bdfsChdir_keeps executed).2]
      exact short
  | writeFile filename buffer bytesToWrite =>
      exact (filesShort_write_iff short executed).mpr fun _ => bounded

theorem performAll_filesShort {calls : List BdxCall} {kernel done : Kernel}
    (short : FilesShort kernel.fileSystem.fileTable) (shortCalls : ShortCalls calls kernel)
    (performed : performAll performCall calls kernel = some done) :
    FilesShort done.fileSystem.fileTable := by
  induction calls generalizing kernel with
  | nil => exact Option.some.inj performed ▸ short
  | cons call rest inductionHypothesis =>
      obtain ⟨middle, first, others⟩ := Option.bind_eq_some_iff.mp performed
      obtain ⟨shortCall, later⟩ := shortCalls
      refine inductionHypothesis ?_ (later middle first) others
      rcases performCall_cases first with same | ⟨path, data, len, code, rfl, written⟩
      · rw [same]
        exact short
      · exact (filesShort_write_iff short written).mpr shortCall

/-- A step that meets the condition keeps the files short. -/
theorem step_filesShort {before done : Kernel} {event : Event}
    (short : FilesShort before.fileSystem.fileTable) (shortWrites : ShortWrites before event)
    (step : shellSystem.Step before event done) : FilesShort done.fileSystem.fileTable := by
  rcases shellStep_cases step with ⟨op, bounded, code, executed⟩ | ⟨path, stack, fuel, rfl, ran⟩
  · exact exec_filesShort short bounded executed
  · obtain ⟨⟨result, after⟩, executed, rfl⟩ := Option.map_eq_some_iff.mp ran
    rcases executeBdx_cases executed with
      rfl | ⟨bytesRead, program, calls, stop, loaded, run, stops, performed⟩
    · exact short
    · exact performAll_filesShort short
        (shortWrites bytesRead program loaded calls stop run stops) performed

/-- Short files fit every buffer. -/
theorem FilesShort.readersSafe (short : FilesShort fs.fileTable) : ReadersSafe fs := by
  intro path bytesRead data back
  obtain ⟨slot, found, isFile, length⟩ := bdfsReadFile_ok back
  have bounded := short slot ⟨(live_of_findEntryInDir found).1, isFile⟩
  rw [length, ← bdfsReadFile_length back] at bounded
  have editor : App.Cable.editorRows * App.Cable.editorCols = 1920 := rfl
  exact ⟨bounded, bounded, by omega⟩

end Invariant

/-! ### Programs that write -/

/-- A write to the file `b` whose data are not in the program. -/
def writeProgram (low high : Byte) : List Byte := [0x03, 0x62, 0x00, low, high, 0x00, 0x00]

/-- The length that the program gives. -/
def writtenLength (low high : Byte) : Word := (0 : Byte) ++ (0 : Byte) ++ high ++ low

/-- `p.bdx`. -/
def programName : CString := literal ['p', '.', 'b', 'd', 'x']

/-- Two empty files more, `b` and `p.bdx`. -/
def targetFileSystem : FileSystem :=
  (bdfsCreateFile (bdfsCreateFile noteFileSystem (literal ['b'])).2 programName).2

/-- The new kernel with other files. -/
def kernelOf (fs : FileSystem) : Kernel := { App.Cable.newKernel with fileSystem := fs }

/-- The files before the program in `p.bdx` runs. -/
structure Loads (fs : FileSystem) (low high : Byte) : Prop where
  reachable : (shellSystem.guard ShortWrites).Reachable (kernelOf fs)
  program : bdfsReadFile fs programName = some (.ok (7, writeProgram low high))
  found : findEntryInDir fs.fileTable (literal ['b']) fs.currentDirInode = some 9
  isFile : (fs.fileTable 9).type = .file
  table : fs.fileTable = placeFile targetFileSystem.fileTable 10 1 7

section Programs

variable {low high : Byte} {fs : FileSystem}

theorem touch_reachable (reachable : (shellSystem.guard ShortWrites).Reachable (kernelOf fs))
    (filename : CString) :
    (shellSystem.guard ShortWrites).Reachable (kernelOf (bdfsCreateFile fs filename).2) :=
  @TransitionSystem.Reachable.step _ _ _ _ _ (.command (.touch filename)) reachable
    ⟨trivial, trivial, 0, rfl⟩

theorem targetFileSystem_reachable :
    (shellSystem.guard ShortWrites).Reachable (kernelOf targetFileSystem) := by
  have fresh : (shellSystem.guard ShortWrites).Reachable (kernelOf freshFileSystem) :=
    .init freshFileSystem_init
  have noted : (shellSystem.guard ShortWrites).Reachable (kernelOf noteFileSystem) :=
    @TransitionSystem.Reachable.step _ _ _ _ _
      (.command (.write (literal ['l', 'o', 'g']) (literal ['a'])))
      (touch_reachable fresh (literal ['l', 'o', 'g']))
      ⟨trivial, show strlen (literal ['a']) < maxCommandLength by decide, 0,
        @runOp_of_exec (kernelOf logFileSystem) _ _ _ noteFileSystem_written⟩
  exact touch_reachable (touch_reachable noted (literal ['b'])) programName

/-- Behind the loaded program the file `b` gets sector 2. -/
theorem targetFileSystem_chosen {bytesToWrite : Word}
    (fits : 2 + sectorsFor bytesToWrite ≤ bdfsDataSectors) :
    chooseStartSector (placeFile targetFileSystem.fileTable 10 1 7)
      (placeFile targetFileSystem.fileTable 10 1 7 9) bytesToWrite = some 2 := by
  have empty : (placeFile targetFileSystem.fileTable 10 1 7 9).length = 0 ∧
      findFreeSector (placeFile targetFileSystem.fileTable 10 1 7) = 2 := by decide +kernel
  exact chooseStartSector_of_empty empty.1 empty.2 fits

/-- The program is put into `p.bdx`, where it reads back. -/
theorem loads_exists (low high : Byte) : ∃ fs, Loads fs low high := by
  have facts : findEntryInDir targetFileSystem.fileTable programName
        targetFileSystem.currentDirInode = some 10 ∧
      (targetFileSystem.fileTable 10).type = .file ∧
        chooseStartSector targetFileSystem.fileTable (targetFileSystem.fileTable 10) 7 =
          some 1 := by decide +kernel
  obtain ⟨found, isFile, chosen⟩ := facts
  have extents : ExtentsOk targetFileSystem.fileTable :=
    reachable_extentsOk (shell_fileSystem_reachable targetFileSystem_reachable.of_guard)
  have shows : ShowsBytes (fun offset => (writeProgram low high).getD offset 0)
      (writeProgram low high) := rfl
  have position : dataPosition 1 = 2560 := rfl
  have lands : Lands targetFileSystem programName (writeProgram low high) :=
    lands_behind_header found isFile chosen (by rw [position]; decide)
      (by rw [position]; exact show 2560 + 7 ≤ storageSize by decide)
  obtain ⟨code, fs, written, back⟩ :=
    (readsBack_iff shows (show (writeProgram low high).length < 2 ^ 32 by
      show 7 < 2 ^ 32
      decide)).mpr lands
  have reachable : (shellSystem.guard ShortWrites).Reachable (kernelOf fs) :=
    @TransitionSystem.Reachable.step _ _ _ _ _ (.place programName (writeProgram low high))
      targetFileSystem_reachable ⟨trivial, show 7 ≤ maxBytecodeSize by decide,
        @runOp_of_exec (kernelOf targetFileSystem) (.writeFile _ _ _) _ _ written⟩
  have size : BitVec.ofNat 32 (writeProgram low high).length = 7 := rfl
  rw [size, bdfsWriteFile_of_found extents found isFile _ (by decide), chosen] at written
  obtain rfl := (Prod.mk.inj (Option.some.inj written)).2
  obtain ⟨table, directory⟩ := storedFile_keeps targetFileSystem 10 1
    (fun offset => (writeProgram low high).getD offset 0) 7
  have target : findEntryInDir (placeFile targetFileSystem.fileTable 10 1 7) (literal ['b'])
        targetFileSystem.currentDirInode = some 9 ∧
      (placeFile targetFileSystem.fileTable 10 1 7 9).type = .file := by decide +kernel
  refine ⟨_, reachable, back, ?_, ?_, table⟩
  · rw [table, directory]
    exact target.1
  · rw [table]
    exact target.2

theorem programName_fits (stack : Image) : (Command.execute programName stack).FitsLine :=
  show bdxSuffix.bytes <:+ programName.bytes by decide

theorem writtenLength_toNat (low high : Byte) :
    (writtenLength low high).toNat = 256 * high.toNat + low.toNat := by
  simp only [writtenLength, BitVec.toNat_append, Nat.shiftLeft_eq]
  simp only [show (0 : Byte).toNat = 0 from rfl, Nat.zero_mul, Nat.zero_or]
  rw [Nat.mul_comm, ← Nat.two_pow_add_eq_or_of_lt low.isLt]

/-- The call that the program makes. -/
theorem writeProgram_flow (low high : Byte) :
    ∃ data stop, (flow (loadedBytecode (fun _ => 0) (writeProgram low high))).Run 0
        [.writeFile (literal ['b']) data (writtenLength low high)] stop ∧
      Stops (loadedBytecode (fun _ => 0) (writeProgram low high)) stop := by
  have path : Holds (pointerAt (loadedBytecode (fun _ => 0) (writeProgram low high)) (0 + 1))
      (literal ['b']) := holds_iff_showsBytes.mpr rfl
  have write := @InstructionAt.write (loadedBytecode (fun _ => 0) (writeProgram low high)) 0 _ rfl
    path
  have length : wordAt (pointerAt (loadedBytecode (fun _ => 0) (writeProgram low high))
      (lengthAt 0 (literal ['b']))) 0 = writtenLength low high := rfl
  rw [length] at write
  refine ⟨_, _, .cons ⟨write, rfl⟩ (.nil _), ?_⟩
  have behind : ∀ ip : Word, 7 ≤ ip.toNat →
      Stops (loadedBytecode (fun _ => 0) (writeProgram low high)) ip := by
    intro ip past
    have zero : pointerAt (loadedBytecode (fun _ => 0) (writeProgram low high)) ip 0 = 0 := by
      rw [pointerAt, BitVec.add_zero, loadedBytecode, memcpy_eq_blit]
      exact blit_outside _ _ (.inr past)
    rw [Stops, zero]
    decide
  have length := writtenLength_toNat low high
  have size : strlen (literal ['b']) = 1 := rfl
  have bounds : low.toNat < 2 ^ 8 ∧ high.toNat < 2 ^ 8 := ⟨low.isLt, high.isLt⟩
  refine behind _ ?_
  have fits (data : Image) : (0 : Word).toNat +
      (BdxCall.writeFile (literal ['b']) data (writtenLength low high)).size < 2 ^ 32 := by
    simp only [BdxCall.size, size, length, show (0 : Word).toNat = 0 from rfl]
    omega
  rw [next_toNat (fits _)]
  simp only [BdxCall.size, size, length]
  omega

/-- Where the write is accepted the program makes it. -/
theorem Loads.executed (loads : Loads fs low high)
    (chosen : chooseStartSector fs.fileTable (fs.fileTable 9) (writtenLength low high) = some 2)
    (inStorage : dataPosition 2 + (writtenLength low high).toNat ≤ storageSize) :
    ∃ data fuel, executeBdx fuel (fun _ => 0) programName (kernelOf fs) =
      some (0, kernelOf (storedFile fs 9 2 data (writtenLength low high))) := by
  obtain ⟨data, stop, run, stops⟩ := writeProgram_flow low high
  obtain ⟨bound, interprets⟩ := @interpretBdx_of_run _ performCall _ _ _ _ run stops
  have written : bdfsWriteFile fs (literal ['b']) data (writtenLength low high) =
      some ((writtenLength low high).toInt, storedFile fs 9 2 data (writtenLength low high)) := by
    unfold bdfsWriteFile storeFile
    rw [loads.found]
    dsimp only
    rw [if_neg (not_not.mpr loads.isFile), chosen]
    dsimp only
    rw [if_pos inStorage, Option.map_some]
  have loadedKernel : bdfsReadFile (kernelOf fs).fileSystem programName =
      some (.ok (7, writeProgram low high)) := loads.program
  refine ⟨data, bound, ?_⟩
  rw [executeBdx_of_loaded loadedKernel (show 7 ≤ maxBytecodeSize by decide),
    interprets bound le_rfl, performAll, performCall]
  show (((bdfsWriteFile fs (literal ['b']) data (writtenLength low high)).map _).bind _).map _ = _
  rw [written]
  rfl

/-- A program that writes at most 1024 bytes makes short calls only. -/
theorem Loads.shortWrites (loads : Loads fs low high)
    (short : (writtenLength low high).toNat ≤ 1024) :
    ShortWrites (kernelOf fs) (.command (.execute programName fun _ => 0)) := by
  intro bytesRead program loaded calls stop run stops
  obtain ⟨_, rfl⟩ := Prod.mk.inj (Except.ok.inj (Option.some.inj
    (loaded.symm.trans loads.program)))
  obtain ⟨data, other, only, otherStops⟩ := writeProgram_flow low high
  obtain rfl := flow_unique run stops only otherStops
  exact ⟨fun _ => short, fun _ _ => trivial⟩

end Programs

/-- In a run whose programs make short writes only every file fits the buffers it
is read into, and a program's next write keeps the files short exactly when it
is refused or short. -/
theorem readers_safe {kernel : Kernel}
    (reachable : (shellSystem.guard ShortWrites).Reachable kernel) :
    ReadersSafe kernel.fileSystem ∧
      ∀ path data len done, performCall (.writeFile path data len) kernel = some done →
        (FilesShort done.fileSystem.fileTable ↔
          ShortCall kernel.fileSystem (.writeFile path data len)) := by
  have short : FilesShort kernel.fileSystem.fileTable := by
    refine reachable.invariant (fun kernel => FilesShort kernel.fileSystem.fileTable) ?_ ?_
    · exact fun _ initial => initial_filesShort initial
    · exact fun _ _ _ _ short step => step_filesShort short step.1 step.2
  refine ⟨short.readersSafe, fun path data len done performed => ?_⟩
  obtain ⟨⟨code, after⟩, written, rfl⟩ := Option.map_eq_some_iff.mp performed
  exact filesShort_write_iff short written

/-- `p.bdx` writes two bytes to `b`. -/
theorem readers_safe_executed : ∃ before after,
    (shellSystem.guard ShortWrites).Reachable before ∧
      (shellSystem.guard ShortWrites).Step before (.command (.execute programName fun _ => 0))
        after ∧
      (after.fileSystem.fileTable 9).length = 2 ∧ ReadersSafe after.fileSystem ∧
        ∀ path data len done, performCall (.writeFile path data len) after = some done →
          (FilesShort done.fileSystem.fileTable ↔
            ShortCall after.fileSystem (.writeFile path data len)) := by
  obtain ⟨fs, loads⟩ := loads_exists 0x02 0x00
  have chosen := @targetFileSystem_chosen (writtenLength 0x02 0x00) (by decide)
  rw [← loads.table] at chosen
  obtain ⟨data, fuel, executed⟩ := loads.executed chosen (by decide)
  have step : (shellSystem.guard ShortWrites).Step (kernelOf fs)
      (.command (.execute programName fun _ => 0))
      (kernelOf (storedFile fs 9 2 data (writtenLength 0x02 0x00))) :=
    ⟨loads.shortWrites (by decide), programName_fits _, fuel,
      Option.map_eq_some_iff.mpr ⟨_, executed, rfl⟩⟩
  refine ⟨_, _, loads.reachable, step, ?_, readers_safe (.step loads.reachable step)⟩
  show ((storedFile fs 9 2 data (writtenLength 0x02 0x00)).fileTable 9).length = 2
  rw [storedFile_entry]
  rfl

/-- The program writes 2000 bytes to `b`, past the end of what was loaded, and `cat b` then
reads them into its 1024. -/
theorem readers_overrun :
    ¬ ∀ kernel, shellSystem.Reachable kernel → ReadersSafe kernel.fileSystem := by
  intro always
  obtain ⟨fs, loads⟩ := loads_exists 0xD0 0x07
  have chosen := @targetFileSystem_chosen (writtenLength 0xD0 0x07) (by decide)
  rw [← loads.table] at chosen
  have inStorage : dataPosition 2 + (writtenLength 0xD0 0x07).toNat ≤ storageSize := by decide
  obtain ⟨data, fuel, executed⟩ := loads.executed chosen inStorage
  have after : shellSystem.Reachable
      (kernelOf (storedFile fs 9 2 data (writtenLength 0xD0 0x07))) :=
    @TransitionSystem.Reachable.step _ _ _ _ _ (.command (.execute programName fun _ => 0))
      loads.reachable.of_guard ⟨programName_fits _, fuel,
      Option.map_eq_some_iff.mpr ⟨_, executed, rfl⟩⟩
  have read := bdfsReadFile_storedFile data loads.found loads.isFile inStorage
  have fits := (always _ after _ _ _ read).1
  rw [slice_length] at fits
  exact absurd fits (by decide)

end BrainDance.Shell
