import BrainDance.Exec.Flow
import BrainDance.Fs.Bdfs.Landing

/-!
Owns whether the interpreter stays inside the program that `execute_bdx` loaded.
It is given no length, so it does exactly when the file consists of whole
instructions with a byte behind them that is no opcode of an instruction.
-/

namespace BrainDance.Exec

open BrainDance.Foundation
open BrainDance.Libc
open BrainDance.Fs.Bdfs

/-- Every byte that the round at `ip` reads or hands to its call is below `bound`. -/
def ReadsBelow (bytecode : Image) (bound : Nat) (ip : Word) : Prop :=
  ip.toNat < bound ∧
    (Stops bytecode ip ∨ ∃ call, InstructionAt bytecode ip call ∧ ip.toNat + call.size ≤ bound)

/-- Whole instructions, and then a byte that ends the loop. -/
def CompleteProgram (bytes : List Byte) : Prop :=
  ∃ (program : List Instruction) (opcode : Byte) (rest : List Byte),
    bytes = program.flatMap Instruction.encode ++ opcode :: rest ∧
    opcode ≠ opcodeSyscallPrint ∧ opcode ≠ opcodeSyscallWrite

/-! ### Instructions and their bytes -/

section Bytes

variable {bytecode : Image} {ip : Word}

/-- An encoded instruction is the one that the loop executes. -/
theorem instructionAt_of_shows {instruction : Instruction} {rest : List Byte}
    (shows : ShowsBytes (pointerAt bytecode ip) (instruction.encode ++ rest))
    (short : instruction.encode.length < 2 ^ 32) :
    ∃ call, InstructionAt bytecode ip call ∧ call.size = instruction.encode.length := by
  cases instruction with
  | print text =>
      obtain ⟨opcode, operands⟩ := shows_opcode shows
      refine ⟨_, .print opcode (holds_iff_showsBytes.mpr (showsBytes_append.mp operands).1), ?_⟩
      simp [BdxCall.size, Instruction.encode, strlen]
  | write path data =>
      simp only [Instruction.encode, List.length_cons, List.length_append] at short
      rw [Instruction.encode, List.cons_append, List.append_assoc] at shows
      obtain ⟨opcode, operands⟩ := shows_opcode shows
      have behindPath := (shows_string operands).2
      rw [List.append_assoc] at behindPath
      have length := (shows_word behindPath).1
      refine ⟨_, .write opcode (holds_iff_showsBytes.mpr (showsBytes_append.mp operands).1), ?_⟩
      rw [lengthAt, BdxCall.size, length, BitVec.toNat_ofNat, Nat.mod_eq_of_lt (by omega)]
      simp only [Instruction.encode, strlen, List.length_cons, List.length_append, slice_length,
        List.length_nil]
      omega

/-- Bytes at `ip` and bytes behind them stand together. -/
theorem shows_append {left right : List Byte} (first : ShowsBytes (pointerAt bytecode ip) left)
    (behind : ShowsBytes (pointerAt bytecode (ip + BitVec.ofNat 32 left.length)) right) :
    ShowsBytes (pointerAt bytecode ip) (left ++ right) := by
  rw [pointerAt_add] at behind
  exact showsBytes_append.mpr ⟨first, behind⟩

theorem shows_singleton {opcode : Byte} (here : pointerAt bytecode ip 0 = opcode) :
    ShowsBytes (pointerAt bytecode ip) [opcode] := by
  rw [ShowsBytes, List.length_singleton]
  exact congrArg (fun byte => [byte]) here

/-- A string with its NUL behind an opcode. -/
theorem shows_operand {opcode : Byte} {string : CString} (here : pointerAt bytecode ip 0 = opcode)
    (operand : Holds (pointerAt bytecode (ip + 1)) string) :
    ShowsBytes (pointerAt bytecode ip) (opcode :: (string.bytes ++ [0])) :=
  shows_append (shows_singleton here) (holds_iff_showsBytes.mp operand)

theorem lengthAt_eq (ip : Word) (opcode : Byte) (path : CString) :
    lengthAt ip path = ip + BitVec.ofNat 32 (opcode :: (path.bytes ++ [0])).length := by
  rw [List.length_cons, List.length_append, List.length_singleton]
  exact (next_print ip path).symm

/-- The loop executes encoded instructions only. -/
theorem InstructionAt.shows {call : BdxCall} (instruction : InstructionAt bytecode ip call) :
    ∃ encoded : Instruction, ShowsBytes (pointerAt bytecode ip) encoded.encode ∧
      encoded.encode.length = call.size := by
  cases instruction with
  | @print str opcode operand =>
      exact ⟨.print str, shows_operand opcode operand,
        by simp [BdxCall.size, Instruction.encode, strlen]⟩
  | @write path opcode operand =>
      refine ⟨.write path (slice (pointerAt bytecode (lengthAt ip path + 4)) 0
        (wordAt (pointerAt bytecode (lengthAt ip path)) 0).toNat), ?_, ?_⟩
      · rw [Instruction.encode, slice_length, BitVec.ofNat_toNat, BitVec.setWidth_eq]
        refine shows_append (shows_operand opcode operand) ?_
        rw [← lengthAt_eq ip opcodeSyscallWrite path]
        refine shows_append (shows_wordAt _) ?_
        rw [slice_length]
        exact showsBytes_slice _ _
      · simp only [BdxCall.size, Instruction.encode, strlen, List.length_cons,
          List.length_append, slice_length, List.length_nil]
        omega

end Bytes

/-! ### The loop and the file -/

section Files

variable {bytecode : Image} {bytes : List Byte}

/-- A loop that stays inside the bytes finds whole instructions and an end. -/
theorem completeProgram_of_readsBelow (short : bytes.length < 2 ^ 32)
    (inside : ∀ ip, (flow bytecode).Reachable ip → ReadsBelow bytecode bytes.length ip)
    {ip : Word} (reachable : (flow bytecode).Reachable ip)
    (shows : ShowsBytes (pointerAt bytecode ip) (bytes.drop ip.toNat)) :
    CompleteProgram (bytes.drop ip.toNat) := by
  generalize left : bytes.length - ip.toNat = remaining
  induction remaining using Nat.strong_induction_on generalizing ip with
  | _ remaining inductionHypothesis =>
      obtain ⟨below, stops | ⟨call, instruction, fits⟩⟩ := inside ip reachable
      · rw [List.drop_eq_getElem_cons below] at shows ⊢
        have opcode := (shows_opcode shows).1
        refine ⟨[], _, _, rfl, ?_, ?_⟩
        · rw [← opcode]
          exact stops.1
        · rw [← opcode]
          exact stops.2
      · obtain ⟨encoded, encodedShows, size⟩ := instruction.shows
        have positive := encoded.encode_pos
        have next := @next_toNat ip call (by omega)
        have split := encodedShows.eq_append shows (by rw [List.length_drop]; omega)
        rw [size, List.drop_drop, ← next] at split
        have behind : ShowsBytes (pointerAt bytecode (call.next ip))
            (bytes.drop (call.next ip).toNat) := by
          rw [split] at shows
          have rest := shows_behind shows
          rw [size] at rest
          exact rest
        obtain ⟨program, opcode, rest, complete, ends⟩ := inductionHypothesis _ (by omega)
          (.step reachable ⟨instruction, rfl⟩) behind rfl
        refine ⟨encoded :: program, opcode, rest, ?_, ends⟩
        rw [split, complete, List.flatMap_cons, List.append_assoc]

/-- From `ip` to the end of `size` bytes stand whole instructions and then `tail`. -/
def InstructionsAhead (bytecode : Image) (size : Nat) (tail : List Byte) (ip : Word) : Prop :=
  ∃ program : List Instruction,
    ip.toNat + (program.flatMap Instruction.encode ++ tail).length = size ∧
      ShowsBytes (pointerAt bytecode ip) (program.flatMap Instruction.encode ++ tail)

/-- The loop takes the instructions one by one, up to the tail's opcode. -/
theorem instructionsAhead_reachable {size : Nat} {opcode : Byte} {rest : List Byte}
    (short : size < 2 ^ 32) (notPrint : opcode ≠ opcodeSyscallPrint)
    (notWrite : opcode ≠ opcodeSyscallWrite)
    (start : InstructionsAhead bytecode size (opcode :: rest) 0) {ip : Word}
    (reachable : (flow bytecode).Reachable ip) :
    InstructionsAhead bytecode size (opcode :: rest) ip := by
  refine reachable.invariant _ ?_ ?_
  · rintro _ rfl
    exact start
  · rintro before call after _ ⟨program, total, here⟩ ⟨instruction, rfl⟩
    cases program with
    | nil =>
        have byte := (shows_opcode here).1
        exact absurd ⟨byte ▸ notPrint, byte ▸ notWrite⟩ instruction.not_stops
    | cons encoded program =>
        rw [List.flatMap_cons, List.append_assoc] at here total
        rw [List.length_append] at total
        obtain ⟨other, found, taken⟩ := instructionAt_of_shows here (by omega)
        rw [found.unique instruction] at taken
        have next := @next_toNat before call (by omega)
        refine ⟨program, by omega, ?_⟩
        rw [BdxCall.next, taken]
        exact shows_behind here

/-- The loop over whole instructions and an end stays inside them. -/
theorem readsBelow_of_completeProgram (short : bytes.length < 2 ^ 32)
    (shows : ShowsBytes (pointerAt bytecode 0) bytes) (complete : CompleteProgram bytes)
    {ip : Word} (reachable : (flow bytecode).Reachable ip) :
    ReadsBelow bytecode bytes.length ip := by
  obtain ⟨program, opcode, rest, rfl, notPrint, notWrite⟩ := complete
  obtain ⟨ahead, total, here⟩ := instructionsAhead_reachable short notPrint notWrite
    ⟨program, Nat.zero_add _, shows⟩ reachable
  cases ahead with
  | nil =>
      rw [List.flatMap_nil, List.nil_append, List.length_cons] at total
      have byte := (shows_opcode here).1
      exact ⟨by omega, .inl ⟨byte ▸ notPrint, byte ▸ notWrite⟩⟩
  | cons encoded ahead =>
      rw [List.flatMap_cons, List.append_assoc] at here total
      rw [List.length_append] at total
      have positive := encoded.encode_pos
      obtain ⟨call, instruction, taken⟩ := instructionAt_of_shows here (by omega)
      exact ⟨by omega, .inr ⟨call, instruction, by omega⟩⟩

theorem loadedBytecode_shows (stack : Image) (bytes : List Byte) :
    ShowsBytes (loadedBytecode stack bytes) bytes := by
  refine showsBytes_iff.mpr fun offset inside => ?_
  rw [loadedBytecode, memcpy_eq_blit, blit_inside _ _ (by omega)]
  simp [inside]

/-- A file that is read and fits the array is interpreted. -/
theorem executeBdx_of_loaded {kernel : Kernel} {path : CString} {bytesRead : Word}
    {program : List Byte}
    (loaded : bdfsReadFile kernel.fileSystem path = some (.ok (bytesRead, program)))
    (fits : program.length ≤ maxBytecodeSize) (fuel : Nat) (stack : Image) :
    executeBdx fuel stack path kernel =
      (interpretBdx performCall (loadedBytecode stack program) fuel 0 kernel).map fun after =>
        (0, after) := by
  rw [executeBdx, loaded]
  dsimp only
  rw [if_pos fits]

/-- `execute_bdx` interprets only the bytes it loaded exactly when they are whole
instructions followed by a byte that ends the loop. -/
theorem readsLoaded_iff {fs : FileSystem} {path : CString} {bytesRead : Word}
    {program : List Byte} (loaded : bdfsReadFile fs path = some (.ok (bytesRead, program)))
    (fits : program.length ≤ maxBytecodeSize) (stack : Image) :
    (∀ ip, (flow (loadedBytecode stack program)).Reachable ip →
        ReadsBelow (loadedBytecode stack program) bytesRead.toNat ip) ↔
      CompleteProgram program := by
  have size : maxBytecodeSize = 1024 := rfl
  have short : program.length < 2 ^ 32 := by omega
  have shows := shows_start short.le (loadedBytecode_shows stack program)
  rw [← bdfsReadFile_length loaded]
  constructor
  · intro inside
    exact completeProgram_of_readsBelow short inside (.init rfl) shows
  · intro complete ip reachable
    exact readsBelow_of_completeProgram short shows complete reachable

end Files

/-! ### Two programs -/

/-- A print, a write of one byte, and the exit. -/
def storedProgram : List Byte :=
  encodeProgram [.print (message "a"), .write (message "b") [7]]

/-- The program is put into the file `p`, where it reads back. -/
theorem storedProgram_loaded :
    ∃ fs, bdfsReadFile fs (literal ['p']) =
      some (.ok (BitVec.ofNat 32 storedProgram.length, storedProgram)) := by
  have size : storedProgram.length = 12 := by decide +kernel
  have lands : Lands notesFileSystem (literal ['p']) storedProgram :=
    notesFileSystem_lands (by omega)
  have shows : ShowsBytes (fun offset => storedProgram.getD offset 0) storedProgram := by
    rw [ShowsBytes]
    decide +kernel
  obtain ⟨_, after, _, back⟩ := (readsBack_iff shows (by omega)).mpr lands
  exact ⟨after, back⟩

/-- Its two calls are made from the twelve bytes of the file, whatever the stack held. -/
theorem readsLoaded_iff_storedProgram : ∃ fs,
    bdfsReadFile fs (literal ['p']) =
      some (.ok (BitVec.ofNat 32 storedProgram.length, storedProgram)) ∧
    ∀ stack ip, (flow (loadedBytecode stack storedProgram)).Reachable ip →
      ReadsBelow (loadedBytecode stack storedProgram)
        (BitVec.ofNat 32 storedProgram.length).toNat ip := by
  obtain ⟨fs, loaded⟩ := storedProgram_loaded
  have fits : storedProgram.length ≤ maxBytecodeSize := by decide +kernel
  have complete : CompleteProgram storedProgram :=
    ⟨_, opcodeExit, [], rfl, by decide, by decide⟩
  exact ⟨fs, loaded, fun stack => (readsLoaded_iff loaded fits stack).mpr complete⟩

theorem logFileSystem_empty :
    bdfsReadFile logFileSystem (literal ['l', 'o', 'g']) = some (.ok (0, [])) := by
  have empty : (logFileSystem.fileTable 8).length = 0 := by decide +kernel
  unfold bdfsReadFile
  rw [logFileSystem_found.1]
  dsimp only
  rw [if_neg (not_not.mpr logFileSystem_found.2), empty]
  rfl

/-- Of an empty file the interpreter executes what the stack held before. -/
theorem readsLoaded_fails :
    ¬ ∀ (fs : FileSystem) (path : CString) (bytesRead : Word) (program : List Byte),
      bdfsReadFile fs path = some (.ok (bytesRead, program)) →
        program.length ≤ maxBytecodeSize → ∀ stack ip,
          (flow (loadedBytecode stack program)).Reachable ip →
            ReadsBelow (loadedBytecode stack program) bytesRead.toNat ip := by
  intro always
  have below := (always _ _ _ _ logFileSystem_empty (Nat.zero_le _) (fun _ => 0) 0 (.init rfl)).1
  exact absurd below (by decide)

end BrainDance.Exec
