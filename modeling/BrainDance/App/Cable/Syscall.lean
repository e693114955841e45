import BrainDance.App.Cable.Model
import BrainDance.Exec.Flow
import BrainDance.Fs.Bdfs.Contents

/-!
Owns `syscall_write`: the bytecode it builds is the program of one write, so it
does what the call of `bdfs_write_file` that it stands for does.
-/

namespace BrainDance.App.Cable

open BrainDance.Foundation
open BrainDance.Libc
open BrainDance.Exec
open BrainDance.Fs.Bdfs

/-! ### The bytecode -/

section Bytecode

variable {stack bytecode buffer : Image} {path : CString} {len : Word}

theorem syscallBytecode_shows (built : syscallBytecode stack path buffer len = some bytecode) :
    ShowsBytes bytecode (encodeProgram [.write path (slice buffer 0 len.toNat)]) := by
  unfold syscallBytecode at built
  dsimp only at built
  split at built
  · obtain rfl := Option.some.inj built
    have opcode : ShowsBytes (Function.update stack 0 opcodeSyscallWrite) [opcodeSyscallWrite] :=
      @showsBytes_update stack [] rfl opcodeSyscallWrite
    have withPath := showsBytes_memcpy opcode path.image (strlen path + 1)
    have pathBytes : slice path.image 0 (strlen path + 1) = path.bytes ++ [0] := by
      have shows := holds_iff_showsBytes.mp path.holds_image
      rw [ShowsBytes, List.length_append] at shows
      exact shows
    rw [pathBytes] at withPath
    have withLen := showsBytes_memcpy withPath (wordImage len) 4
    have withData := showsBytes_memcpy withLen buffer len.toNat
    have withExit := showsBytes_update withData opcodeExit
    simp only [List.length_append, List.length_singleton, slice_length, memcpy_eq_blit]
      at withExit
    rw [encodeProgram, List.flatMap_singleton, Instruction.encode, slice_length,
      BitVec.ofNat_toNat, BitVec.setWidth_eq]
    rw [storeWord, memcpy_eq_blit, memcpy_eq_blit]
    simpa [strlen, Nat.add_assoc] using withExit
  · contradiction

/-- What `syscall_write` needs in the bytecode: opcode, path, NUL, length, data, exit. -/
def FitsBytecode (path : CString) (len : Word) : Prop :=
  strlen path + len.toNat + 7 ≤ bytecodeSize

theorem syscallBytecode_isSome_iff :
    (∃ bytecode, syscallBytecode stack path buffer len = some bytecode) ↔
      FitsBytecode path len := by
  unfold syscallBytecode FitsBytecode
  dsimp only
  split
  · exact ⟨fun _ => by omega, fun _ => ⟨_, rfl⟩⟩
  · constructor
    · rintro ⟨bytecode, built⟩
      contradiction
    · intro fits
      omega

theorem encodeWrite_length (path : CString) (buffer : Image) (len : Word) :
    (encodeProgram [.write path (slice buffer 0 len.toNat)]).length =
      strlen path + len.toNat + 7 := by
  simp only [encodeProgram, List.flatMap_singleton, Instruction.encode, List.length_append,
    List.length_cons, List.length_nil, slice_length, strlen]
  omega

end Bytecode

/-! ### Running it -/

/-- A write looks at no byte behind the ones it counts. -/
theorem performCall_congr {path : CString} {buffer other : Image} {len : Word}
    (same : ∀ offset < len.toNat, buffer offset = other offset) :
    performCall (.writeFile path buffer len) = performCall (.writeFile path other len) := by
  funext kernel
  rw [performCall, performCall, bdfsWriteFile_congr same]

theorem syscallWrite_of_fits {path : CString} {len : Word} (fits : FitsBytecode path len)
    {fuel : Nat} (enough : bytecodeSize ≤ fuel) (stack buffer : Image) (kernel : Kernel) :
    syscallWrite fuel stack path buffer len kernel =
      performCall (.writeFile path buffer len) kernel := by
  have ⟨bytecode, built⟩ : ∃ bytecode, syscallBytecode stack path buffer len = some bytecode :=
    syscallBytecode_isSome_iff.mpr fits
  have size := encodeWrite_length path buffer len
  have array : bytecodeSize = 1024 := rfl
  unfold FitsBytecode at fits
  obtain ⟨calls, makes, runs⟩ :=
    interpret_program (shows_start (by omega) (syscallBytecode_shows built))
  rw [syscallWrite, built, Option.bind_eq_bind, Option.bind_some,
    runs performCall fuel kernel (by omega)]
  obtain ⟨call, rest, write, none, rfl⟩ := List.forall₂_cons_left_iff.mp makes
  obtain rfl := List.forall₂_nil_left_iff.mp none
  cases write with
  | write _ shows =>
      rename_i memory
      have same : ∀ offset < len.toNat, memory offset = buffer offset := by
        intro offset inside
        rw [showsBytes_iff.mp shows offset (by rw [slice_length]; exact inside)]
        simp [slice]
      rw [performAll, slice_length, BitVec.ofNat_toNat, BitVec.setWidth_eq,
        performCall_congr same]
      cases performCall (.writeFile path buffer len) kernel <;> rfl

/-- A call that runs off its bytecode has no result. -/
theorem syscallWrite_of_not_fits {path : CString} {len : Word} (large : ¬ FitsBytecode path len)
    (fuel : Nat) (stack buffer : Image) (kernel : Kernel) :
    syscallWrite fuel stack path buffer len kernel = none := by
  rw [syscallWrite]
  cases built : syscallBytecode stack path buffer len with
  | none => rfl
  | some bytecode => exact absurd (syscallBytecode_isSome_iff.mp ⟨bytecode, built⟩) large

/-- A call that returns has made its one write. -/
theorem syscallWrite_eq_some {fuel : Nat} {stack buffer : Image} {path : CString} {len : Word}
    {kernel after : Kernel} (done : syscallWrite fuel stack path buffer len kernel = some after) :
    FitsBytecode path len ∧ performCall (.writeFile path buffer len) kernel = some after := by
  have fits : FitsBytecode path len := by
    by_contra large
    rw [syscallWrite_of_not_fits large] at done
    contradiction
  obtain ⟨bytecode, built, interpreted⟩ := Option.bind_eq_some_iff.mp done
  obtain ⟨more, enough, result⟩ := interpretBdx_of_more_fuel interpreted bytecodeSize
  rw [← syscallWrite_of_fits fits enough stack, syscallWrite, built]
  exact ⟨fits, result⟩

/-- The interpreter makes the calls of the program in front of whatever follows,
and `syscall_write` makes its one call. -/
theorem bdx_encoding_agrees :
    (∀ (program : List Instruction) (bytecode : Image),
      (encodeProgram program).length ≤ bytecodeSize →
        ShowsBytes bytecode (encodeProgram program) →
          ∃ calls, List.Forall₂ Instruction.Makes program calls ∧
            ∀ {State : Type} (perform : BdxCall → State → Option State) (fuel : Nat)
              (state : State), bytecodeSize ≤ fuel →
                interpretBdx perform bytecode fuel 0 state = performAll perform calls state) ∧
    ∀ (path : CString) (len : Word), FitsBytecode path len →
      ∀ (fuel : Nat) (stack buffer : Image) (kernel : Kernel), bytecodeSize ≤ fuel →
        syscallWrite fuel stack path buffer len kernel =
          (bdfsWriteFile kernel.fileSystem path buffer len).map fun result =>
            { kernel with fileSystem := result.2 } := by
  have array : bytecodeSize = 1024 := rfl
  constructor
  · intro program bytecode short shows
    obtain ⟨calls, makes, runs⟩ := interpret_program (shows_start (by omega) shows)
    exact ⟨calls, makes, fun perform fuel state enough => runs perform fuel state (by omega)⟩
  · exact fun path len fits fuel stack buffer kernel enough =>
      syscallWrite_of_fits fits enough stack buffer kernel

/-- A print and a write whose data looks like an exit and a terminator. -/
def mixedProgram : List Instruction :=
  [.print (literal ['h', 'i']), .write (literal ['m', 'i', 'x']) [0x04, 0x00]]

theorem bdx_encoding_agrees_mixed :
    (∃ calls, List.Forall₂ Instruction.Makes mixedProgram calls ∧
      ∀ {State : Type} (perform : BdxCall → State → Option State) (state : State),
        interpretBdx perform (fun offset => (encodeProgram mixedProgram).getD offset 0xFF) 1024 0
          state = performAll perform calls state) ∧
    ∀ kernel : Kernel,
      syscallWrite 1024 (fun _ => 0) (literal ['l', 'o', 'g']) (fun _ => 0x04) 2 kernel =
        (bdfsWriteFile kernel.fileSystem (literal ['l', 'o', 'g']) (fun _ => 0x04) 2).map
          fun result => { kernel with fileSystem := result.2 } := by
  obtain ⟨programs, syscalls⟩ := bdx_encoding_agrees
  obtain ⟨calls, makes, runs⟩ := programs mixedProgram
    (fun offset => (encodeProgram mixedProgram).getD offset 0xFF) (by decide)
    (by rw [ShowsBytes]; decide)
  refine ⟨⟨calls, makes, fun perform state => runs perform 1024 state le_rfl⟩, fun kernel => ?_⟩
  exact syscalls _ 2 (by rw [FitsBytecode]; decide) 1024 _ _ kernel le_rfl

end BrainDance.App.Cable
