import BrainDance.Exec.Model

/-!
Owns programs as they are laid out in bytecode, and that the interpreter reads
them back: it makes the calls of the program, in order, and returns. What the
program says is compared with what a call is given through `Instruction.Makes`:
of the memory behind the `data` pointer only the bytes counted by `len` matter.
-/

namespace BrainDance.Exec

open BrainDance.Foundation
open BrainDance.Libc

/-! ### Programs -/

inductive Instruction where
  | print (text : CString)
  | write (path : CString) (data : List Byte)

/-- The opcode and the operands, in the layout that `syscall_write` uses. -/
def Instruction.encode : Instruction → List Byte
  | .print text => opcodeSyscallPrint :: (text.bytes ++ [0])
  | .write path data =>
      opcodeSyscallWrite :: (path.bytes ++ [0] ++
        (slice (wordImage (BitVec.ofNat 32 data.length)) 0 4 ++ data))

def encodeProgram (program : List Instruction) : List Byte :=
  program.flatMap Instruction.encode ++ [opcodeExit]

theorem Instruction.encode_pos (instruction : Instruction) : 0 < instruction.encode.length := by
  cases instruction <;> exact Nat.succ_pos _

theorem encodeProgram_pos (program : List Instruction) : 0 < (encodeProgram program).length := by
  rw [encodeProgram, List.length_append]
  exact Nat.succ_pos _

/-- The call is the instruction's. -/
inductive Instruction.Makes : Instruction → BdxCall → Prop where
  | print (text : CString) : Makes (.print text) (.print text)
  | write (path : CString) {data : List Byte} {memory : Image} (shows : ShowsBytes memory data) :
      Makes (.write path data) (.writeFile path memory (BitVec.ofNat 32 data.length))

/-- The calls, one after the other. -/
def performAll {State : Type} (perform : BdxCall → State → Option State) :
    List BdxCall → State → Option State
  | [], state => some state
  | call :: rest, state => (perform call state).bind (performAll perform rest)

/-! ### Reading -/

section Reading

variable {bytecode : Image} {ip : Word}

theorem pointerAt_add (bytecode : Image) (ip : Word) (count : Nat) :
    pointerAt bytecode (ip + BitVec.ofNat 32 count) = fun offset =>
      pointerAt bytecode ip (count + offset) := by
  funext offset
  rw [pointerAt, pointerAt, BitVec.ofNat_add, BitVec.add_assoc]

/-- The bytes behind the first ones are read from the `ip` behind them. -/
theorem shows_behind {left right : List Byte}
    (shows : ShowsBytes (pointerAt bytecode ip) (left ++ right)) :
    ShowsBytes (pointerAt bytecode (ip + BitVec.ofNat 32 left.length)) right := by
  rw [pointerAt_add]
  exact (showsBytes_append.mp shows).2

/-- What the buffer starts with is read from `ip` 0. -/
theorem shows_start {bytes : List Byte} (short : bytes.length ≤ 2 ^ 32)
    (shows : ShowsBytes bytecode bytes) : ShowsBytes (pointerAt bytecode 0) bytes := by
  refine showsBytes_iff.mpr fun offset inside => ?_
  have address : (0 + BitVec.ofNat 32 offset : Word).toNat = offset := by
    rw [BitVec.toNat_add, BitVec.toNat_ofNat, show (0 : Word).toNat = 0 from rfl]
    omega
  rw [pointerAt, address, showsBytes_iff.mp shows offset inside]

theorem shows_opcode {opcode : Byte} {rest : List Byte}
    (shows : ShowsBytes (pointerAt bytecode ip) (opcode :: rest)) :
    pointerAt bytecode ip 0 = opcode ∧ ShowsBytes (pointerAt bytecode (ip + 1)) rest :=
  ⟨showsBytes_iff.mp shows 0 (Nat.succ_pos _), @shows_behind bytecode ip [opcode] rest shows⟩

/-- A string operand is found, and the next operand is behind its NUL. -/
theorem shows_string {string : CString} {rest : List Byte}
    (shows : ShowsBytes (pointerAt bytecode ip) (string.bytes ++ [0] ++ rest)) :
    (∀ fuel, string.bytes.length < fuel →
      scanString (pointerAt bytecode ip) fuel 0 = some string) ∧
      ShowsBytes (pointerAt bytecode (ip + (BitVec.ofNat 32 (strlen string) + 1))) rest := by
  constructor
  · intro fuel enough
    refine scanString_of_shown (fun offset inString => ?_) enough
    rw [Nat.zero_add]
    exact holds_iff_showsBytes.mpr (showsBytes_append.mp shows).1 offset inString
  · have behind := shows_behind shows
    rw [List.length_append, List.length_singleton, BitVec.ofNat_add] at behind
    exact behind

theorem shows_word {word : Word} {rest : List Byte}
    (shows : ShowsBytes (pointerAt bytecode ip) (slice (wordImage word) 0 4 ++ rest)) :
    wordAt (pointerAt bytecode ip) 0 = word ∧
      ShowsBytes (pointerAt bytecode (ip + 4)) rest := by
  constructor
  · refine wordAt_of_image fun offset inWord => ?_
    have byte := showsBytes_iff.mp (showsBytes_append.mp shows).1 offset
      (by rw [slice_length]; exact inWord)
    rw [Nat.zero_add, byte]
    simp [slice]
  · have behind := shows_behind shows
    rw [slice_length] at behind
    exact behind

/-! ### One instruction -/

/-- The instruction at `ip` makes its call, and the rest is behind it. -/
theorem interpret_instruction {instruction : Instruction} {rest : List Byte}
    (shows : ShowsBytes (pointerAt bytecode ip) (instruction.encode ++ rest)) :
    ∃ call next, instruction.Makes call ∧ ShowsBytes (pointerAt bytecode next) rest ∧
      ∀ {State : Type} (perform : BdxCall → State → Option State) (fuel : Nat) (state : State),
        instruction.encode.length ≤ fuel →
          interpretBdx perform bytecode (fuel + 1) ip state =
            (perform call state).bind (interpretBdx perform bytecode fuel next) := by
  cases instruction with
  | print text =>
      obtain ⟨opcode, operands⟩ := shows_opcode shows
      obtain ⟨found, behind⟩ := shows_string operands
      refine ⟨_, _, .print text, behind, fun perform fuel state enough => ?_⟩
      simp only [Instruction.encode, List.length_cons, List.length_append] at enough
      rw [interpretBdx, opcode]
      dsimp only
      rw [if_pos rfl, found fuel (by omega)]
      rfl
  | write path data =>
      rw [Instruction.encode, List.cons_append, List.append_assoc] at shows
      obtain ⟨opcode, operands⟩ := shows_opcode shows
      obtain ⟨found, behindPath⟩ := shows_string operands
      rw [List.append_assoc] at behindPath
      obtain ⟨length, behindLength⟩ := shows_word behindPath
      have data := (showsBytes_append.mp behindLength).1
      have behind := shows_behind behindLength
      refine ⟨_, _, .write path data, behind, fun perform fuel state enough => ?_⟩
      simp only [Instruction.encode, List.length_cons, List.length_append] at enough
      rw [interpretBdx, opcode]
      dsimp only
      rw [if_neg (by decide), if_pos rfl, found fuel (by omega)]
      simp only [Option.bind_eq_bind, Option.bind_some, length]

end Reading

/-! ### Programs -/

/-- A program in memory makes its calls and returns. -/
theorem interpret_program {bytecode : Image} {program : List Instruction} {ip : Word}
    (shows : ShowsBytes (pointerAt bytecode ip) (encodeProgram program)) :
    ∃ calls, List.Forall₂ Instruction.Makes program calls ∧
      ∀ {State : Type} (perform : BdxCall → State → Option State) (fuel : Nat) (state : State),
        (encodeProgram program).length ≤ fuel →
          interpretBdx perform bytecode fuel ip state = performAll perform calls state := by
  induction program generalizing ip with
  | nil =>
      refine ⟨[], .nil, fun perform fuel state enough => ?_⟩
      obtain ⟨fuel, rfl⟩ := Nat.exists_eq_succ_of_ne_zero (Nat.ne_of_gt enough)
      rw [interpretBdx, (shows_opcode shows).1]
      rfl
  | cons instruction program inductionHypothesis =>
      rw [encodeProgram, List.flatMap_cons, List.append_assoc] at shows
      obtain ⟨call, next, makes, behind, first⟩ := interpret_instruction shows
      obtain ⟨calls, makesRest, rest⟩ := inductionHypothesis behind
      refine ⟨call :: calls, .cons makes makesRest, fun perform fuel state enough => ?_⟩
      have total : (encodeProgram (instruction :: program)).length =
          instruction.encode.length + (encodeProgram program).length := by
        rw [encodeProgram, List.flatMap_cons, List.append_assoc, List.length_append]
        rfl
      have opcode := instruction.encode_pos
      have exit := encodeProgram_pos program
      obtain ⟨fuel, rfl⟩ := Nat.exists_eq_succ_of_ne_zero (show fuel ≠ 0 by omega)
      rw [first perform fuel state (by omega), performAll]
      congr 1
      funext after
      exact rest perform fuel after (by omega)

end BrainDance.Exec
