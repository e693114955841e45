import BrainDance.Foundation.Transition
import BrainDance.Exec.Encoding

/-!
Owns the control flow of `interpret_bdx`: the instruction at an offset and the
offset behind it. No call has a say in it, so the interpreter's result is that
of the calls along the flow, made one after the other, and it has one exactly
when the flow comes to an opcode that ends the loop.
-/

namespace BrainDance.Exec

open BrainDance.Foundation
open BrainDance.Libc

/-! ### Instructions in memory -/

/-- The bytes that the instruction takes up: opcode, operands and data. -/
def BdxCall.size : BdxCall → Nat
  | .print str => strlen str + 2
  | .writeFile path _ len => strlen path + 6 + len.toNat

/-- `ip` behind the instruction. -/
def BdxCall.next (ip : Word) (call : BdxCall) : Word := ip + BitVec.ofNat 32 call.size

/-- The opcode at `ip` ends the loop: it is `OPCODE_EXIT` or unknown. -/
def Stops (bytecode : Image) (ip : Word) : Prop :=
  pointerAt bytecode ip 0 ≠ opcodeSyscallPrint ∧ pointerAt bytecode ip 0 ≠ opcodeSyscallWrite

instance (bytecode : Image) (ip : Word) : Decidable (Stops bytecode ip) :=
  inferInstanceAs (Decidable (_ ∧ _))

/-- The offset of the `len` field of a write at `ip`. -/
def lengthAt (ip : Word) (path : CString) : Word := ip + 1 + (BitVec.ofNat 32 (strlen path) + 1)

/-- The instruction at `ip` makes the call. -/
inductive InstructionAt (bytecode : Image) (ip : Word) : BdxCall → Prop where
  | print {str : CString} (opcode : pointerAt bytecode ip 0 = opcodeSyscallPrint)
      (operand : Holds (pointerAt bytecode (ip + 1)) str) : InstructionAt bytecode ip (.print str)
  | write {path : CString} (opcode : pointerAt bytecode ip 0 = opcodeSyscallWrite)
      (operand : Holds (pointerAt bytecode (ip + 1)) path) :
      InstructionAt bytecode ip (.writeFile path (pointerAt bytecode (lengthAt ip path + 4))
        (wordAt (pointerAt bytecode (lengthAt ip path)) 0))

/-- The loop's `ip`, from instruction to instruction. -/
def flow (bytecode : Image) : TransitionSystem Word BdxCall where
  Init ip := ip = 0
  Step before call after := InstructionAt bytecode before call ∧ after = call.next before

section Instructions

variable {bytecode : Image} {ip : Word} {call other : BdxCall}

theorem InstructionAt.unique (left : InstructionAt bytecode ip call)
    (right : InstructionAt bytecode ip other) : call = other := by
  cases left with
  | print opcode operand =>
      cases right with
      | print _ operand' => rw [operand.unique operand']
      | write opcode' _ => exact absurd (opcode.symm.trans opcode') (by decide)
  | write opcode operand =>
      cases right with
      | print opcode' _ => exact absurd (opcode.symm.trans opcode') (by decide)
      | write _ operand' => rw [operand.unique operand']

theorem InstructionAt.not_stops (instruction : InstructionAt bytecode ip call) :
    ¬ Stops bytecode ip := by
  cases instruction with
  | print opcode _ => exact fun stops => stops.1 opcode
  | write opcode _ => exact fun stops => stops.2 opcode

theorem next_print (ip : Word) (str : CString) :
    (BdxCall.print str).next ip = ip + 1 + (BitVec.ofNat 32 (strlen str) + 1) := by
  rw [BdxCall.next, BdxCall.size, BitVec.ofNat_add,
    show BitVec.ofNat 32 2 = (1 : Word) + 1 from rfl,
    BitVec.add_comm (BitVec.ofNat 32 (strlen str)), BitVec.add_assoc 1, ← BitVec.add_assoc,
    BitVec.add_comm 1 (BitVec.ofNat 32 (strlen str))]

theorem next_write (ip : Word) (path : CString) (data : Image) (len : Word) :
    (BdxCall.writeFile path data len).next ip = lengthAt ip path + 4 + len := by
  rw [BdxCall.next, BdxCall.size, lengthAt]
  apply BitVec.eq_of_toNat_eq
  simp only [BitVec.toNat_add, BitVec.toNat_ofNat, show (1 : Word).toNat = 1 from rfl,
    show (4 : Word).toNat = 4 from rfl]
  omega

theorem next_toNat (fits : ip.toNat + call.size < 2 ^ 32) :
    (call.next ip).toNat = ip.toNat + call.size := by
  rw [BdxCall.next, BitVec.toNat_add, BitVec.toNat_ofNat, Nat.add_mod_mod, Nat.mod_eq_of_lt fits]

/-- At a stop the interpreter returns. -/
theorem interpretBdx_of_stops {State : Type} {perform : BdxCall → State → Option State}
    (stops : Stops bytecode ip) (fuel : Nat) (state : State) :
    interpretBdx perform bytecode (fuel + 1) ip state = some state := by
  rw [interpretBdx]
  dsimp only
  rw [if_neg stops.1, if_neg stops.2]

/-- At an instruction it makes the call and goes on behind the instruction. -/
theorem interpretBdx_of_instruction {State : Type} {perform : BdxCall → State → Option State}
    (instruction : InstructionAt bytecode ip call) {fuel : Nat} (enough : call.size ≤ fuel)
    (state : State) :
    interpretBdx perform bytecode (fuel + 1) ip state =
      (perform call state).bind (interpretBdx perform bytecode fuel (call.next ip)) := by
  have scanned : ∀ {string : CString}, Holds (pointerAt bytecode (ip + 1)) string →
      strlen string < fuel → scanString (pointerAt bytecode (ip + 1)) fuel 0 = some string := by
    intro string holds shorter
    refine scanString_of_shown (fun offset inString => ?_) shorter
    rw [Nat.zero_add]
    exact holds offset inString
  cases instruction with
  | print opcode operand =>
      simp only [BdxCall.size] at enough
      rw [interpretBdx, next_print]
      dsimp only
      rw [if_pos opcode, scanned operand (by omega)]
      rfl
  | write opcode operand =>
      simp only [BdxCall.size] at enough
      rw [interpretBdx, next_write]
      dsimp only
      rw [if_neg (by rw [opcode]; decide), if_pos opcode, scanned operand (by omega)]
      rfl

/-- Any result comes from a stop, or from an instruction and what follows it. -/
theorem interpretBdx_cases {State : Type} {perform : BdxCall → State → Option State} {fuel : Nat}
    {state final : State} (done : interpretBdx perform bytecode fuel ip state = some final) :
    (Stops bytecode ip ∧ final = state) ∨
      ∃ fuel' call middle, fuel = fuel' + 1 ∧ InstructionAt bytecode ip call ∧
        perform call state = some middle ∧
          interpretBdx perform bytecode fuel' (call.next ip) middle = some final := by
  cases fuel with
  | zero => contradiction
  | succ fuel =>
      have holds : ∀ {string : CString},
          scanString (pointerAt bytecode (ip + 1)) fuel 0 = some string →
            Holds (pointerAt bytecode (ip + 1)) string := by
        intro string scanned offset inString
        have shown := scanString_shown scanned offset inString
        rwa [Nat.zero_add] at shown
      rw [interpretBdx] at done
      dsimp only at done
      split at done
      · rename_i opcode
        obtain ⟨str, scanned, rest⟩ := Option.bind_eq_some_iff.mp done
        obtain ⟨middle, performed, rest⟩ := Option.bind_eq_some_iff.mp rest
        refine .inr ⟨fuel, .print str, middle, rfl, .print opcode (holds scanned), performed, ?_⟩
        rw [next_print]
        exact rest
      · rename_i notPrint
        split at done
        · rename_i opcode
          obtain ⟨path, scanned, rest⟩ := Option.bind_eq_some_iff.mp done
          obtain ⟨middle, performed, rest⟩ := Option.bind_eq_some_iff.mp rest
          refine .inr ⟨fuel, _, middle, rfl, .write opcode (holds scanned), performed, ?_⟩
          rw [next_write]
          exact rest
        · rename_i notWrite
          exact .inl ⟨⟨notPrint, notWrite⟩, (Option.some.inj done).symm⟩

end Instructions

/-! ### Runs -/

section Runs

variable {State : Type} {perform : BdxCall → State → Option State} {bytecode : Image}
  {ip : Word} {state final : State}

/-- The calls on the way to the stop are determined. -/
theorem flow_unique {calls others : List BdxCall} {stop other : Word}
    (run : (flow bytecode).Run ip calls stop) (stops : Stops bytecode stop)
    (otherRun : (flow bytecode).Run ip others other) (otherStops : Stops bytecode other) :
    calls = others := by
  induction run generalizing others with
  | nil ip =>
      cases otherRun with
      | nil => rfl
      | cons step _ => exact absurd stops step.1.not_stops
  | cons step _ inductionHypothesis =>
      obtain ⟨instruction, rfl⟩ := step
      cases otherRun with
      | nil => exact absurd otherStops instruction.not_stops
      | cons otherStep rest =>
          obtain ⟨otherInstruction, rfl⟩ := otherStep
          obtain rfl := instruction.unique otherInstruction
          rw [inductionHypothesis stops rest]

/-- Along a run to a stop the interpreter makes the run's calls, given enough fuel. -/
theorem interpretBdx_of_run {calls : List BdxCall} {stop : Word}
    (run : (flow bytecode).Run ip calls stop) (stops : Stops bytecode stop) :
    ∃ bound, ∀ fuel ≥ bound, ∀ state,
      interpretBdx perform bytecode fuel ip state = performAll perform calls state := by
  induction run with
  | nil ip =>
      refine ⟨1, fun fuel enough state => ?_⟩
      obtain ⟨fuel, rfl⟩ := Nat.exists_eq_succ_of_ne_zero (Nat.ne_of_gt enough)
      exact interpretBdx_of_stops stops fuel state
  | @cons before middle after call rest step _ inductionHypothesis =>
      obtain ⟨instruction, rfl⟩ := step
      obtain ⟨bound, reaches⟩ := inductionHypothesis stops
      refine ⟨max bound call.size + 1, fun fuel enough state => ?_⟩
      obtain ⟨fuel, rfl⟩ := Nat.exists_eq_succ_of_ne_zero (Nat.ne_of_gt (Nat.zero_lt_of_lt enough))
      have behind := Nat.le_of_succ_le_succ enough
      rw [interpretBdx_of_instruction instruction (by omega), performAll]
      congr 1
      funext middle
      exact reaches fuel (by omega) middle

/-- The interpreter has a result exactly when the flow runs to a stop and the calls
on the way have one. -/
theorem interpretBdx_eq_some_iff :
    (∃ fuel, interpretBdx perform bytecode fuel ip state = some final) ↔
      ∃ calls stop, (flow bytecode).Run ip calls stop ∧ Stops bytecode stop ∧
        performAll perform calls state = some final := by
  constructor
  · rintro ⟨fuel, done⟩
    induction fuel generalizing ip state with
    | zero => contradiction
    | succ fuel inductionHypothesis =>
        rcases interpretBdx_cases done with
          ⟨stops, rfl⟩ | ⟨_, call, middle, same, instruction, performed, rest⟩
        · exact ⟨[], ip, .nil ip, stops, rfl⟩
        · obtain rfl := Nat.succ.inj same
          obtain ⟨calls, stop, run, stops, all⟩ := inductionHypothesis rest
          refine ⟨call :: calls, stop, .cons ⟨instruction, rfl⟩ run, stops, ?_⟩
          rw [performAll, performed]
          exact all
  · rintro ⟨calls, stop, run, stops, all⟩
    obtain ⟨bound, reaches⟩ := @interpretBdx_of_run _ perform _ _ _ _ run stops
    exact ⟨bound, (reaches bound le_rfl state).trans all⟩

/-- More fuel leads to the same result. -/
theorem interpretBdx_of_more_fuel {fuel : Nat}
    (done : interpretBdx perform bytecode fuel ip state = some final) (least : Nat) :
    ∃ more ≥ least, interpretBdx perform bytecode more ip state = some final := by
  obtain ⟨calls, stop, run, stops, all⟩ := interpretBdx_eq_some_iff.mp ⟨fuel, done⟩
  obtain ⟨bound, reaches⟩ := @interpretBdx_of_run _ perform _ _ _ _ run stops
  exact ⟨max bound least, Nat.le_max_right _ _,
    (reaches _ (Nat.le_max_left _ _) state).trans all⟩

end Runs

end BrainDance.Exec
