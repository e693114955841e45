import Mathlib.Algebra.Ring.Int.Defs
import BrainDance.Exec.Flow

/-!
Owns whether the interpreter's loop ends. `ip` is a signed 32-bit counter and
the `len` field of a write is added to it, so an instruction moves `ip` forward
exactly when its size does not wrap to nothing and does not carry `ip` past
2^31 - 1. Where every instruction does, a buffer of `size` bytes holds at most
`size` rounds.
-/

namespace BrainDance.Exec

open BrainDance.Foundation
open BrainDance.Libc

/-- The offsets of the instructions that make the calls. -/
def offsets (ip : Word) : List BdxCall → List Word
  | [] => []
  | call :: rest => ip :: offsets (call.next ip) rest

/-- The loop only moves forward, and so leaves any finite buffer or ends in it. -/
structure Progresses (bytecode : Image) : Prop where
  increases : ∀ before call after, (flow bytecode).Reachable before →
    (flow bytecode).Step before call after → before.toInt < after.toInt
  once : ∀ calls ip, (flow bytecode).Run 0 calls ip → (offsets 0 calls).Nodup
  bounded : ∀ (size : Nat) calls ip, (flow bytecode).Run 0 calls ip →
    (∀ offset ∈ offsets 0 calls, offset.toInt < size) → calls.length ≤ size
  ends : ∀ size : Nat, ∃ calls ip, (flow bytecode).Run 0 calls ip ∧ calls.length ≤ size ∧
    ((∀ call, ¬ InstructionAt bytecode ip call) ∨ size ≤ ip.toInt)

/-- The size of the instruction modulo 2^32 is not 0 and leads to no offset past
the largest `int`. -/
def Advances (ip : Word) (call : BdxCall) : Prop :=
  call.size % 2 ^ 32 ≠ 0 ∧ ip.toInt + (call.size % 2 ^ 32 : Nat) < 2 ^ 31

instance (ip : Word) (call : BdxCall) : Decidable (Advances ip call) :=
  inferInstanceAs (Decidable (_ ∧ _))

theorem toInt_lt_next_iff (ip : Word) (call : BdxCall) :
    ip.toInt < (call.next ip).toInt ↔ Advances ip call := by
  have bounded := ip.isLt
  have reduced : call.size % 2 ^ 32 < 2 ^ 32 := Nat.mod_lt _ (by decide)
  rw [Advances, BdxCall.next, BitVec.toInt_eq_toNat_cond, BitVec.toInt_eq_toNat_cond,
    BitVec.toNat_add, BitVec.toNat_ofNat]
  generalize call.size % 2 ^ 32 = size at *
  split <;> split <;> omega

section Runs

variable {bytecode : Image} {ip stop : Word} {calls : List BdxCall}

/-- In a run of instructions that advance, later ones stand behind earlier ones. -/
theorem offsets_increase
    (increases : ∀ before call after, (flow bytecode).Reachable before →
      (flow bytecode).Step before call after → before.toInt < after.toInt)
    (reachable : (flow bytecode).Reachable ip) (run : (flow bytecode).Run ip calls stop) :
    (∀ offset ∈ offsets ip calls, ip.toInt ≤ offset.toInt) ∧
      (offsets ip calls).Pairwise fun left right => left.toInt < right.toInt := by
  induction run with
  | nil ip => exact ⟨fun _ member => absurd member List.not_mem_nil, .nil⟩
  | @cons before middle after call rest step _ inductionHypothesis =>
      have forward := increases _ _ _ reachable step
      obtain ⟨behind, sorted⟩ := inductionHypothesis (.step reachable step)
      obtain ⟨_, rfl⟩ := step
      refine ⟨List.forall_mem_cons.mpr ⟨le_rfl, fun offset member => ?_⟩,
        List.Pairwise.cons (fun offset member => ?_) sorted⟩
      · exact (forward.trans_le (behind offset member)).le
      · exact forward.trans_le (behind offset member)

/-- Offsets below `size` leave room for so many instructions only. -/
theorem length_of_offsets_lt
    (increases : ∀ before call after, (flow bytecode).Reachable before →
      (flow bytecode).Step before call after → before.toInt < after.toInt)
    (reachable : (flow bytecode).Reachable ip) (run : (flow bytecode).Run ip calls stop)
    {size : Nat} (inside : ∀ offset ∈ offsets ip calls, offset.toInt < size) :
    calls = [] ∨ ip.toInt + calls.length ≤ size := by
  induction run with
  | nil ip => exact .inl rfl
  | @cons before middle after call rest step _ inductionHypothesis =>
      have forward := increases _ _ _ reachable step
      have later := inductionHypothesis (.step reachable step)
      obtain ⟨_, rfl⟩ := step
      obtain ⟨first, others⟩ := List.forall_mem_cons.mp inside
      refine .inr ?_
      rw [List.length_cons]
      rcases later others with rfl | short
      · rw [List.length_nil]
        omega
      · omega

/-- The loop ends in the buffer or leaves it. -/
theorem exists_run_to_end
    (increases : ∀ before call after, (flow bytecode).Reachable before →
      (flow bytecode).Step before call after → before.toInt < after.toInt) (size : Nat) :
    ∃ calls ip, (flow bytecode).Run 0 calls ip ∧ calls.length ≤ size ∧
      ((∀ call, ¬ InstructionAt bytecode ip call) ∨ size ≤ ip.toInt) := by
  induction size with
  | zero => exact ⟨[], 0, .nil 0, le_rfl, .inr le_rfl⟩
  | succ size inductionHypothesis =>
      obtain ⟨calls, ip, run, short, ended⟩ := inductionHypothesis
      by_cases instruction : ∃ call, InstructionAt bytecode ip call
      · obtain ⟨call, instruction⟩ := instruction
        have reached := ended.resolve_left fun none => none call instruction
        have step : (flow bytecode).Step ip call (call.next ip) := ⟨instruction, rfl⟩
        have forward := increases _ _ _ (run.reachable (.init rfl)) step
        refine ⟨calls ++ [call], call.next ip, run.append (.cons step (.nil _)), ?_, .inr ?_⟩
        · rw [List.length_append, List.length_singleton]
          omega
        · push_cast
          omega
      · exact ⟨calls, ip, run, by omega, .inl fun call here => instruction ⟨call, here⟩⟩

/-- The loop makes progress exactly when every instruction that it comes to
advances. -/
theorem progresses_iff (bytecode : Image) :
    Progresses bytecode ↔ ∀ ip call, (flow bytecode).Reachable ip →
      InstructionAt bytecode ip call → Advances ip call := by
  constructor
  · intro progresses ip call reachable instruction
    exact (toInt_lt_next_iff ip call).mp
      (progresses.increases ip call _ reachable ⟨instruction, rfl⟩)
  · intro advances
    have increases : ∀ before call after, (flow bytecode).Reachable before →
        (flow bytecode).Step before call after → before.toInt < after.toInt := by
      rintro before call after reachable ⟨instruction, rfl⟩
      exact (toInt_lt_next_iff before call).mpr (advances before call reachable instruction)
    have start : (flow bytecode).Reachable 0 := .init rfl
    refine ⟨increases, fun calls ip run => ?_, fun size calls ip run inside => ?_,
      exists_run_to_end increases⟩
    · have sorted := (offsets_increase increases start run).2
      exact sorted.imp fun smaller same => absurd (same ▸ smaller) (lt_irrefl _)
    · have zero : (0 : Word).toInt = 0 := rfl
      rcases length_of_offsets_lt increases start run inside with rfl | short
      · exact Nat.zero_le size
      · omega

end Runs

/-! ### A length that leads back -/

/-- A write to the empty path whose length is minus the size of its header. -/
def loopBytecode : Image := fun offset => [0x03, 0x00, 0xFA, 0xFF, 0xFF, 0xFF].getD offset 0

theorem loopBytecode_path : Holds (pointerAt loopBytecode (0 + 1)) CString.nil := by
  intro offset inString
  obtain rfl := Nat.le_zero.mp inString
  rfl

theorem loopBytecode_next {call : BdxCall} (instruction : InstructionAt loopBytecode 0 call) :
    call.next 0 = 0 := by
  rw [instruction.unique (.write rfl loopBytecode_path)]
  decide

/-- The interpreter never returns from it, whatever its calls do. -/
theorem interpretBdx_loops :
    (∀ (perform : BdxCall → Kernel → Option Kernel) (fuel : Nat) (kernel : Kernel),
      interpretBdx perform loopBytecode fuel 0 kernel = none) ∧
    ¬ ∀ bytecode, Progresses bytecode := by
  have first : InstructionAt loopBytecode 0 _ := .write rfl loopBytecode_path
  have stays : ∀ {ip}, (flow loopBytecode).Reachable ip → ip = 0 := by
    intro ip reachable
    refine reachable.invariant (fun ip => ip = 0) (fun _ start => start) ?_
    rintro before call after _ rfl ⟨instruction, rfl⟩
    exact loopBytecode_next instruction
  constructor
  · intro perform fuel kernel
    cases done : interpretBdx perform loopBytecode fuel 0 kernel with
    | none => rfl
    | some final =>
        obtain ⟨calls, stop, run, stops, _⟩ := interpretBdx_eq_some_iff.mp ⟨fuel, done⟩
        obtain rfl := stays (run.reachable (.init rfl))
        exact absurd stops first.not_stops
  · intro always
    have forward := (always loopBytecode).increases 0 _ _ (.init rfl) ⟨first, rfl⟩
    rw [loopBytecode_next first] at forward
    exact absurd forward (lt_irrefl _)

end BrainDance.Exec
