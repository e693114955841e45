import BrainDance.Arch.Irq

/-!
Owns the CPU exceptions of `arch/i386/isr.asm` and `isr.c`: the stubs with and without
an error code, and what `isr_handler` reads through its argument. The stub passes the
vector itself where `isr_handler` takes a pointer.
-/

namespace BrainDance.Arch

open BrainDance.Foundation

/-! ### Model -/

/-- The vectors that are declared with `ISR_ERR`. -/
def isrErrors : List (Fin 32) := [8, 10, 11, 12, 13, 14]

/-- The number that a stub pushes. -/
def isrVector (vector : Fin 32) : Word := BitVec.ofNat 32 vector.val

/-- `isr_common_stub`, where `isrHandler` is the address of `isr_handler`. -/
def isrCommonStub (isrHandler : Word) : Stub where
  save := [.pusha, .load .eax 32, .load .ebx 36, .push .ebx, .push .eax]
  target _ := isrHandler
  restore := [.addEsp 8, .popa, .addEsp 8, .sti, .iret]

/-- `ISR_NOERR` or `ISR_ERR`, up to the common stub and on through it. -/
def isrStub (isrHandler : Word) (vector : Fin 32) : Stub :=
  { isrCommonStub isrHandler with
    save := (if vector ∈ isrErrors then [.cli, .pushWord (isrVector vector)]
      else [.cli, .pushWord 0, .pushWord (isrVector vector)]) ++ (isrCommonStub isrHandler).save }

/-- `isr_handler`: the handler that it calls, or it halts. -/
def isrHandlerCalls (interruptHandlers : Word → Word) (memory : AddressSpace) (r : Word) :
    Option Word :=
  if interruptHandlers (readRegs memory r).intNo ≠ 0 then
    some (interruptHandlers (readRegs memory r).intNo)
  else none

/-- What the processor pushes on top of the gate's words. -/
def pushedCode (vector : Fin 32) (errorCode : Word) : Option Word :=
  if vector ∈ isrErrors then some errorCode else none

/-- The machine in which `isr_handler` starts. -/
def isrEntry (machine : Machine) (isrHandler returnAddress handler : Word) (vector : Fin 32)
    (errorCode : Word) : Machine :=
  (isrStub isrHandler vector).entry returnAddress
    (machine.accept kernelCode handler (pushedCode vector errorCode))

/-! ### The stack at the call -/

/-- The words from `edi` to `eflags`, the last one pushed first. -/
def isrFrame (machine : Machine) (vector : Fin 32) (errorCode : Word) : List Word :=
  Machine.gateFrame machine (machine.regs .esp - 20) (isrVector vector)
    ((pushedCode vector errorCode).getD 0)

/-- The frame below the arguments and the return address. -/
def isrStack (machine : Machine) (returnAddress : Word) (vector : Fin 32) (errorCode : Word) :
    List Word :=
  returnAddress :: isrVector vector :: (pushedCode vector errorCode).getD 0 ::
    isrFrame machine vector errorCode

section Frame

variable (machine : Machine) (isrHandler returnAddress handler errorCode : Word)
  (vector : Fin 32)

/-- Up to `isr_common_stub` a stub has pushed the vector and an error code, its own or the
processor's. -/
theorem isrNumbers_saved : ∃ code numbered,
    (isrStub isrHandler vector).save = code ++ (isrCommonStub isrHandler).save ∧
      execAll code (machine.accept kernelCode handler (pushedCode vector errorCode)) = numbered ∧
        Machine.Saved numbered machine
          [isrVector vector, (pushedCode vector errorCode).getD 0, machine.eip,
            (machine.segs .cs).setWidth 32, machine.eflags] := by
  by_cases error : vector ∈ isrErrors
  · refine ⟨_, _, congrArg (· ++ _) (if_pos error), rfl, ?_⟩
    have off := (Machine.saved_accept_code machine kernelCode handler errorCode).cli
    rw [pushedCode, if_pos error]
    exact off.push (by simp) (isrVector vector)
  · refine ⟨_, _, congrArg (· ++ _) (if_neg error), rfl, ?_⟩
    have off := (Machine.saved_accept machine kernelCode handler).cli
    rw [pushedCode, if_neg error]
    exact (off.push (by simp) 0).push (by simp) (isrVector vector)

/-- `mov` from the stack and the two pushes put the numbers below the frame. -/
theorem arguments_pushed {saved start : Machine} {edi esi ebp esp ebx edx ecx eax : Word}
    {intNo errCode : Word} {words : List Word}
    (pushed : Machine.Pushed saved start
      (edi :: esi :: ebp :: esp :: ebx :: edx :: ecx :: eax :: intNo :: errCode :: words))
    (fits : words.length + 12 < 2 ^ 30) :
    Machine.Pushed (execAll [.load .eax 32, .load .ebx 36, .push .ebx, .push .eax] saved) start
      (intNo :: errCode ::
        edi :: esi :: ebp :: esp :: ebx :: edx :: ecx :: eax :: intNo :: errCode :: words) := by
  have stacked := (pushed.onStack (by simp only [List.length_cons]; omega)).stacked
  have first : saved.memory.load (saved.regs .esp + 32) = intNo :=
    @AddressSpace.Stacked.get _ _ _ _ stacked 8 rfl
  have second : saved.memory.load (saved.regs .esp + 36) = errCode :=
    @AddressSpace.Stacked.get _ _ _ _ stacked 9 rfl
  have loaded : Machine.Pushed ((saved.setReg .eax intNo).setReg .ebx errCode) start _ :=
    ⟨pushed.esp, pushed.memory⟩
  have both := (loaded.push (by simp only [List.length_cons]; omega) errCode).push
    (by simp only [List.length_cons]; omega) intNo
  have steps : execAll [.load .eax 32, .load .ebx 36, .push .ebx, .push .eax] saved =
      (((saved.setReg .eax intNo).setReg .ebx errCode).push errCode).push intNo := by
    rw [← first, ← second]
    rfl
  rw [steps]
  exact both

theorem isrEntry_pushed :
    Machine.Pushed (isrEntry machine isrHandler returnAddress handler vector errorCode) machine
      (isrStack machine returnAddress vector errorCode) := by
  obtain ⟨code, numbered, save, ran, saved⟩ :=
    isrNumbers_saved machine isrHandler handler errorCode vector
  have esp := saved.esp
  have general := saved.pusha (by simp)
  rw [esp] at general
  have arguments := arguments_pushed general.toPushed (by simp)
  have called := arguments.push (by simp) returnAddress
  rw [isrEntry, Stub.entry, save, execAll_append, ran]
  exact ⟨called.esp, called.memory⟩

/-- `isr_handler` is called with the vector, above the frame. -/
theorem isrEntry_argument :
    (isrEntry machine isrHandler returnAddress handler vector errorCode).top = returnAddress ∧
      (isrEntry machine isrHandler returnAddress handler vector errorCode).argument =
        isrVector vector ∧
      (isrEntry machine isrHandler returnAddress handler vector errorCode).regs .esp + 4 =
        machine.regs .esp - 60 ∧
      (isrEntry machine isrHandler returnAddress handler vector errorCode).memory =
        machine.memory.overlay (machine.regs .esp - 64)
          (isrStack machine returnAddress vector errorCode) ∧
      (isrEntry machine isrHandler returnAddress handler vector errorCode).memory.Stacked
        (machine.regs .esp - 52) (isrFrame machine vector errorCode) := by
  have pushed := isrEntry_pushed machine isrHandler returnAddress handler errorCode vector
  have stack := pushed.onStack (by simp [isrStack, isrFrame, Machine.gateFrame])
  have stacked := stack.stacked
  rw [isrStack] at stacked
  have frame := stacked.tail.tail.tail
  have esp : (isrEntry machine isrHandler returnAddress handler vector errorCode).regs .esp =
      machine.regs .esp - 64 := pushed.esp
  have base : (isrEntry machine isrHandler returnAddress handler vector errorCode).regs .esp +
      4 + 4 + 4 = machine.regs .esp - 52 := by
    rw [esp]
    bv_omega
  rw [base] at frame
  refine ⟨stacked.head, stacked.tail.head, ?_, ?_, frame⟩
  · rw [esp]
    bv_omega
  · rw [pushed.memory, esp]

theorem isr_restore_eq (isrHandler : Word) (returned : Machine) :
    execAll (isrCommonStub isrHandler).restore returned =
      execAll [.popa, .addEsp 8, .sti, .iret] (returned.release 8) :=
  execAll_append [.addEsp 8] _ returned

/-- The code behind the call takes the frame off the stack, whatever is left of the
arguments. -/
theorem isr_restore {returned : Machine}
    (esp : returned.regs .esp = machine.regs .esp - 60)
    (frame : returned.memory.Stacked (machine.regs .esp - 52) (isrFrame machine vector errorCode)) :
    (execAll (isrCommonStub isrHandler).restore returned).regs = machine.regs := by
  have released : (returned.release 8).regs .esp = machine.regs .esp - 52 := by
    rw [Machine.release, Machine.setReg_self, esp]
    bv_omega
  have stack : Machine.OnStack (returned.release 8) (machine.regs .esp)
      (isrFrame machine vector errorCode) := ⟨released, released ▸ frame⟩
  rw [isr_restore_eq]
  exact stack.leave.1

end Frame

/-! ### What the handler reads -/

/-- The structure holds the machine's general registers and the two numbers. -/
structure Regs.ShowsGeneral (regs : Regs) (machine : Machine) (intNo errCode : Word) : Prop where
  edi : regs.edi = machine.regs .edi
  esi : regs.esi = machine.regs .esi
  ebp : regs.ebp = machine.regs .ebp
  ebx : regs.ebx = machine.regs .ebx
  edx : regs.edx = machine.regs .edx
  ecx : regs.ecx = machine.regs .ecx
  eax : regs.eax = machine.regs .eax
  intNo : regs.intNo = intNo
  errCode : regs.errCode = errCode

/-- The exception shows in the `regs_t` that `isr_handler` gets and selects the handler of
its vector. When `isr_handler` returns, having followed the C convention and left the
frame alone, the registers are as before the exception. -/
def ExceptionReaches (machine : Machine) (isrHandler returnAddress handler : Word)
    (vector : Fin 32) (errorCode : Word) : Prop :=
  let entry := isrEntry machine isrHandler returnAddress handler vector errorCode
  let pushed := machine.accept kernelCode handler (pushedCode vector errorCode)
  entry.eip = isrHandler ∧
    (readRegs entry.memory entry.argument).ShowsGeneral machine (isrVector vector)
      ((pushedCode vector errorCode).getD 0) ∧
    (∀ interruptHandlers : Word → Word,
      isrHandlerCalls interruptHandlers entry.memory entry.argument =
        if interruptHandlers (isrVector vector) ≠ 0 then some (interruptHandlers (isrVector vector))
        else none) ∧
    ∀ functions returned, functions isrHandler entry = some returned →
      FollowsConvention entry returned →
      (∀ offset < 52, returned.memory.byte (machine.regs .esp - 52 + BitVec.ofNat 32 offset) =
        entry.memory.byte (machine.regs .esp - 52 + BitVec.ofNat 32 offset)) →
      ∃ final, (isrStub isrHandler vector).run functions returnAddress pushed = some final ∧
        final.regs = machine.regs

/-- A `regs_t` of the exception lies at the address that is the vector itself, in memory
with the stack of the exception over it. Its `esp` may be any. -/
def VectorSpells (machine : Machine) (returnAddress : Word) (vector : Fin 32) (errorCode : Word) :
    Prop :=
  ∀ index < 10, index ≠ 3 →
    (machine.memory.overlay (machine.regs .esp - 64)
      (isrStack machine returnAddress vector errorCode)).load
        (isrVector vector + 16 + BitVec.ofNat 32 (4 * index)) =
      (isrFrame machine vector errorCode).getD index 0

instance (machine : Machine) (returnAddress : Word) (vector : Fin 32) (errorCode : Word) :
    Decidable (VectorSpells machine returnAddress vector errorCode) :=
  inferInstanceAs (Decidable (∀ index < 10, index ≠ 3 → _))

section Reads

variable (machine : Machine) (isrHandler returnAddress handler errorCode : Word)
  (vector : Fin 32)

/-- The fields from `edi` to `err_code` are ten words. -/
theorem showsGeneral_iff (memory : AddressSpace) (r : Word) :
    (readRegs memory r).ShowsGeneral machine (isrVector vector)
        ((pushedCode vector errorCode).getD 0) ↔
      ∀ index < 10, index ≠ 3 → memory.load (r + 16 + BitVec.ofNat 32 (4 * index)) =
        (isrFrame machine vector errorCode).getD index 0 := by
  have field : ∀ index, r + 16 + BitVec.ofNat 32 (4 * index) =
      r + BitVec.ofNat 32 (16 + 4 * index) := by
    intro index
    rw [BitVec.ofNat_add, BitVec.add_assoc]
    rfl
  simp only [field]
  constructor
  · intro shown index inside notEsp
    obtain rfl | rfl | rfl | rfl | rfl | rfl | rfl | rfl | rfl : index = 0 ∨ index = 1 ∨
        index = 2 ∨ index = 4 ∨ index = 5 ∨ index = 6 ∨ index = 7 ∨ index = 8 ∨ index = 9 := by
      omega
    · exact shown.edi
    · exact shown.esi
    · exact shown.ebp
    · exact shown.ebx
    · exact shown.edx
    · exact shown.ecx
    · exact shown.eax
    · exact shown.intNo
    · exact shown.errCode
  · intro words
    exact {
      edi := words 0 (by decide) (by decide)
      esi := words 1 (by decide) (by decide)
      ebp := words 2 (by decide) (by decide)
      ebx := words 4 (by decide) (by decide)
      edx := words 5 (by decide) (by decide)
      ecx := words 6 (by decide) (by decide)
      eax := words 7 (by decide) (by decide)
      intNo := words 8 (by decide) (by decide)
      errCode := words 9 (by decide) (by decide) }

theorem entry_showsGeneral_iff :
    (readRegs (isrEntry machine isrHandler returnAddress handler vector errorCode).memory
        (isrEntry machine isrHandler returnAddress handler vector errorCode).argument).ShowsGeneral
      machine (isrVector vector) ((pushedCode vector errorCode).getD 0) ↔
        VectorSpells machine returnAddress vector errorCode := by
  obtain ⟨-, argument, -, memory, -⟩ :=
    isrEntry_argument machine isrHandler returnAddress handler errorCode vector
  rw [argument, memory]
  exact showsGeneral_iff machine errorCode vector _ _

/-- A returning handler leaves no trace, whatever it was given. -/
theorem isr_returns {functions : Word → Machine → Option Machine} {returned : Machine}
    (called : functions isrHandler
      (isrEntry machine isrHandler returnAddress handler vector errorCode) = some returned)
    (follows : FollowsConvention
      (isrEntry machine isrHandler returnAddress handler vector errorCode) returned)
    (untouched : ∀ offset < 52,
      returned.memory.byte (machine.regs .esp - 52 + BitVec.ofNat 32 offset) =
        (isrEntry machine isrHandler returnAddress handler vector errorCode).memory.byte
          (machine.regs .esp - 52 + BitVec.ofNat 32 offset)) :
    ∃ final, (isrStub isrHandler vector).run functions returnAddress
        (machine.accept kernelCode handler (pushedCode vector errorCode)) = some final ∧
      final.regs = machine.regs := by
  obtain ⟨top, -, esp, -, frame⟩ :=
    isrEntry_argument machine isrHandler returnAddress handler errorCode vector
  exact ⟨_, Stub.run_of_returns called (follows.eip.trans top),
    isr_restore machine isrHandler errorCode vector (follows.esp.trans esp)
      (frame.congr untouched)⟩

/-- The exception reaches its handler exactly when its frame happens to lie where the
vector points. -/
theorem exceptionReaches_iff :
    ExceptionReaches machine isrHandler returnAddress handler vector errorCode ↔
      VectorSpells machine returnAddress vector errorCode := by
  rw [← entry_showsGeneral_iff machine isrHandler returnAddress handler errorCode vector]
  constructor
  · rintro ⟨-, shown, -⟩
    exact shown
  · intro shown
    refine ⟨rfl, shown, ?_, ?_⟩
    · intro interruptHandlers
      rw [isrHandlerCalls, shown.intNo]
    · intro functions returned called follows untouched
      exact isr_returns machine isrHandler returnAddress handler errorCode vector called follows
        untouched

/-- Where the stack stays clear of the lowest addresses, it is the memory there that
decides. -/
theorem vectorSpells_iff_of_high (high : 152 ≤ (machine.regs .esp).toNat) :
    VectorSpells machine returnAddress vector errorCode ↔
      ∀ index < 10, index ≠ 3 →
        machine.memory.load (isrVector vector + 16 + BitVec.ofNat 32 (4 * index)) =
          (isrFrame machine vector errorCode).getD index 0 := by
  have clear : ∀ index < 10,
      (machine.memory.overlay (machine.regs .esp - 64)
        (isrStack machine returnAddress vector errorCode)).load
          (isrVector vector + 16 + BitVec.ofNat 32 (4 * index)) =
        machine.memory.load (isrVector vector + 16 + BitVec.ofNat 32 (4 * index)) := by
    intro index inside
    apply AddressSpace.load_overlay_of_outside
    intro offset inWord
    show 64 ≤ _
    have small := vector.isLt
    rw [isrVector]
    bv_omega
  constructor
  · intro spells index inside notEsp
    rw [← clear index inside, spells index inside notEsp]
  · intro words index inside notEsp
    rw [clear index inside, words index inside notEsp]

end Reads

/-- A page fault with nothing but zeros in memory. -/
def idleMachine : Machine where
  regs reg := if reg = .esp then 0x90000 else 0
  segs _ := 0x10
  eip := 0x10000
  eflags := 0x202
  memory := ⟨fun _ => 0⟩
  extendsSelectors := false

/-- The page fault handler is not called: `r->int_no` is zero. -/
theorem exceptionReaches_fails :
    ¬ ExceptionReaches idleMachine 0x11000 0x12000 0x13000 14 2 := by
  rintro ⟨-, shown, -⟩
  rw [entry_showsGeneral_iff] at shown
  exact absurd shown (by decide)

end BrainDance.Arch
