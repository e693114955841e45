import BrainDance.Arch.Machine

/-!
Owns the hardware interrupts of `arch/i386/irq.asm` and `irq.c`: the stub of each
line, the `regs_t` that it builds on the stack, and what `irq_handler` reads of it.
An interrupt shows the handler the interrupted machine and leaves no trace in it.
-/

namespace BrainDance.Arch

open BrainDance.Foundation

/-! ### Model -/

/-- `regs_t`. -/
structure Regs where
  gs : Word
  fs : Word
  es : Word
  ds : Word
  edi : Word
  esi : Word
  ebp : Word
  esp : Word
  ebx : Word
  edx : Word
  ecx : Word
  eax : Word
  intNo : Word
  errCode : Word
  eip : Word
  cs : Word
  eflags : Word
  useresp : Word
  ss : Word
deriving DecidableEq

/-- The structure that `r` points to. -/
def readRegs (memory : AddressSpace) (r : Word) : Regs where
  gs := memory.load (r + 0)
  fs := memory.load (r + 4)
  es := memory.load (r + 8)
  ds := memory.load (r + 12)
  edi := memory.load (r + 16)
  esi := memory.load (r + 20)
  ebp := memory.load (r + 24)
  esp := memory.load (r + 28)
  ebx := memory.load (r + 32)
  edx := memory.load (r + 36)
  ecx := memory.load (r + 40)
  eax := memory.load (r + 44)
  intNo := memory.load (r + 48)
  errCode := memory.load (r + 52)
  eip := memory.load (r + 56)
  cs := memory.load (r + 60)
  eflags := memory.load (r + 64)
  useresp := memory.load (r + 68)
  ss := memory.load (r + 72)

/-- The selector that `idt_set_gate` gives every gate. -/
def kernelCode : BitVec 16 := 0x08

/-- `irq_common_stub`, where `irqHandler` is the address of `irq_handler`. -/
def irqCommonStub (irqHandler : Word) : Stub where
  save := [.pusha, .pushSeg .ds, .pushSeg .es, .pushSeg .fs, .pushSeg .gs, .movAx 0x10,
    .movSeg .ds, .movSeg .es, .movSeg .fs, .movSeg .gs, .mov .eax .esp, .push .eax,
    .movWord .eax irqHandler]
  target saved := saved.regs .eax
  restore := [.pop .eax, .popSeg .gs, .popSeg .fs, .popSeg .es, .popSeg .ds, .popa, .addEsp 8,
    .sti, .iret]

/-- The second argument of `IRQ`. -/
def irqVector (irq : Fin 16) : Byte := BitVec.ofNat 8 (32 + irq.val)

/-- `IRQ irq, 32 + irq`, up to the common stub and on through it. -/
def irqStub (irqHandler : Word) (irq : Fin 16) : Stub :=
  { irqCommonStub irqHandler with
    save := [.cli, .pushByte 0, .pushByte (irqVector irq)] ++ (irqCommonStub irqHandler).save }

/-- `irq_handler`, up to its calls: the routine that it calls where one is installed, and
the line that it acknowledges. -/
def irqHandlerCalls (irqRoutines : Word → Word) (memory : AddressSpace) (r : Word) :
    Option Word × Word :=
  let line := (readRegs memory r).intNo - 32
  (if irqRoutines line ≠ 0 then some (irqRoutines line) else none, line)

/-! ### The frame -/

section Frame

variable (machine : Machine) (irqHandler returnAddress handler : Word) (irq : Fin 16)

/-- The words of the frame, the last one pushed first, with what the pushes of the segment
registers left. -/
def irqFrame (machine : Machine) (irq : Fin 16) (selectors : Seg → Word) : List Word :=
  [selectors .gs, selectors .fs, selectors .es, selectors .ds, machine.regs .edi,
    machine.regs .esi, machine.regs .ebp, machine.regs .esp - 20, machine.regs .ebx,
    machine.regs .edx, machine.regs .ecx, machine.regs .eax, BitVec.ofNat 32 (32 + irq.val), 0,
    machine.eip, (machine.segs .cs).setWidth 32, machine.eflags]

/-- The machine in which `irq_handler` starts. -/
def irqEntry : Machine :=
  (irqStub irqHandler irq).entry returnAddress (machine.accept kernelCode handler none)

theorem signExtend_irqVector :
    ∀ irq : Fin 16, (irqVector irq).signExtend 32 = BitVec.ofNat 32 (32 + irq.val) := by
  decide

/-- Up to the segment registers the stub has pushed the frame and changed nothing. -/
theorem irqFrame_saved : ∃ selectors, (∀ seg, machine.Selects seg (selectors seg)) ∧
    Machine.Saved (execAll [.cli, .pushByte 0, .pushByte (irqVector irq), .pusha, .pushSeg .ds,
      .pushSeg .es, .pushSeg .fs, .pushSeg .gs] (machine.accept kernelCode handler none))
      machine (irqFrame machine irq selectors) := by
  have off := (Machine.saved_accept machine kernelCode handler).cli
  have numbered := (off.push (by simp) 0).push (by simp) ((irqVector irq).signExtend 32)
  have esp := numbered.esp
  have general := numbered.pusha (by simp)
  rw [esp] at general
  obtain ⟨ds, selectsDs, saved⟩ := general.pushSeg (by simp) (show Seg.ds ≠ .cs by decide)
  obtain ⟨es, selectsEs, saved⟩ := saved.pushSeg (by simp) (show Seg.es ≠ .cs by decide)
  obtain ⟨fs, selectsFs, saved⟩ := saved.pushSeg (by simp) (show Seg.fs ≠ .cs by decide)
  obtain ⟨gs, selectsGs, saved⟩ := saved.pushSeg (by simp) (show Seg.gs ≠ .cs by decide)
  refine ⟨fun seg => match seg with
    | .ds => ds
    | .es => es
    | .fs => fs
    | .gs => gs
    | other => (machine.segs other).setWidth 32, fun seg => ?_, ?_⟩
  · cases seg with
    | cs => exact ⟨Machine.selector_restored _, fun _ => rfl⟩
    | ss => exact ⟨Machine.selector_restored _, fun _ => rfl⟩
    | ds => exact selectsDs
    | es => exact selectsEs
    | fs => exact selectsFs
    | gs => exact selectsGs
  · rw [irqFrame, ← signExtend_irqVector irq]
    exact saved

/-- The frame lies under the argument and the return address. -/
theorem irqEntry_pushed : ∃ selectors, (∀ seg, machine.Selects seg (selectors seg)) ∧
    Machine.Pushed (irqEntry machine irqHandler returnAddress handler irq) machine
      (returnAddress :: (machine.regs .esp - 68) :: irqFrame machine irq selectors) := by
  obtain ⟨selectors, selects, saved⟩ := irqFrame_saved machine handler irq
  have esp : _ = machine.regs .esp - 68 := saved.esp
  have called := (saved.toPushed.push (by simp [irqFrame]) (machine.regs .esp - 68)).push
    (by simp [irqFrame]) returnAddress
  rw [← esp] at called ⊢
  exact ⟨selectors, selects, called.esp, called.memory⟩

/-- `irq_handler` is called with the address of the frame. -/
theorem irqEntry_argument :
    ∃ selectors, (∀ seg, machine.Selects seg (selectors seg)) ∧
      (irqEntry machine irqHandler returnAddress handler irq).eip = irqHandler ∧
      (irqEntry machine irqHandler returnAddress handler irq).top = returnAddress ∧
      (irqEntry machine irqHandler returnAddress handler irq).argument =
        machine.regs .esp - 68 ∧
      (irqEntry machine irqHandler returnAddress handler irq).regs .esp + 8 =
        machine.regs .esp - 68 ∧
      (irqEntry machine irqHandler returnAddress handler irq).memory.Stacked
        (machine.regs .esp - 68) (irqFrame machine irq selectors) := by
  obtain ⟨selectors, selects, pushed⟩ :=
    irqEntry_pushed machine irqHandler returnAddress handler irq
  have stack := pushed.onStack (by simp [irqFrame])
  have frame := stack.stacked.tail.tail
  have base : (irqEntry machine irqHandler returnAddress handler irq).regs .esp + 4 + 4 =
      machine.regs .esp - 68 := by
    rw [stack.esp]
    show machine.regs .esp - 76#32 + 4#32 + 4#32 = machine.regs .esp - 68#32
    bv_omega
  rw [base] at frame
  refine ⟨selectors, selects, rfl, stack.top_eq, stack.stacked.tail.head, ?_, frame⟩
  rw [← base, BitVec.add_assoc]
  rfl

theorem irq_restore_eq (irqHandler : Word) (returned : Machine) :
    execAll (irqCommonStub irqHandler).restore returned =
      execAll [.popa, .addEsp 8, .sti, .iret]
        (((((returned.pop .eax).popSeg .gs).popSeg .fs).popSeg .es).popSeg .ds) :=
  execAll_append [.pop .eax, .popSeg .gs, .popSeg .fs, .popSeg .es, .popSeg .ds] _ returned

/-- The code behind the call restores the machine from the frame. -/
theorem irq_restore {machine returned : Machine} {irq : Fin 16} {selectors : Seg → Word}
    (irqHandler : Word) (selects : ∀ seg, machine.Selects seg (selectors seg))
    (esp : returned.regs .esp = machine.regs .esp - 72)
    (frame : returned.memory.Stacked (machine.regs .esp - 68) (irqFrame machine irq selectors))
    (ss : returned.segs .ss = machine.segs .ss) :
    let final := execAll (irqCommonStub irqHandler).restore returned
    final.regs = machine.regs ∧ final.segs = machine.segs ∧ final.eip = machine.eip ∧
      final.eflags = machine.eflags := by
  dsimp only
  rw [irq_restore_eq]
  have popped : (returned.pop .eax).regs .esp = machine.regs .esp - 68 := by
    rw [Machine.pop, Machine.setReg_of_ne (by decide), Machine.release, Machine.setReg_self, esp]
    bv_omega
  have gs : Machine.OnStack (returned.pop .eax) (machine.regs .esp)
      (irqFrame machine irq selectors) :=
    ⟨popped, popped ▸ frame⟩
  have fs := @Machine.OnStack.popSeg _ _ _ _ .gs gs
  have es := @Machine.OnStack.popSeg _ _ _ _ .fs fs
  have ds := @Machine.OnStack.popSeg _ _ _ _ .es es
  have general := @Machine.OnStack.popSeg _ _ _ _ .ds ds
  obtain ⟨regs, eip, eflags, cs, segs⟩ := @Machine.OnStack.leave _ machine _ _ _ general
  refine ⟨regs, ?_, eip, eflags⟩
  funext seg
  cases seg with
  | cs => exact cs
  | ss =>
      rw [segs _ (by decide)]
      exact ss
  | ds =>
      rw [segs _ (by decide), Machine.popSeg_self, ds.top_eq, (selects .ds).selector]
  | es =>
      rw [segs _ (by decide), Machine.popSeg_segs (by decide), Machine.popSeg_self, es.top_eq,
        (selects .es).selector]
  | fs =>
      rw [segs _ (by decide), Machine.popSeg_segs (by decide), Machine.popSeg_segs (by decide),
        Machine.popSeg_self, fs.top_eq, (selects .fs).selector]
  | gs =>
      rw [segs _ (by decide), Machine.popSeg_segs (by decide), Machine.popSeg_segs (by decide),
        Machine.popSeg_segs (by decide), Machine.popSeg_self, gs.top_eq,
        (selects .gs).selector]

theorem irqEntry_ss :
    (irqEntry machine irqHandler returnAddress handler irq).segs .ss = machine.segs .ss := rfl

end Frame

/-! ### Transparency -/

/-- The structure holds the machine's registers, except `esp`, and the two numbers. -/
structure Regs.Shows (regs : Regs) (machine : Machine) (intNo errCode : Word) : Prop where
  gs : machine.Selects .gs regs.gs
  fs : machine.Selects .fs regs.fs
  es : machine.Selects .es regs.es
  ds : machine.Selects .ds regs.ds
  edi : regs.edi = machine.regs .edi
  esi : regs.esi = machine.regs .esi
  ebp : regs.ebp = machine.regs .ebp
  ebx : regs.ebx = machine.regs .ebx
  edx : regs.edx = machine.regs .edx
  ecx : regs.ecx = machine.regs .ecx
  eax : regs.eax = machine.regs .eax
  intNo : regs.intNo = intNo
  errCode : regs.errCode = errCode
  eip : regs.eip = machine.eip
  cs : regs.cs = (machine.segs .cs).setWidth 32
  eflags : regs.eflags = machine.eflags

theorem selects_of_stacked {memory : AddressSpace} {machine : Machine} {seg : Seg}
    {word address : Word} (selects : machine.Selects seg word)
    (stands : memory.load address = word) : machine.Selects seg (memory.load address) :=
  stands ▸ selects

theorem shows_of_stacked {memory : AddressSpace} {machine : Machine} {irq : Fin 16} {r : Word}
    {selectors : Seg → Word} (selects : ∀ seg, machine.Selects seg (selectors seg))
    (frame : memory.Stacked r (irqFrame machine irq selectors)) :
    (readRegs memory r).Shows machine (BitVec.ofNat 32 (32 + irq.val)) 0 where
  gs := selects_of_stacked (selects .gs) (@frame.get _ _ _ _ 0 rfl)
  fs := selects_of_stacked (selects .fs) (@frame.get _ _ _ _ 1 rfl)
  es := selects_of_stacked (selects .es) (@frame.get _ _ _ _ 2 rfl)
  ds := selects_of_stacked (selects .ds) (@frame.get _ _ _ _ 3 rfl)
  edi := @frame.get _ _ _ _ 4 rfl
  esi := @frame.get _ _ _ _ 5 rfl
  ebp := @frame.get _ _ _ _ 6 rfl
  ebx := @frame.get _ _ _ _ 8 rfl
  edx := @frame.get _ _ _ _ 9 rfl
  ecx := @frame.get _ _ _ _ 10 rfl
  eax := @frame.get _ _ _ _ 11 rfl
  intNo := @frame.get _ _ _ _ 12 rfl
  errCode := @frame.get _ _ _ _ 13 rfl
  eip := @frame.get _ _ _ _ 14 rfl
  cs := @frame.get _ _ _ _ 15 rfl
  eflags := @frame.get _ _ _ _ 16 rfl

/-- `irq_handler` calls the routine of its line and acknowledges the line. -/
theorem irqHandlerCalls_eq {memory : AddressSpace} {machine : Machine} {irq : Fin 16} {r : Word}
    (irqRoutines : Word → Word)
    (shown : (readRegs memory r).Shows machine (BitVec.ofNat 32 (32 + irq.val)) 0) :
    irqHandlerCalls irqRoutines memory r =
      (if irqRoutines (BitVec.ofNat 32 irq.val) ≠ 0 then some (irqRoutines (BitVec.ofNat 32 irq.val))
        else none, BitVec.ofNat 32 irq.val) := by
  have line : (readRegs memory r).intNo - 32 = BitVec.ofNat 32 irq.val := by
    rw [shown.intNo, BitVec.ofNat_add, BitVec.add_comm]
    exact BitVec.add_sub_cancel _ _
  simp only [irqHandlerCalls, line]

/-- `irq_handler` gets a `regs_t` that shows the interrupted machine, the selectors in the
lower halves of their words. Whatever it does, as long as it follows the C convention and
leaves the structure alone, behind the `iret` the interrupted machine goes on as it was. -/
theorem irq_transparent (machine : Machine) (irq : Fin 16)
    (irqHandler returnAddress handler : Word) :
    let entry := irqEntry machine irqHandler returnAddress handler irq
    entry.eip = irqHandler ∧
      (readRegs entry.memory entry.argument).Shows machine (BitVec.ofNat 32 (32 + irq.val)) 0 ∧
      ∀ functions returned, functions irqHandler entry = some returned →
        FollowsConvention entry returned →
        (∀ offset < 68, returned.memory.byte (entry.argument + BitVec.ofNat 32 offset) =
          entry.memory.byte (entry.argument + BitVec.ofNat 32 offset)) →
        ∃ final, (irqStub irqHandler irq).run functions returnAddress
            (machine.accept kernelCode handler none) = some final ∧
          final.regs = machine.regs ∧ final.segs = machine.segs ∧ final.eip = machine.eip ∧
            final.eflags = machine.eflags := by
  intro entry
  obtain ⟨selectors, selects, target, top, argument, esp, frame⟩ :=
    irqEntry_argument machine irqHandler returnAddress handler irq
  refine ⟨target, ?_, ?_⟩
  · rw [argument]
    exact shows_of_stacked selects frame
  · intro functions returned called follows untouched
    rw [argument] at untouched
    refine ⟨_, Stub.run_of_returns (target ▸ called) (follows.eip.trans top),
      irq_restore irqHandler selects ?_ (frame.congr untouched) (follows.ss.trans ?_)⟩
    · have popped : returned.regs .esp =
          (irqEntry machine irqHandler returnAddress handler irq).regs .esp + 4 := follows.esp
      bv_omega
    · exact irqEntry_ss machine irqHandler returnAddress handler irq

/-- A machine with `0xCC` in every byte, whose processor stores selectors in 16 bits. -/
def staleMachine : Machine where
  regs reg := if reg = .esp then 0x90000 else 0
  segs _ := 0x10
  eip := 0x10000
  eflags := 0x202
  memory := ⟨fun _ => 0xCC⟩
  extendsSelectors := false

/-- A handler that returns at once. -/
theorem irq_transparent_ret : ∃ final,
    (irqStub 0x11000 1).run (fun _ entry => some entry.ret) 0x12000
        (staleMachine.accept kernelCode 0x13000 none) = some final ∧
      final.regs = staleMachine.regs ∧ final.segs = staleMachine.segs ∧
        final.eip = staleMachine.eip ∧ final.eflags = staleMachine.eflags :=
  (irq_transparent staleMachine 1 0x11000 0x12000 0x13000).2.2 (fun _ entry => some entry.ret) _
    rfl (Machine.followsConvention_ret _) fun _ _ => rfl

/-- The upper half of the word that `gs` shows is what stood on the stack. -/
theorem irq_shows_stale_selector :
    ¬ ∀ (machine : Machine) (irq : Fin 16) (irqHandler returnAddress handler : Word),
      let entry := irqEntry machine irqHandler returnAddress handler irq
      (readRegs entry.memory entry.argument).gs = (machine.segs .gs).setWidth 32 := by
  intro always
  exact absurd (always staleMachine 1 0x11000 0x12000 0x13000) (by decide +kernel)

end BrainDance.Arch
