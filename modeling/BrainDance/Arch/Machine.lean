import BrainDance.Foundation.AddressSpace

/-!
Owns the i386 as interrupt stubs use it: registers, a stack in memory, the few
instructions of a stub, how the processor enters a gate and how a C function is
called. An instruction's own address is not modelled: a stub is what it does before
its call and what it does behind it.

How an instruction pushes a selector depends on the processor: as a word, zero-extended, or
with a 16-bit store, which leaves the upper half of the word on the stack as it was. Interrupts
stay off from the gate to the `iret`, as `sti` takes effect behind the next instruction only.
-/

namespace BrainDance.Arch

open BrainDance.Foundation

/-! ### State -/

inductive Reg where
  | eax
  | ecx
  | edx
  | ebx
  | esp
  | ebp
  | esi
  | edi
deriving DecidableEq

inductive Seg where
  | cs
  | ss
  | ds
  | es
  | fs
  | gs
deriving DecidableEq

/-- The processor extends the selectors that it pushes, or it does not. -/
structure Machine where
  regs : Reg → Word
  segs : Seg → BitVec 16
  eip : Word
  eflags : Word
  memory : AddressSpace
  extendsSelectors : Bool

namespace Machine

def setReg (machine : Machine) (reg : Reg) (value : Word) : Machine :=
  { machine with regs := Function.update machine.regs reg value }

def setSeg (machine : Machine) (seg : Seg) (value : BitVec 16) : Machine :=
  { machine with segs := Function.update machine.segs seg value }

def push (machine : Machine) (value : Word) : Machine :=
  { machine.setReg .esp (machine.regs .esp - 4) with
    memory := machine.memory.store (machine.regs .esp - 4) value }

/-- The word on top of the stack. -/
def top (machine : Machine) : Word := machine.memory.load (machine.regs .esp)

/-- The stack without its lowest bytes. -/
def release (machine : Machine) (bytes : Word) : Machine :=
  machine.setReg .esp (machine.regs .esp + bytes)

def pop (machine : Machine) (reg : Reg) : Machine := (machine.release 4).setReg reg machine.top

def popSeg (machine : Machine) (seg : Seg) : Machine :=
  (machine.release 4).setSeg seg (machine.top.setWidth 16)

/-- The word on the stack behind a push of the selector. -/
def selectorWord (machine : Machine) (seg : Seg) : Word :=
  if machine.extendsSelectors then (machine.segs seg).setWidth 32
  else (machine.memory.load (machine.regs .esp - 4)).extractLsb' 16 16 ++ machine.segs seg

def pushSeg (machine : Machine) (seg : Seg) : Machine := machine.push (machine.selectorWord seg)

/-- `pusha` pushes the `esp` from before it. -/
def pusha (machine : Machine) : Machine :=
  [.eax, .ecx, .edx, .ebx, .esp, .ebp, .esi, .edi].foldl
    (fun pushed reg => pushed.push (machine.regs reg)) machine

/-- `popa` skips the `esp` on the stack. -/
def popa (machine : Machine) : Machine :=
  [.ebx, .edx, .ecx, .eax].foldl pop ([.edi, .esi, .ebp].foldl pop machine |>.release 4)

end Machine

/-! ### Instructions -/

/-- `IF`. -/
def interruptFlag : Word := 0x200

/-- `TF`, `IF`, `NT`, `RF` and `VM`: an interrupt gate clears them. -/
def gateFlags : Word := 0x34300

inductive Instr where
  | cli
  | sti
  | pushWord (value : Word)
  | pushByte (value : Byte)
  | push (reg : Reg)
  | pop (reg : Reg)
  | pushSeg (seg : Seg)
  | popSeg (seg : Seg)
  | pusha
  | popa
  | load (reg : Reg) (displacement : Word)
  | mov (dst src : Reg)
  | movWord (reg : Reg) (value : Word)
  | movAx (value : BitVec 16)
  | movSeg (seg : Seg)
  | addEsp (bytes : Word)
  | iret
deriving DecidableEq

/-- `load` is `mov reg, [esp + displacement]`, `movAx` writes the low half of `eax`,
`movSeg` is `mov seg, ax`. -/
def Instr.exec (machine : Machine) : Instr → Machine
  | .cli => { machine with eflags := machine.eflags &&& ~~~interruptFlag }
  | .sti => { machine with eflags := machine.eflags ||| interruptFlag }
  | .pushWord value => machine.push value
  | .pushByte value => machine.push (value.signExtend 32)
  | .push reg => machine.push (machine.regs reg)
  | .pop reg => machine.pop reg
  | .pushSeg seg => machine.pushSeg seg
  | .popSeg seg => machine.popSeg seg
  | .pusha => machine.pusha
  | .popa => machine.popa
  | .load reg displacement =>
      machine.setReg reg (machine.memory.load (machine.regs .esp + displacement))
  | .mov dst src => machine.setReg dst (machine.regs src)
  | .movWord reg value => machine.setReg reg value
  | .movAx value => machine.setReg .eax ((machine.regs .eax).extractLsb' 16 16 ++ value)
  | .movSeg seg => machine.setSeg seg ((machine.regs .eax).setWidth 16)
  | .addEsp bytes => machine.release bytes
  | .iret =>
      { (machine.release 12).setSeg .cs
          ((machine.memory.load (machine.regs .esp + 4)).setWidth 16) with
        eip := machine.top
        eflags := machine.memory.load (machine.regs .esp + 8) }

def execAll (code : List Instr) (machine : Machine) : Machine := code.foldl Instr.exec machine

theorem execAll_append (first second : List Instr) (machine : Machine) :
    execAll (first ++ second) machine = execAll second (execAll first machine) :=
  List.foldl_append

/-! ### Gates and calls -/

/-- The processor takes an interrupt gate to `handler` without a change of privilege:
it pushes `eflags`, `cs`, zero-extended, and `eip`, and for some exceptions an error code. -/
def Machine.accept (machine : Machine) (selector : BitVec 16) (handler : Word)
    (errorCode : Option Word) : Machine :=
  let pushed := ((machine.push machine.eflags).push ((machine.segs .cs).setWidth 32)).push
    machine.eip
  let pushed := match errorCode with
    | some code => pushed.push code
    | none => pushed
  { pushed.setSeg .cs selector with
    eip := handler
    eflags := machine.eflags &&& ~~~gateFlags }

/-- Code around one call. -/
structure Stub where
  save : List Instr
  target : Machine → Word
  restore : List Instr

/-- The machine in which the called function starts: the return address is pushed. -/
def Stub.entry (stub : Stub) (returnAddress : Word) (machine : Machine) : Machine :=
  let saved := execAll stub.save machine
  { saved.push returnAddress with eip := stub.target saved }

/-- The stub with the functions it may call, each as the machine it returns with. -/
def Stub.run (stub : Stub) (functions : Word → Machine → Option Machine) (returnAddress : Word)
    (machine : Machine) : Option Machine := do
  let entry := stub.entry returnAddress machine
  let returned ← functions entry.eip entry
  if returned.eip = returnAddress then some (execAll stub.restore returned) else none

theorem Stub.run_of_returns {stub : Stub} {functions : Word → Machine → Option Machine}
    {returnAddress : Word} {machine returned : Machine}
    (called : functions (stub.entry returnAddress machine).eip (stub.entry returnAddress machine) =
      some returned) (returns : returned.eip = returnAddress) :
    stub.run functions returnAddress machine = some (execAll stub.restore returned) := by
  simp only [Stub.run, called, Option.bind_eq_bind, Option.bind_some, if_pos returns]

/-- The first argument of a C function that has just been called. -/
def Machine.argument (machine : Machine) : Word := machine.memory.load (machine.regs .esp + 4)

/-- What a C function keeps: it returns to its caller with the stack as it was before the
call, and `ebx`, `esi`, `edi`, `ebp` and the stack segment have their values. -/
structure FollowsConvention (entry returned : Machine) : Prop where
  eip : returned.eip = entry.top
  esp : returned.regs .esp = entry.regs .esp + 4
  saved : ∀ reg ∈ [Reg.ebx, .esi, .edi, .ebp], returned.regs reg = entry.regs reg
  ss : returned.segs .ss = entry.segs .ss

/-- `ret`. -/
def Machine.ret (machine : Machine) : Machine :=
  { machine.release 4 with eip := machine.top }

/-! ### Words on the stack -/

namespace Machine

variable {machine start : Machine} {words : List Word} {word value top : Word} {reg : Reg}
  {seg : Seg}

/-- Since `start` the words have been pushed, the last one first. -/
structure Pushed (machine start : Machine) (words : List Word) : Prop where
  esp : machine.regs .esp = start.regs .esp - BitVec.ofNat 32 (4 * words.length)
  memory : machine.memory = start.memory.overlay (machine.regs .esp) words

/-- Nothing else has changed but `cs`, `eip` and `eflags`. -/
structure Saved (machine start : Machine) (words : List Word) : Prop
    extends Pushed machine start words where
  regs : ∀ reg ≠ .esp, machine.regs reg = start.regs reg
  segs : ∀ seg ≠ .cs, machine.segs seg = start.segs seg
  extendsSelectors : machine.extendsSelectors = start.extendsSelectors

/-- The word has the selector in its lower half, and is the selector where the processor
extends it. -/
structure Selects (machine : Machine) (seg : Seg) (word : Word) : Prop where
  selector : word.setWidth 16 = machine.segs seg
  whole : machine.extendsSelectors = true → word = (machine.segs seg).setWidth 32

/-- The words stand on the stack, which ends at `top`. -/
structure OnStack (machine : Machine) (top : Word) (words : List Word) : Prop where
  esp : machine.regs .esp = top - BitVec.ofNat 32 (4 * words.length)
  stacked : machine.memory.Stacked (machine.regs .esp) words

@[simp] theorem setReg_self : (machine.setReg reg value).regs reg = value :=
  Function.update_self ..

@[simp] theorem setReg_of_ne {other : Reg} (different : other ≠ reg) :
    (machine.setReg reg value).regs other = machine.regs other :=
  Function.update_of_ne different ..

@[simp] theorem setSeg_self {selector : BitVec 16} :
    (machine.setSeg seg selector).segs seg = selector :=
  Function.update_self ..

@[simp] theorem setSeg_of_ne {selector : BitVec 16} {other : Seg} (different : other ≠ seg) :
    (machine.setSeg seg selector).segs other = machine.segs other :=
  Function.update_of_ne different ..

@[simp] theorem push_esp : (machine.push value).regs .esp = machine.regs .esp - 4 :=
  @setReg_self machine (machine.regs .esp - 4) .esp

@[simp] theorem push_regs (different : reg ≠ .esp) :
    (machine.push value).regs reg = machine.regs reg :=
  @setReg_of_ne machine (machine.regs .esp - 4) .esp reg different

/-- A function that returns at once follows the convention. -/
theorem followsConvention_ret (entry : Machine) : FollowsConvention entry entry.ret where
  eip := rfl
  esp := @setReg_self entry (entry.regs .esp + 4) .esp
  saved reg general :=
    @setReg_of_ne entry (entry.regs .esp + 4) .esp reg (by rintro rfl; simp at general)
  ss := rfl

theorem next_esp (count : Nat) :
    top - BitVec.ofNat 32 (4 * count) - 4 = top - BitVec.ofNat 32 (4 * (count + 1)) := by
  rw [Nat.mul_add, BitVec.ofNat_add, BitVec.sub_sub]
  rfl

theorem saved_start (machine : Machine) : Saved machine machine [] where
  esp := (BitVec.sub_zero _).symm
  memory := (machine.memory.overlay_nil _).symm
  regs _ _ := rfl
  segs _ _ := rfl
  extendsSelectors := rfl

theorem Pushed.push (pushed : Pushed machine start words) (fits : words.length < 2 ^ 30)
    (value : Word) : Pushed (machine.push value) start (value :: words) where
  esp := by rw [push_esp, pushed.esp, next_esp, List.length_cons]
  memory := by
    rw [push_esp, ← AddressSpace.store_overlay fits, ← pushed.memory]
    rfl

theorem Saved.push (saved : Saved machine start words) (fits : words.length < 2 ^ 30)
    (value : Word) : Saved (machine.push value) start (value :: words) where
  toPushed := saved.toPushed.push fits value
  regs reg different := by rw [push_regs different, saved.regs reg different]
  segs := saved.segs
  extendsSelectors := saved.extendsSelectors

theorem Saved.cli (saved : Saved machine start words) :
    Saved (Instr.exec machine .cli) start words where
  esp := saved.esp
  memory := saved.memory
  regs := saved.regs
  segs := saved.segs
  extendsSelectors := saved.extendsSelectors

/-- A selector survives the stack. -/
theorem selector_restored (selector : BitVec 16) :
    (selector.setWidth 32).setWidth 16 = selector := by
  simp

theorem selects_selectorWord (machine : Machine) (seg : Seg) :
    machine.Selects seg (machine.selectorWord seg) := by
  unfold selectorWord
  by_cases extended : machine.extendsSelectors = true
  · rw [if_pos extended]
    exact ⟨selector_restored _, fun _ => rfl⟩
  · rw [if_neg extended]
    refine ⟨?_, fun whole => absurd whole extended⟩
    apply BitVec.eq_of_getLsbD_eq
    intro i inSelector
    simp only [BitVec.getLsbD_setWidth, BitVec.getLsbD_append, inSelector, if_true, decide_true,
      Bool.true_and]

theorem Saved.pushSeg (saved : Saved machine start words) (fits : words.length < 2 ^ 30)
    (notCs : seg ≠ .cs) :
    ∃ word, start.Selects seg word ∧ Saved (machine.pushSeg seg) start (word :: words) := by
  have selects := selects_selectorWord machine seg
  have same := saved.segs seg notCs
  refine ⟨_, ⟨selects.selector.trans same, fun whole => ?_⟩, saved.push fits _⟩
  rw [selects.whole (saved.extendsSelectors.trans whole), same]

/-- The eight words of `pusha`. -/
theorem Saved.pusha (saved : Saved machine start words) (fits : words.length + 8 < 2 ^ 30) :
    Saved machine.pusha start (start.regs .edi :: start.regs .esi :: start.regs .ebp ::
      machine.regs .esp :: start.regs .ebx :: start.regs .edx :: start.regs .ecx ::
        start.regs .eax :: words) := by
  have same := saved.regs
  rw [← same .edi (by decide), ← same .esi (by decide), ← same .ebp (by decide),
    ← same .ebx (by decide), ← same .edx (by decide), ← same .ecx (by decide),
    ← same .eax (by decide)]
  refine Saved.push (Saved.push (Saved.push (Saved.push (Saved.push (Saved.push (Saved.push
    (Saved.push saved ?_ _) ?_ _) ?_ _) ?_ _) ?_ _) ?_ _) ?_ _) ?_ _
  all_goals
    try simp only [List.length_cons]
    omega

/-- The gate's words, with the error code on top of them if there is one. -/
theorem saved_accept (machine : Machine) (selector : BitVec 16) (handler : Word) :
    Saved (machine.accept selector handler none) machine
      [machine.eip, (machine.segs .cs).setWidth 32, machine.eflags] := by
  have pushed := (((saved_start machine).push (Nat.two_pow_pos 30) machine.eflags).push
    (by simp) ((machine.segs .cs).setWidth 32)).push (by simp) machine.eip
  exact ⟨⟨pushed.esp, pushed.memory⟩, pushed.regs, fun seg notCs => Function.update_of_ne notCs ..,
    rfl⟩

theorem saved_accept_code (machine : Machine) (selector : BitVec 16) (handler errorCode : Word) :
    Saved (machine.accept selector handler (some errorCode)) machine
      [errorCode, machine.eip, (machine.segs .cs).setWidth 32, machine.eflags] := by
  have pushed := ((((saved_start machine).push (Nat.two_pow_pos 30) machine.eflags).push
    (by simp) ((machine.segs .cs).setWidth 32)).push (by simp) machine.eip).push (by simp) errorCode
  exact ⟨⟨pushed.esp, pushed.memory⟩, pushed.regs, fun seg notCs => Function.update_of_ne notCs ..,
    rfl⟩

/-! ### Words off the stack -/

theorem Pushed.onStack (pushed : Pushed machine start words) (fits : words.length ≤ 2 ^ 30) :
    OnStack machine (start.regs .esp) words where
  esp := pushed.esp
  stacked := by
    rw [pushed.memory]
    exact AddressSpace.stacked_overlay fits

theorem OnStack.top_eq (stack : OnStack machine top (word :: words)) : machine.top = word :=
  stack.stacked.head

theorem OnStack.release (stack : OnStack machine top (word :: words)) :
    OnStack (machine.release 4) top words where
  esp := by
    rw [Machine.release, setReg_self, stack.esp, List.length_cons, ← next_esp]
    exact BitVec.sub_add_cancel _ _
  stacked := by
    have tail := stack.stacked.tail
    rwa [Machine.release, setReg_self]

theorem OnStack.release_two {second : Word}
    (stack : OnStack machine top (word :: second :: words)) :
    OnStack (machine.release 8) top words := by
  have both : machine.release 8 = (machine.release 4).release 4 := by
    simp only [Machine.release, Machine.setReg, Function.update_self, Function.update_idem,
      BitVec.add_assoc]
    rfl
  rw [both]
  exact stack.release.release

theorem release_regs (different : reg ≠ .esp) (bytes : Word) :
    (machine.release bytes).regs reg = machine.regs reg :=
  setReg_of_ne different

theorem pop_self : (machine.pop reg).regs reg = machine.top := setReg_self

theorem pop_regs {other : Reg} (different : other ≠ reg) (notEsp : other ≠ .esp) :
    (machine.pop reg).regs other = machine.regs other := by
  rw [Machine.pop, setReg_of_ne different, release_regs notEsp]

theorem OnStack.pop (stack : OnStack machine top (word :: words)) (notEsp : reg ≠ .esp) :
    OnStack (machine.pop reg) top words := by
  have esp : (machine.pop reg).regs .esp = (machine.release 4).regs .esp :=
    setReg_of_ne notEsp.symm
  refine ⟨by rw [esp, stack.release.esp], ?_⟩
  rw [esp]
  exact stack.release.stacked

theorem OnStack.popSeg (stack : OnStack machine top (word :: words)) :
    OnStack (machine.popSeg seg) top words :=
  ⟨stack.release.esp, stack.release.stacked⟩

/-- `popa` restores the registers that `pusha` pushed, except `esp`. -/
theorem OnStack.popa {edi esi ebp esp ebx edx ecx eax : Word}
    (stack : OnStack machine top
      (edi :: esi :: ebp :: esp :: ebx :: edx :: ecx :: eax :: words)) :
    OnStack machine.popa top words ∧
      machine.popa.regs .edi = edi ∧ machine.popa.regs .esi = esi ∧
        machine.popa.regs .ebp = ebp ∧ machine.popa.regs .ebx = ebx ∧
          machine.popa.regs .edx = edx ∧ machine.popa.regs .ecx = ecx ∧
            machine.popa.regs .eax = eax := by
  have first := stack
  have second := @OnStack.pop _ _ _ _ .edi first (by decide)
  have third := @OnStack.pop _ _ _ _ .esi second (by decide)
  have skipped := @OnStack.pop _ _ _ _ .ebp third (by decide)
  have fifth := skipped.release
  have sixth := @OnStack.pop _ _ _ _ .ebx fifth (by decide)
  have seventh := @OnStack.pop _ _ _ _ .edx sixth (by decide)
  have eighth := @OnStack.pop _ _ _ _ .ecx seventh (by decide)
  have last := @OnStack.pop _ _ _ _ .eax eighth (by decide)
  refine ⟨last, ?_⟩
  simp only [Machine.popa, List.foldl_cons, List.foldl_nil, pop_self, pop_regs, release_regs, ne_eq,
    reduceCtorEq, not_false_eq_true, first.top_eq, second.top_eq, third.top_eq, fifth.top_eq,
    sixth.top_eq, seventh.top_eq, eighth.top_eq, and_self]

theorem popSeg_self : (machine.popSeg seg).segs seg = machine.top.setWidth 16 := setSeg_self

theorem popSeg_segs {other : Seg} (different : other ≠ seg) :
    (machine.popSeg seg).segs other = machine.segs other :=
  setSeg_of_ne different

/-- `iret` takes the gate's words. -/
theorem OnStack.iret {eip cs eflags : Word}
    (stack : OnStack machine top [eip, cs, eflags]) :
    let returned := Instr.exec machine .iret
    returned.eip = eip ∧ returned.segs .cs = cs.setWidth 16 ∧ returned.eflags = eflags ∧
      returned.regs .esp = top := by
  have cs_eq : machine.memory.load (machine.regs .esp + 4) = cs := stack.stacked.tail.head
  have eflags_eq : machine.memory.load (machine.regs .esp + 8) = eflags :=
    @AddressSpace.Stacked.get _ _ _ _ stack.stacked 2 rfl
  refine ⟨stack.top_eq, ?_, eflags_eq, ?_⟩
  · rw [← cs_eq]
    exact @setSeg_self (machine.release 12) .cs _
  · show (machine.release 12).regs .esp = top
    rw [Machine.release, setReg_self, stack.esp]
    exact BitVec.sub_add_cancel _ _

theorem iret_regs (different : reg ≠ .esp) :
    (Instr.exec machine .iret).regs reg = machine.regs reg :=
  setReg_of_ne different

theorem iret_segs (notCs : seg ≠ .cs) : (Instr.exec machine .iret).segs seg = machine.segs seg :=
  setSeg_of_ne notCs

theorem sti_regs : (Instr.exec machine .sti).regs = machine.regs := rfl

theorem OnStack.sti (stack : OnStack machine top words) :
    OnStack (Instr.exec machine .sti) top words :=
  ⟨stack.esp, stack.stacked⟩

theorem popa_segs : machine.popa.segs = machine.segs := rfl

theorem release_segs (bytes : Word) : (machine.release bytes).segs = machine.segs := rfl

theorem sti_segs : (Instr.exec machine .sti).segs = machine.segs := rfl

/-- The words that a stub leaves behind: the general registers, two numbers and the gate's
words of the interrupted machine. -/
def gateFrame (start : Machine) (skipped intNo errCode : Word) : List Word :=
  [start.regs .edi, start.regs .esi, start.regs .ebp, skipped, start.regs .ebx, start.regs .edx,
    start.regs .ecx, start.regs .eax, intNo, errCode, start.eip, (start.segs .cs).setWidth 32,
    start.eflags]

/-- The end of a stub goes back to the machine that was interrupted. -/
theorem OnStack.leave {skipped intNo errCode : Word}
    (stack : OnStack machine (start.regs .esp) (gateFrame start skipped intNo errCode)) :
    let final := execAll [.popa, .addEsp 8, .sti, .iret] machine
    final.regs = start.regs ∧ final.eip = start.eip ∧ final.eflags = start.eflags ∧
      final.segs .cs = start.segs .cs ∧ ∀ seg ≠ .cs, final.segs seg = machine.segs seg := by
  have steps : execAll [.popa, .addEsp 8, .sti, .iret] machine =
      Instr.exec (Instr.exec (machine.popa.release 8) .sti) .iret := rfl
  obtain ⟨numbers, edi, esi, ebp, ebx, edx, ecx, eax⟩ := stack.popa
  obtain ⟨eip, cs, eflags, esp⟩ := numbers.release_two.sti.iret
  have kept : ∀ reg ≠ .esp, (Instr.exec (Instr.exec (machine.popa.release 8) .sti) .iret).regs reg =
      machine.popa.regs reg := by
    intro reg notEsp
    rw [iret_regs notEsp, sti_regs, release_regs notEsp]
  dsimp only
  rw [steps]
  refine ⟨?_, eip, eflags, cs.trans (selector_restored _), ?_⟩
  · funext reg
    cases reg with
    | eax => rw [kept _ (by decide), eax]
    | ecx => rw [kept _ (by decide), ecx]
    | edx => rw [kept _ (by decide), edx]
    | ebx => rw [kept _ (by decide), ebx]
    | esp => exact esp
    | ebp => rw [kept _ (by decide), ebp]
    | esi => rw [kept _ (by decide), esi]
    | edi => rw [kept _ (by decide), edi]
  · intro seg notCs
    rw [iret_segs notCs, sti_segs, release_segs, popa_segs]

end Machine

end BrainDance.Arch
