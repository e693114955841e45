import BrainDance.Arch.Idt
import BrainDance.Arch.Pic
import BrainDance.Foundation.Transition

/-!
Owns the whole way of a hardware interrupt, from the line that a device raises to the
routine that `irq_install_handler` installed: the controllers give the vector, the table
the gate, the gate the stub, the stub the `regs_t` in which `irq_handler` finds the line
that it serves and acknowledges.

Stubs run with interrupts off, so an interrupt is one step. Where the linker puts the
stubs is a parameter.
-/

namespace BrainDance.Arch

open BrainDance.Foundation

/-! ### Model -/

/-- `idt`, `irq_routines` and the controllers. -/
structure Interrupts where
  idt : Idt
  irqRoutines : Word → Word
  pics : Pics

/-- The addresses of the stubs and of `irq_handler`. -/
structure Linkage where
  isr : Fin 32 → Word
  irq : Fin 16 → Word
  irqHandler : Word
  stubAt : Word → Option Stub
  linked : ∀ line, stubAt (irq line) = some (irqStub irqHandler line)

def irqInstallHandler (state : Interrupts) (irq : Word) (handler : Word) : Interrupts :=
  { state with irqRoutines := Function.update state.irqRoutines irq handler }

def irqUninstallHandler (state : Interrupts) (irq : Word) : Interrupts :=
  { state with irqRoutines := Function.update state.irqRoutines irq 0 }

/-- `idt_install`, `isr_install` and `irq_install`, with the routines of `irq.c` still 0. -/
def installInterrupts (linkage : Linkage) (idt : Idt) (pics : Pics) : Interrupts where
  idt := installedIdt linkage.isr linkage.irq idt
  irqRoutines _ := 0
  pics := irqInstall pics

/-- The processor, interrupted in `machine`, takes an interrupt up to `irq_handler`, which
calls the routine of a line and acknowledges it. -/
def deliver (linkage : Linkage) (machine : Machine) (returnAddress : Word)
    (late : Finset (Fin 8)) (state : Interrupts) : Option (Word × Option Word × Interrupts) := do
  let (vector, acked) ← state.pics.acknowledge late
  let gate ← fetchGate state.idt.image idtLimit vector
  let stub ← linkage.stubAt gate.offset
  let entry := stub.entry returnAddress (machine.accept gate.selector gate.offset none)
  if entry.eip = linkage.irqHandler then
    let (routine, line) := irqHandlerCalls state.irqRoutines entry.memory entry.argument
    some (line, routine, { state with pics := picSendEoi (line.setWidth 8) acked })
  else none

/-- What happens, a delivery with the line that it acknowledges and the routine it calls. -/
inductive InterruptEvent where
  | raise (line : Fin 16)
  | withdraw (line : Fin 16)
  | install (line : Fin 16) (handler : Word)
  | uninstall (line : Fin 16)
  | deliver (late : Finset (Fin 8)) (line : Word) (routine : Option Word)

def interrupts (linkage : Linkage) : TransitionSystem Interrupts InterruptEvent where
  Init state := ∃ idt pics, state = installInterrupts linkage idt pics
  Step before event after :=
    match event with
    | .raise line => after = { before with pics := before.pics.raise line }
    | .withdraw line => after = { before with pics := before.pics.withdraw line }
    | .install line handler => after = irqInstallHandler before (BitVec.ofNat 32 line.val) handler
    | .uninstall line => after = irqUninstallHandler before (BitVec.ofNat 32 line.val)
    | .deliver late line routine => ∃ machine returnAddress,
        Arch.deliver linkage machine returnAddress late before = some (line, routine, after)

/-- The routine of a line after the events: the one installed last, if it was not removed. -/
def routineAfter (events : List InterruptEvent) (line : Fin 16) : Word :=
  events.foldl (fun routine event =>
    match event with
    | .install other handler => if other = line then handler else routine
    | .uninstall other => if other = line then 0 else routine
    | _ => routine) 0

/-! ### One delivery -/

section Delivery

variable {linkage : Linkage}

/-- The stub of a line shows `irq_handler` that line. -/
theorem irqHandlerCalls_entry (irqHandler : Word) (line : Fin 16) (irqRoutines : Word → Word)
    (machine : Machine) (returnAddress handler : Word) :
    let entry := (irqStub irqHandler line).entry returnAddress
      (machine.accept kernelCode handler none)
    entry.eip = irqHandler ∧
      irqHandlerCalls irqRoutines entry.memory entry.argument =
        (if irqRoutines (BitVec.ofNat 32 line.val) ≠ 0 then
          some (irqRoutines (BitVec.ofNat 32 line.val)) else none, BitVec.ofNat 32 line.val) := by
  obtain ⟨selectors, selects, target, _, argument, _, frame⟩ :=
    irqEntry_argument machine irqHandler returnAddress handler line
  refine ⟨target, @irqHandlerCalls_eq _ machine line _ irqRoutines ?_⟩
  exact argument ▸ shows_of_stacked selects frame

/-- Between interrupts: the table is the installed one and nothing is in service. -/
structure Interrupts.Idle (linkage : Linkage) (state : Interrupts) : Prop where
  idt : ∃ idt, state.idt = installedIdt linkage.isr linkage.irq idt
  pics : ∃ primary secondary, state.pics = idlePics primary secondary

/-- Whatever is interrupted, the delivery reaches the routine of the line that the
controllers serve, and they are idle again. -/
theorem Interrupts.Idle.deliver {state : Interrupts} (idle : state.Idle linkage) (machine : Machine)
    (returnAddress : Word) (late : Finset (Fin 8)) :
    ∃ line after, Arch.deliver linkage machine returnAddress late state =
        some (BitVec.ofNat 32 line.val,
          if state.irqRoutines (BitVec.ofNat 32 line.val) ≠ 0 then
            some (state.irqRoutines (BitVec.ofNat 32 line.val)) else none, after) ∧
      Serves state.pics late line after.pics ∧ after.Idle linkage ∧
      after.irqRoutines = state.irqRoutines := by
  obtain ⟨⟨idt, table⟩, primary, secondary, pics⟩ := idle
  obtain ⟨line, acked, primary', secondary', answer, ended, serves⟩ :=
    service primary secondary late
  have vector : (BitVec.ofNat 8 (32 + line.val)).toNat = 32 + line.val := by
    rw [BitVec.toNat_ofNat]
    omega
  have gate : fetchGate state.idt.image idtLimit (BitVec.ofNat 8 (32 + line.val)) =
      some ⟨kernelCode, linkage.irq line⟩ := by
    apply fetchGate_of_gateEntry
    rw [table, vector, installedIdt_irq]
  have number : (BitVec.ofNat 32 line.val).setWidth 8 = BitVec.ofNat 8 line.val := by
    apply BitVec.eq_of_toNat_eq
    rw [BitVec.toNat_setWidth, BitVec.toNat_ofNat, BitVec.toNat_ofNat]
    omega
  obtain ⟨target, calls⟩ := irqHandlerCalls_entry linkage.irqHandler line state.irqRoutines machine
    returnAddress (linkage.irq line)
  refine ⟨line, { state with pics := idlePics primary' secondary' }, ?_, ?_, ?_, rfl⟩
  · rw [← pics] at answer
    simp only [Arch.deliver, answer, gate, linkage.linked, Option.bind_eq_bind, Option.bind_some,
      if_pos target, calls, number, ended]
  · rw [pics]
    exact serves
  · exact ⟨⟨idt, table⟩, primary', secondary', rfl⟩

theorem idlePics_raise (primary secondary : Finset (Fin 8)) (line : Fin 16) :
    ∃ primary' secondary',
      (idlePics primary secondary).raise line = idlePics primary' secondary' := by
  unfold Pics.raise
  split
  · exact ⟨_, secondary, rfl⟩
  · exact ⟨primary, _, rfl⟩

theorem idlePics_withdraw (primary secondary : Finset (Fin 8)) (line : Fin 16) :
    ∃ primary' secondary',
      (idlePics primary secondary).withdraw line = idlePics primary' secondary' := by
  unfold Pics.withdraw
  split
  · exact ⟨_, secondary, rfl⟩
  · exact ⟨primary, _, rfl⟩

theorem Interrupts.Idle.step {before after : Interrupts} {event : InterruptEvent}
    (idle : before.Idle linkage) (step : (interrupts linkage).Step before event after) :
    after.Idle linkage := by
  obtain ⟨table, primary, secondary, pics⟩ := idle
  cases event with
  | raise line =>
      obtain rfl := step
      obtain ⟨primary', secondary', raised⟩ := idlePics_raise primary secondary line
      exact ⟨table, primary', secondary', by rw [← raised, ← pics]⟩
  | withdraw line =>
      obtain rfl := step
      obtain ⟨primary', secondary', withdrawn⟩ := idlePics_withdraw primary secondary line
      exact ⟨table, primary', secondary', by rw [← withdrawn, ← pics]⟩
  | install line handler =>
      obtain rfl := step
      exact ⟨table, primary, secondary, pics⟩
  | uninstall line =>
      obtain rfl := step
      exact ⟨table, primary, secondary, pics⟩
  | deliver late line routine =>
      obtain ⟨machine, returnAddress, delivered⟩ := step
      have before : before.Idle linkage := ⟨table, primary, secondary, pics⟩
      obtain ⟨_, last, result, _, idle, _⟩ := before.deliver machine returnAddress late
      rw [delivered, Option.some.injEq, Prod.mk.injEq, Prod.mk.injEq] at result
      rw [result.2.2]
      exact idle

/-! ### Runs -/

theorem idle_of_init {state : Interrupts} (initial : (interrupts linkage).Init state) :
    state.Idle linkage := by
  obtain ⟨idt, pics, rfl⟩ := initial
  exact ⟨⟨idt, rfl⟩, ∅, ∅, irqInstall_eq pics⟩

theorem reachable_idle {state : Interrupts} (reachable : (interrupts linkage).Reachable state) :
    state.Idle linkage :=
  reachable.invariant _ (fun _ initial => idle_of_init initial) fun _ _ _ _ idle step => idle.step step

theorem routineAfter_concat (events : List InterruptEvent) (event : InterruptEvent) (line : Fin 16) :
    routineAfter (events ++ [event]) line =
      match event with
      | .install other handler => if other = line then handler else routineAfter events line
      | .uninstall other => if other = line then 0 else routineAfter events line
      | _ => routineAfter events line := by
  rw [routineAfter, List.foldl_append]
  cases event <;> rfl

theorem ofNat_line_inj {left right : Fin 16} :
    BitVec.ofNat 32 left.val = BitVec.ofNat 32 right.val ↔ left = right := by
  revert left right
  decide

/-- A step changes the routines as the events say. -/
theorem step_irqRoutines {before after : Interrupts} {event : InterruptEvent}
    (idle : before.Idle linkage) (step : (interrupts linkage).Step before event after)
    {events : List InterruptEvent}
    (earlier : ∀ line : Fin 16,
      before.irqRoutines (BitVec.ofNat 32 line.val) = routineAfter events line) (line : Fin 16) :
    after.irqRoutines (BitVec.ofNat 32 line.val) = routineAfter (events ++ [event]) line := by
  rw [routineAfter_concat]
  cases event with
  | raise other =>
      obtain rfl := step
      exact earlier line
  | withdraw other =>
      obtain rfl := step
      exact earlier line
  | install other handler =>
      obtain rfl := step
      simp only [irqInstallHandler, Function.update_apply, ofNat_line_inj, earlier, eq_comm]
  | uninstall other =>
      obtain rfl := step
      simp only [irqUninstallHandler, Function.update_apply, ofNat_line_inj, earlier, eq_comm]
  | deliver late number routine =>
      obtain ⟨machine, returnAddress, delivered⟩ := step
      obtain ⟨_, last, result, _, _, kept⟩ := idle.deliver machine returnAddress late
      rw [delivered, Option.some.injEq, Prod.mk.injEq, Prod.mk.injEq] at result
      rw [result.2.2, kept]
      exact earlier line

theorem run_irqRoutines {before after : Interrupts} {events earlier : List InterruptEvent}
    (run : (interrupts linkage).Run before events after) (idle : before.Idle linkage)
    (routines : ∀ line : Fin 16,
      before.irqRoutines (BitVec.ofNat 32 line.val) = routineAfter earlier line) :
    after.Idle linkage ∧ ∀ line : Fin 16,
      after.irqRoutines (BitVec.ofNat 32 line.val) = routineAfter (earlier ++ events) line := by
  induction run generalizing earlier with
  | nil =>
      rw [List.append_nil]
      exact ⟨idle, routines⟩
  | @cons _ _ _ event rest step _ inductionHypothesis =>
      rw [show earlier ++ event :: rest = (earlier ++ [event]) ++ rest by simp]
      exact inductionHypothesis (idle.step step) (step_irqRoutines idle step routines)

/-- After any run of requests, withdrawals, installations and deliveries nothing is in
service, and the next delivery, whatever it interrupts, calls the routine that was last
installed for the line that the controllers serve. -/
theorem delivery_after_run {start state : Interrupts} {events : List InterruptEvent}
    (initial : (interrupts linkage).Init start)
    (run : (interrupts linkage).Run start events state) :
    state.pics.primary.inService = ∅ ∧ state.pics.secondary.inService = ∅ ∧
      ∀ machine returnAddress late, ∃ line after,
        deliver linkage machine returnAddress late state =
          some (BitVec.ofNat 32 line.val,
            if routineAfter events line ≠ 0 then some (routineAfter events line) else none, after) ∧
        Serves state.pics late line after.pics := by
  have noRoutines : ∀ line : Fin 16,
      start.irqRoutines (BitVec.ofNat 32 line.val) = routineAfter [] line := by
    obtain ⟨_, _, rfl⟩ := initial
    exact fun _ => rfl
  obtain ⟨idle, routines⟩ := run_irqRoutines run (idle_of_init initial) noRoutines
  obtain ⟨primary, secondary, pics⟩ := idle.pics
  refine ⟨by rw [pics]; rfl, by rw [pics]; rfl, fun machine returnAddress late => ?_⟩
  obtain ⟨line, after, delivered, serves, _, _⟩ := idle.deliver machine returnAddress late
  rw [routines line, List.nil_append] at delivered
  exact ⟨line, after, delivered, serves⟩

/-- Stubs sixteen bytes apart. -/
def bootLinkage : Linkage where
  isr vector := BitVec.ofNat 32 (0x10000 + 16 * vector.val)
  irq line := BitVec.ofNat 32 (0x11000 + 16 * line.val)
  irqHandler := 0x12000
  stubAt address :=
    ((List.finRange 16).find? fun line => address = BitVec.ofNat 32 (0x11000 + 16 * line.val)).map
      (irqStub 0x12000)
  linked line := by
    have found : ∀ line : Fin 16, ((List.finRange 16).find? fun other =>
        BitVec.ofNat 32 (0x11000 + 16 * line.val) = BitVec.ofNat 32 (0x11000 + 16 * other.val)) =
          some line := by
      decide
    rw [found line, Option.map_some]

/-- The controllers before anything is written to them. -/
def bootPics : Pics := ⟨⟨.ready, 0, 0, 0, 0, 0xFF, ∅, ∅⟩, ⟨.ready, 0, 0, 0, 0, 0xFF, ∅, ∅⟩⟩

/-- A key is pressed behind the installation of a routine for line 1. -/
theorem delivery_after_run_key :
    ∃ state, (interrupts bootLinkage).Run
        (installInterrupts bootLinkage (fun _ => ⟨0, 0, 0, 0, 0⟩) bootPics)
        [.install 1 0x13000, .raise 1] state ∧
      ∃ line after, deliver bootLinkage staleMachine 0 ∅ state =
          some (BitVec.ofNat 32 line.val,
            if routineAfter [.install 1 0x13000, .raise 1] line ≠ 0 then
              some (routineAfter [.install 1 0x13000, .raise 1] line) else none, after) ∧
        Serves state.pics ∅ line after.pics := by
  have run : (interrupts bootLinkage).Run
      (installInterrupts bootLinkage (fun _ => ⟨0, 0, 0, 0, 0⟩) bootPics)
      [.install 1 0x13000, .raise 1] _ := .cons rfl (.cons rfl (.nil _))
  exact ⟨_, run, (delivery_after_run ⟨_, _, rfl⟩ run).2.2 _ 0 ∅⟩

/-! ### Quiet devices -/

/-- The lines of devices in the order of service. -/
def serviceOrder : List (Fin 16) :=
  let lines := List.finRange 16
  lines.filter (·.val < 2) ++ lines.filter (8 ≤ ·.val) ++
    lines.filter fun line => 2 < line.val ∧ line.val < 8

/-- The lines that the deliveries acknowledged. -/
def acknowledged (events : List InterruptEvent) : List Word :=
  events.filterMap fun event =>
    match event with
    | .deliver _ line _ => some line
    | _ => none

theorem serviceOrder_sorted : serviceOrder.Pairwise fun left right => rank left < rank right := by
  decide

theorem mem_serviceOrder : ∀ line : Fin 16, line ≠ 2 → line ∈ serviceOrder := by decide

/-- The first line of the order that waits is taken out of it. -/
theorem filter_serviceOrder {lines : Finset (Fin 16)} {line : Fin 16} (member : line ∈ lines)
    (device : line ≠ 2) (first : ∀ other ∈ lines, rank line ≤ rank other) :
    serviceOrder.filter (· ∈ lines) = line :: serviceOrder.filter (· ∈ lines.erase line) := by
  obtain ⟨front, back, split⟩ := List.append_of_mem (mem_serviceOrder line device)
  have sorted := serviceOrder_sorted
  rw [split, List.pairwise_append, List.pairwise_cons] at sorted
  obtain ⟨_, ⟨later, _⟩, earlier⟩ := sorted
  have noneBefore : ∀ others : Finset (Fin 16), others ⊆ lines →
      front.filter (· ∈ others) = [] := by
    intro others within
    rw [List.filter_eq_nil_iff]
    intro other inFront
    rw [decide_eq_true_iff]
    intro waits
    have before := earlier other inFront line List.mem_cons_self
    exact absurd (first other (within waits)) (Nat.not_le.mpr before)
  have sameBehind : back.filter (· ∈ lines.erase line) = back.filter (· ∈ lines) := by
    apply List.filter_congr
    intro other inBack
    have different : other ≠ line := by
      rintro rfl
      exact absurd (later other inBack) (lt_irrefl _)
    simp [different]
  rw [split, List.filter_append, List.filter_append, noneBefore lines (Finset.Subset.refl _),
    noneBefore _ (Finset.erase_subset _ _), List.nil_append, List.nil_append,
    List.filter_cons_of_pos (by simpa using member), List.filter_cons_of_neg (by simp), sameBehind]

theorem two_notMem_pending (pics : Pics) : (2 : Fin 16) ∉ pics.pending := by
  rw [show (2 : Fin 16) = primaryLine 2 from rfl, primaryLine_mem_pending]
  exact fun both => both.1 rfl

/-- Without late withdrawals a waiting line is served. -/
theorem Serves.waiting {before after : Pics} {line : Fin 16} (serves : Serves before ∅ line after)
    (waits : before.pending.Nonempty) :
    line ∈ before.pending ∧ (∀ other ∈ before.pending, rank line ≤ rank other) ∧
      after.pending = before.pending.erase line := by
  have all : before.remaining ∅ = before.pending := by
    rw [Pics.remaining, Finset.image_empty, Finset.sdiff_empty]
  obtain ⟨choice, pending⟩ := serves
  rw [all] at choice pending
  rcases choice with ⟨member, first⟩ | ⟨_, none⟩ | ⟨_, ⟨n, here⟩, nowhere⟩
  · exact ⟨member, first, pending⟩
  · exact absurd none waits.ne_empty
  · exact absurd here (nowhere n)

/-- When the devices are quiet, the deliveries serve the lines that wait, each once, in the
order of service, and then none waits. -/
theorem deliveries_in_order {before after : Interrupts} {events : List InterruptEvent}
    (reachable : (interrupts linkage).Reachable before)
    (quiet : ∀ event ∈ events, ∃ line routine, event = .deliver ∅ line routine)
    (enough : events.length = (serviceOrder.filter (· ∈ before.pics.pending)).length)
    (run : (interrupts linkage).Run before events after) :
    acknowledged events = (serviceOrder.filter (· ∈ before.pics.pending)).map
        (fun line => BitVec.ofNat 32 line.val) ∧ after.pics.pending = ∅ := by
  induction run with
  | nil state =>
      have none := List.eq_nil_of_length_eq_zero enough.symm
      refine ⟨by rw [none]; rfl, ?_⟩
      rw [Finset.eq_empty_iff_forall_notMem]
      intro line waits
      have device : line ≠ 2 := fun same => two_notMem_pending _ (same ▸ waits)
      rw [List.filter_eq_nil_iff] at none
      exact absurd (none line (mem_serviceOrder line device)) (by simp [waits])
  | @cons before middle _ event rest step run inductionHypothesis =>
      obtain ⟨number, routine, rfl⟩ := quiet event List.mem_cons_self
      obtain ⟨machine, returnAddress, delivered⟩ := step
      have waits : before.pics.pending.Nonempty := by
        rw [Finset.nonempty_iff_ne_empty]
        intro none
        simp [none] at enough
      obtain ⟨line, last, result, serves, _, _⟩ :=
        (reachable_idle reachable).deliver machine returnAddress ∅
      rw [delivered, Option.some.injEq, Prod.mk.injEq, Prod.mk.injEq] at result
      obtain ⟨rfl, _, rfl⟩ := result
      obtain ⟨member, first, pending⟩ := serves.waiting waits
      have device : line ≠ 2 := fun same => two_notMem_pending _ (same ▸ member)
      have split := filter_serviceOrder member device first
      rw [split, List.length_cons, List.length_cons, Nat.succ_inj, ← pending] at enough
      obtain ⟨others, none⟩ := inductionHypothesis
        (reachable.step (show (interrupts linkage).Step before (.deliver ∅ _ routine) middle from
          ⟨machine, returnAddress, delivered⟩))
        (fun later inRest => quiet later (List.mem_cons_of_mem _ inRest)) enough
      refine ⟨?_, none⟩
      rw [split, List.map_cons, ← pending, ← others]
      rfl

/-- Line 9 is served before line 3. -/
theorem deliveries_in_order_two :
    ∃ before after events, (interrupts bootLinkage).Run before events after ∧
      acknowledged events = [9, 3] ∧ after.pics.pending = ∅ := by
  have start : (interrupts bootLinkage).Reachable
      (installInterrupts bootLinkage (fun _ => ⟨0, 0, 0, 0, 0⟩) bootPics) :=
    .init ⟨_, _, rfl⟩
  have raised : (interrupts bootLinkage).Run
      (installInterrupts bootLinkage (fun _ => ⟨0, 0, 0, 0, 0⟩) bootPics) [.raise 3, .raise 9] _ :=
    .cons rfl (.cons rfl (.nil _))
  have reachable := raised.reachable start
  obtain ⟨first, middle, firstDelivery, _, idle, _⟩ :=
    (reachable_idle reachable).deliver staleMachine 0 ∅
  obtain ⟨second, last, secondDelivery, _, _, _⟩ :=
    idle.deliver staleMachine 0 ∅
  have run : (interrupts bootLinkage).Run _ [.deliver ∅ _ _, .deliver ∅ _ _] last :=
    .cons ⟨_, _, firstDelivery⟩ (.cons ⟨_, _, secondDelivery⟩ (.nil last))
  have lines : serviceOrder.filter (· ∈ (((irqInstall bootPics).raise 3).raise 9).pending) = [9, 3] := by
    decide
  obtain ⟨served, none⟩ :=
    deliveries_in_order reachable (by simp) (congrArg List.length lines).symm run
  exact ⟨_, _, _, run, served.trans (congrArg _ lines), none⟩

end Delivery

end BrainDance.Arch
