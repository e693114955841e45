import Mathlib.Data.List.Infix
import BrainDance.Foundation.Bytes
import BrainDance.Foundation.Transition

/-!
Owns the CPU usage of `kernel/cpu.c`: the two counters, the events that advance them
and the percentage that `cpu_get_usage` makes of them. `timer_handler` counts ticks;
`cpu_idle` counts its returns, and any interrupt makes it return.

Usage is a percentage as long as the returns, times 100 and without their wraps, do
not exceed the ticks by a hundredth or more.
-/

namespace BrainDance.Kernel

open BrainDance.Foundation

/-! ### Model -/

/-- `idle_ticks` and `total_ticks` of `cpu.c`, `timer_ticks` of `timer.c`. -/
structure Counters where
  idleTicks : Word
  totalTicks : Word
  timerTicks : Word
deriving DecidableEq

def cpuTick (counters : Counters) : Counters :=
  { counters with totalTicks := counters.totalTicks + 1 }

def timerHandler (counters : Counters) : Counters :=
  cpuTick { counters with timerTicks := counters.timerTicks + 1 }

/-- The division is of unsigned words; the result is read as an `int`. -/
def cpuGetUsage (counters : Counters) : Int :=
  if counters.totalTicks = 0 then 0
  else (100 - counters.idleTicks * 100 / counters.totalTicks).toInt

/-- Where the shell's loop stands: outside of `cpu_idle`, in its `hlt`, or behind a
`hlt` that an interrupt has ended. -/
inductive Phase where
  | running
  | halted
  | woken
deriving DecidableEq

structure Cpu where
  counters : Counters
  phase : Phase
deriving DecidableEq

/-- An interrupt ends a `hlt`. -/
def Phase.interrupted : Phase → Phase
  | .halted => .woken
  | phase => phase

inductive Event where
  | halt
  | timer
  | keyboard
  | idleReturn
deriving DecidableEq

/-- `hlt` needs a running loop and `idle_ticks++` an ended `hlt`; interrupts come at any
time. -/
def Event.exec (cpu : Cpu) : Event → Option Cpu
  | .halt => if cpu.phase = .running then some { cpu with phase := .halted } else none
  | .timer => some ⟨timerHandler cpu.counters, cpu.phase.interrupted⟩
  | .keyboard => some { cpu with phase := cpu.phase.interrupted }
  | .idleReturn =>
      if cpu.phase = .woken then
        some ⟨{ cpu.counters with idleTicks := cpu.counters.idleTicks + 1 }, .running⟩
      else none

def bootCpu : Cpu := ⟨⟨0, 0, 0⟩, .running⟩

def system : TransitionSystem Cpu Event where
  Init cpu := cpu = bootCpu
  Step before event after := event.exec before = some after

/-! ### One state -/

def IsPercentage (usage : Int) : Prop := 0 ≤ usage ∧ usage ≤ 100

/-- The quotient that is taken from 100 is at most 100. -/
theorem isPercentage_sub_iff (quotient : Word) :
    IsPercentage (100 - quotient).toInt ↔ quotient.toNat ≤ 100 := by
  have below := quotient.isLt
  have hundred : (100 : Word).toNat = 100 := rfl
  rw [IsPercentage, BitVec.toInt_eq_toNat_cond, BitVec.toNat_sub, hundred]
  split <;> omega

theorem cpuGetUsage_percentage_iff (counters : Counters) :
    IsPercentage (cpuGetUsage counters) ↔ counters.totalTicks.toNat = 0 ∨
      counters.idleTicks.toNat * 100 % 2 ^ 32 < 101 * counters.totalTicks.toNat := by
  unfold cpuGetUsage
  by_cases zero : counters.totalTicks = 0
  · simp [zero, IsPercentage]
  · have positive : 0 < counters.totalTicks.toNat := BitVec.toNat_pos_of_ne_zero zero
    rw [if_neg zero, isPercentage_sub_iff, BitVec.toNat_udiv, BitVec.toNat_mul,
      ← Nat.lt_succ_iff, Nat.div_lt_iff_lt_mul positive]
    constructor
    · exact .inr
    · exact fun either => either.resolve_left (Nat.ne_of_gt positive)

/-! ### Runs -/

/-- The timer interrupts of a run. -/
def ticks (events : List Event) : Nat := events.count .timer

/-- The returns from `cpu_idle`. -/
def returns (events : List Event) : Nat := events.count .idleReturn

/-- The returns do not exceed the ticks by a hundredth, where 32 bits hold both. -/
def ReturnsFit (events : List Event) : Prop :=
  ticks events % 2 ^ 32 = 0 ∨
    returns events * 100 % 2 ^ 32 < 101 * (ticks events % 2 ^ 32)

/-- A `hlt` that has ended owes a return. -/
def Phase.owed : Phase → Nat
  | .woken => 1
  | _ => 0

/-- What a step adds to the counters, and that a return needs an interrupt. -/
theorem step_cases {before after : Cpu} {event : Event} (step : system.Step before event after) :
    after.counters.totalTicks = before.counters.totalTicks + BitVec.ofNat 32 (ticks [event]) ∧
      after.counters.idleTicks =
        before.counters.idleTicks + BitVec.ofNat 32 (returns [event]) ∧
      returns [event] + after.phase.owed ≤
        ticks [event] + [event].count .keyboard + before.phase.owed := by
  have woken : before.phase.interrupted.owed ≤ 1 + before.phase.owed := by
    cases before.phase <;> decide
  cases event with
  | halt =>
      obtain ⟨running, same⟩ := Option.ite_none_right_eq_some.mp step
      obtain rfl := Option.some.inj same
      simp [ticks, returns, Phase.owed]
  | timer =>
      obtain rfl := Option.some.inj step
      simpa [ticks, returns, timerHandler, cpuTick] using woken
  | keyboard =>
      obtain rfl := Option.some.inj step
      simpa [ticks, returns] using woken
  | idleReturn =>
      obtain ⟨ended, same⟩ := Option.ite_none_right_eq_some.mp step
      obtain rfl := Option.some.inj same
      simp [ticks, returns, ended, Phase.owed]

section Runs

variable {before after : Cpu} {events : List Event}

theorem run_counters (run : system.Run before events after) :
    after.counters.totalTicks = before.counters.totalTicks + BitVec.ofNat 32 (ticks events) ∧
      after.counters.idleTicks =
        before.counters.idleTicks + BitVec.ofNat 32 (returns events) := by
  induction run with
  | nil => simp [ticks, returns]
  | @cons _ _ _ event rest step _ inductionHypothesis =>
      obtain ⟨total, idle, _⟩ := step_cases step
      have split : event :: rest = [event] ++ rest := rfl
      have ticksSplit : ticks (event :: rest) = ticks [event] + ticks rest := by
        rw [split, ticks, List.count_append, ticks, ticks]
      have returnsSplit : returns (event :: rest) = returns [event] + returns rest := by
        rw [split, returns, List.count_append, returns, returns]
      rw [inductionHypothesis.1, inductionHypothesis.2, total, idle, ticksSplit, returnsSplit,
        BitVec.ofNat_add, BitVec.ofNat_add, BitVec.add_assoc, BitVec.add_assoc]
      exact ⟨rfl, rfl⟩

/-- `cpu_idle` returns at most once for an interrupt. -/
theorem returns_le_interrupts (run : system.Run before events after) :
    returns events + after.phase.owed ≤
      ticks events + events.count .keyboard + before.phase.owed := by
  induction run with
  | nil => simp [ticks, returns]
  | @cons _ _ _ event rest step _ inductionHypothesis =>
      obtain ⟨_, _, owed⟩ := step_cases step
      have split : event :: rest = [event] ++ rest := rfl
      unfold ticks returns at *
      rw [split, List.count_append, List.count_append, List.count_append]
      omega

/-- The usage at the end of a run is a percentage exactly when the returns fit. -/
theorem run_percentage_iff (run : system.Run bootCpu events after) :
    IsPercentage (cpuGetUsage after.counters) ↔ ReturnsFit events := by
  obtain ⟨total, idle⟩ := run_counters run
  have totalNat : after.counters.totalTicks.toNat = ticks events % 2 ^ 32 := by
    rw [total, show bootCpu.counters.totalTicks = 0#32 from rfl, BitVec.zero_add, BitVec.toNat_ofNat]
  have idleNat : after.counters.idleTicks.toNat = returns events % 2 ^ 32 := by
    rw [idle, show bootCpu.counters.idleTicks = 0#32 from rfl, BitVec.zero_add, BitVec.toNat_ofNat]
  rw [cpuGetUsage_percentage_iff, totalNat, idleNat, ReturnsFit, Nat.mod_mul_mod]

/-- The usage is a percentage in every state of a run exactly when the returns fit all
along. -/
theorem percentage_run_iff (run : system.Run bootCpu events after) :
    (∀ earlier, earlier <+: events → ∀ cpu, system.Run bootCpu earlier cpu →
        IsPercentage (cpuGetUsage cpu.counters)) ↔
      ∀ earlier, earlier <+: events → ReturnsFit earlier := by
  constructor
  · rintro always earlier ⟨later, rfl⟩
    obtain ⟨middle, first, _⟩ := run.split
    exact (run_percentage_iff first).mp (always earlier (List.prefix_append _ _) middle first)
  · intro fit earlier isPrefix cpu first
    exact (run_percentage_iff first).mpr (fit earlier isPrefix)

/-- Where only the timer wakes the processor, the usage is a percentage until the
product by 100 wraps. -/
theorem percentage_of_timer_only (run : system.Run bootCpu events after)
    (timerOnly : Event.keyboard ∉ events) (short : ticks events * 100 < 2 ^ 32) :
    IsPercentage (cpuGetUsage after.counters) := by
  have few := returns_le_interrupts run
  rw [List.count_eq_zero.mpr timerOnly, show bootCpu.phase.owed = 0 from rfl] at few
  have ticksMod : ticks events % 2 ^ 32 = ticks events := Nat.mod_eq_of_lt (by omega)
  have returnsMod : returns events * 100 % 2 ^ 32 = returns events * 100 :=
    Nat.mod_eq_of_lt (by omega)
  rw [run_percentage_iff run, ReturnsFit, ticksMod, returnsMod]
  omega

end Runs

def runEvents : List Event → Cpu → Option Cpu
  | [], cpu => some cpu
  | event :: rest, cpu => (event.exec cpu).bind (runEvents rest)

theorem run_of_runEvents {events : List Event} {before after : Cpu}
    (ran : runEvents events before = some after) : system.Run before events after := by
  induction events generalizing before with
  | nil =>
      obtain rfl := Option.some.inj ran
      exact .nil before
  | cons event rest inductionHypothesis =>
      obtain ⟨middle, step, others⟩ := Option.bind_eq_some_iff.mp ran
      exact .cons step (inductionHypothesis others)

/-- A wake-up by the timer. -/
def timerEvents : List Event := [.halt, .timer, .idleReturn]

theorem percentage_run_iff_timer :
    ∃ cpu, system.Run bootCpu timerEvents cpu ∧
      ∀ earlier, earlier <+: timerEvents → ∀ cpu, system.Run bootCpu earlier cpu →
        IsPercentage (cpuGetUsage cpu.counters) := by
  have fits : ∀ earlier ∈ timerEvents.inits, ReturnsFit earlier := by
    unfold ReturnsFit
    decide
  have run := run_of_runEvents (show runEvents timerEvents bootCpu = some _ from rfl)
  refine ⟨_, run, (percentage_run_iff run).mpr fun earlier within => ?_⟩
  exact fits earlier ((List.mem_inits ..).mpr within)

/-- A wake-up by the timer and one by a key. -/
def keyEvents : List Event :=
  [.halt, .timer, .idleReturn, .halt, .keyboard, .idleReturn]

/-- Behind them it is 100 - 200 / 1. -/
theorem percentage_run_fails :
    ¬ ∀ events cpu, system.Run bootCpu events cpu → IsPercentage (cpuGetUsage cpu.counters) := by
  intro always
  have usage := always keyEvents ⟨⟨2, 1, 1⟩, .running⟩ (run_of_runEvents (by decide))
  exact absurd usage.1 (by decide)

end BrainDance.Kernel
