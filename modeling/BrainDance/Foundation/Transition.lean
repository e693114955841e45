import Mathlib.Data.List.Basic
import Mathlib.Logic.Relation

/-!
Owns labelled transition systems: reachability, the invariant rule, restriction
to the labels a caller may use or to the steps that meet a condition, histories
kept beside the state, and runs with forward simulation. Beside it stands the
simulation between functions that may have no result, which composition and loops keep.

`Reachable.invariant` packages the induction over runs. Its step case may use
that the state before the step is itself reachable, so invariants proved
earlier are available to later ones.
-/

namespace BrainDance.Foundation

universe u v w x y z t

structure TransitionSystem (State : Type u) (Label : Type v) where
  Init : State → Prop
  Step : State → Label → State → Prop

namespace TransitionSystem

variable {State : Type u} {Label : Type v} {Abstract : Type w} {History : Type x}
  {system : TransitionSystem State Label}

inductive Reachable (system : TransitionSystem State Label) : State → Prop where
  | init {state : State} (initial : system.Init state) : Reachable system state
  | step {before after : State} {label : Label} (earlier : Reachable system before)
      (step : system.Step before label after) : Reachable system after

/-- The invariant rule. -/
theorem Reachable.invariant (Invariant : State → Prop)
    (atStart : ∀ state, system.Init state → Invariant state)
    (preserved : ∀ before label after, system.Reachable before → Invariant before →
      system.Step before label after → Invariant after)
    {state : State} (reachable : system.Reachable state) : Invariant state := by
  induction reachable with
  | init initial => exact atStart _ initial
  | step earlier step inductionHypothesis =>
      exact preserved _ _ _ earlier inductionHypothesis step

/-- The system whose steps carry only allowed labels. -/
def restrict (system : TransitionSystem State Label) (Allowed : Label → Prop) :
    TransitionSystem State Label where
  Init := system.Init
  Step before label after := Allowed label ∧ system.Step before label after

theorem Reachable.of_restrict {Allowed : Label → Prop} {state : State}
    (reachable : (system.restrict Allowed).Reachable state) : system.Reachable state := by
  induction reachable with
  | init initial => exact .init initial
  | step _ step inductionHypothesis => exact .step inductionHypothesis step.2

/-- The system whose steps meet a condition on the state before and the label. -/
def guard (system : TransitionSystem State Label) (Allowed : State → Label → Prop) :
    TransitionSystem State Label where
  Init := system.Init
  Step before label after := Allowed before label ∧ system.Step before label after

theorem Reachable.of_guard {Allowed : State → Label → Prop} {state : State}
    (reachable : (system.guard Allowed).Reachable state) : system.Reachable state := by
  induction reachable with
  | init initial => exact .init initial
  | step _ step inductionHypothesis => exact .step inductionHypothesis step.2

/-- The system that keeps a history of its run beside the state. -/
def withHistory (system : TransitionSystem State Label) (start : History)
    (record : State → State → History → History) :
    TransitionSystem (State × History) Label where
  Init state := system.Init state.1 ∧ state.2 = start
  Step before label after :=
    system.Step before.1 label after.1 ∧ after.2 = record before.1 after.1 before.2

section Histories

variable {start : History} {record : State → State → History → History}

/-- Every run has a history: keeping one excludes no state. -/
theorem Reachable.withHistory {state : State} (reachable : system.Reachable state) :
    ∃ history, (system.withHistory start record).Reachable (state, history) := by
  induction reachable with
  | init initial => exact ⟨start, .init ⟨initial, rfl⟩⟩
  | @step before after _ _ step inductionHypothesis =>
      obtain ⟨history, earlier⟩ := inductionHypothesis
      exact ⟨record before after history, .step earlier ⟨step, rfl⟩⟩

end Histories

/-- Successive steps with the labels they carry. -/
inductive Run (system : TransitionSystem State Label) : State → List Label → State → Prop where
  | nil (state : State) : Run system state [] state
  | cons {before middle after : State} {label : Label} {rest : List Label}
      (step : system.Step before label middle) (run : Run system middle rest after) :
      Run system before (label :: rest) after

theorem Run.append {before middle after : State} {first second : List Label}
    (left : system.Run before first middle) (right : system.Run middle second after) :
    system.Run before (first ++ second) after := by
  induction left with
  | nil => exact right
  | cons step _ inductionHypothesis => exact .cons step (inductionHypothesis right)

theorem Run.split {before after : State} {first second : List Label}
    (run : system.Run before (first ++ second) after) :
    ∃ middle, system.Run before first middle ∧ system.Run middle second after := by
  induction first generalizing before with
  | nil => exact ⟨before, .nil before, run⟩
  | cons label first inductionHypothesis =>
      cases run with
      | cons step rest =>
          obtain ⟨middle, left, right⟩ := inductionHypothesis rest
          exact ⟨middle, .cons step left, right⟩

theorem Run.reachable {before after : State} {labels : List Label}
    (run : system.Run before labels after) (start : system.Reachable before) :
    system.Reachable after := by
  induction run with
  | nil => exact start
  | cons step _ inductionHypothesis => exact inductionHypothesis (.step start step)

/-- Forward simulation: a relation to abstract states that every step keeps, when
the abstract state takes the step's label too, relates the ends of a run. -/
theorem Run.simulation (Related : State → Abstract → Prop) (next : Abstract → Label → Abstract)
    (simulates : ∀ before label after abstract, Related before abstract →
      system.Step before label after → Related after (next abstract label))
    {before after : State} {labels : List Label} (run : system.Run before labels after)
    {abstract : Abstract} (start : Related before abstract) :
    Related after (labels.foldl next abstract) := by
  induction run generalizing abstract with
  | nil => exact start
  | cons step _ inductionHypothesis =>
      rw [List.foldl_cons]
      exact inductionHypothesis (simulates _ _ _ _ start step)

/-- Refinement: where the abstract system can follow every step under its label, it can
follow a run. -/
theorem Run.refines {abstract : TransitionSystem Abstract Label} (Related : State → Abstract → Prop)
    (follows : ∀ before label after image, Related before image → system.Step before label after →
      ∃ next, abstract.Step image label next ∧ Related after next)
    {before after : State} {labels : List Label} (run : system.Run before labels after)
    {image : Abstract} (start : Related before image) :
    ∃ last, abstract.Run image labels last ∧ Related after last := by
  induction run generalizing image with
  | nil => exact ⟨image, .nil image, start⟩
  | cons step _ inductionHypothesis =>
      obtain ⟨next, first, related⟩ := follows _ _ _ _ start step
      obtain ⟨last, rest, final⟩ := inductionHypothesis related
      exact ⟨last, .cons first rest, final⟩

end TransitionSystem

/-! ### Functions that may have no result -/

section Following

variable {State : Type u} {Shadow : Type v} {Middle : Type w} {MiddleShadow : Type x}
  {Result : Type y} {ResultShadow : Type z} {Item : Type t}

/-- `shadow` has a result wherever `step` has one, and on related arguments the results are
related too. -/
def Follows (Related : State → Shadow → Prop) (Results : Result → ResultShadow → Prop)
    (step : State → Option Result) (shadow : Shadow → Option ResultShadow) : Prop :=
  ∀ state image result, Related state image → step state = some result →
    ∃ after, shadow image = some after ∧ Results result after

namespace Follows

variable {Related : State → Shadow → Prop} {Between : Middle → MiddleShadow → Prop}
  {Results : Result → ResultShadow → Prop}

theorem bind {step : State → Option Middle} {shadow : Shadow → Option MiddleShadow}
    {next : Middle → Option Result} {nextShadow : MiddleShadow → Option ResultShadow}
    (first : Follows Related Between step shadow)
    (second : Follows Between Results next nextShadow) :
    Follows Related Results (fun state => (step state).bind next)
      fun image => (shadow image).bind nextShadow := by
  intro state image result related done
  obtain ⟨middle, stepped, rest⟩ := Option.bind_eq_some_iff.mp done
  obtain ⟨between, shadowed, betweenRelated⟩ := first state image middle related stepped
  obtain ⟨after, final, results⟩ := second middle between result betweenRelated rest
  exact ⟨after, Option.bind_eq_some_iff.mpr ⟨between, shadowed, final⟩, results⟩

/-- A loop follows a loop whose rounds it follows. -/
theorem foldlM {step : State → Item → Option State} {shadow : Shadow → Item → Option Shadow}
    {items : List Item} (each : ∀ item ∈ items,
      Follows Related Related (fun state => step state item) fun image => shadow image item) :
    Follows Related Related (fun state => items.foldlM step state)
      fun image => items.foldlM shadow image := by
  induction items with
  | nil =>
      intro state image result related done
      exact ⟨image, rfl, Option.some.inj done ▸ related⟩
  | cons item items inductionHypothesis =>
      obtain ⟨first, others⟩ := List.forall_mem_cons.mp each
      exact first.bind (inductionHypothesis others)

end Follows

end Following

end BrainDance.Foundation
