import BrainDance.Foundation.Transition

/-!
Owns a mailbox of one place, which a writer overwrites at any moment and a reader empties
in three accesses: it tests the place, loads it and clears it. What the reader takes is
told from the order of the accesses alone: a value that is stored is taken exactly when
the next access that is not a test is a load.

Zero is the empty place.
-/

namespace BrainDance.Foundation

universe u

inductive MailAccess (Value : Type u) where
  | store (value : Value)
  | test
  | load
  | clear

/-- Where the reader stands: before its test, behind it, or behind its load. -/
inductive Reader (Value : Type u) where
  | resting
  | tested
  | loaded (value : Value)

structure Mailbox (Value : Type u) where
  place : Value
  reader : Reader Value
  taken : List Value

namespace Mailbox

variable {Value : Type u}

/-- The accesses that touch the place. -/
def effective (accesses : List (MailAccess Value)) : List (MailAccess Value) :=
  accesses.filter fun access =>
    match access with
    | .test => false
    | _ => true

theorem effective_concat (accesses : List (MailAccess Value)) (access : MailAccess Value) :
    effective (accesses ++ [access]) = effective accesses ++ effective [access] :=
  List.filter_append _ _

variable [Zero Value] [DecidableEq Value]

/-- The value as a list, nothing for zero. -/
def letter (value : Value) : List Value := if value = 0 then [] else [value]

@[simp] theorem letter_zero : letter (0 : Value) = [] := if_pos rfl

/-- The test goes on only behind a value; what was loaded is taken at the clear. -/
def exec (mailbox : Mailbox Value) : MailAccess Value → Option (Mailbox Value)
  | .store value => some { mailbox with place := value }
  | .test =>
      match mailbox.reader with
      | .resting => some { mailbox with reader := if mailbox.place = 0 then .resting else .tested }
      | _ => none
  | .load =>
      match mailbox.reader with
      | .tested => some { mailbox with reader := .loaded mailbox.place }
      | _ => none
  | .clear =>
      match mailbox.reader with
      | .loaded value =>
          some { place := 0, reader := .resting, taken := mailbox.taken ++ letter value }
      | _ => none

/-- The runs of an empty mailbox. -/
def system : TransitionSystem (Mailbox Value) (MailAccess Value) where
  Init mailbox := mailbox = ⟨0, .resting, []⟩
  Step before access after := before.exec access = some after

/-- What the reader has loaded and not yet taken. -/
def inHand (mailbox : Mailbox Value) : List Value :=
  match mailbox.reader with
  | .loaded value => letter value
  | _ => []

/-! ### The order of accesses -/

/-- A stored value and the access behind it: the value, if that is a load. -/
def fate (access : MailAccess Value) (next : Option (MailAccess Value)) : List Value :=
  match access, next with
  | .store value, some .load => letter value
  | _, _ => []

/-- The values that are loaded before anything else touches the place. -/
def loadedFirst : List (MailAccess Value) → List Value
  | [] => []
  | access :: rest => fate access rest.head? ++ loadedFirst rest

/-- Everything that was stored. -/
def stored (accesses : List (MailAccess Value)) : List Value :=
  accesses.flatMap fun access =>
    match access with
    | .store value => letter value
    | _ => []

theorem loadedFirst_concat (accesses : List (MailAccess Value)) (last : MailAccess Value) :
    loadedFirst (accesses ++ [last]) =
      loadedFirst accesses ++ (accesses.getLast?.elim [] fun access => fate access (some last)) := by
  induction accesses with
  | nil =>
      cases last <;> rfl
  | cons access rest inductionHypothesis =>
      rw [List.cons_append, loadedFirst, inductionHypothesis, loadedFirst]
      cases rest with
      | nil =>
          cases access <;> simp [loadedFirst, fate]
      | cons next later => simp

/-- Nothing is invented, repeated or put in another order. -/
theorem loadedFirst_sublist (accesses : List (MailAccess Value)) :
    (loadedFirst accesses).Sublist (stored accesses) := by
  induction accesses with
  | nil => exact List.Sublist.refl []
  | cons access rest inductionHypothesis =>
      rw [loadedFirst, stored, List.flatMap_cons]
      refine List.Sublist.append ?_ inductionHypothesis
      cases access with
      | store value =>
          cases rest.head? with
          | none => exact List.nil_sublist _
          | some next =>
              cases next with
              | load => exact List.Sublist.refl _
              | _ => exact List.nil_sublist _
      | _ => exact List.nil_sublist _

/-! ### Runs -/

/-- What the place holds and where the reader stands, from the last access. -/
structure Follows (mailbox : Mailbox Value) (accesses : List (MailAccess Value)) : Prop where
  taken : mailbox.taken ++ mailbox.inHand = loadedFirst (effective accesses)
  stored : ∀ value, (effective accesses).getLast? = some (.store value) → mailbox.place = value
  emptied : (effective accesses).getLast? = none ∨ (effective accesses).getLast? = some .clear →
    mailbox.place = 0
  loaded : (effective accesses).getLast? = some .load → ∃ value, mailbox.reader = .loaded value

/-- Only a load takes something. -/
theorem loadedFirst_concat_of_not_load (accesses : List (MailAccess Value))
    {last : MailAccess Value} (notLoad : last ≠ .load) :
    loadedFirst (accesses ++ [last]) = loadedFirst accesses := by
  have none : (accesses.getLast?.elim [] fun access => fate access (some last)) = [] := by
    cases accesses.getLast? with
    | none => rfl
    | some access =>
        cases access <;> cases last <;> first | rfl | exact absurd rfl notLoad
  rw [loadedFirst_concat, none, List.append_nil]

theorem Follows.store {mailbox : Mailbox Value} {accesses : List (MailAccess Value)}
    (follows : mailbox.Follows accesses) (value : Value) :
    Follows { mailbox with place := value } (accesses ++ [.store value]) := by
  have split := effective_concat accesses (.store value)
  rw [show effective [MailAccess.store value] = [.store value] from rfl] at split
  refine ⟨?_, ?_, ?_, ?_⟩
  · rw [split, loadedFirst_concat_of_not_load _ (by simp)]
    exact follows.taken
  · intro other last
    rw [split, List.getLast?_concat] at last
    exact MailAccess.store.inj (Option.some.inj last)
  · simp [split]
  · simp [split]

/-- A load finds the value of the last store, or an empty place. -/
theorem Follows.load {mailbox : Mailbox Value} {accesses : List (MailAccess Value)}
    (follows : mailbox.Follows accesses) (tested : mailbox.reader = .tested) :
    Follows { mailbox with reader := .loaded mailbox.place } (accesses ++ [.load]) := by
  have split := effective_concat accesses .load
  rw [show effective [(MailAccess.load : MailAccess Value)] = [.load] from rfl] at split
  have taken := follows.taken
  rw [inHand, tested, List.append_nil] at taken
  refine ⟨?_, ?_, ?_, fun _ => ⟨mailbox.place, rfl⟩⟩
  · have here : letter mailbox.place =
        (effective accesses).getLast?.elim [] fun access => fate access (some .load) := by
      cases last : (effective accesses).getLast? with
      | none =>
          rw [follows.emptied (Or.inl last)]
          exact letter_zero
      | some access =>
          cases access with
          | store value =>
              rw [follows.stored value last]
              rfl
          | test =>
              have member := List.mem_filter.mp (List.mem_of_getLast? last)
              exact absurd member.2 (by simp)
          | load =>
              obtain ⟨value, loaded⟩ := follows.loaded last
              rw [tested] at loaded
              contradiction
          | clear =>
              rw [follows.emptied (Or.inr last)]
              exact letter_zero
    rw [split, loadedFirst_concat, ← here, ← taken]
    rfl
  · simp [split]
  · simp [split]

theorem Follows.clear {mailbox : Mailbox Value} {accesses : List (MailAccess Value)}
    (follows : mailbox.Follows accesses) {value : Value} (loaded : mailbox.reader = .loaded value) :
    Follows ⟨0, .resting, mailbox.taken ++ letter value⟩ (accesses ++ [.clear]) := by
  have split := effective_concat accesses .clear
  rw [show effective [(MailAccess.clear : MailAccess Value)] = [.clear] from rfl] at split
  have taken := follows.taken
  rw [inHand, loaded] at taken
  refine ⟨?_, ?_, fun _ => rfl, ?_⟩
  · rw [split, loadedFirst_concat_of_not_load _ (by simp), ← taken, inHand, List.append_nil]
  · simp [split]
  · simp [split]

theorem Follows.test {mailbox : Mailbox Value} {accesses : List (MailAccess Value)}
    (follows : mailbox.Follows accesses) (resting : mailbox.reader = .resting) :
    Follows { mailbox with reader := if mailbox.place = 0 then .resting else .tested }
      (accesses ++ [.test]) := by
  have split := effective_concat accesses .test
  rw [show effective [(MailAccess.test : MailAccess Value)] = [] from rfl, List.append_nil] at split
  have taken := follows.taken
  rw [inHand, resting] at taken
  refine ⟨?_, ?_, ?_, ?_⟩
  · rw [split, ← taken, inHand]
    split <;> simp_all
  · rw [split]
    exact follows.stored
  · rw [split]
    exact follows.emptied
  · rw [split]
    intro last
    obtain ⟨value, loaded⟩ := follows.loaded last
    rw [resting] at loaded
    contradiction

theorem Follows.step {before after : Mailbox Value} {accesses : List (MailAccess Value)}
    {access : MailAccess Value} (follows : before.Follows accesses)
    (step : before.exec access = some after) : after.Follows (accesses ++ [access]) := by
  cases access with
  | store value =>
      obtain rfl := Option.some.inj step
      exact follows.store value
  | test =>
      cases reader : before.reader with
      | resting =>
          rw [exec, reader] at step
          obtain rfl := Option.some.inj step
          exact follows.test reader
      | _ => simp [exec, reader] at step
  | load =>
      cases reader : before.reader with
      | tested =>
          rw [exec, reader] at step
          obtain rfl := Option.some.inj step
          exact follows.load reader
      | _ => simp [exec, reader] at step
  | clear =>
      cases reader : before.reader with
      | loaded value =>
          rw [exec, reader] at step
          obtain rfl := Option.some.inj step
          exact follows.clear reader
      | _ => simp [exec, reader] at step

theorem follows_empty : Follows (⟨0, .resting, []⟩ : Mailbox Value) [] :=
  ⟨rfl, by simp [effective], fun _ => rfl, by simp [effective]⟩

theorem Follows.run {before after : Mailbox Value} {earlier accesses : List (MailAccess Value)}
    (run : system.Run before accesses after) (follows : before.Follows earlier) :
    after.Follows (earlier ++ accesses) := by
  induction run generalizing earlier with
  | nil =>
      rw [List.append_nil]
      exact follows
  | @cons _ _ _ access rest step _ inductionHypothesis =>
      rw [show earlier ++ access :: rest = (earlier ++ [access]) ++ rest by simp]
      exact inductionHypothesis (follows.step step)

/-- In every run the reader takes, in order, the stored values that are loaded before
anything else touches the place. -/
theorem run_taken {after : Mailbox Value} {accesses : List (MailAccess Value)}
    (run : system.Run ⟨0, .resting, []⟩ accesses after) :
    after.taken ++ after.inHand = loadedFirst (effective accesses) := by
  have follows := Follows.run run follows_empty
  rw [List.nil_append] at follows
  exact follows.taken

/-- Where every store of a value is loaded before anything else touches the place, all of
them are taken. -/
theorem loadedFirst_eq_stored {accesses : List (MailAccess Value)}
    (prompt : ∀ earlier value later, accesses = earlier ++ .store value :: later → value ≠ 0 →
      later.head? = some .load) : loadedFirst accesses = stored accesses := by
  induction accesses with
  | nil => rfl
  | cons access rest inductionHypothesis =>
      rw [loadedFirst, stored, List.flatMap_cons, inductionHypothesis fun earlier value later split =>
        prompt (access :: earlier) value later (by rw [split]; rfl)]
      congr 1
      cases access with
      | store value =>
          by_cases zero : value = 0
          · subst zero
            cases rest.head? with
            | none => exact letter_zero.symm
            | some next => cases next <;> simp [fate]
          · rw [prompt [] value rest rfl zero]
            rfl
      | _ => rfl

end Mailbox

end BrainDance.Foundation
