import Mathlib.Data.List.Chain
import Mathlib.Data.List.ReduceOption

/-!
Owns operator-precedence expressions with left-associative operators: their
grammar, their value, their postfix code, the stack machine that runs the code
and the shunting of tokens into code.

A `Phrase` is a sentence of the grammar by construction, at any number of
precedence levels. The tokens of a phrase shunt into its code, and the code
leaves its value on the machine's stack. Stacks and outputs have no bound here.
-/

namespace BrainDance.Foundation

universe u v w

/-! ### Grammar -/

/-- Sentences whose operators outside parentheses have at least the precedence
`level`. The left operand may repeat the operator's precedence, the right one
binds tighter. -/
inductive Phrase (Operand : Type u) {Operator : Type v} (prec : Operator → Nat) :
    Nat → Type (max u v) where
  | operand {level : Nat} (x : Operand) : Phrase Operand prec level
  | group {level : Nat} (inner : Phrase Operand prec 0) : Phrase Operand prec level
  | binary {level : Nat} (op : Operator) (fits : level ≤ prec op)
      (left : Phrase Operand prec (prec op)) (right : Phrase Operand prec (prec op + 1)) :
      Phrase Operand prec level

inductive Token (Operand : Type u) (Operator : Type v) where
  | operand (x : Operand)
  | operator (op : Operator)
  | opening
  | closing
deriving DecidableEq

/-- Not both tokens are operands, so that nothing need stand between them. -/
def Token.Apart {Operand : Type u} {Operator : Type v} (left right : Token Operand Operator) :
    Prop :=
  match left, right with
  | .operand _, .operand _ => False
  | _, _ => True

/-- The token with another operator in its operator's place. -/
def Token.map {Operand : Type u} {Operator : Type v} {Other : Type w} (rename : Operator → Other) :
    Token Operand Operator → Token Operand Other
  | .operand x => .operand x
  | .operator op => .operator (rename op)
  | .opening => .opening
  | .closing => .closing

/-- An instruction of postfix code. -/
inductive Instruction (Operand : Type u) (Operator : Type v) where
  | push (x : Operand)
  | apply (op : Operator)
deriving DecidableEq

def Instruction.map {Operand : Type u} {Operator : Type v} {Other : Type w}
    (rename : Operator → Other) : Instruction Operand Operator → Instruction Operand Other
  | .push x => .push x
  | .apply op => .apply (rename op)

namespace Phrase

variable {Operand : Type u} {Operator : Type v} {prec : Operator → Nat} {Value : Type w}
  {level : Nat}

def tokens {level : Nat} : Phrase Operand prec level → List (Token Operand Operator)
  | .operand x => [.operand x]
  | .group inner => .opening :: (inner.tokens ++ [.closing])
  | .binary op _ left right => left.tokens ++ .operator op :: right.tokens

/-- The value, where the operators are partial. -/
def value (literal : Operand → Value) (meaning : Operator → Value → Value → Option Value)
    {level : Nat} : Phrase Operand prec level → Option Value
  | .operand x => some (literal x)
  | .group inner => inner.value literal meaning
  | .binary op _ left right =>
      (left.value literal meaning).bind fun leftValue =>
        (right.value literal meaning).bind fun rightValue => meaning op leftValue rightValue

def code {level : Nat} : Phrase Operand prec level → List (Instruction Operand Operator)
  | .operand x => [.push x]
  | .group inner => inner.code
  | .binary op _ left right => left.code ++ right.code ++ [.apply op]

/-- A phrase never has two operands side by side. -/
theorem tokens_isChain (phrase : Phrase Operand prec level) :
    phrase.tokens.IsChain Token.Apart := by
  have closing : ∀ token : Token Operand Operator, token.Apart .closing := by
    intro token
    cases token <;> trivial
  have operator : ∀ (token : Token Operand Operator) op, token.Apart (.operator op) := by
    intro token op
    cases token <;> trivial
  induction phrase with
  | operand x => exact List.isChain_singleton _
  | group inner inductionHypothesis =>
      refine List.isChain_cons.mpr ⟨fun _ _ => trivial, ?_⟩
      refine inductionHypothesis.append (List.isChain_singleton _) ?_
      intro last _ token isHead
      rw [List.head?_cons, Option.mem_some_iff] at isHead
      exact isHead ▸ closing last
  | binary op fits left right leftHypothesis rightHypothesis =>
      refine leftHypothesis.append (List.isChain_cons.mpr ⟨fun _ _ => trivial, rightHypothesis⟩) ?_
      intro last _ token isHead
      rw [List.head?_cons, Option.mem_some_iff] at isHead
      exact isHead ▸ operator last op

end Phrase

/-! ### Machine -/

section Machine

variable {Operand : Type u} {Operator : Type v} {prec : Operator → Nat} {Value : Type w}
  (literal : Operand → Value) (meaning : Operator → Value → Value → Option Value)

/-- Runs postfix code on a stack of values, the top first. -/
def runCode : List (Instruction Operand Operator) → List Value → Option (List Value)
  | [], stack => some stack
  | .push x :: code, stack => runCode code (literal x :: stack)
  | .apply op :: code, right :: left :: stack =>
      (meaning op left right).bind fun result => runCode code (result :: stack)
  | .apply _ :: _, _ => none

/-- Operators of the same meaning run alike. -/
theorem runCode_map {Other : Type v} {otherMeaning : Other → Value → Value → Option Value}
    {rename : Operator → Other} (same : ∀ op, otherMeaning (rename op) = meaning op)
    (code : List (Instruction Operand Operator)) (stack : List Value) :
    runCode literal otherMeaning (code.map (Instruction.map rename)) stack =
      runCode literal meaning code stack := by
  induction code generalizing stack with
  | nil => rfl
  | cons instruction code inductionHypothesis =>
      rw [List.map_cons]
      cases instruction with
      | push x => exact inductionHypothesis _
      | apply op =>
          rcases stack with _ | ⟨right, _ | ⟨left, below⟩⟩
          · rfl
          · rfl
          · rw [Instruction.map, runCode, runCode, same]
            simp only [inductionHypothesis]

/-- The code of a phrase leaves its value on the stack. -/
theorem runCode_code {level : Nat} (phrase : Phrase Operand prec level)
    {result : Value} (defined : phrase.value literal meaning = some result)
    (rest : List (Instruction Operand Operator)) (stack : List Value) :
    runCode literal meaning (phrase.code ++ rest) stack =
      runCode literal meaning rest (result :: stack) := by
  induction phrase generalizing result rest stack with
  | operand x =>
      rw [Phrase.value, Option.some.injEq] at defined
      rw [Phrase.code, List.singleton_append, runCode, defined]
  | group inner inductionHypothesis => exact inductionHypothesis defined rest stack
  | binary op fits left right leftHypothesis rightHypothesis =>
      rw [Phrase.value, Option.bind_eq_some_iff] at defined
      obtain ⟨leftValue, leftDefined, defined⟩ := defined
      rw [Option.bind_eq_some_iff] at defined
      obtain ⟨rightValue, rightDefined, applied⟩ := defined
      rw [Phrase.code, List.append_assoc, List.append_assoc, leftHypothesis leftDefined,
        rightHypothesis rightDefined, List.singleton_append, runCode, applied, Option.bind_some]

end Machine

/-! ### Shunting -/

section Shunting

variable {Operand : Type u} {Operator : Type v} (prec : Operator → Nat)

/-- Whether the stack entry leaves before an operator of precedence `level`; a
parenthesis, `none`, stays. -/
def leavesBefore (level : Nat) : Option Operator → Bool
  | none => false
  | some op => level ≤ prec op

/-- The operators on top of the stack that leave before `level`. -/
def unstacked (level : Nat) (stack : List (Option Operator)) : List Operator :=
  (stack.takeWhile (leavesBefore prec level)).reduceOption

/-- What they leave on the stack. -/
def restacked (level : Nat) (stack : List (Option Operator)) : List (Option Operator) :=
  stack.dropWhile (leavesBefore prec level)

/-- Tokens to postfix code, with the stack of open parentheses and operators
that wait for their right operands. -/
def shunt : List (Token Operand Operator) → List (Option Operator) →
    List (Instruction Operand Operator)
  | [], stack => stack.reduceOption.map .apply
  | .operand x :: tokens, stack => .push x :: shunt tokens stack
  | .opening :: tokens, stack => shunt tokens (none :: stack)
  | .closing :: tokens, stack =>
      (unstacked prec 0 stack).map .apply ++ shunt tokens (restacked prec 0 stack).tail
  | .operator op :: tokens, stack =>
      (unstacked prec (prec op) stack).map .apply ++
        shunt tokens (some op :: restacked prec (prec op) stack)

section Renaming

variable {prec} {Other : Type w} {otherPrec : Other → Nat} {rename : Operator → Other}
  {level otherLevel : Nat} {stack : List (Option Operator)}

theorem leavesBefore_map
    (agree : ∀ op, otherLevel ≤ otherPrec (rename op) ↔ level ≤ prec op) :
    leavesBefore otherPrec otherLevel ∘ Option.map rename = leavesBefore prec level := by
  funext entry
  cases entry with
  | none => rfl
  | some op => exact decide_eq_decide.mpr (agree op)

theorem unstacked_map (agree : ∀ op, otherLevel ≤ otherPrec (rename op) ↔ level ≤ prec op) :
    unstacked otherPrec otherLevel (stack.map (Option.map rename)) =
      (unstacked prec level stack).map rename := by
  rw [unstacked, List.takeWhile_map, leavesBefore_map agree, List.reduceOption_map, unstacked]

theorem restacked_map (agree : ∀ op, otherLevel ≤ otherPrec (rename op) ↔ level ≤ prec op) :
    restacked otherPrec otherLevel (stack.map (Option.map rename)) =
      (restacked prec level stack).map (Option.map rename) := by
  rw [restacked, List.dropWhile_map, leavesBefore_map agree, restacked]

/-- Operators of the same order shunt into the same code. -/
theorem shunt_map (agree : ∀ a b, otherPrec (rename a) ≤ otherPrec (rename b) ↔ prec a ≤ prec b)
    (tokens : List (Token Operand Operator)) (stack : List (Option Operator)) :
    shunt otherPrec (tokens.map (Token.map rename)) (stack.map (Option.map rename)) =
      (shunt prec tokens stack).map (Instruction.map rename) := by
  induction tokens generalizing stack with
  | nil =>
      rw [List.map_nil, shunt, shunt, List.reduceOption_map, List.map_map, List.map_map]
      rfl
  | cons token tokens inductionHypothesis =>
      rw [List.map_cons]
      cases token with
      | operand x => exact congrArg (_ :: ·) (inductionHypothesis stack)
      | opening => exact inductionHypothesis (none :: stack)
      | closing =>
          have all : ∀ op, 0 ≤ otherPrec (rename op) ↔ 0 ≤ prec op :=
            fun _ => iff_of_true (Nat.zero_le _) (Nat.zero_le _)
          rw [Token.map, shunt, shunt, unstacked_map all, restacked_map all, ← List.map_tail,
            inductionHypothesis, List.map_append, List.map_map, List.map_map]
          rfl
      | operator op =>
          rw [Token.map, shunt, shunt, unstacked_map (agree op), restacked_map (agree op)]
          have rest := inductionHypothesis (some op :: restacked prec (prec op) stack)
          rw [List.map_cons, Option.map_some] at rest
          rw [rest, List.map_append, List.map_map, List.map_map]
          rfl

end Renaming

section Phrases

variable {prec} {level : Nat} {stack : List (Option Operator)}

/-- Nothing on top of the stack leaves before `level`. -/
def Settled (prec : Operator → Nat) (level : Nat) (stack : List (Option Operator)) : Prop :=
  stack.takeWhile (leavesBefore prec level) = []

theorem settled_nil : Settled prec level [] := rfl

theorem settled_opening : Settled prec level (none :: stack) := rfl

theorem settled_operator {op : Operator} (looser : prec op < level) :
    Settled prec level (some op :: stack) := by
  refine List.takeWhile_cons_of_neg ?_
  rw [leavesBefore, decide_eq_true_iff]
  exact Nat.not_le.mpr looser

theorem Settled.mono {tighter : Nat} (settled : Settled prec level stack)
    (looser : level ≤ tighter) : Settled prec tighter stack := by
  cases stack with
  | nil => exact settled_nil
  | cons top below =>
      cases top with
      | none => exact settled_opening
      | some op =>
          refine settled_operator (Nat.lt_of_not_le fun tight => ?_)
          have leaves : leavesBefore prec level (some op) = true :=
            decide_eq_true (Nat.le_trans looser tight)
          rw [Settled, List.takeWhile_cons_of_pos leaves] at settled
          exact List.cons_ne_nil _ _ settled

theorem Settled.restacked_eq (settled : Settled prec level stack) :
    restacked prec level stack = stack := by
  have parts := @List.takeWhile_append_dropWhile _ (leavesBefore prec level) stack
  rwa [settled, List.nil_append] at parts

section Waiting

variable {waiting : List Operator} (leave : ∀ op ∈ waiting, level ≤ prec op)

include leave

theorem leavesBefore_of_mem : ∀ top ∈ waiting.map some, leavesBefore prec level top = true := by
  intro top member
  obtain ⟨op, opMember, rfl⟩ := List.mem_map.mp member
  exact decide_eq_true (leave op opMember)

theorem unstacked_append (settled : Settled prec level stack) :
    unstacked prec level (waiting.map some ++ stack) = waiting := by
  rw [unstacked, List.takeWhile_append_of_pos (leavesBefore_of_mem leave), settled,
    List.append_nil]
  simp [List.reduceOption]

theorem restacked_append (settled : Settled prec level stack) :
    restacked prec level (waiting.map some ++ stack) = stack := by
  rw [restacked, List.dropWhile_append_of_pos (leavesBefore_of_mem leave)]
  exact settled.restacked_eq

end Waiting

namespace Phrase

/-- The operators of a phrase that still wait when its tokens are read, the last
one first. -/
def waiting {level : Nat} : Phrase Operand prec level → List Operator
  | .operand _ => []
  | .group _ => []
  | .binary op _ _ right => right.waiting ++ [op]

/-- The code that is out when the tokens of a phrase are read. -/
def emitted {level : Nat} : Phrase Operand prec level → List (Instruction Operand Operator)
  | .operand x => [.push x]
  | .group inner => inner.code
  | .binary _ _ left right => left.code ++ right.emitted

theorem emitted_append_waiting (phrase : Phrase Operand prec level) :
    phrase.emitted ++ phrase.waiting.map .apply = phrase.code := by
  induction phrase with
  | operand x => rfl
  | group inner => exact List.append_nil _
  | binary op fits left right leftHypothesis rightHypothesis =>
      rw [emitted, waiting, List.map_append, List.append_assoc,
        ← List.append_assoc right.emitted, rightHypothesis, code, List.append_assoc]
      rfl

theorem le_prec_of_mem_waiting (phrase : Phrase Operand prec level) :
    ∀ op ∈ phrase.waiting, level ≤ prec op := by
  induction phrase with
  | operand x => simp [waiting]
  | group inner => simp [waiting]
  | binary op fits left right leftHypothesis rightHypothesis =>
      intro other member
      rw [waiting, List.mem_append, List.mem_singleton] at member
      rcases member with inRight | rfl
      · have tighter := rightHypothesis other inRight
        omega
      · exact fits

/-- Reading a phrase on a settled stack emits its code up to the operators that
wait, and stacks those. -/
theorem shunt_tokens_append (phrase : Phrase Operand prec level)
    (settled : Settled prec level stack) (rest : List (Token Operand Operator)) :
    shunt prec (phrase.tokens ++ rest) stack =
      phrase.emitted ++ shunt prec rest (phrase.waiting.map some ++ stack) := by
  induction phrase generalizing stack rest with
  | operand x => rfl
  | group inner inductionHypothesis =>
      have all : ∀ op ∈ inner.waiting, 0 ≤ prec op := fun _ _ => Nat.zero_le _
      rw [tokens, List.cons_append, List.append_assoc, shunt, inductionHypothesis settled_opening,
        List.singleton_append, shunt, unstacked_append all settled_opening,
        restacked_append all settled_opening, ← List.append_assoc, emitted_append_waiting]
      rfl
  | binary op fits left right leftHypothesis rightHypothesis =>
      have leave := left.le_prec_of_mem_waiting
      have settledLeft := settled.mono fits
      rw [tokens, List.append_assoc, leftHypothesis settledLeft, List.cons_append, shunt,
        unstacked_append leave settledLeft, restacked_append leave settledLeft,
        rightHypothesis (settled_operator (Nat.lt_succ_self _)), ← List.append_assoc,
        emitted_append_waiting, emitted, waiting, List.map_append]
      simp only [List.append_assoc]
      rfl

/-- The tokens of a phrase shunt into its code. -/
theorem shunt_tokens (phrase : Phrase Operand prec level) :
    shunt prec phrase.tokens [] = phrase.code := by
  have read := phrase.shunt_tokens_append settled_nil []
  rw [List.append_nil, List.append_nil, shunt] at read
  rw [read, ← emitted_append_waiting]
  simp [List.reduceOption]

end Phrase

end Phrases

end Shunting

end BrainDance.Foundation
