import Mathlib.Data.List.TakeWhile
import BrainDance.Foundation.Bytes

/-!
Owns the model of `app/utils/calculator.c`: `infix_to_postfix`, which writes the
postfix text of an expression, and `evaluate_postfix`, which computes it on a
stack of integers.

A string is the list of its bytes before the terminator. The source bounds none
of its three arrays and lets the processor trap on a division; each of these
ends the model with a fault.
-/

namespace BrainDance.App.Calculator

open BrainDance.Foundation

inductive Fault where
  | operatorStack
  | valueStack
  | outputBuffer
  | divide
deriving DecidableEq, Repr

def space : Byte := 0x20

def openParen : Byte := 0x28

def closeParen : Byte := 0x29

def isDigit (c : Byte) : Bool := 0x30 ≤ c && c ≤ 0x39

def precedence (op : Byte) : Nat :=
  if op = 0x2B ∨ op = 0x2D then 1 else if op = 0x2A ∨ op = 0x2F then 2 else 0

/-- `apply_op`. The division instruction traps on a zero divisor and on the one
quotient that does not fit. -/
def applyOp (a b : Word) (op : Byte) : Except Fault Word :=
  if op = 0x2B then .ok (a + b)
  else if op = 0x2D then .ok (a - b)
  else if op = 0x2A then .ok (a * b)
  else if op = 0x2F then
    if b = 0 ∨ (a = 0x80000000 ∧ b = 0xFFFFFFFF) then .error .divide else .ok (a.sdiv b)
  else .ok 0

/-! ### Postfix text to value -/

/-- `num = num * 10 + (postfix[i] - '0')` over the digits. -/
def readNumber (digits : List Byte) : Word :=
  digits.foldl (fun num c => num * 10 + (c.setWidth 32 - 0x30)) 0

/-- `stack[++top] = value`, the top of the stack first. -/
def pushValue (stack : List Word) (value : Word) : Except Fault (List Word) :=
  if stack.length < 32 then .ok (value :: stack) else .error .valueStack

/-- The loop of `evaluate_postfix`, from the byte at `i` on. -/
def evaluate (text : List Byte) (stack : List Word) : Except Fault Word :=
  match text with
  | [] =>
      match stack with
      | [value] => .ok value
      | _ => .ok 0
  | c :: rest =>
      if c = space then evaluate rest stack
      else if isDigit c then
        (pushValue stack (readNumber (c :: rest.takeWhile isDigit))).bind fun pushed =>
          evaluate (rest.dropWhile isDigit) pushed
      else
        match stack with
        | val2 :: val1 :: below =>
            (applyOp val1 val2 c).bind fun result =>
              (pushValue below result).bind fun pushed => evaluate rest pushed
        | _ => .ok 0
termination_by text.length
decreasing_by
  all_goals simp only [List.length_cons]
  all_goals have := List.length_dropWhile_le isDigit rest
  all_goals omega

def evaluatePostfix (text : List Byte) : Except Fault Word := evaluate text []

/-! ### Expression to postfix text -/

/-- `postfix[j++] = c`. -/
def emit (output : List Byte) (c : Byte) : Except Fault (List Byte) :=
  if output.length < 256 then .ok (output ++ [c]) else .error .outputBuffer

/-- The byte and the space after it. -/
def emitSpaced (output : List Byte) (c : Byte) : Except Fault (List Byte) :=
  (emit output c).bind fun written => emit written space

/-- `stack[++top] = op`, the top of the stack first. -/
def pushOperator (stack : List Byte) (op : Byte) : Except Fault (List Byte) :=
  if stack.length < 32 then .ok (op :: stack) else .error .operatorStack

/-- The loops that move operators to the output while the top is not `(` and
`leaves`. -/
def popOperators (leaves : Byte → Bool) : List Byte → List Byte →
    Except Fault (List Byte × List Byte)
  | [], output => .ok ([], output)
  | top :: stack, output =>
      if top ≠ openParen ∧ leaves top then
        (emitSpaced output top).bind fun written => popOperators leaves stack written
      else .ok (top :: stack, output)

/-- The loop at the end, which drops open parentheses. -/
def flushOperators : List Byte → List Byte → Except Fault (List Byte)
  | [], output => .ok output
  | top :: stack, output =>
      if top = openParen then flushOperators stack output
      else (emitSpaced output top).bind fun written => flushOperators stack written

/-- The loop of `infix_to_postfix`, from the byte at `i` on. -/
def convert (expression stack output : List Byte) : Except Fault (List Byte) :=
  match expression with
  | [] => flushOperators stack output
  | c :: rest =>
      if c = space then convert rest stack output
      else if isDigit c then
        ((c :: rest.takeWhile isDigit).foldlM emit output).bind fun copied =>
          (emit copied space).bind fun separated =>
            convert (rest.dropWhile isDigit) stack separated
      else if c = openParen then
        (pushOperator stack c).bind fun pushed => convert rest pushed output
      else if c = closeParen then
        (popOperators (fun _ => true) stack output).bind fun popped =>
          convert rest popped.1.tail popped.2
      else
        (popOperators (fun top => precedence top ≥ precedence c) stack output).bind fun popped =>
          (pushOperator popped.1 c).bind fun pushed => convert rest pushed popped.2
termination_by expression.length
decreasing_by
  all_goals simp only [List.length_cons]
  all_goals have := List.length_dropWhile_le isDigit rest
  all_goals omega

/-- The terminator takes the place of the last byte written. -/
def infixToPostfix (expression : List Byte) : Except Fault (List Byte) :=
  (convert expression [] []).map List.dropLast

/-- The number that `calculator_main` prints. -/
def calculatorMain (expression : List Byte) : Except Fault Word :=
  (infixToPostfix expression).bind evaluatePostfix

end BrainDance.App.Calculator
