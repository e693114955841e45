import Mathlib.Data.Nat.Digits.Defs
import BrainDance.App.Calculator.Model
import BrainDance.Foundation.Shunting

/-!
Owns the expressions that the calculator is for: decimal numerals, the four
operators, the usual precedence and parentheses, their texts with any spaces
between the tokens, and their values in 32-bit two's complement.

It does not name `infix_to_postfix` or `evaluate_postfix`; of the model it uses
the bytes of the characters.
-/

namespace BrainDance.App.Calculator

open BrainDance.Foundation

/-! ### Tokens -/

structure Numeral where
  digits : List Byte
  nonempty : digits ≠ []
  decimal : ∀ c ∈ digits, isDigit c = true

/-- The number the digits denote, the last one of weight 1. -/
def Numeral.toNat (numeral : Numeral) : Nat :=
  Nat.ofDigits 10 (numeral.digits.reverse.map fun c => c.toNat - 0x30)

inductive Operator where
  | add
  | sub
  | mul
  | div
deriving DecidableEq

def Operator.byte : Operator → Byte
  | .add => 0x2B
  | .sub => 0x2D
  | .mul => 0x2A
  | .div => 0x2F

/-- Multiplication and division bind tighter than addition and subtraction. -/
def Operator.rank : Operator → Nat
  | .add => 0
  | .sub => 0
  | .mul => 1
  | .div => 1

def tokenText : Token Numeral Operator → List Byte
  | .operand numeral => numeral.digits
  | .operator op => [op.byte]
  | .opening => [openParen]
  | .closing => [closeParen]

/-- The text is that of the tokens, with any spaces before, between and after. -/
inductive Spells : List (Token Numeral Operator) → List Byte → Prop where
  | nil : Spells [] []
  | space {tokens : List (Token Numeral Operator)} {text : List Byte}
      (rest : Spells tokens text) : Spells tokens (space :: text)
  | token (token : Token Numeral Operator) {tokens : List (Token Numeral Operator)}
      {text : List Byte} (rest : Spells tokens text) :
      Spells (token :: tokens) (tokenText token ++ text)

/-! ### Expressions -/

abbrev Expr := Phrase Numeral Operator.rank 0

/-! ### Values -/

/-- The operator on signed integers, wrapped to 32 bits; division truncates
toward zero. There is no result where the quotient has none or does not fit. -/
def Operator.meaning (op : Operator) (left right : Word) : Option Word :=
  match op with
  | .add => some (BitVec.ofInt 32 (left.toInt + right.toInt))
  | .sub => some (BitVec.ofInt 32 (left.toInt - right.toInt))
  | .mul => some (BitVec.ofInt 32 (left.toInt * right.toInt))
  | .div =>
      if right.toInt = 0 ∨ (left.toInt = -2 ^ 31 ∧ right.toInt = -1) then none
      else some (BitVec.ofInt 32 (left.toInt.tdiv right.toInt))

def Numeral.word (numeral : Numeral) : Word := BitVec.ofNat 32 numeral.toNat

/-- The value of the expression, unless a division has none. -/
def Expr.result (expr : Expr) : Option Word := Phrase.value Numeral.word Operator.meaning expr

end BrainDance.App.Calculator
