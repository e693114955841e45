import BrainDance.App.Calculator.Evaluation

/-!
Owns what `infix_to_postfix` writes for an expression: for a text that spells tokens
of which no two neighbours are numerals, a conversion that stays in its arrays writes
the text of the code that the tokens shunt into.

The calculator reads exactly the tokens that such a text spells, with the bytes of
the four operators for the operators, and these bytes have the operators' order.
-/

namespace BrainDance.App.Calculator

open BrainDance.Foundation

/-! ### Texts -/

def instructionText : Instruction Numeral Operator → List Byte
  | .push numeral => numeral.digits ++ [space]
  | .apply op => [op.byte, space]

/-- Postfix code as the calculator writes it, a space after every item. -/
def codeText (code : List (Instruction Numeral Operator)) : List Byte :=
  code.flatMap instructionText

/-- An entry of the operator stack. -/
def stackByte : Option Operator → Byte
  | none => openParen
  | some op => op.byte

section Operators

variable (op : Operator)

theorem Operator.byte_ne_space : op.byte ≠ space := by cases op <;> decide

theorem Operator.not_isDigit_byte : ¬isDigit op.byte = true := by cases op <;> decide

theorem Operator.byte_ne_openParen : op.byte ≠ openParen := by cases op <;> decide

theorem Operator.byte_ne_closeParen : op.byte ≠ closeParen := by cases op <;> decide

theorem Operator.precedence_byte : precedence op.byte = op.rank + 1 := by cases op <;> rfl

/-- The operator as the calculator reads it. -/
def Operator.sign : Sign :=
  ⟨op.byte, op.byte_ne_space, op.not_isDigit_byte, op.byte_ne_openParen, op.byte_ne_closeParen⟩

end Operators

theorem Operator.rank_sign (left right : Operator) :
    left.sign.rank ≤ right.sign.rank ↔ left.rank ≤ right.rank := by
  rw [Sign.rank, Sign.rank, sign, sign, precedence_byte, precedence_byte,
    Nat.add_le_add_iff_right]

theorem codeText_eq_itemsText (code : List (Instruction Numeral Operator)) :
    codeText code = itemsText (code.map (Instruction.map Operator.sign)) := by
  rw [codeText, itemsText, List.flatMap_map]
  congr 1
  funext instruction
  cases instruction <;> rfl

theorem map_stackByte (stack : List (Option Operator)) :
    stack.map stackByte = (stack.map (Option.map Operator.sign)).map entryByte := by
  rw [List.map_map]
  congr 1
  funext entry
  cases entry <;> rfl

theorem map_eq_ok {α β : Type} {attempt : Except Fault α} {change : α → β} {result : β}
    (ok : attempt.map change = .ok result) :
    ∃ value, attempt = .ok value ∧ change value = result := by
  cases attempt with
  | error fault => exact absurd ok (by simp [Except.map])
  | ok value => exact ⟨value, rfl, Except.ok.inj ok⟩

/-! ### Tokens -/

section Tokens

variable {tokens : List (Token Numeral Operator)} {text : List Byte}

/-- After a numeral the text goes on with a byte that is no digit. -/
theorem Spells.takeWhile_isDigit (spells : Spells tokens text) {numeral : Numeral}
    (apart : ∀ token ∈ tokens.head?, Token.Apart (.operand numeral) token) :
    text.takeWhile isDigit = [] := by
  cases spells with
  | nil => rfl
  | space rest => exact List.takeWhile_cons_of_neg (by decide)
  | token token rest =>
      cases token with
      | operand other => exact absurd (apart _ rfl) not_false
      | operator op => exact List.takeWhile_cons_of_neg op.not_isDigit_byte
      | opening => exact List.takeWhile_cons_of_neg (by decide)
      | closing => exact List.takeWhile_cons_of_neg (by decide)

/-- The calculator reads the tokens that a text spells. -/
theorem Spells.scan_eq (spells : Spells tokens text) (apart : tokens.IsChain Token.Apart) :
    scan text = tokens.map (Token.map Operator.sign) := by
  induction spells with
  | nil => rw [scan, List.map_nil]
  | space rest inductionHypothesis =>
      rw [scan, dif_pos rfl]
      exact inductionHypothesis apart
  | token token rest inductionHypothesis =>
      obtain ⟨nextApart, restApart⟩ := List.isChain_cons.mp apart
      rw [List.map_cons, ← inductionHypothesis restApart]
      cases token with
      | operand numeral =>
          obtain ⟨c, digits, all, digit, taken, dropped⟩ :=
            numeral.read (rest.takeWhile_isDigit nextApart)
          rw [tokenText, all, List.cons_append, scan, dif_neg (ne_space_of_isDigit digit),
            dif_pos digit, dropped, Token.map]
          congr 2
          rw [Numeral.mk.injEq, all]
          exact congrArg (c :: ·) taken
      | operator op =>
          rw [tokenText, List.singleton_append, scan, dif_neg op.byte_ne_space,
            dif_neg op.not_isDigit_byte, dif_neg op.byte_ne_openParen,
            dif_neg op.byte_ne_closeParen]
          rfl
      | opening =>
          rw [tokenText, List.singleton_append, scan, dif_neg (by decide), dif_neg (by decide),
            dif_pos rfl]
          rfl
      | closing =>
          rw [tokenText, List.singleton_append, scan, dif_neg (by decide), dif_neg (by decide),
            dif_neg (by decide), dif_pos rfl]
          rfl

/-- A conversion that stays in its arrays writes the code of the shunted tokens. -/
theorem convert_eq (spells : Spells tokens text) (apart : tokens.IsChain Token.Apart)
    {stack : List (Option Operator)} {output result : List Byte}
    (outputFits : output.length ≤ 256) (stackFits : stack.length ≤ 32)
    (ok : convert text (stack.map stackByte) output = .ok result) :
    result = output ++ codeText (shunt Operator.rank tokens stack) := by
  rw [map_stackByte] at ok
  have written := ((convert_iff outputFits (by rw [List.length_map]; exact stackFits)).mp ok).1
  rw [spells.scan_eq apart, shunt_map Operator.rank_sign, ← codeText_eq_itemsText, put] at written
  split at written
  · exact (Except.ok.inj written).symm
  · exact absurd written (by simp)

end Tokens

end BrainDance.App.Calculator
