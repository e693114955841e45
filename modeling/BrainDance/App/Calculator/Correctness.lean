import BrainDance.App.Calculator.Conversion

/-!
Owns the value that `evaluate_postfix` computes. On the text of postfix code it
runs the code, as long as the value stack has room, and so the calculator prints
the value of the expression it was given.
-/

namespace BrainDance.App.Calculator

open BrainDance.Foundation

/-! ### Arithmetic -/

/-- Where the operator has a result, `apply_op` computes it. -/
theorem Operator.applyOp_eq {op : Operator} {left right result : Word}
    (defined : op.meaning left right = some result) :
    applyOp left right op.byte = .ok result := by
  cases op with
  | add =>
      have sum : BitVec.ofInt 32 (left.toInt + right.toInt) = left + right := by
        apply BitVec.eq_of_toInt_eq
        rw [BitVec.toInt_ofInt, BitVec.toInt_add]
      exact congrArg Except.ok (sum.symm.trans (Option.some.inj defined))
  | sub =>
      have difference : BitVec.ofInt 32 (left.toInt - right.toInt) = left - right := by
        apply BitVec.eq_of_toInt_eq
        rw [BitVec.toInt_ofInt, BitVec.toInt_sub]
      exact congrArg Except.ok (difference.symm.trans (Option.some.inj defined))
  | mul =>
      have product : BitVec.ofInt 32 (left.toInt * right.toInt) = left * right := by
        apply BitVec.eq_of_toInt_eq
        rw [BitVec.toInt_ofInt, BitVec.toInt_mul]
      exact congrArg Except.ok (product.symm.trans (Option.some.inj defined))
  | div =>
      have quotient : BitVec.ofInt 32 (left.toInt.tdiv right.toInt) = left.sdiv right := by
        apply BitVec.eq_of_toInt_eq
        rw [BitVec.toInt_ofInt, BitVec.toInt_sdiv]
      rw [Operator.meaning] at defined
      split at defined
      · exact absurd defined (by simp)
      · rename_i hasQuotient
        have safe : ¬(right = 0 ∨ (left = 0x80000000 ∧ right = 0xFFFFFFFF)) := by
          rintro (rfl | ⟨rfl, rfl⟩)
          · exact hasQuotient (Or.inl rfl)
          · exact hasQuotient (Or.inr ⟨rfl, rfl⟩)
        have divided : applyOp left right Operator.div.byte = .ok (left.sdiv right) := by
          unfold applyOp
          rw [if_neg (by decide), if_neg (by decide), if_neg (by decide),
            if_pos (show Operator.div.byte = 0x2F from rfl), if_neg safe]
        rw [divided, ← quotient, Option.some.inj defined]

/-- The calculator's operators mean what the expressions' do. -/
theorem Operator.sign_meaning (op : Operator) : op.sign.meaning = op.meaning := by
  funext left right
  cases defined : op.meaning left right with
  | some result => rw [Sign.meaning, sign, applyOp_eq defined]; rfl
  | none =>
      cases op with
      | add => exact absurd defined (by simp [Operator.meaning])
      | sub => exact absurd defined (by simp [Operator.meaning])
      | mul => exact absurd defined (by simp [Operator.meaning])
      | div =>
          rw [Sign.meaning_eq_none_iff]
          refine ⟨rfl, ?_⟩
          rw [Operator.meaning] at defined
          split at defined
          · rename_i noQuotient
            rcases noQuotient with zero | ⟨least, minusOne⟩
            · exact Or.inl (BitVec.eq_of_toInt_eq zero)
            · exact Or.inr ⟨BitVec.eq_of_toInt_eq least, BitVec.eq_of_toInt_eq minusOne⟩
          · contradiction

/-! ### Evaluation -/

/-- On the text of code the loop runs the code, unless the value stack is full. -/
theorem evaluate_codeText {code : List (Instruction Numeral Operator)} {final : List Word}
    (ran : runCode Numeral.word Operator.meaning code [] = some final)
    (within : evaluate (codeText code) [] ≠ .error .valueStack) :
    evaluate (codeText code) [] = evaluate [] final := by
  rw [← runCode_map _ _ Operator.sign_meaning] at ran
  rw [codeText_eq_itemsText] at within ⊢
  have spec := (@runCode_spec _ _ _ Numeral.word Sign.meaning
    (code.map (Instruction.map Operator.sign)) [] [] List.Forall₂.nil).1
  rw [ran] at spec
  rcases evaluate_items List.Forall₂.nil (Nat.zero_le _) within with
    ⟨valueless, _⟩ | ⟨_, short, _⟩ | ⟨other, ranOther, evaluated⟩
  · exact absurd (spec.mpr (Or.inr valueless)) (by simp)
  · exact absurd (spec.mpr (Or.inl short)) (by simp)
  · rw [evaluated, Option.some.inj (ran.symm.trans ranOther)]

/-! ### The calculator -/

/-- An expression whose conversion and evaluation stay in their arrays and whose
divisions have quotients is evaluated to its value. -/
theorem calculator_evaluates {expr : Expr} {text output : List Byte} {value : Word}
    (spells : Spells expr.tokens text) (converted : infixToPostfix text = .ok output)
    (defined : expr.result = some value)
    (within : evaluatePostfix output ≠ .error .valueStack) :
    evaluatePostfix output = .ok value := by
  have ran := runCode_code Numeral.word Operator.meaning expr defined [] []
  rw [List.append_nil, runCode] at ran
  obtain ⟨whole, wholeConverted, cut⟩ := map_eq_ok converted
  have written : whole = [] ++ codeText (shunt Operator.rank expr.tokens []) :=
    convert_eq spells expr.tokens_isChain (Nat.zero_le _) (Nat.zero_le _) wholeConverted
  rw [List.nil_append, expr.shunt_tokens] at written
  have same : evaluatePostfix output = evaluate (codeText expr.code) [] := by
    rw [← cut, written, codeText_eq_itemsText]
    exact evaluate_dropLast _ []
  rw [same] at within ⊢
  rw [evaluate_codeText ran within, evaluate]

/-- `7-2 - 3*(10-4)/5`, as a tree. -/
def mixedExpr : Expr :=
  .binary .sub (by decide)
    (.binary .sub (by decide) (.operand ⟨[0x37], by decide, by decide⟩)
      (.operand ⟨[0x32], by decide, by decide⟩))
    (.binary .div (by decide)
      (.binary .mul (by decide) (.operand ⟨[0x33], by decide, by decide⟩)
        (.group (.binary .sub (by decide) (.operand ⟨[0x31, 0x30], by decide, by decide⟩)
          (.operand ⟨[0x34], by decide, by decide⟩))))
      (.operand ⟨[0x35], by decide, by decide⟩))

def mixedText : List Byte :=
  [0x37, 0x2D, 0x32, 0x20, 0x2D, 0x20, 0x33, 0x2A, 0x28, 0x31, 0x30, 0x2D, 0x34, 0x29, 0x2F, 0x35]

theorem calculator_evaluates_mixed :
    ∃ output, infixToPostfix mixedText = .ok output ∧ evaluatePostfix output = .ok 2 := by
  have spells : Spells mixedExpr.tokens mixedText :=
    .token _ (.token _ (.token _ (.space (.token _ (.space (.token _ (.token _ (.token _
      (.token _ (.token _ (.token _ (.token _ (.token _ (.token _ .nil))))))))))))))
  have converted : infixToPostfix mixedText = .ok [0x37, 0x20, 0x32, 0x20, 0x2D, 0x20, 0x33, 0x20,
      0x31, 0x30, 0x20, 0x34, 0x20, 0x2D, 0x20, 0x2A, 0x20, 0x35, 0x20, 0x2F, 0x20, 0x2D] := by
    decide +kernel
  exact ⟨_, converted, calculator_evaluates spells converted (by decide +kernel)
    (by decide +kernel)⟩

end BrainDance.App.Calculator
