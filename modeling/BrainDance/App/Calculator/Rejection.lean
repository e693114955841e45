import BrainDance.App.Calculator.Buffers
import BrainDance.App.Calculator.Conversion

/-!
Owns how an evaluation ends: at a division that traps, at an operator that lacks
operands, or with what is left on the stack. So the calculator traps exactly when
one of the trees it reads in the text has no value, and it takes a text outside the
grammar for an expression exactly when the text's counts come out right.
-/

namespace BrainDance.App.Calculator

open BrainDance.Foundation

/-! ### The readings of a text -/

/-- The trees that the calculator reads in a text. -/
def readings (text : List Byte) : List (Tree Numeral Sign) :=
  grow (shunt Sign.rank (scan text) []) []

/-- No division of the readings lacks a quotient. -/
def DivisionsDefined (text : List Byte) : Prop := ∀ tree ∈ readings text, treeValue tree ≠ none

/-- The text is that of an expression. -/
def InGrammar (text : List Byte) : Prop := ∃ expr : Expr, Spells expr.tokens text

section Readings

variable {text output : List Byte}

/-- The evaluation traps at a division without a quotient, stops at an operator without
operands, or ends with the values of the readings. -/
theorem evaluatePostfix_ends (converted : infixToPostfix text = .ok output)
    (within : evaluatePostfix output ≠ .error .valueStack) :
    (¬ DivisionsDefined text ∧ evaluatePostfix output = .error .divide) ∨
      (DivisionsDefined text ∧ Short (shunt Sign.rank (scan text) []) 0 ∧
        evaluatePostfix output = .ok 0) ∨
      ∃ final, Values Numeral.word Sign.meaning (readings text) final ∧
        DivisionsDefined text ∧ ¬ Short (shunt Sign.rank (scan text) []) 0 ∧
          evaluatePostfix output = evaluate [] final := by
  obtain ⟨_, rfl⟩ := infixToPostfix_iff.mp converted
  rw [evaluatePostfix, evaluate_dropLast] at within ⊢
  have spec := @runCode_spec _ _ _ Numeral.word Sign.meaning
    (shunt Sign.rank (scan text) []) [] [] List.Forall₂.nil
  rcases evaluate_items List.Forall₂.nil (Nat.zero_le _) within with
    ⟨⟨tree, member, valueless⟩, traps⟩ | ⟨defined, short, stops⟩ | ⟨final, ran, ends⟩
  · exact .inl ⟨fun defined => defined tree member valueless, traps⟩
  · exact .inr (.inl ⟨defined, short, stops⟩)
  · have goesOn : ¬ runItems (shunt Sign.rank (scan text) []) [] = none := by
      rw [ran]
      exact Option.some_ne_none final
    obtain ⟨enough, defined⟩ := not_or.mp (spec.1.not.mp goesOn)
    exact .inr (.inr ⟨final, spec.2 final ran,
      fun tree member valueless => defined ⟨tree, member, valueless⟩, enough, ends⟩)

theorem evaluate_nil (stack : List Word) : ∃ value, evaluate [] stack = .ok value := by
  rw [evaluate.eq_def]
  rcases stack with _ | ⟨value, _ | ⟨other, below⟩⟩
  · exact ⟨0, rfl⟩
  · exact ⟨value, rfl⟩
  · exact ⟨0, rfl⟩

/-- The evaluation returns exactly when no division of the readings lacks a quotient. -/
theorem evaluatePostfix_returns_iff (converted : infixToPostfix text = .ok output)
    (within : evaluatePostfix output ≠ .error .valueStack) :
    (∃ value, evaluatePostfix output = .ok value) ↔ DivisionsDefined text := by
  rcases evaluatePostfix_ends converted within with
    ⟨undefined, traps⟩ | ⟨defined, _, stops⟩ | ⟨final, _, defined, _, ends⟩
  · rw [traps]
    exact iff_of_false (by simp) undefined
  · rw [stops]
    exact iff_of_true ⟨0, rfl⟩ defined
  · rw [ends]
    exact iff_of_true (evaluate_nil final) defined

/-- Where no operator is short, the counts come out right exactly when one tree is
left. -/
theorem countsRight_iff (enough : ¬ Short (shunt Sign.rank (scan text) []) 0) :
    CountsRight Sign.rank (scan text) ↔ (readings text).length = 1 := by
  have length := @grow_length _ _ (shunt Sign.rank (scan text) []) [] enough
  rw [← exists_code_eq_shunt_iff, exists_code_eq_iff, and_iff_right enough]
  rw [List.length_nil] at length
  rw [readings]
  omega

/-- The evaluation returns 0 exactly when no division traps and the counts come out
wrong, or right with the value 0. -/
theorem evaluatePostfix_zero_iff (converted : infixToPostfix text = .ok output)
    (within : evaluatePostfix output ≠ .error .valueStack) :
    evaluatePostfix output = .ok 0 ↔
      DivisionsDefined text ∧
        (CountsRight Sign.rank (scan text) → ∀ tree ∈ readings text, treeValue tree = some 0) := by
  rcases evaluatePostfix_ends converted within with
    ⟨undefined, traps⟩ | ⟨defined, short, stops⟩ | ⟨final, values, defined, enough, ends⟩
  · rw [traps]
    exact iff_of_false (by simp) fun both => undefined both.1
  · have wrong : ¬ CountsRight Sign.rank (scan text) := fun right =>
      (exists_code_eq_iff.mp ((exists_code_eq_shunt_iff _).mpr right)).1 short
    exact iff_of_true stops ⟨defined, fun right => absurd right wrong⟩
  · rw [ends, and_iff_right defined, countsRight_iff enough, values.length_eq]
    generalize readings text = trees at values
    rcases values with _ | ⟨value, _ | ⟨_, _⟩⟩
    · exact iff_of_true (by rw [evaluate]; simp) fun one => absurd one Nat.zero_ne_one
    · rw [evaluate, Except.ok.injEq, List.length_singleton, List.forall_mem_singleton, treeValue,
        value, Option.some.injEq]
      exact ⟨fun zero _ => zero, fun zero => zero rfl⟩
    · refine iff_of_true (by rw [evaluate]; simp) fun one => ?_
      simp only [List.length_cons] at one
      omega

/-- What is outside the grammar is rejected, exactly when the text is in it, or no
division traps and the counts come out wrong, or right with the value 0. -/
theorem rejects_iff (converted : infixToPostfix text = .ok output)
    (within : evaluatePostfix output ≠ .error .valueStack) :
    (¬ InGrammar text → evaluatePostfix output = .ok 0) ↔
      InGrammar text ∨ DivisionsDefined text ∧
        (CountsRight Sign.rank (scan text) → ∀ tree ∈ readings text, treeValue tree = some 0) := by
  rw [← evaluatePostfix_zero_iff converted within, or_iff_not_imp_left]

end Readings

/-! ### Texts that go wrong -/

/-- `8/2`. -/
def quotientText : List Byte := [0x38, 0x2F, 0x32]

theorem quotientText_converted :
    infixToPostfix quotientText = .ok [0x38, 0x20, 0x32, 0x20, 0x2F] := by
  decide +kernel

theorem evaluatePostfix_returns_iff_quotient :
    ∃ value, evaluatePostfix [0x38, 0x20, 0x32, 0x20, 0x2F] = .ok value := by
  refine (evaluatePostfix_returns_iff quotientText_converted (by decide +kernel)).mpr ?_
  unfold DivisionsDefined
  decide +kernel

/-- `1/0` divides by zero. -/
theorem evaluatePostfix_traps :
    ¬ ∀ text output : List Byte, infixToPostfix text = .ok output →
      evaluatePostfix output ≠ .error .valueStack →
        ∃ value, evaluatePostfix output = .ok value := by
  intro always
  have converted : infixToPostfix [0x31, 0x2F, 0x30] = .ok [0x31, 0x20, 0x30, 0x20, 0x2F] := by
    decide +kernel
  have traps : evaluatePostfix [0x31, 0x20, 0x30, 0x20, 0x2F] = .error .divide := by
    decide +kernel
  obtain ⟨value, returned⟩ := always _ _ converted (by rw [traps]; decide)
  rw [traps] at returned
  contradiction

/-- `1 2 +`. -/
def postfixText : List Byte := [0x31, 0x20, 0x32, 0x20, 0x2B]

/-- An expression has no two numbers side by side. -/
theorem InGrammar.scan_isChain {text : List Byte} (expression : InGrammar text) :
    (scan text).IsChain Token.Apart := by
  obtain ⟨expr, spells⟩ := expression
  rw [spells.scan_eq expr.tokens_isChain, List.isChain_map]
  refine expr.tokens_isChain.imp fun left right apart => ?_
  cases left <;> cases right <;> exact apart

theorem postfixText_not_inGrammar : ¬ InGrammar postfixText := by
  intro expression
  have apart := expression.scan_isChain
  simp [postfixText, scan, isDigit, space, openParen, closeParen, Token.Apart] at apart

/-- `1 +` lacks an operand. -/
theorem rejects_iff_short :
    infixToPostfix [0x31, 0x2B] = .ok [0x31, 0x20, 0x2B] ∧
      (¬ InGrammar [0x31, 0x2B] → evaluatePostfix [0x31, 0x20, 0x2B] = .ok 0) := by
  have converted : infixToPostfix [0x31, 0x2B] = .ok [0x31, 0x20, 0x2B] := by decide +kernel
  have divisions : DivisionsDefined [0x31, 0x2B] := by
    unfold DivisionsDefined
    decide +kernel
  exact ⟨converted, (rejects_iff converted (by decide +kernel)).mpr
    (.inr ⟨divisions, fun right => absurd right.1 (by decide +kernel)⟩)⟩

/-- `1 2 +` is evaluated to 3. -/
theorem rejects_fails :
    ¬ ∀ text output : List Byte, infixToPostfix text = .ok output →
      evaluatePostfix output ≠ .error .valueStack → ¬ InGrammar text →
        evaluatePostfix output = .ok 0 := by
  intro always
  have converted : infixToPostfix postfixText = .ok [0x31, 0x20, 0x32, 0x20, 0x2B] := by
    decide +kernel
  have value : evaluatePostfix [0x31, 0x20, 0x32, 0x20, 0x2B] = .ok 3 := by
    decide +kernel
  have zero := always _ _ converted (by rw [value]; decide) postfixText_not_inGrammar
  rw [value] at zero
  exact absurd zero (by decide)

end BrainDance.App.Calculator
