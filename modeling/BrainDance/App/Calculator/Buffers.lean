import BrainDance.App.Calculator.Evaluation

/-!
Owns when the calculator stays in its three arrays. The output takes two bytes for
an operator and one more than its digits for a number; the operator stack holds what
waits at a place of the text; the value stack holds the numbers read less the
operators applied, until the evaluation ends.
-/

namespace BrainDance.App.Calculator

open BrainDance.Foundation

/-! ### The property and the condition -/

/-- The conversion stays in `postfix` and its `stack`, and the evaluation of what it
writes stays in its own. -/
def StaysInBuffers (text : List Byte) : Prop :=
  ∃ output, infixToPostfix text = .ok output ∧ evaluatePostfix output ≠ .error .valueStack

/-- The bytes a token takes in the output. -/
def tokenSize : Token Numeral Sign → Nat
  | .operand numeral => numeral.digits.length + 1
  | .operator _ => 2
  | .opening => 0
  | .closing => 0

def outputSize (tokens : List (Token Numeral Sign)) : Nat := (tokens.map tokenSize).sum

/-- The trees that are complete when the tokens have been read. -/
def treesRead (tokens : List (Token Numeral Sign)) : List (Tree Numeral Sign) :=
  grow (codeFrom Sign.rank [] tokens) []

/-- The tokens are enough to end the evaluation: an operator lacks operands or a
division traps. -/
def EndsEvaluation (tokens : List (Token Numeral Sign)) : Prop :=
  Lacks Sign.rank tokens ∨ ∃ tree ∈ treesRead tokens, treeValue tree = none

/-- The counts of a text stay below the three bounds. -/
structure CountsFit (tokens : List (Token Numeral Sign)) : Prop where
  output : outputSize tokens ≤ 256
  operators : ∀ k ≤ tokens.length, (waiting Sign.rank (tokens.take k)).length ≤ 32
  values : ∀ k numeral, tokens[k]? = some (.operand numeral) →
    operands (tokens.take k) < applied Sign.rank (tokens.take k) + 32 ∨
      EndsEvaluation (tokens.take k)

/-! ### The conversion -/

section Conversion

variable {tokens : List (Token Numeral Sign)} {text output : List Byte}

theorem itemsText_codeStep_length (token : Token Numeral Sign) (stack : List (Option Sign)) :
    (itemsText (codeStep Sign.rank stack token)).length +
        2 * (stackStep Sign.rank stack token).reduceOption.length =
      2 * stack.reduceOption.length + tokenSize token := by
  have moved := @applies_codeStep _ _ Sign.rank token stack
  cases token with
  | operand numeral =>
      simp only [codeStep, stackStep, itemsText, List.flatMap_singleton, itemText, tokenSize,
        List.length_append, List.length_singleton]
      omega
  | opening => simp [codeStep, stackStep, itemsText, tokenSize]
  | closing =>
      rw [codeStep, itemsText_map_apply_length]
      rw [codeStep, applies_map_apply] at moved
      simp only [operators, List.countP_singleton, Bool.false_eq_true, if_false,
        tokenSize] at moved ⊢
      omega
  | operator sign =>
      rw [codeStep, itemsText_map_apply_length]
      rw [codeStep, applies_map_apply] at moved
      simp only [operators, List.countP_singleton, if_true, tokenSize] at moved ⊢
      omega

/-- The text of the shunted tokens, and of the operators that were on the stack. -/
theorem itemsText_shunt_length (tokens : List (Token Numeral Sign)) (stack : List (Option Sign)) :
    (itemsText (shunt Sign.rank tokens stack)).length =
      outputSize tokens + 2 * stack.reduceOption.length := by
  induction tokens generalizing stack with
  | nil => simp [shunt, itemsText_map_apply_length, outputSize]
  | cons token tokens inductionHypothesis =>
      have step := itemsText_codeStep_length token stack
      rw [shunt_cons, itemsText_append, List.length_append, inductionHypothesis]
      simp only [outputSize, List.map_cons, List.sum_cons] at step ⊢
      omega

theorem stackFits_iff :
    StackFits tokens [] ↔
      ∀ k ≤ tokens.length, (waiting Sign.rank (tokens.take k)).length ≤ 32 := by
  simp only [StackFits, length_stackFrom]

/-- The conversion stays in its arrays exactly when its output and what waits fit, and
then it writes the text of the shunted tokens. -/
theorem infixToPostfix_iff :
    infixToPostfix text = .ok output ↔
      (outputSize (scan text) ≤ 256 ∧
        ∀ k ≤ (scan text).length, (waiting Sign.rank ((scan text).take k)).length ≤ 32) ∧
      output = (itemsText (shunt Sign.rank (scan text) [])).dropLast := by
  have size := itemsText_shunt_length (scan text) []
  have converts := fun result => @convert_iff [] text [] result (Nat.zero_le _) (Nat.zero_le _)
  rw [List.map_nil] at converts
  simp only [List.reduceOption_nil, List.length_nil, Nat.mul_zero, Nat.add_zero] at size
  simp only [put, List.length_nil, Nat.zero_add, List.nil_append, size, stackFits_iff] at converts
  unfold infixToPostfix
  cases done : convert text [] [] with
  | error fault =>
      rw [done] at converts
      refine iff_of_false (by simp [Except.map]) ?_
      rintro ⟨⟨fits, waits⟩, -⟩
      have impossible := (converts _).mpr ⟨if_pos fits, waits⟩
      exact absurd impossible (by simp)
  | ok result =>
      obtain ⟨written, waits⟩ := (converts result).mp done
      split at written
      · rename_i fits
        rw [← Except.ok.inj written, Except.map, Except.ok.injEq]
        exact ⟨fun same => ⟨⟨fits, waits⟩, same.symm⟩, fun both => both.2.symm⟩
      · exact absurd written (by simp)

end Conversion

/-! ### The value stack -/

section ValueStack

variable {code : List (Instruction Numeral Sign)} {tokens : List (Token Numeral Sign)}
  {stack : List Word}

/-- A row of operators never fills the stack: it ends the evaluation, or leaves the
rest of it a smaller stack. -/
theorem evaluate_map_apply (signs : List Sign) (code : List (Instruction Numeral Sign))
    (small : stack.length ≤ 32) :
    (runItems (signs.map .apply) stack = none →
      evaluate (itemsText (signs.map .apply ++ code)) stack ≠ .error .valueStack) ∧
    ∀ mid, runItems (signs.map .apply) stack = some mid →
      evaluate (itemsText (signs.map .apply ++ code)) stack = evaluate (itemsText code) mid ∧
        mid.length ≤ 32 := by
  induction signs generalizing stack with
  | nil =>
      refine ⟨fun none => absurd none (by simp [runCode]), fun mid ran => ?_⟩
      obtain rfl := Option.some.inj ran
      exact ⟨rfl, small⟩
  | cons sign signs inductionHypothesis =>
      rw [List.map_cons, List.cons_append]
      rcases stack with _ | ⟨right, _ | ⟨left, below⟩⟩
      · rw [evaluate_apply_of_few (show ([] : List Word).length < 2 from Nat.zero_lt_two)]
        exact ⟨fun _ => by simp, fun _ ran => absurd ran (by simp [runCode])⟩
      · rw [evaluate_apply_of_few (show [right].length < 2 from Nat.lt_succ_self 1)]
        exact ⟨fun _ => by simp, fun _ ran => absurd ran (by simp [runCode])⟩
      · rw [runItems, runCode]
        cases result : sign.meaning left right with
        | none =>
            rw [evaluate_apply_of_none result]
            exact ⟨fun _ => by simp, fun _ ran => absurd ran (by simp)⟩
        | some value =>
            rw [evaluate_apply_of_some result small]
            exact inductionHypothesis (by simp only [List.length_cons] at small ⊢; omega)

/-- A number of the tokens is read while the stack is full. -/
def FillsStack (tokens : List (Token Numeral Sign)) (entries : List (Option Sign))
    (stack : List Word) : Prop :=
  ∃ k numeral, tokens[k]? = some (.operand numeral) ∧
    ∃ final, runItems (codeFrom Sign.rank entries (tokens.take k)) stack = some final ∧
      32 ≤ final.length

theorem fillsStack_cons {token : Token Numeral Sign} {entries : List (Option Sign)}
    {signs : List Sign} (step : codeStep Sign.rank entries token = signs.map .apply)
    (other : operands [token] = 0) :
    FillsStack (token :: tokens) entries stack ↔
      ∃ mid, runItems (signs.map .apply) stack = some mid ∧
        FillsStack tokens (stackStep Sign.rank entries token) mid := by
  constructor
  · rintro ⟨k, numeral, here, final, ran, full⟩
    cases k with
    | zero =>
        obtain rfl := Option.some.inj here
        exact absurd other Nat.one_ne_zero
    | succ k =>
        rw [List.take_succ_cons, codeFrom, step, runItems, runCode_append] at ran
        obtain ⟨mid, first, rest⟩ := Option.bind_eq_some_iff.mp ran
        exact ⟨mid, first, k, numeral, here, final, rest, full⟩
  · rintro ⟨mid, first, k, numeral, here, final, rest, full⟩
    refine ⟨k + 1, numeral, here, final, ?_, full⟩
    rw [List.take_succ_cons, codeFrom, step, runItems, runCode_append]
    exact Option.bind_eq_some_iff.mpr ⟨mid, first, rest⟩

/-- The evaluation of shunted tokens overruns its stack exactly when a number is read
while the stack is full. -/
theorem evaluate_shunt_overflow_iff {entries : List (Option Sign)} (small : stack.length ≤ 32) :
    evaluate (itemsText (shunt Sign.rank tokens entries)) stack = .error .valueStack ↔
      FillsStack tokens entries stack := by
  induction tokens generalizing entries stack with
  | nil =>
      have row := evaluate_map_apply entries.reduceOption [] small
      rw [List.append_nil] at row
      refine iff_of_false ?_ (by simp [FillsStack])
      rw [shunt]
      cases ran : runItems (entries.reduceOption.map .apply) stack with
      | none => exact row.1 ran
      | some mid =>
          rw [(row.2 mid ran).1, itemsText, List.flatMap_nil, evaluate.eq_def]
          rcases mid with _ | ⟨value, _ | _⟩ <;> simp
  | cons token tokens inductionHypothesis =>
      rcases @codeStep_cases _ _ Sign.rank token entries with
        ⟨numeral, rfl⟩ | ⟨signs, step, other⟩
      · rw [shunt, evaluate_push]
        by_cases room : stack.length < 32
        · rw [pushValue_of_room room]
          refine (inductionHypothesis (by simp only [List.length_cons]; omega)).trans ?_
          constructor
          · rintro ⟨k, next, here, final, ran, full⟩
            exact ⟨k + 1, next, here, final, ran, full⟩
          · rintro ⟨k, next, here, final, ran, full⟩
            cases k with
            | zero =>
                obtain rfl := Option.some.inj ran
                exact absurd full (Nat.not_le.mpr room)
            | succ k => exact ⟨k, next, here, final, ran, full⟩
        · rw [pushValue, if_neg room]
          exact iff_of_true rfl ⟨0, numeral, rfl, stack, rfl, Nat.not_lt.mp room⟩
      · have row := evaluate_map_apply signs
          (shunt Sign.rank tokens (stackStep Sign.rank entries token)) small
        rw [shunt_cons, step, fillsStack_cons step other]
        cases ran : runItems (signs.map .apply) stack with
        | none => exact iff_of_false (row.1 ran) (by simp)
        | some mid =>
            rw [(row.2 mid ran).1, inductionHypothesis (row.2 mid ran).2]
            simp only [Option.some.injEq, exists_eq_left']

/-- Tokens end the evaluation exactly when the code they put out stops. -/
theorem endsEvaluation_iff (tokens : List (Token Numeral Sign)) :
    EndsEvaluation tokens ↔ runItems (codeFrom Sign.rank [] tokens) [] = none := by
  have ends := (@runCode_spec _ _ _ Numeral.word Sign.meaning (codeFrom Sign.rank [] tokens) [] []
    List.Forall₂.nil).1
  rw [ends, List.length_nil, short_codeFrom]
  rfl

/-- Until the evaluation ends, its stack holds the operands less the operators. -/
theorem fillsStack_iff :
    FillsStack tokens [] [] ↔
      ∃ k numeral, tokens[k]? = some (.operand numeral) ∧
        applied Sign.rank (tokens.take k) + 32 ≤ operands (tokens.take k) ∧
          ¬ EndsEvaluation (tokens.take k) := by
  have step : ∀ k, (∃ final, runItems (codeFrom Sign.rank [] (tokens.take k)) [] = some final ∧
      32 ≤ final.length) ↔
        applied Sign.rank (tokens.take k) + 32 ≤ operands (tokens.take k) ∧
          ¬ EndsEvaluation (tokens.take k) := by
    intro k
    rw [endsEvaluation_iff]
    cases ran : runItems (codeFrom Sign.rank [] (tokens.take k)) [] with
    | none => simp
    | some final =>
        have height := runCode_length ran
        rw [applies_codeFrom, pushes_codeFrom, List.length_nil] at height
        simp only [Option.some.injEq, exists_eq_left', reduceCtorEq, not_false_eq_true, and_true]
        omega
  simp only [FillsStack, step]

end ValueStack

/-- The calculator stays in its arrays exactly when the text's counts stay below their
bounds. -/
theorem staysInBuffers_iff (text : List Byte) : StaysInBuffers text ↔ CountsFit (scan text) := by
  have overflow := @evaluate_shunt_overflow_iff (scan text) [] [] (Nat.zero_le _)
  rw [fillsStack_iff] at overflow
  constructor
  · rintro ⟨output, converted, within⟩
    obtain ⟨⟨size, waits⟩, rfl⟩ := infixToPostfix_iff.mp converted
    rw [evaluatePostfix, evaluate_dropLast, Ne, overflow] at within
    refine ⟨size, waits, fun k numeral here => ?_⟩
    by_contra fills
    rw [not_or] at fills
    exact within ⟨k, numeral, here, Nat.not_lt.mp fills.1, fills.2⟩
  · rintro ⟨size, waits, values⟩
    refine ⟨_, infixToPostfix_iff.mpr ⟨⟨size, waits⟩, rfl⟩, ?_⟩
    rw [evaluatePostfix, evaluate_dropLast, Ne, overflow]
    rintro ⟨k, numeral, here, full, goesOn⟩
    exact (values k numeral here).elim (Nat.not_lt.mpr full) goesOn

/-- 33 open parentheses. -/
def deepText : List Byte := List.replicate 33 openParen

/-- The 33rd parenthesis is put behind the operator stack. -/
theorem staysInBuffers_fails :
    ¬ ∀ text : List Byte, text.length ≤ 250 → 0 ∉ text → StaysInBuffers text := by
  intro always
  have fits := (staysInBuffers_iff deepText).mp (always deepText (by decide) (by decide))
  have waits := fits.operators 33 (by decide +kernel)
  exact absurd waits (by decide +kernel)

end BrainDance.App.Calculator
