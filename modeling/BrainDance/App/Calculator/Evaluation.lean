import BrainDance.App.Calculator.Scan

/-!
Owns what `evaluate_postfix` does on the text of any postfix code: a number is
pushed, an operator takes two values or ends the evaluation. So it runs the code, and
ends at a division that traps, at an operator that lacks operands, or with what is
left on the stack.
-/

namespace BrainDance.App.Calculator

open BrainDance.Foundation

/-! ### Numbers -/

theorem ne_space_of_isDigit {c : Byte} (digit : isDigit c = true) : c ≠ space := by
  rintro rfl
  exact absurd digit (by decide)

theorem readNumber_append (digits : List Byte) (c : Byte) :
    readNumber (digits ++ [c]) = readNumber digits * 10 + (c.setWidth 32 - 0x30) := by
  rw [readNumber, List.foldl_append]
  rfl

theorem digit_weight {c : Byte} (digit : isDigit c = true) :
    c.setWidth 32 - 0x30 = BitVec.ofNat 32 (c.toNat - 0x30) := by
  rw [isDigit, Bool.and_eq_true, decide_eq_true_iff, decide_eq_true_iff] at digit
  bv_omega

/-- The digit loop computes the number modulo the word. -/
theorem readNumber_eq {digits : List Byte} (decimal : ∀ c ∈ digits, isDigit c = true) :
    readNumber digits =
      BitVec.ofNat 32 (Nat.ofDigits 10 (digits.reverse.map fun c => c.toNat - 0x30)) := by
  induction digits using List.reverseRecOn with
  | nil => rfl
  | append_singleton digits c inductionHypothesis =>
      have digit := decimal c (List.mem_append_right _ List.mem_cons_self)
      have earlier := inductionHypothesis fun d member =>
        decimal d (List.mem_append_left _ member)
      rw [readNumber_append, earlier, digit_weight digit, List.reverse_append,
        List.reverse_singleton, List.singleton_append, List.map_cons, Nat.ofDigits_cons]
      apply BitVec.eq_of_toNat_eq
      simp only [BitVec.toNat_add, BitVec.toNat_mul, BitVec.toNat_ofNat,
        show (10 : Word).toNat = 10 from rfl]
      omega

theorem Numeral.readNumber_digits (numeral : Numeral) :
    readNumber numeral.digits = numeral.word := readNumber_eq numeral.decimal

section Numbers

variable {text : List Byte}

/-- Where a numeral is followed by no digit, the inner loop reads all of it. -/
theorem Numeral.read (numeral : Numeral) (stops : text.takeWhile isDigit = []) :
    ∃ c rest, numeral.digits = c :: rest ∧ isDigit c = true ∧
      (rest ++ text).takeWhile isDigit = rest ∧ (rest ++ text).dropWhile isDigit = text := by
  obtain ⟨c, rest, digits⟩ := List.exists_cons_of_ne_nil numeral.nonempty
  have decimal := numeral.decimal
  rw [digits] at decimal
  have later : ∀ d ∈ rest, isDigit d = true := fun d member =>
    decimal d (List.mem_cons_of_mem c member)
  have parts := @List.takeWhile_append_dropWhile _ isDigit text
  rw [stops, List.nil_append] at parts
  refine ⟨c, rest, digits, decimal c List.mem_cons_self, ?_, ?_⟩
  · rw [List.takeWhile_append_of_pos later, stops, List.append_nil]
  · rw [List.dropWhile_append_of_pos later, parts]

end Numbers

/-! ### Text -/

section Text

variable {text : List Byte} {stack : List Word}

theorem evaluate_space : evaluate (space :: text) stack = evaluate text stack := by
  rw [evaluate.eq_def]
  exact if_pos rfl

theorem evaluate_digit {c : Byte} (digit : isDigit c = true) :
    evaluate (c :: text) stack =
      (pushValue stack (readNumber (c :: text.takeWhile isDigit))).bind fun pushed =>
        evaluate (text.dropWhile isDigit) pushed := by
  rw [evaluate.eq_def]
  exact (if_neg (ne_space_of_isDigit digit)).trans (if_pos digit)

/-- A numeral with its space pushes its value. -/
theorem evaluate_numeral (numeral : Numeral) :
    evaluate (numeral.digits ++ space :: text) stack =
      (pushValue stack numeral.word).bind fun pushed => evaluate text pushed := by
  have stops : (space :: text).takeWhile isDigit = [] := List.takeWhile_cons_of_neg (by decide)
  obtain ⟨c, rest, digits, digit, taken, dropped⟩ := numeral.read stops
  rw [digits, List.cons_append, evaluate_digit digit, taken, dropped, ← digits,
    numeral.readNumber_digits]
  simp only [evaluate_space]

theorem takeWhile_append_space (text : List Byte) :
    (text ++ [space]).takeWhile isDigit = text.takeWhile isDigit := by
  rw [List.takeWhile_append]
  split
  · rename_i all
    rw [List.takeWhile_cons_of_neg (by decide), List.append_nil,
      (List.takeWhile_prefix isDigit).eq_of_length all]
  · rfl

theorem dropWhile_append_space (text : List Byte) :
    (text ++ [space]).dropWhile isDigit = text.dropWhile isDigit ++ [space] := by
  rw [List.dropWhile_append]
  split
  · rename_i none
    rw [List.isEmpty_iff.mp none]
    rfl
  · rfl

/-- A space at the end changes nothing. -/
theorem evaluate_append_space (text : List Byte) (stack : List Word) :
    evaluate (text ++ [space]) stack = evaluate text stack := by
  fun_induction evaluate text stack with
  | case1 value => rw [List.nil_append, evaluate_space, evaluate]
  | case2 stack notSingle =>
      rw [List.nil_append, evaluate_space, evaluate]
      exact notSingle
  | case3 stack rest inductionHypothesis =>
      rw [List.cons_append, evaluate_space, inductionHypothesis]
  | case4 stack c rest notSpace digit inductionHypothesis =>
      rw [List.cons_append, evaluate_digit digit, takeWhile_append_space, dropWhile_append_space]
      simp only [inductionHypothesis]
  | case5 c rest notSpace notDigit val2 val1 below inductionHypothesis =>
      rw [List.cons_append, evaluate, if_neg notSpace, if_neg notDigit]
      simp only [inductionHypothesis]
  | case6 stack c rest notSpace notDigit few =>
      rw [List.cons_append, evaluate.eq_def]
      simp only [if_neg notSpace, if_neg notDigit]

end Text

/-! ### Items -/

/-- The result of the operator, unless the division traps. -/
def Sign.meaning (sign : Sign) (left right : Word) : Option Word :=
  (applyOp left right sign.byte).toOption

/-- The value of a tree as the calculator computes it. -/
def treeValue (tree : Tree Numeral Sign) : Option Word := tree.value Numeral.word Sign.meaning

/-- Running code on numbers, where a division that traps has no result. -/
abbrev runItems (code : List (Instruction Numeral Sign)) (stack : List Word) :
    Option (List Word) :=
  runCode Numeral.word Sign.meaning code stack

section Items

variable {code : List (Instruction Numeral Sign)} {sign : Sign} {stack : List Word}

/-- Only a division by zero and the one quotient that does not fit have no result. -/
theorem Sign.meaning_eq_none_iff {sign : Sign} {left right : Word} :
    sign.meaning left right = none ↔
      sign.byte = 0x2F ∧ (right = 0 ∨ (left = 0x80000000 ∧ right = 0xFFFFFFFF)) := by
  unfold Sign.meaning applyOp
  split_ifs with add sub mul div trap <;> simp_all [Except.toOption]

theorem pushValue_of_room {value : Word} (room : stack.length < 32) :
    pushValue stack value = .ok (value :: stack) := if_pos room

theorem evaluate_push (numeral : Numeral) (code : List (Instruction Numeral Sign))
    (stack : List Word) :
    evaluate (itemsText (.push numeral :: code)) stack =
      (pushValue stack numeral.word).bind fun pushed => evaluate (itemsText code) pushed := by
  rw [itemsText_cons, itemText, List.append_assoc, List.singleton_append, evaluate_numeral]

/-- With fewer than two values an operator ends the evaluation. -/
theorem evaluate_apply_of_few (few : stack.length < 2) :
    evaluate (itemsText (.apply sign :: code)) stack = .ok 0 := by
  rw [itemsText_cons, itemText, List.cons_append, evaluate.eq_def]
  rcases stack with _ | ⟨right, _ | ⟨left, below⟩⟩
  · simp only [if_neg sign.notSpace, if_neg sign.notDigit]
  · simp only [if_neg sign.notSpace, if_neg sign.notDigit]
  · simp only [List.length_cons] at few
    omega

/-- An operator without a result traps. -/
theorem evaluate_apply_of_none {right left : Word} {below : List Word}
    (noResult : sign.meaning left right = none) :
    evaluate (itemsText (.apply sign :: code)) (right :: left :: below) = .error .divide := by
  rw [itemsText_cons, itemText, List.cons_append, evaluate, if_neg sign.notSpace,
    if_neg sign.notDigit]
  unfold Sign.meaning at noResult
  unfold applyOp at noResult ⊢
  split_ifs at noResult ⊢ <;> first | rfl | contradiction

/-- An operator with a result takes two values and puts one in their place. -/
theorem evaluate_apply_of_some {right left result : Word} {below : List Word}
    (hasResult : sign.meaning left right = some result)
    (small : (right :: left :: below).length ≤ 32) :
    evaluate (itemsText (.apply sign :: code)) (right :: left :: below) =
      evaluate (itemsText code) (result :: below) := by
  have applied : applyOp left right sign.byte = .ok result := by
    unfold Sign.meaning at hasResult
    cases done : applyOp left right sign.byte with
    | error fault => rw [done] at hasResult; exact absurd hasResult (by simp [Except.toOption])
    | ok other => rw [done] at hasResult; rw [Option.some.inj hasResult]
  have room : below.length < 32 := by
    simp only [List.length_cons] at small
    omega
  rw [itemsText_cons, itemText, List.cons_append, evaluate, if_neg sign.notSpace,
    if_neg sign.notDigit, applied]
  simp only [Except.bind, pushValue_of_room room, List.cons_append, evaluate_space]
  rfl

end Items

/-- The last byte, which the terminator takes the place of, is a space. -/
theorem evaluate_dropLast (code : List (Instruction Numeral Sign)) (stack : List Word) :
    evaluate (itemsText code).dropLast stack = evaluate (itemsText code) stack := by
  have ends : ∀ item : Instruction Numeral Sign, ∃ front, itemText item = front ++ [space] := by
    intro item
    cases item with
    | push numeral => exact ⟨numeral.digits, rfl⟩
    | apply sign => exact ⟨[sign.byte], rfl⟩
  induction code using List.reverseRecOn with
  | nil => rfl
  | append_singleton code last _ =>
      obtain ⟨front, text⟩ := ends last
      rw [itemsText_append, itemsText, itemsText, List.flatMap_singleton, text,
        ← List.append_assoc, List.dropLast_concat, evaluate_append_space]

/-! ### The end of an evaluation -/

section Evaluation

variable {code : List (Instruction Numeral Sign)} {trees : List (Tree Numeral Sign)}
  {stack : List Word}

/-- An evaluation that does not overrun its stack traps at a tree without a value,
stops at an operator that is short, or goes on to the end of the code. -/
theorem evaluate_items (values : Values Numeral.word Sign.meaning trees stack)
    (small : stack.length ≤ 32)
    (within : evaluate (itemsText code) stack ≠ .error .valueStack) :
    ((∃ tree ∈ grow code trees, treeValue tree = none) ∧
        evaluate (itemsText code) stack = .error .divide) ∨
      ((∀ tree ∈ grow code trees, treeValue tree ≠ none) ∧ Short code stack.length ∧
        evaluate (itemsText code) stack = .ok 0) ∨
      ∃ final, runItems code stack = some final ∧
        evaluate (itemsText code) stack = evaluate [] final := by
  induction code generalizing trees stack with
  | nil => exact .inr (.inr ⟨stack, rfl, rfl⟩)
  | cons item code inductionHypothesis =>
      cases item with
      | push numeral =>
          rw [evaluate_push] at within ⊢
          by_cases room : stack.length < 32
          · rw [pushValue_of_room room] at within ⊢
            exact inductionHypothesis (List.Forall₂.cons rfl values)
              (by simp only [List.length_cons]; omega) within
          · rw [pushValue, if_neg room] at within
            exact absurd rfl within
      | apply sign =>
          have noneValueless := values.not_valueless
          rcases trees with _ | ⟨right, _ | ⟨left, trees⟩⟩
          · obtain rfl := List.forall₂_nil_left_iff.mp values
            exact .inr (.inl ⟨fun _ none => absurd none List.not_mem_nil,
              Or.inl Nat.zero_lt_two, evaluate_apply_of_few Nat.zero_lt_two⟩)
          · obtain ⟨rightValue, _, _, none, rfl⟩ := List.forall₂_cons_left_iff.mp values
            obtain rfl := List.forall₂_nil_left_iff.mp none
            exact .inr (.inl ⟨fun tree member noValue => noneValueless ⟨tree, member, noValue⟩,
              Or.inl (Nat.lt_succ_self 1), evaluate_apply_of_few (Nat.lt_succ_self 1)⟩)
          · obtain ⟨rightValue, _, rightHas, rest, rfl⟩ := List.forall₂_cons_left_iff.mp values
            obtain ⟨leftValue, below, leftHas, _, rfl⟩ := List.forall₂_cons_left_iff.mp rest
            cases result : sign.meaning leftValue rightValue with
            | none =>
                have valueless : treeValue (.node sign left right) = none := by
                  rw [treeValue, Tree.value, leftHas, rightHas, Option.bind_some,
                    Option.bind_some, result]
                exact .inl ⟨grow_valueless _ _ code ⟨_, List.mem_cons_self, valueless⟩,
                  evaluate_apply_of_none result⟩
            | some value =>
                have high : ¬ (rightValue :: leftValue :: below).length < 2 := by simp
                rw [evaluate_apply_of_some result small] at within ⊢
                rw [Short, or_iff_right high, runItems, runCode, result]
                refine inductionHypothesis (values.node result) ?_ within
                simp only [List.length_cons] at small ⊢
                omega

end Evaluation

end BrainDance.App.Calculator
