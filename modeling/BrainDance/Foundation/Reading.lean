import BrainDance.Foundation.Waiting

/-!
Owns what postfix code means where it need not come from a phrase: the trees that
it grows, up to the first operator that finds fewer than two of them. Running the
code stops exactly at such an operator or at a tree without a value. The code that
tokens shunt into is that of one tree exactly when the tokens' counts come out
right.
-/

namespace BrainDance.Foundation

universe u v w

/-! ### Trees -/

inductive Tree (Operand : Type u) (Operator : Type v) where
  | leaf (x : Operand)
  | node (op : Operator) (left right : Tree Operand Operator)
deriving DecidableEq

section Reading

variable {Operand : Type u} {Operator : Type v} {Value : Type w}

namespace Tree

def code : Tree Operand Operator → List (Instruction Operand Operator)
  | leaf x => [.push x]
  | node op left right => left.code ++ right.code ++ [.apply op]

/-- The value, where the operators are partial. -/
def value (literal : Operand → Value) (meaning : Operator → Value → Value → Option Value) :
    Tree Operand Operator → Option Value
  | leaf x => some (literal x)
  | node op left right =>
      (left.value literal meaning).bind fun leftValue =>
        (right.value literal meaning).bind fun rightValue => meaning op leftValue rightValue

end Tree

/-- The trees that code grows on others, the last one first. An operator without two
trees ends it. -/
def grow : List (Instruction Operand Operator) → List (Tree Operand Operator) →
    List (Tree Operand Operator)
  | [], trees => trees
  | .push x :: code, trees => grow code (.leaf x :: trees)
  | .apply op :: code, right :: left :: trees => grow code (.node op left right :: trees)
  | .apply _ :: _, trees => trees

/-- Above `height` values some operator of the code finds fewer than two. -/
def Short : List (Instruction Operand Operator) → Nat → Prop
  | [], _ => False
  | .push _ :: code, height => Short code (height + 1)
  | .apply _ :: code, height => height < 2 ∨ Short code (height - 1)

instance decidableShort :
    ∀ (code : List (Instruction Operand Operator)) (height : Nat), Decidable (Short code height)
  | [], _ => inferInstanceAs (Decidable False)
  | .push _ :: code, height => decidableShort code (height + 1)
  | .apply _ :: code, height =>
      let _ := decidableShort code (height - 1)
      inferInstanceAs (Decidable (height < 2 ∨ _))

section Height

variable {code : List (Instruction Operand Operator)} {height : Nat}

theorem short_append (first second : List (Instruction Operand Operator)) (height : Nat) :
    Short (first ++ second) height ↔
      Short first height ∨ Short second (height + pushes first - applies first) := by
  induction first generalizing height with
  | nil => simp [Short, pushes, applies]
  | cons instruction first inductionHypothesis =>
      rw [List.cons_append]
      cases instruction with
      | push x =>
          have same : height + 1 + pushes first - applies first =
              height + pushes (.push x :: first) - applies (.push x :: first) := by
            simp only [pushes, applies, List.countP_cons_of_pos, List.countP_cons_of_neg,
              Bool.false_eq_true, not_false_iff]
            omega
          rw [Short, Short, inductionHypothesis, same]
      | apply op =>
          rw [Short, Short, inductionHypothesis, or_assoc]
          by_cases low : height < 2
          · simp [low]
          · have same : height - 1 + pushes first - applies first =
                height + pushes (.apply op :: first) - applies (.apply op :: first) := by
              simp only [pushes, applies, List.countP_cons_of_pos, List.countP_cons_of_neg,
                Bool.false_eq_true, not_false_iff]
              omega
            rw [same]

/-- A row of operators needs one value more than it has operators. -/
theorem short_map_apply (ops : List Operator) (height : Nat) :
    Short (ops.map (.apply : Operator → Instruction Operand Operator)) height ↔
      0 < ops.length ∧ height ≤ ops.length := by
  induction ops generalizing height with
  | nil => simp [Short]
  | cons op ops inductionHypothesis =>
      rw [List.map_cons, Short, inductionHypothesis, List.length_cons]
      omega

/-- An operator that is not short finds its operands. -/
theorem operands_of_enough {Item : Type w} {op : Operator} {items : List Item}
    (enough : ¬ Short (.apply op :: code) items.length) :
    ∃ right left below, items = right :: left :: below ∧
      ¬ Short code (right :: below).length := by
  rcases items with _ | ⟨right, _ | ⟨left, below⟩⟩
  · exact absurd (Or.inl Nat.zero_lt_two) enough
  · exact absurd (Or.inl (Nat.lt_succ_self 1)) enough
  · exact ⟨right, left, below, rfl, fun short => enough (Or.inr short)⟩

/-- Where no operator is short, each takes one tree away. -/
theorem grow_length {trees : List (Tree Operand Operator)} (enough : ¬ Short code trees.length) :
    (grow code trees).length + applies code = trees.length + pushes code := by
  induction code generalizing trees with
  | nil => rfl
  | cons instruction code inductionHypothesis =>
      cases instruction with
      | push x =>
          have rest := @inductionHypothesis (.leaf x :: trees) enough
          simp only [grow, pushes, applies, List.countP_cons_of_pos, List.countP_cons_of_neg,
            Bool.false_eq_true, not_false_iff, List.length_cons] at rest ⊢
          omega
      | apply op =>
          obtain ⟨right, left, below, rfl, enoughBelow⟩ := operands_of_enough enough
          have rest := @inductionHypothesis (.node op left right :: below) enoughBelow
          simp only [grow, pushes, applies, List.countP_cons_of_pos, List.countP_cons_of_neg,
            Bool.false_eq_true, not_false_iff, List.length_cons] at rest ⊢
          omega

/-- The code of a tree grows it. -/
theorem grow_code (tree : Tree Operand Operator) (rest : List (Instruction Operand Operator))
    (trees : List (Tree Operand Operator)) :
    grow (tree.code ++ rest) trees = grow rest (tree :: trees) := by
  induction tree generalizing rest trees with
  | leaf x => rfl
  | node op left right leftHypothesis rightHypothesis =>
      rw [Tree.code, List.append_assoc, List.append_assoc, leftHypothesis, rightHypothesis]
      rfl

theorem grow_tree_code (tree : Tree Operand Operator) : grow tree.code [] = [tree] := by
  have grown := grow_code tree [] []
  rwa [List.append_nil] at grown

theorem short_code (tree : Tree Operand Operator) (rest : List (Instruction Operand Operator))
    (height : Nat) : Short (tree.code ++ rest) height ↔ Short rest (height + 1) := by
  induction tree generalizing rest height with
  | leaf x => rfl
  | node op left right leftHypothesis rightHypothesis =>
      rw [Tree.code, List.append_assoc, List.append_assoc, leftHypothesis, rightHypothesis,
        List.singleton_append, Short]
      simp

/-- Where no operator is short, the trees hold the code that grew them. -/
theorem grow_codes {trees : List (Tree Operand Operator)} (enough : ¬ Short code trees.length) :
    (grow code trees).reverse.flatMap Tree.code = trees.reverse.flatMap Tree.code ++ code := by
  induction code generalizing trees with
  | nil => exact (List.append_nil _).symm
  | cons instruction code inductionHypothesis =>
      cases instruction with
      | push x =>
          rw [grow, @inductionHypothesis (.leaf x :: trees) enough, List.reverse_cons,
            List.flatMap_append, List.flatMap_singleton, List.append_assoc]
          rfl
      | apply op =>
          obtain ⟨right, left, below, rfl, enoughBelow⟩ := operands_of_enough enough
          have rest := @inductionHypothesis (.node op left right :: below) enoughBelow
          rw [grow, rest]
          simp [Tree.code]

/-- Code is that of a tree exactly when no operator is short and one value is left. -/
theorem exists_code_eq_iff :
    (∃ tree : Tree Operand Operator, tree.code = code) ↔
      ¬ Short code 0 ∧ pushes code = applies code + 1 := by
  constructor
  · rintro ⟨tree, rfl⟩
    have enough : ¬ Short tree.code 0 := by
      have short := short_code tree [] 0
      rw [List.append_nil] at short
      exact short.not.mpr not_false
    have length := @grow_length _ _ tree.code [] enough
    rw [grow_tree_code, List.length_singleton, List.length_nil] at length
    exact ⟨enough, by omega⟩
  · rintro ⟨enough, counts⟩
    have length := @grow_length _ _ code [] enough
    rw [List.length_nil] at length
    obtain ⟨tree, grown⟩ := List.length_eq_one_iff.mp (show (grow code []).length = 1 by omega)
    have codes := @grow_codes _ _ code [] enough
    rw [grown] at codes
    exact ⟨tree, by simpa using codes⟩

end Height

/-! ### Running the code -/

section Running

variable (literal : Operand → Value) (meaning : Operator → Value → Value → Option Value)
  {code : List (Instruction Operand Operator)} {trees : List (Tree Operand Operator)}
  {stack : List Value}

/-- The stack holds the values of the trees. -/
def Values (trees : List (Tree Operand Operator)) (stack : List Value) : Prop :=
  List.Forall₂ (fun tree value => tree.value literal meaning = some value) trees stack

/-- A tree without a value stays part of what grows. -/
theorem grow_valueless (code : List (Instruction Operand Operator))
    (valueless : ∃ tree ∈ trees, tree.value literal meaning = none) :
    ∃ tree ∈ grow code trees, tree.value literal meaning = none := by
  induction code generalizing trees with
  | nil => exact valueless
  | cons instruction code inductionHypothesis =>
      obtain ⟨tree, member, noValue⟩ := valueless
      cases instruction with
      | push x => exact inductionHypothesis ⟨tree, List.mem_cons_of_mem _ member, noValue⟩
      | apply op =>
          rcases trees with _ | ⟨right, _ | ⟨left, trees⟩⟩
          · exact ⟨tree, member, noValue⟩
          · exact ⟨tree, member, noValue⟩
          · refine inductionHypothesis ?_
            rcases List.mem_cons.mp member with rfl | member
            · refine ⟨_, List.mem_cons_self, ?_⟩
              rw [Tree.value, noValue]
              cases left.value literal meaning <;> rfl
            · rcases List.mem_cons.mp member with rfl | member
              · refine ⟨_, List.mem_cons_self, ?_⟩
                rw [Tree.value, noValue]
                rfl
              · exact ⟨tree, List.mem_cons_of_mem _ member, noValue⟩

variable {literal meaning}

theorem Values.not_valueless (values : Values literal meaning trees stack) :
    ¬ ∃ tree ∈ trees, tree.value literal meaning = none := by
  induction values with
  | nil => simp
  | cons value _ inductionHypothesis =>
      rintro ⟨tree, member, noValue⟩
      rcases List.mem_cons.mp member with rfl | member
      · rw [value] at noValue
        contradiction
      · exact inductionHypothesis ⟨tree, member, noValue⟩

theorem Values.node {op : Operator} {right left : Tree Operand Operator}
    {rightValue leftValue result : Value} {below : List Value}
    (values : Values literal meaning (right :: left :: trees) (rightValue :: leftValue :: below))
    (defined : meaning op leftValue rightValue = some result) :
    Values literal meaning (.node op left right :: trees) (result :: below) := by
  obtain ⟨rightHas, values⟩ := List.forall₂_cons.mp values
  obtain ⟨leftHas, values⟩ := List.forall₂_cons.mp values
  refine List.forall₂_cons.mpr ⟨?_, values⟩
  rw [Tree.value, leftHas, rightHas, Option.bind_some, Option.bind_some, defined]

/-- The run stops at a short operator and at a tree without a value, and otherwise
ends with the values of the trees. -/
theorem runCode_spec (values : Values literal meaning trees stack) :
    (runCode literal meaning code stack = none ↔
      Short code stack.length ∨ ∃ tree ∈ grow code trees, tree.value literal meaning = none) ∧
    ∀ final, runCode literal meaning code stack = some final →
      Values literal meaning (grow code trees) final := by
  induction code generalizing trees stack with
  | nil =>
      refine ⟨?_, fun final ran => Option.some.inj ran ▸ values⟩
      rw [runCode, grow, Short, false_or]
      exact iff_of_false (Option.some_ne_none stack) values.not_valueless
  | cons instruction code inductionHypothesis =>
      cases instruction with
      | push x => exact inductionHypothesis (List.Forall₂.cons rfl values)
      | apply op =>
          rcases trees with _ | ⟨right, _ | ⟨left, trees⟩⟩
          · obtain rfl := List.forall₂_nil_left_iff.mp values
            exact ⟨iff_of_true rfl (Or.inl (Or.inl Nat.zero_lt_two)),
              fun _ ran => absurd ran (by simp [runCode])⟩
          · obtain ⟨rightValue, _, _, none, rfl⟩ := List.forall₂_cons_left_iff.mp values
            obtain rfl := List.forall₂_nil_left_iff.mp none
            exact ⟨iff_of_true rfl (Or.inl (Or.inl (Nat.lt_succ_self 1))),
              fun _ ran => absurd ran (by simp [runCode])⟩
          · obtain ⟨rightValue, _, rightHas, rest, rfl⟩ := List.forall₂_cons_left_iff.mp values
            obtain ⟨leftValue, below, leftHas, _, rfl⟩ := List.forall₂_cons_left_iff.mp rest
            rw [runCode, grow]
            cases defined : meaning op leftValue rightValue with
            | none =>
                have valueless : (Tree.node op left right).value literal meaning = none := by
                  rw [Tree.value, leftHas, rightHas, Option.bind_some, Option.bind_some, defined]
                refine ⟨iff_of_true rfl (Or.inr ?_), fun _ ran => absurd ran (by simp)⟩
                exact grow_valueless literal meaning code ⟨_, List.mem_cons_self, valueless⟩
            | some result =>
                have rest := inductionHypothesis (values.node defined)
                have high : ¬ (rightValue :: leftValue :: below).length < 2 := by simp
                rw [Option.bind_some, Short, or_iff_right high]
                exact rest

theorem runCode_append (first second : List (Instruction Operand Operator)) (stack : List Value) :
    runCode literal meaning (first ++ second) stack =
      (runCode literal meaning first stack).bind (runCode literal meaning second) := by
  induction first generalizing stack with
  | nil => rfl
  | cons instruction first inductionHypothesis =>
      rw [List.cons_append]
      cases instruction with
      | push x => exact inductionHypothesis _
      | apply op =>
          rcases stack with _ | ⟨right, _ | ⟨left, below⟩⟩
          · rfl
          · rfl
          · rw [runCode, runCode, Option.bind_assoc]
            simp only [inductionHypothesis]

/-- A push adds a value and an operator takes one away. -/
theorem runCode_length {final : List Value}
    (ran : runCode literal meaning code stack = some final) :
    final.length + applies code = stack.length + pushes code := by
  induction code generalizing stack with
  | nil => rw [← Option.some.inj ran]; rfl
  | cons instruction code inductionHypothesis =>
      cases instruction with
      | push x =>
          have rest := inductionHypothesis ran
          simp only [pushes, applies, List.countP_cons_of_pos, List.countP_cons_of_neg,
            Bool.false_eq_true, not_false_iff, List.length_cons] at rest ⊢
          omega
      | apply op =>
          rcases stack with _ | ⟨right, _ | ⟨left, below⟩⟩
          · exact absurd ran (by simp [runCode])
          · exact absurd ran (by simp [runCode])
          · obtain ⟨result, _, ran⟩ := Option.bind_eq_some_iff.mp ran
            have rest := inductionHypothesis ran
            simp only [pushes, applies, List.countP_cons_of_pos, List.countP_cons_of_neg,
              Bool.false_eq_true, not_false_iff, List.length_cons] at rest ⊢
            omega

end Running

/-! ### Counts of tokens -/

section Counts

variable (prec : Operator → Nat) (tokens : List (Token Operand Operator))

/-- Somewhere in the tokens as many operators have been applied as there are operands
in front. -/
def Lacks : Prop :=
  ∃ k ≤ tokens.length, 0 < applied prec (tokens.take k) ∧
    operands (tokens.take k) ≤ applied prec (tokens.take k)

/-- There is one operand more than operators, and at every place more operands have
been read than operators applied. -/
def CountsRight : Prop := operands tokens = operators tokens + 1 ∧ ¬ Lacks prec tokens

variable {prec}

theorem lacks_concat (token : Token Operand Operator) :
    Lacks prec (tokens ++ [token]) ↔ Lacks prec tokens ∨
      (0 < applied prec (tokens ++ [token]) ∧
        operands (tokens ++ [token]) ≤ applied prec (tokens ++ [token])) := by
  constructor
  · rintro ⟨k, within, lacks⟩
    rw [List.length_append, List.length_singleton] at within
    by_cases last : k = tokens.length + 1
    · rw [List.take_of_length_le (by simp [last])] at lacks
      exact Or.inr lacks
    · rw [List.take_append_of_le_length (by omega)] at lacks
      exact Or.inl ⟨k, by omega, lacks⟩
  · rintro (⟨k, within, lacks⟩ | lacks)
    · refine ⟨k, by simp; omega, ?_⟩
      rw [List.take_append_of_le_length within]
      exact lacks
    · exact ⟨_, le_rfl, by rwa [List.take_length]⟩

theorem lacks_of_all (positive : 0 < applied prec tokens)
    (few : operands tokens ≤ applied prec tokens) : Lacks prec tokens :=
  ⟨tokens.length, le_rfl, by rw [List.take_length]; exact ⟨positive, few⟩⟩

/-- A token other than an operand puts out a row of operators. -/
theorem codeStep_cases (token : Token Operand Operator) (stack : List (Option Operator)) :
    (∃ x, token = .operand x) ∨
      ∃ ops : List Operator, codeStep prec stack token = ops.map .apply ∧ operands [token] = 0 := by
  cases token with
  | operand x => exact .inl ⟨x, rfl⟩
  | opening => exact .inr ⟨[], rfl, rfl⟩
  | closing => exact .inr ⟨_, rfl, rfl⟩
  | operator op => exact .inr ⟨_, rfl, rfl⟩

/-- An operator of the code is short where the tokens lack operands. -/
theorem short_codeFrom : Short (codeFrom prec [] tokens) 0 ↔ Lacks prec tokens := by
  induction tokens using List.reverseRecOn with
  | nil => simp [codeFrom, Short, Lacks, applied]
  | append_singleton tokens token inductionHypothesis =>
      have lacks := @lacks_of_all _ _ prec tokens
      have read := @pushes_codeFrom _ _ prec tokens []
      have before := @applies_codeFrom _ _ prec tokens
      have after := @applies_codeFrom _ _ prec (tokens ++ [token])
      rw [codeFrom_concat, applies_append, before] at after
      rw [codeFrom_concat, short_append, inductionHypothesis, lacks_concat, Nat.zero_add, read,
        before, operands_append, ← after]
      rcases @codeStep_cases _ _ prec token (stackFrom prec [] tokens) with
        ⟨x, rfl⟩ | ⟨ops, step, none⟩
      · have noOperator : applies [(.push x : Instruction Operand Operator)] = 0 := rfl
        have one : operands [(.operand x : Token Operand Operator)] = 1 := rfl
        rw [codeStep, one, noOperator, Short, Short]
        refine ⟨fun left => left.elim Or.inl False.elim,
          fun right => right.elim Or.inl fun few => ?_⟩
        exact Or.inl (lacks (by omega) (by omega))
      · rw [step, none, applies_map_apply, short_map_apply]
        refine ⟨fun left => left.imp_right fun few => by omega, fun right => ?_⟩
        rcases right with lack | few
        · exact Or.inl lack
        · by_cases empty : ops.length = 0
          · exact Or.inl (lacks (by omega) (by omega))
          · exact Or.inr (by omega)

theorem pushes_shunt : pushes (shunt prec tokens []) = operands tokens := by
  rw [shunt_eq, pushes_append, pushes_codeFrom, pushes_map_apply, Nat.add_zero]

theorem applies_shunt : applies (shunt prec tokens []) = operators tokens := by
  rw [shunt_eq, applies_append, applies_map_apply, applies_codeFrom_add]

/-- When the tokens end, the operators that wait are applied too. -/
theorem short_shunt :
    Short (shunt prec tokens []) 0 ↔
      Lacks prec tokens ∨ (0 < operators tokens ∧ operands tokens ≤ operators tokens) := by
  have lacks := @lacks_of_all _ _ prec tokens
  have counted := @applies_codeFrom_add _ _ prec tokens
  have out := @applies_codeFrom _ _ prec tokens
  rw [shunt_eq, short_append, short_codeFrom, short_map_apply, pushes_codeFrom, out, Nat.zero_add]
  rw [out] at counted
  refine ⟨fun left => left.imp_right fun few => by omega, fun right => ?_⟩
  rcases right with lack | few
  · exact Or.inl lack
  · by_cases empty : (stackFrom prec [] tokens).reduceOption.length = 0
    · exact Or.inl (lacks (by omega) (by omega))
    · exact Or.inr (by omega)

/-- The tokens shunt into the code of a tree exactly when their counts come out
right. -/
theorem exists_code_eq_shunt_iff :
    (∃ tree : Tree Operand Operator, tree.code = shunt prec tokens []) ↔
      CountsRight prec tokens := by
  rw [exists_code_eq_iff, short_shunt, pushes_shunt, applies_shunt, CountsRight]
  constructor
  · rintro ⟨enough, counts⟩
    exact ⟨counts, fun lack => enough (Or.inl lack)⟩
  · rintro ⟨counts, enough⟩
    exact ⟨fun short => short.elim enough fun few => by omega, counts⟩

end Counts

end Reading

end BrainDance.Foundation
