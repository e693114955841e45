import BrainDance.Foundation.Shunting

/-!
Owns what waits while tokens are shunted. A parenthesis waits until its group is
closed, an operator until its group is closed or an operator of the group follows
that binds no tighter. This tells the stack from the tokens alone, and with it how
many operators the code has applied when a token is read.
-/

namespace BrainDance.Foundation

universe u v

section Waiting

variable {Operand : Type u} {Operator : Type v} (prec : Operator → Nat)

/-! ### One token after the other -/

/-- The stack after a token. -/
def stackStep (stack : List (Option Operator)) : Token Operand Operator → List (Option Operator)
  | .operand _ => stack
  | .opening => none :: stack
  | .closing => (restacked prec 0 stack).tail
  | .operator op => some op :: restacked prec (prec op) stack

/-- The code that comes out at a token. -/
def codeStep (stack : List (Option Operator)) :
    Token Operand Operator → List (Instruction Operand Operator)
  | .operand x => [.push x]
  | .opening => []
  | .closing => (unstacked prec 0 stack).map .apply
  | .operator op => (unstacked prec (prec op) stack).map .apply

def stackFrom (stack : List (Option Operator)) (tokens : List (Token Operand Operator)) :
    List (Option Operator) :=
  tokens.foldl (stackStep prec) stack

/-- The code that is out when the tokens are read. -/
def codeFrom (stack : List (Option Operator)) :
    List (Token Operand Operator) → List (Instruction Operand Operator)
  | [] => []
  | token :: tokens => codeStep prec stack token ++ codeFrom (stackStep prec stack token) tokens

/-! ### What waits -/

/-- How many parentheses are open above a waiting entry after a token, if it still
waits. -/
def depthStep (entry : Option Operator) (depth : Nat) : Token Operand Operator → Option Nat
  | .operand _ => some depth
  | .opening => some (depth + 1)
  | .closing => if depth = 0 then none else some (depth - 1)
  | .operator op => if depth = 0 ∧ leavesBefore prec (prec op) entry then none else some depth

/-- The entry and its number after a token. -/
def entryStep (token : Token Operand Operator) (entry : Option Operator × Nat) :
    Option (Option Operator × Nat) :=
  (depthStep prec entry.1 entry.2 token).map fun depth => (entry.1, depth)

/-- The number after the tokens behind the entry. -/
def depthThrough (entry : Option Operator) (tokens : List (Token Operand Operator)) : Option Nat :=
  tokens.foldlM (depthStep prec entry) 0

/-- What a token adds to the stack. -/
def Token.entry : Token Operand Operator → Option (Option Operator)
  | .operand _ => none
  | .opening => some none
  | .closing => none
  | .operator op => some (some op)

/-- The parentheses and operators among the tokens that still wait, each with the
number of parentheses open above it. -/
def waiting : List (Token Operand Operator) → List (Option Operator × Nat)
  | [] => []
  | token :: tokens =>
      (token.entry.bind fun entry =>
        (depthThrough prec entry tokens).map fun depth => (entry, depth)).toList ++ waiting tokens

def operands (tokens : List (Token Operand Operator)) : Nat :=
  tokens.countP fun
    | .operand _ => true
    | _ => false

def operators (tokens : List (Token Operand Operator)) : Nat :=
  tokens.countP fun
    | .operator _ => true
    | _ => false

/-- The operators among the tokens that wait no more. -/
def applied : List (Token Operand Operator) → Nat
  | [] => 0
  | .operator op :: tokens =>
      applied tokens + if depthThrough prec (some op) tokens = none then 1 else 0
  | _ :: tokens => applied tokens

variable {prec}

/-! ### Appended tokens -/

section Append

variable (tokens rest : List (Token Operand Operator)) (token : Token Operand Operator)
  (stack : List (Option Operator))

theorem shunt_cons :
    shunt prec (token :: tokens) stack =
      codeStep prec stack token ++ shunt prec tokens (stackStep prec stack token) := by
  cases token <;> rfl

theorem shunt_append :
    shunt prec (tokens ++ rest) stack =
      codeFrom prec stack tokens ++ shunt prec rest (stackFrom prec stack tokens) := by
  induction tokens generalizing stack with
  | nil => rfl
  | cons token tokens inductionHypothesis =>
      rw [List.cons_append, shunt_cons, inductionHypothesis, codeFrom, List.append_assoc]
      rfl

theorem codeFrom_append :
    codeFrom prec stack (tokens ++ rest) =
      codeFrom prec stack tokens ++ codeFrom prec (stackFrom prec stack tokens) rest := by
  induction tokens generalizing stack with
  | nil => rfl
  | cons token tokens inductionHypothesis =>
      rw [List.cons_append, codeFrom, inductionHypothesis, codeFrom, List.append_assoc]
      rfl

theorem stackFrom_concat :
    stackFrom prec stack (tokens ++ [token]) =
      stackStep prec (stackFrom prec stack tokens) token := by
  rw [stackFrom, List.foldl_append]
  rfl

theorem codeFrom_concat :
    codeFrom prec stack (tokens ++ [token]) =
      codeFrom prec stack tokens ++ codeStep prec (stackFrom prec stack tokens) token := by
  rw [codeFrom_append, codeFrom, codeFrom, List.append_nil]

/-- All that waits when the tokens end is applied. -/
theorem shunt_eq :
    shunt prec tokens stack =
      codeFrom prec stack tokens ++ (stackFrom prec stack tokens).reduceOption.map .apply := by
  have whole := @shunt_append _ _ prec tokens [] stack
  rwa [List.append_nil, shunt] at whole

/-- Every entry waits on, or not, and the new one waits. -/
theorem waiting_concat :
    waiting prec (tokens ++ [token]) =
      (waiting prec tokens).filterMap (entryStep prec token) ++
        (token.entry.map fun entry => (entry, 0)).toList := by
  induction tokens with
  | nil =>
      rw [List.nil_append]
      cases token <;> rfl
  | cons head tokens inductionHypothesis =>
      rw [List.cons_append, waiting, waiting, inductionHypothesis, List.filterMap_append,
        List.append_assoc]
      congr 1
      cases head.entry with
      | none => rfl
      | some entry =>
          rw [Option.bind_some, Option.bind_some, depthThrough, List.foldlM_append, depthThrough]
          cases tokens.foldlM (depthStep prec entry) 0 with
          | none => rfl
          | some depth =>
              cases step : depthStep prec entry depth token <;> simp [entryStep, step]

end Append

/-! ### The stack -/

/-- The entries of a stack, each with the number of parentheses above it. -/
def depths (depth : Nat) : List (Option Operator) → List (Option Operator × Nat)
  | [] => []
  | none :: stack => (none, depth) :: depths (depth + 1) stack
  | some op :: stack => (some op, depth) :: depths depth stack

/-- An operator binds tighter than one it stands on. -/
def Ascends (prec : Operator → Nat) : Option Operator → Option Operator → Prop
  | some upper, some lower => prec lower < prec upper
  | _, _ => True

section Stack

variable {stack : List (Option Operator)} {level : Nat}

theorem depths_map_fst (depth : Nat) (stack : List (Option Operator)) :
    (depths depth stack).map Prod.fst = stack := by
  induction stack generalizing depth with
  | nil => rfl
  | cons entry stack inductionHypothesis =>
      cases entry <;> simp [depths, inductionHypothesis]

theorem le_of_mem_depths {depth : Nat} {entry : Option Operator × Nat}
    (member : entry ∈ depths depth stack) : depth ≤ entry.2 := by
  induction stack generalizing depth with
  | nil => exact absurd member List.not_mem_nil
  | cons top stack inductionHypothesis =>
      cases top with
      | none =>
          rcases List.mem_cons.mp member with rfl | below
          · exact Nat.le_refl _
          · exact Nat.le_of_succ_le (inductionHypothesis below)
      | some op =>
          rcases List.mem_cons.mp member with rfl | below
          · exact Nat.le_refl _
          · exact inductionHypothesis below

@[simp] theorem entryStep_opening (entry : Option Operator × Nat) :
    entryStep prec (.opening : Token Operand Operator) entry = some (entry.1, entry.2 + 1) := rfl

@[simp] theorem entryStep_closing_zero (entry : Option Operator) :
    entryStep prec (.closing : Token Operand Operator) (entry, 0) = none := rfl

@[simp] theorem entryStep_closing_succ (entry : Option Operator) (depth : Nat) :
    entryStep prec (.closing : Token Operand Operator) (entry, depth + 1) = some (entry, depth) :=
  rfl

/-- Under a parenthesis everything is one deeper. -/
theorem depths_opening (depth : Nat) :
    (depths depth stack).filterMap (entryStep prec (.opening : Token Operand Operator)) =
      depths (depth + 1) stack := by
  induction stack generalizing depth with
  | nil => rfl
  | cons top stack inductionHypothesis =>
      cases top <;> simp [depths, inductionHypothesis]

theorem depths_closing_below (depth : Nat) :
    (depths (depth + 1) stack).filterMap (entryStep prec (.closing : Token Operand Operator)) =
      depths depth stack := by
  induction stack generalizing depth with
  | nil => rfl
  | cons top stack inductionHypothesis =>
      cases top <;> simp [depths, inductionHypothesis]

/-- Closing a group takes its operators and its parenthesis off. -/
theorem depths_closing :
    (depths 0 stack).filterMap (entryStep prec (.closing : Token Operand Operator)) =
      depths 0 (restacked prec 0 stack).tail := by
  induction stack with
  | nil => rfl
  | cons top stack inductionHypothesis =>
      cases top with
      | none =>
          rw [depths, List.filterMap_cons_none (entryStep_closing_zero _), depths_closing_below]
          rfl
      | some op =>
          have leaves : leavesBefore prec 0 (some op) = true :=
            decide_eq_true (Nat.zero_le (prec op))
          rw [depths, List.filterMap_cons_none (entryStep_closing_zero _), inductionHypothesis,
            restacked, restacked, List.dropWhile_cons_of_pos leaves]

/-- Where the top stays before `level`, so does every entry of its group. -/
theorem stays_of_settled (ascends : stack.IsChain (Ascends prec))
    (settled : Settled prec level stack) :
    ∀ entry ∈ depths 0 stack, entry.2 = 0 → leavesBefore prec level entry.1 = false := by
  induction stack with
  | nil => exact fun _ none => absurd none List.not_mem_nil
  | cons top stack inductionHypothesis =>
      intro entry member shallow
      cases top with
      | none =>
          rcases List.mem_cons.mp member with rfl | below
          · rfl
          · exact absurd (le_of_mem_depths below) (by omega)
      | some op =>
          have stays : leavesBefore prec level (some op) = false := by
            by_contra leaves
            rw [Settled, List.takeWhile_cons_of_pos (Bool.of_not_eq_false leaves)] at settled
            exact List.cons_ne_nil _ _ settled
          rcases List.mem_cons.mp member with rfl | below
          · exact stays
          · obtain ⟨upper, lower⟩ := List.isChain_cons.mp ascends
            refine inductionHypothesis lower ?_ entry below shallow
            cases stack with
            | nil => rfl
            | cons next stack =>
                cases next with
                | none => rfl
                | some other =>
                    have looser : prec other < prec op := upper _ rfl
                    have tight := of_decide_eq_false stays
                    exact settled_operator (by omega)

theorem settled_restacked (level : Nat) (stack : List (Option Operator)) :
    Settled prec level (restacked prec level stack) := by
  induction stack with
  | nil => rfl
  | cons top stack inductionHypothesis =>
      rw [restacked]
      by_cases leaves : leavesBefore prec level top = true
      · rw [List.dropWhile_cons_of_pos leaves]
        exact inductionHypothesis
      · rw [List.dropWhile_cons_of_neg leaves, Settled, List.takeWhile_cons_of_neg leaves]

/-- An operator takes those of its group off that bind no looser. -/
theorem depths_operator (ascends : stack.IsChain (Ascends prec)) (op : Operator) :
    (depths 0 stack).filterMap (entryStep prec (.operator op : Token Operand Operator)) =
      depths 0 (restacked prec (prec op) stack) := by
  induction stack with
  | nil => rfl
  | cons top stack inductionHypothesis =>
      by_cases leaves : leavesBefore prec (prec op) top = true
      · cases top with
        | none => exact absurd leaves Bool.false_ne_true
        | some other =>
            have gone : entryStep prec (.operator op : Token Operand Operator) (some other, 0) =
                none := by
              rw [entryStep, depthStep, if_pos ⟨rfl, leaves⟩, Option.map_none]
            rw [depths, List.filterMap_cons_none gone,
              inductionHypothesis (List.isChain_cons.mp ascends).2, restacked, restacked,
              List.dropWhile_cons_of_pos leaves]
      · have settled : Settled prec (prec op) (top :: stack) := List.takeWhile_cons_of_neg leaves
        have stays := stays_of_settled ascends settled
        rw [settled.restacked_eq]
        refine Eq.trans (List.filterMap_congr (g := some) fun entry member => ?_)
          List.filterMap_some
        rw [entryStep, depthStep, if_neg, Option.map_some]
        rintro ⟨shallow, leaving⟩
        exact Bool.false_ne_true ((stays entry member shallow).symm.trans leaving)

/-- What is left of an ascending stack ascends, and so does an operator on it. -/
theorem ascends_stackStep (ascends : stack.IsChain (Ascends prec))
    (token : Token Operand Operator) :
    (stackStep prec stack token).IsChain (Ascends prec) := by
  cases token with
  | operand x => exact ascends
  | opening => exact List.isChain_cons.mpr ⟨fun _ _ => trivial, ascends⟩
  | closing => exact (ascends.suffix (List.dropWhile_suffix _)).tail
  | operator op =>
      have lower := ascends.suffix (List.dropWhile_suffix (leavesBefore prec (prec op)))
      have settled := @settled_restacked _ prec (prec op) stack
      refine List.isChain_cons.mpr ⟨fun next isHead => ?_, lower⟩
      cases next with
      | none => trivial
      | some other =>
          by_contra tight
          have leaves : leavesBefore prec (prec op) (some other) = true :=
            decide_eq_true (Nat.not_lt.mp tight)
          rw [List.eq_cons_of_mem_head? isHead, Settled, List.takeWhile_cons_of_pos leaves]
            at settled
          exact List.cons_ne_nil _ _ settled

theorem ascends_stackFrom (tokens : List (Token Operand Operator)) :
    (stackFrom prec [] tokens).IsChain (Ascends prec) := by
  induction tokens using List.reverseRecOn with
  | nil => exact List.isChain_nil
  | append_singleton tokens token inductionHypothesis =>
      rw [stackFrom_concat]
      exact ascends_stackStep inductionHypothesis token

theorem depths_stackStep (ascends : stack.IsChain (Ascends prec)) (token : Token Operand Operator) :
    depths 0 (stackStep prec stack token) =
      (token.entry.map fun entry => (entry, 0)).toList ++
        (depths 0 stack).filterMap (entryStep prec token) := by
  cases token with
  | operand x => exact (List.filterMap_some).symm
  | opening => rw [depths_opening]; rfl
  | closing => rw [depths_closing]; rfl
  | operator op => rw [depths_operator ascends]; rfl

/-- The stack holds what waits, the last on top. -/
theorem waiting_reverse (tokens : List (Token Operand Operator)) :
    (waiting prec tokens).reverse = depths 0 (stackFrom prec [] tokens) := by
  induction tokens using List.reverseRecOn with
  | nil => rfl
  | append_singleton tokens token inductionHypothesis =>
      rw [waiting_concat, List.reverse_append, ← List.filterMap_reverse, inductionHypothesis,
        stackFrom_concat, depths_stackStep (ascends_stackFrom tokens)]
      congr 1
      cases token.entry <;> rfl

theorem length_stackFrom (tokens : List (Token Operand Operator)) :
    (stackFrom prec [] tokens).length = (waiting prec tokens).length := by
  have entries := congrArg List.length (@waiting_reverse _ _ prec tokens)
  have stack := congrArg List.length (depths_map_fst 0 (stackFrom prec [] tokens))
  rw [List.length_reverse] at entries
  rw [List.length_map] at stack
  exact stack.symm.trans entries.symm

end Stack

/-! ### What is applied -/

def pushes (code : List (Instruction Operand Operator)) : Nat :=
  code.countP fun
    | .push _ => true
    | .apply _ => false

def applies (code : List (Instruction Operand Operator)) : Nat :=
  code.countP fun
    | .push _ => false
    | .apply _ => true

section Counts

variable (tokens : List (Token Operand Operator)) (token : Token Operand Operator)
  (stack : List (Option Operator))

@[simp] theorem pushes_append (first second : List (Instruction Operand Operator)) :
    pushes (first ++ second) = pushes first + pushes second := List.countP_append

@[simp] theorem applies_append (first second : List (Instruction Operand Operator)) :
    applies (first ++ second) = applies first + applies second := List.countP_append

@[simp] theorem pushes_map_apply (ops : List Operator) :
    pushes (ops.map (.apply : Operator → Instruction Operand Operator)) = 0 := by
  simp [pushes]

@[simp] theorem applies_map_apply (ops : List Operator) :
    applies (ops.map (.apply : Operator → Instruction Operand Operator)) = ops.length := by
  simp [applies, List.countP_map, Function.comp_def]

theorem operands_append (first second : List (Token Operand Operator)) :
    operands (first ++ second) = operands first + operands second := List.countP_append

theorem operators_append (first second : List (Token Operand Operator)) :
    operators (first ++ second) = operators first + operators second := List.countP_append

/-- Every operand is pushed when it is read. -/
theorem pushes_codeFrom : pushes (codeFrom prec stack tokens) = operands tokens := by
  induction tokens generalizing stack with
  | nil => rfl
  | cons token tokens inductionHypothesis =>
      rw [codeFrom, pushes_append, inductionHypothesis, ← List.singleton_append, operands_append]
      congr 1
      cases token <;> simp [codeStep, pushes, operands]

/-- Operators are moved from the stack to the code. -/
theorem unstacked_length (level : Nat) :
    (unstacked prec level stack).length + (restacked prec level stack).reduceOption.length =
      stack.reduceOption.length := by
  rw [unstacked, restacked, ← List.length_append, ← List.reduceOption_append,
    List.takeWhile_append_dropWhile]

theorem applies_codeStep :
    applies (codeStep prec stack token) + (stackStep prec stack token).reduceOption.length =
      stack.reduceOption.length + operators [token] := by
  cases token with
  | operand x => exact Nat.zero_add _
  | opening => exact Nat.zero_add _
  | closing =>
      have noOperator : operators [(.closing : Token Operand Operator)] = 0 := rfl
      rw [codeStep, applies_map_apply, stackStep, ← unstacked_length stack 0, noOperator,
        Nat.add_zero]
      congr 1
      cases rest : restacked prec 0 stack with
      | nil => rfl
      | cons top below =>
          cases top with
          | none => rfl
          | some op =>
              have settled := @settled_restacked _ prec 0 stack
              have leaves : leavesBefore prec 0 (some op) = true :=
                decide_eq_true (Nat.zero_le (prec op))
              rw [rest, Settled, List.takeWhile_cons_of_pos leaves] at settled
              exact absurd settled (List.cons_ne_nil _ _)
  | operator op =>
      rw [codeStep, applies_map_apply, stackStep, List.reduceOption_cons_of_some,
        List.length_cons, ← unstacked_length stack (prec op), ← Nat.add_assoc]
      rfl

/-- Every operator is applied or on the stack. -/
theorem applies_codeFrom_add :
    applies (codeFrom prec [] tokens) + (stackFrom prec [] tokens).reduceOption.length =
      operators tokens := by
  induction tokens using List.reverseRecOn with
  | nil => rfl
  | append_singleton tokens token inductionHypothesis =>
      have step := @applies_codeStep _ _ prec token (stackFrom prec [] tokens)
      rw [codeFrom_concat, applies_append, stackFrom_concat, operators_append]
      omega

theorem applied_add :
    applied prec tokens + (waiting prec tokens).countP (fun entry => entry.1.isSome) =
      operators tokens := by
  induction tokens with
  | nil => rfl
  | cons token tokens inductionHypothesis =>
      rw [← List.singleton_append, operators_append, ← inductionHypothesis]
      cases token with
      | operand x => simp [applied, waiting, operators, Token.entry]
      | opening =>
          cases through : depthThrough prec none tokens <;>
            simp [applied, waiting, operators, Token.entry, through]
      | closing => simp [applied, waiting, operators, Token.entry]
      | operator op =>
          cases through : depthThrough prec (some op) tokens <;>
            simp [applied, waiting, operators, Token.entry, through] <;> omega

theorem countP_depths (depth : Nat) :
    (depths depth stack).countP (fun entry => entry.1.isSome) = stack.reduceOption.length := by
  induction stack generalizing depth with
  | nil => rfl
  | cons top stack inductionHypothesis =>
      cases top <;> simp [depths, inductionHypothesis]

/-- The operators that the code applies are those that wait no more. -/
theorem applies_codeFrom : applies (codeFrom prec [] tokens) = applied prec tokens := by
  have stacked := @applies_codeFrom_add _ _ prec tokens
  have waits := @applied_add _ _ prec tokens
  have same := countP_depths (stackFrom prec [] tokens) 0
  rw [← waiting_reverse, List.countP_reverse] at same
  omega

end Counts

end Waiting

end BrainDance.Foundation
