import BrainDance.App.Calculator.Grammar
import BrainDance.Foundation.Reading

/-!
Owns what `infix_to_postfix` makes of any text. It reads a text as tokens, where
every byte that is no space, digit or parenthesis is an operator, and writes the
text of the code that the tokens shunt into. The conversion stays in its arrays
exactly when that text fits the output and never more than 32 entries wait.
-/

namespace BrainDance.App.Calculator

open BrainDance.Foundation

/-! ### Tokens of a text -/

/-- A byte that the calculator takes for an operator. -/
structure Sign where
  byte : Byte
  notSpace : byte ≠ space
  notDigit : ¬ isDigit byte = true
  notOpening : byte ≠ openParen
  notClosing : byte ≠ closeParen
deriving DecidableEq

def Sign.rank (sign : Sign) : Nat := precedence sign.byte

/-- The number that starts with the digit `c`. -/
def Numeral.leading (c : Byte) (rest : List Byte) (digit : isDigit c = true) : Numeral where
  digits := c :: rest.takeWhile isDigit
  nonempty := List.cons_ne_nil _ _
  decimal := List.forall_mem_cons.mpr ⟨digit, fun _ member => List.mem_takeWhile_imp member⟩

/-- The tokens as the calculator reads them. -/
def scan (text : List Byte) : List (Token Numeral Sign) :=
  match text with
  | [] => []
  | c :: rest =>
      if isSpace : c = space then scan rest
      else if digit : isDigit c = true then
        .operand (.leading c rest digit) :: scan (rest.dropWhile isDigit)
      else if opening : c = openParen then .opening :: scan rest
      else if closing : c = closeParen then .closing :: scan rest
      else .operator ⟨c, isSpace, digit, opening, closing⟩ :: scan rest
termination_by text.length
decreasing_by
  all_goals simp only [List.length_cons]
  all_goals have := List.length_dropWhile_le isDigit rest
  all_goals omega

/-! ### Texts of items -/

def itemText : Instruction Numeral Sign → List Byte
  | .push numeral => numeral.digits ++ [space]
  | .apply sign => [sign.byte, space]

/-- Postfix code as the calculator writes it, a space after every item. -/
def itemsText (code : List (Instruction Numeral Sign)) : List Byte := code.flatMap itemText

/-- An entry of the operator stack. -/
def entryByte : Option Sign → Byte
  | none => openParen
  | some sign => sign.byte

theorem itemsText_cons (item : Instruction Numeral Sign) (code : List (Instruction Numeral Sign)) :
    itemsText (item :: code) = itemText item ++ itemsText code := List.flatMap_cons

theorem itemsText_append (first second : List (Instruction Numeral Sign)) :
    itemsText (first ++ second) = itemsText first ++ itemsText second := List.flatMap_append

theorem itemsText_map_apply_length (signs : List Sign) :
    (itemsText (signs.map .apply)).length = 2 * signs.length := by
  induction signs with
  | nil => rfl
  | cons sign signs inductionHypothesis =>
      rw [List.map_cons, itemsText_cons, List.length_append, inductionHypothesis, itemText,
        List.length_cons, List.length_cons]
      simp only [List.length_cons, List.length_nil]
      omega

/-! ### Output -/

/-- Writing the bytes one after the other. -/
def put (output bytes : List Byte) : Except Fault (List Byte) :=
  if output.length + bytes.length ≤ 256 then .ok (output ++ bytes) else .error .outputBuffer

section Output

variable {output bytes result : List Byte} {c : Byte}

theorem emit_eq_put (output : List Byte) (c : Byte) : emit output c = put output [c] := rfl

theorem put_put (output first second : List Byte) :
    (put output first).bind (fun written => put written second) =
      put output (first ++ second) := by
  unfold put
  rw [List.length_append]
  by_cases fits : output.length + first.length ≤ 256
  · rw [if_pos fits]
    simp only [Except.bind, List.length_append, List.append_assoc, Nat.add_assoc]
  · rw [if_neg fits, if_neg (by omega)]
    rfl

theorem put_nil (fits : output.length ≤ 256) : put output [] = .ok output := by
  rw [put, if_pos (by simpa using fits), List.append_nil]

theorem emitSpaced_eq_put (output : List Byte) (c : Byte) :
    emitSpaced output c = put output [c, space] := put_put output [c] [space]

theorem foldlM_emit_eq_put (fits : output.length ≤ 256) (bytes : List Byte) :
    bytes.foldlM emit output = put output bytes := by
  induction bytes using List.reverseRecOn with
  | nil => exact (put_nil fits).symm
  | append_singleton bytes c inductionHypothesis =>
      rw [List.foldlM_append, inductionHypothesis, ← put_put]
      simp only [List.foldlM_cons, List.foldlM_nil, emit_eq_put, bind_pure]
      rfl

theorem put_length (done : put output bytes = .ok result) : result.length ≤ 256 := by
  unfold put at done
  split at done
  · obtain rfl := Except.ok.inj done
    rw [List.length_append]
    assumption
  · exact absurd done (by simp)

/-- Writing some bytes first and going on as `put` does is writing all of them. -/
theorem put_bind_iff {rest : List Byte} {condition : Prop}
    {next : List Byte → Except Fault (List Byte)}
    (goesOn : ∀ written, written.length ≤ 256 →
      (next written = .ok result ↔ put written rest = .ok result ∧ condition)) :
    (put output bytes).bind next = .ok result ↔
      put output (bytes ++ rest) = .ok result ∧ condition := by
  rw [← put_put]
  cases done : put output bytes with
  | error fault => exact iff_of_false (by simp [Except.bind]) (by simp [Except.bind])
  | ok written => exact goesOn written (put_length done)

theorem pushOperator_bind_iff {stack : List Byte} {next : List Byte → Except Fault (List Byte)} :
    (pushOperator stack c).bind next = .ok result ↔
      stack.length < 32 ∧ next (c :: stack) = .ok result := by
  unfold pushOperator
  split
  · rename_i room
    exact (and_iff_right room).symm
  · rename_i full
    exact iff_of_false (by simp [Except.bind]) (fun both => full both.1)

end Output

/-! ### Operator stack -/

section Stack

variable {stack : List (Option Sign)} {output result : List Byte}

/-- The loops that pop operators write those that leave before `level`. -/
theorem popOperators_eq_put {leaves : Byte → Bool} {level : Nat}
    (agree : ∀ sign : Sign, leaves sign.byte = decide (level ≤ sign.rank))
    (fits : output.length ≤ 256) :
    popOperators leaves (stack.map entryByte) output =
      (put output (itemsText ((unstacked Sign.rank level stack).map .apply))).map fun written =>
        ((restacked Sign.rank level stack).map entryByte, written) := by
  induction stack generalizing output with
  | nil =>
      rw [List.map_nil, popOperators]
      exact (congrArg (Except.map _) (put_nil fits)).symm
  | cons top below inductionHypothesis =>
      rw [List.map_cons, popOperators]
      by_cases leave : leavesBefore Sign.rank level top = true
      · cases top with
        | none => exact absurd leave Bool.false_ne_true
        | some sign =>
            have leaving : leaves sign.byte = true := (agree sign).trans leave
            rw [entryByte, if_pos ⟨sign.notOpening, leaving⟩, restacked, unstacked,
              List.dropWhile_cons_of_pos leave, List.takeWhile_cons_of_pos leave,
              List.reduceOption_cons_of_some, List.map_cons, itemsText_cons, ← put_put,
              emitSpaced_eq_put, itemText]
            cases done : put output [sign.byte, space] with
            | error fault => rfl
            | ok written => exact inductionHypothesis (put_length done)
      · have stays : ¬ (entryByte top ≠ openParen ∧ leaves (entryByte top) = true) := by
          cases top with
          | none => exact fun both => both.1 rfl
          | some sign => exact fun both => leave ((agree sign).symm.trans both.2)
        rw [if_neg stays, restacked, unstacked, List.dropWhile_cons_of_neg leave,
          List.takeWhile_cons_of_neg leave]
        exact (congrArg (Except.map _) (put_nil fits)).symm

theorem flushOperators_eq_put (fits : output.length ≤ 256) :
    flushOperators (stack.map entryByte) output =
      put output (itemsText (stack.reduceOption.map .apply)) := by
  induction stack generalizing output with
  | nil => exact (put_nil fits).symm
  | cons top below inductionHypothesis =>
      rw [List.map_cons, flushOperators]
      cases top with
      | none =>
          rw [entryByte, if_pos rfl]
          exact inductionHypothesis fits
      | some sign =>
          rw [entryByte, if_neg sign.notOpening, List.reduceOption_cons_of_some, List.map_cons,
            itemsText_cons, ← put_put, emitSpaced_eq_put, itemText]
          cases done : put output [sign.byte, space] with
          | error fault => rfl
          | ok written => exact inductionHypothesis (put_length done)

end Stack

/-! ### Loop -/

section Loop

variable {tokens : List (Token Numeral Sign)} {stack : List (Option Sign)}
  {text output result : List Byte}

/-- Never more than 32 entries are on the stack while the tokens are read. -/
def StackFits (tokens : List (Token Numeral Sign)) (stack : List (Option Sign)) : Prop :=
  ∀ k ≤ tokens.length, (stackFrom Sign.rank stack (tokens.take k)).length ≤ 32

theorem stackFits_nil : StackFits [] stack ↔ stack.length ≤ 32 := by
  simp [StackFits, stackFrom]

theorem StackFits.start (fits : StackFits tokens stack) : stack.length ≤ 32 := by
  simpa [stackFrom] using fits 0 (Nat.zero_le _)

theorem stackFits_cons {token : Token Numeral Sign} :
    StackFits (token :: tokens) stack ↔
      stack.length ≤ 32 ∧ StackFits tokens (stackStep Sign.rank stack token) := by
  constructor
  · intro fits
    exact ⟨fits.start, fun k within => fits (k + 1) (Nat.succ_le_succ within)⟩
  · rintro ⟨start, fits⟩ k within
    cases k with
    | zero => exact start
    | succ k => exact fits k (Nat.le_of_succ_le_succ within)

/-- A pop of operators and what follows it, with the operators' text in front of the
rest. -/
theorem popOperators_bind_iff {leaves : Byte → Bool} {level : Nat}
    (agree : ∀ sign : Sign, leaves sign.byte = decide (level ≤ sign.rank))
    (fits : output.length ≤ 256) {rest : List Byte} {condition : Prop}
    {next : List Byte × List Byte → Except Fault (List Byte)}
    (goesOn : ∀ written, written.length ≤ 256 →
      (next ((restacked Sign.rank level stack).map entryByte, written) = .ok result ↔
        put written rest = .ok result ∧ condition)) :
    (popOperators leaves (stack.map entryByte) output).bind next = .ok result ↔
      put output (itemsText ((unstacked Sign.rank level stack).map .apply) ++ rest) = .ok result ∧
        condition := by
  rw [popOperators_eq_put agree fits, ← put_bind_iff goesOn]
  cases put output (itemsText ((unstacked Sign.rank level stack).map .apply)) <;> rfl

/-- A push and what follows it, where the rest is known for a stack that has room. -/
theorem pushEntry_bind_iff {entry : Option Sign}
    (goesOn : (entry :: stack).length ≤ 32 →
      (convert text ((entry :: stack).map entryByte) output = .ok result ↔
        put output (itemsText (shunt Sign.rank (scan text) (entry :: stack))) = .ok result ∧
          StackFits (scan text) (entry :: stack))) :
    ((pushOperator (stack.map entryByte) (entryByte entry)).bind fun pushed =>
        convert text pushed output) = .ok result ↔
      put output (itemsText (shunt Sign.rank (scan text) (entry :: stack))) = .ok result ∧
        StackFits (scan text) (entry :: stack) := by
  rw [pushOperator_bind_iff, List.length_map, ← List.map_cons]
  by_cases room : stack.length < 32
  · rw [and_iff_right room]
    exact goesOn room
  · exact iff_of_false (fun both => room both.1) fun both => room both.2.start

theorem restacked_length_le (level : Nat) (stack : List (Option Sign)) :
    (restacked Sign.rank level stack).length ≤ stack.length :=
  (List.dropWhile_suffix _).length_le

/-- The conversion writes the text of the shunted tokens, exactly when the text fits
and so does the stack. -/
theorem convert_iff (outputFits : output.length ≤ 256) (stackFits : stack.length ≤ 32) :
    convert text (stack.map entryByte) output = .ok result ↔
      put output (itemsText (shunt Sign.rank (scan text) stack)) = .ok result ∧
        StackFits (scan text) stack := by
  induction text using scan.induct generalizing stack output with
  | case1 =>
      rw [convert, scan, flushOperators_eq_put outputFits, shunt, stackFits_nil]
      exact (and_iff_left stackFits).symm
  | case2 rest inductionHypothesis =>
      rw [convert, scan, if_pos rfl, dif_pos rfl]
      exact inductionHypothesis outputFits stackFits
  | case3 c rest notSpace digit inductionHypothesis =>
      rw [convert, scan, if_neg notSpace, if_pos digit, dif_neg notSpace, dif_pos digit,
        foldlM_emit_eq_put outputFits, shunt, itemsText_cons, itemText, stackFits_cons,
        and_iff_right stackFits, List.append_assoc, stackStep]
      refine put_bind_iff fun copied _ => ?_
      rw [emit_eq_put]
      exact put_bind_iff fun separated fits => inductionHypothesis fits stackFits
  | case4 rest notSpace notDigit inductionHypothesis =>
      rw [convert, scan, if_neg notSpace, if_neg notDigit, if_pos rfl, dif_neg notSpace,
        dif_neg notDigit, dif_pos rfl, stackFits_cons, and_iff_right stackFits]
      exact @pushEntry_bind_iff stack rest output result none fun room =>
        inductionHypothesis outputFits room
  | case5 rest notSpace notDigit notOpening inductionHypothesis =>
      rw [convert, scan, if_neg notSpace, if_neg notDigit, if_neg notOpening, if_pos rfl,
        dif_neg notSpace, dif_neg notDigit, dif_neg notOpening, dif_pos rfl, shunt,
        itemsText_append, stackFits_cons, and_iff_right stackFits]
      refine popOperators_bind_iff (fun _ => (decide_eq_true (Nat.zero_le _)).symm) outputFits
        fun written fits => ?_
      rw [← List.map_tail]
      refine inductionHypothesis fits (Nat.le_trans ?_ stackFits)
      exact (List.tail_suffix _).length_le.trans (restacked_length_le 0 stack)
  | case6 c rest notSpace notDigit notOpening notClosing inductionHypothesis =>
      rw [convert, scan, if_neg notSpace, if_neg notDigit, if_neg notOpening, if_neg notClosing,
        dif_neg notSpace, dif_neg notDigit, dif_neg notOpening, dif_neg notClosing, shunt,
        itemsText_append, stackFits_cons, and_iff_right stackFits]
      refine popOperators_bind_iff (fun _ => rfl) outputFits fun written fits => ?_
      exact @pushEntry_bind_iff _ rest written result
        (some ⟨c, notSpace, notDigit, notOpening, notClosing⟩) fun room =>
          inductionHypothesis fits room

end Loop

end BrainDance.App.Calculator
