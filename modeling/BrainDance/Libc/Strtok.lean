import BrainDance.Foundation.Splitting
import BrainDance.Libc.Memcore

/-!
Owns `strtok` of `libc/memcore.c`: the two loops over the text, the NUL that ends a
token in place and the static pointer behind it. The calls with one set of
delimiters return the maximal delimiter-free runs of the text from left to right.

The text stands in an array. An access outside of it has no result.
-/

namespace BrainDance.Libc

open BrainDance.Foundation

/-! ### Model -/

/-- The array that holds the text, and `strtok_state`; `none` is `NULL`. -/
@[ext]
structure Tokenizer where
  memory : List Byte
  strtokState : Option Nat
deriving DecidableEq

def isDelimiter (delimiters : CString) (c : Byte) : Bool :=
  delimiters.bytes.any fun delimiter => c == delimiter

/-- The loop that skips delimiters, over the bytes from `tokenStart` on. -/
def skipDelimiters (delimiters : CString) : List Byte → Nat → Option Nat
  | [], _ => none
  | c :: rest, tokenStart =>
      if isDelimiter delimiters c then skipDelimiters delimiters rest (tokenStart + 1)
      else some tokenStart

/-- The loop that finds the end of the token, over the bytes from `tokenEnd` on. -/
def findTokenEnd (delimiters : CString) : List Byte → Nat → Option Nat
  | [], _ => none
  | c :: rest, tokenEnd =>
      if c ≠ 0 ∧ ¬ isDelimiter delimiters c then findTokenEnd delimiters rest (tokenEnd + 1)
      else some tokenEnd

/-- `strtok` behind the leading delimiters. -/
def cutToken (memory : List Byte) (tokenStart : Nat) (delimiters : CString) :
    Option (Option Nat × Tokenizer) := do
  if (← memory[tokenStart]?) = 0 then some (none, ⟨memory, some tokenStart⟩)
  else
    let tokenEnd ← findTokenEnd delimiters (memory.drop tokenStart) tokenStart
    if (← memory[tokenEnd]?) ≠ 0 then
      some (some tokenStart, ⟨memory.set tokenEnd 0, some (tokenEnd + 1)⟩)
    else some (some tokenStart, ⟨memory, some tokenEnd⟩)

/-- `strtok` once `strtok_state` is not `NULL`. -/
def strtokFrom (memory : List Byte) (state : Nat) (delimiters : CString) :
    Option (Option Nat × Tokenizer) := do
  if (← memory[state]?) = 0 then some (none, ⟨memory, some state⟩)
  else cutToken memory (← skipDelimiters delimiters (memory.drop state) state) delimiters

def strtok (str : Option Nat) (delimiters : CString) (tokenizer : Tokenizer) :
    Option (Option Nat × Tokenizer) :=
  match str <|> tokenizer.strtokState with
  | none => some (none, tokenizer)
  | some state => strtokFrom tokenizer.memory state delimiters

/-- The results of `count` calls, of which only the first gets `str`. -/
def strtokCalls (delimiters : CString) :
    Nat → Option Nat → Tokenizer → Option (List (Option Nat) × Tokenizer)
  | 0, _, tokenizer => some ([], tokenizer)
  | count + 1, str, tokenizer => do
      let (token, next) ← strtok str delimiters tokenizer
      let (tokens, last) ← strtokCalls delimiters count none next
      some (token :: tokens, last)

/-- The text and its NUL stand in the array from `start` on. -/
def StringAt (memory : List Byte) (start : Nat) (text : List Byte) : Prop :=
  ∃ behind, memory.drop start = text ++ 0 :: behind

/-- The string that the bytes start with; without a NUL it has no end. -/
def readString : List Byte → Option CString
  | [] => none
  | c :: rest => if nul : c = 0 then some CString.nil else (readString rest).map (CString.cons c nul)

/-! ### Strings in the array -/

section Strings

variable {memory : List Byte} {start index : Nat} {text front rest : List Byte}

theorem StringAt.getElem?_end (shown : StringAt memory start text) :
    memory[start + text.length]? = some 0 := by
  obtain ⟨behind, dropped⟩ := shown
  rw [← List.getElem?_drop, dropped, List.getElem?_append_right (Nat.le_refl _), Nat.sub_self]
  rfl

/-- Writing the NUL again changes nothing. -/
theorem StringAt.set_end (shown : StringAt memory start text) :
    memory.set (start + text.length) 0 = memory := by
  obtain ⟨inMemory, here⟩ := List.getElem?_eq_some_iff.mp shown.getElem?_end
  rw [← here]
  exact List.set_getElem_self inMemory

theorem StringAt.getElem? (shown : StringAt memory start text) (inText : index < text.length) :
    memory[start + index]? = text[index]? := by
  obtain ⟨behind, dropped⟩ := shown
  rw [← List.getElem?_drop, dropped, List.getElem?_append_left inText]

/-- A string goes on from any of its characters. -/
theorem StringAt.suffix (shown : StringAt memory start (front ++ rest)) :
    StringAt memory (start + front.length) rest := by
  obtain ⟨behind, dropped⟩ := shown
  refine ⟨behind, ?_⟩
  rw [← List.drop_drop, dropped, List.append_assoc, List.drop_left]

theorem stringAt_iff : StringAt memory start text ↔
    ∀ index ≤ text.length, memory[start + index]? = some (text.getD index 0) := by
  constructor
  · intro shown index inString
    rcases Nat.lt_or_eq_of_le inString with inText | rfl
    · rw [shown.getElem? inText, List.getD_eq_getElem?_getD, List.getElem?_eq_getElem inText]
      rfl
    · rw [shown.getElem?_end, List.getD_eq_getElem?_getD, List.getElem?_eq_none (Nat.le_refl _)]
      rfl
  · intro shown
    have isPrefix : text ++ [0] <+: memory.drop start := by
      rw [List.prefix_iff_getElem?]
      intro index inString
      rw [List.length_append, List.length_singleton] at inString
      rw [List.getElem?_drop, shown index (Nat.le_of_lt_succ inString), List.getElem_append]
      split
      · rename_i inText
        rw [List.getD_eq_getElem?_getD, List.getElem?_eq_getElem inText]
        rfl
      · rename_i atEnd
        rw [List.getD_eq_getElem?_getD, List.getElem?_eq_none (Nat.le_of_not_lt atEnd)]
        exact congrArg some (List.getElem_singleton _).symm
    obtain ⟨behind, appended⟩ := isPrefix
    exact ⟨behind, by rw [← appended, List.append_assoc]; rfl⟩

theorem StringAt.congr {other : List Byte} (shown : StringAt memory start text)
    (same : ∀ index ≤ text.length, other[start + index]? = memory[start + index]?) :
    StringAt other start text := by
  rw [stringAt_iff] at shown ⊢
  intro index inString
  rw [same index inString, shown index inString]

theorem readString_eq (string : CString) (behind : List Byte) :
    readString (string.bytes ++ 0 :: behind) = some string := by
  obtain ⟨bytes, noNul⟩ := string
  induction bytes with
  | nil => rfl
  | cons c bytes inductionHypothesis =>
      obtain ⟨notNul, restNoNul⟩ := List.forall_mem_cons.mp noNul
      rw [List.cons_append, readString, dif_neg notNul, inductionHypothesis restNoNul]
      rfl

theorem StringAt.read {string : CString} (shown : StringAt memory start string.bytes) :
    readString (memory.drop start) = some string := by
  obtain ⟨behind, dropped⟩ := shown
  rw [dropped, readString_eq]

/-- A NUL in place of a character ends the string there. -/
theorem StringAt.terminate (shown : StringAt memory start (front ++ rest)) :
    StringAt (memory.set (start + front.length) 0) start front := by
  have inMemory : start + front.length < memory.length := by
    have atEnd := List.getElem?_eq_some_iff.mp shown.getElem?_end
    rw [List.length_append] at atEnd
    exact Nat.lt_of_le_of_lt (by omega) atEnd.1
  rw [stringAt_iff]
  intro index inString
  rw [List.getElem?_set, List.getD_eq_getElem?_getD]
  rcases Nat.lt_or_eq_of_le inString with inFront | rfl
  · have inText : index < (front ++ rest).length := by
      rw [List.length_append]
      omega
    rw [if_neg (by omega), shown.getElem? inText, List.getElem?_append_left inFront,
      List.getElem?_eq_getElem inFront]
    rfl
  · rw [if_pos rfl, if_pos inMemory, List.getElem?_eq_none (Nat.le_refl _)]
    rfl

end Strings

/-! ### The loops -/

section Loops

variable (delimiters : CString) (behind : List Byte)

theorem isDelimiter_iff {delimiters : CString} {c : Byte} :
    isDelimiter delimiters c = true ↔ c ∈ delimiters.bytes := by
  simp [isDelimiter]

/-- The terminator never delimits. -/
theorem isDelimiter_zero : isDelimiter delimiters 0 = false := by
  rw [Bool.eq_false_iff, Ne, isDelimiter_iff]
  exact fun member => delimiters.noNul 0 member rfl

theorem skipDelimiters_eq (text : List Byte) (tokenStart : Nat) :
    skipDelimiters delimiters (text ++ 0 :: behind) tokenStart =
      some (tokenStart + gap (isDelimiter delimiters) text) := by
  induction text generalizing tokenStart with
  | nil =>
      rw [List.nil_append, skipDelimiters, isDelimiter_zero]
      simp [gap]
  | cons c text inductionHypothesis =>
      rw [List.cons_append, skipDelimiters, inductionHypothesis]
      cases separates : isDelimiter delimiters c with
      | true => simp [gap, separates, Nat.add_assoc, Nat.add_comm]
      | false => simp [gap, separates]

theorem findTokenEnd_eq {text : List Byte} (noNul : ∀ c ∈ text, c ≠ 0) (tokenEnd : Nat) :
    findTokenEnd delimiters (text ++ 0 :: behind) tokenEnd =
      some (tokenEnd + (text.takeWhile (!isDelimiter delimiters ·)).length) := by
  induction text generalizing tokenEnd with
  | nil => simp [findTokenEnd]
  | cons c text inductionHypothesis =>
      obtain ⟨notNul, restNoNul⟩ := List.forall_mem_cons.mp noNul
      rw [List.cons_append, findTokenEnd, inductionHypothesis restNoNul]
      cases separates : isDelimiter delimiters c with
      | true => simp [separates]
      | false =>
          rw [if_pos ⟨notNul, Bool.false_ne_true⟩]
          simp [separates, Nat.add_assoc, Nat.add_comm]

end Loops

/-! ### One call -/

section Call

variable {delimiters : CString} {memory : List Byte} {state : Nat} {text token rest : List Byte}

theorem StringAt.getElem?_ne (shown : StringAt memory state text) (noNul : ∀ c ∈ text, c ≠ 0)
    {index : Nat} (inText : index < text.length) : ∃ c, c ≠ 0 ∧ memory[state + index]? = some c :=
  ⟨text[index], noNul _ (List.getElem_mem inText), by
    rw [shown.getElem? inText, List.getElem?_eq_getElem inText]⟩

theorem strtokFrom_eq_cutToken (shown : StringAt memory state text)
    (noNul : ∀ c ∈ text, c ≠ 0) (nonempty : text ≠ []) :
    strtokFrom memory state delimiters =
      cutToken memory (state + gap (isDelimiter delimiters) text) delimiters := by
  obtain ⟨c, notNul, first⟩ := shown.getElem?_ne noNul (List.length_pos_iff.mpr nonempty)
  obtain ⟨behind, dropped⟩ := shown
  rw [Nat.add_zero] at first
  simp only [strtokFrom, Option.bind_eq_bind, first, Option.bind_some, if_neg notNul, dropped,
    skipDelimiters_eq]

/-- Where no token is left the pointer stops at the end of the text. -/
theorem strtokFrom_of_none (shown : StringAt memory state text) (noNul : ∀ c ∈ text, c ≠ 0)
    (noRun : nextRun (isDelimiter delimiters) text = none) :
    strtokFrom memory state delimiters = some (none, ⟨memory, some (state + text.length)⟩) := by
  have atEnd := shown.getElem?_end
  by_cases empty : text = []
  · subst empty
    rw [List.length_nil, Nat.add_zero] at atEnd ⊢
    rw [strtokFrom, atEnd]
    rfl
  · have whole : gap (isDelimiter delimiters) text = text.length := by
      rw [gap, List.takeWhile_eq_self_iff.mpr (nextRun_eq_none.mp noRun)]
    rw [strtokFrom_eq_cutToken shown noNul empty, whole, cutToken, atEnd]
    rfl

/-- A token that starts here ends at the first delimiter or at the end of the text. -/
theorem cutToken_eq {tokenStart : Nat} {after : List Byte}
    (shown : StringAt memory tokenStart (token ++ after)) (noNul : ∀ c ∈ token ++ after, c ≠ 0)
    (nonempty : token ≠ []) (free : ∀ c ∈ token, isDelimiter delimiters c = false)
    (closed : ∀ c ∈ after.head?, isDelimiter delimiters c = true) :
    cutToken memory tokenStart delimiters =
      some (some tokenStart, ⟨memory.set (tokenStart + token.length) 0,
        some (tokenStart + token.length + (after.length - after.tail.length))⟩) := by
  have tokenPos := List.length_pos_iff.mpr nonempty
  obtain ⟨c, notNul, first⟩ := @StringAt.getElem?_ne _ _ _ shown noNul 0
    (by rw [List.length_append]; omega)
  have scanned : (token ++ after).takeWhile (!isDelimiter delimiters ·) = token := by
    rw [List.takeWhile_append_of_pos (by simpa using free)]
    cases after with
    | nil => exact List.append_nil token
    | cons c after => simp [closed c rfl]
  have fromEnd := shown.suffix
  have uncut := shown.set_end
  obtain ⟨behind, dropped⟩ := shown
  rw [Nat.add_zero] at first
  simp only [cutToken, Option.bind_eq_bind, first, Option.bind_some, if_neg notNul, dropped,
    findTokenEnd_eq _ _ noNul, scanned]
  cases after with
  | nil =>
      have atEnd := fromEnd.getElem?_end
      rw [List.length_nil, Nat.add_zero] at atEnd
      rw [List.append_nil] at uncut
      rw [atEnd, Option.bind_some, if_neg (fun notZero => notZero rfl), uncut]
      rfl
  | cons c after =>
      obtain ⟨other, otherNotNul, atEnd⟩ := @StringAt.getElem?_ne _ _ _ fromEnd
        (fun c member => noNul c (List.mem_append_right _ member)) 0 (Nat.succ_pos _)
      rw [Nat.add_zero] at atEnd
      rw [atEnd, Option.bind_some, if_pos otherNotNul]
      simp

/-- A token is cut off by a NUL behind it, and the pointer moves to the rest. -/
theorem strtokFrom_of_some (shown : StringAt memory state text) (noNul : ∀ c ∈ text, c ≠ 0)
    (found : nextRun (isDelimiter delimiters) text = some (token, rest)) :
    strtokFrom memory state delimiters =
      some (some (state + gap (isDelimiter delimiters) text),
        ⟨memory.set (state + gap (isDelimiter delimiters) text + token.length) 0,
          some (state + (text.length - rest.length))⟩) := by
  obtain ⟨after, split, rfl, nonempty, free, closed⟩ := nextRun_eq_some found
  have lengths := congrArg List.length split
  rw [List.length_append, List.length_append, ← gap] at lengths
  have tokenPos := List.length_pos_iff.mpr nonempty
  have tailLength : after.tail.length = after.length - 1 := List.length_tail
  have textNonempty : text ≠ [] := List.length_pos_iff.mp (by omega)
  have fromToken : StringAt memory (state + gap (isDelimiter delimiters) text) (token ++ after) := by
    rw [split, List.append_assoc] at shown
    exact shown.suffix
  have fromNoNul : ∀ c ∈ token ++ after, c ≠ 0 := by
    intro c member
    refine noNul c ?_
    rw [split, List.append_assoc]
    exact List.mem_append_right _ member
  rw [strtokFrom_eq_cutToken shown noNul textNonempty,
    cutToken_eq fromToken fromNoNul nonempty free closed]
  congr 4
  omega

/-- With no delimiters the whole text is the token. -/
theorem strtok_nil {tokenizer : Tokenizer} (current : tokenizer.strtokState = some state)
    (shown : StringAt tokenizer.memory state text) (noNul : ∀ c ∈ text, c ≠ 0) :
    strtok none CString.nil tokenizer =
      some (if text = [] then none else some state,
        ⟨tokenizer.memory, some (state + text.length)⟩) := by
  rw [strtok, current]
  show strtokFrom tokenizer.memory state CString.nil = _
  by_cases empty : text = []
  · subst empty
    exact strtokFrom_of_none shown noNul rfl
  · have noGap : gap (isDelimiter CString.nil) text = 0 := by
      cases text with
      | nil => contradiction
      | cons c text => rfl
    rw [strtokFrom_eq_cutToken shown noNul empty, noGap, Nat.add_zero, if_neg empty]
    rw [← List.append_nil text] at shown noNul
    rw [cutToken_eq shown noNul empty (fun _ _ => rfl) (fun _ none => by simp at none)]
    rw [List.append_nil] at shown
    rw [shown.set_end]
    rfl

end Call

/-! ### Every call -/

/-- Only delimiters of the text at `base` have become NULs, from `offset` on. -/
def OnlyDelimiters (delimiters : CString) (text : List Byte) (base offset : Nat)
    (before after : List Byte) : Prop :=
  ∀ index, after[index]? = before[index]? ∨ after[index]? = some 0 ∧
    ∃ place ≥ offset, index = base + place ∧ ∃ c ∈ text[place]?, isDelimiter delimiters c = true

/-- Where the text goes on behind the delimiter at `last`. -/
def restStart (text : List Byte) (last : Nat) : Nat := min (last + 1) text.length

theorem drop_restStart (text : List Byte) (last : Nat) :
    text.drop (restStart text last) = text.drop (last + 1) := by
  unfold restStart
  rcases Nat.le_total (last + 1) text.length with inText | beyond
  · rw [Nat.min_eq_left inText]
  · rw [Nat.min_eq_right beyond, List.drop_length, List.drop_eq_nil_of_le beyond]

section Calls

variable {delimiters : CString} {memory : List Byte} {str strtokState : Option Nat}
  {text token rest : List Byte} {base offset : Nat}

theorem strtok_of_none (shown : StringAt memory (base + offset) (text.drop offset))
    (noNul : ∀ c ∈ text, c ≠ 0) (inText : offset ≤ text.length)
    (current : (str <|> strtokState) = some (base + offset))
    (noRun : nextRun (isDelimiter delimiters) (text.drop offset) = none) :
    strtok str delimiters ⟨memory, strtokState⟩ =
      some (none, ⟨memory, some (base + text.length)⟩) := by
  have restNoNul : ∀ c ∈ text.drop offset, c ≠ 0 :=
    fun c member => noNul c (List.mem_of_mem_drop member)
  rw [strtok, current]
  dsimp only
  rw [strtokFrom_of_none shown restNoNul noRun, List.length_drop]
  congr 4
  omega

/-- A call cuts off the next run and leaves the rest of the text as it was. -/
theorem strtok_of_some (shown : StringAt memory (base + offset) (text.drop offset))
    (noNul : ∀ c ∈ text, c ≠ 0) (inText : offset ≤ text.length)
    (current : (str <|> strtokState) = some (base + offset))
    (found : nextRun (isDelimiter delimiters) (text.drop offset) = some (token, rest)) :
    let first := offset + gap (isDelimiter delimiters) (text.drop offset)
    let last := first + token.length
    ∃ next, strtok str delimiters ⟨memory, strtokState⟩ =
        some (some (base + first), ⟨next, some (base + restStart text last)⟩) ∧
      StringAt next (base + first) token ∧
      StringAt next (base + restStart text last) (text.drop (restStart text last)) ∧
      OnlyDelimiters delimiters text base offset memory next := by
  intro first last
  have restNoNul : ∀ c ∈ text.drop offset, c ≠ 0 :=
    fun c member => noNul c (List.mem_of_mem_drop member)
  obtain ⟨after, split, restTail, nonempty, _⟩ := nextRun_eq_some found
  have lengths := congrArg List.length split
  rw [List.length_append, List.length_append, ← gap, List.length_drop] at lengths
  have restLength := congrArg List.length (nextRun_rest_eq_drop found)
  rw [List.length_drop, List.length_drop] at restLength
  have lastInText : last ≤ text.length := by omega
  have atEnd := shown.getElem?_end
  rw [List.length_drop, show base + offset + (text.length - offset) = base + text.length by omega]
    at atEnd
  refine ⟨memory.set (base + last) 0, ?_, ?_, ?_, ?_⟩
  · rw [strtok, current]
    dsimp only
    have stop : base + offset + ((text.drop offset).length - rest.length) =
        base + restStart text last := by
      rw [List.length_drop, restLength, restStart]
      omega
    rw [strtokFrom_of_some shown restNoNul found, stop, Nat.add_assoc base, Nat.add_assoc base]
  · rw [split, List.append_assoc] at shown
    have fromToken := shown.suffix
    rw [← gap, Nat.add_assoc] at fromToken
    have cut := fromToken.terminate
    rwa [Nat.add_assoc] at cut
  · rw [stringAt_iff] at shown ⊢
    intro index inRest
    rw [List.length_drop] at inRest
    unfold restStart at inRest ⊢
    have original := shown (min (last + 1) text.length - offset + index)
      (by rw [List.length_drop]; omega)
    rw [show base + offset + (min (last + 1) text.length - offset + index) =
      base + min (last + 1) text.length + index by omega] at original
    rw [List.getElem?_set]
    by_cases here : base + last = base + min (last + 1) text.length + index
    · rw [if_pos here, if_pos (by have := (List.getElem?_eq_some_iff.mp atEnd).1; omega)]
      rw [List.getD_eq_getElem?_getD, List.getElem?_eq_none (by rw [List.length_drop]; omega)]
      rfl
    · rw [if_neg here, original]
      simp only [List.getD_eq_getElem?_getD, List.getElem?_drop]
      congr 3
      omega
  · intro index
    rw [List.getElem?_set]
    by_cases here : base + last = index
    · subst here
      rw [if_pos rfl, if_pos (by have := (List.getElem?_eq_some_iff.mp atEnd).1; omega)]
      rcases Nat.lt_or_eq_of_le lastInText with delimited | ended
      · right
        have closed := barrier_behind_token found
        rw [barrier_drop, ← Nat.add_assoc] at closed
        have inText := List.getElem?_eq_getElem delimited
        refine ⟨rfl, last, Nat.le_add_right_of_le (Nat.le_add_right _ _), rfl, text[last], inText, ?_⟩
        unfold Barrier at closed
        rw [inText] at closed
        exact closed
      · left
        rw [ended, atEnd]
    · rw [if_neg here]
      exact .inl rfl

theorem OnlyDelimiters.trans {before middle after : List Byte} {later : Nat}
    (first : OnlyDelimiters delimiters text base offset before middle)
    (second : OnlyDelimiters delimiters text base later middle after) (ordered : offset ≤ later) :
    OnlyDelimiters delimiters text base offset before after := by
  intro index
  rcases second index with same | ⟨nul, place, above, here, delimited⟩
  · rw [same]
    exact first index
  · exact .inr ⟨nul, place, Nat.le_trans ordered above, here, delimited⟩

/-- Later calls leave a token as the call that returned it did. -/
theorem OnlyDelimiters.stringAt {before after : List Byte} {first last : Nat}
    (changed : OnlyDelimiters delimiters text base (restStart text last) before after)
    (ends : first + token.length = last) (shown : StringAt before (base + first) token) :
    StringAt after (base + first) token := by
  refine shown.congr fun index inToken => ?_
  rcases changed (base + first + index) with same | ⟨_, place, above, here, c, inText, _⟩
  · exact same
  · have placeLt := (List.getElem?_eq_some_iff.mp inText).1
    unfold restStart at above
    omega

/-- Behind the first run the others are the runs of the rest. -/
theorem runs_drop (separates : Byte → Bool)
    (found : nextRun separates (text.drop offset) = some (token, rest)) :
    let first := offset + gap separates (text.drop offset)
    let last := first + token.length
    runs separates offset (text.drop offset) =
      (first, last) :: runs separates (restStart text last) (text.drop (restStart text last)) := by
  intro first last
  have rest_eq : rest = text.drop (last + 1) := by
    rw [nextRun_rest_eq_drop found, List.drop_drop]
    congr 1
    omega
  rw [runs_of_some offset found, drop_restStart, ← rest_eq]
  congr 1
  cases rest with
  | nil => rw [runs_nil, runs_nil]
  | cons c rest =>
      have inText : last + 1 < text.length := by
        have lengths := congrArg List.length rest_eq
        rw [List.length_drop, List.length_cons] at lengths
        omega
      rw [restStart, Nat.min_eq_left inText.le]

variable (delimiters text base offset) in
/-- What `count` calls return and leave, where the text from `offset` on is left to them. -/
structure Enumerates (count : Nat) (before : List Byte) (returned : List (Option Nat))
    (final : Tokenizer) : Prop where
  tokens : returned = (List.range count).map fun call =>
    (runs (isDelimiter delimiters) offset (text.drop offset))[call]?.map fun run => base + run.1
  terminated : ∀ run ∈ (runs (isDelimiter delimiters) offset (text.drop offset)).take count,
    StringAt final.memory (base + run.1) (between text run)
  overwritten : OnlyDelimiters delimiters text base offset before final.memory
  remaining : ∀ run, 0 < count →
    (runs (isDelimiter delimiters) offset (text.drop offset))[count - 1]? = some run →
      final.strtokState = some (base + restStart text run.2) ∧
        StringAt final.memory (base + restStart text run.2) (text.drop (restStart text run.2))

theorem strtokCalls_enumerates (shown : StringAt memory (base + offset) (text.drop offset))
    (noNul : ∀ c ∈ text, c ≠ 0) (inText : offset ≤ text.length)
    (current : (str <|> strtokState) = some (base + offset)) (count : Nat) :
    ∃ returned final, strtokCalls delimiters count str ⟨memory, strtokState⟩ =
        some (returned, final) ∧
      Enumerates delimiters text base offset count memory returned final := by
  induction count generalizing offset memory str strtokState with
  | zero => exact ⟨[], _, rfl, rfl, by simp, fun _ => .inl rfl, by simp⟩
  | succ count inductionHypothesis =>
      cases found : nextRun (isDelimiter delimiters) (text.drop offset) with
      | none =>
          have call := strtok_of_none shown noNul inText current found
          have atEnd : StringAt memory (base + text.length) (text.drop text.length) := by
            rw [← List.append_nil (text.drop offset)] at shown
            have stop := shown.suffix
            rw [List.length_drop] at stop
            rwa [List.drop_length, show base + text.length =
              base + offset + (text.length - offset) by omega]
          obtain ⟨returned, final, calls, others⟩ :=
            @inductionHypothesis _ none _ _ atEnd (Nat.le_refl _) rfl
          refine ⟨none :: returned, final, ?_, ?_, ?_, ?_, ?_⟩
          · simp only [strtokCalls, call, calls, Option.bind_eq_bind, Option.bind_some]
          · rw [others.tokens, runs_of_none _ found]
            simp [List.range_succ_eq_map, Function.comp_def]
          · simp [runs_of_none _ found]
          · exact OnlyDelimiters.trans (fun _ => .inl rfl) others.overwritten inText
          · simp [runs_of_none _ found]
      | some step =>
          obtain ⟨token, rest⟩ := step
          obtain ⟨next, call, cut, remaining, changed⟩ :=
            strtok_of_some shown noNul inText current found
          have firstRun := runs_drop _ found
          have token_eq := nextRun_eq_take found
          rw [List.drop_drop] at token_eq
          have ordered : offset ≤ restStart text
              (offset + gap (isDelimiter delimiters) (text.drop offset) + token.length) := by
            unfold restStart
            omega
          generalize offset + gap (isDelimiter delimiters) (text.drop offset) = first at *
          obtain ⟨last, ends⟩ : ∃ last, first + token.length = last := ⟨_, rfl⟩
          dsimp only at call cut remaining changed firstRun
          rw [ends] at call remaining firstRun ordered
          obtain ⟨returned, final, calls, others⟩ :=
            @inductionHypothesis _ none _ _ remaining (Nat.min_le_right _ _) rfl
          refine ⟨some (base + first) :: returned, final, ?_, ?_, ?_, ?_, ?_⟩
          · simp only [strtokCalls, call, calls, Option.bind_eq_bind, Option.bind_some]
          · rw [others.tokens, firstRun]
            simp [List.range_succ_eq_map, Function.comp_def]
          · rw [firstRun, List.take_succ_cons, List.forall_mem_cons]
            refine ⟨?_, others.terminated⟩
            rw [between, ← ends, Nat.add_sub_cancel_left, ← token_eq]
            exact others.overwritten.stringAt ends cut
          · exact changed.trans others.overwritten ordered
          · intro run _ here
            rw [firstRun, Nat.add_sub_cancel] at here
            cases count with
            | zero =>
                obtain rfl := Option.some.inj here
                obtain ⟨-, rfl⟩ := Prod.mk.inj (Option.some.inj calls)
                exact ⟨rfl, remaining⟩
            | succ count => exact others.remaining run (Nat.succ_pos _) here

end Calls

/-- The calls `strtok(s, d)`, `strtok(NULL, d)` and so on return the maximal
delimiter-free runs of `s` from left to right, each with its NUL, and then `NULL`. They
change no other bytes than delimiters. With no delimiters the call behind a token
returns all of the text that follows the delimiter. -/
theorem strtok_enumerates_tokens (string delimiters : CString) (front behind : List Byte)
    (strtokState : Option Nat) :
    ∃ tokens : List (Nat × Nat),
      (∀ first last, (first, last) ∈ tokens ↔
        MaximalRun (isDelimiter delimiters) string.bytes first last) ∧
      tokens.Pairwise (fun left right => left.2 < right.1) ∧
      ∀ count, ∃ returned final,
        strtokCalls delimiters count (some front.length)
            ⟨front ++ string.bytes ++ 0 :: behind, strtokState⟩ = some (returned, final) ∧
          returned = ((List.range count).map fun call =>
            tokens[call]?.map fun token => front.length + token.1) ∧
          (∀ token ∈ tokens.take count,
            StringAt final.memory (front.length + token.1) (between string.bytes token)) ∧
          OnlyDelimiters delimiters string.bytes front.length 0
            (front ++ string.bytes ++ 0 :: behind) final.memory ∧
          ∀ token, 0 < count → tokens[count - 1]? = some token →
            ∃ result state, strtok none CString.nil final = some (result, ⟨final.memory, state⟩) ∧
              if string.bytes.drop (token.2 + 1) = [] then result = none
              else result = some (front.length + (token.2 + 1)) ∧
                StringAt final.memory (front.length + (token.2 + 1))
                  (string.bytes.drop (token.2 + 1)) := by
  have shown : StringAt (front ++ string.bytes ++ 0 :: behind) (front.length + 0)
      (string.bytes.drop 0) := ⟨behind, by simp⟩
  refine ⟨runs (isDelimiter delimiters) 0 string.bytes, ?_, runs_pairwise 0 _, ?_⟩
  · intro first last
    simp [mem_runs_iff]
  · intro count
    obtain ⟨returned, final, calls, enumerates⟩ := @strtokCalls_enumerates delimiters _
      (some front.length) strtokState _ _ _ shown string.noNul (Nat.zero_le _) rfl count
    refine ⟨returned, final, calls, enumerates.tokens, enumerates.terminated,
      enumerates.overwritten, ?_⟩
    intro token counted last
    obtain ⟨state, rest⟩ := enumerates.remaining token counted last
    have restNoNul : ∀ c ∈ string.bytes.drop (restStart string.bytes token.2), c ≠ 0 :=
      fun c member => string.noNul c (List.mem_of_mem_drop member)
    refine ⟨_, _, strtok_nil state rest restNoNul, ?_⟩
    by_cases inText : token.2 + 1 < string.bytes.length
    · have stop : restStart string.bytes token.2 = token.2 + 1 := Nat.min_eq_left inText.le
      have nonempty : string.bytes.drop (token.2 + 1) ≠ [] := by
        rw [Ne, List.drop_eq_nil_iff]
        omega
      rw [stop] at rest ⊢
      rw [if_neg nonempty, if_neg nonempty]
      exact ⟨rfl, rest⟩
    · have stop : restStart string.bytes token.2 = string.bytes.length :=
        Nat.min_eq_right (Nat.le_of_not_lt inText)
      rw [stop, List.drop_length, if_pos rfl, if_pos (List.drop_eq_nil_of_le (by omega))]

end BrainDance.Libc
