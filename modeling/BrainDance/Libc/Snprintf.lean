import BrainDance.Libc.Formatting

/-!
Owns the model of `snprintf` and what it writes: the start of the text that the format
and its arguments expand to, as much of it as fits in front of a NUL. The bound is
tested at other places for each kind of character, so the invariant speaks of the text
expanded so far and of what is stored of it.
-/

namespace BrainDance.Libc

open BrainDance.Foundation

/-! ### Model -/

/-- `str` and `written`. -/
structure Output where
  str : Image
  written : Nat

/-- `str[written++] = c`. -/
def Output.store (out : Output) (c : Byte) : Output where
  str := Function.update out.str out.written c
  written := out.written + 1

/-- The loops that store a string or the digits of a number while
`written < size - 1`. -/
def storeWhile (limit : Nat) (out : Output) : List Byte → Output
  | [] => out
  | c :: rest => if out.written < limit then storeWhile limit (out.store c) rest else out

/-- `%d`. -/
def snprintfInt (limit : Nat) (n : Word) (out : Output) : Option Output :=
  if n.slt 0 then
    (doDigits 12 (-n)).map fun buf => storeWhile limit (out.store minusSign) buf.reverse
  else (doDigits 12 n).map fun buf => storeWhile limit out buf.reverse

/-- What `snprintf` does at a specifier, and the number of words it has used. -/
def snprintfSpec (args : VaList) (limit : Nat) (spec : Byte) (next : Nat) (out : Output) :
    Option (Nat × Output) :=
  if spec = 0x63 then some (next + 1, out.store ((args.word next).setWidth 8))
  else if spec = 0x73 then
    some (next + 1, storeWhile limit out (args.stringAt (args.word next)).bytes)
  else if spec = 0x64 then
    (snprintfInt limit (args.word next) out).map fun after => (next + 1, after)
  else some (next, out)

/-- The loop of `snprintf`; a last `%` makes it read on behind the format's NUL. -/
def snprintfFrom (args : VaList) (limit : Nat) : List Byte → Nat → Output → Option Output
  | [], _, out => some out
  | [char], _, out =>
      if out.written < limit then if char = percent then none else some (out.store char)
      else some out
  | char :: spec :: rest, next, out =>
      if out.written < limit then
        if char = percent then
          (snprintfSpec args limit spec next out).bind fun result =>
            snprintfFrom args limit rest result.1 result.2
        else snprintfFrom args limit (spec :: rest) next (out.store char)
      else some out

/-- What `snprintf` returns, and the memory from `str` on. -/
def snprintf (str : Image) (size : Word) (format : CString) (args : VaList) :
    Option (Word × Image) :=
  (snprintfFrom args (size - 1).toNat format.bytes 0 ⟨str, 0⟩).map fun out =>
    (BitVec.ofNat 32 out.written, Function.update out.str out.written 0)

/-! ### Expansion -/

/-- The sign and the digits that `%d` makes of a number. -/
def intText (n : Word) : Option (List Byte) :=
  if n.slt 0 then (doDigits 12 (-n)).map fun buf => minusSign :: buf.reverse
  else (doDigits 12 n).map List.reverse

/-- The text of a specifier, and the number of words used. -/
def expandSpec (args : VaList) (spec : Byte) (next : Nat) : Option (Nat × List Byte) :=
  if spec = 0x63 then some (next + 1, [(args.word next).setWidth 8])
  else if spec = 0x73 then some (next + 1, (args.stringAt (args.word next)).bytes)
  else if spec = 0x64 then (intText (args.word next)).map fun text => (next + 1, text)
  else some (next, [])

/-- The text that a format expands to, however long. -/
def expandFrom (args : VaList) : List Byte → Nat → Option (List Byte)
  | [], _ => some []
  | [char], _ => if char = percent then none else some [char]
  | char :: spec :: rest, next =>
      if char = percent then
        (expandSpec args spec next).bind fun result =>
          (expandFrom args rest result.1).map fun text => result.2 ++ text
      else (expandFrom args (spec :: rest) next).map fun text => char :: text

def expansion (format : CString) (args : VaList) : Option (List Byte) :=
  expandFrom args format.bytes 0

/-! ### What is stored -/

/-- The output after the first `limit` characters of the text. -/
def filled (str : Image) (limit : Nat) (text : List Byte) : Output :=
  (text.take limit).foldl Output.store ⟨str, 0⟩

section Filled

variable {str : Image} {limit : Nat} {text : List Byte}

theorem foldl_store_spec (str : Image) (text : List Byte) :
    (text.foldl Output.store ⟨str, 0⟩).written = text.length ∧
      ShowsBytes (text.foldl Output.store ⟨str, 0⟩).str text ∧
        ∀ offset, text.length ≤ offset →
          (text.foldl Output.store ⟨str, 0⟩).str offset = str offset := by
  induction text using List.reverseRecOn with
  | nil => exact ⟨rfl, rfl, fun _ _ => rfl⟩
  | append_singleton text c inductionHypothesis =>
      obtain ⟨written, shows, outside⟩ := inductionHypothesis
      rw [List.foldl_append, List.foldl_cons, List.foldl_nil, Output.store, written,
        List.length_append, List.length_singleton]
      refine ⟨rfl, showsBytes_update shows c, fun offset behind => ?_⟩
      exact (Function.update_of_ne (Nat.ne_of_gt behind) c _).trans
        (outside offset (Nat.le_of_succ_le behind))

theorem filled_nil : filled str limit [] = ⟨str, 0⟩ := by
  rw [filled, List.take_nil, List.foldl_nil]

theorem filled_written : (filled str limit text).written = min limit text.length := by
  rw [filled, (foldl_store_spec _ _).1, List.length_take]

/-- There is room for a character exactly while the text expanded so far fits. -/
theorem filled_room : (filled str limit text).written < limit ↔ text.length < limit := by
  rw [filled_written]
  omega

theorem filled_store (room : text.length < limit) (c : Byte) :
    (filled str limit text).store c = filled str limit (text ++ [c]) := by
  rw [filled, filled, List.take_of_length_le (by omega), List.take_of_length_le (by simpa),
    List.foldl_append]
  rfl

theorem filled_full (full : ¬ text.length < limit) (more : List Byte) :
    filled str limit (text ++ more) = filled str limit text := by
  rw [filled, filled, List.take_append_of_le_length (Nat.not_lt.mp full)]

theorem storeWhile_filled (more : List Byte) :
    storeWhile limit (filled str limit text) more = filled str limit (text ++ more) := by
  induction more generalizing text with
  | nil => rw [List.append_nil, storeWhile]
  | cons c more inductionHypothesis =>
      rw [storeWhile]
      by_cases room : text.length < limit
      · rw [if_pos (filled_room.mpr room), filled_store room, inductionHypothesis,
          List.append_assoc, List.singleton_append]
      · rw [if_neg (filled_room.not.mpr room), filled_full room]

theorem snprintfInt_filled {n : Word} {digits : List Byte} (room : text.length < limit)
    (expands : intText n = some digits) :
    snprintfInt limit n (filled str limit text) = some (filled str limit (text ++ digits)) := by
  unfold intText at expands
  unfold snprintfInt
  by_cases negative : n.slt 0 = true
  · rw [if_pos negative] at expands ⊢
    obtain ⟨buf, stored, rfl⟩ := Option.map_eq_some_iff.mp expands
    rw [stored, Option.map_some, filled_store room, storeWhile_filled, List.append_assoc,
      List.singleton_append]
  · rw [if_neg negative] at expands ⊢
    obtain ⟨buf, stored, rfl⟩ := Option.map_eq_some_iff.mp expands
    rw [stored, Option.map_some, storeWhile_filled]

theorem snprintfSpec_filled {args : VaList} {spec : Byte} {next : Nat} {result : Nat × List Byte}
    (room : text.length < limit) (expands : expandSpec args spec next = some result) :
    snprintfSpec args limit spec next (filled str limit text) =
      some (result.1, filled str limit (text ++ result.2)) := by
  unfold expandSpec at expands
  unfold snprintfSpec
  by_cases isChar : spec = 0x63
  · rw [if_pos isChar] at expands ⊢
    rw [filled_store room, ← Option.some.inj expands]
  · rw [if_neg isChar] at expands ⊢
    by_cases isString : spec = 0x73
    · rw [if_pos isString] at expands ⊢
      rw [storeWhile_filled, ← Option.some.inj expands]
    · rw [if_neg isString] at expands ⊢
      by_cases isInt : spec = 0x64
      · rw [if_pos isInt] at expands ⊢
        obtain ⟨digits, isText, rfl⟩ := Option.map_eq_some_iff.mp expands
        rw [snprintfInt_filled room isText, Option.map_some]
      · rw [if_neg isInt] at expands ⊢
        rw [← Option.some.inj expands, List.append_nil]

/-- The loop stores the start of what the rest of the format expands to. -/
theorem snprintfFrom_filled {args : VaList} {format more : List Byte} {next : Nat}
    (expands : expandFrom args format next = some more) :
    snprintfFrom args limit format next (filled str limit text) =
      some (filled str limit (text ++ more)) := by
  induction format, next using expandFrom.induct generalizing text more with
  | case1 next =>
      rw [expandFrom, Option.some.injEq] at expands
      rw [snprintfFrom, ← expands, List.append_nil]
  | case2 next => simp [expandFrom] at expands
  | case3 next char other =>
      rw [expandFrom, if_neg other, Option.some.injEq] at expands
      rw [snprintfFrom, ← expands]
      by_cases room : text.length < limit
      · rw [if_pos (filled_room.mpr room), if_neg other, filled_store room]
      · rw [if_neg (filled_room.not.mpr room), filled_full room]
  | case4 next spec rest inductionHypothesis =>
      rw [expandFrom, if_pos rfl] at expands
      obtain ⟨result, expanded, rest⟩ := Option.bind_eq_some_iff.mp expands
      obtain ⟨later, expandedLater, rfl⟩ := Option.map_eq_some_iff.mp rest
      rw [snprintfFrom]
      by_cases room : text.length < limit
      · rw [if_pos (filled_room.mpr room), if_pos rfl, snprintfSpec_filled room expanded,
          Option.bind_some, inductionHypothesis result expandedLater, List.append_assoc]
      · rw [if_neg (filled_room.not.mpr room), filled_full room]
  | case5 next char spec rest other inductionHypothesis =>
      rw [expandFrom, if_neg other] at expands
      obtain ⟨later, expandedLater, rfl⟩ := Option.map_eq_some_iff.mp expands
      rw [snprintfFrom]
      by_cases room : text.length < limit
      · rw [if_pos (filled_room.mpr room), if_neg other, filled_store room,
          inductionHypothesis expandedLater, List.append_assoc, List.singleton_append]
      · rw [if_neg (filled_room.not.mpr room), filled_full room]

end Filled

/-! ### Truncation -/

theorem intText_isSome (n : Word) : (intText n).isSome := by
  rw [intText]
  by_cases negative : n.slt 0 = true
  · rw [if_pos negative, Option.isSome_map]
    exact doDigits_neg_isSome negative
  · rw [if_neg negative, Option.isSome_map, doDigits_of_small (toNat_of_nonnegative negative).2]
    rfl

theorem expandSpec_isSome (args : VaList) (spec : Byte) (next : Nat) :
    (expandSpec args spec next).isSome := by
  unfold expandSpec
  split_ifs
  · rfl
  · rfl
  · rw [Option.isSome_map]
    exact intText_isSome _
  · rfl

/-- A complete format has an expansion, whatever its arguments. -/
theorem expandFrom_isSome {format : List Byte} (complete : Complete format) (args : VaList)
    (next : Nat) : (expandFrom args format next).isSome := by
  induction format using Complete.induct generalizing next with
  | case1 => rfl
  | case2 char =>
      rw [Complete] at complete
      rw [expandFrom, if_neg complete]
      rfl
  | case3 spec rest inductionHypothesis =>
      obtain ⟨result, expanded⟩ := Option.isSome_iff_exists.mp (expandSpec_isSome args spec next)
      rw [Complete, if_pos rfl] at complete
      rw [expandFrom, if_pos rfl, expanded, Option.bind_some, Option.isSome_map]
      exact inductionHypothesis complete result.1
  | case4 char spec rest other inductionHypothesis =>
      rw [Complete, if_neg other] at complete
      rw [expandFrom, if_neg other, Option.isSome_map]
      exact inductionHypothesis complete next

/-- `snprintf` stores the first `size - 1` characters of the text and a NUL, writes
nothing from `size` on, and returns the number of characters in front of the NUL. -/
def StoresTruncated (str : Image) (size : Word) (format : CString) (args : VaList)
    (text : List Byte) : Prop :=
  ∃ count after, snprintf str size format args = some (count, after) ∧
    ShowsBytes after (text.take (size.toNat - 1) ++ [0]) ∧
    (∀ offset, size.toNat ≤ offset → after offset = str offset) ∧
    count.toNat = (text.take (size.toNat - 1)).length

theorem storesTruncated_of_expansion {format : CString} {args : VaList} {text : List Byte}
    (expands : expansion format args = some text) (str : Image) {size : Word}
    (positive : 1 ≤ size.toNat) : StoresTruncated str size format args text := by
  have limit : (size - 1).toNat = size.toNat - 1 := BitVec.toNat_sub_of_le positive
  have stored := @snprintfFrom_filled str (size - 1).toNat [] _ _ _ _ expands
  obtain ⟨written, shows, outside⟩ := foldl_store_spec str (text.take (size.toNat - 1))
  rw [filled_nil, List.nil_append, limit] at stored
  rw [← filled] at written shows outside
  have returned : snprintf str size format args =
      some (BitVec.ofNat 32 (text.take (size.toNat - 1)).length,
        Function.update (filled str (size.toNat - 1) text).str
          (text.take (size.toNat - 1)).length 0) := by
    rw [snprintf, limit, stored, Option.map_some, written]
  have short : (text.take (size.toNat - 1)).length ≤ size.toNat - 1 := List.length_take_le _ _
  have small := size.isLt
  refine ⟨_, _, returned, showsBytes_update shows 0, fun offset behind => ?_, ?_⟩
  · rw [Function.update_of_ne (by omega), outside offset (by omega)]
  · rw [BitVec.toNat_ofNat, Nat.mod_eq_of_lt (by omega)]

/-- `snprintf` truncates what the format expands to: for every size it stores the start
that fits, so that what it stores for a smaller size is a prefix of what it stores for
a larger one. -/
theorem snprintf_truncates {format : CString} (complete : Complete format.bytes)
    (args : VaList) :
    ∃ text, expansion format args = some text ∧
      (∀ str size, 1 ≤ size.toNat → StoresTruncated str size format args text) ∧
      ∀ smaller larger size wider count more after other, 1 ≤ size.toNat →
        size.toNat ≤ wider.toNat → snprintf smaller size format args = some (count, after) →
          snprintf larger wider format args = some (more, other) →
            slice after 0 count.toNat <+: slice other 0 more.toNat := by
  obtain ⟨text, expands⟩ := Option.isSome_iff_exists.mp (expandFrom_isSome complete args 0)
  refine ⟨text, expands, fun str size positive => storesTruncated_of_expansion expands str positive,
    ?_⟩
  have stores : ∀ str (size : Word) count after, 1 ≤ size.toNat →
      snprintf str size format args = some (count, after) →
        slice after 0 count.toNat = text.take (size.toNat - 1) := by
    intro str size count after positive done
    obtain ⟨_, _, returned, shows, _, length⟩ :=
      storesTruncated_of_expansion expands str positive
    obtain ⟨rfl, rfl⟩ := Prod.mk.inj (Option.some.inj (done.symm.trans returned))
    rw [length]
    exact (showsBytes_append.mp shows).1
  intro smaller larger size wider count more after other positive wide first second
  rw [stores smaller size count after positive first,
    stores larger wider more other (positive.trans wide) second]
  exact List.take_prefix_take_left (by omega)

/-- `n = %d, s = %s`. -/
def pairFormat : CString := literal "n = %d, s = %s".toList

/-- The arguments 7 and a pointer to `ab`, whatever else is on the stack. -/
def pairArguments : VaList where
  word := fun index => if index = 0 then 7 else 0x1000
  stringAt := fun _ => literal ['a', 'b']

theorem snprintf_truncates_pair :
    ∃ text, expansion pairFormat pairArguments = some text ∧
      (∀ str size, 1 ≤ size.toNat → StoresTruncated str size pairFormat pairArguments text) ∧
      ∀ smaller larger size wider count more after other, 1 ≤ size.toNat →
        size.toNat ≤ wider.toNat →
          snprintf smaller size pairFormat pairArguments = some (count, after) →
            snprintf larger wider pairFormat pairArguments = some (more, other) →
              slice after 0 count.toNat <+: slice other 0 more.toNat :=
  snprintf_truncates (by simp [pairFormat, literal, asciiBytes, Complete, percent]) pairArguments

end BrainDance.Libc
