import BrainDance.Libc.Console.Printing
import BrainDance.Libc.Snprintf

/-!
Owns the text of an integer on both of its paths, through `print_int` to the console
and through `snprintf` to memory. Both negate a negative number, which the least one
survives: its remainders are negative, and characters in front of the digits come out.
On every other number both write its decimal text.
-/

namespace BrainDance.Libc

open BrainDance.Foundation

/-! ### The property -/

/-- The format `%d`. -/
def intFormat : CString := literal ['%', 'd']

/-- `print_int` prints the text. -/
def PrintsInt (number : Word) (text : List Byte) : Prop :=
  ∀ color console, printInt number color console = print (text ++ [0]) color console

/-- With room for it `snprintf` stores the text for `%d`. -/
def StoresInt (number : Word) (text : List Byte) : Prop :=
  ∀ str (size : Word) (args : VaList), text.length < size.toNat → args.word 0 = number →
    ∃ after, snprintf str size intFormat args = some (BitVec.ofNat 32 text.length, after) ∧
      ShowsBytes after (text ++ [0])

/-- The digits fit the buffers of both routines. -/
def DigitsFit (number : Word) : Prop :=
  (intBuffer number).isSome ∧ (doDigits 12 (if number.slt 0 then -number else number)).isSome

/-- Both routines write the same text, which denotes the number, and their buffers hold
it. -/
def FormatsDecimal (number : Word) : Prop :=
  ∃ text, PrintsInt number text ∧ StoresInt number text ∧ Denotes text number.toInt ∧
    text.length ≤ 12 ∧ DigitsFit number

/-! ### Numbers that are not the least -/

section Formats

variable {number : Word}

theorem integerText_noNul (number : Int) : ∀ char ∈ integerText number, char ≠ 0 := by
  rintro char member rfl
  rcases (denotes_integerText number).digit_or_sign member with sign | ⟨digit, _⟩
  · exact absurd sign (by decide)
  · exact absurd digit (by decide)

theorem intBuffer_eq (notLeast : number ≠ intMin) (notZero : number ≠ 0) :
    intBuffer number = some (integerText number.toInt).reverse := by
  have positive : 0 < number.toInt.natAbs :=
    Int.natAbs_pos.mpr fun zero => notZero (BitVec.eq_of_toInt_eq zero)
  rw [intBuffer, integerText]
  by_cases negative : number.slt 0 = true
  · obtain ⟨magnitude, small⟩ := neg_toNat_of_negative negative notLeast
    have short := digitChars_length_of_small small
    rw [if_pos negative, if_pos (slt_zero_iff.mp negative), whileDigits_of_small small,
      Option.bind_some, if_pos (by omega), decimalText_of_pos positive, magnitude,
      List.reverse_cons, List.reverse_reverse]
  · obtain ⟨magnitude, small⟩ := toNat_of_nonnegative negative
    rw [if_neg negative, if_neg (slt_zero_iff.not.mp negative), whileDigits_of_small small,
      decimalText_of_pos positive, magnitude, List.reverse_reverse]

theorem printsInt_of_ne (notLeast : number ≠ intMin) :
    PrintsInt number (integerText number.toInt) := by
  intro color console
  rw [printInt]
  by_cases zero : number = 0
  · rw [if_pos zero, zero]
    rfl
  · rw [if_neg zero, intBuffer_eq notLeast zero, Option.bind_some, List.reverse_reverse,
      printChars_eq_print (integerText_noNul _)]

theorem intText_eq (notLeast : number ≠ intMin) :
    intText number = some (integerText number.toInt) := by
  rw [intText, integerText]
  by_cases negative : number.slt 0 = true
  · obtain ⟨magnitude, small⟩ := neg_toNat_of_negative negative notLeast
    rw [if_pos negative, if_pos (slt_zero_iff.mp negative), doDigits_of_small small, magnitude,
      Option.map_some, List.reverse_reverse]
  · obtain ⟨magnitude, small⟩ := toNat_of_nonnegative negative
    rw [if_neg negative, if_neg (slt_zero_iff.not.mp negative), doDigits_of_small small,
      magnitude, Option.map_some, List.reverse_reverse]

theorem expansion_intFormat (args : VaList) : expansion intFormat args = intText (args.word 0) := by
  have expands : expansion intFormat args =
      ((intText (args.word 0)).map fun text => (1, text)).bind fun result =>
        some (result.2 ++ []) := rfl
  rw [expands, Option.bind_map]
  simp only [Function.comp_def, List.append_nil, Option.bind_fun_some]

theorem storesInt_of_intText {text : List Byte} (isText : intText number = some text) :
    StoresInt number text := by
  intro str size args room isArgument
  have expands : expansion intFormat args = some text := by
    rw [expansion_intFormat, isArgument, isText]
  obtain ⟨count, after, returned, shows, _, length⟩ :=
    storesTruncated_of_expansion expands str (Nat.one_le_of_lt room)
  rw [List.take_of_length_le (by omega)] at shows length
  refine ⟨after, ?_, shows⟩
  rw [returned, ← length, BitVec.ofNat_toNat, BitVec.setWidth_eq]

/-- `snprintf` stores one text. -/
theorem StoresInt.unique {left right : List Byte} (storesLeft : StoresInt number left)
    (storesRight : StoresInt number right) (shortLeft : left.length ≤ 12)
    (shortRight : right.length ≤ 12) : left = right := by
  have room : (100 : Word).toNat = 100 := rfl
  obtain ⟨after, returned, shows⟩ := storesLeft (fun _ => 0) 100
    ⟨fun _ => number, fun _ => CString.nil⟩ (by omega) rfl
  obtain ⟨other, returnedOther, showsOther⟩ := storesRight (fun _ => 0) 100
    ⟨fun _ => number, fun _ => CString.nil⟩ (by omega) rfl
  obtain ⟨counts, rfl⟩ := Prod.mk.inj (Option.some.inj (returned.symm.trans returnedOther))
  have lengths := congrArg BitVec.toNat counts
  rw [BitVec.toNat_ofNat, BitVec.toNat_ofNat, Nat.mod_eq_of_lt (by omega),
    Nat.mod_eq_of_lt (by omega)] at lengths
  rw [ShowsBytes, List.length_append] at shows showsOther
  rw [lengths] at shows
  exact List.append_cancel_right (shows.symm.trans showsOther)

theorem digitsFit (number : Word) : DigitsFit number := by
  constructor
  · by_cases least : number = intMin
    · rw [least]
      decide
    · by_cases zero : number = 0
      · rw [zero]
        decide
      · rw [intBuffer_eq least zero]
        rfl
  · split_ifs with negative
    · exact doDigits_neg_isSome negative
    · rw [doDigits_of_small (toNat_of_nonnegative negative).2]
      rfl

end Formats

/-! ### Unsigned numbers -/

/-- `print_uint` prints the decimal text of every number. -/
theorem printUint_eq_print (number : Word) (color : Byte) (console : Console) :
    printUint number color console =
      print (decimalText number.toNat ++ [0]) color console := by
  have noNul := integerText_noNul number.toNat
  rw [integerText, if_neg (by omega), Int.natAbs_natCast] at noNul
  rw [printUint]
  by_cases zero : number = 0
  · rw [if_pos zero, zero]
    rfl
  · have positive : 0 < number.toNat := BitVec.toNat_pos_of_ne_zero zero
    have small := number.isLt
    have short : (digitChars number.toNat).length ≤ 10 := digitChars_length_le (by omega)
    have stored : uintBuffer number = some (digitChars number.toNat) :=
      whileDigits_eq (fun number _ => unsignedChar_eq number) (fun _ _ => BitVec.toNat_udiv) small
        (by omega)
    rw [if_neg zero, stored, Option.bind_some, ← decimalText_of_pos positive,
      printChars_eq_print noNul]

/-! ### The least number -/

/-- `snprintf` makes `-(` of the least number. -/
theorem intText_intMin : intText intMin = some [0x2D, 0x28] := by decide

theorem not_formatsDecimal_intMin : ¬ FormatsDecimal intMin := by
  rintro ⟨text, _, stores, denotes, short, _⟩
  have same := stores.unique (storesInt_of_intText intText_intMin) short (by decide)
  rw [same] at denotes
  exact absurd (denotes.digit_or_sign (List.mem_cons_of_mem _ List.mem_cons_self)) (by decide)

/-- Both routines write the same decimal text of every number but the least. -/
theorem formatsDecimal_iff (number : Word) : FormatsDecimal number ↔ number ≠ intMin := by
  constructor
  · rintro formats rfl
    exact not_formatsDecimal_intMin formats
  · intro notLeast
    have small : number.toInt.natAbs < 10 ^ 10 := by
      have := number.toInt_lt
      have := number.le_toInt
      omega
    have short := integerText_length_le (by decide) small
    exact ⟨_, printsInt_of_ne notLeast, storesInt_of_intText (intText_eq notLeast),
      denotes_integerText _, by omega, digitsFit number⟩

/-- `print_int` makes `-./,),(-*,(` of the least number. -/
example : intBuffer intMin = some (asciiBytes "-./,),(-*,(".toList).reverse := by decide

theorem formatsDecimal_fails : ¬ ∀ number : Word, FormatsDecimal number := fun always =>
  not_formatsDecimal_intMin (always intMin)

end BrainDance.Libc
