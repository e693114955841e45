import Mathlib.Data.Nat.Digits.Lemmas
import BrainDance.Foundation.Bytes

/-!
Owns numbers in decimal: what a text of digits, with or without a sign, denotes, and
the text of each number without leading zeros.
-/

namespace BrainDance.Foundation

/-! ### Texts -/

/-- The character of a digit. -/
def digitChar (digit : Nat) : Byte := BitVec.ofNat 8 (digit + 48)

/-- The byte of `'-'`. -/
def minusSign : Byte := 0x2D

/-- Digits without a leading zero, or one digit. -/
structure IsDecimal (text : List Byte) : Prop where
  nonempty : text ≠ []
  digits : ∀ char ∈ text, 48 ≤ char.toNat ∧ char.toNat ≤ 57
  leading : text.head? = some (digitChar 0) → text.length = 1

def decimalValue (text : List Byte) : Nat :=
  text.foldl (fun value char => 10 * value + (char.toNat - 48)) 0

/-- What a decimal text with an optional sign denotes. -/
inductive Denotes : List Byte → Int → Prop where
  | nonnegative {digits : List Byte} (decimal : IsDecimal digits) :
      Denotes digits (decimalValue digits)
  | negative {digits : List Byte} (decimal : IsDecimal digits) :
      Denotes (minusSign :: digits) (-(decimalValue digits : Int))

/-- A text that denotes a number consists of digits and a sign. -/
theorem Denotes.digit_or_sign {text : List Byte} {value : Int} (denotes : Denotes text value)
    {char : Byte} (member : char ∈ text) :
    char = minusSign ∨ 48 ≤ char.toNat ∧ char.toNat ≤ 57 := by
  cases denotes with
  | nonnegative decimal => exact .inr (decimal.digits char member)
  | negative decimal =>
      exact (List.mem_cons.mp member).imp_right fun inDigits => decimal.digits char inDigits

/-! ### The text of a number -/

/-- The digits of a number, the least one first. -/
def digitChars (number : Nat) : List Byte := (Nat.digits 10 number).map digitChar

def decimalText (number : Nat) : List Byte :=
  if number = 0 then [digitChar 0] else (digitChars number).reverse

section Text

variable {digit number : Nat}

theorem digitChar_toNat (small : digit < 10) : (digitChar digit).toNat = digit + 48 := by
  rw [digitChar, BitVec.toNat_ofNat]
  omega

theorem digitChars_of_pos (positive : 0 < number) :
    digitChars number = digitChar (number % 10) :: digitChars (number / 10) := by
  rw [digitChars, Nat.digits_def' (by decide) positive]
  rfl

theorem digitChars_length_le {count : Nat} (small : number < 10 ^ count) :
    (digitChars number).length ≤ count := by
  rw [digitChars, List.length_map]
  exact (Nat.digits_length_le_iff (by decide) number).mpr small

theorem decimalText_of_pos (positive : 0 < number) :
    decimalText number = (digitChars number).reverse := if_neg (Nat.ne_of_gt positive)

theorem decimalText_of_lt (small : number < 10) : decimalText number = [digitChar number] := by
  by_cases zero : number = 0
  · rw [zero]
    rfl
  · have none : digitChars (number / 10) = [] := by
      rw [Nat.div_eq_of_lt small]
      rfl
    rw [decimalText_of_pos (Nat.pos_of_ne_zero zero),
      digitChars_of_pos (Nat.pos_of_ne_zero zero), none, Nat.mod_eq_of_lt small]
    rfl

theorem decimalText_of_ge (large : 10 ≤ number) :
    decimalText number = decimalText (number / 10) ++ [digitChar (number % 10)] := by
  have positive : 0 < number / 10 := Nat.div_pos large (by decide)
  rw [decimalText_of_pos (by omega), decimalText_of_pos positive, digitChars_of_pos (by omega),
    List.reverse_cons]

theorem isDecimal_decimalText (number : Nat) : IsDecimal (decimalText number) := by
  rw [decimalText]
  by_cases zero : number = 0
  · rw [if_pos zero]
    exact ⟨List.cons_ne_nil _ _, by decide, fun _ => rfl⟩
  · have some := Nat.digits_ne_nil_iff_ne_zero (b := 10) |>.mpr zero
    rw [if_neg zero, digitChars]
    refine ⟨by simpa using some, fun char member => ?_, fun leading => ?_⟩
    · obtain ⟨digit, inDigits, rfl⟩ := List.mem_map.mp (List.mem_reverse.mp member)
      have small := Nat.digits_lt_base (by decide : 1 < 10) inDigits
      rw [digitChar_toNat small]
      omega
    · rw [List.head?_reverse, List.getLast?_map, List.getLast?_eq_some_getLast some,
        Option.map_some, Option.some.injEq] at leading
      have small := Nat.digits_lt_base (by decide : 1 < 10) (List.getLast_mem some)
      have values := congrArg BitVec.toNat leading
      rw [digitChar_toNat small, digitChar_toNat (by decide)] at values
      exact absurd (Nat.add_right_cancel values) (Nat.getLast_digit_ne_zero 10 zero)

/-- A number is read back from its text. -/
theorem decimalValue_decimalText (number : Nat) : decimalValue (decimalText number) = number := by
  rw [decimalText]
  by_cases zero : number = 0
  · rw [if_pos zero, zero]
    rfl
  · rw [if_neg zero, decimalValue, List.foldl_reverse, digitChars, List.foldr_map]
    conv_rhs => rw [← Nat.ofDigits_digits 10 number, Nat.ofDigits_eq_foldr]
    refine List.foldr_ext _ _ _ fun digit member value => ?_
    rw [digitChar_toNat (Nat.digits_lt_base (by decide) member)]
    simp only [Nat.cast_id]
    omega

theorem decimalText_length_le {count : Nat} (positive : 0 < count) (small : number < 10 ^ count) :
    (decimalText number).length ≤ count := by
  rw [decimalText]
  by_cases zero : number = 0
  · rw [if_pos zero]
    exact positive
  · rw [if_neg zero, List.length_reverse]
    exact digitChars_length_le small

end Text

/-- The text of an integer. -/
def integerText (number : Int) : List Byte :=
  if number < 0 then minusSign :: decimalText number.natAbs else decimalText number.natAbs

theorem denotes_integerText (number : Int) : Denotes (integerText number) number := by
  rw [integerText]
  by_cases negative : number < 0
  · have value : -(decimalValue (decimalText number.natAbs) : Int) = number := by
      rw [decimalValue_decimalText]
      omega
    have denotes := Denotes.negative (isDecimal_decimalText number.natAbs)
    rw [value] at denotes
    rwa [if_pos negative]
  · have value : (decimalValue (decimalText number.natAbs) : Int) = number := by
      rw [decimalValue_decimalText]
      omega
    have denotes := Denotes.nonnegative (isDecimal_decimalText number.natAbs)
    rw [value] at denotes
    rwa [if_neg negative]

/-- `count` digits and a sign hold every smaller magnitude. -/
theorem integerText_length_le {number : Int} {count : Nat} (positive : 0 < count)
    (small : number.natAbs < 10 ^ count) : (integerText number).length ≤ count + 1 := by
  have short := decimalText_length_le positive small
  rw [integerText]
  split_ifs
  · exact Nat.succ_le_succ short
  · exact Nat.le_succ_of_le short

end BrainDance.Foundation
