import BrainDance.Foundation.Decimal
import BrainDance.Libc.Memcore

/-!
Owns what the formatting routines of `libc/memcore.c` share: their variable arguments
and the digit loops of `print_int`, `print_uint` and `snprintf`, which store the
digits of a number in a buffer, the least one first. A loop gets the room left in its
buffer and yields the bytes it stores, or none when it writes behind the buffer.

On a number that is not negative all of them store its decimal digits.
-/

namespace BrainDance.Libc

open BrainDance.Foundation

/-! ### Arguments -/

/-- A `va_list`: the words of the stack behind the format, and the strings that a word
may point to. -/
structure VaList where
  word : Nat → Word
  stringAt : Word → CString

/-- The byte of `'%'`. -/
def percent : Byte := 0x25

/-- Each `%` that starts a specifier has one behind it. -/
def Complete : List Byte → Prop
  | [] => True
  | [char] => char ≠ percent
  | char :: spec :: rest => if char = percent then Complete rest else Complete (spec :: rest)

/-! ### Loops -/

/-- `(number % 10) + '0'` of an `int`, stored as a `char`. -/
def signedChar (number : Word) : Byte := (number.srem 10 + 0x30).setWidth 8

/-- `(number % 10) + '0'` of an `unsigned int`. -/
def unsignedChar (number : Word) : Byte := (number % 10 + 0x30).setWidth 8

/-- `while (number != 0) { buffer[i++] = (number % 10) + '0'; number /= 10; }` -/
def whileDigits (char : Word → Byte) (tenth : Word → Word) : Nat → Word → Option (List Byte)
  | 0, number => if number = 0 then some [] else none
  | room + 1, number =>
      if number = 0 then some []
      else (whileDigits char tenth room (tenth number)).map fun stored => char number :: stored

/-- `do { buf[j++] = (n % 10) + '0'; n /= 10; } while (n > 0);` -/
def doDigits : Nat → Word → Option (List Byte)
  | 0, _ => none
  | room + 1, n =>
      if (0 : Word).slt (n.sdiv 10) then
        (doDigits room (n.sdiv 10)).map fun stored => signedChar n :: stored
      else some [signedChar n]

/-- `buffer` of `print_int` when it is reversed. -/
def intBuffer (number : Word) : Option (List Byte) :=
  if number.slt 0 then
    (whileDigits signedChar (BitVec.sdiv · 10) 12 (-number)).bind fun digits =>
      if digits.length < 12 then some (digits ++ [minusSign]) else none
  else whileDigits signedChar (BitVec.sdiv · 10) 12 number

/-- `buffer` of `print_uint` when it is reversed. -/
def uintBuffer (number : Word) : Option (List Byte) := whileDigits unsignedChar (· / 10) 11 number

/-- The least `int`, which is its own negation. -/
def intMin : Word := 0x80000000

/-! ### Magnitudes -/

section Digits

variable {number : Word}

theorem slt_zero_iff : number.slt 0 = true ↔ number.toInt < 0 := decide_eq_true_iff

theorem toNat_of_nonnegative (nonnegative : ¬ number.slt 0 = true) :
    number.toNat = number.toInt.natAbs ∧ number.toNat < 2 ^ 31 := by
  rw [slt_zero_iff, BitVec.toInt_eq_toNat_cond] at nonnegative
  have := number.isLt
  rw [BitVec.toInt_eq_toNat_cond]
  split at nonnegative <;> omega

theorem neg_toNat_of_negative (negative : number.slt 0 = true) (notLeast : number ≠ intMin) :
    (-number).toNat = number.toInt.natAbs ∧ (-number).toNat < 2 ^ 31 := by
  have different : number.toNat ≠ 2 ^ 31 := fun same => notLeast (BitVec.eq_of_toNat_eq same)
  rw [slt_zero_iff, BitVec.toInt_eq_toNat_cond] at negative
  have := number.isLt
  rw [BitVec.toInt_eq_toNat_cond, BitVec.toNat_neg]
  split at negative <;> omega

/-! ### Digits -/

theorem sdiv_ten (small : number.toNat < 2 ^ 31) : (number.sdiv 10).toNat = number.toNat / 10 := by
  have positive : number.msb = false := by
    rw [BitVec.msb_eq_decide]
    simpa using small
  rw [BitVec.sdiv_eq, positive]
  exact BitVec.toNat_udiv

theorem signedChar_eq (small : number.toNat < 2 ^ 31) :
    signedChar number = digitChar (number.toNat % 10) := by
  have positive : number.msb = false := by
    rw [BitVec.msb_eq_decide]
    simpa using small
  have remainder : number.srem 10 = number % 10 := by
    rw [BitVec.srem_eq, positive]
    rfl
  apply BitVec.eq_of_toNat_eq
  rw [signedChar, remainder, digitChar, BitVec.toNat_setWidth, BitVec.toNat_add, BitVec.toNat_umod,
    BitVec.toNat_ofNat]
  simp only [show (10 : Word).toNat = 10 from rfl, show (0x30 : Word).toNat = 48 from rfl]
  omega

theorem unsignedChar_eq (number : Word) : unsignedChar number = digitChar (number.toNat % 10) := by
  apply BitVec.eq_of_toNat_eq
  rw [unsignedChar, digitChar, BitVec.toNat_setWidth, BitVec.toNat_add, BitVec.toNat_umod,
    BitVec.toNat_ofNat]
  simp only [show (10 : Word).toNat = 10 from rfl, show (0x30 : Word).toNat = 48 from rfl]
  omega

theorem zero_slt_iff (small : number.toNat < 2 ^ 31) :
    (0 : Word).slt number = true ↔ 0 < number.toNat := by
  have value : number.toInt = number.toNat := BitVec.toInt_eq_toNat_of_lt (by omega)
  rw [BitVec.slt_eq_decide, decide_eq_true_iff, value]
  exact Int.natCast_pos

/-- A loop that stores the last digit of the numbers below a bound and divides them by 10
stores all their digits. -/
theorem whileDigits_eq {char : Word → Byte} {tenth : Word → Word} {bound : Nat}
    (stores : ∀ number : Word, number.toNat < bound → char number = digitChar (number.toNat % 10))
    (divides : ∀ number : Word, number.toNat < bound → (tenth number).toNat = number.toNat / 10)
    {room : Nat} (small : number.toNat < bound) (fits : (digitChars number.toNat).length ≤ room) :
    whileDigits char tenth room number = some (digitChars number.toNat) := by
  by_cases zero : number = 0
  · rw [zero]
    cases room <;> rfl
  have positive : 0 < number.toNat := BitVec.toNat_pos_of_ne_zero zero
  rw [digitChars_of_pos positive] at fits ⊢
  induction room generalizing number with
  | zero => simp at fits
  | succ room inductionHypothesis =>
      rw [whileDigits, if_neg zero, stores number small]
      by_cases last : tenth number = 0
      · have done : number.toNat / 10 = 0 := by
          rw [← divides number small, last]
          rfl
        rw [last, done]
        cases room <;> rfl
      · have next := divides number small
        have more : 0 < (tenth number).toNat := BitVec.toNat_pos_of_ne_zero last
        rw [← next, digitChars_of_pos more] at fits ⊢
        rw [inductionHypothesis (by omega) (Nat.le_of_succ_le_succ fits) last more,
          Option.map_some]

theorem doDigits_eq {room : Nat} (small : number.toNat < 2 ^ 31)
    (fits : (decimalText number.toNat).length ≤ room) :
    doDigits room number = some (decimalText number.toNat).reverse := by
  induction room generalizing number with
  | zero =>
      have some := (isDecimal_decimalText number.toNat).nonempty
      exact absurd (List.eq_nil_of_length_eq_zero (Nat.le_zero.mp fits)) some
  | succ room inductionHypothesis =>
      have tenth := sdiv_ten small
      rw [doDigits, signedChar_eq small]
      by_cases large : 10 ≤ number.toNat
      · have more : (0 : Word).slt (number.sdiv 10) = true := by
          rw [zero_slt_iff (by omega), tenth]
          exact Nat.div_pos large (by decide)
        rw [decimalText_of_ge large] at fits ⊢
        rw [List.length_append, List.length_singleton] at fits
        rw [if_pos more, inductionHypothesis (by omega) (by rw [tenth]; omega), tenth]
        simp
      · have last : ¬ (0 : Word).slt (number.sdiv 10) = true := by
          rw [zero_slt_iff (by omega), tenth]
          omega
        rw [if_neg last, decimalText_of_lt (by omega), Nat.mod_eq_of_lt (by omega)]
        rfl

/-- Ten digits hold every magnitude. -/
theorem digitChars_length_of_small (small : number.toNat < 2 ^ 31) :
    (digitChars number.toNat).length ≤ 10 := digitChars_length_le (by omega)

theorem whileDigits_of_small (small : number.toNat < 2 ^ 31) :
    whileDigits signedChar (BitVec.sdiv · 10) 12 number = some (digitChars number.toNat) := by
  have short := digitChars_length_of_small small
  exact whileDigits_eq (fun _ => signedChar_eq) (fun _ => sdiv_ten) small (by omega)

theorem doDigits_of_small (small : number.toNat < 2 ^ 31) :
    doDigits 12 number = some (decimalText number.toNat).reverse := by
  have short : (decimalText number.toNat).length ≤ 10 :=
    decimalText_length_le (by decide) (by omega)
  exact doDigits_eq small (by omega)

/-- The digits of `snprintf` fit its buffer, also those of the least number. -/
theorem doDigits_neg_isSome (negative : number.slt 0 = true) : (doDigits 12 (-number)).isSome := by
  by_cases least : number = intMin
  · rw [least]
    decide
  · rw [doDigits_of_small (neg_toNat_of_negative negative least).2]
    rfl

end Digits

end BrainDance.Libc
