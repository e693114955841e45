import BrainDance.Libc.Edits

/-!
Owns the comparisons of `libc/memcore.c`: `strncmp`, `ends_with` and the order that
`strcmp` and `strncmp` decide. They stop at the first difference, at the terminator
or at the count, whichever comes first.
-/

namespace BrainDance.Libc

open BrainDance.Foundation

/-! ### Model -/

/-- `strncmp`, with the bytes that stand from each pointer on. A read behind the last
of them has no result. -/
def strncmp : List Byte → List Byte → Nat → Option Int
  | _, _, 0 => some 0
  | str1, str2, n + 1 => do
      let char1 ← str1.head?
      let char2 ← str2.head?
      if char1 ≠ 0 ∧ char1 = char2 then strncmp str1.tail str2.tail n
      else some (char1.toNat - char2.toNat)

/-- The bytes of a string with its NUL. -/
def CString.terminated (string : CString) : List Byte := string.bytes ++ [0]

/-- `ends_with`; `none` is `NULL`. -/
def endsWith : Option CString → Option CString → Option Int
  | some str, some suffix =>
      if strlen suffix > strlen str then some 0
      else do
        let behind := str.terminated.drop (strlen str - strlen suffix)
        let result ← strncmp behind suffix.terminated (strlen suffix)
        some (if result = 0 then 1 else 0)
  | _, _ => some 0

/-- The first `count` characters. -/
def CString.take (string : CString) (count : Nat) : CString where
  bytes := string.bytes.take count
  noNul := fun char member => string.noNul char (List.mem_of_mem_take member)

/-! ### The difference of two texts -/

/-- The difference of the first two bytes in which the texts differ, where a NUL
follows each. -/
def difference : List Byte → List Byte → Int
  | [], [] => 0
  | [], char2 :: _ => -char2.toNat
  | char1 :: _, [] => char1.toNat
  | char1 :: rest1, char2 :: rest2 =>
      if char1 = char2 then difference rest1 rest2 else char1.toNat - char2.toNat

theorem strcmpFrom_eq_difference {text1 : List Byte} (text2 : List Byte)
    (noNul : ∀ char ∈ text1, char ≠ 0) (offset : Nat) :
    strcmpFrom (fun index => text1.getD index 0) offset text2 =
      difference (text1.drop offset) text2 := by
  have current : ∀ offset, text1.getD offset 0 = (text1.drop offset).headD 0 := by
    intro offset
    rw [List.getD_eq_getElem?_getD, List.headD_eq_head?_getD, List.head?_drop]
  induction text2 generalizing offset with
  | nil =>
      rw [strcmpFrom, current]
      cases text1.drop offset <;> rfl
  | cons char2 rest2 inductionHypothesis =>
      have next := @List.drop_drop _ 1 offset text1
      rw [strcmpFrom, inductionHypothesis, current, ← next]
      cases rest : text1.drop offset with
      | nil =>
          rw [List.headD_nil, if_neg fun both => both.1 rfl, difference]
          exact Int.zero_sub _
      | cons char1 rest1 =>
          have notNul : char1 ≠ 0 :=
            noNul char1 (List.mem_of_mem_drop (rest ▸ List.mem_cons_self))
          rw [List.headD_cons, difference]
          by_cases same : char1 = char2
          · rw [if_pos ⟨notNul, same⟩, if_pos same]
            rfl
          · rw [if_neg fun both => same both.2, if_neg same]

theorem strcmp_eq_difference (str1 str2 : CString) :
    strcmp str1.image str2 = difference str1.bytes str2.bytes :=
  strcmpFrom_eq_difference str2.bytes str1.noNul 0

/-- Within `n` bytes `strncmp` compares the strings cut off there. -/
theorem strncmp_eq_difference {text1 text2 : List Byte} (noNul1 : ∀ char ∈ text1, char ≠ 0)
    (noNul2 : ∀ char ∈ text2, char ≠ 0) (behind1 behind2 : List Byte) (n : Nat) :
    strncmp ((text1 ++ [0]).take n ++ behind1) ((text2 ++ [0]).take n ++ behind2) n =
      some (difference (text1.take n) (text2.take n)) := by
  induction n generalizing text1 text2 with
  | zero => rfl
  | succ n inductionHypothesis =>
      cases text1 with
      | nil =>
          cases text2 with
          | nil => rfl
          | cons char2 rest2 => simp [strncmp, difference]
      | cons char1 rest1 =>
          obtain ⟨notNul1, restNoNul1⟩ := List.forall_mem_cons.mp noNul1
          cases text2 with
          | nil =>
              have notEnd : ¬ (char1 ≠ 0 ∧ char1 = 0) := fun both => both.1 both.2
              simp only [List.cons_append, List.take_succ_cons, List.nil_append, strncmp,
                List.head?_cons, Option.bind_eq_bind, Option.bind_some, if_neg notEnd]
              simp [difference]
          | cons char2 rest2 =>
              obtain ⟨_, restNoNul2⟩ := List.forall_mem_cons.mp noNul2
              simp only [List.cons_append, List.take_succ_cons, strncmp, List.head?_cons,
                Option.bind_eq_bind, Option.bind_some, List.tail_cons, difference]
              by_cases same : char1 = char2
              · rw [if_pos ⟨notNul1, same⟩, if_pos same]
                exact inductionHypothesis restNoNul1 restNoNul2
              · rw [if_neg fun both => same both.2, if_neg same]

/-- Texts that differ do so first at one place, which decides the difference. -/
theorem difference_of_ne {text1 text2 : List Byte} (noNul1 : ∀ char ∈ text1, char ≠ 0)
    (noNul2 : ∀ char ∈ text2, char ≠ 0) (different : text1 ≠ text2) :
    ∃ index, (∀ earlier < index, text1.getD earlier 0 = text2.getD earlier 0) ∧
      text1.getD index 0 ≠ text2.getD index 0 ∧
        difference text1 text2 = (text1.getD index 0).toNat - (text2.getD index 0).toNat := by
  induction text1 generalizing text2 with
  | nil =>
      cases text2 with
      | nil => exact absurd rfl different
      | cons char2 rest2 =>
          refine ⟨0, fun _ none => absurd none (Nat.not_lt_zero _), ?_, ?_⟩
          · exact (noNul2 char2 List.mem_cons_self).symm
          · exact (Int.zero_sub _).symm
  | cons char1 rest1 inductionHypothesis =>
      cases text2 with
      | nil =>
          refine ⟨0, fun _ none => absurd none (Nat.not_lt_zero _), ?_, ?_⟩
          · exact noNul1 char1 List.mem_cons_self
          · exact (Int.sub_zero _).symm
      | cons char2 rest2 =>
          by_cases same : char1 = char2
          · subst same
            obtain ⟨index, agree, differ, decided⟩ := inductionHypothesis
              (List.forall_mem_cons.mp noNul1).2 (List.forall_mem_cons.mp noNul2).2
              fun rest => different (congrArg _ rest)
            refine ⟨index + 1, ?_, differ, ?_⟩
            · intro earlier before
              cases earlier with
              | zero => rfl
              | succ earlier => exact agree earlier (Nat.lt_of_succ_lt_succ before)
            · rw [difference, if_pos rfl]
              exact decided
          · refine ⟨0, fun _ none => absurd none (Nat.not_lt_zero _), same, ?_⟩
            rw [difference, if_neg same]
            rfl

/-- The sign of the difference is the lexicographic order of the texts. -/
theorem difference_neg_iff {text1 text2 : List Byte} (noNul1 : ∀ char ∈ text1, char ≠ 0)
    (noNul2 : ∀ char ∈ text2, char ≠ 0) : difference text1 text2 < 0 ↔ text1 < text2 := by
  induction text1 generalizing text2 with
  | nil =>
      cases text2 with
      | nil => simp [difference]
      | cons char2 rest2 =>
          have positive := BitVec.toNat_pos_of_ne_zero (noNul2 char2 List.mem_cons_self)
          simp only [difference, List.nil_lt_cons, iff_true]
          omega
  | cons char1 rest1 inductionHypothesis =>
      cases text2 with
      | nil => simp [difference]
      | cons char2 rest2 =>
          rw [List.cons_lt_cons_iff, difference, BitVec.lt_def]
          by_cases same : char1 = char2
          · rw [if_pos same, inductionHypothesis (List.forall_mem_cons.mp noNul1).2
              (List.forall_mem_cons.mp noNul2).2]
            simp [same]
          · have apart : char1.toNat ≠ char2.toNat := fun eq => same (BitVec.eq_of_toNat_eq eq)
            rw [if_neg same]
            simp only [same, false_and, or_false]
            omega

theorem difference_swap (text1 text2 : List Byte) :
    difference text2 text1 = -difference text1 text2 := by
  induction text1 generalizing text2 with
  | nil => cases text2 <;> simp [difference]
  | cons char1 rest1 inductionHypothesis =>
      cases text2 with
      | nil => simp [difference]
      | cons char2 rest2 =>
          rw [difference, difference]
          by_cases same : char1 = char2
          · rw [if_pos same, if_pos same.symm, inductionHypothesis]
          · rw [if_neg same, if_neg (Ne.symm same)]
            omega

theorem difference_eq_zero_iff {text1 text2 : List Byte} (noNul1 : ∀ char ∈ text1, char ≠ 0)
    (noNul2 : ∀ char ∈ text2, char ≠ 0) : difference text1 text2 = 0 ↔ text1 = text2 := by
  constructor
  · intro zero
    by_contra different
    obtain ⟨index, _, differ, decided⟩ := difference_of_ne noNul1 noNul2 different
    exact differ (BitVec.eq_of_toNat_eq (by omega))
  · rintro rfl
    have own := difference_swap text1 text1
    omega

/-! ### The comparisons -/

section Comparisons

variable (a b : CString)

theorem strcmp_neg_iff : strcmp a.image b < 0 ↔ a.bytes < b.bytes := by
  rw [strcmp_eq_difference]
  exact difference_neg_iff a.noNul b.noNul

theorem strcmp_swap : strcmp b.image a = -strcmp a.image b := by
  rw [strcmp_eq_difference, strcmp_eq_difference, difference_swap]

theorem strcmp_nonpos_iff : strcmp a.image b ≤ 0 ↔ a.bytes ≤ b.bytes := by
  rw [← List.not_lt, ← strcmp_neg_iff, strcmp_swap a b]
  omega

theorem strncmp_eq_strcmp (behind1 behind2 : List Byte) (n : Nat) :
    strncmp (a.terminated.take n ++ behind1) (b.terminated.take n ++ behind2) n =
      some (strcmp (a.take n).image (b.take n)) := by
  rw [strcmp_eq_difference]
  exact strncmp_eq_difference a.noNul b.noNul behind1 behind2 n

theorem endsWith_eq :
    endsWith (some a) (some b) = some (if b.bytes <:+ a.bytes then 1 else 0) := by
  rw [endsWith]
  by_cases longer : strlen b > strlen a
  · have notSuffix : ¬ b.bytes <:+ a.bytes :=
      fun suffix => absurd suffix.length_le (Nat.not_le_of_lt longer)
    rw [if_pos longer, if_neg notSuffix]
  · have inString : strlen b ≤ strlen a := Nat.le_of_not_lt longer
    have atEnd : a.terminated.drop (strlen a - strlen b) =
        a.bytes.drop (strlen a - strlen b) ++ [0] :=
      List.drop_append_of_le_length (Nat.sub_le _ _)
    have endNoNul : ∀ char ∈ a.bytes.drop (strlen a - strlen b), char ≠ 0 :=
      fun char member => a.noNul char (List.mem_of_mem_drop member)
    have endLength : (a.bytes.drop (strlen a - strlen b)).length = strlen b := by
      rw [List.length_drop]
      exact Nat.sub_sub_self inString
    have compared : strncmp (a.bytes.drop (strlen a - strlen b) ++ [0]) b.terminated (strlen b) =
        some (difference (a.bytes.drop (strlen a - strlen b)) b.bytes) := by
      have cut := strncmp_eq_difference endNoNul b.noNul
        ((a.bytes.drop (strlen a - strlen b) ++ [0]).drop (strlen b))
        (b.terminated.drop (strlen b)) (strlen b)
      rwa [List.take_append_drop, ← CString.terminated, List.take_append_drop,
        List.take_of_length_le (Nat.le_of_eq endLength),
        List.take_of_length_le (show b.bytes.length ≤ strlen b from Nat.le_refl _)] at cut
    have suffixIff : b.bytes <:+ a.bytes ↔ a.bytes.drop (strlen a - strlen b) = b.bytes := by
      rw [List.suffix_iff_eq_drop, eq_comm]
      rfl
    rw [if_neg longer]
    simp only [atEnd, compared, Option.bind_eq_bind, Option.bind_some,
      difference_eq_zero_iff endNoNul b.noNul, suffixIff]

end Comparisons

/-- `strcmp` decides equality and the lexicographic order, a total one, by the first
bytes that differ. `strncmp` does the same for the first `n` characters and reads
neither past a terminator nor past the `n`-th character, whatever stands there.
`ends_with` holds exactly of suffixes. -/
theorem comparisons_exact (a b : CString) (n : Nat) :
    (strcmp a.image b = 0 ↔ a = b) ∧
      (a ≠ b → ∃ index, (∀ earlier < index, a.image earlier = b.image earlier) ∧
        a.image index ≠ b.image index ∧
          strcmp a.image b = (a.image index).toNat - (b.image index).toNat) ∧
      (strcmp a.image b < 0 ↔ a.bytes < b.bytes) ∧
      (strcmp a.image b ≤ 0 ∨ strcmp b.image a ≤ 0) ∧
      (strcmp a.image b ≤ 0 → strcmp b.image a ≤ 0 → a = b) ∧
      (∀ c : CString, strcmp a.image b ≤ 0 → strcmp b.image c ≤ 0 → strcmp a.image c ≤ 0) ∧
      (∀ behind1 behind2,
        strncmp (a.terminated.take n ++ behind1) (b.terminated.take n ++ behind2) n =
          some (strcmp (a.take n).image (b.take n))) ∧
      (endsWith (some a) (some b) = some 1 ↔ ∃ front, a.bytes = front ++ b.bytes) ∧
      (endsWith (some a) (some b) = some 0 ↔ ¬ ∃ front, a.bytes = front ++ b.bytes) := by
  have suffixIff : (∃ front, a.bytes = front ++ b.bytes) ↔ b.bytes <:+ a.bytes :=
    exists_congr fun front => eq_comm
  refine ⟨strcmp_image_eq_zero_iff a b, ?_, strcmp_neg_iff a b, ?_, ?_, ?_,
    fun behind1 behind2 => strncmp_eq_strcmp a b behind1 behind2 n, ?_, ?_⟩
  · intro different
    rw [strcmp_eq_difference]
    exact difference_of_ne a.noNul b.noNul fun same => different (CString.ext same)
  · have swap := strcmp_swap a b
    omega
  · intro below above
    have swap := strcmp_swap a b
    exact (strcmp_image_eq_zero_iff a b).mp (by omega)
  · intro c
    simp only [strcmp_nonpos_iff]
    exact Std.le_trans
  · rw [endsWith_eq, suffixIff]
    split <;> simp_all
  · rw [endsWith_eq, suffixIff]
    split <;> simp_all

end BrainDance.Libc
