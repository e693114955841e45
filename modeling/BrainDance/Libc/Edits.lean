import Mathlib.Data.List.InsertIdx
import BrainDance.Libc.Memcore

/-!
Owns the edits of a string: a character put in, a character taken out and one
string behind another. For each it has the length of the result and what a pointer
to the result sees, from the images of the strings it is made of.
-/

namespace BrainDance.Libc

open BrainDance.Foundation

/-- The string with `char` in front of the character at `index`. -/
def CString.insertIdx (string : CString) (index : Nat) (char : Byte) (notNul : char ≠ 0) :
    CString where
  bytes := string.bytes.insertIdx index char
  noNul := fun _ member => (List.eq_or_mem_of_mem_insertIdx member).elim
    (fun same => same ▸ notNul) (string.noNul _)

/-- The string without the character at `index`. -/
def CString.eraseIdx (string : CString) (index : Nat) : CString where
  bytes := string.bytes.eraseIdx index
  noNul := fun char member => string.noNul char (List.mem_of_mem_eraseIdx member)

def CString.append (left right : CString) : CString where
  bytes := left.bytes ++ right.bytes
  noNul := fun char member => (List.mem_append.mp member).elim (left.noNul char) (right.noNul char)

section Edits

variable {string left right : CString} {index : Nat} {char : Byte}

/-- A pointer to the string sees NULs behind its characters. -/
theorem CString.image_of_le (string : CString) {offset : Nat}
    (behind : strlen string ≤ offset) : string.image offset = 0 := by
  rw [CString.image, List.getD_eq_getElem?_getD, List.getElem?_eq_none behind, Option.getD_none]

theorem strlen_insertIdx (notNul : char ≠ 0) (inString : index ≤ strlen string) :
    strlen (string.insertIdx index char notNul) = strlen string + 1 :=
  List.length_insertIdx_of_le_length inString char

theorem strlen_eraseIdx (inString : index < strlen string) :
    strlen (string.eraseIdx index) = strlen string - 1 :=
  List.length_eraseIdx_of_lt inString

@[simp] theorem strlen_append : strlen (left.append right) = strlen left + strlen right :=
  List.length_append

theorem CString.image_insertIdx (notNul : char ≠ 0) (inString : index ≤ strlen string)
    (offset : Nat) :
    (string.insertIdx index char notNul).image offset =
      if offset < index then string.image offset
      else if offset = index then char else string.image (offset - 1) := by
  unfold CString.image CString.insertIdx
  simp only [List.getD_eq_getElem?_getD, List.getElem?_insertIdx]
  by_cases before : offset < index
  · rw [if_pos before, if_pos before]
  · rw [if_neg before, if_neg before]
    by_cases here : offset = index
    · rw [if_pos here, if_pos here, if_pos (by rw [here]; exact inString), Option.getD_some]
    · rw [if_neg here, if_neg here]

theorem CString.image_eraseIdx (string : CString) (index offset : Nat) :
    (string.eraseIdx index).image offset =
      if offset < index then string.image offset else string.image (offset + 1) := by
  unfold CString.image CString.eraseIdx
  simp only [List.getD_eq_getElem?_getD, List.getElem?_eraseIdx]
  by_cases before : offset < index
  · rw [if_pos before, if_pos before]
  · rw [if_neg before, if_neg before]

theorem CString.image_append (left right : CString) (offset : Nat) :
    (left.append right).image offset =
      if offset < strlen left then left.image offset else right.image (offset - strlen left) := by
  unfold CString.image CString.append strlen
  simp only [List.getD_eq_getElem?_getD, List.getElem?_append]
  by_cases before : offset < left.bytes.length
  · rw [if_pos before, if_pos before]
  · rw [if_neg before, if_neg before]

end Edits

end BrainDance.Libc
