import Mathlib.Data.List.InsertIdx
import Mathlib.Logic.Function.Basic

/-!
Owns a text of a fixed number of lines with a cursor in it, and the edits of a simple
editor: moving the cursor, inserting in front of it, and erasing the character before it
or the break between two lines. An edit that this editor is not meant for has no result:
a vertical move to a line that ends before the cursor's column, an insertion into a full
line, a new line below the last one, and a join above text in the last line.

`height` counts the lines, `room` is the longest line and `lowest` the row below which
the cursor does not go down.
-/

namespace BrainDance.Foundation

universe u

inductive Edit (Char : Type u) where
  | up
  | down
  | left
  | right
  | newline
  | insert (char : Char)
  | erase

structure TextBuffer (Char : Type u) where
  lines : Nat → List Char
  row : Nat
  col : Nat

namespace TextBuffer

variable {Char : Type u} (height room lowest : Nat)

/-- The line of the cursor. -/
def line (text : TextBuffer Char) : List Char := text.lines text.row

/-- Another line in the place of the cursor's, with the cursor in it. -/
def replaceLine (line : List Char) (col : Nat) (text : TextBuffer Char) : TextBuffer Char :=
  { text with lines := Function.update text.lines text.row line, col }

/-- The cursor goes to another line that has its column. -/
def moveTo (row : Nat) (text : TextBuffer Char) : Option (TextBuffer Char) :=
  if text.col ≤ (text.lines row).length then some { text with row } else none

/-- The line of the cursor behind the one above it, and the lines below moved up. -/
def joined (text : TextBuffer Char) : TextBuffer Char where
  lines y :=
    if y + 1 < text.row then text.lines y
    else if y + 1 = text.row then text.lines y ++ text.lines (y + 1)
    else text.lines (y + 1)
  row := text.row - 1
  col := (text.lines (text.row - 1)).length

/-- There is a line above, and the two together leave room. -/
def Joinable (text : TextBuffer Char) : Prop :=
  0 < text.row ∧ (text.lines (text.row - 1)).length + text.line.length < room

instance (text : TextBuffer Char) : Decidable (text.Joinable room) :=
  inferInstanceAs (Decidable (_ ∧ _))

def edit (text : TextBuffer Char) : Edit Char → Option (TextBuffer Char)
  | .up => if text.row = 0 then some text else text.moveTo (text.row - 1)
  | .down => if text.row < lowest then text.moveTo (text.row + 1) else some text
  | .left => some { text with col := text.col - 1 }
  | .right => some (if text.col < text.line.length then { text with col := text.col + 1 } else text)
  | .newline => if text.row + 1 < height then some { text with row := text.row + 1, col := 0 } else none
  | .insert char =>
      if text.col < room then
        if text.line.length < room then
          some (text.replaceLine (text.line.insertIdx text.col char) (text.col + 1))
        else none
      else some text
  | .erase =>
      if 0 < text.col then
        some (text.replaceLine (text.line.eraseIdx (text.col - 1)) (text.col - 1))
      else if text.Joinable room then
        if text.lines (height - 1) = [] then some text.joined else none
      else some text

/-- The edit is an insertion with the cursor in front of the last column, or has something
to erase. -/
def Touches (text : TextBuffer Char) : Edit Char → Prop
  | .insert _ => text.col < room
  | .erase => 0 < text.col ∨ text.Joinable room
  | _ => False

instance (text : TextBuffer Char) : ∀ edit : Edit Char, Decidable (text.Touches room edit)
  | .insert _ => inferInstanceAs (Decidable (_ < _))
  | .erase => inferInstanceAs (Decidable (_ ∨ _))
  | .up | .down | .left | .right | .newline => inferInstanceAs (Decidable False)

/-- The edits one after the other. -/
def edits (text : TextBuffer Char) (all : List (Edit Char)) : Option (TextBuffer Char) :=
  all.foldlM (fun text edit => text.edit height room lowest edit) text

/-- The cursor is in a line or at its end, and no line is longer than there is room or
stands below the last one. -/
structure Valid (text : TextBuffer Char) : Prop where
  row : text.row < height
  col : text.col ≤ text.line.length
  fits : ∀ y, (text.lines y).length ≤ room
  below : ∀ y, height ≤ y → text.lines y = []

section Edits

variable {height room lowest} {text after : TextBuffer Char}

theorem moveTo_eq_some {row : Nat} (moved : text.moveTo row = some after) :
    text.col ≤ (text.lines row).length ∧ after = { text with row } := by
  unfold moveTo at moved
  split at moved
  · rename_i inLine
    exact ⟨inLine, (Option.some.inj moved).symm⟩
  · contradiction

@[simp] theorem line_replaceLine (line : List Char) (col : Nat) :
    (text.replaceLine line col).line = line :=
  Function.update_self ..

theorem lines_replaceLine (line : List Char) (col : Nat) :
    (text.replaceLine line col).lines = Function.update text.lines text.row line := rfl

@[simp] theorem col_replaceLine (line : List Char) (col : Nat) :
    (text.replaceLine line col).col = col := rfl

theorem replaceLine_replaceLine (first second : List Char) (before col : Nat) :
    (text.replaceLine first before).replaceLine second col = text.replaceLine second col := by
  simp [replaceLine]

theorem replaceLine_self : text.replaceLine text.line text.col = text := by
  simp [replaceLine, line]

theorem Valid.replaceLine (valid : text.Valid height room) {line : List Char} {col : Nat}
    (short : line.length ≤ room) (inLine : col ≤ line.length) :
    (text.replaceLine line col).Valid height room := by
  refine ⟨valid.row, by rwa [line_replaceLine], fun y => ?_, fun y past => ?_⟩
  · rw [lines_replaceLine]
    by_cases here : y = text.row
    · rwa [here, Function.update_self]
    · rw [Function.update_of_ne here]
      exact valid.fits y
  · have row := valid.row
    rw [lines_replaceLine, Function.update_of_ne (by omega)]
    exact valid.below y past

theorem Valid.joined (valid : text.Valid height room) (joinable : text.Joinable room) :
    text.joined.Valid height room := by
  have ⟨above, fits⟩ := joinable
  have lines : ∀ y, text.joined.lines y =
      if y + 1 < text.row then text.lines y
      else if y + 1 = text.row then text.lines y ++ text.lines (y + 1)
      else text.lines (y + 1) := fun _ => rfl
  have here : text.joined.lines (text.row - 1) = text.lines (text.row - 1) ++ text.line := by
    rw [lines, if_neg (by omega), if_pos (by omega), Nat.sub_add_cancel above]
    rfl
  refine ⟨Nat.lt_of_le_of_lt (Nat.sub_le _ _) valid.row, ?_, fun y => ?_, fun y past => ?_⟩
  · show (text.lines (text.row - 1)).length ≤ (text.joined.lines (text.row - 1)).length
    rw [here, List.length_append]
    exact Nat.le_add_right _ _
  · rw [lines]
    split
    · exact valid.fits y
    · split
      · rename_i atJoin
        obtain rfl : y = text.row - 1 := by omega
        rw [Nat.sub_add_cancel above, List.length_append]
        exact Nat.le_of_lt fits
      · exact valid.fits (y + 1)
  · have row := valid.row
    rw [lines, if_neg (by omega), if_neg (by omega)]
    exact valid.below (y + 1) (by omega)

theorem Valid.edit (valid : text.Valid height room) (low : lowest < height) {edit : Edit Char}
    (edited : text.edit height room lowest edit = some after) : after.Valid height room := by
  have ⟨row, col, fits, below⟩ := valid
  cases edit with
  | up =>
      rw [TextBuffer.edit] at edited
      split at edited
      · exact Option.some.inj edited ▸ valid
      · obtain ⟨inLine, rfl⟩ := moveTo_eq_some edited
        exact ⟨Nat.lt_of_le_of_lt (Nat.sub_le _ _) row, inLine, fits, below⟩
  | down =>
      rw [TextBuffer.edit] at edited
      split at edited
      · obtain ⟨inLine, rfl⟩ := moveTo_eq_some edited
        exact ⟨by dsimp only; omega, inLine, fits, below⟩
      · exact Option.some.inj edited ▸ valid
  | left =>
      obtain rfl := Option.some.inj edited
      exact ⟨row, Nat.le_trans (Nat.sub_le _ _) col, fits, below⟩
  | right =>
      obtain rfl := Option.some.inj edited
      split
      · rename_i inLine
        exact ⟨row, inLine, fits, below⟩
      · exact valid
  | newline =>
      rw [TextBuffer.edit] at edited
      split at edited
      · rename_i above
        obtain rfl := Option.some.inj edited
        exact ⟨above, Nat.zero_le _, fits, below⟩
      · contradiction
  | insert char =>
      rw [TextBuffer.edit] at edited
      split at edited
      · split at edited
        · rename_i short
          have grown := List.length_insertIdx_of_le_length col char
          exact Option.some.inj edited ▸ valid.replaceLine (by omega) (by omega)
        · contradiction
      · exact Option.some.inj edited ▸ valid
  | erase =>
      rw [TextBuffer.edit] at edited
      split at edited
      · have shrunk := List.length_eraseIdx_of_lt (show text.col - 1 < text.line.length by omega)
        have short := fits text.row
        exact Option.some.inj edited ▸ valid.replaceLine (by rw [line] at *; omega) (by omega)
      · split at edited
        · rename_i joinable
          split at edited
          · exact Option.some.inj edited ▸ valid.joined joinable
          · contradiction
        · exact Option.some.inj edited ▸ valid

theorem mem_replaceLine {line : List Char} {col y : Nat} {char : Char}
    (member : char ∈ (text.replaceLine line col).lines y) :
    char ∈ line ∨ char ∈ text.lines y := by
  rw [lines_replaceLine] at member
  by_cases here : y = text.row
  · rw [here, Function.update_self] at member
    exact .inl member
  · rw [Function.update_of_ne here] at member
    exact .inr member

/-- A character of the text was there before, or is the one that was typed. -/
theorem mem_edit {edit : Edit Char} (edited : text.edit height room lowest edit = some after)
    {y : Nat} {char : Char} (member : char ∈ after.lines y) :
    edit = .insert char ∨ ∃ z, char ∈ text.lines z := by
  cases edit with
  | up =>
      rw [TextBuffer.edit] at edited
      split at edited
      · exact .inr ⟨y, Option.some.inj edited ▸ member⟩
      · obtain ⟨_, rfl⟩ := moveTo_eq_some edited
        exact .inr ⟨y, member⟩
  | down =>
      rw [TextBuffer.edit] at edited
      split at edited
      · obtain ⟨_, rfl⟩ := moveTo_eq_some edited
        exact .inr ⟨y, member⟩
      · exact .inr ⟨y, Option.some.inj edited ▸ member⟩
  | left =>
      obtain rfl := Option.some.inj edited
      exact .inr ⟨y, member⟩
  | right =>
      obtain rfl := Option.some.inj edited
      exact .inr ⟨y, by split at member <;> exact member⟩
  | newline =>
      rw [TextBuffer.edit] at edited
      split at edited
      · obtain rfl := Option.some.inj edited
        exact .inr ⟨y, member⟩
      · contradiction
  | insert typed =>
      rw [TextBuffer.edit] at edited
      split at edited
      · split at edited
        · obtain rfl := Option.some.inj edited
          rcases mem_replaceLine member with inLine | other
          · rcases List.eq_or_mem_of_mem_insertIdx inLine with rfl | old
            · exact .inl rfl
            · exact .inr ⟨text.row, old⟩
          · exact .inr ⟨y, other⟩
        · contradiction
      · exact .inr ⟨y, Option.some.inj edited ▸ member⟩
  | erase =>
      rw [TextBuffer.edit] at edited
      split at edited
      · obtain rfl := Option.some.inj edited
        rcases mem_replaceLine member with inLine | other
        · exact .inr ⟨text.row, List.mem_of_mem_eraseIdx inLine⟩
        · exact .inr ⟨y, other⟩
      · split at edited
        · split at edited
          · obtain rfl := Option.some.inj edited
            unfold joined at member
            dsimp only at member
            split at member
            · exact .inr ⟨y, member⟩
            · split at member
              · rcases List.mem_append.mp member with upper | lower
                · exact .inr ⟨y, upper⟩
                · exact .inr ⟨y + 1, lower⟩
              · exact .inr ⟨y + 1, member⟩
          · contradiction
        · exact .inr ⟨y, Option.some.inj edited ▸ member⟩

/-! ### Typing and erasing -/

theorem edits_cons (first : Edit Char) (rest : List (Edit Char)) :
    text.edits height room lowest (first :: rest) =
      (text.edit height room lowest first).bind fun next => next.edits height room lowest rest := by
  rw [edits, List.foldlM_cons]
  rfl

theorem edits_append (first second : List (Edit Char)) :
    text.edits height room lowest (first ++ second) =
      (text.edits height room lowest first).bind fun next =>
        next.edits height room lowest second := by
  rw [edits, List.foldlM_append]
  rfl

/-- Erasing takes back the character that was just inserted. -/
theorem edit_insert_erase (inLine : text.col ≤ text.line.length) (short : text.line.length < room)
    (char : Char) :
    ∃ typed, text.edit height room lowest (.insert char) = some typed ∧
      typed.line.length = text.line.length + 1 ∧ typed.col = text.col + 1 ∧
      typed.edit height room lowest .erase = some text := by
  refine ⟨_, by rw [edit, if_pos (by omega), if_pos short], ?_, rfl, ?_⟩
  · rw [line_replaceLine, List.length_insertIdx_of_le_length inLine]
  · rw [edit, line_replaceLine, col_replaceLine, if_pos (Nat.succ_pos _), Nat.add_sub_cancel,
      List.eraseIdx_insertIdx_self, replaceLine_replaceLine, replaceLine_self]

/-- As many erasures as characters were typed restore the text and the cursor. -/
theorem edits_typed_erased (inLine : text.col ≤ text.line.length) {chars : List Char}
    (short : text.line.length + chars.length ≤ room) :
    text.edits height room lowest
      (chars.map .insert ++ List.replicate chars.length .erase) = some text := by
  induction chars generalizing text with
  | nil => rfl
  | cons char rest inductionHypothesis =>
      rw [List.length_cons] at short
      obtain ⟨typed, inserted, longer, column, erased⟩ :=
        @edit_insert_erase _ height room lowest text inLine (by omega) char
      have rest := @inductionHypothesis typed (by omega) (by omega)
      rw [List.length_cons, List.replicate_succ', List.map_cons, ← List.append_assoc,
        List.cons_append, edits_append, edits_cons, inserted, Option.bind_some, rest,
        Option.bind_some, edits_cons, erased]
      rfl

end Edits

end TextBuffer

end BrainDance.Foundation
