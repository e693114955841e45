import BrainDance.Foundation.Page

/-!
Owns typing on a page. A stroke puts a cell at the cursor or begins a new row. Typing never
moves the cursor up and leaves the cells from the cursor on blank, so that erasing the cell
put last gives back the page before it. Cells put without a newline take up no more rows than
their number asks for.
-/

namespace BrainDance.Foundation

universe u

variable {α : Type u}

inductive Stroke (α : Type u) where
  | newline
  | put (cell : α)

namespace Page

variable {width : Nat} {blank cell : α} {page : Page α}

def type (width : Nat) (page : Page α) : Stroke α → Page α
  | .newline => page.newline
  | .put cell => page.put width cell

/-- The strokes one after the other. -/
def typeAll (width : Nat) (strokes : List (Stroke α)) (page : Page α) : Page α :=
  strokes.foldl (type width) page

theorem typeAll_append (first second : List (Stroke α)) (page : Page α) :
    page.typeAll width (first ++ second) = (page.typeAll width first).typeAll width second :=
  List.foldl_append

/-! ### Rows -/

theorem row_type (page : Page α) (stroke : Stroke α) : page.row ≤ (page.type width stroke).row := by
  cases stroke with
  | newline => exact Nat.le_succ _
  | put cell =>
      rcases @row_put _ width page cell with same | next
      · exact same.ge
      · exact next ▸ Nat.le_succ _

theorem row_typeAll (strokes : List (Stroke α)) (page : Page α) :
    page.row ≤ (page.typeAll width strokes).row := by
  induction strokes generalizing page with
  | nil => exact Nat.le_refl _
  | cons stroke strokes inductionHypothesis =>
      exact Nat.le_trans (row_type page stroke) (inductionHypothesis _)

theorem col_type (inRow : page.col < width) (stroke : Stroke α) :
    (page.type width stroke).col < width := by
  cases stroke with
  | newline => exact Nat.zero_lt_of_lt inRow
  | put cell => exact col_put inRow

theorem col_typeAll (inRow : page.col < width) (strokes : List (Stroke α)) :
    (page.typeAll width strokes).col < width := by
  induction strokes generalizing page with
  | nil => exact inRow
  | cons stroke strokes inductionHypothesis => exact inductionHypothesis (col_type inRow stroke)

/-! ### Cells -/

theorem index_div (inRow : page.col < width) : page.index width / width = page.row :=
  ((index_eq_iff inRow _).mpr rfl).1

theorem index_typeAll_put (inRow : page.col < width) (cells : List α) :
    (page.typeAll width (cells.map .put)).index width = page.index width + cells.length := by
  induction cells generalizing page with
  | nil => rfl
  | cons cell cells inductionHypothesis =>
      rw [List.map_cons, typeAll, List.foldl_cons]
      show ((page.put width cell).typeAll width (cells.map .put)).index width = _
      rw [inductionHypothesis (col_put inRow), index_put inRow, List.length_cons]
      omega

/-- Cells fill the rows from the cursor's on. -/
theorem row_typeAll_put (inRow : page.col < width) (cells : List α) :
    (page.typeAll width (cells.map .put)).row = page.row + (page.col + cells.length) / width := by
  rw [← index_div (col_typeAll inRow _), index_typeAll_put inRow, Page.index, Nat.add_assoc,
    Nat.add_comm, Nat.add_mul_div_right _ _ (Nat.zero_lt_of_lt inRow), Nat.add_comm]
/-! ### Erasing -/

/-- The cursor is in its row, and no cell from it on has been written. -/
structure Fresh (width : Nat) (blank : α) (page : Page α) : Prop where
  inRow : page.col < width
  blank : ∀ index, page.index width ≤ index → cellAt width page.cells index = blank

theorem Fresh.type (fresh : Fresh width blank page) (stroke : Stroke α) :
    Fresh width blank (page.type width stroke) := by
  refine ⟨col_type fresh.inRow stroke, fun index behind => ?_⟩
  cases stroke with
  | newline =>
      have inRow := fresh.inRow
      refine fresh.blank index (Nat.le_trans ?_ behind)
      show page.row * width + page.col ≤ (page.row + 1) * width + 0
      rw [Nat.succ_mul]
      omega
  | put cell =>
      have next : (page.put width cell).index width ≤ index := behind
      rw [index_put fresh.inRow] at next
      show cellAt width (page.put width cell).cells index = blank
      rw [cellAt_put fresh.inRow, if_neg (by omega), fresh.blank index (by omega)]

theorem Fresh.typeAll (fresh : Fresh width blank page) (strokes : List (Stroke α)) :
    Fresh width blank (page.typeAll width strokes) := by
  induction strokes generalizing page with
  | nil => exact fresh
  | cons stroke strokes inductionHypothesis => exact inductionHypothesis (fresh.type stroke)

/-- Erasing undoes the last cell. -/
theorem Fresh.erase_put (fresh : Fresh width blank page) (cell : α) :
    (page.put width cell).erase width blank = page := by
  have inRow := fresh.inRow
  have atCursor := fresh.blank _ (Nat.le_refl _)
  rw [Page.index, cellAt_index inRow] at atCursor
  have restored : setCell page.row page.col blank (setCell page.row page.col cell page.cells) =
      page.cells := by
    funext r c
    by_cases here : r = page.row ∧ c = page.col
    · rw [here.1, here.2, setCell_self, atCursor]
    · rw [setCell_of_ne here, setCell_of_ne here]
  unfold put wrap
  by_cases full : width ≤ page.col + 1
  · have column : width - 1 = page.col := by omega
    rw [if_pos full, erase, if_neg (Nat.lt_irrefl 0), if_pos (Nat.succ_pos _)]
    dsimp only
    rw [Nat.add_sub_cancel, column, restored]
  · rw [if_neg full, erase, if_pos (Nat.succ_pos _)]
    dsimp only
    rw [Nat.add_sub_cancel, restored]

end Page

end BrainDance.Foundation
