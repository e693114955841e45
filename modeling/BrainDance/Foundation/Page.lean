import Mathlib.Algebra.Order.Group.Nat

/-!
Owns pages and windows. A page is an unlimited number of rows of `width` cells
with a cursor: a cell is put at the cursor and the cursor goes on, to the next
row behind the last column, and erasing takes one cell back. Counted row after
row the cells are a line, and putting and erasing are its last element.

A window is a buffer of a fixed number of rows that shows the page from some
row on.
-/

namespace BrainDance.Foundation

universe u

variable {α : Type u}

/-! ### Cells -/

/-- The grid with one cell replaced. -/
def setCell (row col : Nat) (cell : α) (cells : Nat → Nat → α) : Nat → Nat → α :=
  fun r c => if r = row ∧ c = col then cell else cells r c

/-- The grid with the first cells of a row replaced. -/
def setRow (row width : Nat) (contents : Nat → α) (cells : Nat → Nat → α) : Nat → Nat → α :=
  fun r c => if r = row ∧ c < width then contents c else cells r c

/-- The grid with the first cells of the first rows replaced. -/
def setRows (rows width : Nat) (contents cells : Nat → Nat → α) : Nat → Nat → α :=
  fun r c => if r < rows ∧ c < width then contents r c else cells r c

/-- The cell at a place counted row after row. -/
def cellAt (width : Nat) (cells : Nat → Nat → α) (index : Nat) : α :=
  cells (index / width) (index % width)

section Cells

variable {width row col : Nat} {cell : α} {cells : Nat → Nat → α}

theorem setCell_self : setCell row col cell cells row col = cell := if_pos ⟨rfl, rfl⟩

theorem setCell_of_ne {r c : Nat} (other : ¬ (r = row ∧ c = col)) :
    setCell row col cell cells r c = cells r c := if_neg other

theorem setRow_zero (contents : Nat → α) : setRow row 0 contents cells = cells := by
  funext r c
  exact if_neg fun both => Nat.not_lt_zero c both.2

theorem setRow_succ (contents : Nat → α) :
    setRow row (width + 1) contents cells =
      setCell row width (contents width) (setRow row width contents cells) := by
  funext r c
  unfold setCell setRow
  by_cases last : r = row ∧ c = width
  · rw [if_pos last, if_pos ⟨last.1, by omega⟩, last.2]
  · rw [if_neg last]
    exact if_congr ⟨fun both => ⟨both.1, by omega⟩, fun both => ⟨both.1, by omega⟩⟩ rfl rfl

theorem setRows_zero (contents : Nat → Nat → α) : setRows 0 width contents cells = cells := by
  funext r c
  exact if_neg fun both => Nat.not_lt_zero r both.1

theorem setRows_succ (rows : Nat) (contents : Nat → Nat → α) :
    setRows (rows + 1) width contents cells =
      setRow rows width (contents rows) (setRows rows width contents cells) := by
  funext r c
  unfold setRow setRows
  by_cases last : r = rows ∧ c < width
  · rw [if_pos last, if_pos ⟨by omega, last.2⟩, last.1]
  · rw [if_neg last]
    exact if_congr ⟨fun both => ⟨by omega, both.2⟩, fun both => ⟨by omega, both.2⟩⟩ rfl rfl

theorem index_eq_iff (inRow : col < width) (index : Nat) :
    (index / width = row ∧ index % width = col) ↔ index = row * width + col := by
  constructor
  · rintro ⟨rfl, rfl⟩
    rw [Nat.mul_comm, Nat.div_add_mod]
  · rintro rfl
    constructor
    · rw [Nat.add_comm, Nat.add_mul_div_right _ _ (by omega), Nat.div_eq_of_lt inRow, Nat.zero_add]
    · rw [Nat.add_comm, Nat.add_mul_mod_self_right, Nat.mod_eq_of_lt inRow]

theorem cellAt_index (inRow : col < width) (cells : Nat → Nat → α) :
    cellAt width cells (row * width + col) = cells row col := by
  obtain ⟨inThisRow, inThisCol⟩ := (index_eq_iff inRow (row * width + col)).mpr rfl
  rw [cellAt, inThisRow, inThisCol]

theorem cellAt_setCell (inRow : col < width) (index : Nat) :
    cellAt width (setCell row col cell cells) index =
      if index = row * width + col then cell else cellAt width cells index := by
  by_cases here : index = row * width + col
  · rw [if_pos here, here, cellAt_index inRow, setCell_self]
  · rw [if_neg here, cellAt, cellAt,
      setCell_of_ne fun both => here ((index_eq_iff inRow _).mp both)]

end Cells

/-! ### Pages -/

structure Page (α : Type u) where
  cells : Nat → Nat → α
  row : Nat
  col : Nat

namespace Page

variable {width : Nat} {page : Page α} {cell blank : α}

/-- The cursor behind the last column goes to the next row. -/
def wrap (width : Nat) (page : Page α) : Page α :=
  if width ≤ page.col then { page with row := page.row + 1, col := 0 } else page

def newline (page : Page α) : Page α := { page with row := page.row + 1, col := 0 }

def put (width : Nat) (cell : α) (page : Page α) : Page α :=
  wrap width { page with cells := setCell page.row page.col cell page.cells, col := page.col + 1 }

/-- The cursor goes one cell back and blanks it; at the start nothing happens. -/
def erase (width : Nat) (blank : α) (page : Page α) : Page α :=
  if 0 < page.col then
    { page with
      cells := setCell page.row (page.col - 1) blank page.cells
      col := page.col - 1 }
  else if 0 < page.row then
    { cells := setCell (page.row - 1) (width - 1) blank page.cells
      row := page.row - 1
      col := width - 1 }
  else page

/-- The cursor, counted row after row. -/
def index (width : Nat) (page : Page α) : Nat := page.row * width + page.col

theorem cells_wrap (page : Page α) : (page.wrap width).cells = page.cells := by
  unfold wrap
  split <;> rfl

theorem cells_put (page : Page α) :
    (page.put width cell).cells = setCell page.row page.col cell page.cells := cells_wrap _

theorem col_put (inRow : page.col < width) : (page.put width cell).col < width := by
  unfold put wrap
  split
  · exact Nat.zero_lt_of_lt inRow
  · rename_i room
    exact Nat.lt_of_not_le room

theorem row_put : (page.put width cell).row = page.row ∨
    (page.put width cell).row = page.row + 1 := by
  unfold put wrap
  split
  · exact Or.inr rfl
  · exact Or.inl rfl

theorem index_put (inRow : page.col < width) :
    (page.put width cell).index width = page.index width + 1 := by
  unfold put wrap index
  split
  · rename_i full
    dsimp only at full ⊢
    rw [Nat.succ_mul]
    omega
  · rfl

theorem cellAt_put (inRow : page.col < width) (index : Nat) :
    cellAt width (page.put width cell).cells index =
      if index = page.index width then cell else cellAt width page.cells index := by
  rw [cells_put, cellAt_setCell inRow]
  rfl

theorem col_erase (inRow : page.col < width) : (page.erase width blank).col < width := by
  unfold erase
  split
  · exact Nat.lt_of_le_of_lt (Nat.sub_le _ _) inRow
  · split
    · exact Nat.sub_one_lt (by omega)
    · exact inRow

theorem index_erase (inRow : page.col < width) :
    (page.erase width blank).index width = page.index width - 1 := by
  unfold erase index
  split
  · dsimp only
    omega
  · split
    · rename_i notFirst
      obtain ⟨row, above⟩ := Nat.exists_eq_succ_of_ne_zero (Nat.ne_of_gt notFirst)
      dsimp only
      rw [above, Nat.succ_sub_one, Nat.succ_mul]
      omega
    · rename_i first
      rw [Nat.eq_zero_of_not_pos first]
      omega

theorem cellAt_erase (inRow : page.col < width) (started : 0 < page.index width) (index : Nat) :
    cellAt width (page.erase width blank).cells index =
      if index = page.index width - 1 then blank else cellAt width page.cells index := by
  have place : (page.erase width blank).index width = page.index width - 1 := index_erase inRow
  have column : (page.erase width blank).col < width := col_erase inRow
  unfold erase at place column ⊢
  split
  · rename_i inside
    rw [if_pos inside] at place column
    rw [cellAt_setCell column, ← place]
    rfl
  · rename_i outside
    rw [if_neg outside] at place column
    split
    · rename_i notFirst
      rw [if_pos notFirst] at place column
      rw [cellAt_setCell column, ← place]
      rfl
    · rename_i first
      rw [Page.index, Nat.eq_zero_of_not_pos first, Nat.eq_zero_of_not_pos outside] at started
      omega

/-! ### Lines -/

/-- The cells from `start` up to the cursor are the line's. -/
structure HoldsLine (width start : Nat) (contents : List α) (page : Page α) : Prop where
  inRow : page.col < width
  index : page.index width = start + contents.length
  cells : ∀ offset, (inLine : offset < contents.length) →
    cellAt width page.cells (start + offset) = contents[offset]

section Lines

variable {start : Nat} {contents : List α}

theorem HoldsLine.nil (inRow : page.col < width) : HoldsLine width (page.index width) [] page :=
  ⟨inRow, rfl, fun _ none => absurd none (Nat.not_lt_zero _)⟩

theorem HoldsLine.put (holds : HoldsLine width start contents page) (cell : α) :
    HoldsLine width start (contents ++ [cell]) (page.put width cell) where
  inRow := col_put holds.inRow
  index := by
    rw [index_put holds.inRow, holds.index, List.length_append, List.length_singleton,
      Nat.add_assoc]
  cells offset inLine := by
    rw [cellAt_put holds.inRow, holds.index]
    rw [List.length_append, List.length_singleton] at inLine
    by_cases last : offset = contents.length
    · subst last
      rw [if_pos rfl, List.getElem_concat_length rfl]
    · rw [if_neg (by omega), List.getElem_append_left (by omega), holds.cells offset (by omega)]

theorem HoldsLine.erase (holds : HoldsLine width start contents page) (nonempty : contents ≠ [])
    (blank : α) : HoldsLine width start contents.dropLast (page.erase width blank) where
  inRow := col_erase holds.inRow
  index := by
    have positive := List.length_pos_iff.mpr nonempty
    rw [index_erase holds.inRow, holds.index, List.length_dropLast]
    omega
  cells offset inLine := by
    have positive := List.length_pos_iff.mpr nonempty
    rw [List.length_dropLast] at inLine
    rw [cellAt_erase holds.inRow (by rw [holds.index]; omega), holds.index, if_neg (by omega),
      List.getElem_dropLast, holds.cells offset (by omega)]

/-- The cells in front of the line stay as they are. -/
theorem HoldsLine.put_before (holds : HoldsLine width start contents page) (cell : α) {index : Nat}
    (before : index < start) :
    cellAt width (page.put width cell).cells index = cellAt width page.cells index := by
  rw [cellAt_put holds.inRow, holds.index, if_neg (by omega)]

theorem HoldsLine.erase_before (holds : HoldsLine width start contents page)
    (nonempty : contents ≠ [])
    (blank : α) {index : Nat} (before : index < start) :
    cellAt width (page.erase width blank).cells index = cellAt width page.cells index := by
  have positive := List.length_pos_iff.mpr nonempty
  rw [cellAt_erase holds.inRow (by rw [holds.index]; omega), holds.index, if_neg (by omega)]

end Lines

end Page

/-! ### Windows -/

/-- The buffer shows the page from row `first` on, and the page's rows behind it
are blank. -/
structure ShowsFrom (rows width : Nat) (blank : α) (first : Nat) (buffer cells : Nat → Nat → α) :
    Prop where
  inside : ∀ row < rows, ∀ col < width, buffer row col = cells (first + row) col
  behind : ∀ row, first + rows ≤ row → ∀ col < width, cells row col = blank

/-- Every row moves up and the last one becomes blank. -/
def shiftUp (rows : Nat) (blank : α) (buffer : Nat → Nat → α) : Nat → Nat → α := fun row col =>
  if row + 1 < rows then buffer (row + 1) col
  else if row + 1 = rows then blank
  else buffer row col

section Windows

variable {rows width first : Nat} {blank : α} {buffer cells : Nat → Nat → α}

theorem ShowsFrom.setCell (shows : ShowsFrom rows width blank first buffer cells) {row : Nat}
    (inBuffer : row < rows) (col : Nat) (cell : α) :
    ShowsFrom rows width blank first (setCell row col cell buffer)
      (setCell (first + row) col cell cells) where
  inside r inRows c inRow := by
    by_cases here : r = row ∧ c = col
    · rw [here.1, here.2, setCell_self, setCell_self]
    · rw [setCell_of_ne here, setCell_of_ne fun both => here ⟨by omega, both.2⟩,
        shows.inside r inRows c inRow]
  behind r outside c inRow := by
    rw [setCell_of_ne fun both => by omega, shows.behind r outside c inRow]

theorem ShowsFrom.shiftUp (shows : ShowsFrom rows width blank first buffer cells) :
    ShowsFrom rows width blank (first + 1) (shiftUp rows blank buffer) cells where
  inside row inRows col inRow := by
    unfold Foundation.shiftUp
    split
    · rw [shows.inside _ (by assumption) col inRow, Nat.add_assoc, Nat.add_comm 1]
    · rw [if_pos (by omega), shows.behind _ (by omega) col inRow]
  behind row outside := shows.behind row (by omega)

end Windows

end BrainDance.Foundation
