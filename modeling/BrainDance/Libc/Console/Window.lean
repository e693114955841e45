import BrainDance.Libc.Console.Model
import BrainDance.Libc.Memcore

/-!
Owns that the console is a window on an unlimited page. `Tracks` is the
simulation: the buffer shows the page from row `firstRow` on, and `reach` is the
furthest row that the cursor has been on, the row of the page that
`scrollback_row` stands for. A printed character and a backspace keep it.
-/

namespace BrainDance.Libc

open BrainDance.Foundation

universe u

variable {α : Type u} {view : Cell → α}

/-! ### The page -/

/-- What a printed character does to a page, where `cell` is what it puts there. -/
def typeChar (c : Byte) (cell : α) (page : Page α) : Page α :=
  if c = lineFeed then page.newline else page.put vgaWidth cell

theorem typeChar_row (c : Byte) (cell : α) (page : Page α) :
    page.row ≤ (typeChar c cell page).row ∧ (typeChar c cell page).row ≤ page.row + 1 := by
  unfold typeChar
  split
  · exact ⟨Nat.le_succ _, le_rfl⟩
  · rcases page.row_put with same | next
    · rw [same]
      exact ⟨le_rfl, Nat.le_succ _⟩
    · rw [next]
      exact ⟨Nat.le_succ _, le_rfl⟩

/-! ### The simulation -/

/-- The page's row in the buffer's first row when the cursor has reached `reach`. -/
def firstRow (reach : Nat) : Nat := reach - 99

/-- The console shows the page from row `first` on, with the same cursor. -/
structure Follows (view : Cell → α) (first reach : Nat) (page : Page α) (console : Console) :
    Prop where
  row : console.cursorRow + first = page.row
  col : console.cursorCol = page.col
  inRow : page.col < vgaWidth
  above : first ≤ page.row
  scrollback : console.scrollbackRow + first = reach
  shows : ShowsFrom scrollbackRows vgaWidth (view blankCell) first
    (fun row col => view (console.scrollbackBuffer row col)) page.cells

/-- Between two calls the cursor is in the buffer, which has scrolled no further
than its furthest row asked for. -/
structure Tracks (view : Cell → α) (reach : Nat) (page : Page α) (console : Console) :
    Prop where
  follows : Follows view (firstRow reach) reach page console
  reached : page.row ≤ reach
  viewRow : 0 ≤ console.viewRow

section Steps

variable {first reach : Nat} {page : Page α} {console : Console}

theorem Follows.congr {other : Console} (follows : Follows view first reach page console)
    (row : other.cursorRow = console.cursorRow) (col : other.cursorCol = console.cursorCol)
    (scrollback : other.scrollbackRow = console.scrollbackRow)
    (buffer : other.scrollbackBuffer = console.scrollbackBuffer) :
    Follows view first reach page other where
  row := row ▸ follows.row
  col := col ▸ follows.col
  inRow := follows.inRow
  above := follows.above
  scrollback := scrollback ▸ follows.scrollback
  shows := buffer ▸ follows.shows

/-! ### Storing -/

theorem view_setCell (row col : Nat) (cell : Cell) (cells : Nat → Nat → Cell) :
    (fun r c => view (setCell row col cell cells r c)) =
      setCell row col (view cell) fun r c => view (cells r c) := by
  funext r c
  unfold setCell
  split <;> rfl

theorem storeCell_of_inside {row col : Nat} (inBuffer : row < scrollbackRows)
    (inRow : col < vgaWidth) (console : Console) (cell : Cell) :
    storeCell console row col cell =
      some { console with scrollbackBuffer := setCell row col cell console.scrollbackBuffer } := by
  rw [storeCell, if_pos ⟨⟨Int.natCast_nonneg _, Int.ofNat_lt.mpr inBuffer⟩,
    Int.natCast_nonneg _, Int.ofNat_lt.mpr inRow⟩, Int.toNat_natCast, Int.toNat_natCast]

theorem Follows.cursor (follows : Follows view first reach page console) :
    console.cursorRow = ((page.row - first : Nat) : Int) ∧ console.cursorCol = (page.col : Int) := by
  have row := follows.row
  have above := follows.above
  exact ⟨by omega, follows.col⟩

/-- The character goes where the page has it. -/
theorem Follows.putChar (follows : Follows view first reach page console)
    (inBuffer : page.row < first + scrollbackRows) (c color : Byte) :
    ∃ stored, Libc.putChar c color console = some stored ∧
      Follows view first reach (typeChar c (view ⟨c, color⟩) page) (wrapCursor stored) := by
  have row := follows.row
  have above := follows.above
  unfold Libc.putChar typeChar
  by_cases newline : c = lineFeed
  · rw [if_pos newline, if_pos newline]
    refine ⟨_, rfl, ?_⟩
    rw [wrapCursor, if_neg (show ¬ (0 : Int) ≥ (vgaWidth : Nat) by decide)]
    refine ⟨?_, rfl, ?_, ?_, follows.scrollback, follows.shows⟩
    · dsimp only [Page.newline]
      omega
    · exact Nat.zero_lt_of_lt follows.inRow
    · exact Nat.le_succ_of_le above
  · rw [if_neg newline, if_neg newline, follows.cursor.1, follows.cursor.2,
      storeCell_of_inside (by omega) follows.inRow, Option.map_some]
    refine ⟨_, rfl, ?_⟩
    have shows := follows.shows.setCell (show page.row - first < scrollbackRows by omega)
      page.col (view ⟨c, color⟩)
    rw [← view_setCell, Nat.add_sub_cancel' above] at shows
    have inRow := follows.inRow
    have col := follows.col
    unfold wrapCursor Page.put Page.wrap
    dsimp only
    by_cases full : vgaWidth ≤ page.col + 1
    · rw [if_pos full, if_pos (by omega)]
      exact ⟨by dsimp only; omega, rfl, Nat.zero_lt_of_lt inRow, by dsimp only; omega,
        follows.scrollback, shows⟩
    · rw [if_neg full, if_neg (by omega)]
      exact ⟨row, by dsimp only; omega, by dsimp only; omega, above, follows.scrollback, shows⟩

/-! ### Scrolling -/

theorem followCursor_viewRow (console : Console) :
    (followCursor console).viewRow = max 0 (console.scrollbackRow - 24) := by
  have height : vgaHeight = 25 := rfl
  unfold followCursor
  dsimp only
  split <;> omega

/-- The rest of `print_char`: the furthest row is noted and the buffer scrolls. -/
theorem Follows.settle (follows : Follows view (firstRow reach) reach page console)
    (next : page.row ≤ reach + 1) :
    Tracks view (max reach page.row) page
      (followCursor (scrollBuffer (raiseScrollbackRow console))) := by
  have rows : scrollbackRows = 100 := rfl
  have row := follows.row
  have scrollback := follows.scrollback
  have above := follows.above
  have raised : Follows view (firstRow reach) (max reach page.row) page
      (raiseScrollbackRow console) := by
    unfold raiseScrollbackRow
    split
    · exact ⟨row, follows.col, follows.inRow, above, by dsimp only; omega, follows.shows⟩
    · exact ⟨row, follows.col, follows.inRow, above, by omega, follows.shows⟩
  have scrolled : Follows view (firstRow (max reach page.row)) (max reach page.row) page
      (scrollBuffer (raiseScrollbackRow console)) := by
    have raisedRow := raised.row
    have raisedScrollback := raised.scrollback
    unfold firstRow at *
    unfold scrollBuffer
    split
    · have last : max reach page.row - 99 = reach - 99 + 1 := by omega
      have shifted : (fun r c => view (shiftUp scrollbackRows blankCell
          (raiseScrollbackRow console).scrollbackBuffer r c)) =
            shiftUp scrollbackRows (view blankCell) fun r c =>
              view ((raiseScrollbackRow console).scrollbackBuffer r c) := by
        funext r c
        unfold shiftUp
        split
        · rfl
        · split <;> rfl
      refine ⟨by dsimp only; omega, raised.col, raised.inRow, by omega, by dsimp only; omega, ?_⟩
      dsimp only
      rw [shifted, last]
      exact raised.shows.shiftUp
    · have same : max reach page.row - 99 = reach - 99 := by omega
      rw [same]
      exact raised
  refine ⟨scrolled.congr rfl rfl rfl rfl, le_max_right _ _, ?_⟩
  rw [followCursor_viewRow]
  exact le_max_left _ _

/-! ### Printing -/

/-- VGA memory shows the last rows of the buffer, up to the furthest one. -/
structure OnScreen (console : Console) : Prop where
  viewRow : console.viewRow = max 0 (console.scrollbackRow - 24)
  vga : ∀ row < vgaHeight, ∀ col < vgaWidth,
    console.vga row col = console.scrollbackBuffer (console.viewRow + row).toNat col

theorem refreshScreen_of_nonneg (shown : 0 ≤ console.viewRow) :
    refreshScreen console = some { console with vga := shownRows console } := if_pos shown

/-- The refresh copies 25 rows while the furthest row is in the buffer. -/
theorem onScreen_refresh {after : Console}
    (viewRow : console.viewRow = max 0 (console.scrollbackRow - 24))
    (inBuffer : console.scrollbackRow < scrollbackRows)
    (refreshed : refreshScreen console = some after) : OnScreen after := by
  have rows : scrollbackRows = 100 := rfl
  have height : vgaHeight = 25 := rfl
  rw [refreshScreen_of_nonneg (by omega)] at refreshed
  obtain rfl := Option.some.inj refreshed
  refine ⟨viewRow, fun row inScreen col inRow => ?_⟩
  dsimp only [shownRows]
  rw [if_pos ⟨inScreen, inRow, by omega⟩]

theorem OnScreen.updateCursor (onScreen : OnScreen console) : OnScreen (updateCursor console) :=
  ⟨onScreen.viewRow, onScreen.vga⟩

theorem Tracks.scrollbackRow_lt (tracks : Tracks view reach page console) :
    console.scrollbackRow < scrollbackRows := by
  have rows : scrollbackRows = 100 := rfl
  have scrollback := tracks.follows.scrollback
  unfold firstRow at scrollback
  omega

/-- A printed character is typed on the page. -/
theorem Tracks.printChar (tracks : Tracks view reach page console) (c color : Byte) :
    ∃ after, Libc.printChar c color console = some after ∧
      Tracks view (max reach (typeChar c (view ⟨c, color⟩) page).row)
        (typeChar c (view ⟨c, color⟩) page) after ∧ OnScreen after := by
  have rows : scrollbackRows = 100 := rfl
  have reached := tracks.reached
  have next := (typeChar_row c (view ⟨c, color⟩) page).2
  obtain ⟨stored, storing, follows⟩ := tracks.follows.putChar
    (by unfold firstRow; omega) c color
  have settled := follows.settle (by omega)
  let followed := followCursor (scrollBuffer (raiseScrollbackRow (wrapCursor stored)))
  have refreshed : refreshScreen followed = some { followed with vga := shownRows followed } :=
    refreshScreen_of_nonneg settled.viewRow
  have onScreen := onScreen_refresh (followCursor_viewRow _) settled.scrollbackRow_lt refreshed
  refine ⟨updateCursor { followed with vga := shownRows followed }, ?_,
    ⟨settled.follows.congr rfl rfl rfl rfl, settled.reached, settled.viewRow⟩,
    onScreen.updateCursor⟩
  exact Option.bind_eq_some_iff.mpr ⟨stored, storing,
    Option.bind_eq_some_iff.mpr ⟨_, refreshed, rfl⟩⟩

/-! ### Erasing and scrolling -/

/-- A backspace erases on the page, while the buffer still has the cell. -/
theorem Tracks.printBackspace (tracks : Tracks view reach page console)
    (inBuffer : 0 < page.col ∨ firstRow reach < page.row) :
    ∃ after, Libc.printBackspace console = some after ∧
      Tracks view reach (page.erase vgaWidth (view blankCell)) after := by
  have rows : scrollbackRows = 100 := rfl
  have follows := tracks.follows
  have row := follows.row
  have col := follows.col
  have inRow := follows.inRow
  have above := follows.above
  have reached := tracks.reached
  have viewRow := tracks.viewRow
  unfold Libc.printBackspace Page.erase
  by_cases inside : 0 < page.col
  · have shows := follows.shows.setCell
      (show page.row - firstRow reach < scrollbackRows by unfold firstRow; omega) (page.col - 1)
      (view blankCell)
    rw [← view_setCell, Nat.add_sub_cancel' above] at shows
    have column : console.cursorCol - 1 = ((page.col - 1 : Nat) : Int) := by omega
    rw [if_pos inside, if_pos (by omega), follows.cursor.1, column,
      storeCell_of_inside (by unfold firstRow; omega) (by omega)]
    simp only [Option.bind_eq_bind, Option.bind_some]
    rw [refreshScreen_of_nonneg (by exact viewRow)]
    refine ⟨_, rfl, ⟨?_, reached, viewRow⟩⟩
    exact ⟨by dsimp only [updateCursor]; omega, rfl, by dsimp only; omega, above,
      follows.scrollback, shows⟩
  · have atStart := inBuffer.resolve_left inside
    have shows := follows.shows.setCell
      (show page.row - 1 - firstRow reach < scrollbackRows by unfold firstRow; omega)
      (vgaWidth - 1) (view blankCell)
    rw [← view_setCell, Nat.add_sub_cancel' (by omega)] at shows
    have rowAbove : console.cursorRow - 1 = ((page.row - 1 - firstRow reach : Nat) : Int) := by
      omega
    rw [if_neg inside, if_neg (by omega), if_pos (by omega), if_pos (by omega), rowAbove,
      show (vgaWidth : Int) - 1 = ((vgaWidth - 1 : Nat) : Int) from rfl,
      storeCell_of_inside (by unfold firstRow; omega) (by decide)]
    simp only [Option.bind_eq_bind, Option.bind_some]
    rw [refreshScreen_of_nonneg (by exact viewRow)]
    refine ⟨_, rfl, ⟨?_, by dsimp only; omega, viewRow⟩⟩
    exact ⟨by dsimp only [updateCursor]; omega, rfl, Nat.sub_lt (by decide) Nat.one_pos,
      by dsimp only; omega, follows.scrollback, shows⟩

/-- Scrolling moves the view only. -/
theorem Tracks.scrollUp (tracks : Tracks view reach page console) :
    ∃ after, Libc.scrollUp console = some after ∧ Tracks view reach page after := by
  unfold Libc.scrollUp
  split
  · rw [refreshScreen_of_nonneg (by dsimp only; omega)]
    exact ⟨_, rfl, tracks.follows.congr rfl rfl rfl rfl, tracks.reached, by dsimp only; omega⟩
  · exact ⟨console, rfl, tracks⟩

theorem Tracks.scrollDown (tracks : Tracks view reach page console) :
    ∃ after, Libc.scrollDown console = some after ∧ Tracks view reach page after := by
  have viewRow := tracks.viewRow
  unfold Libc.scrollDown
  split
  · rw [refreshScreen_of_nonneg (by dsimp only; omega)]
    exact ⟨_, rfl, tracks.follows.congr rfl rfl rfl rfl, tracks.reached, by dsimp only; omega⟩
  · exact ⟨console, rfl, tracks⟩

end Steps

/-! ### Strings on a cleared screen -/

/-- The page of spaces with the cursor at its start. -/
def emptyPage : Page Byte := ⟨fun _ _ => 0x20, 0, 0⟩

/-- The page with the string typed. -/
def typedPage (string : CString) : Page Byte :=
  string.bytes.foldl (fun page c => typeChar c c page) emptyPage

/-- The buffer is the page's last 100 rows at most, and the screen the last 25 of
these. -/
structure ShowsPage (page : Page Byte) (console : Console) : Prop where
  cursorRow : console.cursorRow = ((page.row - (page.row - 99) : Nat) : Int)
  cursorCol : console.cursorCol = page.col
  chars : ∀ row < scrollbackRows, ∀ col < vgaWidth,
    (console.scrollbackBuffer row col).char = page.cells (row + (page.row - 99)) col
  vga : ∀ row < vgaHeight, ∀ col < vgaWidth,
    console.vga row col =
      console.scrollbackBuffer (page.row - (page.row - 99) - 24 + row) col

theorem clearScreen_tracks (color : Byte) (console : Console) :
    ∃ cleared, clearScreen color console = some cleared ∧
      Tracks Cell.char emptyPage.row emptyPage cleared ∧
      OnScreen cleared := by
  have cleared := @refreshScreen_of_nonneg { console with
    scrollbackBuffer := fun row col =>
      if row < scrollbackRows ∧ col < vgaWidth then ⟨0x20, color⟩
      else console.scrollbackBuffer row col
    cursorRow := 0, cursorCol := 0, scrollbackRow := 0, viewRow := 0 } le_rfl
  refine ⟨_, cleared, ⟨⟨rfl, rfl, by decide, le_rfl, rfl, ?_, fun _ _ _ _ => rfl⟩, le_rfl, le_rfl⟩,
    onScreen_refresh rfl (show (0 : Int) < (scrollbackRows : Nat) by decide) cleared⟩
  intro row inBuffer col inRow
  dsimp only
  rw [if_pos ⟨inBuffer, inRow⟩]
  rfl

/-- While the cursor only goes down, the furthest row is its own. -/
theorem Tracks.print {page : Page Byte} {console : Console} (color : Byte) (rest : List Byte)
    {chars : List Byte} (noNul : ∀ c ∈ chars, c ≠ 0)
    (tracks : Tracks Cell.char page.row page console) (onScreen : OnScreen console) :
    ∃ after, Libc.print (chars ++ 0 :: rest) color console = some after ∧
      Tracks Cell.char (chars.foldl (fun page c => typeChar c c page) page).row
        (chars.foldl (fun page c => typeChar c c page) page) after ∧ OnScreen after := by
  induction chars generalizing page console with
  | nil => exact ⟨console, rfl, tracks, onScreen⟩
  | cons c chars inductionHypothesis =>
      obtain ⟨printed, printing, tracksPrinted, onScreenPrinted⟩ := tracks.printChar c color
      rw [max_eq_right (typeChar_row c _ page).1] at tracksPrinted
      obtain ⟨after, done, result⟩ := inductionHypothesis
        (fun other member => noNul other (List.mem_cons_of_mem c member)) tracksPrinted
        onScreenPrinted
      refine ⟨after, ?_, result⟩
      rw [List.cons_append, Libc.print, if_neg (noNul c List.mem_cons_self), printing,
        Option.bind_some, done]

theorem Tracks.showsPage {page : Page Byte} {console : Console}
    (tracks : Tracks Cell.char page.row page console) (onScreen : OnScreen console) :
    ShowsPage page console := by
  have cursor := tracks.follows.cursor
  have scrollback := tracks.follows.scrollback
  have viewRow := onScreen.viewRow
  unfold firstRow at cursor scrollback
  refine ⟨cursor.1, cursor.2, fun row inBuffer col inRow => ?_, fun row inScreen col inRow => ?_⟩
  · rw [Nat.add_comm]
    exact tracks.follows.shows.inside row inBuffer col inRow
  · have place : (console.viewRow + row).toNat = page.row - (page.row - 99) - 24 + row := by
      omega
    rw [onScreen.vga row inScreen col inRow, place]

/-- Whatever is printed on a cleared screen, the console is a window on the page
with it typed. -/
theorem console_shows_page (clearColor color : Byte) (start : Console) (string : CString)
    (rest : List Byte) :
    ∃ cleared after, clearScreen clearColor start = some cleared ∧
      print (string.bytes ++ 0 :: rest) color cleared = some after ∧
        ShowsPage (typedPage string) after := by
  obtain ⟨cleared, clearing, tracks, onScreen⟩ := clearScreen_tracks clearColor start
  obtain ⟨after, printing, tracksAfter, onScreenAfter⟩ :=
    tracks.print color rest string.noNul onScreen
  exact ⟨cleared, after, clearing, printing, tracksAfter.showsPage onScreenAfter⟩

end BrainDance.Libc
