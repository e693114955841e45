import BrainDance.Foundation.Typing
import BrainDance.Libc.Console.Window
import BrainDance.Libc.Integers

/-!
Owns what a console shows of all the text printed on it since it was cleared. `Transcribes`
is the simulation: the buffer is a window on the page with that text typed, and VGA memory a
window on the buffer. A line typed behind the text may be erased again, as long as it is no
longer than a command line.

`Prints` says which text a routine adds. The routines that print are composed of calls, so
that a program's output is a list of these and its text is theirs.
-/

namespace BrainDance.Libc

open BrainDance.Foundation

/-! ### The page of a text -/

def stroke (c : Byte) : Stroke Byte := if c = lineFeed then .newline else .put c

/-- The page with the text typed from its start. -/
def textPage (text : List Byte) : Page Byte := emptyPage.typeAll vgaWidth (text.map stroke)

theorem typeChar_eq_type (c : Byte) (page : Page Byte) :
    typeChar c c page = page.type vgaWidth (stroke c) := by
  unfold typeChar stroke
  split <;> rfl

theorem textPage_append (first second : List Byte) :
    textPage (first ++ second) = (textPage first).typeAll vgaWidth (second.map stroke) := by
  rw [textPage, List.map_append, Page.typeAll_append]
  rfl

theorem textPage_snoc (text : List Byte) (c : Byte) :
    textPage (text ++ [c]) = typeChar c c (textPage text) := by
  rw [textPage_append, typeChar_eq_type]
  rfl

theorem textPage_fresh (text : List Byte) : (textPage text).Fresh vgaWidth 0x20 :=
  Page.Fresh.typeAll ⟨by decide, fun _ _ => rfl⟩ _

theorem textPage_row (first second : List Byte) :
    (textPage first).row ≤ (textPage (first ++ second)).row := by
  rw [textPage_append]
  exact Page.row_typeAll _ _

/-- Characters without a line feed take up no more rows than they must. -/
theorem textPage_line_row {line : List Byte} (oneLine : ∀ c ∈ line, c ≠ lineFeed)
    (printed : List Byte) :
    (textPage (printed ++ line)).row =
      (textPage printed).row + ((textPage printed).col + line.length) / vgaWidth := by
  have strokes : line.map stroke = line.map .put :=
    List.map_congr_left fun c member => if_neg (oneLine c member)
  rw [textPage_append, strokes, Page.row_typeAll_put (textPage_fresh printed).inRow]

/-! ### The simulation -/

/-- VGA memory shows the buffer from the row `viewRow` on, as far as it has rows. -/
def ShowsWindow (console : Console) : Prop :=
  ∀ row < vgaHeight, ∀ col < vgaWidth, console.viewRow + row < scrollbackRows →
    console.vga row col = console.scrollbackBuffer (console.viewRow + row).toNat col

/-- The console shows the printed text and a line behind it. -/
structure Transcribes (printed line : List Byte) (console : Console) : Prop where
  page : ∃ reach, Tracks Cell.char reach (textPage (printed ++ line)) console ∧
    reach ≤ (textPage printed).row + 4
  window : ShowsWindow console

/-- The longest line that may be typed. -/
abbrev lineLimit : Nat := 256

section Window

variable {console shown after : Console}

theorem ShowsWindow.of_onScreen (onScreen : OnScreen console) : ShowsWindow console :=
  fun row inScreen col inRow _ => onScreen.vga row inScreen col inRow

theorem refreshScreen_window (refreshed : refreshScreen console = some shown) :
    ShowsWindow shown := by
  unfold refreshScreen at refreshed
  split at refreshed
  · obtain rfl := Option.some.inj refreshed
    intro row inScreen col inRow inBuffer
    exact if_pos ⟨inScreen, inRow, inBuffer⟩
  · contradiction

theorem printBackspace_window (erased : printBackspace console = some after) :
    ShowsWindow after := by
  have redrawn {moved : Console}
      (done : ((refreshScreen moved).bind fun shown => some (updateCursor shown)) = some after) :
      ShowsWindow after := by
    obtain ⟨_, refreshed, same⟩ := Option.bind_eq_some_iff.mp done
    obtain rfl := Option.some.inj same
    have window := refreshScreen_window refreshed
    exact window
  simp only [printBackspace, Option.bind_eq_bind] at erased
  split_ifs at erased
  · obtain ⟨_, _, done⟩ := Option.bind_eq_some_iff.mp erased
    exact redrawn done
  · obtain ⟨_, _, done⟩ := Option.bind_eq_some_iff.mp erased
    exact redrawn done
  · exact redrawn erased

end Window

section Transcripts

variable {printed line : List Byte} {console : Console}

/-- Every row of the screen that the buffer has is a row of the page, and the cursor stands
where it does on the page. -/
theorem Transcribes.visible (shows : Transcribes printed line console) :
    ∃ first : Nat, console.cursorRow + first = (textPage (printed ++ line)).row ∧
      console.cursorCol = (textPage (printed ++ line)).col ∧
      ∀ row < vgaHeight, ∀ col < vgaWidth, console.viewRow + row < scrollbackRows →
        (console.vga row col).char =
          (textPage (printed ++ line)).cells (first + (console.viewRow + row).toNat) col := by
  obtain ⟨⟨reach, tracks, _⟩, window⟩ := shows
  have below := tracks.viewRow
  refine ⟨_, tracks.follows.row, tracks.follows.col, fun row inScreen col inRow inBuffer => ?_⟩
  rw [window row inScreen col inRow inBuffer]
  exact tracks.follows.shows.inside _ (by omega) col inRow

theorem Transcribes.printChar (shows : Transcribes printed [] console) (c color : Byte) :
    ∃ after, Libc.printChar c color console = some after ∧ Transcribes (printed ++ [c]) [] after := by
  obtain ⟨⟨reach, tracks, low⟩, _⟩ := shows
  rw [List.append_nil] at tracks
  obtain ⟨after, printing, tracksAfter, onScreen⟩ := tracks.printChar c color
  have lower := (typeChar_row c c (textPage printed)).1
  refine ⟨after, printing, ⟨max reach (typeChar c c (textPage printed)).row, ?_, ?_⟩,
    .of_onScreen onScreen⟩
  · rw [List.append_nil, textPage_snoc]
    exact tracksAfter
  · rw [textPage_snoc]
    omega

/-- A character typed behind the text goes to the line. -/
theorem Transcribes.typed (shows : Transcribes printed line console)
    (oneLine : ∀ c ∈ line, c ≠ lineFeed) (short : line.length < lineLimit) {c : Byte}
    (notFeed : c ≠ lineFeed) (color : Byte) :
    ∃ after, Libc.printChar c color console = some after ∧
      Transcribes printed (line ++ [c]) after := by
  obtain ⟨⟨reach, tracks, low⟩, _⟩ := shows
  obtain ⟨after, printing, tracksAfter, onScreen⟩ := tracks.printChar c color
  have longer : ∀ other ∈ line ++ [c], other ≠ lineFeed :=
    List.forall_mem_append.mpr ⟨oneLine, List.forall_mem_singleton.mpr notFeed⟩
  have row := textPage_line_row longer printed
  have inRow := (textPage_fresh printed).inRow
  rw [List.length_append, List.length_singleton] at row
  rw [← List.append_assoc, textPage_snoc] at row
  refine ⟨after, printing, ⟨max reach (typeChar c c (textPage (printed ++ line))).row, ?_, ?_⟩,
    .of_onScreen onScreen⟩
  · rw [← List.append_assoc, textPage_snoc]
    exact tracksAfter
  · have width : vgaWidth = 80 := rfl
    have limit : lineLimit = 256 := rfl
    rw [width] at row
    omega

/-- A backspace takes the line's last character from the screen. -/
theorem Transcribes.erase {c : Byte} (shows : Transcribes printed (line ++ [c]) console)
    (notFeed : c ≠ lineFeed) :
    ∃ after, printBackspace console = some after ∧ Transcribes printed line after := by
  obtain ⟨⟨reach, tracks, low⟩, _⟩ := shows
  have fresh := textPage_fresh (printed ++ line)
  rw [← List.append_assoc, textPage_snoc, typeChar, if_neg notFeed] at tracks
  have further := @Page.index_put _ _ _ c fresh.inRow
  have lower := textPage_row printed line
  have next := @Page.row_put _ vgaWidth (textPage (printed ++ line)) c
  obtain ⟨after, erased, tracksAfter⟩ := tracks.printBackspace (by
    unfold firstRow
    by_cases behind : 0 < ((textPage (printed ++ line)).put vgaWidth c).col
    · exact .inl behind
    · refine .inr ?_
      rw [Page.index, Nat.eq_zero_of_not_pos behind] at further
      have positive : 0 < ((textPage (printed ++ line)).put vgaWidth c).row := by
        by_contra top
        rw [Nat.eq_zero_of_not_pos top] at further
        omega
      omega)
  rw [show Cell.char blankCell = 0x20 from rfl, fresh.erase_put] at tracksAfter
  exact ⟨after, erased, ⟨reach, tracksAfter, low⟩, printBackspace_window erased⟩

/-- Enter makes the line part of the text. -/
theorem Transcribes.commit (shows : Transcribes printed line console) :
    Transcribes (printed ++ line) [] console := by
  obtain ⟨⟨reach, tracks, low⟩, window⟩ := shows
  refine ⟨⟨reach, by rwa [List.append_nil], ?_⟩, window⟩
  exact Nat.le_trans low (Nat.add_le_add_right (textPage_row printed line) 4)

theorem Transcribes.scrollUp (shows : Transcribes printed line console) :
    ∃ after, Libc.scrollUp console = some after ∧ Transcribes printed line after := by
  obtain ⟨⟨reach, tracks, low⟩, window⟩ := shows
  obtain ⟨after, scrolled, tracksAfter⟩ := tracks.scrollUp
  refine ⟨after, scrolled, ⟨reach, tracksAfter, low⟩, ?_⟩
  unfold Libc.scrollUp at scrolled
  split at scrolled
  · exact refreshScreen_window scrolled
  · exact Option.some.inj scrolled ▸ window

theorem Transcribes.scrollDown (shows : Transcribes printed line console) :
    ∃ after, Libc.scrollDown console = some after ∧ Transcribes printed line after := by
  obtain ⟨⟨reach, tracks, low⟩, window⟩ := shows
  obtain ⟨after, scrolled, tracksAfter⟩ := tracks.scrollDown
  refine ⟨after, scrolled, ⟨reach, tracksAfter, low⟩, ?_⟩
  unfold Libc.scrollDown at scrolled
  split at scrolled
  · exact refreshScreen_window scrolled
  · exact Option.some.inj scrolled ▸ window

/-- A cleared console shows the empty text, whatever it showed. -/
theorem clearScreen_transcribes (color : Byte) (console : Console) :
    ∃ after, clearScreen color console = some after ∧ Transcribes [] [] after := by
  obtain ⟨after, cleared, tracks, onScreen⟩ := clearScreen_tracks color console
  exact ⟨after, cleared, ⟨_, tracks, Nat.le_add_right _ _⟩, .of_onScreen onScreen⟩

end Transcripts

end BrainDance.Libc
