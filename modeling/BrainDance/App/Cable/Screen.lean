import BrainDance.App.Cable.Session
import BrainDance.Libc.Colors
import BrainDance.Libc.Console.Window
import BrainDance.Libc.Snprintf

/-!
Owns what the editor shows: `editor_draw` and `editor_draw_status_bar` of
`app/utils/cable.c`, and `cable_main`, which draws before every key. While the keys follow
the editor of lines, each drawing is the picture of its text: all lines but the last one,
the status bar in the row of that, and the cursor.
-/

namespace BrainDance.App.Cable

open BrainDance.Foundation
open BrainDance.Libc
open BrainDance.Exec
open BrainDance.Fs.Bdfs
open BrainDance.Drivers

/-! ### Model -/

/-- `STATUS_BAR_COLOR`. -/
def statusBarColor : Byte := 0x1F

def statusFormat : CString := literal "-- CABLE -- [%s]%c  Ctrl+S=Save | Ctrl+Q=Quit".toList

/-- `dirty_indicator`. -/
def dirtyIndicator (dirty : Int) : Byte := if dirty ≠ 0 then 0x2A else 0x20

/-- What `snprintf` gets: a pointer to the name, whatever its address, and the indicator. -/
def statusArguments (filename : CString) (dirty : Int) : VaList where
  word := fun index => if index = 0 then 0 else (dirtyIndicator dirty).signExtend 32
  stringAt := fun _ => filename

/-- `stack` is what the array `status` holds before. -/
def editorDrawStatusBar (stack : Image) (editor : EditorState) (console : Console) :
    Option Console := do
  let filename ← scanString editor.filename filenameSize 0
  let output ← snprintf stack (BitVec.ofNat 32 editorCols) statusFormat
    (statusArguments filename editor.dirty)
  let status ← scanString output.2 editorCols 0
  (List.range editorCols).foldlM (fun console i =>
    printCharAt (if i < strlen status then output.2 i else 0x20) statusBarColor i
      (editorRows - 1 : Nat) console) console

def editorDraw (stack : Image) (editor : EditorState) (console : Console) : Option Console := do
  let console ← clearScreen colorSystem console
  let console ← (List.range (editorRows - 1)).foldlM (fun console y =>
    (List.range editorCols).foldlM (fun console x =>
      printCharAt (editor.buffer (y * editorCols + x)) colorInput x y console) console) console
  let console ← editorDrawStatusBar stack editor console
  some (setCursor editor.cx editor.cy console)

/-- A round of the loop of `cable_main`. -/
def cableRound (fuel : Nat) (statusStack saveStack bytecodeStack : Image) (event : KeyEvent)
    (editor : EditorState) (kernel : Kernel) : Option (Int × EditorState × Kernel) := do
  let console ← editorDraw statusStack editor kernel.console
  editorProcessKeypress fuel saveStack bytecodeStack event editor { kernel with console := console }

/-- `cable_main` on the files for which `Opens` holds, up to the key that quits. -/
def cableMain (Opens : CString → FileSystem → Prop) :
    TransitionSystem (EditorState × Kernel) KeyEvent where
  Init state := ∃ filename previous, Opens filename state.2.fileSystem ∧
    editorInit filename state.2.fileSystem previous = some state.1
  Step before event after := ∃ fuel statusStack saveStack bytecodeStack,
    cableRound fuel statusStack saveStack bytecodeStack event before.1 before.2 = some (1, after)

/-! ### The picture -/

/-- The status bar. -/
def statusText (path : CString) (dirty : Bool) : List Byte :=
  asciiBytes "-- CABLE -- [".toList ++ path.bytes ++ asciiBytes "]".toList ++
    [if dirty then 0x2A else 0x20] ++ asciiBytes "  Ctrl+S=Save | Ctrl+Q=Quit".toList

/-- The cell that the picture of a session has at a place. -/
def pictureCell (path : CString) (session : TextSession) (row col : Nat) : Cell :=
  if row < editorRows - 1 then ⟨(session.text.lines row).getD col 0, colorInput⟩
  else if row = editorRows - 1 then
    ⟨(statusText path session.dirty).getD col 0x20, statusBarColor⟩
  else ⟨0x20, colorSystem⟩

/-- The screen is the picture, and the cursor stands where the text has it. -/
structure ShowsPicture (path : CString) (session : TextSession) (console : Console) : Prop where
  vga : ∀ row < vgaHeight, ∀ col < vgaWidth,
    console.vga row col = pictureCell path session row col
  cursor : console.hardwareCursor =
    BitVec.ofNat 16 (session.text.row * vgaWidth + session.text.col)

/-! ### Cells -/

section Cells

variable {console : Console}

theorem printCharAt_onScreen {x y : Nat} (inRow : x < vgaWidth) (inScreen : y < vgaHeight)
    (c color : Byte) (console : Console) :
    printCharAt c color x y console =
      some { console with vga := setCell y x ⟨c, color⟩ console.vga } := by
  have ⟨row, col⟩ := (@index_eq_iff vgaWidth y x inRow (y * vgaWidth + x)).mpr rfl
  have place : ((y : Int) * vgaWidth + x) = ((y * vgaWidth + x : Nat) : Int) := by push_cast; rfl
  rw [printCharAt, if_neg (by omega), place]
  dsimp only
  rw [if_pos (Int.natCast_nonneg _), ← Int.natCast_ediv, ← Int.natCast_emod, Int.toNat_natCast,
    Int.toNat_natCast, row, col]

theorem foldlM_range_succ {State : Type} (step : State → Nat → Option State) (count : Nat)
    (state : State) : (List.range (count + 1)).foldlM step state =
      ((List.range count).foldlM step state).bind fun state => step state count := by
  rw [List.range_succ, List.foldlM_append]
  exact congrArg _ (funext fun state => Option.bind_fun_some _)

theorem printRow {row count : Nat} (inScreen : row < vgaHeight) (inRow : count ≤ vgaWidth)
    (contents : Nat → Byte) (color : Byte) (console : Console) :
    (List.range count).foldlM (fun console x => printCharAt (contents x) color x row console)
        console =
      some { console with vga := setRow row count (fun x => ⟨contents x, color⟩) console.vga } := by
  induction count with
  | zero =>
      rw [setRow_zero]
      rfl
  | succ count inductionHypothesis =>
      rw [foldlM_range_succ, inductionHypothesis (Nat.le_of_succ_le inRow),
        setRow_succ]
      exact printCharAt_onScreen inRow inScreen (contents count) color _

theorem printRows {count width : Nat} (inScreen : count ≤ vgaHeight) (inRow : width ≤ vgaWidth)
    (contents : Nat → Nat → Byte) (color : Byte) (console : Console) :
    (List.range count).foldlM (fun console y => (List.range width).foldlM (fun console x =>
        printCharAt (contents y x) color x y console) console) console =
      some { console with
        vga := setRows count width (fun y x => ⟨contents y x, color⟩) console.vga } := by
  induction count with
  | zero =>
      rw [setRows_zero]
      rfl
  | succ count inductionHypothesis =>
      rw [foldlM_range_succ, inductionHypothesis (Nat.le_of_succ_le inScreen),
        setRows_succ]
      exact printRow inScreen inRow (contents count) color _

/-- A cleared screen shows spaces. -/
theorem clearScreen_spaces (color : Byte) (console : Console) :
    ∃ cleared, clearScreen color console = some cleared ∧ cleared.viewRow = 0 ∧
      ∀ row < vgaHeight, ∀ col < vgaWidth, cleared.vga row col = ⟨0x20, color⟩ := by
  refine ⟨_, @refreshScreen_of_nonneg { console with
    scrollbackBuffer := fun row col =>
      if row < scrollbackRows ∧ col < vgaWidth then ⟨0x20, color⟩
      else console.scrollbackBuffer row col
    cursorRow := 0, cursorCol := 0, scrollbackRow := 0, viewRow := 0 } le_rfl, rfl, ?_⟩
  intro row inScreen col inRow
  have rows : scrollbackRows = 100 := rfl
  have height : vgaHeight = 25 := rfl
  dsimp only [shownRows]
  rw [if_pos ⟨inScreen, inRow, by omega⟩, if_pos ⟨by omega, inRow⟩]

end Cells

/-! ### The status bar -/

section StatusBar

variable {path : CString}

/-- A string that a scan finds ends within its reach. -/
theorem scanString_short {image : Image} {fuel start : Nat} {string : CString}
    (found : scanString image fuel start = some string) : strlen string < fuel := by
  induction fuel generalizing start string with
  | zero => contradiction
  | succ fuel inductionHypothesis =>
      rw [scanString] at found
      split at found
      · obtain rfl := Option.some.inj found
        exact Nat.succ_pos fuel
      · obtain ⟨rest, foundRest, rfl⟩ := Option.map_eq_some_iff.mp found
        exact Nat.succ_lt_succ (inductionHypothesis foundRest)

/-- Characters in front of a specifier stay as they are. -/
theorem expandFrom_append (args : VaList) {plain : List Byte}
    (noPercent : ∀ char ∈ plain, char ≠ percent) (rest : List Byte) (next : Nat) :
    expandFrom args (plain ++ rest) next =
      (expandFrom args rest next).map fun text => plain ++ text := by
  induction plain with
  | nil => simp
  | cons char plain inductionHypothesis =>
      obtain ⟨notPercent, others⟩ := List.forall_mem_cons.mp noPercent
      have expands := inductionHypothesis others
      cases behind : plain ++ rest with
      | nil =>
          obtain ⟨rfl, rfl⟩ := List.append_eq_nil_iff.mp behind
          have single : expandFrom args [char] next = some [char] := by
            rw [expandFrom, if_neg notPercent]
          rw [List.cons_append, List.append_nil, single, expandFrom]
          rfl
      | cons second more =>
          rw [behind] at expands
          rw [List.cons_append, behind, expandFrom, if_neg notPercent, expands, Option.map_map]
          rfl

theorem statusText_expands (path : CString) (dirty : Bool) :
    expansion statusFormat (statusArguments path (if dirty then 1 else 0)) =
      some (statusText path dirty) := by
  have format : statusFormat.bytes = asciiBytes "-- CABLE -- [".toList ++ percent :: 0x73 ::
      (asciiBytes "]".toList ++ percent :: 0x63 ::
        (asciiBytes "  Ctrl+S=Save | Ctrl+Q=Quit".toList ++ [])) := rfl
  have plain : ∀ text ∈ ["-- CABLE -- [", "]", "  Ctrl+S=Save | Ctrl+Q=Quit"],
      ∀ char ∈ asciiBytes text.toList, char ≠ percent := by simp [asciiBytes, percent]
  simp only [List.forall_mem_cons] at plain
  have indicator : ((statusArguments path (if dirty then 1 else 0)).word 1).setWidth 8 =
      if dirty then (0x2A : Byte) else 0x20 := by cases dirty <;> rfl
  rw [expansion, format, expandFrom_append _ plain.1, expandFrom, if_pos rfl, expandSpec,
    if_neg (by decide), if_pos rfl, Option.bind_some, expandFrom_append _ plain.2.1, expandFrom,
    if_pos rfl, expandSpec, if_pos rfl, Option.bind_some, expandFrom_append _ plain.2.2.1,
    expandFrom, indicator]
  simp [statusText, statusArguments]

theorem statusText_noNul (path : CString) (dirty : Bool) :
    ∀ char ∈ statusText path dirty, char ≠ 0 := by
  intro char member
  simp only [statusText, List.mem_append] at member
  rcases member with (((front | inPath) | bracket) | indicator) | back
  · exact (literal "-- CABLE -- [".toList).noNul char front
  · exact path.noNul char inPath
  · exact (literal "]".toList).noNul char bracket
  · rw [List.mem_singleton.mp indicator]
    cases dirty <;> decide
  · exact (literal "  Ctrl+S=Save | Ctrl+Q=Quit".toList).noNul char back

/-- The status bar has room for every name that `editor.filename` has room for. -/
theorem statusText_fits (dirty : Bool) (short : strlen path < filenameSize) :
    (statusText path dirty).length < editorCols := by
  have size : filenameSize = 32 := rfl
  have width : editorCols = 80 := rfl
  rw [strlen] at short
  simp [statusText, asciiBytes]
  omega

variable {editor : EditorState} {dirty : Bool}

theorem editorDrawStatusBar_draws (named : scanString editor.filename filenameSize 0 = some path)
    (marked : editor.dirty = if dirty then 1 else 0) (stack : Image) (console : Console) :
    editorDrawStatusBar stack editor console =
      some { console with
        vga := setRow (editorRows - 1) editorCols
          (fun col => ⟨(statusText path dirty).getD col 0x20, statusBarColor⟩) console.vga } := by
  have fits := statusText_fits dirty (scanString_short named)
  have width : (BitVec.ofNat 32 editorCols).toNat = editorCols := rfl
  obtain ⟨count, status, stored, shows, _⟩ :=
    storesTruncated_of_expansion (statusText_expands path dirty) stack
      (show 1 ≤ (BitVec.ofNat 32 editorCols).toNat by decide)
  rw [width, List.take_of_length_le (by omega)] at shows
  have holds : Holds status ⟨statusText path dirty, statusText_noNul path dirty⟩ :=
    holds_iff_showsBytes.mpr shows
  have found : scanString status editorCols 0 =
      some ⟨statusText path dirty, statusText_noNul path dirty⟩ := by
    refine scanString_of_shown (fun offset inString => ?_) fits
    rw [Nat.zero_add]
    exact holds offset inString
  have cells : (fun col => Cell.mk (if col < (statusText path dirty).length then status col
      else 0x20) statusBarColor) =
        fun col => ⟨(statusText path dirty).getD col 0x20, statusBarColor⟩ := by
    funext col
    by_cases inText : col < (statusText path dirty).length
    · rw [if_pos inText, List.getD_eq_getElem _ _ inText, holds col inText.le,
        CString.image_of_lt _ inText]
    · rw [if_neg inText, List.getD_eq_default _ _ (Nat.not_lt.mp inText)]
  rw [editorDrawStatusBar, named, marked]
  simp only [Option.bind_eq_bind, Option.bind_some]
  rw [stored, Option.bind_some, found, Option.bind_some, ← cells]
  exact printRow (by decide) (Nat.le_refl _) _ statusBarColor console

end StatusBar

/-! ### Drawing -/

section Drawing

variable {path : CString} {state : EditorState × Kernel} {session next : TextSession}
  {event : KeyEvent}

theorem ShowsText.cell {editor : EditorState} {text : TextBuffer Byte}
    (shows : ShowsText editor text) {row col : Nat} (inDocument : row < editorRows)
    (inRow : col < editorCols) :
    editor.buffer (row * editorCols + col) = (text.lines row).getD col 0 := by
  obtain ⟨string, showsRow, bytes⟩ := shows.rows row inDocument
  rw [showsRow.shows col inRow, CString.image, bytes]

/-- The loops over the rows of the document. -/
theorem editorRows_drawn (editor : EditorState) (console : Console) :
    (List.range (editorRows - 1)).foldlM (fun console y =>
      (List.range editorCols).foldlM (fun console x =>
        printCharAt (editor.buffer (y * editorCols + x)) colorInput x y console) console) console =
      some { console with
        vga := setRows (editorRows - 1) editorCols
          (fun y x => ⟨editor.buffer (y * editorCols + x), colorInput⟩) console.vga } :=
  printRows (by decide) (Nat.le_refl _) (fun y x => editor.buffer (y * editorCols + x)) _ _

theorem ShowsSession.setCursor (shows : ShowsSession path state session) {console : Console}
    (top : console.viewRow = 0) :
    (Libc.setCursor state.1.cx state.1.cy console).hardwareCursor =
        BitVec.ofNat 16 (session.text.row * vgaWidth + session.text.col) ∧
      (Libc.setCursor state.1.cx state.1.cy console).vga = console.vga := by
  have rows : editorRows = 24 := rfl
  have width : vgaWidth = 80 := rfl
  have height : vgaHeight = 25 := rfl
  have longest : lineRoom = 79 := rfl
  have ⟨row, col, fits, _⟩ := shows.text.valid
  have inLine := fits session.text.row
  rw [TextBuffer.line] at col
  rw [Libc.setCursor, shows.text.col, shows.text.row, if_neg (by omega)]
  refine ⟨?_, rfl⟩
  dsimp only [updateCursor]
  rw [top, Int.sub_zero, ← Int.natCast_mul, ← Int.natCast_add, BitVec.ofInt_natCast]

/-- The screen that the loops leave. -/
theorem ShowsSession.editorDraw_eq (shows : ShowsSession path state session) (stack : Image)
    {console cleared : Console} (clearing : clearScreen colorSystem console = some cleared) :
    editorDraw stack state.1 console =
      some (Libc.setCursor state.1.cx state.1.cy { cleared with
        vga := setRow (editorRows - 1) editorCols
          (fun col => ⟨(statusText path session.dirty).getD col 0x20, statusBarColor⟩)
          (setRows (editorRows - 1) editorCols
            (fun y x => ⟨state.1.buffer (y * editorCols + x), colorInput⟩) cleared.vga) }) := by
  have bar := editorDrawStatusBar_draws shows.named shows.dirty stack
  unfold editorDraw
  simp only [clearing, Option.bind_eq_bind, Option.bind_some, editorRows_drawn, bar]

/-- Whatever was on the screen before, the editor draws the picture of its text. -/
theorem ShowsSession.draw (shows : ShowsSession path state session) (stack : Image)
    (console : Console) : ∃ drawn, editorDraw stack state.1 console = some drawn ∧
      ShowsPicture path session drawn := by
  obtain ⟨cleared, clearing, top, spaces⟩ := clearScreen_spaces colorSystem console
  obtain ⟨cursor, vga⟩ := @ShowsSession.setCursor _ _ _ shows { cleared with
    vga := setRow (editorRows - 1) editorCols
      (fun col => ⟨(statusText path session.dirty).getD col 0x20, statusBarColor⟩)
      (setRows (editorRows - 1) editorCols
        (fun y x => ⟨state.1.buffer (y * editorCols + x), colorInput⟩) cleared.vga) } top
  refine ⟨_, shows.editorDraw_eq stack clearing, fun y inScreen x inRow => ?_, cursor⟩
  rw [vga]
  dsimp only [setRow, setRows]
  rw [pictureCell]
  by_cases lines : y < editorRows - 1
  · rw [if_neg (fun both => absurd lines (by rw [both.1]; exact Nat.lt_irrefl _)),
      if_pos ⟨lines, inRow⟩, if_pos lines, shows.text.cell (Nat.lt_of_lt_pred lines) inRow]
  · by_cases last : y = editorRows - 1
    · rw [if_pos ⟨last, inRow⟩, if_neg lines, if_pos last]
    · rw [if_neg (fun both => last both.1), if_neg (fun both => lines both.1), if_neg lines,
        if_neg last, spaces y inScreen x inRow]

/-! ### Sessions -/

/-- The session on another console. -/
def TextSession.withConsole (session : TextSession) (console : Console) : TextSession :=
  { session with kernel := { session.kernel with console := console } }

theorem ShowsSession.withConsole {old : Console}
    (shows : ShowsSession path state (session.withConsole old)) (console : Console) :
    ShowsSession path (state.1, { state.2 with console := console })
      (session.withConsole console) := by
  obtain ⟨text, dirty, named, kernel⟩ := shows
  refine ⟨text, dirty, named, ?_⟩
  rw [kernel]
  rfl

/-- The editor of lines does not look at the console. -/
theorem lineEditor_withConsole (step : (lineEditor path).Step session event next)
    (console : Console) :
    (lineEditor path).Step (session.withConsole console) event (next.withConsole console) := by
  simp only [lineEditor] at step ⊢
  split_ifs at step ⊢
  · rw [step]
  · obtain ⟨fits, text, clean, written⟩ := step
    obtain ⟨result, wrote, kernel⟩ := Option.map_eq_some_iff.mp written
    refine ⟨fits, text, clean, Option.map_eq_some_iff.mpr ⟨result, wrote, ?_⟩⟩
    simp only [TextSession.withConsole]
    rw [← kernel]
  · obtain ⟨kernel, edited⟩ := step
    refine ⟨?_, edited⟩
    simp only [TextSession.withConsole]
    rw [kernel]

/-- A round of the loop does a step of the editor of lines. -/
theorem ShowsSession.round {Opens : CString → FileSystem → Prop} {old : Console}
    {after : EditorState × Kernel} (shows : ShowsSession path state (session.withConsole old))
    (step : (lineEditor path).Step session event next)
    (round : (cableMain Opens).Step state event after) :
    ∃ console, ShowsSession path after (next.withConsole console) := by
  obtain ⟨fuel, statusStack, saveStack, bytecodeStack, done⟩ := round
  rw [cableRound] at done
  obtain ⟨console, _, pressed⟩ := Option.bind_eq_some_iff.mp done
  exact ⟨console, @ShowsSession.pressed path _ _ _ _ (shows.withConsole console)
    (lineEditor_withConsole step console) _ _ _ _ pressed⟩

theorem ShowsSession.rounds {Opens : CString → FileSystem → Prop} {old : Console}
    {final : EditorState × Kernel} {last : TextSession} {events : List KeyEvent}
    (shows : ShowsSession path state (session.withConsole old))
    (run : (lineEditor path).Run session events last)
    (ran : (cableMain Opens).Run state events final) :
    ∃ console, ShowsSession path final (last.withConsole console) := by
  induction run generalizing state old with
  | nil session =>
      cases ran
      exact ⟨old, shows⟩
  | cons step _ inductionHypothesis =>
      cases ran with
      | cons first rest =>
          obtain ⟨console, showsNext⟩ := shows.round step first
          exact inductionHypothesis showsNext rest

/-- The loop can take every step of the editor of lines. -/
theorem ShowsSession.rounds_exist (Opens : CString → FileSystem → Prop) {old : Console}
    {last : TextSession} {events : List KeyEvent}
    (shows : ShowsSession path state (session.withConsole old))
    (run : (lineEditor path).Run session events last) :
    ∃ final, (cableMain Opens).Run state events final := by
  induction run generalizing state old with
  | nil session => exact ⟨state, .nil state⟩
  | cons step _ inductionHypothesis =>
      obtain ⟨drawn, drawing, _⟩ := shows.draw (fun _ => 0) state.2.console
      have showsDrawn := shows.withConsole drawn
      have stepDrawn := lineEditor_withConsole step drawn
      obtain ⟨after, pressed⟩ := showsDrawn.press stepDrawn (fun _ => 0) fun _ => 0
      obtain ⟨final, rest⟩ := inductionHypothesis (showsDrawn.pressed stepDrawn pressed)
      refine ⟨final, .cons ⟨bytecodeSize, fun _ => 0, fun _ => 0, fun _ => 0, ?_⟩ rest⟩
      rw [cableRound, drawing]
      exact pressed

end Drawing

/-- After every run of keys that the editor of lines has results for, the next drawing is the
picture of its text, on whatever screen the session began. -/
theorem cable_draws_text {Opens : CString → FileSystem → Prop} {path : CString}
    {state : EditorState × Kernel} {session last : TextSession} {events : List KeyEvent}
    (shows : ShowsSession path state session)
    (run : (lineEditor path).Run session events last) :
    (∃ final, (cableMain Opens).Run state events final) ∧
      ∀ final, (cableMain Opens).Run state events final →
        ∀ stack, ∃ drawn, editorDraw stack final.1 final.2.console = some drawn ∧
          ShowsPicture path last drawn := by
  have start : ShowsSession path state (session.withConsole session.kernel.console) := shows
  refine ⟨start.rounds_exist Opens run, fun final ran stack => ?_⟩
  obtain ⟨console, showsLast⟩ := start.rounds run ran
  obtain ⟨drawn, drawing, picture⟩ := showsLast.draw stack final.2.console
  exact ⟨drawn, drawing, picture.vga, picture.cursor⟩

theorem cable_draws_text_letter :
    ∃ final drawn, (cableMain fun _ _ => True).Run (emptyEditor, newKernel) [letterKey] final ∧
      editorDraw (fun _ => 0) final.1 final.2.console = some drawn ∧
        ShowsPicture (literal ['p']) ⟨letterText, true, newKernel⟩ drawn := by
  obtain ⟨⟨final, ran⟩, draws⟩ := @cable_draws_text (fun _ _ => True) _ _ _ _ _
    (emptyEditor_shows newKernel) (letterKey_typed newKernel)
  obtain ⟨drawn, drawing, shows⟩ := draws final ran fun _ => 0
  exact ⟨final, drawn, ran, drawing, shows⟩

end BrainDance.App.Cable
