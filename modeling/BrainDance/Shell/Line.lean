import BrainDance.Libc.Console.Window
import BrainDance.Shell.Model

/-!
Owns that the line on the screen is the command that runs. `editedLine` computes
the line from the keys alone; the invariant `Editing` says that the command
buffer and the page behind the console both hold it. The line takes up less than
four rows from the prompt's on, so the buffer never scrolls the prompt away.
-/

namespace BrainDance.Shell

open BrainDance.Foundation
open BrainDance.Drivers
open BrainDance.Libc

/-! ### The line -/

/-- What a key other than Enter does to the line. -/
def editKey (text : List Byte) (key : Byte) : List Byte :=
  if key = 0 ∨ key = keyUp ∨ key = keyDown then text
  else if key = backspace then text.dropLast
  else if text.length < 255 then text ++ [key]
  else text

def editedLine (keys : List Byte) : List Byte := keys.foldl editKey []

theorem editKey_noNul {text : List Byte} (noNul : ∀ char ∈ text, char ≠ 0) (key : Byte) :
    ∀ char ∈ editKey text key, char ≠ 0 := by
  unfold editKey
  split
  · exact noNul
  · rename_i plain
    split
    · exact fun char member => noNul char (List.dropLast_subset _ member)
    · split
      · intro char member
        rcases List.mem_append.mp member with inLine | isKey
        · exact noNul char inLine
        · rw [List.mem_singleton.mp isKey]
          exact fun zero => plain (Or.inl zero)
      · exact noNul

theorem editedLine_noNul (keys : List Byte) : ∀ char ∈ editedLine keys, char ≠ 0 := by
  suffices general : ∀ text : List Byte, (∀ char ∈ text, char ≠ 0) →
      ∀ char ∈ keys.foldl editKey text, char ≠ 0 from
    general [] (by simp)
  induction keys with
  | nil => exact fun _ noNul => noNul
  | cons key keys inductionHypothesis =>
      exact fun text noNul => inductionHypothesis _ (editKey_noNul noNul key)

/-- The command that the keys spell. -/
def editedCommand (keys : List Byte) : CString := ⟨editedLine keys, editedLine_noNul keys⟩

/-! ### The prompt -/

/-- A prompt of at most 17 characters stands at the start of the cursor's row. -/
structure AtPrompt (shell : CommandLine) : Prop where
  row : 0 ≤ shell.console.cursorRow ∧ shell.console.cursorRow < scrollbackRows
  col : 0 ≤ shell.console.cursorCol ∧ shell.console.cursorCol ≤ 17
  level : shell.console.scrollbackRow = shell.console.cursorRow
  viewRow : 0 ≤ shell.console.viewRow
  empty : shell.commandLen = 0

/-- Where the line starts, counted row after row. -/
def lineStart (console : Console) : Nat :=
  console.cursorRow.toNat * vgaWidth + console.cursorCol.toNat

/-- The cells of the line, in the colour of input. -/
def lineCells (text : List Byte) : List Cell := text.map fun char => ⟨char, colorInput⟩

/-- The line stands behind the prompt, and the buffer has moved up by `up` rows. -/
structure LineShown (before after : Console) (text : List Byte) (up : Nat) : Prop where
  promptInBuffer : up ≤ before.cursorRow.toNat
  cursorInBuffer : after.cursorRow < scrollbackRows
  cursorRow : after.cursorRow + up = ((lineStart before + text.length) / vgaWidth : Nat)
  cursorCol : after.cursorCol = ((lineStart before + text.length) % vgaWidth : Nat)
  text : ∀ offset, (inLine : offset < text.length) →
    after.scrollbackBuffer ((lineStart before + offset) / vgaWidth - up)
      ((lineStart before + offset) % vgaWidth) = ⟨text[offset], colorInput⟩
  prompt : ∀ col < before.cursorCol.toNat,
    after.scrollbackBuffer (before.cursorRow.toNat - up) col =
      before.scrollbackBuffer before.cursorRow.toNat col

/-! ### The invariant -/

/-- The page behind the console holds the line behind the prompt. -/
structure Displays (before : Console) (text : List Byte) (page : Page Cell) (reach : Nat)
    (console : Console) : Prop where
  tracks : Tracks id reach page console
  low : reach ≤ before.cursorRow.toNat + 3
  holds : page.HoldsLine vgaWidth (lineStart before) (lineCells text)
  prompt : ∀ col < before.cursorCol.toNat,
    cellAt vgaWidth page.cells (before.cursorRow.toNat * vgaWidth + col) =
      before.scrollbackBuffer before.cursorRow.toNat col

/-- The line is in the command buffer and on the page. -/
structure Editing (before : Console) (text : List Byte) (shell : CommandLine) : Prop where
  short : text.length ≤ 255
  commandLen : shell.commandLen = text.length
  commandBuffer : ∀ index, (inLine : index < text.length) →
    shell.commandBuffer index = text[index]
  shown : ∃ page reach, Displays before text page reach shell.console

section Start

variable {shell : CommandLine}

/-- The page whose first 100 rows are the buffer. -/
def startPage (console : Console) : Page Cell where
  cells row col :=
    if row < scrollbackRows then console.scrollbackBuffer row col else blankCell
  row := console.cursorRow.toNat
  col := console.cursorCol.toNat

theorem startPage_index (console : Console) :
    (startPage console).index vgaWidth = lineStart console := by
  unfold Page.index lineStart startPage
  rfl

theorem AtPrompt.tracks (atPrompt : AtPrompt shell) :
    Tracks id shell.console.cursorRow.toNat (startPage shell.console) shell.console := by
  have rows : scrollbackRows = 100 := rfl
  have width : vgaWidth = 80 := rfl
  have row := atPrompt.row
  have col := atPrompt.col
  have level := atPrompt.level
  have first : firstRow shell.console.cursorRow.toNat = 0 := by
    unfold firstRow
    omega
  refine ⟨?_, le_rfl, atPrompt.viewRow⟩
  rw [first]
  refine ⟨?_, ?_, ?_, Nat.zero_le _, ?_, ?_, ?_⟩
  · dsimp only [startPage]
    omega
  · dsimp only [startPage]
    omega
  · dsimp only [startPage]
    omega
  · omega
  · intro r inBuffer c _
    dsimp only [startPage, id]
    rw [Nat.zero_add, if_pos inBuffer]
  · intro r outside c _
    dsimp only [startPage, id]
    rw [if_neg (by omega)]

theorem AtPrompt.editing (atPrompt : AtPrompt shell) : Editing shell.console [] shell where
  short := Nat.zero_le _
  commandLen := atPrompt.empty
  commandBuffer _ none := absurd none (Nat.not_lt_zero _)
  shown := by
    have width : vgaWidth = 80 := rfl
    have row := atPrompt.row
    have col := atPrompt.col
    have tracks := atPrompt.tracks
    have holds := Page.HoldsLine.nil tracks.follows.inRow
    rw [startPage_index] at holds
    refine ⟨_, _, tracks, Nat.le_add_right _ _, holds, ?_⟩
    intro c inPrompt
    rw [cellAt_index (by omega)]
    dsimp only [startPage]
    rw [if_pos (by omega)]

end Start

/-! ### Keys -/

section Keys

variable {before console : Console} {text : List Byte} {page : Page Cell} {reach : Nat}

theorem Displays.congr (displays : Displays before text page reach console) {other : Console}
    (tracks : Tracks id reach page other) : Displays before text page reach other :=
  ⟨tracks, displays.low, displays.holds, displays.prompt⟩

/-- The cursor on the page, from the prompt's row on. -/
theorem Displays.cursor (displays : Displays before text page reach console) :
    page.row * 80 + page.col = before.cursorRow.toNat * 80 + before.cursorCol.toNat + text.length ∧
      page.col < 80 := by
  have index := displays.holds.index
  rw [lineCells, List.length_map] at index
  exact ⟨index, displays.holds.inRow⟩

/-- A character typed is put behind the line. -/
theorem Displays.put (displays : Displays before text page reach console)
    (promptCol : before.cursorCol.toNat ≤ 17) (short : text.length < 255) {key : Byte}
    (notEnter : key ≠ lineFeed) :
    ∃ after reach', printChar key colorInput console = some after ∧
      Displays before (text ++ [key]) (page.put vgaWidth ⟨key, colorInput⟩) reach' after := by
  obtain ⟨after, printing, tracks, _⟩ := displays.tracks.printChar key colorInput
  rw [typeChar, if_neg notEnter] at tracks
  have holds := displays.holds.put ⟨key, colorInput⟩
  have low := displays.low
  have placed := holds.index
  rw [List.length_append, List.length_singleton, lineCells, List.length_map, Page.index,
    lineStart] at placed
  have width : vgaWidth = 80 := rfl
  refine ⟨after, _, printing, tracks, ?_, ?_, ?_⟩
  · dsimp only [id]
    rw [width] at placed ⊢
    omega
  · rw [lineCells, List.map_append, List.map_singleton]
    exact holds
  · intro col inPrompt
    rw [displays.holds.put_before _ (by rw [lineStart]; omega), displays.prompt col inPrompt]

/-- A backspace takes the line's last character away. -/
theorem Displays.erase (displays : Displays before text page reach console)
    (inBuffer : before.cursorRow.toNat < scrollbackRows) (nonempty : text ≠ []) :
    ∃ after, printBackspace console = some after ∧
      Displays before text.dropLast (page.erase vgaWidth blankCell) reach after := by
  have rows : scrollbackRows = 100 := rfl
  have low := displays.low
  have positive := List.length_pos_iff.mpr nonempty
  have cursor := displays.cursor
  have nonemptyCells : lineCells text ≠ [] := fun none => nonempty (List.map_eq_nil_iff.mp none)
  obtain ⟨after, erasing, tracks⟩ := displays.tracks.printBackspace (by unfold firstRow; omega)
  refine ⟨after, erasing, tracks, low, ?_, ?_⟩
  · rw [lineCells, List.map_dropLast]
    exact displays.holds.erase nonemptyCells blankCell
  · intro col inPrompt
    rw [displays.holds.erase_before nonemptyCells _ (by rw [lineStart]; omega),
      displays.prompt col inPrompt]

variable {shell : CommandLine}

theorem storeCommand_of_short {index : Nat} (short : index ≤ 255) (c : Byte) :
    storeCommand shell index c =
      some { shell with commandBuffer := Function.update shell.commandBuffer index c } :=
  if_pos (Nat.lt_succ_of_le short)

theorem Editing.append (editing : Editing before text shell)
    (promptCol : before.cursorCol.toNat ≤ 17) (short : text.length < 255) {key : Byte}
    (notEnter : key ≠ lineFeed) :
    ∃ after, appendCommand key shell = some after ∧ Editing before (text ++ [key]) after := by
  obtain ⟨page, reach, displays⟩ := editing.shown
  obtain ⟨console, reach', printing, shown⟩ := displays.put promptCol short notEnter
  have commandLen := editing.commandLen
  refine ⟨⟨console, Function.update shell.commandBuffer shell.commandLen key,
    shell.commandLen + 1⟩, ?_, ?_, ?_, ?_, _, _, shown⟩
  · unfold appendCommand
    rw [storeCommand_of_short (by omega)]
    exact Option.bind_eq_some_iff.mpr ⟨_, rfl,
      Option.bind_eq_some_iff.mpr ⟨console, printing, rfl⟩⟩
  · rw [List.length_append, List.length_singleton]
    omega
  · rw [List.length_append, List.length_singleton, commandLen]
  · intro index inLine
    rw [List.length_append, List.length_singleton] at inLine
    dsimp only
    by_cases last : index = text.length
    · subst last
      rw [commandLen, Function.update_self, List.getElem_concat_length rfl]
    · rw [Function.update_of_ne (by omega), List.getElem_append_left (by omega),
        editing.commandBuffer index (by omega)]

theorem Editing.erase (editing : Editing before text shell)
    (inBuffer : before.cursorRow.toNat < scrollbackRows) (nonempty : text ≠ []) :
    ∃ console, printBackspace shell.console = some console ∧
      Editing before text.dropLast
        { shell with console := console, commandLen := shell.commandLen - 1 } := by
  obtain ⟨page, reach, displays⟩ := editing.shown
  obtain ⟨console, erasing, shown⟩ := displays.erase inBuffer nonempty
  have short := editing.short
  refine ⟨console, erasing, ?_, ?_, ?_, _, _, shown⟩
  · rw [List.length_dropLast]
    omega
  · rw [List.length_dropLast, editing.commandLen]
  · intro index inLine
    rw [List.length_dropLast] at inLine
    rw [List.getElem_dropLast, editing.commandBuffer index (by omega)]

theorem Editing.withConsole (editing : Editing before text shell)
    {move : Console → Option Console}
    (keeps : ∀ {page : Page Cell} {reach console}, Tracks id reach page console →
      ∃ after, move console = some after ∧ Tracks id reach page after) :
    ∃ after, (move shell.console).map (fun console => { shell with console := console }) =
      some after ∧ Editing before text after := by
  obtain ⟨page, reach, displays⟩ := editing.shown
  obtain ⟨console, moved, tracks⟩ := keeps displays.tracks
  rw [moved]
  exact ⟨_, rfl, editing.short, editing.commandLen, editing.commandBuffer, page, reach,
    displays.congr tracks⟩

/-- A key edits the line in the buffer and on the screen alike. -/
theorem Editing.key (editing : Editing before text shell)
    (promptCol : before.cursorCol.toNat ≤ 17)
    (inBuffer : before.cursorRow.toNat < scrollbackRows) {key : Byte}
    (notEnter : key ≠ lineFeed) :
    ∃ after, shellKey key shell = some after ∧ Editing before (editKey text key) after := by
  have commandLen := editing.commandLen
  unfold shellKey editKey
  by_cases nul : key = 0
  · rw [if_pos nul, if_pos (Or.inl nul)]
    exact ⟨shell, rfl, editing⟩
  by_cases up : key = keyUp
  · rw [if_neg nul, if_pos up, if_pos (Or.inr (Or.inl up))]
    exact editing.withConsole Tracks.scrollUp
  by_cases down : key = keyDown
  · rw [if_neg nul, if_neg up, if_pos down, if_pos (Or.inr (Or.inr down))]
    exact editing.withConsole Tracks.scrollDown
  have plain : ¬ (key = 0 ∨ key = keyUp ∨ key = keyDown) :=
    fun any => any.elim nul fun arrow => arrow.elim up down
  rw [if_neg nul, if_neg up, if_neg down, if_neg plain]
  by_cases erases : key = backspace
  · rw [if_pos erases, if_pos erases]
    by_cases empty : text = []
    · subst empty
      rw [if_neg (by rw [commandLen]; exact Nat.lt_irrefl 0)]
      exact ⟨shell, rfl, editing⟩
    · obtain ⟨console, erased, result⟩ := editing.erase inBuffer empty
      have positive := List.length_pos_iff.mpr empty
      rw [if_pos (by omega), erased]
      exact ⟨_, rfl, result⟩
  · rw [if_neg erases, if_neg erases, commandLen,
      show maxCommandLength - 1 = 255 from rfl]
    by_cases room : text.length < 255
    · rw [if_pos room, if_pos room]
      exact editing.append promptCol room notEnter
    · rw [if_neg room, if_neg room]
      exact ⟨shell, rfl, editing⟩

/-- So do all keys up to Enter. -/
theorem Editing.keys (promptCol : before.cursorCol.toNat ≤ 17)
    (inBuffer : before.cursorRow.toNat < scrollbackRows) {keys : List Byte}
    (noEnter : ∀ key ∈ keys, key ≠ lineFeed) (editing : Editing before text shell) :
    ∃ after, shellKeys keys shell = some after ∧
      Editing before (keys.foldl editKey text) after := by
  induction keys generalizing text shell with
  | nil => exact ⟨shell, rfl, editing⟩
  | cons key keys inductionHypothesis =>
      obtain ⟨middle, first, editingMiddle⟩ :=
        editing.key promptCol inBuffer (noEnter key List.mem_cons_self)
      obtain ⟨after, rest, result⟩ := inductionHypothesis
        (fun other member => noEnter other (List.mem_cons_of_mem key member)) editingMiddle
      exact ⟨after, Option.bind_eq_some_iff.mpr ⟨middle, first, rest⟩, result⟩

/-! ### What the screen shows -/

/-- A cell of the page that the buffer has. -/
theorem Displays.cell (displays : Displays before text page reach console) {index : Nat}
    (above : firstRow reach ≤ index / vgaWidth) (below : index / vgaWidth ≤ page.row) :
    console.scrollbackBuffer (index / vgaWidth - firstRow reach) (index % vgaWidth) =
      cellAt vgaWidth page.cells index := by
  have rows : scrollbackRows = 100 := rfl
  have reached := displays.tracks.reached
  have shows := displays.tracks.follows.shows.inside (index / vgaWidth - firstRow reach)
    (by unfold firstRow at *; omega) (index % vgaWidth) (Nat.mod_lt _ (by decide))
  rw [Nat.add_sub_cancel' above] at shows
  exact shows

theorem Displays.lineShown (displays : Displays before text page reach console)
    (promptCol : before.cursorCol.toNat ≤ 17)
    (inBuffer : before.cursorRow.toNat < scrollbackRows) :
    LineShown before console text (firstRow reach) := by
  have rows : scrollbackRows = 100 := rfl
  have width : vgaWidth = 80 := rfl
  have low := displays.low
  have cursor := displays.cursor
  have follows := displays.tracks.follows
  have reached := displays.tracks.reached
  have row := follows.row
  have place : firstRow reach ≤ before.cursorRow.toNat := by
    unfold firstRow
    omega
  have last : (lineStart before + text.length) / vgaWidth = page.row := by
    rw [lineStart, width]
    omega
  refine ⟨place, ?_, ?_, ?_, ?_, ?_⟩
  · unfold firstRow at row
    omega
  · rw [last, row]
  · rw [follows.col, lineStart, width]
    omega
  · intro offset inLine
    have onPage := displays.holds.cells offset (by rw [lineCells, List.length_map]; exact inLine)
    have above : firstRow reach ≤ (lineStart before + offset) / vgaWidth := by
      rw [lineStart, width]
      omega
    have below : (lineStart before + offset) / vgaWidth ≤ page.row := by
      rw [← last]
      exact Nat.div_le_div_right (by omega)
    rw [displays.cell above below, onPage]
    exact List.getElem_map _
  · intro col inPrompt
    have inRow : col < vgaWidth := by omega
    obtain ⟨inThisRow, inThisCol⟩ :=
      (@index_eq_iff vgaWidth before.cursorRow.toNat col inRow _).mpr rfl
    have above : firstRow reach ≤ (before.cursorRow.toNat * vgaWidth + col) / vgaWidth := by
      rw [inThisRow]
      exact place
    have below : (before.cursorRow.toNat * vgaWidth + col) / vgaWidth ≤ page.row := by
      rw [inThisRow]
      omega
    have shown := displays.cell above below
    rw [inThisRow, inThisCol, displays.prompt col inPrompt] at shown
    exact shown

/-- Enter ends the line in the buffer with a NUL. -/
theorem Editing.enter (editing : Editing before text shell) (noNul : ∀ char ∈ text, char ≠ 0) :
    ∃ after, enterCommand shell = some after ∧ Holds after.commandBuffer ⟨text, noNul⟩ := by
  have short := editing.short
  have commandLen := editing.commandLen
  obtain ⟨page, reach, displays⟩ := editing.shown
  obtain ⟨console, printing, _⟩ := displays.tracks.printChar lineFeed colorInput
  refine ⟨⟨console, Function.update shell.commandBuffer shell.commandLen 0, shell.commandLen⟩,
    ?_, ?_⟩
  · unfold enterCommand
    rw [storeCommand_of_short (by omega)]
    refine Option.bind_eq_some_iff.mpr ⟨_, rfl, Option.bind_eq_some_iff.mpr ⟨console, ?_, rfl⟩⟩
    rw [print, if_neg (by decide), printing]
    rfl
  · intro offset inString
    dsimp only
    by_cases last : offset = text.length
    · rw [last, commandLen, Function.update_self]
      exact (CString.image_end ⟨text, noNul⟩).symm
    · have inLine : offset < text.length := by
        dsimp only at inString
        omega
      rw [Function.update_of_ne (by omega), editing.commandBuffer offset inLine]
      exact (CString.image_of_lt ⟨text, noNul⟩ inLine).symm

end Keys

/-! ### The line that runs -/

/-- The keys' line is in the buffer, on the screen, and what Enter hands over. -/
structure LineRuns (before : CommandLine) (keys : List Byte) (after : CommandLine) : Prop where
  short : after.commandLen ≤ 255
  commandLen : after.commandLen = (editedLine keys).length
  commandBuffer : ∀ index, (inLine : index < (editedLine keys).length) →
    after.commandBuffer index = (editedLine keys)[index]
  shown : ∃ up, LineShown before.console after.console (editedLine keys) up
  entered : ∃ command, enterCommand after = some command ∧
    Holds command.commandBuffer (editedCommand keys)

/-- What stands behind the prompt is the command that runs. -/
theorem shown_line_runs {before : CommandLine} (atPrompt : AtPrompt before) {keys : List Byte}
    (noEnter : ∀ key ∈ keys, key ≠ lineFeed) :
    ∃ after, shellKeys keys before = some after ∧ LineRuns before keys after := by
  have promptCol : before.console.cursorCol.toNat ≤ 17 := by
    have col := atPrompt.col
    omega
  have inBuffer : before.console.cursorRow.toNat < scrollbackRows := by
    have row := atPrompt.row
    omega
  obtain ⟨after, typed, editing⟩ := atPrompt.editing.keys promptCol inBuffer noEnter
  obtain ⟨page, reach, displays⟩ := editing.shown
  exact ⟨after, typed, editing.commandLen ▸ editing.short, editing.commandLen,
    editing.commandBuffer, ⟨_, displays.lineShown promptCol inBuffer⟩,
    editing.enter (editedLine_noNul keys)⟩

/-- A prompt of four characters in the buffer's last row. -/
def lastRowPrompt : CommandLine where
  console := ⟨99, 4, 99, 75, fun _ _ => blankCell, fun _ _ => blankCell, 0⟩
  commandBuffer := fun _ => 0
  commandLen := 0

/-- A line there that wraps, so that the buffer scrolls. -/
theorem shown_line_runs_lastRow :
    ∃ after, shellKeys (List.replicate 90 0x61 ++ [backspace]) lastRowPrompt = some after ∧
      LineRuns lastRowPrompt (List.replicate 90 0x61 ++ [backspace]) after := by
  refine shown_line_runs (by constructor <;> decide) (List.forall_mem_append.mpr ⟨?_, by decide⟩)
  intro key member
  rw [List.eq_of_mem_replicate member]
  decide

end BrainDance.Shell
