import BrainDance.Shell.Calls
import BrainDance.Shell.Effects

/-!
Owns that the shell is the terminal: every run of the shell, key after key and command after
command, is a run of the terminal on the same events, the screen shows the text and the line,
and the files are the same.
-/

namespace BrainDance.Shell

open BrainDance.Foundation
open BrainDance.Libc
open BrainDance.Exec
open BrainDance.Fs.Bdfs
open BrainDance.App.Cable
open BrainDance.Drivers

/-! ### Texts -/

section Texts

variable {fuel : Nat} {occasion : Occasion} {view after : View}

theorem performView_text (call : BdxCall) :
    Follows (fun view shown => view = shown ∧ view.printed.isSome)
      (fun view shown => view = shown ∧ view.printed.isSome) (performView call)
      (performView call) := by
  rintro view _ after ⟨rfl, known⟩ done
  refine ⟨after, done, rfl, ?_⟩
  cases call with
  | print str =>
      obtain rfl := Option.some.inj done
      rwa [View.prints, Option.isSome_map]
  | writeFile path data len =>
      obtain ⟨result, _, rfl⟩ := Option.map_eq_some_iff.mp done
      exact known

theorem executeView_text {stack : Image} {path : CString} (known : view.printed.isSome)
    (done : executeView fuel stack path view = some after) : after.printed.isSome := by
  unfold executeView at done
  split at done
  · contradiction
  · exact Option.some.inj done ▸ known
  · split at done
    · obtain ⟨_, _, _, text⟩ :=
        interpretBdx_follows performView_text _ _ _ view view after ⟨rfl, known⟩ done
      exact text
    · contradiction

/-- A call that does not draw over a text leaves one. -/
theorem effect_text {call : Call} (keeps : ¬ call.Draws) (known : view.printed.isSome)
    (done : call.effect fuel occasion view = some after) : after.printed.isSome := by
  have reported (told : (call.report occasion.toSurroundings view.fileSystem).map (tellReport view) =
      some after) : after.printed.isSome := by
    obtain ⟨report, _, rfl⟩ := Option.map_eq_some_iff.mp told
    rwa [tellReport, View.prints, Option.isSome_map]
  cases call with
  | clear => exact Option.some.inj done ▸ rfl
  | clearScreen color => exact Option.some.inj done ▸ rfl
  | cableMain filename => exact absurd trivial keeps
  | executeBdx path => exact executeView_text known done
  | _ => exact reported done

theorem effects_text {calls : List Call} (leave : LeaveText calls) (known : view.printed.isSome)
    (done : calls.foldlM (Call.effect fuel occasion) view = some after) :
    after.printed.isSome := by
  rcases leave with keep | ⟨filename, rfl⟩
  · induction calls generalizing view with
    | nil => exact Option.some.inj done ▸ known
    | cons call calls inductionHypothesis =>
        obtain ⟨keeps, others⟩ := List.forall_mem_cons.mp keep
        rw [List.foldlM_cons] at done
        obtain ⟨middle, first, rest⟩ := Option.bind_eq_some_iff.mp done
        exact inductionHypothesis (effect_text keeps known first) rest others
  · rw [List.foldlM_cons] at done
    obtain ⟨edited, _, rest⟩ := Option.bind_eq_some_iff.mp done
    rw [List.foldlM_cons] at rest
    obtain ⟨cleared, clears, same⟩ := Option.bind_eq_some_iff.mp rest
    obtain rfl := Option.some.inj clears
    exact Option.some.inj same ▸ rfl

end Texts

/-! ### The session -/

/-- The screen shows the text and the line, and the command buffer holds the line. -/
structure ShowsTerminal (session : Session) (terminal : Terminal) : Prop where
  screen : Transcribes terminal.printed terminal.line.bytes session.shell.console
  commandLen : session.shell.commandLen = strlen terminal.line
  commandBuffer : ShowsBytes session.shell.commandBuffer terminal.line.bytes
  short : strlen terminal.line < maxCommandLength
  oneLine : ∀ c ∈ terminal.line.bytes, c ≠ lineFeed
  files : session.fileSystem = terminal.fileSystem
  editor : session.editor = terminal.editor

section Keys

variable {session : Session} {shown : Terminal}

/-- The line is the same, the console another. -/
theorem ShowsTerminal.withConsole (shows : ShowsTerminal session shown) {console : Console}
    (screen : Transcribes shown.printed shown.line.bytes console) :
    ShowsTerminal { session with shell := { session.shell with console := console } } shown :=
  ⟨screen, shows.commandLen, shows.commandBuffer, shows.short, shows.oneLine, shows.files,
    shows.editor⟩

theorem editCommand_idle {line : CString} {key : Byte}
    (idle : editKey line.bytes key = line.bytes) : editCommand line key = line :=
  CString.ext idle

/-- A character goes to the end of the line. -/
theorem ShowsTerminal.typed (shows : ShowsTerminal session shown) {key : Byte}
    (room : strlen shown.line < 255) (notFeed : key ≠ lineFeed) {line : CString}
    (longer : line.bytes = shown.line.bytes ++ [key]) :
    ∃ shell, appendCommand key session.shell = some shell ∧
      ShowsTerminal { session with shell := shell } { shown with line := line } := by
  have limit : lineLimit = 256 := rfl
  have length : maxCommandLength = 256 := rfl
  have commandLen := shows.commandLen
  have size : strlen line = strlen shown.line + 1 := by
    rw [strlen, longer, List.length_append, List.length_singleton, strlen]
  rw [strlen] at room commandLen
  obtain ⟨console, printing, screen⟩ := shows.screen.typed shows.oneLine (by omega) notFeed colorInput
  have buffer := showsBytes_update shows.commandBuffer key
  rw [← longer] at screen buffer
  refine ⟨⟨console, Function.update session.shell.commandBuffer session.shell.commandLen key,
    session.shell.commandLen + 1⟩, ?_, screen, ?_, ?_, ?_, ?_, shows.files, shows.editor⟩
  · unfold appendCommand
    rw [storeCommand_of_short (by omega)]
    exact Option.bind_eq_some_iff.mpr ⟨_, rfl,
      Option.bind_eq_some_iff.mpr ⟨console, printing, rfl⟩⟩
  · rw [size, strlen, ← commandLen]
  · rw [commandLen]
    exact buffer
  · rw [size, strlen]
    omega
  · rw [longer]
    exact List.forall_mem_append.mpr ⟨shows.oneLine, List.forall_mem_singleton.mpr notFeed⟩

/-- A backspace takes the last character. -/
theorem ShowsTerminal.erased (shows : ShowsTerminal session shown) {line : CString} {last : Byte}
    (shorter : shown.line.bytes = line.bytes ++ [last]) :
    ∃ console, printBackspace session.shell.console = some console ∧
      ShowsTerminal { session with shell := { session.shell with
        console := console, commandLen := session.shell.commandLen - 1 } }
        { shown with line := line } := by
  have screen := shows.screen
  have oneLine := shows.oneLine
  have buffer := shows.commandBuffer
  have commandLen := shows.commandLen
  have short := shows.short
  rw [strlen, shorter, List.length_append, List.length_singleton] at short commandLen
  rw [shorter] at screen oneLine buffer
  obtain ⟨others, notFeed⟩ := List.forall_mem_append.mp oneLine
  obtain ⟨console, erasing, after⟩ := screen.erase (notFeed last (List.mem_singleton_self last))
  refine ⟨console, erasing, after, ?_, ?_, ?_, others, shows.files, shows.editor⟩
  · show session.shell.commandLen - 1 = line.bytes.length
    omega
  · rw [showsBytes_iff] at buffer ⊢
    intro offset inside
    have before : offset < line.bytes.length := inside
    rw [buffer offset (by rw [List.length_append]; omega), List.getElem_append_left before]
  · show line.bytes.length < maxCommandLength
    omega

/-- A key does the same to both. -/
theorem ShowsTerminal.key (shows : ShowsTerminal session shown) {key : Byte}
    (notFeed : key ≠ lineFeed) :
    ∃ shell, shellKey key session.shell = some shell ∧
      ShowsTerminal { session with shell := shell }
        { shown with line := editCommand shown.line key } := by
  have idle (same : editKey shown.line.bytes key = shown.line.bytes) {shell : CommandLine}
      (showsShell : ShowsTerminal { session with shell := shell } shown) :
      ShowsTerminal { session with shell := shell }
        { shown with line := editCommand shown.line key } := by
    rw [editCommand_idle same]
    exact showsShell
  have commandLen := shows.commandLen
  unfold shellKey
  by_cases nul : key = 0
  · rw [if_pos nul]
    exact ⟨_, rfl, idle (if_pos (.inl nul)) shows⟩
  rw [if_neg nul]
  by_cases up : key = keyUp
  · obtain ⟨console, moved, screen⟩ := shows.screen.scrollUp
    rw [if_pos up, moved]
    exact ⟨_, rfl, idle (if_pos (.inr (.inl up))) (shows.withConsole screen)⟩
  rw [if_neg up]
  by_cases down : key = keyDown
  · obtain ⟨console, moved, screen⟩ := shows.screen.scrollDown
    rw [if_pos down, moved]
    exact ⟨_, rfl, idle (if_pos (.inr (.inr down))) (shows.withConsole screen)⟩
  rw [if_neg down]
  have plain : ¬ (key = 0 ∨ key = keyUp ∨ key = keyDown) :=
    fun any => any.elim nul fun arrow => arrow.elim up down
  have edits : editKey shown.line.bytes key = if key = backspace then shown.line.bytes.dropLast
      else if shown.line.bytes.length < 255 then shown.line.bytes ++ [key]
      else shown.line.bytes := if_neg plain
  by_cases erases : key = backspace
  · rw [if_pos erases] at edits ⊢
    by_cases empty : shown.line.bytes = []
    · rw [if_neg (by rw [commandLen, strlen, empty]; exact Nat.lt_irrefl 0)]
      exact ⟨_, rfl, idle (by rw [edits, empty]; rfl) shows⟩
    · have positive := List.length_pos_iff.mpr empty
      have shorter : shown.line.bytes =
          (editCommand shown.line key).bytes ++ [shown.line.bytes.getLast empty] := by
        show _ = editKey shown.line.bytes key ++ _
        rw [edits, List.dropLast_concat_getLast]
      obtain ⟨console, erasing, after⟩ := shows.erased shorter
      rw [if_pos (by rw [commandLen]; exact positive), erasing]
      exact ⟨_, rfl, after⟩
  · rw [if_neg erases] at edits ⊢
    rw [commandLen, show maxCommandLength - 1 = 255 from rfl]
    by_cases room : strlen shown.line < 255
    · rw [if_pos room]
      exact shows.typed room notFeed (edits.trans (if_pos room))
    · rw [if_neg room]
      exact ⟨_, rfl, idle (edits.trans (if_neg room)) shows⟩

end Keys

/-! ### Enter -/

section Enter

variable {session : Session} {shown : Terminal}

theorem newline_prints : Prints [lineFeed] (print [lineFeed, 0] colorInput) :=
  print_prints colorInput (by decide)

/-- Enter ends the line in the command buffer and puts it into the text. -/
theorem ShowsTerminal.entered (shows : ShowsTerminal session shown) :
    ∃ entered, enterCommand session.shell = some entered ∧
      scanString entered.commandBuffer maxCommandLength 0 = some shown.line ∧
        Transcribes (shown.printed ++ shown.line.bytes ++ [lineFeed]) [] entered.console := by
  have length : maxCommandLength = 256 := rfl
  have commandLen := shows.commandLen
  have short := shows.short
  obtain ⟨console, printing, screen⟩ := newline_prints _ _ shows.screen.commit
  have buffer := showsBytes_update shows.commandBuffer 0
  rw [← strlen, ← commandLen] at buffer
  have holds : Holds (Function.update session.shell.commandBuffer session.shell.commandLen 0)
      shown.line := holds_iff_showsBytes.mpr buffer
  refine ⟨⟨console, Function.update session.shell.commandBuffer session.shell.commandLen 0,
    session.shell.commandLen⟩, ?_, ?_, screen⟩
  · unfold enterCommand
    rw [storeCommand_of_short (by omega)]
    exact Option.bind_eq_some_iff.mpr ⟨_, rfl,
      Option.bind_eq_some_iff.mpr ⟨console, printing, rfl⟩⟩
  · refine scanString_of_shown (fun offset inString => ?_) short
    rw [Nat.zero_add]
    exact holds offset inString

theorem prompt_prints (dirName : CString) :
    Prints (dirName.bytes ++ asciiBytes "> ".toList)
      (printAll [.print dirName colorPrompt, .print (message "> ") colorPrompt]) := by
  have text : outputText [.print dirName colorPrompt, .print (message "> ") colorPrompt] =
      dirName.bytes ++ asciiBytes "> ".toList := by
    simp [outputText, PrintCall.text, message, asciiBytes]
  rw [← text]
  exact printAll_prints _

theorem printPrompt_shows {kernel : Kernel} {console : Console} {printed : List Byte}
    (screen : Transcribes printed [] kernel.console)
    (done : printPrompt kernel = some console) :
    ∃ prompt, promptText kernel.fileSystem = some prompt ∧
      Transcribes (printed ++ prompt) [] console := by
  obtain ⟨dirName, named, done⟩ := Option.bind_eq_some_iff.mp done
  split at done
  · obtain ⟨after, ran, transcribes⟩ := prompt_prints dirName printed _ screen
    rw [done] at ran
    obtain rfl := Option.some.inj ran
    exact ⟨_, Option.map_eq_some_iff.mpr ⟨dirName, named, rfl⟩, transcribes⟩
  · contradiction

theorem printPrompt_isSome {kernel : Kernel} {printed : List Byte}
    (screen : Transcribes printed [] kernel.console)
    (reachable : system.Reachable kernel.fileSystem) :
    ∃ console, printPrompt kernel = some console := by
  obtain ⟨dirName, named, fits⟩ := currentDirName_of_reachable reachable
  obtain ⟨console, ran, _⟩ := prompt_prints dirName _ _ screen
  exact ⟨console, Option.bind_eq_some_iff.mpr ⟨dirName, named, by rw [if_pos fits, ran]⟩⟩

/-- The shell at a prompt is the terminal with an empty line. -/
theorem showsTerminal_prompt {console : Console} {commandBuffer : Image} {fs : FileSystem}
    {editor : EditorState} {printed : List Byte} (screen : Transcribes printed [] console) :
    ShowsTerminal ⟨⟨console, commandBuffer, 0⟩, fs, editor⟩
      ⟨printed, CString.nil, fs, editor⟩ :=
  ⟨screen, rfl, rfl, Nat.zero_lt_succ _, List.forall_mem_nil _, rfl, rfl⟩

/-- A command of the shell is one of the terminal. -/
theorem ShowsTerminal.enter {after : Session} {fuel : Nat} {occasion : Occasion}
    (shows : ShowsTerminal session shown) (done : session.enter fuel occasion = some after) :
    ∃ final, shown.enter fuel occasion = some final ∧ ShowsTerminal after final := by
  obtain ⟨entered, entering, scanned, screen⟩ := shows.entered
  unfold Session.enter at done
  rw [entering, Option.bind_eq_bind, Option.bind_some, scanned, Option.bind_eq_bind,
    Option.bind_some, processLine_eq occasion _ shows.short, shows.files, shows.editor] at done
  obtain ⟨calls, called, done⟩ := Option.bind_eq_some_iff.mp done
  obtain ⟨machine, performed, done⟩ := Option.bind_eq_some_iff.mp done
  obtain ⟨console, prompting, same⟩ := Option.bind_eq_some_iff.mp done
  obtain rfl := Option.some.inj same
  have start : ShowsView (shown.editor, ⟨entered.console, shown.fileSystem⟩)
      ⟨some (shown.printed ++ shown.line.bytes ++ [lineFeed]), shown.fileSystem, shown.editor⟩ :=
    ⟨fun printed known => Option.some.inj known ▸ screen, rfl, rfl⟩
  obtain ⟨view, effects, showsView⟩ :=
    Follows.foldlM (fun call _ => perform_follows call) _ _ _ start performed
  have leave : LeaveText calls :=
    lineCalls_kind called (handlers_leaveText _) (otherCalls_leaveText _ _)
  obtain ⟨printed, known⟩ := Option.isSome_iff_exists.mp (effects_text leave rfl effects)
  obtain ⟨prompt, promptIs, showsPrompt⟩ :=
    printPrompt_shows (showsView.text printed known) prompting
  rw [showsView.files] at promptIs
  refine ⟨⟨printed ++ prompt, CString.nil, view.fileSystem, view.editor⟩, ?_, ?_⟩
  · unfold Terminal.enter
    simp only [Option.bind_eq_bind, called, effects, known, promptIs, Option.bind_some]
  · rw [← showsView.files, ← showsView.editor]
    exact showsTerminal_prompt showsPrompt

/-- The shell starts as the terminal does. -/
theorem showsTerminal_start (initial : shellSession.Init session) :
    ∃ first, terminal.Init first ∧ ShowsTerminal session first := by
  obtain ⟨booted, messages, empty, screen, files, started⟩ := initial
  obtain ⟨welcomed, welcoming, started⟩ := Option.bind_eq_some_iff.mp started
  obtain ⟨console, prompting, same⟩ := Option.bind_eq_some_iff.mp started
  obtain rfl := Option.some.inj same
  have welcome : outputText [.print (message "Welcome to BrainDance OS\n") colorPrompt] =
      asciiBytes "Welcome to BrainDance OS\n".toList := by
    simp [outputText, PrintCall.text, message, asciiBytes]
  obtain ⟨welcomed', welcoming', showsWelcome⟩ := printAll_prints _ _ _ screen
  rw [welcoming] at welcoming'
  obtain rfl := Option.some.inj welcoming'
  rw [welcome] at showsWelcome
  obtain ⟨prompt, promptIs, showsPrompt⟩ := printPrompt_shows showsWelcome prompting
  refine ⟨⟨_, CString.nil, booted.fileSystem, booted.editor⟩,
    ⟨rfl, files, messages, prompt, promptIs, rfl⟩, ?_⟩
  obtain ⟨⟨booted, commandBuffer, commandLen⟩, fs, editor⟩ := booted
  obtain rfl : commandLen = 0 := empty
  exact showsTerminal_prompt showsPrompt

theorem startShell_isSome {booted : Session} {messages : List Byte}
    (screen : Transcribes messages [] booted.shell.console)
    (reachable : system.Reachable booted.fileSystem) :
    ∃ session, startShell booted = some session := by
  obtain ⟨welcomed, welcoming, shows⟩ := printAll_prints
    [.print (message "Welcome to BrainDance OS\n") colorPrompt] _ _ screen
  obtain ⟨console, prompting⟩ :=
    @printPrompt_isSome ⟨welcomed, booted.fileSystem⟩ _ shows reachable
  exact ⟨_, Option.bind_eq_some_iff.mpr ⟨welcomed, welcoming,
    Option.bind_eq_some_iff.mpr ⟨console, prompting, rfl⟩⟩⟩

/-- The shell on a cleared screen. -/
theorem newSession_exists : ∃ session, shellSession.Init session ∧
    session.fileSystem = freshFileSystem := by
  obtain ⟨console, _, screen⟩ := clearScreen_transcribes 0x07 newKernel.console
  obtain ⟨session, started⟩ := @startShell_isSome
    ⟨⟨console, fun _ => 0, 0⟩, freshFileSystem, emptyEditor⟩ _ screen (.init freshFileSystem_init)
  obtain ⟨welcomed, _, rest⟩ := Option.bind_eq_some_iff.mp started
  obtain ⟨prompted, _, same⟩ := Option.bind_eq_some_iff.mp rest
  exact ⟨session, ⟨_, _, rfl, screen, freshFileSystem_init, started⟩,
    Option.some.inj same ▸ rfl⟩

end Enter

/-- The screen shows the text as far as the buffer has rows, and the cursor stands where the
text ends. -/
def ScreenShows (text : List Byte) (console : Console) : Prop :=
  ∃ first : Nat, console.cursorRow + first = (textPage text).row ∧
    console.cursorCol = (textPage text).col ∧
    ∀ row < vgaHeight, ∀ col < vgaWidth, console.viewRow + row < scrollbackRows →
      (console.vga row col).char =
        (textPage text).cells (first + (console.viewRow + row).toNat) col

theorem shellStep_follows {session after : Session} {event : SessionEvent} {shown : Terminal}
    (shows : ShowsTerminal session shown) (step : shellSession.Step session event after) :
    ∃ next, terminal.Step shown event next ∧ ShowsTerminal after next := by
  cases event with
  | key c =>
      obtain ⟨notFeed, moved⟩ := step
      obtain ⟨shell, done, showsAfter⟩ := shows.key notFeed
      rw [done] at moved
      obtain rfl := Option.some.inj moved
      exact ⟨_, ⟨notFeed, rfl⟩, showsAfter⟩
  | enter occasion =>
      obtain ⟨fuel, done⟩ := step
      obtain ⟨final, entered, showsAfter⟩ := shows.enter done
      exact ⟨final, ⟨fuel, entered⟩, showsAfter⟩

/-- Keys other than Enter are all taken, and edit the line. -/
theorem ShowsTerminal.keys {session : Session} {shown : Terminal}
    (shows : ShowsTerminal session shown) {keys : List Byte}
    (noEnter : ∀ key ∈ keys, key ≠ lineFeed) :
    ∃ last, shellSession.Run session (keys.map .key) last ∧
      ShowsTerminal last { shown with line := keys.foldl editCommand shown.line } := by
  induction keys generalizing session shown with
  | nil => exact ⟨session, .nil session, shows⟩
  | cons key keys inductionHypothesis =>
      obtain ⟨notFeed, others⟩ := List.forall_mem_cons.mp noEnter
      obtain ⟨shell, taken, showsNext⟩ := shows.key notFeed
      obtain ⟨last, run, showsLast⟩ := inductionHypothesis showsNext others
      exact ⟨last, .cons ⟨notFeed, by rw [taken, Option.map_some]⟩ run, showsLast⟩

end BrainDance.Shell
