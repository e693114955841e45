import BrainDance.Fs.Bdfs.Landing
import BrainDance.Libc.Edits
import BrainDance.Shell.Progress

/-!
Owns lines typed at a prompt: the keys of a line and Enter, the calls of a few lines, and what
a line leaves whose one call reports. With them stand the results on whole sessions, which
refine the terminal and come back to the prompt wherever the calls of a line return, and on
what a user sees of a file: the characters typed behind `write` and a name are the ones that
`cat` and the name print, unless the shell takes them for keys.
-/

namespace BrainDance.Shell

open BrainDance.Foundation
open BrainDance.Drivers
open BrainDance.Libc
open BrainDance.Memory
open BrainDance.Fs.Bdfs
open BrainDance.App.Cable

/-! ### Typing -/

/-- The shell takes the character for text: it is not NUL, not an arrow's scancode, not a
backspace and not Enter. -/
def IsText (c : Byte) : Prop := c ≠ 0 ∧ c ≠ keyUp ∧ c ≠ keyDown ∧ c ≠ backspace ∧ c ≠ lineFeed

instance (c : Byte) : Decidable (IsText c) := inferInstanceAs (Decidable (_ ∧ _))

/-- The keys of a line and Enter. -/
def typeLine (line : CString) (occasion : Occasion) : List SessionEvent :=
  line.bytes.map .key ++ [.enter occasion]

section Typing

variable {shown final : Terminal} {line : CString}

theorem editKey_of_text {text : List Byte} {c : Byte} (isText : IsText c)
    (room : text.length < 255) : editKey text c = text ++ [c] := by
  obtain ⟨notNul, notUp, notDown, notBackspace, _⟩ := isText
  have plain : ¬ (c = 0 ∨ c = keyUp ∨ c = keyDown) :=
    fun any => any.elim notNul fun arrow => arrow.elim notUp notDown
  rw [editKey, if_neg plain, if_neg notBackspace, if_pos room]

/-- Text that fits goes to the end of the line. -/
theorem editCommands_text {text : List Byte} (isText : ∀ c ∈ text, IsText c) (line : CString)
    (fits : strlen line + text.length ≤ 255) :
    (text.foldl editCommand line).bytes = line.bytes ++ text := by
  induction text generalizing line with
  | nil => rw [List.foldl_nil, List.append_nil]
  | cons c text inductionHypothesis =>
      obtain ⟨first, others⟩ := List.forall_mem_cons.mp isText
      rw [strlen, List.length_cons] at fits
      have typed : (editCommand line c).bytes = line.bytes ++ [c] :=
        editKey_of_text first (by omega)
      rw [List.foldl_cons, inductionHypothesis others _ (by
        rw [strlen, typed, List.length_append, List.length_singleton]
        omega), typed, List.append_assoc]
      rfl

theorem typed_line (isText : ∀ c ∈ line.bytes, IsText c) (short : strlen line < maxCommandLength) :
    line.bytes.foldl editCommand CString.nil = line :=
  CString.ext (editCommands_text isText CString.nil (by
    have length : maxCommandLength = 256 := rfl
    show 0 + line.bytes.length ≤ 255
    rw [strlen] at short
    omega))

/-- The keys do to the terminal's line what they do to its characters. -/
theorem terminal_keys {keys : List Byte} (run : terminal.Run shown (keys.map .key) final) :
    final = { shown with line := keys.foldl editCommand shown.line } := by
  induction keys generalizing shown with
  | nil =>
      cases run
      rfl
  | cons key keys inductionHypothesis =>
      cases run with
      | cons step rest =>
          obtain ⟨_, rfl⟩ := step
          exact inductionHypothesis rest

/-- A line typed at a prompt is the line entered. -/
theorem terminal_typeLine {occasion : Occasion} (isText : ∀ c ∈ line.bytes, IsText c)
    (short : strlen line < maxCommandLength) (atPrompt : shown.line = CString.nil)
    (run : terminal.Run shown (typeLine line occasion) final) :
    ∃ fuel, { shown with line := line }.enter fuel occasion = some final := by
  obtain ⟨middle, typed, entered⟩ := run.split
  have edited := terminal_keys typed
  rw [atPrompt, typed_line isText short] at edited
  cases entered with
  | cons step rest =>
      cases rest
      obtain ⟨fuel, done⟩ := step
      exact ⟨fuel, edited ▸ done⟩

end Typing

/-! ### The two lines -/

/-- A name that can be typed as one word. -/
structure IsWord (name : CString) : Prop where
  nonempty : name.bytes ≠ []
  oneWord : ∀ c ∈ name.bytes, c ≠ 0x20
  isText : ∀ c ∈ name.bytes, IsText c

/-- `write`, the name and the data. -/
def writeLine (name data : CString) : CString :=
  (message "write ").append (name.append (blank.append data))

/-- `cat` and the name. -/
def catLine (name : CString) : CString := (message "cat ").append name

section Lines

variable {name data : CString} {executeBdx : CString → Int}

theorem delimits_blank (c : Byte) : isDelimiter blank c = true ↔ c = 0x20 := by
  simp [isDelimiter_iff, blank, literal, asciiBytes]

theorem word_free {word : CString} (oneWord : ∀ c ∈ word.bytes, c ≠ 0x20) :
    ∀ c ∈ word.bytes, isDelimiter blank c = false := by
  intro c member
  rw [Bool.eq_false_iff, Ne, delimits_blank]
  exact oneWord c member

/-- The first word of a line that goes on behind it. -/
theorem nextWord_joined {word rest : CString} (nonempty : word.bytes ≠ [])
    (oneWord : ∀ c ∈ word.bytes, c ≠ 0x20) {text : CString}
    (split : text.bytes = word.bytes ++ 0x20 :: rest.bytes) :
    nextWord text = some (word, rest) := by
  have run : nextRun (isDelimiter blank) text.bytes = some (word.bytes, rest.bytes) := by
    rw [split]
    exact nextRun_append nonempty (word_free oneWord) ((delimits_blank _).mpr rfl)
  cases found : nextWord text with
  | none => simp [nextWord_eq_none found] at run
  | some pair =>
      obtain ⟨first, behind⟩ := pair
      obtain ⟨same, sameRest⟩ :=
        Prod.mk.inj (Option.some.inj ((nextWord_eq_some found).symm.trans run))
      rw [CString.ext same, CString.ext sameRest]

theorem nextWord_word {word : CString} (nonempty : word.bytes ≠ [])
    (oneWord : ∀ c ∈ word.bytes, c ≠ 0x20) : nextWord word = some (word, CString.nil) := by
  have run := nextRun_self nonempty (word_free oneWord)
  cases found : nextWord word with
  | none => simp [nextWord_eq_none found] at run
  | some pair =>
      obtain ⟨first, behind⟩ := pair
      obtain ⟨same, sameRest⟩ :=
        Prod.mk.inj (Option.some.inj ((nextWord_eq_some found).symm.trans run))
      rw [CString.ext same, @CString.ext behind CString.nil sameRest]

theorem lineCalls_writeLine (isWord : IsWord name) (nonempty : data.bytes ≠ []) :
    lineCalls executeBdx (writeLine name data) = some [.write name data] := by
  have command : nextWord (writeLine name data) =
      some (literal "write".toList, name.append (blank.append data)) :=
    nextWord_joined (by decide) (by decide) rfl
  have argument : nextWord (name.append (blank.append data)) = some (name, data) :=
    nextWord_joined isWord.nonempty isWord.oneWord rfl
  have branch : (handlers.find? fun entry => entry.1 = literal "write".toList) =
      some (literal "write".toList,
        .wordAndRest .write (literal "Usage: write <filename> <data>\n".toList)) := rfl
  rw [lineCalls, command, Option.map_some, branch]
  dsimp only
  rw [Handler.calls, argument]
  dsimp only
  rw [if_neg nonempty]

theorem lineCalls_catLine (isWord : IsWord name) :
    lineCalls executeBdx (catLine name) = some [.cat name] := by
  have command : nextWord (catLine name) = some (literal "cat".toList, name) :=
    nextWord_joined (by decide) (by decide) rfl
  have branch : (handlers.find? fun entry => entry.1 = literal "cat".toList) =
      some (literal "cat".toList,
        .word (fun token => [.cat token]) (literal "Usage: cat <filename>\n".toList)) := rfl
  rw [lineCalls, command, Option.map_some, branch]
  dsimp only
  rw [Handler.calls, nextWord_word isWord.nonempty isWord.oneWord]

theorem writeLine_isText (isWord : IsWord name) (isText : ∀ c ∈ data.bytes, IsText c) :
    ∀ c ∈ (writeLine name data).bytes, IsText c := by
  have front : ∀ c ∈ (message "write ").bytes, IsText c := by decide
  have between : ∀ c ∈ blank.bytes, IsText c := by decide
  simp only [writeLine, CString.append, List.forall_mem_append]
  exact ⟨front, isWord.isText, between, isText⟩

theorem catLine_isText (isWord : IsWord name) : ∀ c ∈ (catLine name).bytes, IsText c := by
  have front : ∀ c ∈ (message "cat ").bytes, IsText c := by decide
  simp only [catLine, CString.append, List.forall_mem_append]
  exact ⟨front, isWord.isText⟩

theorem writeLine_length (name data : CString) :
    strlen (writeLine name data) = strlen name + strlen data + 7 := by
  have front : (message "write ").bytes.length = 6 := rfl
  have between : blank.bytes.length = 1 := rfl
  simp only [strlen, writeLine, CString.append, List.length_append, front, between]
  omega

theorem catLine_length (name : CString) : strlen (catLine name) = strlen name + 4 := by
  have front : (message "cat ").bytes.length = 4 := rfl
  simp only [strlen, catLine, CString.append, List.length_append, front]
  omega

end Lines

/-! ### Entering them -/

section Entering

variable {session : Session} {shown final : Terminal} {line name data : CString}
  {occasion : Occasion}

/-- A line typed at a prompt whose one call reports. -/
theorem terminal_reports {call : Call} {report : Report} {prompt : List Byte}
    (isText : ∀ c ∈ line.bytes, IsText c) (short : strlen line < maxCommandLength)
    (atPrompt : shown.line = CString.nil)
    (called : lineCalls (bdxResult shown.fileSystem) line = some [call])
    (reports : ∀ fuel view, call.effect fuel occasion view =
      (call.report occasion.toSurroundings view.fileSystem).map (tellReport view))
    (told : call.report occasion.toSurroundings shown.fileSystem = some report)
    (promptIs : promptText report.2 = some prompt)
    (run : terminal.Run shown (typeLine line occasion) final) :
    final = ⟨shown.printed ++ line.bytes ++ [lineFeed] ++ outputText report.1 ++ prompt,
      CString.nil, report.2, shown.editor⟩ := by
  obtain ⟨fuel, done⟩ := terminal_typeLine isText short atPrompt run
  have effects (view : View) : [call].foldlM (Call.effect fuel occasion) view =
      (call.report occasion.toSurroundings view.fileSystem).map (tellReport view) := by
    rw [List.foldlM_cons, reports]
    exact Option.bind_fun_some _
  unfold Terminal.enter at done
  simp only [Option.bind_eq_bind, called, Option.bind_some, effects, told, Option.map_some,
    tellReport, View.prints, promptIs] at done
  exact (Option.some.inj done).symm

theorem promptText_isSome {fs : FileSystem} (reachable : system.Reachable fs) :
    ∃ prompt, promptText fs = some prompt := by
  obtain ⟨dirName, named, _⟩ := currentDirName_of_reachable reachable
  exact ⟨_, Option.map_eq_some_iff.mpr ⟨dirName, named, rfl⟩⟩

/-- A line whose one call returns can be typed and entered. -/
theorem typeLine_returns {call : Call} (shows : ShowsTerminal session shown)
    (reachable : system.Reachable shown.fileSystem) (atPrompt : shown.line = CString.nil)
    (isText : ∀ c ∈ line.bytes, IsText c) (short : strlen line < maxCommandLength)
    (called : lineCalls (bdxResult shown.fileSystem) line = some [call]) (plain : ¬ call.Runs)
    (returns : call.Returns occasion.toSurroundings shown.fileSystem) :
    ∃ after, shellSession.Run session (typeLine line occasion) after := by
  obtain ⟨typed, run, showsTyped⟩ := shows.keys fun c member => (isText c member).2.2.2.2
  rw [atPrompt, typed_line isText short] at showsTyped
  have files : typed.fileSystem = shown.fileSystem := showsTyped.files
  have one : ∀ calls, lineOf typed line = some calls → calls = [call] := by
    intro calls same
    rw [lineOf, files, called] at same
    exact (Option.some.inj same).symm
  obtain ⟨after, entered⟩ := (@ShowsTerminal.enter_returns_iff _ _ 0 occasion showsTyped reachable
    fun calls same other member => by
      rw [one calls same, List.mem_singleton] at member
      exact member ▸ plain).mpr ⟨[call], by rw [lineOf, files]; exact called, by
        rw [files]
        exact List.forall_mem_singleton.mpr returns⟩
  exact ⟨after, run.append (.cons ⟨0, entered⟩ (.nil after))⟩

/-- The text that it leaves. -/
theorem typeLine_reports {call : Call} {report : Report} {prompt : List Byte}
    (shows : ShowsTerminal session shown) (reachable : system.Reachable shown.fileSystem)
    (atPrompt : shown.line = CString.nil) (isText : ∀ c ∈ line.bytes, IsText c)
    (short : strlen line < maxCommandLength)
    (called : lineCalls (bdxResult shown.fileSystem) line = some [call]) (plain : ¬ call.Runs)
    (returns : call.Returns occasion.toSurroundings shown.fileSystem)
    (reports : ∀ fuel view, call.effect fuel occasion view =
      (call.report occasion.toSurroundings view.fileSystem).map (tellReport view))
    (told : call.report occasion.toSurroundings shown.fileSystem = some report)
    (promptIs : promptText report.2 = some prompt) :
    ∃ after, shellSession.Run session (typeLine line occasion) after ∧
      ShowsTerminal after ⟨shown.printed ++ line.bytes ++ [lineFeed] ++ outputText report.1 ++
        prompt, CString.nil, report.2, shown.editor⟩ := by
  obtain ⟨after, run⟩ := typeLine_returns shows reachable atPrompt isText short called plain returns
  obtain ⟨final, followed, showsAfter⟩ := run.refines ShowsTerminal
    (fun _ _ _ _ related step => shellStep_follows related step) shows
  obtain rfl := terminal_reports isText short atPrompt called reports told promptIs followed
  exact ⟨after, run, showsAfter⟩

/-- The session is at a prompt and has these files. -/
def Prompting (session : Session) (fs : FileSystem) : Prop :=
  ∃ shown, ShowsTerminal session shown ∧ shown.line = CString.nil ∧ shown.fileSystem = fs

/-- A line whose one call is an operation on the files goes from prompt to prompt. -/
theorem Prompting.operation {call : Call} {op : Op} {code : Int} {fs after : FileSystem}
    {message : Int → List PrintCall} (prompting : Prompting session fs)
    (reachable : system.Reachable fs) (isText : ∀ c ∈ line.bytes, IsText c)
    (short : strlen line < maxCommandLength)
    (called : lineCalls (bdxResult fs) line = some [call]) (plain : ¬ call.Runs)
    (returns : call.Returns occasion.toSurroundings fs)
    (reports : ∀ fuel view, call.effect fuel occasion view =
      (call.report occasion.toSurroundings view.fileSystem).map (tellReport view))
    (tells : call.report occasion.toSurroundings fs = tellResult fs op message)
    (executed : op.exec fs = some (code, after)) :
    ∃ last, shellSession.Run session (typeLine line occasion) last ∧ Prompting last after := by
  obtain ⟨shown, shows, empty, rfl⟩ := prompting
  obtain ⟨prompt, promptIs⟩ := promptText_isSome (reachable_exec reachable executed)
  have told : call.report occasion.toSurroundings shown.fileSystem =
      some (message code, after) := by
    rw [tells, tellResult, executed, Option.map_some]
  obtain ⟨last, run, showsLast⟩ := typeLine_reports shows reachable empty isText short called plain
    returns reports told promptIs
  exact ⟨last, run, _, showsLast, rfl, rfl⟩

end Entering

/-! ### The first lines of a session -/

/-- What the lines of a new session meet. -/
def quietOccasion : Occasion where
  pmm := ⟨fun _ => 0, 0, 0⟩
  kernelSize := 0
  timerTicks := 0
  cpuUsage := 0
  machine := fun _ => none
  controllerStatus := []
  endsAt := fun _ _ => true
  rounds := []
  stack := fun _ => 0
  cmd := fun _ => 0
  strtokState := none

/-- `touch log`. -/
def touchLine : CString := message "touch log"

/-- `touch log` in a new session. -/
theorem touchedSession_exists : ∃ session last, shellSession.Init session ∧
    shellSession.Run session (typeLine touchLine quietOccasion) last ∧
      Prompting last logFileSystem := by
  obtain ⟨first, initial, files⟩ := newSession_exists
  obtain ⟨shown, starts, shows⟩ := showsTerminal_start initial
  have fresh : Prompting first freshFileSystem :=
    ⟨shown, shows, starts.1, shows.files.symm.trans files⟩
  obtain ⟨last, touched, log⟩ := @Prompting.operation first touchLine quietOccasion
    (.touch (literal ['l', 'o', 'g'])) (.createFile (literal ['l', 'o', 'g'])) 0 _ logFileSystem _
    fresh (.init freshFileSystem_init) (by decide) (by decide) rfl (fun runs => runs) trivial
    (fun _ _ => rfl) rfl rfl
  exact ⟨first, last, initial, touched, log⟩

/-- `touch log`, `write log a` and `touch p` in a new session. -/
theorem notesSession_exists : ∃ session, shellSession.Reachable session ∧
    session.shell.commandLen = 0 ∧ session.fileSystem = notesFileSystem := by
  have logWord : IsWord (literal ['l', 'o', 'g']) := ⟨by decide, by decide, by decide⟩
  have logReachable : system.Reachable logFileSystem :=
    @reachable_exec _ _ (.createFile (literal ['l', 'o', 'g'])) 0 (.init freshFileSystem_init) rfl
  obtain ⟨first, second, initial, touched, log⟩ := touchedSession_exists
  obtain ⟨third, written, note⟩ := @Prompting.operation second
    (writeLine (literal ['l', 'o', 'g']) (literal ['a'])) quietOccasion
    (.write (literal ['l', 'o', 'g']) (literal ['a'])) _ 1 _ noteFileSystem _ log logReachable
    (writeLine_isText logWord (by decide)) (by decide)
    (lineCalls_writeLine logWord (by decide)) (fun runs => runs) trivial
    (fun _ _ => rfl) rfl noteFileSystem_written
  obtain ⟨fourth, ended, notes⟩ := @Prompting.operation third (literal "touch p".toList)
    quietOccasion (.touch (literal ['p'])) (.createFile (literal ['p'])) 0 _ notesFileSystem _ note
    (reachable_exec logReachable noteFileSystem_written) (by decide) (by decide) rfl
    (fun runs => runs) trivial (fun _ _ => rfl) rfl rfl
  obtain ⟨shown, shows, empty, same⟩ := notes
  have run := (touched.append written).append ended
  refine ⟨fourth, run.reachable (.init initial), ?_, shows.files.trans same⟩
  rw [shows.commandLen, empty]
  rfl

/-! ### Sessions -/

/-- Every run of the shell is a run of the terminal: the screen shows the text printed since it
was last cleared and the line, and the files are those that the commands leave. -/
theorem shell_refines_terminal {session last : Session} {events : List SessionEvent}
    (initial : shellSession.Init session) (run : shellSession.Run session events last) :
    ∃ first final, terminal.Init first ∧ terminal.Run first events final ∧
      last.fileSystem = final.fileSystem ∧
        ScreenShows (final.printed ++ final.line.bytes) last.shell.console := by
  obtain ⟨first, starts, shows⟩ := showsTerminal_start initial
  obtain ⟨final, ran, showsLast⟩ := run.refines ShowsTerminal
    (fun _ _ _ _ related step => shellStep_follows related step) shows
  exact ⟨first, final, starts, ran, showsLast.files, showsLast.screen.visible⟩

theorem shell_refines_terminal_touch :
    ∃ session last, shellSession.Init session ∧
      shellSession.Run session (typeLine touchLine quietOccasion) last ∧
        ∃ first final, terminal.Init first ∧
          terminal.Run first (typeLine touchLine quietOccasion) final ∧
            last.fileSystem = final.fileSystem ∧
              ScreenShows (final.printed ++ final.line.bytes) last.shell.console := by
  obtain ⟨session, last, initial, run, _⟩ := touchedSession_exists
  exact ⟨session, last, initial, run, shell_refines_terminal initial run⟩

/-- What `cat` prints of a file that fits its array. -/
theorem catCommand_prints {fs : FileSystem} {bytesRead : Word} {content : List Byte}
    (read : bdfsReadFile fs name = some (.ok (bytesRead, content)))
    (fits : content.length ≤ catBufferSize) :
    ∃ output, catCommand fs name = some output ∧ outputText output = content ++ [lineFeed] := by
  have chars : (content.map fun byte => PrintCall.printChar byte colorFile).flatMap
      PrintCall.text = content := by
    rw [List.flatMap_map]
    exact List.flatMap_singleton' content
  refine ⟨_, by rw [catCommand, read]; exact if_pos fits, ?_⟩
  rw [outputText, List.flatMap_append, chars]
  rfl

/-- What is typed behind `write` and a name is what `cat` and the name show: wherever the data
lands in the file, both lines come back to a prompt, and the screen ends with the second line,
the data and the prompt. -/
theorem write_then_cat {session : Session} {name data : CString}
    (reachable : shellSession.Reachable session) (atPrompt : session.shell.commandLen = 0)
    (isWord : IsWord name) (nonempty : data.bytes ≠ []) (isText : ∀ c ∈ data.bytes, IsText c)
    (fits : strlen name + strlen data + 7 < maxCommandLength)
    (lands : Lands session.fileSystem name data.bytes) (first second : Occasion) :
    (∃ last, shellSession.Run session
        (typeLine (writeLine name data) first ++ typeLine (catLine name) second) last) ∧
      ∀ last, shellSession.Run session
          (typeLine (writeLine name data) first ++ typeLine (catLine name) second) last →
        ∃ printed prompt, promptText last.fileSystem = some prompt ∧
          ScreenShows (printed ++ (catLine name).bytes ++ [lineFeed] ++
            (data.bytes ++ [lineFeed]) ++ prompt) last.shell.console := by
  have length : maxCommandLength = 256 := rfl
  have buffer : catBufferSize = 1024 := rfl
  have writeShort : strlen (writeLine name data) < maxCommandLength := by
    rwa [writeLine_length]
  have catShort : strlen (catLine name) < maxCommandLength := by
    rw [catLine_length]
    omega
  obtain ⟨shown, reached, shows⟩ := showsTerminal_reachable reachable
  have files := terminal_fileSystem_reachable reached
  have empty : shown.line = CString.nil :=
    CString.ext (List.length_eq_zero_iff.mp (shows.commandLen.symm.trans atPrompt))
  rw [shows.files] at lands
  have stored : strlen data < 2 ^ 32 := by omega
  have holds : ShowsBytes data.image data.bytes :=
    showsBytes_iff.mpr fun offset inside => CString.image_of_lt data inside
  obtain ⟨code, after, written, back⟩ := (readsBack_iff holds stored).mpr lands
  have reachedAfter : system.Reachable after :=
    @reachable_exec _ _ (.writeFile name data.image (BitVec.ofNat 32 (strlen data))) code files
      written
  obtain ⟨prompt, promptIs⟩ := promptText_isSome reachedAfter
  have size : data.bytes.length = strlen data := rfl
  obtain ⟨output, shownData, text⟩ := catCommand_prints back (by omega)
  have wrote : Call.report first.toSurroundings shown.fileSystem (.write name data) =
      some (writeMessage name code, after) :=
    Option.map_eq_some_iff.mpr ⟨(code, after), written, rfl⟩
  have catReport : Call.report second.toSurroundings after (.cat name) = some (output, after) :=
    Option.map_eq_some_iff.mpr ⟨output, shownData, rfl⟩
  constructor
  · obtain ⟨middle, ran, showsMiddle⟩ := typeLine_reports shows files empty
      (writeLine_isText isWord isText) writeShort (lineCalls_writeLine isWord nonempty)
      (fun runs => runs) trivial (fun _ _ => rfl) wrote promptIs
    obtain ⟨last, ranLast⟩ := @typeLine_returns _ _ _ second _ showsMiddle reachedAfter rfl
      (catLine_isText isWord) catShort (lineCalls_catLine isWord) (fun runs => runs)
      fun _ _ same => by
        obtain ⟨rfl, rfl⟩ := Prod.mk.inj (Except.ok.inj (Option.some.inj (back.symm.trans same)))
        omega
    exact ⟨last, ran.append ranLast⟩
  · intro last run
    obtain ⟨final, followed, showsLast⟩ := run.refines ShowsTerminal
      (fun _ _ _ _ related step => shellStep_follows related step) shows
    obtain ⟨between, firstLine, secondLine⟩ := followed.split
    obtain rfl := terminal_reports (writeLine_isText isWord isText) writeShort empty
      (lineCalls_writeLine isWord nonempty) (fun _ _ => rfl) wrote promptIs firstLine
    obtain rfl := terminal_reports (catLine_isText isWord) catShort rfl
      (lineCalls_catLine isWord) (fun _ _ => rfl) catReport promptIs secondLine
    have visible := showsLast.screen.visible
    rw [text, show CString.nil.bytes = [] from rfl, List.append_nil] at visible
    refine ⟨_, prompt, ?_, visible⟩
    rw [showsLast.files]
    exact promptIs

/-- The letter `a` written to a new file and shown. -/
theorem write_then_cat_letter : ∃ session, session.fileSystem = notesFileSystem ∧
    ∀ first second : Occasion,
      (∃ last, shellSession.Run session (typeLine (writeLine (literal ['p']) (literal ['a'])) first ++
        typeLine (catLine (literal ['p'])) second) last) ∧
      ∀ last, shellSession.Run session (typeLine (writeLine (literal ['p']) (literal ['a'])) first ++
          typeLine (catLine (literal ['p'])) second) last →
        ∃ printed prompt, promptText last.fileSystem = some prompt ∧
          ScreenShows (printed ++ (catLine (literal ['p'])).bytes ++ [lineFeed] ++
            ((literal ['a']).bytes ++ [lineFeed]) ++ prompt) last.shell.console := by
  obtain ⟨session, reachable, atPrompt, files⟩ := notesSession_exists
  have named : IsWord (literal ['p']) := ⟨by decide, by decide, by decide⟩
  have lands : Lands session.fileSystem (literal ['p']) (literal ['a']).bytes := by
    rw [files]
    exact notesFileSystem_lands (by decide)
  exact ⟨session, files, write_then_cat reachable atPrompt named (by decide) (by decide)
    (by decide) lands⟩

end BrainDance.Shell
