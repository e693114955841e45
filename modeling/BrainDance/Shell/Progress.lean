import BrainDance.Fs.Bdfs.Totality
import BrainDance.Shell.Refinement

/-!
Owns which lines bring the shell to its next prompt. In every reachable session the next key
is taken, and Enter returns unless the line is blank, or its command traps or overruns an
array: `cat` of a file longer than its buffer, `calc` of an expression that faults, `pulse`
below 1 MiB, `reboot` while the controller stays busy. Lines that open the editor or run a
program are left out.
-/

namespace BrainDance.Shell

open BrainDance.Foundation
open BrainDance.Libc
open BrainDance.Exec
open BrainDance.Fs.Bdfs
open BrainDance.App.Cable
open BrainDance.Drivers

/-! ### Files -/

section Files

variable {fuel : Nat} {occasion : Occasion} {view after : View}

/-- The files that a report leaves. -/
theorem report_reachable {around : Surroundings} {fs : FileSystem} {report : Report} {call : Call}
    (reachable : system.Reachable fs) (told : call.report around fs = some report) :
    system.Reachable report.2 := by
  have kept {output : Option (List PrintCall)}
      (shown : (output.map fun output => (output, fs)) = some report) :
      system.Reachable report.2 := by
    obtain ⟨_, _, rfl⟩ := Option.map_eq_some_iff.mp shown
    exact reachable
  have called {op : Op} {message : Int → List PrintCall}
      (done : tellResult fs op message = some report) : system.Reachable report.2 := by
    obtain ⟨⟨code, after⟩, executed, rfl⟩ := Option.map_eq_some_iff.mp done
    exact reachable_exec reachable executed
  cases call with
  | clear => contradiction
  | clearScreen color => contradiction
  | cableMain filename => contradiction
  | executeBdx path => contradiction
  | reboot => exact kept told
  | shutdown => exact kept told
  | ls => exact kept told
  | cat filename => exact kept told
  | calculatorMain expression => exact kept told
  | pulse =>
      obtain ⟨_, _, rfl⟩ := Option.map_eq_some_iff.mp told
      exact reachable
  | touch filename => exact called told
  | write filename data => exact called told
  | rm filename => exact called told
  | mv oldFilename newFilename => exact called told
  | mkdir dirname => exact called told
  | cd dirname => exact called told
  | _ => exact Option.some.inj told ▸ reachable

theorem performView_reachable (call : BdxCall) :
    Follows (fun view shown => view = shown ∧ system.Reachable view.fileSystem)
      (fun view shown => view = shown ∧ system.Reachable view.fileSystem) (performView call)
      (performView call) := by
  rintro view _ after ⟨rfl, reachable⟩ done
  refine ⟨after, done, rfl, ?_⟩
  cases call with
  | print str => exact Option.some.inj done ▸ reachable
  | writeFile path data len =>
      obtain ⟨⟨code, fs⟩, written, rfl⟩ := Option.map_eq_some_iff.mp done
      exact @reachable_exec _ _ (.writeFile path data len) code reachable written

theorem executeView_reachable {stack : Image} {path : CString}
    (reachable : system.Reachable view.fileSystem)
    (done : executeView fuel stack path view = some after) :
    system.Reachable after.fileSystem := by
  unfold executeView at done
  split at done
  · contradiction
  · exact Option.some.inj done ▸ reachable
  · split at done
    · obtain ⟨_, _, _, reached⟩ :=
        interpretBdx_follows performView_reachable _ _ _ view view after ⟨rfl, reachable⟩ done
      exact reached
    · contradiction

theorem keyView_reachable {round : EditorRound} {editor : EditorState} {fs : FileSystem}
    {result : Int × EditorState × FileSystem} (reachable : system.Reachable fs)
    (done : keyView round editor fs = some result) : system.Reachable result.2.2 := by
  unfold keyView at done
  split_ifs at done
  · exact Option.some.inj done ▸ reachable
  · obtain ⟨saved, saving, rfl⟩ := Option.map_eq_some_iff.mp done
    obtain ⟨buffer, _, saving⟩ := Option.bind_eq_some_iff.mp saving
    obtain ⟨path, _, saving⟩ := Option.bind_eq_some_iff.mp saving
    obtain ⟨⟨code, after⟩, written, same⟩ := Option.bind_eq_some_iff.mp saving
    obtain rfl := Option.some.inj same
    exact @reachable_exec _ _ (.writeFile _ _ _) code reachable written
  · exact Option.some.inj done ▸ reachable
  · obtain ⟨_, _, rfl⟩ := Option.map_eq_some_iff.mp done
    exact reachable

theorem editView_reachable {rounds : List EditorRound} {state final : EditorState × FileSystem}
    (reachable : system.Reachable state.2) (done : editView rounds state = some final) :
    system.Reachable final.2 := by
  induction rounds generalizing state with
  | nil => contradiction
  | cons round rounds inductionHypothesis =>
      rw [editView] at done
      obtain ⟨result, pressed, rest⟩ := Option.bind_eq_some_iff.mp done
      have reached := keyView_reachable reachable pressed
      split at rest
      · exact Option.some.inj rest ▸ reached
      · exact inductionHypothesis reached rest

/-- The terminal does to its files what runs of the file system do. -/
theorem effect_reachable {call : Call} (reachable : system.Reachable view.fileSystem)
    (done : call.effect fuel occasion view = some after) : system.Reachable after.fileSystem := by
  have reported (told : (call.report occasion.toSurroundings view.fileSystem).map (tellReport view) =
      some after) : system.Reachable after.fileSystem := by
    obtain ⟨report, shown, rfl⟩ := Option.map_eq_some_iff.mp told
    exact report_reachable reachable shown
  cases call with
  | clear => exact Option.some.inj done ▸ reachable
  | clearScreen color => exact Option.some.inj done ▸ reachable
  | cableMain filename =>
      obtain ⟨opened, _, done⟩ := Option.bind_eq_some_iff.mp done
      obtain ⟨final, edited, same⟩ := Option.bind_eq_some_iff.mp done
      obtain rfl := Option.some.inj same
      exact editView_reachable reachable edited
  | executeBdx path => exact executeView_reachable reachable done
  | _ => exact reported done

theorem effects_reachable {calls : List Call} (reachable : system.Reachable view.fileSystem)
    (done : calls.foldlM (Call.effect fuel occasion) view = some after) :
    system.Reachable after.fileSystem := by
  induction calls generalizing view with
  | nil => exact Option.some.inj done ▸ reachable
  | cons call calls inductionHypothesis =>
      rw [List.foldlM_cons] at done
      obtain ⟨middle, first, rest⟩ := Option.bind_eq_some_iff.mp done
      exact inductionHypothesis (effect_reachable reachable first) rest

theorem terminal_fileSystem_reachable {shown : Terminal} (reachable : terminal.Reachable shown) :
    system.Reachable shown.fileSystem := by
  refine reachable.invariant (fun shown => system.Reachable shown.fileSystem) ?_ ?_
  · exact fun _ initial => .init initial.2.1
  · rintro before event after _ reached step
    cases event with
    | key c => exact step.2 ▸ reached
    | enter occasion =>
        obtain ⟨fuel, done⟩ := step
        obtain ⟨calls, _, done⟩ := Option.bind_eq_some_iff.mp done
        obtain ⟨view, effects, done⟩ := Option.bind_eq_some_iff.mp done
        obtain ⟨printed, _, done⟩ := Option.bind_eq_some_iff.mp done
        obtain ⟨prompt, _, same⟩ := Option.bind_eq_some_iff.mp done
        obtain rfl := Option.some.inj same
        exact effects_reachable reached effects

theorem showsTerminal_reachable {session : Session} (reachable : shellSession.Reachable session) :
    ∃ shown, terminal.Reachable shown ∧ ShowsTerminal session shown := by
  induction reachable with
  | init initial =>
      obtain ⟨first, starts, shows⟩ := showsTerminal_start initial
      exact ⟨first, .init starts, shows⟩
  | step _ step inductionHypothesis =>
      obtain ⟨shown, earlier, shows⟩ := inductionHypothesis
      obtain ⟨next, taken, showsNext⟩ := shellStep_follows shows step
      exact ⟨next, .step earlier taken, showsNext⟩

end Files

/-! ### Calls that return -/

/-- The call opens the editor or runs a program. -/
def Call.Runs : Call → Prop
  | .cableMain _ | .executeBdx _ => True
  | _ => False

/-- What the call needs of its surroundings and the files to return. -/
def Call.Returns (around : Surroundings) (fs : FileSystem) : Call → Prop
  | .cat filename => ∀ bytesRead data, bdfsReadFile fs filename = some (.ok (bytesRead, data)) →
      data.length ≤ catBufferSize
  | .calculatorMain expression =>
      ∃ result, App.Calculator.calculatorMain expression.bytes = .ok result
  | .pulse => memoryFigures around.pmm ≠ none
  | .reboot => (∃ good ∈ around.controllerStatus, good &&& 0x02 = 0) ∧
      around.endsAt 0x64 0xFE = false
  | .shutdown => around.endsAt 0x604 0x2000 = false
  | _ => True

/-- The data of a `write` is part of a line. -/
def Call.FitsLine : Call → Prop
  | .write _ data => strlen data < maxCommandLength
  | _ => True

section Returns

variable {around : Surroundings} {fs : FileSystem}

theorem tellResult_isSome (reachable : system.Reachable fs) {op : Op} (noWrap : op.NoWrap)
    (message : Int → List PrintCall) : ∃ report, tellResult fs op message = some report := by
  obtain ⟨code, after, executed⟩ := exec_total reachable noWrap
  exact ⟨_, Option.map_eq_some_iff.mpr ⟨_, executed, rfl⟩⟩

theorem bdfsListFiles_isSome (reachable : system.Reachable fs) :
    ∃ output, bdfsListFiles fs = some output := by
  obtain ⟨slot, here⟩ := currentDir_of_reachable reachable
  exact ⟨_, by rw [bdfsListFiles, here, Option.map_some]⟩

theorem catCommand_isSome_iff (reachable : system.Reachable fs) (filename : CString) :
    (∃ output, catCommand fs filename = some output) ↔
      ∀ bytesRead data, bdfsReadFile fs filename = some (.ok (bytesRead, data)) →
        data.length ≤ catBufferSize := by
  obtain ⟨outcome, read⟩ := bdfsReadFile_total reachable filename
  rw [catCommand, read]
  cases outcome with
  | error code =>
      refine iff_of_true ⟨_, rfl⟩ fun bytesRead data same => ?_
      cases same
  | ok content =>
      obtain ⟨bytesRead, data⟩ := content
      by_cases fits : data.length ≤ catBufferSize
      · refine iff_of_true ⟨_, if_pos fits⟩ fun _ _ same => ?_
        cases same
        exact fits
      · refine iff_of_false ?_ fun short => fits (short bytesRead data rfl)
        rintro ⟨output, shown⟩
        exact Option.some_ne_none output (shown.symm.trans (if_neg fits))

theorem calculatorCommand_isSome_iff (expression : CString) :
    (∃ output, calculatorCommand expression = some output) ↔
      ∃ result, App.Calculator.calculatorMain expression.bytes = .ok result := by
  rw [calculatorCommand]
  cases App.Calculator.calculatorMain expression.bytes with
  | error fault =>
      refine iff_of_false ?_ ?_
      · rintro ⟨output, shown⟩
        contradiction
      · rintro ⟨result, computed⟩
        contradiction
  | ok result => exact iff_of_true ⟨_, rfl⟩ ⟨result, rfl⟩

theorem out_isSome_iff (port value : BitVec 16) (output : List PrintCall) :
    (∃ printed, around.out port value output = some printed) ↔
      around.endsAt port value = false := by
  rw [Surroundings.out]
  cases around.endsAt port value <;> simp

theorem rebootCommand_isSome_iff :
    (∃ output, rebootCommand around = some output) ↔ Call.reboot.Returns around fs := by
  have ready : (around.controllerStatus.any fun good => good &&& 0x02 == 0) = true ↔
      ∃ good ∈ around.controllerStatus, good &&& 0x02 = 0 := by
    simp only [List.any_eq_true, beq_iff_eq]
  rw [rebootCommand, Call.Returns, ← ready]
  by_cases answered : (around.controllerStatus.any fun good => good &&& 0x02 == 0) = true
  · rw [if_pos answered, out_isSome_iff, and_iff_right answered]
  · rw [if_neg answered]
    exact iff_of_false (by simp) fun returns => answered returns.1

theorem isSome_map_iff {Output : Type} {output : Option Output} {condition : Prop}
    {report : Output → Report} (same : (∃ shown, output = some shown) ↔ condition) :
    (∃ told, output.map report = some told) ↔ condition := by
  rw [← same]
  constructor
  · rintro ⟨told, mapped⟩
    obtain ⟨shown, is, _⟩ := Option.map_eq_some_iff.mp mapped
    exact ⟨shown, is⟩
  · rintro ⟨shown, is⟩
    exact ⟨report shown, Option.map_eq_some_iff.mpr ⟨shown, is, rfl⟩⟩

/-- In a reachable state a call that is not a screen's or a program's has its report exactly
when it returns. -/
theorem report_isSome_iff (reachable : system.Reachable fs) {call : Call} (fits : call.FitsLine)
    (plain : ¬ call.Runs) (notClear : call ≠ .clear)
    (notClearScreen : ∀ color, call ≠ .clearScreen color) :
    (∃ report, call.report around fs = some report) ↔ call.Returns around fs := by
  have told {op : Op} (noWrap : op.NoWrap) (message : Int → List PrintCall) :
      (∃ report, tellResult fs op message = some report) ↔ True :=
    iff_of_true (tellResult_isSome reachable noWrap message) trivial
  cases call with
  | clear => exact absurd rfl notClear
  | clearScreen color => exact absurd rfl (notClearScreen color)
  | cableMain filename => exact absurd trivial plain
  | executeBdx path => exact absurd trivial plain
  | reboot => exact isSome_map_iff rebootCommand_isSome_iff
  | shutdown => exact isSome_map_iff (out_isSome_iff _ _ _)
  | ls => exact isSome_map_iff (iff_of_true (bdfsListFiles_isSome reachable) trivial)
  | cat filename => exact isSome_map_iff (catCommand_isSome_iff reachable filename)
  | calculatorMain expression => exact isSome_map_iff (calculatorCommand_isSome_iff expression)
  | pulse => exact isSome_map_iff Option.ne_none_iff_exists'.symm
  | touch filename => exact @told (.createFile filename) trivial _
  | write filename data =>
      have line : maxCommandLength = 256 := rfl
      have bounded : strlen data < maxCommandLength := fits
      refine @told (.writeFile _ _ _) ?_ _
      show (BitVec.ofNat 32 (strlen data)).toNat + 511 < 2 ^ 32
      rw [BitVec.toNat_ofNat]
      omega
  | rm filename => exact @told (.deleteFile filename) trivial _
  | mv oldFilename newFilename => exact @told (.renameFile oldFilename newFilename) trivial _
  | mkdir dirname => exact @told (.mkdir dirname) trivial _
  | cd dirname => exact @told (.chdir dirname) trivial _
  | _ => exact iff_of_true ⟨_, rfl⟩ trivial

variable {fuel : Nat} {occasion : Occasion} {machine : Machine} {printed : List Byte}

theorem giveReport_isSome (screen : Transcribes printed [] machine.2.console) (report : Report) :
    ∃ after, giveReport machine report = some after := by
  obtain ⟨console, ran, _⟩ := printAll_prints report.1 _ _ screen
  exact ⟨_, Option.map_eq_some_iff.mpr ⟨console, ran, rfl⟩⟩

theorem onConsole_clearScreen (color : Byte) (machine : Machine) :
    ∃ after, onConsole (Libc.clearScreen color) machine = some after := by
  obtain ⟨console, cleared, _⟩ := clearScreen_transcribes color machine.2.console
  exact ⟨_, Option.map_eq_some_iff.mpr ⟨console, cleared, rfl⟩⟩

/-- On a console that shows a text a call that is not a program's is made exactly when it
returns. -/
theorem perform_isSome_iff (screen : Transcribes printed [] machine.2.console)
    (reachable : system.Reachable machine.2.fileSystem) {call : Call} (fits : call.FitsLine)
    (plain : ¬ call.Runs) :
    (∃ after, call.perform fuel occasion machine = some after) ↔
      call.Returns occasion.toSurroundings machine.2.fileSystem := by
  have reported (notClear : call ≠ .clear) (notClearScreen : ∀ color, call ≠ .clearScreen color) :
      (∃ after, (call.report occasion.toSurroundings machine.2.fileSystem).bind
        (giveReport machine) = some after) ↔
        call.Returns occasion.toSurroundings machine.2.fileSystem := by
    rw [← report_isSome_iff reachable fits plain notClear notClearScreen]
    constructor
    · rintro ⟨after, done⟩
      obtain ⟨report, told, _⟩ := Option.bind_eq_some_iff.mp done
      exact ⟨report, told⟩
    · rintro ⟨report, told⟩
      obtain ⟨after, given⟩ := giveReport_isSome screen report
      exact ⟨after, Option.bind_eq_some_iff.mpr ⟨report, told, given⟩⟩
  cases call with
  | clear => exact iff_of_true (onConsole_clearScreen 0x07 machine) trivial
  | clearScreen color => exact iff_of_true (onConsole_clearScreen color machine) trivial
  | cableMain filename => exact absurd trivial plain
  | executeBdx path => exact absurd trivial plain
  | _ => exact reported (by simp) (by simp)

end Returns

/-! ### Lines that return -/

/-- The calls of a line: one, or some that print, or a program's. -/
def Alone (calls : List Call) : Prop :=
  (∃ call, calls = [call]) ∨ (∀ call ∈ calls, ∃ text color, call = .print text color) ∨
    ∃ call ∈ calls, call.Runs

theorem handlers_alone (limit : Nat) : ∀ entry ∈ handlers, entry.2.Makes limit Alone := by
  have single (call : Call) : Alone [call] := .inl ⟨call, rfl⟩
  have opened (token : CString) : Alone [.cableMain token, .clearScreen colorSystem] :=
    .inr (.inr ⟨_, List.mem_cons_self, trivial⟩)
  simp [handlers, Handler.Makes, single, opened]

theorem otherCalls_alone (executeBdx : CString → Int) (command : CString) :
    Alone (otherCalls executeBdx command) := by
  rw [otherCalls]
  split_ifs
  · exact .inr (.inr ⟨_, List.mem_cons_self, trivial⟩)
  · exact .inr (.inr ⟨_, List.mem_cons_self, trivial⟩)
  · refine .inr (.inl fun call member => ?_)
    simp only [List.mem_cons, List.not_mem_nil, or_false] at member
    rcases member with rfl | rfl | rfl <;> exact ⟨_, _, rfl⟩

theorem handlers_fitLine {limit : Nat} (short : limit < maxCommandLength) :
    ∀ entry ∈ handlers, entry.2.Makes limit fun calls => ∀ call ∈ calls, call.FitsLine := by
  have data (rest : CString) (inLine : strlen rest ≤ limit) : strlen rest < maxCommandLength :=
    Nat.lt_of_le_of_lt inLine short
  simpa [handlers, Handler.Makes, Call.FitsLine] using fun _ => data

theorem otherCalls_fitLine (executeBdx : CString → Int) (command : CString) :
    ∀ call ∈ otherCalls executeBdx command, call.FitsLine := by
  rw [otherCalls]
  split_ifs <;> simp [Call.FitsLine]

section Lines

variable {session : Session} {shown : Terminal} {fuel : Nat} {occasion : Occasion}

/-- What the calls of a line are made on. -/
def Session.entered (session : Session) (entered : CommandLine) : Machine :=
  (session.editor, ⟨entered.console, session.fileSystem⟩)

/-- Enter returns exactly when the line has a word and its calls return. -/
theorem ShowsTerminal.enter_iff (shows : ShowsTerminal session shown)
    (reachable : system.Reachable shown.fileSystem) {entered : CommandLine}
    (entering : enterCommand session.shell = some entered) :
    (∃ after, session.enter fuel occasion = some after) ↔
      ∃ calls, lineCalls (bdxResult session.fileSystem) shown.line = some calls ∧
        ∃ machine, calls.foldlM (Call.perform fuel occasion) (session.entered entered) =
          some machine := by
  obtain ⟨entered', entering', scanned, screen⟩ := shows.entered
  rw [entering] at entering'
  obtain rfl := Option.some.inj entering'
  have enters : session.enter fuel occasion =
      (lineCalls (bdxResult session.fileSystem) shown.line).bind fun calls =>
        (calls.foldlM (Call.perform fuel occasion) (session.entered entered)).bind fun machine =>
          (printPrompt machine.2).bind fun console =>
            some ⟨⟨console, memset entered.commandBuffer 0 0 maxCommandLength, 0⟩,
              machine.2.fileSystem, machine.1⟩ := by
    unfold Session.enter
    rw [entering, Option.bind_eq_bind, Option.bind_some, scanned, Option.bind_eq_bind,
      Option.bind_some, processLine_eq occasion _ shows.short]
    rfl
  rw [enters]
  constructor
  · rintro ⟨after, done⟩
    obtain ⟨calls, called, done⟩ := Option.bind_eq_some_iff.mp done
    obtain ⟨machine, performed, _⟩ := Option.bind_eq_some_iff.mp done
    exact ⟨calls, called, machine, performed⟩
  · rintro ⟨calls, called, machine, performed⟩
    have start : ShowsView (session.entered entered)
        ⟨some (shown.printed ++ shown.line.bytes ++ [lineFeed]), shown.fileSystem,
          shown.editor⟩ :=
      ⟨fun printed known => Option.some.inj known ▸ screen, shows.files, shows.editor⟩
    obtain ⟨view, effects, showsView⟩ :=
      Follows.foldlM (fun call _ => perform_follows call) _ _ _ start performed
    have leave : LeaveText calls :=
      lineCalls_kind called (handlers_leaveText _) (otherCalls_leaveText _ _)
    obtain ⟨printed, known⟩ := Option.isSome_iff_exists.mp (effects_text leave rfl effects)
    have reached := effects_reachable reachable effects
    rw [← showsView.files] at reached
    obtain ⟨console, prompting⟩ := printPrompt_isSome (showsView.text printed known) reached
    exact ⟨_, Option.bind_eq_some_iff.mpr ⟨calls, called, Option.bind_eq_some_iff.mpr
      ⟨machine, performed, Option.bind_eq_some_iff.mpr ⟨console, prompting, rfl⟩⟩⟩⟩

/-- Calls that print are made. -/
theorem performs_prints {calls : List Call} {machine : Machine} {printed : List Byte}
    (screen : Transcribes printed [] machine.2.console)
    (prints : ∀ call ∈ calls, ∃ text color, call = .print text color) :
    ∃ after, calls.foldlM (Call.perform fuel occasion) machine = some after := by
  induction calls generalizing machine printed with
  | nil => exact ⟨machine, rfl⟩
  | cons call calls inductionHypothesis =>
      obtain ⟨⟨text, color, rfl⟩, others⟩ := List.forall_mem_cons.mp prints
      obtain ⟨console, ran, shows⟩ := printAll_prints [.print text color] _ _ screen
      have performed : Call.perform fuel occasion machine (.print text color) =
          some (machine.1, ⟨console, machine.2.fileSystem⟩) :=
        Option.map_eq_some_iff.mpr ⟨console, ran, rfl⟩
      rw [List.foldlM_cons, performed]
      exact @inductionHypothesis (machine.1, ⟨console, machine.2.fileSystem⟩) _ shows others

/-- The calls of a line that is not a program's are made exactly when each returns. -/
theorem performs_iff {calls : List Call} {machine : Machine} {printed : List Byte}
    (screen : Transcribes printed [] machine.2.console)
    (reachable : system.Reachable machine.2.fileSystem) (alone : Alone calls)
    (fit : ∀ call ∈ calls, call.FitsLine) (plain : ∀ call ∈ calls, ¬ call.Runs) :
    (∃ after, calls.foldlM (Call.perform fuel occasion) machine = some after) ↔
      ∀ call ∈ calls, call.Returns occasion.toSurroundings machine.2.fileSystem := by
  rcases alone with ⟨call, rfl⟩ | prints | ⟨call, member, runs⟩
  · have single : [call].foldlM (Call.perform fuel occasion) machine =
        call.perform fuel occasion machine := by
      rw [List.foldlM_cons]
      exact Option.bind_fun_some _
    rw [single, List.forall_mem_singleton]
    exact perform_isSome_iff screen reachable (List.forall_mem_singleton.mp fit)
      (plain call (List.mem_singleton_self call))
  · refine iff_of_true (performs_prints screen prints) fun call member => ?_
    obtain ⟨text, color, rfl⟩ := prints call member
    exact trivial
  · exact absurd runs (plain call member)

/-- The calls of a line, in the state that it is entered in. -/
def lineOf (session : Session) (line : CString) : Option (List Call) :=
  lineCalls (bdxResult session.fileSystem) line

/-- Enter on a line that is not a program's. -/
theorem ShowsTerminal.enter_returns_iff (shows : ShowsTerminal session shown)
    (reachable : system.Reachable shown.fileSystem)
    (plain : ∀ calls, lineOf session shown.line = some calls → ∀ call ∈ calls, ¬ call.Runs) :
    (∃ after, session.enter fuel occasion = some after) ↔
      ∃ calls, lineOf session shown.line = some calls ∧
        ∀ call ∈ calls, call.Returns occasion.toSurroundings session.fileSystem := by
  obtain ⟨entered, entering, _, screen⟩ := shows.entered
  rw [shows.enter_iff reachable entering]
  rw [← shows.files] at reachable
  refine exists_congr fun calls => and_congr_right fun called => ?_
  have line : strlen shown.line < maxCommandLength := shows.short
  exact performs_iff screen reachable
    (lineCalls_kind called (handlers_alone _) (otherCalls_alone _ _))
    (lineCalls_kind called (handlers_fitLine line) (otherCalls_fitLine _ _)) (plain calls called)

end Lines

end BrainDance.Shell
