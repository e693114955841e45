import BrainDance.Shell.Terminal

/-!
Owns that the commands of the shell have the effects of the terminal's: on a console that
shows the text each call adds its own, a program's interpreter follows the one on the text, and
the editor's keys do to the files what they do without a screen.
-/

namespace BrainDance.Shell

open BrainDance.Foundation
open BrainDance.Libc
open BrainDance.Exec
open BrainDance.Fs.Bdfs
open BrainDance.App.Cable
open BrainDance.Drivers

/-! ### Consoles -/

/-- The console shows the text, if there is one, and the rest is the same. -/
structure ShowsView (machine : Machine) (view : View) : Prop where
  text : ∀ printed, view.printed = some printed → Transcribes printed [] machine.2.console
  files : machine.2.fileSystem = view.fileSystem
  editor : machine.1 = view.editor

section Consoles

variable {machine : Machine} {view : View}

/-- A routine that prints adds its text. -/
theorem ShowsView.prints {text : List Byte} {routine : Console → Option Console}
    (shows : ShowsView machine view) (prints : Prints text routine) {console : Console}
    (ran : routine machine.2.console = some console) (fs : FileSystem) :
    ShowsView (machine.1, ⟨console, fs⟩) { view.prints text with fileSystem := fs } := by
  refine ⟨fun printed known => ?_, rfl, shows.editor⟩
  obtain ⟨before, was, rfl⟩ := Option.map_eq_some_iff.mp known
  obtain ⟨after, ran', transcribes⟩ := prints before _ (shows.text before was)
  rw [ran] at ran'
  exact Option.some.inj ran' ▸ transcribes

theorem clearScreen_follows (color : Byte) :
    Follows ShowsView ShowsView (onConsole (Libc.clearScreen color))
      fun view => some view.cleared := by
  intro machine view after shows done
  obtain ⟨console, ran, rfl⟩ := Option.map_eq_some_iff.mp done
  obtain ⟨console', ran', transcribes⟩ := clearScreen_transcribes color machine.2.console
  rw [ran] at ran'
  obtain rfl := Option.some.inj ran'
  refine ⟨_, rfl, fun printed known => ?_, shows.files, shows.editor⟩
  exact Option.some.inj known ▸ transcribes

theorem giveReport_shows {report : Report} {after : Machine} (shows : ShowsView machine view)
    (given : giveReport machine report = some after) : ShowsView after (tellReport view report) := by
  obtain ⟨console, ran, rfl⟩ := Option.map_eq_some_iff.mp given
  exact shows.prints (printAll_prints report.1) ran report.2

end Consoles

/-! ### Programs -/

section Programs

/-- An interpreter follows another whose calls it follows. -/
theorem interpretBdx_follows {State Shadow : Type} {Related : State → Shadow → Prop}
    {perform : BdxCall → State → Option State} {shadow : BdxCall → Shadow → Option Shadow}
    (each : ∀ call, Follows Related Related (perform call) (shadow call)) (bytecode : Image)
    (fuel : Nat) (ip : Word) :
    Follows Related Related (interpretBdx perform bytecode fuel ip)
      (interpretBdx shadow bytecode fuel ip) := by
  induction fuel generalizing ip with
  | zero =>
      intro state image result related done
      contradiction
  | succ fuel inductionHypothesis =>
      intro state image result related done
      rw [interpretBdx] at done ⊢
      dsimp only at done ⊢
      split_ifs at done ⊢
      · obtain ⟨str, scanned, rest⟩ := Option.bind_eq_some_iff.mp done
        obtain ⟨after, final, results⟩ :=
          (each (.print str)).bind (inductionHypothesis _) _ _ _ related rest
        exact ⟨after, Option.bind_eq_some_iff.mpr ⟨str, scanned, final⟩, results⟩
      · obtain ⟨path, scanned, rest⟩ := Option.bind_eq_some_iff.mp done
        obtain ⟨after, final, results⟩ :=
          (each (.writeFile path _ _)).bind (inductionHypothesis _) _ _ _ related rest
        exact ⟨after, Option.bind_eq_some_iff.mpr ⟨path, scanned, final⟩, results⟩
      · exact ⟨image, rfl, Option.some.inj done ▸ related⟩

variable {editor : EditorState}

theorem performCall_follows (call : BdxCall) :
    Follows (fun kernel view => ShowsView (editor, kernel) view)
      (fun kernel view => ShowsView (editor, kernel) view) (performCall call)
      (performView call) := by
  intro kernel view after shows done
  cases call with
  | print str =>
      obtain ⟨console, ran, rfl⟩ := Option.map_eq_some_iff.mp done
      have printed := shows.prints (print_prints colorInput str.noNul) ran kernel.fileSystem
      exact ⟨_, rfl, printed.text, shows.files, printed.editor⟩
  | writeFile path data len =>
      obtain ⟨result, written, rfl⟩ := Option.map_eq_some_iff.mp done
      have files : kernel.fileSystem = view.fileSystem := shows.files
      rw [files] at written
      exact ⟨_, Option.map_eq_some_iff.mpr ⟨result, written, rfl⟩, shows.text, rfl, shows.editor⟩

theorem executeBdx_follows {fuel : Nat} {stack : Image} {path : CString} {kernel after : Kernel}
    {view : View} {code : Int} (shows : ShowsView (editor, kernel) view)
    (done : executeBdx fuel stack path kernel = some (code, after)) :
    ∃ final, executeView fuel stack path view = some final ∧ ShowsView (editor, after) final := by
  have files : kernel.fileSystem = view.fileSystem := shows.files
  unfold executeBdx at done
  unfold executeView
  rw [files] at done
  cases loaded : bdfsReadFile view.fileSystem path with
  | none =>
      rw [loaded] at done
      contradiction
  | some outcome =>
      rw [loaded] at done
      cases outcome with
      | error code =>
          obtain ⟨_, rfl⟩ := Prod.mk.inj (Option.some.inj done)
          exact ⟨view, rfl, shows⟩
      | ok read =>
          dsimp only at done ⊢
          split at done
          · rename_i fits
            obtain ⟨final, ran, same⟩ := Option.map_eq_some_iff.mp done
            obtain ⟨_, rfl⟩ := Prod.mk.inj same
            rw [if_pos fits]
            exact interpretBdx_follows performCall_follows _ _ _ _ _ _ shows ran
          · contradiction

end Programs

/-! ### The editor -/

section Editor

variable {fuel : Nat} {round : EditorRound} {editor after : EditorState} {kernel final : Kernel}

/-- A save writes its lines through `bdfs_write_file`. -/
theorem editorSaveFile_view {saveStack bytecodeStack : Image}
    (done : editorSaveFile fuel saveStack bytecodeStack editor kernel = some (after, final)) :
    saveView saveStack editor kernel.fileSystem = some (after, final.fileSystem) := by
  obtain ⟨saved, assembled, done⟩ := Option.bind_eq_some_iff.mp done
  obtain ⟨path, named, done⟩ := Option.bind_eq_some_iff.mp done
  obtain ⟨written, called, same⟩ := Option.bind_eq_some_iff.mp done
  obtain ⟨rfl, rfl⟩ := Prod.mk.inj (Option.some.inj same)
  obtain ⟨_, performed⟩ := syscallWrite_eq_some called
  obtain ⟨result, wrote, rfl⟩ := Option.map_eq_some_iff.mp performed
  rw [saveView, assembled, named]
  simp only [Option.bind_eq_bind, Option.bind_some]
  rw [wrote, Option.bind_some]

/-- A key does to the editor and the files what it does without a screen. -/
theorem cableRound_view {code : Int}
    (done : cableRound fuel round.statusStack round.saveStack round.bytecodeStack round.event
      editor kernel = some (code, after, final)) :
    keyView round editor kernel.fileSystem = some (code, after, final.fileSystem) := by
  rw [cableRound] at done
  obtain ⟨console, _, pressed⟩ := Option.bind_eq_some_iff.mp done
  unfold editorProcessKeypress at pressed
  unfold keyView
  split_ifs at pressed ⊢
  · obtain ⟨rfl, rfl, rfl⟩ := Prod.mk.inj (Option.some.inj pressed)
    rfl
  · obtain ⟨⟨edited, saved⟩, saving, same⟩ := Option.map_eq_some_iff.mp pressed
    obtain ⟨rfl, rfl, rfl⟩ := Prod.mk.inj same
    rw [editorSaveFile_view saving, Option.map_some]
  · obtain ⟨rfl, rfl, rfl⟩ := Prod.mk.inj (Option.some.inj pressed)
    rfl
  · obtain ⟨edited, typed, same⟩ := Option.map_eq_some_iff.mp pressed
    obtain ⟨rfl, rfl, rfl⟩ := Prod.mk.inj same
    rw [typed, Option.map_some]

theorem cableLoop_view {rounds : List EditorRound}
    (done : cableLoop fuel rounds (editor, kernel) = some (after, final)) :
    editView rounds (editor, kernel.fileSystem) = some (after, final.fileSystem) := by
  induction rounds generalizing editor kernel with
  | nil => contradiction
  | cons round rounds inductionHypothesis =>
      rw [cableLoop] at done
      obtain ⟨⟨code, edited, middle⟩, drawn, rest⟩ := Option.bind_eq_some_iff.mp done
      rw [editView, cableRound_view drawn]
      simp only [Option.bind_eq_bind, Option.bind_some]
      dsimp only at rest
      split_ifs at rest ⊢
      · obtain ⟨rfl, rfl⟩ := Prod.mk.inj (Option.some.inj rest)
        rfl
      · exact inductionHypothesis rest

/-- The editor may leave any picture. -/
theorem cableCommand_follows (rounds : List EditorRound) (filename : CString) :
    Follows ShowsView ShowsView (cableCommand fuel rounds filename) (cableView rounds filename) := by
  rintro ⟨editor, kernel⟩ view ⟨after, final⟩ shows done
  rw [cableCommand] at done
  obtain ⟨opened, opens, rest⟩ := Option.bind_eq_some_iff.mp done
  have same : editor = view.editor := shows.editor
  have files : kernel.fileSystem = view.fileSystem := shows.files
  have edits := cableLoop_view rest
  rw [files, same] at opens
  rw [files] at edits
  refine ⟨⟨none, final.fileSystem, after⟩, ?_, ⟨fun _ known => ?_, rfl, rfl⟩⟩
  · rw [cableView, opens, Option.bind_eq_bind, Option.bind_some, edits]
    rfl
  · contradiction

end Editor

/-! ### Commands -/

section Commands

variable {fuel : Nat} {occasion : Occasion}

/-- A call has its effect on what is shown. -/
theorem perform_follows (call : Call) :
    Follows ShowsView ShowsView (fun machine => call.perform fuel occasion machine)
      fun view => call.effect fuel occasion view := by
  have reported : Follows ShowsView ShowsView
      (fun machine => (call.report occasion.toSurroundings machine.2.fileSystem).bind
        (giveReport machine))
      fun view => (call.report occasion.toSurroundings view.fileSystem).map (tellReport view) := by
    intro machine view after shows done
    obtain ⟨report, told, given⟩ := Option.bind_eq_some_iff.mp done
    rw [shows.files] at told
    exact ⟨tellReport view report, Option.map_eq_some_iff.mpr ⟨report, told, rfl⟩,
      giveReport_shows shows given⟩
  cases call with
  | clear => exact clearScreen_follows 0x07
  | clearScreen color => exact clearScreen_follows color
  | cableMain filename => exact cableCommand_follows occasion.rounds filename
  | executeBdx path =>
      intro machine view after shows done
      obtain ⟨⟨code, final⟩, ran, rfl⟩ := Option.map_eq_some_iff.mp done
      exact executeBdx_follows shows ran
  | _ => exact reported

end Commands

end BrainDance.Shell
