import BrainDance.Shell.Terminal

/-!
Owns the calls of a line. `process_command` finds them by comparing and cutting strings in an
array; here they are looked up by the line's first word. What holds of the calls of every
branch holds of the calls of a line.
-/

namespace BrainDance.Shell

open BrainDance.Foundation
open BrainDance.Libc
open BrainDance.Fs.Bdfs

section Lines

variable {command : CString}

/-- The chain of comparisons with `strcmp` looks the word up. -/
theorem processCommand_eq (executeBdx : CString → Int) (cmd : Fin maxCommandLength → Byte)
    (strtokState : Option Nat) (fits : command.bytes.length < maxCommandLength) :
    processCommand executeBdx cmd strtokState command fits = lineCalls executeBdx command := by
  cases found : nextWord command with
  | none => rw [processCommand_of_none _ _ _ _ found, lineCalls, found, Option.map_none]
  | some split =>
      obtain ⟨word, rest⟩ := split
      have compares : (fun entry : CString × Handler => strcmp word.image entry.1 == 0) =
          fun entry => decide (entry.1 = word) := by
        funext entry
        rw [Bool.eq_iff_iff, beq_iff_eq, decide_eq_true_eq, strcmp_image_eq_zero_iff]
        exact eq_comm
      have nonempty : command.bytes ≠ [] := by
        intro empty
        rw [(nextWord_eq_none_iff command).mpr (by rw [empty]; exact List.forall_mem_nil _)]
          at found
        contradiction
      rw [processCommand_of_some _ _ _ _ found, compares, lineCalls, found, Option.map_some]
      cases handlers.find? fun entry => decide (entry.1 = word) with
      | none => exact otherCommand_eq executeBdx nonempty
      | some entry => rfl

theorem processLine_eq (occasion : Occasion) (fs : FileSystem)
    (fits : command.bytes.length < maxCommandLength) :
    processLine occasion fs command = lineCalls (bdxResult fs) command := by
  rw [processLine, dif_pos fits, processCommand_eq]

theorem nextWord_length {text word rest : CString} (found : nextWord text = some (word, rest)) :
    strlen rest ≤ strlen text := by
  rw [strlen, strlen, nextRun_rest_eq_drop (nextWord_eq_some found), List.length_drop]
  exact Nat.sub_le _ _

/-- Whatever the line, as long as the limit, the branch makes calls of this kind. -/
def Handler.Makes (limit : Nat) (Kind : List Call → Prop) : Handler → Prop
  | .plain call => Kind [call]
  | .word calls usage => (∀ token, Kind (calls token)) ∧ Kind [.print usage colorError]
  | .twoWords call usage =>
      (∀ first second, Kind [call first second]) ∧ Kind [.print usage colorError]
  | .wordAndRest call usage =>
      (∀ first rest, strlen rest ≤ limit → Kind [call first rest]) ∧ Kind [.print usage colorError]
  | .rest call missing => (∀ rest, strlen rest ≤ limit → Kind [call rest]) ∧ Kind [missing]

theorem Handler.Makes.calls {limit : Nat} {Kind : List Call → Prop} {handler : Handler}
    (makes : handler.Makes limit Kind) {rest : CString} (short : strlen rest ≤ limit) :
    Kind (handler.calls rest) := by
  cases handler with
  | plain call => exact makes
  | word calls usage =>
      rw [Handler.calls]
      cases nextWord rest with
      | none => exact makes.2
      | some split => exact makes.1 split.1
  | twoWords call usage =>
      rw [Handler.calls]
      cases nextWord rest with
      | none => exact makes.2
      | some split =>
          dsimp only
          cases nextWord split.2 with
          | none => exact makes.2
          | some second => exact makes.1 split.1 second.1
  | wordAndRest call usage =>
      rw [Handler.calls]
      cases found : nextWord rest with
      | none => exact makes.2
      | some split =>
          dsimp only
          split_ifs
          · exact makes.2
          · exact makes.1 split.1 split.2 ((nextWord_length found).trans short)
  | rest call missing =>
      rw [Handler.calls]
      split_ifs
      · exact makes.2
      · exact makes.1 rest short

/-- The calls of a line are of a kind when the branches' and those of a program are. -/
theorem lineCalls_kind {Kind : List Call → Prop} {executeBdx : CString → Int} {calls : List Call}
    (called : lineCalls executeBdx command = some calls)
    (branches : ∀ entry ∈ handlers, entry.2.Makes (strlen command) Kind)
    (others : Kind (otherCalls executeBdx command)) : Kind calls := by
  obtain ⟨split, found, rfl⟩ := Option.map_eq_some_iff.mp called
  cases chosen : handlers.find? fun entry => decide (entry.1 = split.1) with
  | none => exact others
  | some entry =>
      exact (branches entry (List.mem_of_find?_eq_some chosen)).calls (nextWord_length found)

/-- The call draws over the text. -/
def Call.Draws : Call → Prop
  | .cableMain _ => True
  | _ => False

/-- The calls leave a text on the screen. -/
def LeaveText (calls : List Call) : Prop :=
  (∀ call ∈ calls, ¬ call.Draws) ∨
    ∃ filename, calls = [.cableMain filename, .clearScreen colorSystem]

theorem leaveText_singleton (call : Call) : LeaveText [call] ↔ ¬ call.Draws := by
  refine ⟨fun leave draws => ?_, fun keeps => .inl (List.forall_mem_singleton.mpr keeps)⟩
  rcases leave with none | ⟨filename, same⟩
  · exact none call (List.mem_singleton_self call) draws
  · simp at same

theorem handlers_leaveText (limit : Nat) : ∀ entry ∈ handlers, entry.2.Makes limit LeaveText := by
  have opened (token : CString) :
      LeaveText [.cableMain token, .clearScreen colorSystem] := .inr ⟨token, rfl⟩
  simp [handlers, Handler.Makes, leaveText_singleton, opened, Call.Draws]

theorem otherCalls_leaveText (executeBdx : CString → Int) (command : CString) :
    LeaveText (otherCalls executeBdx command) := by
  refine .inl ?_
  rw [otherCalls]
  split_ifs <;> simp [Call.Draws]

end Lines

end BrainDance.Shell
