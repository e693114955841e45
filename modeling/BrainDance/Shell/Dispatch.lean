import BrainDance.Libc.Colors
import BrainDance.Libc.Compare
import BrainDance.Libc.Strtok
import BrainDance.Shell.Commands

/-!
Owns `process_command` of `shell/shell.c`: which calls a command line makes and with
which strings. The chain of comparisons is a table of names in the order of the
source, each with how its branch reads the rest of the line. What `execute_bdx`
returns is an argument.

A line with a word is dispatched by it. A line without one makes `strtok` return
`NULL`, which goes to `strcmp`.
-/

namespace BrainDance.Shell

open BrainDance.Foundation
open BrainDance.Libc

/-! ### Model -/

/-- The calls that `process_command` makes. -/
inductive Call where
  | help
  | clear
  | meminfo
  | time
  | halt
  | reboot
  | shutdown
  | sysinfo
  | ls
  | touch (filename : CString)
  | write (filename data : CString)
  | echo (text : Option CString)
  | cat (filename : CString)
  | cableMain (filename : CString)
  | clearScreen (color : Byte)
  | rm (filename : CString)
  | mv (oldFilename newFilename : CString)
  | mkdir (dirname : CString)
  | cd (dirname : CString)
  | calculatorMain (expression : CString)
  | pulse
  | pciListDevices
  | applist
  | executeBdx (path : CString)
  | print (text : CString) (color : Byte)
deriving DecidableEq

/-- The branch of a name: what it reads of the rest of the line, its calls, and its
usage line where an argument is missing. -/
inductive Handler where
  | plain (call : Call)
  | word (calls : CString → List Call) (usage : CString)
  | twoWords (call : CString → CString → Call) (usage : CString)
  | wordAndRest (call : CString → CString → Call) (usage : CString)
  | rest (call : CString → Call) (missing : Call)

/-- `" "`. -/
def blank : CString := literal " ".toList

/-- The branches in the order of the source. -/
def handlers : List (CString × Handler) := [
  (literal "help".toList, .plain .help),
  (literal "clear".toList, .plain .clear),
  (literal "meminfo".toList, .plain .meminfo),
  (literal "time".toList, .plain .time),
  (literal "halt".toList, .plain .halt),
  (literal "reboot".toList, .plain .reboot),
  (literal "shutdown".toList, .plain .shutdown),
  (literal "sysinfo".toList, .plain .sysinfo),
  (literal "ls".toList, .plain .ls),
  (literal "touch".toList,
    .word (fun token => [.touch token]) (literal "Usage: touch <filename>\n".toList)),
  (literal "write".toList,
    .wordAndRest .write (literal "Usage: write <filename> <data>\n".toList)),
  (literal "echo".toList, .rest (fun text => .echo (some text)) (.echo none)),
  (literal "cat".toList,
    .word (fun token => [.cat token]) (literal "Usage: cat <filename>\n".toList)),
  (literal "cable".toList,
    .word (fun token => [.cableMain token, .clearScreen colorSystem])
      (literal "Usage: cable <filename>\n".toList)),
  (literal "rm".toList,
    .word (fun token => [.rm token]) (literal "Usage: rm <filename>\n".toList)),
  (literal "mv".toList,
    .twoWords .mv (literal "Usage: mv <source> <destination>\n".toList)),
  (literal "mkdir".toList,
    .word (fun dirname => [.mkdir dirname]) (literal "Usage: mkdir <dirname>\n".toList)),
  (literal "cd".toList,
    .word (fun dirname => [.cd dirname]) (literal "Usage: cd <dirname>\n".toList)),
  (literal "calc".toList,
    .rest .calculatorMain
      (.print (literal "Usage: calc <expression>\n".toList) colorError)),
  (literal "pulse".toList, .plain .pulse),
  (literal "chrome".toList, .plain .pciListDevices),
  (literal "applist".toList, .plain .applist)]

/-- The string behind a pointer into the array, where the pointer is not `NULL`. -/
def stringBehind (memory : List Byte) : Option Nat → Option (Option CString)
  | none => some none
  | some pointer => (readString (memory.drop pointer)).map some

/-- The body of a branch, with the calls of `strtok` that it makes. -/
def Handler.run (tokenizer : Tokenizer) : Handler → Option (List Call)
  | .plain call => some [call]
  | .word calls usage => do
      let (token, last) ← strtok none blank tokenizer
      match ← stringBehind last.memory token with
      | some token => some (calls token)
      | none => some [.print usage colorError]
  | .twoWords call usage => do
      let (first, next) ← strtok none blank tokenizer
      let (second, last) ← strtok none blank next
      match ← stringBehind last.memory first, ← stringBehind last.memory second with
      | some first, some second => some [call first second]
      | _, _ => some [.print usage colorError]
  | .wordAndRest call usage => do
      let (first, next) ← strtok none blank tokenizer
      let (second, last) ← strtok none CString.nil next
      match ← stringBehind last.memory first, ← stringBehind last.memory second with
      | some first, some second => some [call first second]
      | _, _ => some [.print usage colorError]
  | .rest call missing => do
      let (text, last) ← strtok none CString.nil tokenizer
      match ← stringBehind last.memory text with
      | some text => some [call text]
      | none => some [missing]

/-- The last branch: the line itself runs as a program or is unknown. -/
def otherCommand (executeBdx : CString → Int) (command : CString) : Option (List Call) :=
  if strlen command > 0 then do
    if (← endsWith (some command) (some bdxSuffix)) ≠ 0 then
      some (.executeBdx command ::
        if executeBdx command ≠ 0 then
          [.print (literal "Error executing ".toList) colorError, .print command colorError,
            .print (literal "\n".toList) colorError]
        else [])
    else
      some [.print (literal "Unknown command: ".toList) colorError, .print command colorError,
        .print (literal "\n".toList) colorError]
  else some []

/-- `cmd` once the line is copied into it. -/
def copyCommand (cmd : Fin maxCommandLength → Byte) (command : CString)
    (fits : command.bytes.length < maxCommandLength) : List Byte :=
  List.ofFn (strcpy cmd command fits)

/-- `process_command`, where `cmd` is what the array holds before the line is copied
into it. Without a token `strcmp` reads through `NULL`. -/
def processCommand (executeBdx : CString → Int) (cmd : Fin maxCommandLength → Byte)
    (strtokState : Option Nat) (command : CString)
    (fits : command.bytes.length < maxCommandLength) : Option (List Call) := do
  let (token, tokenizer) ← strtok (some 0) blank ⟨copyCommand cmd command fits, strtokState⟩
  let token ← ← stringBehind tokenizer.memory token
  match handlers.find? fun entry => strcmp token.image entry.1 == 0 with
  | some entry => entry.2.run tokenizer
  | none => otherCommand executeBdx command

/-! ### What a line means -/

/-- The first word of the text and what follows the space behind it. -/
def nextWord (text : CString) : Option (CString × CString) :=
  match found : nextRun (isDelimiter blank) text.bytes with
  | none => none
  | some (token, rest) => some
      (⟨token, fun char member => text.noNul char (mem_of_mem_nextRun found (.inl member))⟩,
        ⟨rest, fun char member => text.noNul char (mem_of_mem_nextRun found (.inr member))⟩)

/-- The calls of a branch on the rest of its line. -/
def Handler.calls (rest : CString) : Handler → List Call
  | .plain call => [call]
  | .word calls usage =>
      match nextWord rest with
      | some (token, _) => calls token
      | none => [.print usage colorError]
  | .twoWords call usage =>
      match nextWord rest with
      | some (first, remainder) =>
          match nextWord remainder with
          | some (second, _) => [call first second]
          | none => [.print usage colorError]
      | none => [.print usage colorError]
  | .wordAndRest call usage =>
      match nextWord rest with
      | some (first, remainder) =>
          if remainder.bytes = [] then [.print usage colorError] else [call first remainder]
      | none => [.print usage colorError]
  | .rest call missing => if rest.bytes = [] then [missing] else [call rest]

/-- The calls of a line that no name begins. -/
def otherCalls (executeBdx : CString → Int) (command : CString) : List Call :=
  if bdxSuffix.bytes <:+ command.bytes then
    .executeBdx command ::
      if executeBdx command ≠ 0 then
        [.print (literal "Error executing ".toList) colorError, .print command colorError,
          .print (literal "\n".toList) colorError]
      else []
  else
    [.print (literal "Unknown command: ".toList) colorError, .print command colorError,
      .print (literal "\n".toList) colorError]

/-- The call reaches the files or directories. -/
def Call.UsesFiles : Call → Prop
  | .ls | .touch _ | .write _ _ | .cat _ | .cableMain _ | .rm _ | .mv _ _ | .mkdir _ | .cd _
  | .executeBdx _ => True
  | _ => False

/-- The line is dispatched by its first word; one without a word leaves the files
alone. In both cases the calls exist: no `NULL` has gone to `strcmp`. -/
def Dispatched (executeBdx : CString → Int) (command : CString) (result : Option (List Call)) :
    Prop :=
  ∃ calls, result = some calls ∧
    match nextWord command with
    | none => ∀ call ∈ calls, ¬ call.UsesFiles
    | some (word, rest) =>
        (∀ handler, (word, handler) ∈ handlers → calls = handler.calls rest) ∧
          ((∀ handler, (word, handler) ∉ handlers) → calls = otherCalls executeBdx command)

theorem nextWord_eq_none {text : CString} (noWord : nextWord text = none) :
    nextRun (isDelimiter blank) text.bytes = none := by
  unfold nextWord at noWord
  split at noWord
  · assumption
  · contradiction

theorem nextWord_eq_some {text word rest : CString} (found : nextWord text = some (word, rest)) :
    nextRun (isDelimiter blank) text.bytes = some (word.bytes, rest.bytes) := by
  unfold nextWord at found
  split at found
  · contradiction
  · obtain ⟨rfl, rfl⟩ := Prod.mk.inj (Option.some.inj found)
    assumption

/-- A line has a word exactly when some character is not a space. -/
theorem nextWord_eq_none_iff (text : CString) :
    nextWord text = none ↔ ∀ char ∈ text.bytes, char = 0x20 := by
  have spaces : (∀ char ∈ text.bytes, char = 0x20) ↔
      nextRun (isDelimiter blank) text.bytes = none := by
    rw [nextRun_eq_none]
    exact forall₂_congr fun char _ => by simp [isDelimiter_iff, blank, literal, asciiBytes]
  rw [spaces]
  constructor
  · exact nextWord_eq_none
  · intro noRun
    cases found : nextWord text with
    | none => rfl
    | some split => simp [nextWord_eq_some found] at noRun

/-! ### The calls of `strtok` -/

section Tokens

variable {line rest word remainder : CString} {offset : Nat} {tokenizer : Tokenizer}

/-- The rest of the line stands in the array from the static pointer on. -/
structure Pending (line : CString) (offset : Nat) (tokenizer : Tokenizer) (rest : CString) :
    Prop where
  state : tokenizer.strtokState = some offset
  inLine : offset ≤ line.bytes.length
  rest_eq : rest.bytes = line.bytes.drop offset
  shown : StringAt tokenizer.memory offset rest.bytes

/-- The rest of the line as the calls of `strtok` take it, from the start of the array. -/
theorem Pending.fromStart (pending : Pending line offset tokenizer rest) :
    StringAt tokenizer.memory (0 + offset) (line.bytes.drop offset) ∧
      (none <|> tokenizer.strtokState) = some (0 + offset) := by
  rw [Nat.zero_add, ← pending.rest_eq]
  exact ⟨pending.shown, pending.state⟩

theorem Pending.strtok_of_none (pending : Pending line offset tokenizer rest)
    (noWord : nextWord rest = none) : ∃ last, strtok none blank tokenizer = some (none, last) ∧
      last.memory = tokenizer.memory ∧ Pending line line.bytes.length last CString.nil := by
  obtain ⟨shown, state⟩ := pending.fromStart
  have noRun := nextWord_eq_none noWord
  rw [pending.rest_eq] at noRun
  have call := Libc.strtok_of_none shown line.noNul pending.inLine state noRun
  rw [Nat.zero_add] at call
  refine ⟨_, call, rfl, rfl, Nat.le_refl _, List.drop_length.symm, ?_⟩
  have atEnd := @StringAt.suffix _ _ (line.bytes.drop offset) [] (by rwa [List.append_nil])
  rwa [List.length_drop, show 0 + offset + (line.bytes.length - offset) = line.bytes.length from
    by have := pending.inLine; omega] at atEnd

theorem Pending.strtok_of_some (pending : Pending line offset tokenizer rest)
    (found : nextWord rest = some (word, remainder)) :
    ∃ pointer last next, strtok none blank tokenizer = some (some pointer, next) ∧
      pointer + word.bytes.length = last ∧ StringAt next.memory pointer word.bytes ∧
      Pending line (restStart line.bytes last) next remainder ∧
      OnlyDelimiters blank line.bytes 0 offset tokenizer.memory next.memory := by
  obtain ⟨shown, state⟩ := pending.fromStart
  have run := nextWord_eq_some found
  have remainder_eq := nextRun_rest_eq_drop run
  rw [pending.rest_eq] at run remainder_eq
  obtain ⟨next, call, cut, remaining, changed⟩ :=
    Libc.strtok_of_some shown line.noNul pending.inLine state run
  simp only [Nat.zero_add] at call cut remaining
  refine ⟨_, _, ⟨next, _⟩, call, rfl, cut, ?_, changed⟩
  have same : remainder.bytes = line.bytes.drop (restStart line.bytes
      (offset + gap (isDelimiter blank) (line.bytes.drop offset) + word.bytes.length)) := by
    rw [remainder_eq, List.drop_drop, drop_restStart]
    congr 1
    omega
  exact ⟨rfl, Nat.min_le_right _ _, same, same ▸ remaining⟩

theorem Pending.strtok_rest (pending : Pending line offset tokenizer rest) :
    ∃ last, strtok none CString.nil tokenizer =
        some (if rest.bytes = [] then none else some offset, last) ∧
      last.memory = tokenizer.memory :=
  ⟨_, strtok_nil pending.state pending.shown rest.noNul, rfl⟩

theorem stringBehind_none (memory : List Byte) : stringBehind memory none = some none := rfl

theorem stringBehind_some {memory : List Byte} {pointer : Nat} {string : CString}
    (shown : StringAt memory pointer string.bytes) :
    stringBehind memory (some pointer) = some (some string) := by
  rw [stringBehind, shown.read, Option.map_some]

/-- The string behind the pointer that takes all of the rest. -/
theorem Pending.stringBehind_rest (pending : Pending line offset tokenizer rest) :
    stringBehind tokenizer.memory (if rest.bytes = [] then none else some offset) =
      some (if rest.bytes = [] then none else some rest) := by
  split
  · rfl
  · exact stringBehind_some pending.shown

/-! ### The branches -/

/-- A branch makes the calls that the rest of its line asks for. -/
theorem Handler.run_eq (handler : Handler) (pending : Pending line offset tokenizer rest) :
    handler.run tokenizer = some (handler.calls rest) := by
  cases handler with
  | plain call => rfl
  | word calls usage =>
      cases found : nextWord rest with
      | none =>
          obtain ⟨last, call, _⟩ := pending.strtok_of_none found
          simp only [Handler.run, Handler.calls, found, call, stringBehind_none, Option.bind_eq_bind,
            Option.bind_some]
      | some split =>
          obtain ⟨pointer, _, next, call, _, shown, _⟩ := pending.strtok_of_some found
          simp only [Handler.run, Handler.calls, found, call, stringBehind_some shown,
            Option.bind_eq_bind, Option.bind_some]
  | twoWords call usage =>
      cases found : nextWord rest with
      | none =>
          obtain ⟨last, firstCall, _, ended⟩ := pending.strtok_of_none found
          obtain ⟨last', secondCall, _⟩ := ended.strtok_of_none rfl
          simp only [Handler.run, Handler.calls, found, firstCall, secondCall, stringBehind_none,
            Option.bind_eq_bind, Option.bind_some]
      | some split =>
          obtain ⟨first, remainder⟩ := split
          obtain ⟨pointer, _, next, firstCall, ends, shown, others, _⟩ :=
            pending.strtok_of_some found
          cases foundSecond : nextWord remainder with
          | none =>
              obtain ⟨last, secondCall, same, _⟩ := others.strtok_of_none foundSecond
              rw [← same] at shown
              simp only [Handler.run, Handler.calls, found, foundSecond, firstCall, secondCall,
                stringBehind_some shown, stringBehind_none, Option.bind_eq_bind, Option.bind_some]
          | some secondSplit =>
              obtain ⟨pointer', _, next', secondCall, _, shown', _, changed⟩ :=
                others.strtok_of_some foundSecond
              have kept := changed.stringAt ends (by rwa [Nat.zero_add])
              rw [Nat.zero_add] at kept
              simp only [Handler.run, Handler.calls, found, foundSecond, firstCall, secondCall,
                stringBehind_some shown', stringBehind_some kept, Option.bind_eq_bind,
                Option.bind_some]
  | wordAndRest call usage =>
      cases found : nextWord rest with
      | none =>
          obtain ⟨last, firstCall, _, ended⟩ := pending.strtok_of_none found
          obtain ⟨last', secondCall, _⟩ := ended.strtok_rest
          rw [if_pos (show CString.nil.bytes = [] from rfl)] at secondCall
          simp only [Handler.run, Handler.calls, found, firstCall, secondCall, stringBehind_none,
            Option.bind_eq_bind, Option.bind_some]
      | some split =>
          obtain ⟨first, remainder⟩ := split
          obtain ⟨pointer, _, next, firstCall, _, shown, others, _⟩ :=
            pending.strtok_of_some found
          obtain ⟨last, secondCall, same⟩ := others.strtok_rest
          have taken := others.stringBehind_rest
          rw [← same] at shown taken
          simp only [Handler.run, Handler.calls, found, firstCall, secondCall, Option.bind_eq_bind,
            Option.bind_some, stringBehind_some shown, taken]
          by_cases empty : remainder.bytes = []
          · simp [empty]
          · simp [empty]
  | rest call missing =>
      obtain ⟨last, restCall, same⟩ := pending.strtok_rest
      have taken := pending.stringBehind_rest
      rw [← same] at taken
      simp only [Handler.run, Handler.calls, restCall, Option.bind_eq_bind, Option.bind_some, taken]
      by_cases empty : rest.bytes = []
      · simp [empty]
      · simp [empty]

end Tokens

/-! ### The line -/

section Line

variable (executeBdx : CString → Int) (cmd : Fin maxCommandLength → Byte)
  (strtokState : Option Nat) {command word rest : CString}
  (fits : command.bytes.length < maxCommandLength)

/-- The copied line is all pending. -/
theorem pending_start :
    Pending command 0 ⟨copyCommand cmd command fits, some 0⟩ command := by
  refine ⟨rfl, Nat.zero_le _, rfl, stringAt_iff.mpr fun index inString => ?_⟩
  rw [copyCommand, Nat.zero_add, List.getElem?_ofFn, dif_pos (Nat.lt_of_le_of_lt inString fits), strcpy,
    if_pos inString]
  rfl

theorem otherCommand_eq (nonempty : command.bytes ≠ []) :
    otherCommand executeBdx command = some (otherCalls executeBdx command) := by
  have positive : strlen command > 0 := List.length_pos_iff.mpr nonempty
  rw [otherCommand, otherCalls, if_pos positive, endsWith_eq]
  by_cases suffix : bdxSuffix.bytes <:+ command.bytes
  · rw [if_pos suffix, if_pos suffix]
    rfl
  · rw [if_neg suffix, if_neg suffix]
    rfl

theorem processCommand_of_none (noWord : nextWord command = none) :
    processCommand executeBdx cmd strtokState command fits = none := by
  obtain ⟨last, call, _⟩ := (pending_start cmd fits).strtok_of_none noWord
  have first : strtok (some 0) blank ⟨copyCommand cmd command fits, strtokState⟩ =
      some (none, last) := call
  simp [processCommand, first, stringBehind_none]

theorem processCommand_of_some (found : nextWord command = some (word, rest)) :
    processCommand executeBdx cmd strtokState command fits =
      match handlers.find? fun entry => strcmp word.image entry.1 == 0 with
      | some entry => some (entry.2.calls rest)
      | none => otherCommand executeBdx command := by
  obtain ⟨pointer, _, next, call, _, shown, others, _⟩ :=
    (pending_start cmd fits).strtok_of_some found
  have first : strtok (some 0) blank ⟨copyCommand cmd command fits, strtokState⟩ =
      some (some pointer, next) := call
  simp only [processCommand, first, stringBehind_some shown, Option.bind_eq_bind,
    Option.bind_some, Handler.run_eq _ others]

/-- No two branches have the same name. -/
theorem handlers_nodup : (handlers.map Prod.fst).Nodup := by
  decide

theorem handler_unique {first second : Handler} (firstMember : (word, first) ∈ handlers)
    (secondMember : (word, second) ∈ handlers) : first = second :=
  (Prod.mk.inj (List.inj_on_of_nodup_map handlers_nodup firstMember secondMember rfl)).2

/-- The chain of comparisons ends in the branch of its name. -/
theorem find_handler {entry : CString × Handler}
    (found : (handlers.find? fun entry => strcmp word.image entry.1 == 0) = some entry) :
    (word, entry.2) ∈ handlers := by
  have sameName : word = entry.1 := by
    have compared := List.find?_some found
    exact (strcmp_image_eq_zero_iff word entry.1).mp (by simpa using compared)
  rw [sameName]
  exact List.mem_of_find?_eq_some found

/-- The line is dispatched by its first word exactly when it has one: a character
that is not a space. -/
theorem processCommand_dispatched_iff (command : CString)
    (fits : command.bytes.length < maxCommandLength) :
    Dispatched executeBdx command (processCommand executeBdx cmd strtokState command fits) ↔
      ∃ char ∈ command.bytes, char ≠ 0x20 := by
  have hasWord : (∃ char ∈ command.bytes, char ≠ 0x20) ↔ nextWord command ≠ none := by
    rw [Ne, nextWord_eq_none_iff]
    simp
  rw [hasWord]
  cases found : nextWord command with
  | none =>
      rw [processCommand_of_none executeBdx cmd strtokState fits found]
      simp [Dispatched]
  | some split =>
      obtain ⟨word, rest⟩ := split
      rw [processCommand_of_some executeBdx cmd strtokState fits found]
      have nonempty : command.bytes ≠ [] := by
        obtain ⟨char, member, _⟩ := hasWord.mpr (by simp [found])
        exact List.ne_nil_of_mem member
      simp only [Dispatched, found, Ne, reduceCtorEq, not_false_eq_true, iff_true]
      cases selected : handlers.find? fun entry => strcmp word.image entry.1 == 0 with
      | none =>
          have noName : ∀ handler, (word, handler) ∉ handlers := by
            intro handler member
            have skipped := List.find?_eq_none.mp selected _ member
            exact skipped (by simpa using (strcmp_image_eq_zero_iff word word).mpr rfl)
          exact ⟨_, otherCommand_eq executeBdx nonempty,
            fun handler member => absurd member (noName handler), fun _ => rfl⟩
      | some entry =>
          have member := find_handler selected
          refine ⟨_, rfl, ?_, fun noName => absurd member (noName entry.2)⟩
          intro handler named
          rw [handler_unique named member]

end Line

theorem processCommand_dispatched_iff_ls :
    Dispatched (fun _ => 0) (literal "ls".toList)
      (processCommand (fun _ => 0) (fun _ => 0) none (literal "ls".toList) (by decide)) :=
  (processCommand_dispatched_iff (fun _ => 0) (fun _ => 0) none (literal "ls".toList)
    (by decide)).mpr (by decide)

/-- Enter on an empty line. -/
theorem processCommand_dispatched_fails :
    ¬ Dispatched (fun _ => 0) CString.nil
      (processCommand (fun _ => 0) (fun _ => 0) none CString.nil (by decide)) := by
  rw [processCommand_of_none _ _ _ _ rfl]
  simp [Dispatched]

end BrainDance.Shell
