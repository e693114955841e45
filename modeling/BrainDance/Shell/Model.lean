import BrainDance.Drivers.Keyboard
import BrainDance.Libc.Console.Model

/-!
Owns the model of the input loop of `start_shell` in `shell/shell.c`: the command
line under the prompt and what each keyboard character does to it, up to the
call of `process_command` that Enter makes. What a command does, and the prompt
behind it, are not modelled here.
-/

namespace BrainDance.Shell

open BrainDance.Foundation
open BrainDance.Drivers
open BrainDance.Libc

/-- `MAX_COMMAND_LENGTH`. -/
abbrev maxCommandLength : Nat := 256

/-- The byte of `'\b'`. -/
def backspace : Byte := 0x08

/-- `command_buffer` and `command_len`, with the console that shows them. -/
structure CommandLine where
  console : Console
  commandBuffer : Image
  commandLen : Nat

/-- `command_buffer[index] = c`. -/
def storeCommand (shell : CommandLine) (index : Nat) (c : Byte) : Option CommandLine :=
  if index < maxCommandLength then
    some { shell with commandBuffer := Function.update shell.commandBuffer index c }
  else none

/-- `command_buffer[command_len++] = c; print_char(c, COLOR_INPUT)`. -/
def appendCommand (c : Byte) (shell : CommandLine) : Option CommandLine := do
  let stored ← storeCommand shell shell.commandLen c
  let console ← printChar c colorInput stored.console
  some { stored with console := console, commandLen := stored.commandLen + 1 }

/-- A round of the loop for a character other than Enter. -/
def shellKey (c : Byte) (shell : CommandLine) : Option CommandLine :=
  if c = 0 then some shell
  else if c = keyUp then
    (scrollUp shell.console).map fun console => { shell with console := console }
  else if c = keyDown then
    (scrollDown shell.console).map fun console => { shell with console := console }
  else if c = backspace then
    if shell.commandLen > 0 then
      (printBackspace shell.console).map fun console =>
        { shell with console := console, commandLen := shell.commandLen - 1 }
    else some shell
  else if shell.commandLen < maxCommandLength - 1 then appendCommand c shell
  else some shell

/-- The loop over characters none of which is Enter. -/
def shellKeys : List Byte → CommandLine → Option CommandLine
  | [], shell => some shell
  | c :: rest, shell => (shellKey c shell).bind (shellKeys rest)

/-- Enter, up to `process_command(command_buffer)`. -/
def enterCommand (shell : CommandLine) : Option CommandLine := do
  let terminated ← storeCommand shell shell.commandLen 0
  let console ← print [lineFeed, 0] colorInput terminated.console
  some { terminated with console := console }

end BrainDance.Shell
