import BrainDance.Foundation.Page
import BrainDance.Foundation.Bytes

/-!
Owns the model of the console in `libc/memcore.c`: the buffer of 100 rows, the
cursor, the part of the buffer that is copied to VGA memory, and the functions
that change them. A cell is a character and its colour, two bytes of the source.

The counters are the source's `int`s as integers. An access to a row or a column
outside `scrollback_buffer` has no result. `outb` to the cursor's two registers
is recorded as the position it leaves there.
-/

namespace BrainDance.Libc

open BrainDance.Foundation

/-- `VGA_WIDTH`. -/
abbrev vgaWidth : Nat := 80

/-- `VGA_HEIGHT`. -/
abbrev vgaHeight : Nat := 25

/-- `SCROLLBACK_ROWS`. -/
abbrev scrollbackRows : Nat := 100

/-- The byte of `'\n'`. -/
def lineFeed : Byte := 0x0A

/-- `COLOR_INPUT`. -/
def colorInput : Byte := 0x0B

structure Cell where
  char : Byte
  color : Byte
deriving DecidableEq

/-- A space in the default colour. -/
def blankCell : Cell := ⟨0x20, 0x07⟩

structure Console where
  cursorRow : Int
  cursorCol : Int
  scrollbackRow : Int
  viewRow : Int
  scrollbackBuffer : Nat → Nat → Cell
  vga : Nat → Nat → Cell
  hardwareCursor : BitVec 16

/-! ### The screen -/

/-- The character and colour bytes of a cell of the buffer are set. -/
def storeCell (console : Console) (row col : Int) (cell : Cell) : Option Console :=
  if (0 ≤ row ∧ row < scrollbackRows) ∧ (0 ≤ col ∧ col < vgaWidth) then
    some { console with
      scrollbackBuffer := setCell row.toNat col.toNat cell console.scrollbackBuffer }
  else none

/-- The rows copied from the buffer; a row behind its end is not. -/
def shownRows (console : Console) : Nat → Nat → Cell := fun row col =>
  if row < vgaHeight ∧ col < vgaWidth ∧ console.viewRow + row < scrollbackRows then
    console.scrollbackBuffer (console.viewRow + row).toNat col
  else console.vga row col

def refreshScreen (console : Console) : Option Console :=
  if 0 ≤ console.viewRow then some { console with vga := shownRows console } else none

def updateCursor (console : Console) : Console :=
  { console with
    hardwareCursor :=
      BitVec.ofInt 16 ((console.cursorRow - console.viewRow) * vgaWidth + console.cursorCol) }

def clearScreen (color : Byte) (console : Console) : Option Console :=
  refreshScreen
    { console with
      scrollbackBuffer := fun row col =>
        if row < scrollbackRows ∧ col < vgaWidth then ⟨0x20, color⟩
        else console.scrollbackBuffer row col
      cursorRow := 0
      cursorCol := 0
      scrollbackRow := 0
      viewRow := 0 }

/-! ### Printing -/

/-- A newline moves the cursor; any other character is stored under it. -/
def putChar (c color : Byte) (console : Console) : Option Console :=
  if c = lineFeed then some { console with cursorCol := 0, cursorRow := console.cursorRow + 1 }
  else
    (storeCell console console.cursorRow console.cursorCol ⟨c, color⟩).map fun stored =>
      { stored with cursorCol := stored.cursorCol + 1 }

def wrapCursor (console : Console) : Console :=
  if console.cursorCol ≥ vgaWidth then
    { console with cursorCol := 0, cursorRow := console.cursorRow + 1 }
  else console

def raiseScrollbackRow (console : Console) : Console :=
  if console.cursorRow > console.scrollbackRow then
    { console with scrollbackRow := console.cursorRow }
  else console

/-- The buffer is shifted up when the cursor has left it. -/
def scrollBuffer (console : Console) : Console :=
  if console.cursorRow ≥ scrollbackRows then
    { console with
      scrollbackBuffer := shiftUp scrollbackRows blankCell console.scrollbackBuffer
      cursorRow := console.cursorRow - 1
      scrollbackRow := console.scrollbackRow - 1
      viewRow := console.viewRow - 1 }
  else console

def followCursor (console : Console) : Console :=
  let viewRow := console.scrollbackRow - vgaHeight + 1
  { console with viewRow := if viewRow < 0 then 0 else viewRow }

def printChar (c color : Byte) (console : Console) : Option Console := do
  let console ← putChar c color console
  let console := followCursor (scrollBuffer (raiseScrollbackRow (wrapCursor console)))
  let console ← refreshScreen console
  some (updateCursor console)

/-- `print`, where `msg` is the memory from the pointer on. -/
def print : List Byte → Byte → Console → Option Console
  | [], _, _ => none
  | char :: rest, color, console =>
      if char = 0 then some console
      else (printChar char color console).bind (print rest color)

def printBackspace (console : Console) : Option Console := do
  let console ←
    if console.cursorCol > 0 then
      storeCell { console with cursorCol := console.cursorCol - 1 } console.cursorRow
        (console.cursorCol - 1) blankCell
    else if console.cursorRow > 0 then
      storeCell { console with cursorRow := console.cursorRow - 1, cursorCol := vgaWidth - 1 }
        (console.cursorRow - 1) (vgaWidth - 1) blankCell
    else some console
  let console ← refreshScreen console
  some (updateCursor console)

/-! ### Scrolling -/

def scrollUp (console : Console) : Option Console :=
  if console.viewRow > 0 then refreshScreen { console with viewRow := console.viewRow - 1 }
  else some console

def scrollDown (console : Console) : Option Console :=
  if console.viewRow < console.scrollbackRow then
    refreshScreen { console with viewRow := console.viewRow + 1 }
  else some console

/-- `set_cursor` tests its arguments against the upper bounds only. -/
def setCursor (x y : Int) (console : Console) : Console :=
  if x ≥ vgaWidth ∨ y ≥ vgaHeight then console
  else updateCursor { console with cursorCol := x, cursorRow := y }

/-! ### VGA memory -/

/-- `print_char_at` tests its arguments like `set_cursor`; a cell in front of VGA memory has
no result. -/
def printCharAt (c color : Byte) (x y : Int) (console : Console) : Option Console :=
  if x ≥ vgaWidth ∨ y ≥ vgaHeight then some console
  else
    let place := y * vgaWidth + x
    if 0 ≤ place then
      some { console with
        vga := setCell (place / vgaWidth).toNat (place % vgaWidth).toNat ⟨c, color⟩ console.vga }
    else none

end BrainDance.Libc
