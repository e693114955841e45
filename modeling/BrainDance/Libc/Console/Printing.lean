import BrainDance.Libc.Console.Model
import BrainDance.Libc.Formatting

/-!
Owns the model of the routines of `libc/memcore.c` that print numbers, and of
`kprintf`. A digit is printed as a string of its own.
-/

namespace BrainDance.Libc

open BrainDance.Foundation

/-- `char c[2] = { chars[j], 0 }; print(c, color)`, one character after the other. -/
def printChars (chars : List Byte) (color : Byte) (console : Console) : Option Console :=
  chars.foldlM (fun console char => print [char, 0] color console) console

def printInt (number : Word) (color : Byte) (console : Console) : Option Console :=
  if number = 0 then print [0x30, 0] color console
  else (intBuffer number).bind fun buffer => printChars buffer.reverse color console

def printUint (number : Word) (color : Byte) (console : Console) : Option Console :=
  if number = 0 then print [0x30, 0] color console
  else (uintBuffer number).bind fun buffer => printChars buffer.reverse color console

/-- `hex_chars`. -/
def hexChars : List Byte := asciiBytes "0123456789ABCDEF".toList

/-- `hex_chars[(number >> i) & 0xF]`. -/
def hexDigit (number : Word) (i : Nat) : Byte := hexChars.getD ((number >>> i) &&& 0xF).toNat 0

def printHex (number : Word) (color : Byte) (console : Console) : Option Console := do
  let console ← print [0x30, 0x78, 0] color console
  printChars ([28, 24, 20, 16, 12, 8, 4, 0].map (hexDigit number)) color console

/-- What `kprintf` does at a specifier, and the number of words it has used. -/
def kprintfSpec (args : VaList) (spec : Byte) (next : Nat) (console : Console) :
    Option (Nat × Console) :=
  if spec = 0x64 then (printInt (args.word next) 0x07 console).map fun after => (next + 1, after)
  else if spec = 0x75 then
    (printUint (args.word next) 0x07 console).map fun after => (next + 1, after)
  else if spec = 0x78 then
    (printHex (args.word next) 0x07 console).map fun after => (next + 1, after)
  else if spec = 0x73 then
    (print ((args.stringAt (args.word next)).bytes ++ [0]) 0x07 console).map fun after =>
      (next + 1, after)
  else if spec = 0x63 then
    (printChar ((args.word next).setWidth 8) 0x07 console).map fun after => (next + 1, after)
  else if spec = percent then (printChar percent 0x07 console).map fun after => (next, after)
  else do
    let console ← printChar percent 0x07 console
    let console ← printChar spec 0x07 console
    some (next, console)

/-- The loop of `kprintf`; a last `%` makes it read on behind the format's NUL. -/
def kprintfFrom (args : VaList) : List Byte → Nat → Console → Option Console
  | [], _, console => some console
  | [char], _, console => if char = percent then none else printChar char 0x07 console
  | char :: spec :: rest, next, console =>
      if char = percent then
        (kprintfSpec args spec next console).bind fun result =>
          kprintfFrom args rest result.1 result.2
      else
        (printChar char 0x07 console).bind fun console =>
          kprintfFrom args (spec :: rest) next console

def kprintf (fmt : CString) (args : VaList) (console : Console) : Option Console :=
  kprintfFrom args fmt.bytes 0 console

/-! ### Characters -/

/-- Characters printed one by one are printed as one string. -/
theorem printChars_eq_print {chars : List Byte} (noNul : ∀ char ∈ chars, char ≠ 0) (color : Byte)
    (console : Console) : printChars chars color console = print (chars ++ [0]) color console := by
  induction chars generalizing console with
  | nil => simp [printChars, print]
  | cons char chars inductionHypothesis =>
      obtain ⟨notNul, later⟩ := List.forall_mem_cons.mp noNul
      have atNul : print [0] color = some := rfl
      have single : print [char, 0] color console = printChar char color console := by
        rw [print, if_neg notNul, atNul, Option.bind_fun_some]
      rw [printChars, List.foldlM_cons, single, List.cons_append, print, if_neg notNul]
      exact congrArg _ (funext (inductionHypothesis later))

end BrainDance.Libc
