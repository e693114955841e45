import BrainDance.Libc.Console.Transcript

/-!
Owns the text of output. A program's output is the list of the calls of `print`, `print_int`,
`print_char` and `kprintf` that it makes, and its text is the text of these calls, whatever
console they print on.
-/

namespace BrainDance.Libc

open BrainDance.Foundation

/-- On every console the routine returns and adds the text to what is printed. -/
def Prints (text : List Byte) (routine : Console → Option Console) : Prop :=
  ∀ printed console, Transcribes printed [] console →
    ∃ after, routine console = some after ∧ Transcribes (printed ++ text) [] after

/-! ### Composition -/

theorem Prints.nothing : Prints [] some := fun printed console shows =>
  ⟨console, rfl, by rwa [List.append_nil]⟩

theorem Prints.bind {first second : List Byte} {routine next : Console → Option Console}
    (prints : Prints first routine) (printsNext : Prints second next) :
    Prints (first ++ second) fun console => (routine console).bind next := by
  intro printed console shows
  obtain ⟨middle, done, showsMiddle⟩ := prints printed console shows
  obtain ⟨after, doneNext, showsAfter⟩ := printsNext _ middle showsMiddle
  refine ⟨after, ?_, by rwa [← List.append_assoc]⟩
  show (routine console).bind next = some after
  rw [done, Option.bind_some, doneNext]

theorem Prints.foldlM {Item : Type} {step : Console → Item → Option Console}
    {text : Item → List Byte} (prints : ∀ item, Prints (text item) fun console => step console item)
    (items : List Item) :
    Prints (items.flatMap text) fun console => items.foldlM step console := by
  induction items with
  | nil => exact Prints.nothing
  | cons item items inductionHypothesis => exact (prints item).bind inductionHypothesis

/-! ### Routines -/

section Routines

variable (color : Byte)

theorem printChar_prints (c : Byte) : Prints [c] (printChar c color) := fun _ _ shows =>
  shows.printChar c color

theorem print_prints {chars : List Byte} (noNul : ∀ c ∈ chars, c ≠ 0) :
    Prints chars (print (chars ++ [0]) color) := by
  induction chars with
  | nil => exact Prints.nothing
  | cons c chars inductionHypothesis =>
      obtain ⟨notNul, others⟩ := List.forall_mem_cons.mp noNul
      have prints : print (c :: chars ++ [0]) color = fun console =>
          (printChar c color console).bind (print (chars ++ [0]) color) := by
        funext console
        rw [List.cons_append, print, if_neg notNul]
      rw [prints]
      exact (printChar_prints color c).bind (inductionHypothesis others)

theorem printChars_prints {chars : List Byte} (noNul : ∀ c ∈ chars, c ≠ 0) :
    Prints chars (printChars chars color) := by
  rw [show printChars chars color = print (chars ++ [0]) color from
    funext (printChars_eq_print noNul color)]
  exact print_prints color noNul

/-- What `print_int` prints of the least number. -/
def leastText : List Byte := asciiBytes "-./,),(-*,(".toList

/-- What `print_int` prints. -/
def printedInt (number : Word) : List Byte :=
  if number = intMin then leastText else integerText number.toInt

theorem printInt_prints (number : Word) : Prints (printedInt number) (printInt number color) := by
  rw [printedInt]
  by_cases least : number = intMin
  · have stored : intBuffer intMin = some leastText.reverse := by decide
    rw [if_pos least, least]
    have prints : printInt intMin color = printChars leastText color := by
      funext console
      rw [printInt, if_neg (by decide), stored, Option.bind_some, List.reverse_reverse]
    rw [prints]
    exact printChars_prints color (by decide)
  · rw [if_neg least, show printInt number color = print (integerText number.toInt ++ [0]) color from
      funext (printsInt_of_ne least color)]
    exact print_prints color (integerText_noNul _)

/-- A small number prints as its digits. -/
theorem printedInt_of_small {number : Word} (small : number.toNat < 2 ^ 31) :
    printedInt number = decimalText number.toNat := by
  have value : number.toInt = number.toNat := BitVec.toInt_eq_toNat_of_lt (by omega)
  have notLeast : number ≠ intMin := by
    rintro rfl
    exact absurd small (by decide)
  rw [printedInt, if_neg notLeast, value, integerText, if_neg (by omega), Int.natAbs_natCast]

theorem decimalText_noNul (number : Nat) : ∀ c ∈ decimalText number, c ≠ 0 := by
  have noNul := integerText_noNul number
  rwa [integerText, if_neg (by omega), Int.natAbs_natCast] at noNul

theorem printUint_prints (number : Word) :
    Prints (decimalText number.toNat) (printUint number color) := by
  rw [show printUint number color = print (decimalText number.toNat ++ [0]) color from
    funext (printUint_eq_print number color)]
  exact print_prints color (decimalText_noNul _)

/-- The eight digits that `print_hex` prints. -/
def hexDigits (number : Word) : List Byte :=
  [28, 24, 20, 16, 12, 8, 4, 0].map (hexDigit number)

theorem hexDigit_ne_zero (number : Word) (i : Nat) : hexDigit number i ≠ 0 := by
  have below : ((number >>> i) &&& 0xF).toNat < 16 := by
    rw [BitVec.toNat_and]
    exact Nat.lt_of_le_of_lt Nat.and_le_right (by decide)
  have digits : ∀ digit < 16, hexChars.getD digit 0 ≠ 0 := by decide
  exact digits _ below

theorem printHex_prints (number : Word) :
    Prints ([0x30, 0x78] ++ hexDigits number) (printHex number color) := by
  refine (print_prints color (by decide)).bind (printChars_prints color fun c member => ?_)
  obtain ⟨i, _, rfl⟩ := List.mem_map.mp member
  exact hexDigit_ne_zero number i

end Routines

/-! ### Formats -/

/-- The text of a specifier, and the number of words used. -/
def kprintfSpecText (args : VaList) (spec : Byte) (next : Nat) : Nat × List Byte :=
  if spec = 0x64 then (next + 1, printedInt (args.word next))
  else if spec = 0x75 then (next + 1, decimalText (args.word next).toNat)
  else if spec = 0x78 then (next + 1, [0x30, 0x78] ++ hexDigits (args.word next))
  else if spec = 0x73 then (next + 1, (args.stringAt (args.word next)).bytes)
  else if spec = 0x63 then (next + 1, [(args.word next).setWidth 8])
  else if spec = percent then (next, [percent])
  else (next, [percent, spec])

def kprintfText (args : VaList) : List Byte → Nat → List Byte
  | [], _ => []
  | [char], _ => [char]
  | char :: spec :: rest, next =>
      if char = percent then
        (kprintfSpecText args spec next).2 ++
          kprintfText args rest (kprintfSpecText args spec next).1
      else char :: kprintfText args (spec :: rest) next

theorem kprintfSpec_prints (args : VaList) (spec : Byte) (next : Nat) {printed : List Byte}
    {console : Console} (shows : Transcribes printed [] console) :
    ∃ after, kprintfSpec args spec next console =
        some ((kprintfSpecText args spec next).1, after) ∧
      Transcribes (printed ++ (kprintfSpecText args spec next).2) [] after := by
  have counted {text : List Byte} {routine : Console → Option Console} (prints : Prints text routine)
      (used : Nat) : ∃ after, (routine console).map (fun after => (used, after)) =
        some (used, after) ∧ Transcribes (printed ++ text) [] after := by
    obtain ⟨after, done, showsAfter⟩ := prints printed console shows
    exact ⟨after, by rw [done, Option.map_some], showsAfter⟩
  unfold kprintfSpec kprintfSpecText
  split_ifs
  · exact counted (printInt_prints _ _) _
  · exact counted (printUint_prints _ _) _
  · exact counted (printHex_prints _ _) _
  · exact counted (print_prints _ (args.stringAt _).noNul) _
  · exact counted (printChar_prints _ _) _
  · exact counted (printChar_prints _ _) _
  · obtain ⟨after, done, showsAfter⟩ := counted
      ((printChar_prints 0x07 percent).bind (printChar_prints 0x07 spec)) next
    refine ⟨after, ?_, showsAfter⟩
    rw [← done, Option.map_eq_bind, Option.bind_assoc]
    rfl

theorem kprintfFrom_prints {fmt : List Byte} (complete : Complete fmt) (args : VaList)
    (next : Nat) : Prints (kprintfText args fmt next) (kprintfFrom args fmt next) := by
  induction fmt using Complete.induct generalizing next with
  | case1 => exact Prints.nothing
  | case2 char =>
      intro printed console shows
      rw [Complete] at complete
      rw [kprintfFrom, if_neg complete]
      exact shows.printChar char 0x07
  | case3 spec rest inductionHypothesis =>
      intro printed console shows
      rw [Complete, if_pos rfl] at complete
      obtain ⟨middle, done, showsMiddle⟩ := kprintfSpec_prints args spec next shows
      obtain ⟨after, doneAfter, showsAfter⟩ :=
        inductionHypothesis complete (kprintfSpecText args spec next).1 _ _ showsMiddle
      refine ⟨after, ?_, ?_⟩
      · rw [kprintfFrom, if_pos rfl, done, Option.bind_some, doneAfter]
      · rw [kprintfText, if_pos rfl, ← List.append_assoc]
        exact showsAfter
  | case4 char spec rest other inductionHypothesis =>
      intro printed console shows
      rw [Complete, if_neg other] at complete
      obtain ⟨middle, done, showsMiddle⟩ := shows.printChar char 0x07
      obtain ⟨after, doneAfter, showsAfter⟩ := inductionHypothesis complete next _ _ showsMiddle
      refine ⟨after, ?_, ?_⟩
      · rw [kprintfFrom, if_neg other, done, Option.bind_some, doneAfter]
      · rw [kprintfText, if_neg other, List.append_cons]
        exact showsAfter

/-! ### Calls -/

/-- A format with a specifier behind each of its percent signs. -/
structure Format where
  string : CString
  complete : Complete string.bytes

/-- A format literal of the source. -/
def format (text : String)
    (complete : Complete (message text).bytes := by
      simp [message, asciiBytes, Complete, percent]) : Format :=
  ⟨message text, complete⟩

/-- The words that a call passes. -/
def words (arguments : List Word) : VaList where
  word := fun index => arguments.getD index 0
  stringAt := fun _ => CString.nil

/-- A call that prints. -/
inductive PrintCall where
  | print (str : CString) (color : Byte)
  | printInt (number : Word) (color : Byte)
  | printChar (c color : Byte)
  | kprintf (fmt : Format) (args : VaList)

def PrintCall.exec (console : Console) : PrintCall → Option Console
  | .print str color => Libc.print (str.bytes ++ [0]) color console
  | .printInt number color => Libc.printInt number color console
  | .printChar c color => Libc.printChar c color console
  | .kprintf fmt args => Libc.kprintf fmt.string args console

def PrintCall.text : PrintCall → List Byte
  | .print str _ => str.bytes
  | .printInt number _ => printedInt number
  | .printChar c _ => [c]
  | .kprintf fmt args => kprintfText args fmt.string.bytes 0

/-- The calls made one after the other. -/
def printAll (calls : List PrintCall) (console : Console) : Option Console :=
  calls.foldlM PrintCall.exec console

def outputText (calls : List PrintCall) : List Byte := calls.flatMap PrintCall.text

theorem PrintCall.prints (call : PrintCall) : Prints call.text fun console => call.exec console := by
  cases call with
  | print str color => exact print_prints color str.noNul
  | printInt number color => exact printInt_prints color number
  | printChar c color => exact printChar_prints color c
  | kprintf fmt args => exact kprintfFrom_prints fmt.complete args 0

theorem printAll_prints (calls : List PrintCall) : Prints (outputText calls) (printAll calls) :=
  Prints.foldlM PrintCall.prints calls

end BrainDance.Libc
