import Mathlib.Data.BitVec
import Mathlib.Data.List.GetD
import BrainDance.Foundation.Mailbox
import BrainDance.Libc.Memcore

/-!
Owns the way of a key through `drivers/keyboard_driver.c`: `keyboard_handler` runs as an
interrupt and leaves the key in `last_char` and `last_scancode`; `keyboard_get_char` and
`keyboard_get_scancode` test, load and clear these, and a key may come between any two of
their accesses.

Both are mailboxes of one place. `keyboard_get_char_blocking`, which nothing calls, is not
modelled.

The editor indexes the table `kbd_us` with a scancode itself. The table has no entry for the
scancode of a released key, so such a read finds whatever byte lies behind it.
-/

namespace BrainDance.Drivers

open BrainDance.Foundation
open BrainDance.Libc

/-! ### Table -/

/-- `kbd_us`. -/
def kbdUs : List Byte :=
  [0, 27] ++ asciiBytes ['1', '2', '3', '4', '5', '6', '7', '8', '9', '0', '-', '='] ++
  [8, 9] ++ asciiBytes ['q', 'w', 'e', 'r', 't', 'y', 'u', 'i', 'o', 'p', '[', ']'] ++
  [10, 0] ++ asciiBytes ['a', 's', 'd', 'f', 'g', 'h', 'j', 'k', 'l', ';'] ++
  [0x27, 0x60, 0, 0x5C] ++ asciiBytes ['z', 'x', 'c', 'v', 'b', 'n', 'm', ',', '.', '/'] ++
  [0, 0x2A, 0, 0x20] ++ List.replicate 70 0

/-- A scancode, `ctrl_pressed`, and the byte behind the table that the scancode
leads to if it is past its end. -/
structure KeyEvent where
  scancode : Byte
  ctrlPressed : Bool
  pastTable : Byte

/-- `kbd_us[scancode]`. -/
def KeyEvent.char (event : KeyEvent) : Byte :=
  kbdUs.getD event.scancode.toNat event.pastTable

theorem KeyEvent.char_of_inTable {event : KeyEvent}
    (inTable : event.scancode.toNat < kbdUs.length) :
    event.char = kbdUs.getD event.scancode.toNat 0 := by
  rw [KeyEvent.char, List.getD_eq_getElem _ _ inTable, List.getD_eq_getElem _ _ inTable]

/-! ### Model -/

/-- `_KEY_UP`. -/
def keyUp : Byte := 0x48

/-- `_KEY_DOWN`. -/
def keyDown : Byte := 0x50

/-- `last_char`, `last_scancode` and `ctrl_pressed`. -/
structure Keyboard where
  lastChar : Byte
  lastScancode : Byte
  ctrlPressed : Bool
deriving DecidableEq

/-- `keyboard_handler` with the byte that it reads from the data port. -/
def keyboardHandler (keyboard : Keyboard) (scancode : Byte) : Keyboard :=
  let keyboard := { keyboard with lastScancode := scancode }
  if scancode &&& 0x80 ≠ 0 then
    if scancode = 0x9D then { keyboard with ctrlPressed := false } else keyboard
  else if scancode = 0x1D then { keyboard with ctrlPressed := true }
  else if scancode = 0x48 then { keyboard with lastChar := keyUp }
  else if scancode = 0x50 then { keyboard with lastChar := keyDown }
  else if scancode.toNat < 128 then
    if keyboard.ctrlPressed then { keyboard with lastChar := 0 }
    else { keyboard with lastChar := kbdUs.getD scancode.toNat 0 }
  else keyboard

/-- The three accesses of a reader. -/
inductive ReaderAccess where
  | test
  | load
  | clear
deriving DecidableEq

def ReaderAccess.toMail : ReaderAccess → MailAccess Byte
  | .test => .test
  | .load => .load
  | .clear => .clear

/-- A key, or an access of `keyboard_get_char` or of `keyboard_get_scancode`. -/
inductive InputEvent where
  | key (scancode : Byte)
  | getChar (access : ReaderAccess)
  | getScancode (access : ReaderAccess)
deriving DecidableEq

/-- The driver and its two readers, with what they have returned. -/
structure Input where
  keyboard : Keyboard
  charReader : Reader Byte
  codeReader : Reader Byte
  chars : List Byte
  scancodes : List Byte

/-- `last_char` with its reader. -/
def Input.charBox (input : Input) : Mailbox Byte :=
  ⟨input.keyboard.lastChar, input.charReader, input.chars⟩

/-- `last_scancode` with its reader. -/
def Input.codeBox (input : Input) : Mailbox Byte :=
  ⟨input.keyboard.lastScancode, input.codeReader, input.scancodes⟩

def Input.withCharBox (input : Input) (box : Mailbox Byte) : Input :=
  { input with
    keyboard.lastChar := box.place
    charReader := box.reader
    chars := box.taken }

def Input.withCodeBox (input : Input) (box : Mailbox Byte) : Input :=
  { input with
    keyboard.lastScancode := box.place
    codeReader := box.reader
    scancodes := box.taken }

def InputEvent.exec (input : Input) : InputEvent → Option Input
  | .key scancode => some { input with keyboard := keyboardHandler input.keyboard scancode }
  | .getChar access => (input.charBox.exec access.toMail).map input.withCharBox
  | .getScancode access => (input.codeBox.exec access.toMail).map input.withCodeBox

def bootInput : Input := ⟨⟨0, 0, false⟩, .resting, .resting, [], []⟩

def inputSystem : TransitionSystem Input InputEvent where
  Init input := input = bootInput
  Step before event after := event.exec before = some after

/-! ### What a key does -/

/-- The keys that change `ctrl_pressed`. -/
def IsCtrl (scancode : Byte) : Prop := scancode = 0x1D ∨ scancode = 0x9D

instance (scancode : Byte) : Decidable (IsCtrl scancode) := inferInstanceAs (Decidable (_ ∨ _))

/-- Ctrl is held when the last of its keys' scancodes is that of the press. -/
def ctrlHeld (scancodes : List Byte) : Bool :=
  (scancodes.filter fun scancode => IsCtrl scancode).getLast? = some 0x1D

/-- What the key stores in `last_char`: nothing for a release or for Ctrl itself. -/
def storedChar (ctrl : Bool) (scancode : Byte) : Option Byte :=
  if scancode &&& 0x80 ≠ 0 ∨ scancode = 0x1D then none
  else if scancode = 0x48 then some keyUp
  else if scancode = 0x50 then some keyDown
  else if ctrl then some 0
  else some (kbdUs.getD scancode.toNat 0)

theorem pressed_of_lowBit : ∀ scancode : Byte, scancode &&& 0x80 = 0 →
    scancode.toNat < 128 ∧ scancode ≠ 0x9D := by
  decide

theorem keyboardHandler_cases (keyboard : Keyboard) (scancode : Byte) :
    keyboardHandler keyboard scancode =
      ⟨(storedChar keyboard.ctrlPressed scancode).getD keyboard.lastChar, scancode,
        if IsCtrl scancode then scancode = 0x1D else keyboard.ctrlPressed⟩ := by
  unfold keyboardHandler storedChar IsCtrl
  by_cases release : scancode &&& 0x80 ≠ 0
  · have notPress : scancode ≠ 0x1D := by
      rintro rfl
      exact release (by decide)
    rw [if_pos release, if_pos (Or.inl release)]
    simp only [notPress, false_or, decide_false, Option.getD_none]
    split <;> rfl
  · obtain ⟨small, notRelease⟩ := pressed_of_lowBit scancode (not_not.mp release)
    simp only [release, notRelease, small, false_or, or_false, if_false, if_true]
    by_cases press : scancode = 0x1D
    · simp [press]
    · simp only [if_neg press]
      by_cases up : scancode = 0x48
      · simp [up]
      · simp only [if_neg up]
        by_cases down : scancode = 0x50
        · simp [down]
        · simp only [if_neg down]
          cases keyboard.ctrlPressed <;> rfl

/-! ### The two mailboxes -/

/-- The accesses to `last_char` behind the given keys. -/
def charAccesses (earlier : List Byte) : List InputEvent → List (MailAccess Byte)
  | [] => []
  | .key scancode :: rest =>
      ((storedChar (ctrlHeld earlier) scancode).map MailAccess.store).toList ++
        charAccesses (earlier ++ [scancode]) rest
  | .getChar access :: rest => access.toMail :: charAccesses earlier rest
  | .getScancode _ :: rest => charAccesses earlier rest

/-- The accesses to `last_scancode`. -/
def codeAccesses (events : List InputEvent) : List (MailAccess Byte) :=
  events.filterMap fun event =>
    match event with
    | .key scancode => some (.store scancode)
    | .getScancode access => some access.toMail
    | .getChar _ => none

/-- The keys, pressed and released. -/
def scancodes (events : List InputEvent) : List Byte :=
  events.filterMap fun event =>
    match event with
    | .key scancode => some scancode
    | _ => none

theorem ctrlHeld_concat (earlier : List Byte) (scancode : Byte) :
    ctrlHeld (earlier ++ [scancode]) =
      if IsCtrl scancode then decide (scancode = 0x1D) else ctrlHeld earlier := by
  unfold ctrlHeld
  rw [List.filter_append]
  by_cases ctrl : IsCtrl scancode
  · simp [ctrl]
  · simp [ctrl]

section Runs

variable {before after : Input} {events : List InputEvent}

/-- One run of the driver is a run of each mailbox. -/
theorem run_boxes (run : inputSystem.Run before events after) {earlier : List Byte}
    (ctrl : before.keyboard.ctrlPressed = ctrlHeld earlier) :
    after.keyboard.ctrlPressed = ctrlHeld (earlier ++ scancodes events) ∧
      Mailbox.system.Run before.charBox (charAccesses earlier events) after.charBox ∧
      Mailbox.system.Run before.codeBox (codeAccesses events) after.codeBox := by
  induction run generalizing earlier with
  | nil state =>
      exact ⟨by rw [ctrl]; simp [scancodes], .nil _, .nil _⟩
  | @cons before middle after event rest step _ inductionHypothesis =>
      cases event with
      | key scancode =>
          obtain rfl := Option.some.inj step
          have held : (keyboardHandler before.keyboard scancode).ctrlPressed =
              ctrlHeld (earlier ++ [scancode]) := by
            rw [keyboardHandler_cases, ctrlHeld_concat, ctrl]
          obtain ⟨last, chars, codes⟩ := inductionHypothesis held
          have code : Mailbox.system.Step before.codeBox (.store scancode)
              (Input.codeBox { before with
                keyboard := keyboardHandler before.keyboard scancode }) := by
            rw [Input.codeBox, keyboardHandler_cases]
            rfl
          refine ⟨by rw [last, List.append_assoc]; rfl, ?_, .cons code codes⟩
          rw [charAccesses, ← ctrl]
          cases char : storedChar before.keyboard.ctrlPressed scancode with
          | none =>
              have same : Input.charBox { before with
                  keyboard := keyboardHandler before.keyboard scancode } = before.charBox := by
                simp only [Input.charBox, keyboardHandler_cases, char, Option.getD_none]
              rw [same] at chars
              exact chars
          | some value =>
              refine .cons ?_ chars
              simp only [Input.charBox, keyboardHandler_cases, char, Option.getD_some]
              rfl
      | getChar access =>
          obtain ⟨box, ran, rfl⟩ := Option.map_eq_some_iff.mp step
          obtain ⟨last, chars, codes⟩ := @inductionHypothesis earlier ctrl
          exact ⟨last, .cons ran chars, codes⟩
      | getScancode access =>
          obtain ⟨box, ran, rfl⟩ := Option.map_eq_some_iff.mp step
          obtain ⟨last, chars, codes⟩ := @inductionHypothesis earlier ctrl
          exact ⟨last, chars, .cons ran codes⟩

theorem charBox_run (run : inputSystem.Run bootInput events after) :
    after.chars ++ after.charBox.inHand =
      Mailbox.loadedFirst (Mailbox.effective (charAccesses [] events)) := by
  obtain ⟨_, chars, _⟩ := run_boxes run (show false = ctrlHeld [] from rfl)
  exact Mailbox.run_taken chars

/-- In every run `keyboard_get_char` returns, in order, the characters that it loads before
another key or its own clear overwrites them, and `keyboard_get_scancode` the scancodes
likewise; `ctrl_pressed` is up to date. -/
theorem input_run (run : inputSystem.Run bootInput events after) :
    after.chars ++ after.charBox.inHand =
        Mailbox.loadedFirst (Mailbox.effective (charAccesses [] events)) ∧
      after.scancodes ++ after.codeBox.inHand =
        Mailbox.loadedFirst (Mailbox.effective (codeAccesses events)) ∧
      after.keyboard.ctrlPressed = ctrlHeld (scancodes events) := by
  obtain ⟨ctrl, _, codes⟩ := run_boxes run (show false = ctrlHeld [] from rfl)
  exact ⟨charBox_run run, Mailbox.run_taken codes, ctrl⟩

/-- A key comes between the load and the clear, and is lost. -/
theorem input_run_lost :
    ∃ after, inputSystem.Run bootInput
        [.key 0x1E, .getChar .test, .getChar .load, .key 0x30, .getChar .clear] after ∧
      after.chars ++ after.charBox.inHand = asciiBytes ['a'] ∧
      after.keyboard.ctrlPressed = false := by
  have run : inputSystem.Run bootInput
      [.key 0x1E, .getChar .test, .getChar .load, .key 0x30, .getChar .clear] _ :=
    .cons rfl (.cons rfl (.cons rfl (.cons rfl (.cons rfl (.nil _)))))
  obtain ⟨chars, _, ctrl⟩ := input_run run
  exact ⟨_, run, chars.trans (by decide), ctrl.trans (by decide)⟩

/-! ### What is typed -/

/-- The characters that the keys mean. -/
def typedChars (earlier : List Byte) : List Byte → List Byte
  | [] => []
  | scancode :: rest =>
      (storedChar (ctrlHeld earlier) scancode).elim [] Mailbox.letter ++
        typedChars (earlier ++ [scancode]) rest

theorem stored_charAccesses (earlier : List Byte) (events : List InputEvent) :
    Mailbox.stored (charAccesses earlier events) = typedChars earlier (scancodes events) := by
  induction events generalizing earlier with
  | nil => rfl
  | cons event rest inductionHypothesis =>
      cases event with
      | key scancode =>
          have keys : scancodes (.key scancode :: rest) = scancode :: scancodes rest := rfl
          rw [charAccesses, keys, typedChars, ← inductionHypothesis, Mailbox.stored,
            List.flatMap_append]
          cases storedChar (ctrlHeld earlier) scancode with
          | none => rfl
          | some value => simp [Mailbox.stored]
      | getChar access =>
          rw [charAccesses, Mailbox.stored, List.flatMap_cons]
          cases access <;> exact inductionHypothesis earlier
      | getScancode access => exact inductionHypothesis earlier

theorem stored_effective (accesses : List (MailAccess Byte)) :
    Mailbox.stored (Mailbox.effective accesses) = Mailbox.stored accesses := by
  induction accesses with
  | nil => rfl
  | cons access rest inductionHypothesis =>
      cases access <;> simp_all [Mailbox.stored, Mailbox.effective]

/-- What is returned was typed, in that order and once; and where each character is loaded
before another key or the clear overwrites it, all that was typed is returned. -/
theorem chars_typed (run : inputSystem.Run bootInput events after) :
    (after.chars ++ after.charBox.inHand).Sublist (typedChars [] (scancodes events)) ∧
      ((∀ earlier value later,
          Mailbox.effective (charAccesses [] events) = earlier ++ .store value :: later →
            value ≠ 0 → later.head? = some .load) →
        after.chars ++ after.charBox.inHand = typedChars [] (scancodes events)) := by
  have typed := stored_effective (charAccesses [] events)
  rw [stored_charAccesses] at typed
  rw [charBox_run run, ← typed]
  exact ⟨Mailbox.loadedFirst_sublist _, Mailbox.loadedFirst_eq_stored⟩

/-- Ctrl+A leaves no character, `a` behind the release of Ctrl does. -/
theorem chars_typed_ctrl :
    ∃ after, inputSystem.Run bootInput [.key 0x1D, .key 0x1E, .key 0x9D, .key 0x1E, .getChar .test,
        .getChar .load] after ∧
      (after.chars ++ after.charBox.inHand).Sublist (asciiBytes ['a']) := by
  have run : inputSystem.Run bootInput [.key 0x1D, .key 0x1E, .key 0x9D, .key 0x1E,
      .getChar .test, .getChar .load] _ :=
    .cons rfl (.cons rfl (.cons rfl (.cons rfl (.cons rfl (.cons rfl (.nil _))))))
  exact ⟨_, run, (chars_typed run).1⟩

end Runs

end BrainDance.Drivers
