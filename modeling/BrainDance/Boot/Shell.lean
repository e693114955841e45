import Mathlib.Data.List.Induction
import Mathlib.Data.List.Infix
import BrainDance.Foundation.Transition
import BrainDance.Libc.Memcore

/-!
Owns the shell of the boot sector, `boot/bios.asm`: `read_loop` edits a line in
`cmd_buf`, and `process_cmd` compares it with the two commands that stand right behind.
The direction flag is clear, all segments are zero, and a BIOS call is no more than the
key that it returns. Nothing checks the end of the buffer.
-/

namespace BrainDance.Boot

open BrainDance.Foundation BrainDance.Libc

/-! ### Model -/

/-- What an offset sees with a zero segment. -/
abbrev Memory := BitVec 16 → Byte

/-- Where the assembler puts `cmd_buf`: in the sector, with the 58 bytes from it to the
last message in front of the signature. -/
structure Layout where
  cmdBuf : BitVec 16
  above : 0x7c00 ≤ cmdBuf.toNat
  below : cmdBuf.toNat + 58 ≤ 0x7dfe

def bufferSize : Nat := 16

def Layout.startCmd (layout : Layout) : BitVec 16 := layout.cmdBuf + 16

def Layout.resCmd (layout : Layout) : BitVec 16 := layout.startCmd + 6

def startText : List Byte := asciiBytes ['s', 't', 'a', 'r', 't']

def resText : List Byte := asciiBytes ['r', 'e', 's']

/-- `di`, the memory, and the addresses that have been written, in order. -/
structure Editor where
  di : BitVec 16
  memory : Memory
  stores : List (BitVec 16)

/-- `mov byte [di], value`. -/
def Editor.store (editor : Editor) (value : Byte) : Editor :=
  { editor with
    memory := Function.update editor.memory editor.di value
    stores := editor.stores ++ [editor.di] }

/-- `stosb`. -/
def Editor.stosb (editor : Editor) (al : Byte) : Editor :=
  { editor.store al with di := editor.di + 1 }

def enterKey : Byte := 0x0d

def backspaceKey : Byte := 0x08

/-- The body of `read_loop` for a key other than Enter. -/
def readKey (layout : Layout) (editor : Editor) (al : Byte) : Editor :=
  if al = backspaceKey then
    if editor.di = layout.cmdBuf then editor else { editor with di := editor.di - 1 }
  else editor.stosb al

/-- `read_loop` up to Enter, and the keys that are left. -/
def readLoop (layout : Layout) (editor : Editor) : List Byte → Option (Editor × List Byte)
  | [] => none
  | al :: keys =>
      if al = enterKey then some (editor, keys) else readLoop layout (readKey layout editor al) keys

/-- `repe cmpsb`: whether the last bytes it compared are equal. -/
def repeCmpsb (memory : Memory) (si di : BitVec 16) : Nat → Bool
  | 0 => true
  | cx + 1 => if memory si = memory di then repeCmpsb memory (si + 1) (di + 1) cx else false

inductive Outcome where
  | bootStage2
  | resHandler
  | unknown
deriving DecidableEq

def processCmd (layout : Layout) (editor : Editor) : Editor × Outcome :=
  let ended := editor.store 0
  (ended,
    if repeCmpsb ended.memory layout.cmdBuf layout.startCmd 5 then .bootStage2
    else if repeCmpsb ended.memory layout.cmdBuf layout.resCmd 4 then .resHandler
    else .unknown)

/-- One round of `shell_loop`. -/
def shellLoop (layout : Layout) (memory : Memory) (keys : List Byte) :
    Option ((Editor × Outcome) × List Byte) := do
  let (editor, rest) ← readLoop layout ⟨layout.cmdBuf, memory, []⟩ keys
  return (processCmd layout editor, rest)

/-! ### What it should do -/

/-- What a key other than Enter makes of a line. -/
def editLine (line : List Byte) (key : Byte) : List Byte :=
  if key = backspaceKey then line.dropLast else line ++ [key]

def editedLine (keys : List Byte) : List Byte := keys.foldl editLine []

def InBuffer (layout : Layout) (address : BitVec 16) : Prop :=
  (address - layout.cmdBuf).toNat < bufferSize

def InSector (address : BitVec 16) : Prop := 0x7c00 ≤ address.toNat ∧ address.toNat < 0x7e00

/-- The bytes stand in the memory from `address` on. -/
def Spells (memory : Memory) (address : BitVec 16) (bytes : List Byte) : Prop :=
  ∀ index, (inside : index < bytes.length) →
    memory (address + BitVec.ofNat 16 index) = bytes[index]

/-- The commands stand where they were assembled. -/
structure Loaded (layout : Layout) (memory : Memory) : Prop where
  startCmd : Spells memory layout.startCmd (startText ++ [0])
  resCmd : Spells memory layout.resCmd (resText ++ [0])

/-- The keys and Enter write the buffer only, and boot exactly when the edited line
starts with the command. -/
def SafeLine (layout : Layout) (memory : Memory) (keys : List Byte) : Prop :=
  ∃ editor outcome, shellLoop layout memory (keys ++ [enterKey]) = some ((editor, outcome), []) ∧
    (∀ address ∈ editor.stores, InBuffer layout address) ∧
    (∀ address, InSector address → ¬ InBuffer layout address →
      editor.memory address = memory address) ∧
    (outcome = .bootStage2 ↔ (editedLine keys).take 5 = startText)

/-- At no time is the line longer than the buffer, and in the end a byte is left for the
zero. -/
structure LineFits (keys : List Byte) : Prop where
  always : ∀ typed, typed <+: keys → (editedLine typed).length ≤ bufferSize
  atEnd : (editedLine keys).length < bufferSize

/-! ### Strings in memory -/

section Strings

variable {memory : Memory} {address si di : BitVec 16} {bytes text line : List Byte} {byte : Byte}

theorem spells_nil (memory : Memory) (address : BitVec 16) : Spells memory address [] :=
  fun _ inside => absurd inside (Nat.not_lt_zero _)

theorem spells_cons_iff : Spells memory address (byte :: bytes) ↔
    memory address = byte ∧ Spells memory (address + 1) bytes := by
  have next : ∀ index, address + 1 + BitVec.ofNat 16 index =
      address + BitVec.ofNat 16 (index + 1) := by
    intro index
    rw [BitVec.add_assoc, Nat.add_comm, BitVec.ofNat_add]
    rfl
  constructor
  · intro spells
    refine ⟨?_, fun index inside => ?_⟩
    · simpa using spells 0 (Nat.succ_pos _)
    · rw [next]
      exact spells (index + 1) (Nat.succ_lt_succ inside)
  · rintro ⟨first, rest⟩ index inside
    cases index with
    | zero => simpa using first
    | succ index =>
        rw [← next]
        exact rest index (Nat.lt_of_succ_lt_succ inside)

/-- `repe cmpsb` finds the text that `di` points to. -/
theorem repeCmpsb_iff (there : Spells memory di text) :
    repeCmpsb memory si di text.length = true ↔ Spells memory si text := by
  induction text generalizing si di with
  | nil => simp [repeCmpsb, spells_nil]
  | cons byte text inductionHypothesis =>
      obtain ⟨first, rest⟩ := spells_cons_iff.mp there
      rw [List.length_cons, repeCmpsb, first, spells_cons_iff]
      by_cases same : memory si = byte
      · rw [if_pos same, inductionHypothesis rest]
        exact (and_iff_right same).symm
      · rw [if_neg same]
        exact iff_of_false Bool.false_ne_true fun both => same both.1

/-- In front of a zero a text without zeros is a prefix. -/
theorem spells_iff_startsWith (ended : Spells memory address (line ++ [0]))
    (noNul : ∀ byte ∈ text, byte ≠ 0) : Spells memory address text ↔ text <+: line := by
  induction text generalizing address line with
  | nil => simp [spells_nil]
  | cons byte text inductionHypothesis =>
      obtain ⟨notNul, restNoNul⟩ := List.forall_mem_cons.mp noNul
      cases line with
      | nil =>
          have zero := (spells_cons_iff.mp ended).1
          rw [spells_cons_iff, zero]
          exact iff_of_false (fun both => notNul both.1.symm) (by simp)
      | cons char line =>
          obtain ⟨first, rest⟩ := spells_cons_iff.mp ended
          rw [spells_cons_iff, first, inductionHypothesis rest restNoNul, List.cons_prefix_cons,
            eq_comm]

end Strings

/-! ### The editor -/

section Editing

variable {layout : Layout} {memory : Memory} {editor : Editor} {line keys : List Byte}
  {key value : Byte}

/-- The editor holds a line that fits, and nothing outside the buffer has changed. -/
structure Edits (layout : Layout) (memory : Memory) (editor : Editor) (line : List Byte) :
    Prop where
  di : editor.di = layout.cmdBuf + BitVec.ofNat 16 line.length
  fits : line.length ≤ bufferSize
  spells : Spells editor.memory layout.cmdBuf line
  stores : ∀ address ∈ editor.stores, InBuffer layout address
  frame : ∀ address, ¬ InBuffer layout address → editor.memory address = memory address

theorem edits_start (layout : Layout) (memory : Memory) :
    Edits layout memory ⟨layout.cmdBuf, memory, []⟩ [] where
  di := (BitVec.add_zero _).symm
  fits := Nat.zero_le _
  spells := spells_nil _ _
  stores _ member := absurd member List.not_mem_nil
  frame _ _ := rfl

/-- The next byte goes into the buffer exactly when there is room. -/
theorem Edits.inBuffer_iff (edits : Edits layout memory editor line) :
    InBuffer layout editor.di ↔ line.length < bufferSize := by
  have fits : line.length ≤ 16 := edits.fits
  rw [edits.di, InBuffer, bufferSize]
  bv_omega

theorem Edits.store_spells (edits : Edits layout memory editor line)
    (room : line.length < bufferSize) (value : Byte) :
    Spells (editor.store value).memory layout.cmdBuf (line ++ [value]) := by
  intro index inside
  rw [List.length_append, List.length_singleton] at inside
  have small : line.length < 16 := room
  by_cases last : index = line.length
  · subst last
    rw [← edits.di, List.getElem_append_right (Nat.le_refl _)]
    simp [Editor.store]
  · have apart : layout.cmdBuf + BitVec.ofNat 16 index ≠ editor.di := by
      rw [edits.di]
      bv_omega
    rw [List.getElem_append_left (by omega), ← edits.spells index (by omega)]
    exact Function.update_of_ne apart ..

/-- One byte more. -/
theorem Edits.stosb (edits : Edits layout memory editor line) (room : line.length < bufferSize)
    (al : Byte) : Edits layout memory (editor.stosb al) (line ++ [al]) where
  di := by
    rw [List.length_append, List.length_singleton, BitVec.ofNat_add, ← BitVec.add_assoc, ← edits.di]
    rfl
  fits := by
    rw [List.length_append, List.length_singleton]
    exact room
  spells := edits.store_spells room al
  stores address member := by
    rcases List.mem_append.mp member with earlier | last
    · exact edits.stores address earlier
    · rw [List.mem_singleton.mp last]
      exact edits.inBuffer_iff.mpr room
  frame address outside := by
    have apart : address ≠ editor.di := by
      rintro rfl
      exact outside (edits.inBuffer_iff.mpr room)
    rw [← edits.frame address outside]
    exact Function.update_of_ne apart ..

/-- One byte less. -/
theorem Edits.backspace (edits : Edits layout memory editor line) :
    Edits layout memory (readKey layout editor backspaceKey) line.dropLast := by
  have fits : line.length ≤ 16 := edits.fits
  have di := edits.di
  rw [readKey, if_pos rfl]
  split
  · rename_i atStart
    have empty : line = [] := by
      rw [← List.length_eq_zero_iff]
      bv_omega
    subst empty
    exact edits
  · rename_i behind
    have notEmpty : line.length ≠ 0 := by
      intro empty
      rw [empty] at di
      exact behind (di.trans (BitVec.add_zero _))
    refine ⟨?_, ?_, ?_, edits.stores, edits.frame⟩
    · rw [List.length_dropLast]
      bv_omega
    · rw [List.length_dropLast]
      exact Nat.le_trans (Nat.sub_le _ _) fits
    · intro index inside
      rw [List.length_dropLast] at inside
      rw [List.getElem_dropLast]
      exact edits.spells index (by omega)

/-- A key edits the line as long as the line fits. -/
theorem Edits.readKey (edits : Edits layout memory editor line)
    (fits : (editLine line key).length ≤ bufferSize) :
    Edits layout memory (readKey layout editor key) (editLine line key) := by
  by_cases back : key = backspaceKey
  · rw [back, editLine, if_pos rfl]
    exact edits.backspace
  · rw [editLine, if_neg back] at fits ⊢
    rw [Boot.readKey, if_neg back]
    rw [List.length_append, List.length_singleton] at fits
    exact edits.stosb fits key

theorem readKey_stores (layout : Layout) (editor : Editor) (key : Byte) :
    editor.stores <+: (readKey layout editor key).stores := by
  by_cases back : key = backspaceKey
  · rw [Boot.readKey, if_pos back]
    split
    · exact List.prefix_rfl
    · exact List.prefix_rfl
  · rw [Boot.readKey, if_neg back]
    exact List.prefix_append _ _

/-- The editor after the keys of a line. -/
def typedKeys (layout : Layout) (memory : Memory) (keys : List Byte) : Editor :=
  keys.foldl (Boot.readKey layout) ⟨layout.cmdBuf, memory, []⟩

theorem readLoop_of_noEnter (layout : Layout) (editor : Editor) (rest : List Byte)
    (noEnter : enterKey ∉ keys) :
    readLoop layout editor (keys ++ enterKey :: rest) =
      some (keys.foldl (Boot.readKey layout) editor, rest) := by
  induction keys generalizing editor with
  | nil => rfl
  | cons key keys inductionHypothesis =>
      rw [List.mem_cons, not_or] at noEnter
      rw [List.cons_append, readLoop, if_neg (Ne.symm noEnter.1), inductionHypothesis _ noEnter.2]
      rfl

theorem editedLine_snoc (keys : List Byte) (key : Byte) :
    editedLine (keys ++ [key]) = editLine (editedLine keys) key :=
  List.foldl_append

theorem typedKeys_snoc (layout : Layout) (memory : Memory) (keys : List Byte) (key : Byte) :
    typedKeys layout memory (keys ++ [key]) =
      Boot.readKey layout (typedKeys layout memory keys) key :=
  List.foldl_append

/-- Lines that fit at all times are edited in the buffer. -/
theorem edits_of_fits
    (fits : ∀ typed, typed <+: keys → (editedLine typed).length ≤ bufferSize) :
    Edits layout memory (typedKeys layout memory keys) (editedLine keys) := by
  induction keys using List.reverseRecOn with
  | nil => exact edits_start layout memory
  | append_singleton keys key inductionHypothesis =>
      have here := fits _ List.prefix_rfl
      rw [editedLine_snoc] at here ⊢
      rw [typedKeys_snoc]
      exact (inductionHypothesis fun typed shorter =>
        fits typed (shorter.trans (List.prefix_append _ _))).readKey here

/-- Stores in the buffer come from lines that fit. -/
theorem fits_of_stores
    (inBuffer : ∀ address ∈ (typedKeys layout memory keys).stores, InBuffer layout address) :
    ∀ typed, typed <+: keys → (editedLine typed).length ≤ bufferSize := by
  induction keys using List.reverseRecOn with
  | nil =>
      intro typed shorter
      rw [List.prefix_nil.mp shorter]
      exact Nat.zero_le _
  | append_singleton keys key inductionHypothesis =>
      rw [typedKeys_snoc] at inBuffer
      have earlier := inductionHypothesis fun address member =>
        inBuffer address ((readKey_stores layout _ key).subset member)
      intro typed shorter
      rcases List.prefix_concat_iff.mp shorter with rfl | shorter
      · have edits : Edits layout memory _ _ := edits_of_fits earlier
        rw [editedLine_snoc]
        by_cases back : key = backspaceKey
        · rw [editLine, if_pos back, List.length_dropLast]
          exact Nat.le_trans (Nat.sub_le _ _) edits.fits
        · have written := inBuffer (typedKeys layout memory keys).di (by
            rw [Boot.readKey, if_neg back]
            exact List.mem_append_right _ (List.mem_singleton_self _))
          rw [editLine, if_neg back, List.length_append, List.length_singleton]
          exact edits.inBuffer_iff.mp written
      · exact earlier typed shorter

theorem shellLoop_eq (layout : Layout) (memory : Memory) (noEnter : enterKey ∉ keys) :
    shellLoop layout memory (keys ++ [enterKey]) =
      some (processCmd layout (typedKeys layout memory keys), []) := by
  rw [shellLoop, readLoop_of_noEnter layout _ [] noEnter]
  rfl

/-! ### Commands -/

/-- The commands are in the sector behind the buffer. -/
theorem Loaded.of_frame {other : Memory} (loaded : Loaded layout memory)
    (frame : ∀ address, InSector address → ¬ InBuffer layout address →
      other address = memory address) : Loaded layout other := by
  have above := layout.above
  have below := layout.below
  have behind : ∀ offset, 16 ≤ offset → offset < 26 →
      other (layout.cmdBuf + BitVec.ofNat 16 offset) =
        memory (layout.cmdBuf + BitVec.ofNat 16 offset) := by
    intro offset atLeast small
    apply frame
    · rw [InSector]
      constructor <;> bv_omega
    · rw [InBuffer, bufferSize]
      bv_omega
  constructor
  · intro index inside
    have short : index < 6 := inside
    have here := behind (16 + index) (by omega) (by omega)
    rw [BitVec.ofNat_add, ← BitVec.add_assoc] at here
    exact here.trans (loaded.startCmd index inside)
  · intro index inside
    have short : index < 4 := inside
    have here := behind (16 + (6 + index)) (by omega) (by omega)
    rw [BitVec.ofNat_add, BitVec.ofNat_add, ← BitVec.add_assoc, ← BitVec.add_assoc] at here
    exact here.trans (loaded.resCmd index inside)

theorem Loaded.startText (loaded : Loaded layout memory) :
    Spells memory layout.startCmd startText := by
  intro index inside
  rw [loaded.startCmd index (Nat.lt_of_lt_of_le inside (Nat.le_succ 5))]
  exact List.getElem_append_left inside

/-- `process_cmd` boots exactly when the line in the buffer starts with the command. -/
theorem Edits.boots_iff (edits : Edits layout memory editor line) (loaded : Loaded layout memory)
    (room : line.length < bufferSize) :
    (processCmd layout editor).2 = .bootStage2 ↔ line.take 5 = startText := by
  have ended := edits.stosb room 0
  have there : Spells (editor.store 0).memory layout.startCmd startText :=
    (loaded.of_frame fun address _ => ended.frame address).startText
  have found : repeCmpsb (editor.store 0).memory layout.cmdBuf layout.startCmd 5 = true ↔
      startText <+: line :=
    (repeCmpsb_iff there).trans (spells_iff_startsWith (edits.store_spells room 0) (by decide))
  have taken : line.take 5 = startText ↔ startText <+: line := by
    rw [List.prefix_iff_eq_take, eq_comm]
    rfl
  rw [taken, ← found, processCmd]
  dsimp only
  split
  · rename_i boots
    exact iff_of_true rfl boots
  · rename_i boots
    split
    · exact iff_of_false (by decide) boots
    · exact iff_of_false (by decide) boots

theorem LineFits.safeLine (fits : LineFits keys) (loaded : Loaded layout memory)
    (noEnter : enterKey ∉ keys) : SafeLine layout memory keys := by
  have edits : Edits layout memory _ _ := edits_of_fits fits.always
  have ended := edits.stosb fits.atEnd 0
  exact ⟨_, _, shellLoop_eq layout memory noEnter, ended.stores,
    fun address _ outside => ended.frame address outside, edits.boots_iff loaded fits.atEnd⟩

/-- A line whose stores stay in the buffer fits. -/
theorem lineFits_of_stores
    (inBuffer : ∀ address ∈ ((typedKeys layout memory keys).store 0).stores,
      InBuffer layout address) : LineFits keys := by
  have always := fits_of_stores fun address member =>
    inBuffer address (List.mem_append_left _ member)
  have edits : Edits layout memory _ _ := edits_of_fits always
  exact ⟨always, edits.inBuffer_iff.mp
    (inBuffer _ (List.mem_append_right _ (List.mem_singleton_self _)))⟩

theorem SafeLine.stores_inBuffer (safe : SafeLine layout memory keys)
    (noEnter : enterKey ∉ keys) :
    ∀ address ∈ ((typedKeys layout memory keys).store 0).stores, InBuffer layout address := by
  obtain ⟨ended, outcome, ran, inBuffer, -⟩ := safe
  rw [shellLoop_eq layout memory noEnter] at ran
  obtain rfl : (typedKeys layout memory keys).store 0 = ended :=
    congrArg (·.1.1) (Option.some.inj ran)
  exact inBuffer

/-- The line is safe exactly when it fits. -/
theorem safeLine_iff (loaded : Loaded layout memory) (noEnter : enterKey ∉ keys) :
    SafeLine layout memory keys ↔ LineFits keys :=
  ⟨fun safe => lineFits_of_stores (safe.stores_inBuffer noEnter),
    fun fits => fits.safeLine loaded noEnter⟩

end Editing

/-- The address in the assembled sector. -/
def bootLayout : Layout := ⟨0x7d74, by decide, by decide⟩

def bootMemory : Memory := fun address =>
  (startText ++ [0] ++ resText ++ [0]).getD (address - bootLayout.startCmd).toNat 0

instance (memory : Memory) (address : BitVec 16) (bytes : List Byte) :
    Decidable (Spells memory address bytes) :=
  inferInstanceAs (Decidable (∀ index, (inside : index < bytes.length) → _ = _))

theorem loaded_bootMemory : Loaded bootLayout bootMemory := ⟨by decide, by decide⟩

theorem safeLine_iff_start : SafeLine bootLayout bootMemory startText := by
  have fits : ∀ typed ∈ startText.inits, (editedLine typed).length ≤ bufferSize := by decide
  refine (safeLine_iff loaded_bootMemory (by decide)).mpr ⟨fun typed within => ?_, by decide⟩
  exact fits typed ((List.mem_inits ..).mpr within)

/-- With sixteen keys the zero goes into the command behind the buffer. -/
theorem safeLine_fails :
    ¬ SafeLine bootLayout bootMemory (startText ++ List.replicate 11 0x78) := by
  intro safe
  have inBuffer := safe.stores_inBuffer (by decide) bootLayout.startCmd (by decide)
  revert inBuffer
  rw [InBuffer]
  decide

/-! ### Line after line -/

section Runs

variable {layout : Layout} {memory : Memory} {keys : List Byte}

/-- The rounds of the shell. Outside the sector the BIOS may write between them, as it does
for `boot_stage_2`, which comes back here when the disk cannot be read. -/
def shellSystem (layout : Layout) : TransitionSystem Memory (List Byte) where
  Init memory := Loaded layout memory
  Step before keys after := enterKey ∉ keys ∧
    ∃ ended, shellLoop layout before (keys ++ [enterKey]) = some (ended, []) ∧
      ∀ address, InSector address → after address = ended.1.memory address

theorem loaded_of_reachable
    (reachable : ((shellSystem layout).guard fun _ keys => LineFits keys).Reachable memory) :
    Loaded layout memory := by
  apply reachable.invariant (Loaded layout)
  · intro state loaded
    exact loaded
  · rintro before keys after - loaded ⟨fits, noEnter, ended, ran, same⟩
    obtain ⟨editor, outcome, safe, -, frame, -⟩ := fits.safeLine loaded noEnter
    rw [ran] at safe
    obtain rfl := congrArg (·.1) (Option.some.inj safe)
    exact loaded.of_frame fun address sector outside =>
      (same address sector).trans (frame address sector outside)

/-- As long as the lines fit, every one of them is safe. -/
theorem safeLine_of_reachable
    (reachable : ((shellSystem layout).guard fun _ keys => LineFits keys).Reachable memory)
    (noEnter : enterKey ∉ keys) (fits : LineFits keys) : SafeLine layout memory keys :=
  fits.safeLine (loaded_of_reachable reachable) noEnter

end Runs

end BrainDance.Boot
