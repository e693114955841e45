import BrainDance.Arch.Isr

/-!
Owns the interrupt descriptor table of `arch/i386/idt.c`: the entries that
`idt_set_gate` writes, the gates that `isr_install` and `irq_install` set and what the
processor reads at a vector. The addresses of the stubs are the linker's.
-/

namespace BrainDance.Arch

open BrainDance.Foundation

/-! ### Entries -/

/-- `struct idt_entry`. -/
@[ext]
structure IdtEntry where
  offsetLow : BitVec 16
  selector : BitVec 16
  zero : Byte
  typeAttr : Byte
  offsetHigh : BitVec 16
deriving DecidableEq

/-- The packed structure in memory. -/
def IdtEntry.bytes (entry : IdtEntry) : List Byte :=
  [entry.offsetLow.extractLsb' 0 8, entry.offsetLow.extractLsb' 8 8,
    entry.selector.extractLsb' 0 8, entry.selector.extractLsb' 8 8, entry.zero, entry.typeAttr,
    entry.offsetHigh.extractLsb' 0 8, entry.offsetHigh.extractLsb' 8 8]

/-- `idt`. -/
abbrev Idt := Nat → IdtEntry

def idtEntries : Nat := 256

/-- `idtp.limit`. -/
def idtLimit : BitVec 16 := BitVec.ofNat 16 (8 * idtEntries - 1)

/-- The table as memory from `idtp.base` on. -/
def Idt.image (idt : Idt) : Image := fun offset => (idt (offset / 8)).bytes.getD (offset % 8) 0

/-- The entry that `idt_set_gate` writes. -/
def gateEntry (handler : Word) : IdtEntry where
  offsetLow := (handler &&& 0xFFFF).setWidth 16
  selector := kernelCode
  zero := 0
  typeAttr := 0x8E
  offsetHigh := ((handler >>> 16) &&& 0xFFFF).setWidth 16

def idtSetGate (idt : Idt) (n : Nat) (handler : Word) : Idt :=
  Function.update idt n (gateEntry handler)

/-- `idt_install` up to `load_idt`. -/
def idtInstall (idt : Idt) : Idt := fun n => if n < idtEntries then ⟨0, 0, 0, 0, 0⟩ else idt n

/-- The gates of `isr_install`. -/
def isrGates (isr : Fin 32 → Word) (idt : Idt) : Idt :=
  (List.finRange 32).foldl (fun idt n => idtSetGate idt n.val (isr n)) idt

/-- The gates of `irq_install`. -/
def irqGates (irq : Fin 16 → Word) (idt : Idt) : Idt :=
  (List.finRange 16).foldl (fun idt n => idtSetGate idt (32 + n.val) (irq n)) idt

/-! ### The processor's side -/

structure Gate where
  selector : BitVec 16
  offset : Word
deriving DecidableEq

/-- The 32-bit interrupt gate at the vector, if one is present. -/
def fetchGate (table : Image) (limit : BitVec 16) (vector : Byte) : Option Gate :=
  let low := wordAt table (8 * vector.toNat)
  let high := wordAt table (8 * vector.toNat + 4)
  if 8 * vector.toNat + 7 ≤ limit.toNat ∧ high.getLsbD 15 = true ∧ high.extractLsb' 8 5 = 0xE then
    some ⟨low.extractLsb' 16 16, high.extractLsb' 16 16 ++ low.extractLsb' 0 16⟩
  else none

section Fetch

variable {idt : Idt} {vector : Byte} {handler : Word}

theorem append_bytes (value : BitVec 16) :
    value.extractLsb' 8 8 ++ value.extractLsb' 0 8 = value := by
  rw [BitVec.extractLsb'_append_extractLsb'_eq_extractLsb' (by rfl)]
  exact BitVec.extractLsb'_eq_self

/-- The two words of an entry. -/
theorem wordAt_image (idt : Idt) (n : Nat) :
    wordAt idt.image (8 * n) = (idt n).selector ++ (idt n).offsetLow ∧
      wordAt idt.image (8 * n + 4) = (idt n).offsetHigh ++ ((idt n).typeAttr ++ (idt n).zero) := by
  have byte : ∀ k < 8, idt.image (8 * n + k) = (idt n).bytes.getD k 0 := by
    intro k below
    rw [Idt.image, show (8 * n + k) / 8 = n by omega, show (8 * n + k) % 8 = k by omega]
  constructor
  · rw [wordAt, byte 3 (by decide), byte 2 (by decide), byte 1 (by decide),
      show idt.image (8 * n) = _ from byte 0 (by decide)]
    simp only [IdtEntry.bytes, List.getD_cons_zero, List.getD_cons_succ]
    rw [append_bytes, BitVec.append_assoc, append_bytes]
    rfl
  · rw [wordAt, show 8 * n + 4 + 3 = 8 * n + 7 from rfl, show 8 * n + 4 + 2 = 8 * n + 6 from rfl,
      show 8 * n + 4 + 1 = 8 * n + 5 from rfl, byte 7 (by decide), byte 6 (by decide),
      byte 5 (by decide), byte 4 (by decide)]
    simp only [IdtEntry.bytes, List.getD_cons_zero, List.getD_cons_succ]
    rw [append_bytes, BitVec.append_assoc]
    rfl

/-- The two halves of a handler's address come back together. -/
theorem gateEntry_offset (handler : Word) :
    (gateEntry handler).offsetHigh ++ (gateEntry handler).offsetLow = handler := by
  have mask : (0xFFFF : Word).toNat = 2 ^ 16 - 1 := rfl
  have low : (gateEntry handler).offsetLow.toNat = handler.toNat % 2 ^ 16 := by
    rw [gateEntry, BitVec.toNat_setWidth, BitVec.toNat_and, mask, Nat.and_two_pow_sub_one_eq_mod,
      Nat.mod_mod]
  have high : (gateEntry handler).offsetHigh.toNat = handler.toNat / 2 ^ 16 := by
    have := handler.isLt
    rw [gateEntry, BitVec.toNat_setWidth, BitVec.toNat_and, mask, Nat.and_two_pow_sub_one_eq_mod,
      BitVec.toNat_ushiftRight, Nat.shiftRight_eq_div_pow]
    omega
  apply BitVec.eq_of_toNat_eq
  rw [BitVec.toNat_append, ← Nat.shiftLeft_add_eq_or_of_lt (BitVec.isLt _), low, high,
    Nat.shiftLeft_eq]
  omega

/-- The processor takes an entry for a gate by its attribute byte alone. -/
theorem fetchGate_image (idt : Idt) (vector : Byte) :
    fetchGate idt.image idtLimit vector =
      if (idt vector.toNat).typeAttr.getLsbD 7 = true ∧
          (idt vector.toNat).typeAttr.extractLsb' 0 5 = 0xE then
        some ⟨(idt vector.toNat).selector,
          (idt vector.toNat).offsetHigh ++ (idt vector.toNat).offsetLow⟩
      else none := by
  have inTable : 8 * vector.toNat + 7 ≤ idtLimit.toNat := by
    have := vector.isLt
    rw [show idtLimit.toNat = 2047 from rfl]
    omega
  obtain ⟨low, high⟩ := wordAt_image idt vector.toNat
  have present : ((idt vector.toNat).offsetHigh ++
      ((idt vector.toNat).typeAttr ++ (idt vector.toNat).zero)).getLsbD 15 =
        (idt vector.toNat).typeAttr.getLsbD 7 := by
    rw [BitVec.getLsbD_append, if_pos (by decide), BitVec.getLsbD_append, if_neg (by decide)]
  have type : ((idt vector.toNat).offsetHigh ++
      ((idt vector.toNat).typeAttr ++ (idt vector.toNat).zero)).extractLsb' 8 5 =
        (idt vector.toNat).typeAttr.extractLsb' 0 5 := by
    rw [BitVec.extractLsb'_append_eq_of_add_le (by decide),
      BitVec.extractLsb'_append_eq_of_le (by decide)]
  unfold fetchGate
  simp only [low, high]
  rw [present, type, BitVec.extractLsb'_append_eq_left, BitVec.extractLsb'_append_eq_left,
    BitVec.extractLsb'_append_eq_right]
  simp only [inTable, true_and]

theorem fetchGate_of_gateEntry (here : idt vector.toNat = gateEntry handler) :
    fetchGate idt.image idtLimit vector = some ⟨kernelCode, handler⟩ := by
  have interruptGate : (gateEntry handler).typeAttr.getLsbD 7 = true ∧
      (gateEntry handler).typeAttr.extractLsb' 0 5 = 0xE :=
    show (0x8E : Byte).getLsbD 7 = true ∧ (0x8E : Byte).extractLsb' 0 5 = 0xE by decide
  rw [fetchGate_image, here, gateEntry_offset, if_pos interruptGate]
  rfl

theorem fetchGate_of_cleared (here : idt vector.toNat = ⟨0, 0, 0, 0, 0⟩) :
    fetchGate idt.image idtLimit vector = none := by
  rw [fetchGate_image, here, if_neg (by decide)]

end Fetch

/-! ### Installation -/

section Install

variable {Line : Type} {lines : List Line} {vector : Line → Nat} {stub : Line → Word}

theorem foldl_idtSetGate_of_ne (idt : Idt) {n : Nat} (other : ∀ line ∈ lines, vector line ≠ n) :
    lines.foldl (fun idt line => idtSetGate idt (vector line) (stub line)) idt n = idt n := by
  induction lines generalizing idt with
  | nil => rfl
  | cons line lines inductionHypothesis =>
      rw [List.foldl_cons, inductionHypothesis _ fun later member =>
        other later (List.mem_cons_of_mem line member), idtSetGate,
        Function.update_of_ne (other line List.mem_cons_self).symm]

/-- Gates at different vectors are all there at the end. -/
theorem foldl_idtSetGate_of_mem (idt : Idt) (apart : Function.Injective vector) {line : Line}
    (member : line ∈ lines) :
    lines.foldl (fun idt line => idtSetGate idt (vector line) (stub line)) idt (vector line) =
      gateEntry (stub line) := by
  induction lines generalizing idt with
  | nil => exact absurd member List.not_mem_nil
  | cons first lines inductionHypothesis =>
      rw [List.foldl_cons]
      by_cases later : line ∈ lines
      · exact inductionHypothesis _ later
      · obtain rfl := (List.mem_cons.mp member).resolve_right later
        have elsewhere : ∀ other ∈ lines, vector other ≠ vector line := by
          intro other inRest same
          rw [apart same] at inRest
          exact later inRest
        rw [foldl_idtSetGate_of_ne _ elsewhere, idtSetGate, Function.update_self]

end Install

/-- The table at the end of `kernel_main`'s three calls. -/
def installedIdt (isr : Fin 32 → Word) (irq : Fin 16 → Word) (idt : Idt) : Idt :=
  irqGates irq (isrGates isr (idtInstall idt))

section Installed

variable (isr : Fin 32 → Word) (irq : Fin 16 → Word) (idt : Idt)

theorem installedIdt_isr (n : Fin 32) : installedIdt isr irq idt n.val = gateEntry (isr n) := by
  rw [installedIdt, irqGates, foldl_idtSetGate_of_ne _ fun line _ => by omega, isrGates]
  exact foldl_idtSetGate_of_mem _ (fun _ _ => Fin.ext) (List.mem_finRange n)

theorem installedIdt_irq (n : Fin 16) :
    installedIdt isr irq idt (32 + n.val) = gateEntry (irq n) := by
  have apart : Function.Injective fun line : Fin 16 => 32 + line.val :=
    fun left right same => Fin.ext (Nat.add_left_cancel same)
  exact foldl_idtSetGate_of_mem _ apart (List.mem_finRange n)

theorem installedIdt_other {n : Nat} (above : 48 ≤ n) (inTable : n < idtEntries) :
    installedIdt isr irq idt n = ⟨0, 0, 0, 0, 0⟩ := by
  rw [installedIdt, irqGates, foldl_idtSetGate_of_ne _ fun line _ => by omega, isrGates,
    foldl_idtSetGate_of_ne _ fun line _ => by omega, idtInstall, if_pos inTable]

/-- Whatever stood in the table, after the installation the processor finds the stub of
the exception or of the line at each vector below 48, and no gate at any other. -/
theorem installed_gates (vector : Byte) :
    fetchGate (installedIdt isr irq idt).image idtLimit vector =
      if exception : vector.toNat < 32 then some ⟨kernelCode, isr ⟨vector.toNat, exception⟩⟩
      else if line : vector.toNat - 32 < 16 then
        some ⟨kernelCode, irq ⟨vector.toNat - 32, line⟩⟩
      else none := by
  have inTable := vector.isLt
  split
  · rename_i exception
    exact fetchGate_of_gateEntry (installedIdt_isr isr irq idt ⟨vector.toNat, exception⟩)
  · rename_i past
    split
    · rename_i line
      have here := installedIdt_irq isr irq idt ⟨vector.toNat - 32, line⟩
      rw [show 32 + (vector.toNat - 32) = vector.toNat by omega] at here
      exact fetchGate_of_gateEntry here
    · exact fetchGate_of_cleared (installedIdt_other isr irq idt (by omega) inTable)

end Installed

end BrainDance.Arch
