import Mathlib.Data.Finset.Max
import Mathlib.Data.Finset.Option
import Mathlib.Data.Fintype.Basic
import BrainDance.Foundation.Bytes

/-!
Owns the interrupt controllers as `arch/i386/pic.c` and `irq_install` program them: two
8259s, the secondary's output on line 2 of the primary. A controller takes the four words
of an initialisation in order, then masks; it serves the lowest line that no line in
service blocks, until the end of interrupt.

Of the operation words only the plain end of interrupt is modelled, the one that the
kernel sends. Lines are edges: a request stays until it is acknowledged or the device
withdraws it.
-/

namespace BrainDance.Arch

open BrainDance.Foundation

/-! ### One controller -/

/-- The data word that a controller takes next: a mask, or part of an initialisation. -/
inductive PicPhase where
  | ready
  | vectors
  | wiring
  | mode
deriving DecidableEq

@[ext]
structure Pic where
  phase : PicPhase
  command : Byte
  offset : Byte
  cascade : Byte
  mode : Byte
  mask : Byte
  requests : Finset (Fin 8)
  inService : Finset (Fin 8)
deriving DecidableEq

def lowest (lines : Finset (Fin 8)) : Option (Fin 8) :=
  if nonempty : lines.Nonempty then some (lines.min' nonempty) else none

namespace Pic

/-- Bit 4 starts an initialisation, bits 5 to 7 say which end of interrupt it is. -/
def writeCommand (pic : Pic) (value : Byte) : Pic :=
  if value.getLsbD 4 then
    { pic with
      phase := .vectors
      command := value
      mode := 0
      mask := 0
      requests := ∅
      inService := ∅ }
  else if value = 0x20 then
    match lowest pic.inService with
    | some line => { pic with inService := pic.inService.erase line }
    | none => pic
  else pic

/-- The third word is for cascaded controllers, the fourth is announced in the first. -/
def writeData (pic : Pic) (value : Byte) : Pic :=
  match pic.phase with
  | .ready => { pic with mask := value }
  | .vectors =>
      { pic with
        offset := value &&& 0xF8
        phase := if pic.command.getLsbD 1 then
          if pic.command.getLsbD 0 then .mode else .ready
        else .wiring }
  | .wiring =>
      { pic with
        cascade := value
        phase := if pic.command.getLsbD 0 then .mode else .ready }
  | .mode => { pic with mode := value, phase := .ready }

/-- The requests that are not masked, with no line in service before them. -/
def candidates (pic : Pic) : Finset (Fin 8) :=
  pic.requests.filter fun line =>
    pic.mask.getLsbD line.val = false ∧ ∀ served ∈ pic.inService, line < served

/-- The line served, 7 if there is none. Bit 1 of the mode would end the service at once. -/
def acknowledge (pic : Pic) : Fin 8 × Pic :=
  match lowest pic.candidates with
  | some line =>
      (line, { pic with
        requests := pic.requests.erase line
        inService := if pic.mode.getLsbD 1 then pic.inService else insert line pic.inService })
  | none => (7, pic)

end Pic

/-! ### The pair -/

@[ext]
structure Pics where
  primary : Pic
  secondary : Pic
deriving DecidableEq

namespace Pics

/-- `outb` to the ports of the pair. -/
def outb (pics : Pics) (port : BitVec 16) (value : Byte) : Pics :=
  if port = 0x20 then { pics with primary := pics.primary.writeCommand value }
  else if port = 0x21 then { pics with primary := pics.primary.writeData value }
  else if port = 0xA0 then { pics with secondary := pics.secondary.writeCommand value }
  else if port = 0xA1 then { pics with secondary := pics.secondary.writeData value }
  else pics

/-- `inb` from the data ports. -/
def inb (pics : Pics) (port : BitVec 16) : Byte :=
  if port = 0x21 then pics.primary.mask else pics.secondary.mask

/-- The lines before the primary: line 2 follows the secondary's output. -/
def waiting (pics : Pics) : Finset (Fin 8) :=
  if pics.secondary.candidates.Nonempty then insert 2 pics.primary.requests
  else pics.primary.requests.erase 2

/-- The vector that the processor is given. A line that the third word declares is left to
the controller of that number; meanwhile the devices of the lines `late` have withdrawn. -/
def acknowledge (late : Finset (Fin 8)) (pics : Pics) : Option (Byte × Pics) :=
  let (line, primary) := { pics.primary with requests := pics.waiting }.acknowledge
  let secondary := { pics.secondary with requests := pics.secondary.requests \ late }
  if pics.primary.cascade.getLsbD line.val then
    let (other, served) := secondary.acknowledge
    if (pics.secondary.cascade &&& 7).toNat = line.val ∧ pics.secondary.mode.getLsbD 0 then
      some (pics.secondary.offset + BitVec.ofNat 8 other.val, ⟨primary, served⟩)
    else none
  else if pics.primary.mode.getLsbD 0 then
    some (pics.primary.offset + BitVec.ofNat 8 line.val, ⟨primary, secondary⟩)
  else none

/-- A device raises its line. -/
def raise (pics : Pics) (line : Fin 16) : Pics :=
  if small : line.val < 8 then
    { pics with primary.requests := insert ⟨line.val, small⟩ pics.primary.requests }
  else
    { pics with
      secondary.requests := insert ⟨line.val - 8, by omega⟩ pics.secondary.requests }

/-- A device takes its request back. -/
def withdraw (pics : Pics) (line : Fin 16) : Pics :=
  if small : line.val < 8 then
    { pics with primary.requests := pics.primary.requests.erase ⟨line.val, small⟩ }
  else
    { pics with
      secondary.requests := pics.secondary.requests.erase ⟨line.val - 8, by omega⟩ }

end Pics

/-! ### The kernel's side -/

def picWrites (writes : List (BitVec 16 × Byte)) (pics : Pics) : Pics :=
  writes.foldl (fun pics write => pics.outb write.1 write.2) pics

def picRemap (offset1 offset2 : Byte) (pics : Pics) : Pics :=
  let a1 := pics.inb 0x21
  let a2 := pics.inb 0xA1
  picWrites [(0x20, 0x11), (0xA0, 0x11), (0x21, offset1), (0xA1, offset2), (0x21, 4), (0xA1, 2),
    (0x21, 0x01), (0xA1, 0x01), (0x21, a1), (0xA1, a2)] pics

def picSendEoi (irq : Byte) (pics : Pics) : Pics :=
  let pics := if irq.toNat ≥ 8 then pics.outb 0xA0 0x20 else pics
  pics.outb 0x20 0x20

/-- The port writes of `irq_install`. -/
def irqInstall (pics : Pics) : Pics :=
  picWrites [(0x21, 0x00), (0xA1, 0x00)] (picRemap 0x20 0x28 pics)

/-! ### Between interrupts -/

theorem lowest_eq_some_iff {lines : Finset (Fin 8)} {line : Fin 8} :
    lowest lines = some line ↔ line ∈ lines ∧ ∀ other ∈ lines, line ≤ other := by
  unfold lowest
  split
  · rename_i nonempty
    rw [Option.some.injEq]
    constructor
    · rintro rfl
      exact ⟨lines.min'_mem nonempty, fun other member => lines.min'_le other member⟩
    · rintro ⟨member, least⟩
      exact le_antisymm (lines.min'_le line member) (lines.le_min' nonempty line least)
  · rename_i empty
    rw [Finset.not_nonempty_iff_eq_empty] at empty
    simp [empty]

theorem lowest_eq_none_iff {lines : Finset (Fin 8)} : lowest lines = none ↔ lines = ∅ := by
  unfold lowest
  split
  · rename_i nonempty
    simp [nonempty.ne_empty]
  · rename_i empty
    simp [Finset.not_nonempty_iff_eq_empty.mp empty]

/-- A controller as `irq_install` leaves it: nothing masked, nothing in service. -/
def programmed (offset cascade : Byte) (requests : Finset (Fin 8)) : Pic where
  phase := .ready
  command := 0x11
  offset := offset
  cascade := cascade
  mode := 0x01
  mask := 0
  requests := requests
  inService := ∅

/-- The pair between interrupts. -/
def idlePics (primary secondary : Finset (Fin 8)) : Pics :=
  ⟨programmed 0x20 4 primary, programmed 0x28 2 secondary⟩

section Programmed

variable {offset cascade : Byte} {requests : Finset (Fin 8)}

@[simp] theorem candidates_programmed : (programmed offset cascade requests).candidates = requests := by
  simp [Pic.candidates, programmed]

/-- Four words and two masks program a controller, whatever its state. -/
theorem foldl_writeData (pic : Pic) (offset cascade mask : Byte) :
    [offset, cascade, 0x01, mask, 0].foldl Pic.writeData (pic.writeCommand 0x11) =
      programmed (offset &&& 0xF8) cascade ∅ := by
  simp [Pic.writeData, Pic.writeCommand, programmed]

/-- From any state of the controllers `irq_install` leaves them programmed. -/
theorem irqInstall_eq (pics : Pics) : irqInstall pics = idlePics ∅ ∅ :=
  congrArg₂ Pics.mk (foldl_writeData pics.primary 0x20 4 _) (foldl_writeData pics.secondary 0x28 2 _)

end Programmed

/-! ### One interrupt -/

def primaryLine (line : Fin 8) : Fin 16 := ⟨line.val, by omega⟩

def secondaryLine (line : Fin 8) : Fin 16 := ⟨8 + line.val, by omega⟩

/-- The lines of devices that wait. -/
def Pics.pending (pics : Pics) : Finset (Fin 16) :=
  (pics.primary.requests.erase 2).image primaryLine ∪ pics.secondary.requests.image secondaryLine

/-- The place of a line in the order of service: the secondary's lines stand at line 2. -/
def rank (line : Fin 16) : Nat :=
  if line.val < 3 then line.val else if line.val < 8 then line.val + 8 else line.val - 5

section Interrupt

variable {primary secondary requests late : Finset (Fin 8)} {offset cascade : Byte}

/-- A controller with at most one line in service. -/
def serving (offset cascade : Byte) (requests : Finset (Fin 8)) (served : Option (Fin 8)) : Pic :=
  { programmed offset cascade requests with inService := served.toFinset }

theorem acknowledge_programmed :
    (programmed offset cascade requests).acknowledge =
      ((lowest requests).getD 7,
        serving offset cascade (requests \ (lowest requests).toFinset) (lowest requests)) := by
  rw [Pic.acknowledge, candidates_programmed]
  cases lowest requests with
  | none => simp [serving, programmed]
  | some line => simp [serving, programmed, Finset.erase_eq]

/-- The end of interrupt ends the one service there is. -/
theorem writeCommand_serving (served : Option (Fin 8)) :
    (serving offset cascade requests served).writeCommand 0x20 =
      programmed offset cascade requests := by
  rw [Pic.writeCommand, if_neg (by decide), if_pos rfl]
  cases served with
  | none =>
      have none : lowest ∅ = none := lowest_eq_none_iff.mpr rfl
      simp [serving, none, programmed]
  | some line =>
      have only : lowest {line} = some line := lowest_eq_some_iff.mpr (by simp)
      simp [serving, only, programmed]

/-- The vector and the services of one acknowledgement. -/
theorem acknowledge_idle :
    (idlePics primary secondary).acknowledge late =
      if lowest (idlePics primary secondary).waiting = some 2 then
        some (0x28 + BitVec.ofNat 8 ((lowest (secondary \ late)).getD 7).val,
          ⟨serving 0x20 4 ((idlePics primary secondary).waiting \ {2}) (some 2),
            serving 0x28 2 ((secondary \ late) \ (lowest (secondary \ late)).toFinset)
              (lowest (secondary \ late))⟩)
      else
        some (0x20 + BitVec.ofNat 8 ((lowest (idlePics primary secondary).waiting).getD 7).val,
          ⟨serving 0x20 4 ((idlePics primary secondary).waiting \
              (lowest (idlePics primary secondary).waiting).toFinset)
              (lowest (idlePics primary secondary).waiting), programmed 0x28 2 (secondary \ late)⟩) := by
  have cascaded : ∀ line : Fin 8, (4 : Byte).getLsbD line.val = decide (line = 2) := by decide
  generalize here : (idlePics primary secondary).waiting = lines
  have first : ({ (idlePics primary secondary).primary with
      requests := (idlePics primary secondary).waiting } : Pic).acknowledge = _ :=
    (congrArg (fun lines => (programmed 0x20 4 lines).acknowledge) here).trans acknowledge_programmed
  have second : ({ (idlePics primary secondary).secondary with
      requests := (idlePics primary secondary).secondary.requests \ late } : Pic).acknowledge = _ :=
    @acknowledge_programmed (secondary \ late) 0x28 2
  unfold Pics.acknowledge
  simp only [first, second]
  by_cases chosen : lowest lines = some 2
  · rw [chosen, if_pos rfl, Option.toFinset_some]
    exact (if_pos (show (4 : Byte).getLsbD 2 = true by decide)).trans
      (if_pos (show ((2 : Byte) &&& 7).toNat = 2 ∧ (1 : Byte).getLsbD 0 = true by decide))
  · have direct : ¬ (4 : Byte).getLsbD ((lowest lines).getD 7).val = true := by
      rw [cascaded, decide_eq_true_iff]
      cases least : lowest lines with
      | none => decide
      | some line => exact fun same => chosen (least.trans (congrArg some same))
    rw [if_neg chosen]
    exact (if_neg direct).trans (if_pos (show (1 : Byte).getLsbD 0 = true by decide))

/-- `pic_send_eoi` ends both services of a secondary line and the one of a primary line. -/
theorem picSendEoi_serving {line : Fin 16} {first second : Option (Fin 8)}
    (ended : line.val < 8 → second = none) :
    picSendEoi (BitVec.ofNat 8 line.val)
        ⟨serving 0x20 4 primary first, serving 0x28 2 secondary second⟩ =
      idlePics primary secondary := by
  have number : (BitVec.ofNat 8 line.val).toNat = line.val := by
    rw [BitVec.toNat_ofNat]
    omega
  unfold picSendEoi
  rw [number]
  by_cases small : line.val < 8
  · rw [if_neg (by omega), ended small]
    exact congrArg (Pics.mk · _) (writeCommand_serving first)
  · rw [if_pos (by omega)]
    exact congrArg₂ Pics.mk (writeCommand_serving first) (writeCommand_serving second)

end Interrupt

/-! ### Order of service -/

section Service

variable {primary secondary late : Finset (Fin 8)}

theorem line_cases (line : Fin 16) :
    (∃ n, line = primaryLine n) ∨ ∃ n, line = secondaryLine n := by
  by_cases small : line.val < 8
  · exact Or.inl ⟨⟨line.val, small⟩, rfl⟩
  · exact Or.inr ⟨⟨line.val - 8, by omega⟩, Fin.ext (by simp only [secondaryLine]; omega)⟩

theorem primaryLine_injective : Function.Injective primaryLine := by
  intro left right same
  have value := congrArg Fin.val same
  exact Fin.ext value

theorem secondaryLine_injective : Function.Injective secondaryLine := by
  intro left right same
  have value := congrArg Fin.val same
  exact Fin.ext (Nat.add_left_cancel value)

theorem primaryLine_ne_secondaryLine (n m : Fin 8) : primaryLine n ≠ secondaryLine m := by
  intro same
  have value := congrArg Fin.val same
  simp only [primaryLine, secondaryLine] at value
  omega

@[simp] theorem primaryLine_mem_pending {pics : Pics} {n : Fin 8} :
    primaryLine n ∈ pics.pending ↔ n ≠ 2 ∧ n ∈ pics.primary.requests := by
  rw [Pics.pending, Finset.mem_union, primaryLine_injective.mem_finset_image, Finset.mem_erase]
  refine or_iff_left fun member => ?_
  obtain ⟨m, _, same⟩ := Finset.mem_image.mp member
  exact primaryLine_ne_secondaryLine n m same.symm

@[simp] theorem secondaryLine_mem_pending {pics : Pics} {n : Fin 8} :
    secondaryLine n ∈ pics.pending ↔ n ∈ pics.secondary.requests := by
  rw [Pics.pending, Finset.mem_union, secondaryLine_injective.mem_finset_image]
  refine or_iff_right fun member => ?_
  obtain ⟨m, _, same⟩ := Finset.mem_image.mp member
  exact primaryLine_ne_secondaryLine m n same

theorem rank_primaryLine (n : Fin 8) : rank (primaryLine n) = if n.val < 3 then n.val else n.val + 8 := by
  rw [rank, show (primaryLine n).val = n.val from rfl, if_pos n.isLt]

theorem rank_secondaryLine (n : Fin 8) : rank (secondaryLine n) = n.val + 3 := by
  rw [rank, show (secondaryLine n).val = 8 + n.val from rfl, if_neg (by omega), if_neg (by omega)]
  omega

/-- The lines that still wait behind the late withdrawals. -/
def Pics.remaining (pics : Pics) (late : Finset (Fin 8)) : Finset (Fin 16) :=
  pics.pending \ late.image secondaryLine

/-- One service: of the lines that still wait the first in order, or where the controller
that has to answer has none, its last line. -/
structure Serves (before : Pics) (late : Finset (Fin 8)) (line : Fin 16) (after : Pics) : Prop where
  choice : (line ∈ before.remaining late ∧
      ∀ other ∈ before.remaining late, rank line ≤ rank other) ∨
    line = 7 ∧ before.pending = ∅ ∨
    line = 15 ∧ (∃ n, secondaryLine n ∈ before.pending) ∧
      ∀ n, secondaryLine n ∉ before.remaining late
  pending : after.pending = (before.remaining late).erase line

@[simp] theorem primaryLine_mem_remaining {pics : Pics} {n : Fin 8} :
    primaryLine n ∈ pics.remaining late ↔ n ≠ 2 ∧ n ∈ pics.primary.requests := by
  rw [Pics.remaining, Finset.mem_sdiff, primaryLine_mem_pending]
  refine and_iff_left fun member => ?_
  obtain ⟨m, _, same⟩ := Finset.mem_image.mp member
  exact primaryLine_ne_secondaryLine n m same.symm

@[simp] theorem secondaryLine_mem_remaining {pics : Pics} {n : Fin 8} :
    secondaryLine n ∈ pics.remaining late ↔ n ∈ pics.secondary.requests \ late := by
  rw [Pics.remaining, Finset.mem_sdiff, secondaryLine_mem_pending,
    secondaryLine_injective.mem_finset_image, Finset.mem_sdiff]

/-- What is pending after a service, told for the lines of each controller. -/
theorem pending_eq_erase {before after : Pics} {line : Fin 16}
    (first : ∀ n ≠ 2, n ∈ after.primary.requests ↔
      primaryLine n ≠ line ∧ n ∈ before.primary.requests)
    (second : ∀ n, n ∈ after.secondary.requests ↔
      secondaryLine n ≠ line ∧ n ∈ before.secondary.requests \ late) :
    after.pending = (before.remaining late).erase line := by
  ext other
  rw [Finset.mem_erase]
  rcases line_cases other with ⟨n, rfl⟩ | ⟨n, rfl⟩
  · rw [primaryLine_mem_remaining, primaryLine_mem_pending]
    by_cases output : n = 2
    · simp [output]
    · rw [first n output]
      simp [output]
  · rw [secondaryLine_mem_remaining, secondaryLine_mem_pending, second n]

theorem two_mem_waiting (primary secondary : Finset (Fin 8)) :
    2 ∈ (idlePics primary secondary).waiting ↔ secondary.Nonempty := by
  rw [Pics.waiting, show (idlePics primary secondary).secondary.candidates = secondary from
    candidates_programmed]
  split <;> simp_all

theorem mem_waiting (primary secondary : Finset (Fin 8)) {n : Fin 8} (notOutput : n ≠ 2) :
    n ∈ (idlePics primary secondary).waiting ↔ n ∈ primary := by
  rw [Pics.waiting, show (idlePics primary secondary).primary.requests = primary from rfl]
  split
  · rw [Finset.mem_insert, or_iff_right notOutput]
  · rw [Finset.mem_erase, and_iff_right notOutput]

/-- Nothing waits: line 7. -/
theorem serves_none (least : lowest (idlePics primary secondary).waiting = none) :
    Serves (idlePics primary secondary) late 7
      (idlePics (idlePics primary secondary).waiting (secondary \ late)) := by
  have empty := lowest_eq_none_iff.mp least
  have noOutput : secondary = ∅ := by
    rw [← Finset.not_nonempty_iff_eq_empty, ← two_mem_waiting primary, empty]
    exact Finset.notMem_empty 2
  have quiet : ∀ n ≠ 2, n ∉ primary := by
    intro n notOutput
    rw [← mem_waiting primary secondary notOutput, empty]
    exact Finset.notMem_empty n
  subst noOutput
  rw [empty]
  refine ⟨Or.inr (Or.inl ⟨rfl, ?_⟩), pending_eq_erase (fun n notOutput => ?_) fun n => ?_⟩
  · rw [Finset.eq_empty_iff_forall_notMem]
    intro line
    rcases line_cases line with ⟨n, rfl⟩ | ⟨n, rfl⟩
    · rw [primaryLine_mem_pending]
      exact fun both => quiet n both.1 both.2
    · rw [secondaryLine_mem_pending]
      exact Finset.notMem_empty n
  · have none := quiet n notOutput
    simp [idlePics, programmed, none]
  · simp [idlePics, programmed]

/-- A line of the primary is served. -/
theorem serves_primary {n : Fin 8} (notOutput : n ≠ 2)
    (least : lowest (idlePics primary secondary).waiting = some n) :
    Serves (idlePics primary secondary) late (primaryLine n)
      (idlePics ((idlePics primary secondary).waiting \ {n}) (secondary \ late)) := by
  obtain ⟨member, first⟩ := lowest_eq_some_iff.mp least
  have mine := (mem_waiting primary secondary notOutput).mp member
  refine ⟨Or.inl ⟨primaryLine_mem_remaining.mpr ⟨notOutput, mine⟩, ?_⟩,
    pending_eq_erase (fun m otherLine => ?_) fun m => ?_⟩
  · intro other waits
    rcases line_cases other with ⟨m, rfl⟩ | ⟨m, rfl⟩
    · obtain ⟨otherLine, here⟩ := primaryLine_mem_remaining.mp waits
      have before := first m ((mem_waiting primary secondary otherLine).mpr here)
      have after : n.val ≤ m.val := before
      rw [rank_primaryLine, rank_primaryLine]
      split <;> split <;> omega
    · have output : secondary.Nonempty :=
        ⟨m, (Finset.mem_sdiff.mp (secondaryLine_mem_remaining.mp waits)).1⟩
      have before : n.val ≤ 2 := first 2 ((two_mem_waiting primary secondary).mpr output)
      rw [rank_primaryLine, rank_secondaryLine, if_pos (by omega)]
      omega
  · show m ∈ (idlePics primary secondary).waiting \ {n} ↔ _
    rw [Finset.mem_sdiff, mem_waiting primary secondary otherLine, Finset.mem_singleton,
      ne_eq, primaryLine_injective.eq_iff, and_comm]
    rfl
  · show m ∈ secondary \ late ↔ _
    exact (and_iff_right (primaryLine_ne_secondaryLine n m).symm).symm

/-- The secondary answers, with a line of its own or with its last one. -/
theorem serves_secondary (least : lowest (idlePics primary secondary).waiting = some 2) :
    Serves (idlePics primary secondary) late (secondaryLine ((lowest (secondary \ late)).getD 7))
      (idlePics ((idlePics primary secondary).waiting \ {2})
        ((secondary \ late) \ (lowest (secondary \ late)).toFinset)) := by
  obtain ⟨member, first⟩ := lowest_eq_some_iff.mp least
  have output := (two_mem_waiting primary secondary).mp member
  have third : ∀ m ≠ 2, m ∈ primary → 3 ≤ m.val := by
    intro m otherLine here
    have before : 2 ≤ m.val := first m ((mem_waiting primary secondary otherLine).mpr here)
    have different : m.val ≠ 2 := fun same => otherLine (Fin.ext same)
    omega
  refine ⟨?_, pending_eq_erase (fun m otherLine => ?_) fun m => ?_⟩
  · cases chosen : lowest (secondary \ late) with
    | none =>
        have empty := lowest_eq_none_iff.mp chosen
        refine Or.inr (Or.inr ⟨rfl, ?_, fun m => ?_⟩)
        · obtain ⟨m, here⟩ := output
          exact ⟨m, secondaryLine_mem_pending.mpr here⟩
        · rw [secondaryLine_mem_remaining]
          exact fun here => absurd (empty ▸ here) (Finset.notMem_empty m)
    | some n =>
        obtain ⟨mine, lowestHere⟩ := lowest_eq_some_iff.mp chosen
        refine Or.inl ⟨secondaryLine_mem_remaining.mpr mine, fun other waits => ?_⟩
        rw [Option.getD_some, rank_secondaryLine]
        rcases line_cases other with ⟨m, rfl⟩ | ⟨m, rfl⟩
        · obtain ⟨otherLine, here⟩ := primaryLine_mem_remaining.mp waits
          have later := third m otherLine here
          rw [rank_primaryLine, if_neg (by omega)]
          omega
        · have before : n.val ≤ m.val := lowestHere m (secondaryLine_mem_remaining.mp waits)
          rw [rank_secondaryLine]
          omega
  · show m ∈ (idlePics primary secondary).waiting \ {2} ↔ _
    rw [Finset.mem_sdiff, mem_waiting primary secondary otherLine, Finset.mem_singleton,
      and_iff_left otherLine]
    exact (and_iff_right (primaryLine_ne_secondaryLine m _)).symm
  · show m ∈ (secondary \ late) \ (lowest (secondary \ late)).toFinset ↔ _
    rw [Finset.mem_sdiff, ne_eq, secondaryLine_injective.eq_iff, and_comm]
    cases chosen : lowest (secondary \ late) with
    | none =>
        have empty := lowest_eq_none_iff.mp chosen
        simp [idlePics, programmed, empty]
    | some n => simp [idlePics, programmed]

theorem vector_primaryLine : ∀ n : Fin 8,
    (0x20 : Byte) + BitVec.ofNat 8 n.val = BitVec.ofNat 8 (32 + (primaryLine n).val) := by
  decide

theorem vector_secondaryLine : ∀ n : Fin 8,
    (0x28 : Byte) + BitVec.ofNat 8 n.val = BitVec.ofNat 8 (32 + (secondaryLine n).val) := by
  decide

/-- The pair answers every acknowledgement, and the end of interrupt for the vector's line
leaves it idle again. -/
theorem service (primary secondary late : Finset (Fin 8)) :
    ∃ line acked primary' secondary', (idlePics primary secondary).acknowledge late =
        some (BitVec.ofNat 8 (32 + line.val), acked) ∧
      picSendEoi (BitVec.ofNat 8 line.val) acked = idlePics primary' secondary' ∧
      Serves (idlePics primary secondary) late line (idlePics primary' secondary') := by
  rw [acknowledge_idle]
  split
  · rename_i cascaded
    rw [vector_secondaryLine]
    have ended := @picSendEoi_serving ((idlePics primary secondary).waiting \ {2})
      ((secondary \ late) \ (lowest (secondary \ late)).toFinset)
      (secondaryLine ((lowest (secondary \ late)).getD 7)) (some 2) (lowest (secondary \ late))
      (by simp only [secondaryLine]; omega)
    exact ⟨_, _, _, _, rfl, ended, serves_secondary cascaded⟩
  · rename_i direct
    cases least : lowest (idlePics primary secondary).waiting with
    | none =>
        have served := @serves_none _ _ late least
        have ended := @picSendEoi_serving (idlePics primary secondary).waiting (secondary \ late) 7
          none none fun _ => rfl
        rw [Option.toFinset_none, Finset.sdiff_empty]
        exact ⟨7, _, _, _, rfl, ended, served⟩
    | some n =>
        have notOutput : n ≠ 2 := fun same => direct (least.trans (congrArg some same))
        have ended := @picSendEoi_serving ((idlePics primary secondary).waiting \ {n})
          (secondary \ late) (primaryLine n) (some n) none fun _ => rfl
        rw [Option.toFinset_some, Option.getD_some, vector_primaryLine]
        exact ⟨_, _, _, _, rfl, ended, serves_primary notOutput least⟩

end Service

end BrainDance.Arch
