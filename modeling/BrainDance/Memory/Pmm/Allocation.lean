import BrainDance.Foundation.Transition
import BrainDance.Memory.Pmm.Model

/-!
Owns allocation and release over whole runs. A client calls `pmm_alloc_block`
and gives back addresses it was handed; the outstanding addresses are part of
the state. The invariant is that the counter agrees with the bitmap and that
every outstanding block is marked used, so a block that is handed out was not
outstanding.

It does not own the initial marking of blocks.
-/

namespace BrainDance.Memory

open BrainDance.Foundation

section Blocks

variable {pmm : Pmm}

/-- The block's bit. -/
abbrev Pmm.bit (pmm : Pmm) (block : Nat) : Bool := Bitmap.bit pmm.bitmap block

/-- The number of set bits among the first `total_blocks`. -/
def Pmm.marked (pmm : Pmm) : Nat := Bitmap.count pmm.bitmap pmm.totalBlocks.toNat

theorem testBlock_ne_zero_iff (pmm : Pmm) (block : Word) :
    testBlock pmm block ≠ 0 ↔ pmm.bit block.toNat = true := Bitmap.and_mask_ne_zero_iff

theorem testBlock_eq_zero_iff (pmm : Pmm) (block : Word) :
    testBlock pmm block = 0 ↔ pmm.bit block.toNat = false := by
  rw [← not_iff_not, Bool.not_eq_false]
  exact testBlock_ne_zero_iff pmm block

/-- The state after block `frame` is handed out. -/
def Pmm.taken (pmm : Pmm) (frame : Nat) : Pmm :=
  { bitmap := Bitmap.setBit pmm.bitmap frame
    totalBlocks := pmm.totalBlocks
    usedBlocks := pmm.usedBlocks + 1 }

/-- The number of blocks the search covers. -/
def Pmm.searched (pmm : Pmm) : Nat := 32 * (pmm.totalBlocks.toNat / 32)

theorem Pmm.searched_le (pmm : Pmm) : pmm.searched ≤ pmm.totalBlocks.toNat := by
  unfold Pmm.searched
  omega

/-- An allocation finds no block and changes nothing, or hands out the first
block the search finds clear. -/
theorem pmmAllocBlock_cases (pmm : Pmm) :
    ((pmm.totalBlocks ≤ pmm.usedBlocks ∨ ∀ frame < pmm.searched, pmm.bit frame = true) ∧
        pmmAllocBlock pmm = (0, pmm)) ∨
      ∃ frame, pmm.usedBlocks < pmm.totalBlocks ∧ frame < pmm.searched ∧ pmm.bit frame = false ∧
        (∀ earlier < frame, pmm.bit earlier = true) ∧
        pmmAllocBlock pmm = (BitVec.ofNat 32 frame * blockSize, pmm.taken frame) := by
  have words : (pmm.totalBlocks / 32).toNat = pmm.totalBlocks.toNat / 32 := BitVec.toNat_udiv
  unfold pmmAllocBlock findFirstFree Pmm.searched
  by_cases full : pmm.usedBlocks ≥ pmm.totalBlocks
  · rw [if_pos full]
    exact Or.inl ⟨Or.inl full, rfl⟩
  · rw [if_neg full]
    cases found : Bitmap.findClear pmm.bitmap (pmm.totalBlocks / 32).toNat with
    | none =>
        rw [Bitmap.findClear_eq_none_iff, words] at found
        exact Or.inl ⟨Or.inr found, if_pos rfl⟩
    | some frame =>
        obtain ⟨inside, clear, earlier⟩ := Bitmap.findClear_eq_some_iff.mp found
        rw [words] at inside
        have bounded := pmm.totalBlocks.isLt
        have small : (BitVec.ofNat 32 frame).toNat = frame := by
          rw [BitVec.toNat_ofNat, Nat.mod_eq_of_lt (by omega)]
        have notMinusOne : BitVec.ofNat 32 frame ≠ -1 := by
          intro same
          rw [same] at small
          rw [show (-1 : Word).toNat = 2 ^ 32 - 1 from rfl] at small
          omega
        refine Or.inr ⟨frame, BitVec.not_le.mp full, inside, clear, earlier, ?_⟩
        simp only [if_neg notMinusOne, setBlock, small]
        rfl

end Blocks

/-! ### Clients -/

/-- The allocator and the addresses it returned that were not freed since. -/
structure Client where
  pmm : Pmm
  outstanding : Finset Word

inductive Call where
  | alloc
  | free (block : Word)

/-- A client frees an address only while it is outstanding. The address 0 of a
failed allocation may be freed too, if there is a block 0. -/
def clients : TransitionSystem Client Call where
  Init client :=
    client.pmm.totalBlocks.toNat ≤ 2 ^ 20 ∧ client.pmm.usedBlocks.toNat = client.pmm.marked ∧
      client.pmm.bit 0 = true ∧ client.outstanding = ∅
  Step before call after :=
    match call with
    | .alloc =>
        after.pmm = (pmmAllocBlock before.pmm).2 ∧
          after.outstanding = insert (pmmAllocBlock before.pmm).1 before.outstanding
    | .free block =>
        block ∈ before.outstanding ∧ (block = 0 → 0 < before.pmm.totalBlocks.toNat) ∧
          after.pmm = pmmFreeBlock before.pmm block ∧
          after.outstanding = before.outstanding.erase block

/-- The address is that of a block marked used. -/
structure Pmm.Owns (pmm : Pmm) (address : Word) : Prop where
  aligned : address.toNat % 4096 = 0
  inside : address.toNat / 4096 < pmm.totalBlocks.toNat
  used : pmm.bit (address.toNat / 4096) = true

structure Client.Ok (client : Client) : Prop where
  small : client.pmm.totalBlocks.toNat ≤ 2 ^ 20
  counted : client.pmm.usedBlocks.toNat = client.pmm.marked
  owned : ∀ address ∈ client.outstanding, address ≠ 0 → client.pmm.Owns address

section Preservation

variable {pmm : Pmm}

/-- Handing out a clear block keeps the counter in step. -/
theorem Pmm.taken_counted {frame : Nat} (counted : pmm.usedBlocks.toNat = pmm.marked)
    (inside : frame < pmm.totalBlocks.toNat) (clear : pmm.bit frame = false) :
    (pmm.taken frame).usedBlocks.toNat = (pmm.taken frame).marked := by
  have grows : (pmm.taken frame).marked = pmm.marked + 1 := Bitmap.count_setBit inside clear
  have bounded : (pmm.taken frame).marked ≤ pmm.totalBlocks.toNat := Bitmap.count_le _
  have limit := pmm.totalBlocks.isLt
  rw [Pmm.taken, BitVec.toNat_add, counted, show (1 : Word).toNat = 1 from rfl,
    Nat.mod_eq_of_lt (by omega)]
  exact grows.symm

theorem Pmm.taken_owns {frame : Nat} {address : Word} (owns : pmm.Owns address) :
    (pmm.taken frame).Owns address where
  aligned := owns.aligned
  inside := owns.inside
  used := by
    rw [Pmm.bit, Pmm.taken, Bitmap.bit_setBit]
    exact Bool.or_eq_true_iff.mpr (Or.inr owns.used)

/-- The address of a block below 2^20 is the block's first byte. -/
theorem frame_address {frame : Nat} (small : frame < 2 ^ 20) :
    (BitVec.ofNat 32 frame * blockSize).toNat = 4096 * frame := by
  rw [BitVec.toNat_mul, BitVec.toNat_ofNat, show blockSize.toNat = 4096 from rfl]
  omega

theorem Client.Ok.alloc {client : Client} (ok : client.Ok) :
    Client.Ok
      { pmm := (pmmAllocBlock client.pmm).2
        outstanding := insert (pmmAllocBlock client.pmm).1 client.outstanding } := by
  rcases pmmAllocBlock_cases client.pmm with ⟨_, result⟩ | ⟨frame, _, searched, clear, _, result⟩
  · rw [result]
    refine ⟨ok.small, ok.counted, fun address member notZero => ?_⟩
    rcases Finset.mem_insert.mp member with rfl | earlier
    · exact absurd rfl notZero
    · exact ok.owned address earlier notZero
  · rw [result]
    have inside : frame < client.pmm.totalBlocks.toNat :=
      lt_of_lt_of_le searched client.pmm.searched_le
    have small := ok.small
    refine ⟨ok.small, Pmm.taken_counted ok.counted inside clear, fun address member notZero => ?_⟩
    rcases Finset.mem_insert.mp member with rfl | earlier
    · have value := frame_address (show frame < 2 ^ 20 by omega)
      have quotient : (BitVec.ofNat 32 frame * blockSize).toNat / 4096 = frame := by omega
      refine ⟨?_, ?_, ?_⟩
      · rw [value]
        exact Nat.mul_mod_right 4096 frame
      · rw [quotient]
        exact inside
      · rw [quotient]
        exact Bitmap.bit_setBit_self
    · exact Pmm.taken_owns (ok.owned address earlier notZero)

/-- A release clears the block's bit and counts it, if the bit was set. -/
theorem pmmFreeBlock_cases (pmm : Pmm) (block : Word) :
    (pmm.bit (block.toNat / 4096) = false ∧ pmmFreeBlock pmm block = pmm) ∨
      (pmm.bit (block.toNat / 4096) = true ∧
        pmmFreeBlock pmm block =
          { bitmap := Bitmap.clearBit pmm.bitmap (block.toNat / 4096)
            totalBlocks := pmm.totalBlocks
            usedBlocks := pmm.usedBlocks - 1 }) := by
  have frame : (block / blockSize).toNat = block.toNat / 4096 := BitVec.toNat_udiv
  unfold pmmFreeBlock
  simp only [testBlock_ne_zero_iff, clearBlock, frame]
  cases used : pmm.bit (block.toNat / 4096) with
  | false => exact Or.inl ⟨rfl, if_neg (by simp)⟩
  | true => exact Or.inr ⟨rfl, if_pos rfl⟩

theorem pmmFreeBlock_bit {block : Word} {other : Nat} (different : other ≠ block.toNat / 4096) :
    (pmmFreeBlock pmm block).bit other = pmm.bit other := by
  rcases pmmFreeBlock_cases pmm block with ⟨_, result⟩ | ⟨_, result⟩
  · rw [result]
  · rw [result]
    exact Bitmap.bit_clearBit_of_ne different

theorem pmmFreeBlock_totalBlocks (pmm : Pmm) (block : Word) :
    (pmmFreeBlock pmm block).totalBlocks = pmm.totalBlocks := by
  rcases pmmFreeBlock_cases pmm block with ⟨_, result⟩ | ⟨_, result⟩ <;> rw [result]

/-- Releasing a block below `total_blocks` keeps the counter in step. -/
theorem pmmFreeBlock_counted {block : Word} (counted : pmm.usedBlocks.toNat = pmm.marked)
    (inside : block.toNat / 4096 < pmm.totalBlocks.toNat) :
    (pmmFreeBlock pmm block).usedBlocks.toNat = (pmmFreeBlock pmm block).marked := by
  rcases pmmFreeBlock_cases pmm block with ⟨_, result⟩ | ⟨used, result⟩
  · rw [result]
    exact counted
  · rw [result]
    have shrinks := Bitmap.count_clearBit inside used
    have before : pmm.usedBlocks.toNat =
        Bitmap.count (Bitmap.clearBit pmm.bitmap (block.toNat / 4096)) pmm.totalBlocks.toNat + 1 :=
      counted.trans shrinks.symm
    have limit := pmm.usedBlocks.isLt
    simp only [Pmm.marked, BitVec.toNat_sub, show (1 : Word).toNat = 1 from rfl]
    omega

theorem Client.Ok.free {client : Client} (ok : client.Ok) {block : Word}
    (held : block ∈ client.outstanding)
    (blockZero : block = 0 → 0 < client.pmm.totalBlocks.toNat) :
    Client.Ok
      { pmm := pmmFreeBlock client.pmm block
        outstanding := client.outstanding.erase block } := by
  have placed : block.toNat % 4096 = 0 ∧ block.toNat / 4096 < client.pmm.totalBlocks.toNat := by
    by_cases zero : block = 0
    · rw [zero]
      exact ⟨rfl, blockZero zero⟩
    · have owns := ok.owned block held zero
      exact ⟨owns.aligned, owns.inside⟩
  have total := pmmFreeBlock_totalBlocks client.pmm block
  refine ⟨?_, pmmFreeBlock_counted ok.counted placed.2, fun address member notZero => ?_⟩
  · rw [total]
    exact ok.small
  · obtain ⟨different, earlier⟩ := Finset.mem_erase.mp member
    have owns := ok.owned address earlier notZero
    have otherBlock : address.toNat / 4096 ≠ block.toNat / 4096 := by
      intro same
      have aligned := owns.aligned
      exact different (BitVec.eq_of_toNat_eq (by omega))
    refine ⟨owns.aligned, ?_, ?_⟩
    · rw [total]
      exact owns.inside
    · rw [pmmFreeBlock_bit otherBlock]
      exact owns.used

theorem reachable_ok {client : Client} (reachable : clients.Reachable client) : client.Ok := by
  apply reachable.invariant Client.Ok
  · rintro client ⟨small, counted, _, none⟩
    refine ⟨small, counted, fun address member => ?_⟩
    rw [none] at member
    exact absurd member (Finset.notMem_empty address)
  · rintro before call ⟨pmm, outstanding⟩ _ ok step
    cases call with
    | alloc =>
        obtain ⟨rfl, rfl⟩ := step
        exact ok.alloc
    | free block =>
        obtain ⟨held, blockZero, rfl, rfl⟩ := step
        exact ok.free held blockZero

end Preservation

/-! ### Exclusive blocks -/

/-- The allocation hands out a free block that nobody holds. -/
structure HandsOut (before after : Client) (address : Word) : Prop where
  aligned : address.toNat % 4096 = 0
  inside : address.toNat / 4096 < before.pmm.totalBlocks.toNat
  wasClear : before.pmm.bit (address.toNat / 4096) = false
  nowSet : after.pmm.bit (address.toNat / 4096) = true
  notHeld : address ∉ before.outstanding

/-- The call changes no bit but that of the block at `address`. -/
def KeepsOthers (before after : Client) (address : Word) : Prop :=
  ∀ block ≠ address.toNat / 4096, after.pmm.bit block = before.pmm.bit block

/-- In every run each nonzero address returned is that of a free block that
nobody holds, no call touches another bit, and the counter stays the number of
set bits. An allocation that returns 0 while block 0 is in use changes
nothing. -/
theorem blocks_handed_out_once {before after : Client} {call : Call}
    (reachable : clients.Reachable before) (step : clients.Step before call after) :
    after.pmm.usedBlocks.toNat = after.pmm.marked ∧
      match call with
      | .alloc =>
          let address := (pmmAllocBlock before.pmm).1
          (address ≠ 0 → HandsOut before after address) ∧
            (address = 0 → before.pmm.bit 0 = true → after.pmm = before.pmm) ∧
            KeepsOthers before after address
      | .free block => KeepsOthers before after block := by
  have ok := reachable_ok reachable
  refine ⟨(reachable_ok (reachable.step step)).counted, ?_⟩
  cases call with
  | alloc =>
      obtain ⟨afterPmm, _⟩ := step
      simp only [KeepsOthers]
      rcases pmmAllocBlock_cases before.pmm with
        ⟨_, result⟩ | ⟨frame, _, searched, clear, _, result⟩
      · rw [result] at afterPmm ⊢
        exact ⟨fun notZero => absurd rfl notZero, fun _ _ => afterPmm, fun _ _ => by rw [afterPmm]⟩
      · have inside : frame < before.pmm.totalBlocks.toNat :=
          lt_of_lt_of_le searched before.pmm.searched_le
        have small := ok.small
        have value := frame_address (show frame < 2 ^ 20 by omega)
        have quotient : (BitVec.ofNat 32 frame * blockSize).toNat / 4096 = frame := by omega
        rw [result] at afterPmm ⊢
        simp only [quotient]
        refine ⟨fun notZero => ?_, fun zero blockZero => ?_, fun block different => ?_⟩
        · refine ⟨by omega, by rwa [quotient], by rwa [quotient], ?_, fun held => ?_⟩
          · rw [quotient, afterPmm]
            exact Bitmap.bit_setBit_self
          · have owns := ok.owned _ held notZero
            rw [← quotient, owns.used] at clear
            contradiction
        · rw [zero, show (0 : Word).toNat = 0 from rfl] at value
          rw [show frame = 0 by omega, blockZero] at clear
          contradiction
        · rw [afterPmm]
          exact Bitmap.bit_setBit_of_ne different
  | free block =>
      obtain ⟨_, _, afterPmm, _⟩ := step
      intro other different
      rw [afterPmm]
      exact pmmFreeBlock_bit different

/-- An allocator of 64 blocks with block 0 in use. -/
def smallPmm : Pmm where
  bitmap := Bitmap.setBit (fun _ => 0) 0
  totalBlocks := 64
  usedBlocks := 1

theorem blocks_handed_out_once_small :
    (pmmAllocBlock smallPmm).2.usedBlocks.toNat = (pmmAllocBlock smallPmm).2.marked ∧
      let before : Client := ⟨smallPmm, ∅⟩
      let address := (pmmAllocBlock before.pmm).1
      let after : Client := ⟨(pmmAllocBlock smallPmm).2, {address}⟩
      (address ≠ 0 → HandsOut before after address) ∧
        (address = 0 → before.pmm.bit 0 = true → after.pmm = before.pmm) ∧
        KeepsOthers before after address :=
  @blocks_handed_out_once ⟨smallPmm, ∅⟩
    ⟨(pmmAllocBlock smallPmm).2, {(pmmAllocBlock smallPmm).1}⟩ .alloc
    (.init ⟨by decide, by decide, by decide, rfl⟩) ⟨rfl, rfl⟩

end BrainDance.Memory
