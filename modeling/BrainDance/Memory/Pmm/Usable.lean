import Mathlib.Data.List.Pairwise
import BrainDance.Memory.Pmm.Protection

/-!
Owns whether the blocks handed out after `pmm_init` consist of usable memory.

The loop over a region releases the block of every 4096th byte, so it takes in
the whole block at each ragged end of the region, and a block that another
region has a part of. The main result says for every map which of the released
blocks are not usable memory and what keeps such a block back: it is reserved,
the search ends before it, or the counter runs out before it.
-/

namespace BrainDance.Memory

open BrainDance.Foundation

section Regions

/-- The first byte behind the region. -/
def E820Entry.limit (entry : E820Entry) : Nat := entry.base.toNat + entry.len.toNat

def E820Entry.Covers (entry : E820Entry) (byte : Nat) : Prop :=
  entry.base.toNat ≤ byte ∧ byte < entry.limit

/-- The region has a byte of the block. -/
def E820Entry.Meets (entry : E820Entry) (block : Nat) : Prop :=
  max entry.base.toNat (4096 * block) < min entry.limit (4096 * (block + 1))

instance (entry : E820Entry) (block : Nat) : Decidable (entry.Meets block) :=
  inferInstanceAs (Decidable (_ < _))

/-- Some entry describes the byte as usable and no entry as anything else. -/
def UsableByte (mmap : List E820Entry) (byte : Nat) : Prop :=
  (∃ entry ∈ mmap, entry.Usable ∧ entry.Covers byte) ∧
    ∀ entry ∈ mmap, entry.Covers byte → entry.Usable

/-- The block that starts at `address` holds usable bytes only. -/
def BlockUsable (mmap : List E820Entry) (address : Nat) : Prop :=
  ∀ byte, address ≤ byte → byte < address + blockSize.toNat → UsableByte mmap byte

/-- Every byte of the block lies in a usable region. -/
def Filled (mmap : List E820Entry) (block : Nat) : Prop :=
  ∀ byte, byte / 4096 = block → ∃ entry ∈ mmap, entry.Usable ∧ entry.Covers byte

/-- A region of another type has a byte of the block. -/
def MetByOther (mmap : List E820Entry) (block : Nat) : Prop :=
  ∃ entry ∈ mmap, ¬ entry.Usable ∧ entry.Meets block

instance (mmap : List E820Entry) (block : Nat) : Decidable (MetByOther mmap block) :=
  inferInstanceAs (Decidable (∃ entry ∈ mmap, _))

/-- The blocks at the ends of the region that it fills only in part. -/
def E820Entry.raggedBlocks (entry : E820Entry) : List Nat :=
  (if entry.base.toNat % 4096 ≠ 0 then [entry.base.toNat / 4096] else []) ++
    if entry.limit % 4096 ≠ 0 then [entry.limit / 4096] else []

/-- The blocks of every 4096th byte of the region. -/
def E820Entry.reachedBlocks (entry : E820Entry) : List Nat :=
  (List.range entry.rounds).map fun round => entry.base.toNat / 4096 + round

/-- No allocation after `pmm_init` returns a block with a byte that is not usable. -/
def HandsOutUsable (memory : Image) (kernelEnd : Word) (mmap : List E820Entry) : Prop :=
  ∀ fuel pmm, pmmInit fuel memory kernelEnd mmap = some pmm → ∀ count,
    (pmmAllocBlock (afterAllocs pmm count)).1 ≠ 0 →
      BlockUsable mmap (pmmAllocBlock (afterAllocs pmm count)).1.toNat

/-- The released block is reserved for the kernel and the bitmap, lies past the words that
are searched, or comes behind as many others as the counter leaves free. -/
def KeptBack (memory : Image) (kernelEnd : Word) (mmap : List E820Entry) (block : Nat) : Prop :=
  block < reservedBlocks kernelEnd mmap ∨
    32 * ((totalBlocksOf mmap).toNat / 32) ≤ block ∨
      (totalBlocksOf mmap).toNat - (usedAtStart memory kernelEnd mmap).toNat ≤
        ((List.range block).filter fun earlier =>
          reservedBlocks kernelEnd mmap ≤ earlier ∧ Released mmap earlier).length

instance (memory : Image) (kernelEnd : Word) (mmap : List E820Entry) (block : Nat) :
    Decidable (KeptBack memory kernelEnd mmap block) := inferInstanceAs (Decidable (_ ∨ _))

variable {mmap : List E820Entry} {entry : E820Entry} {block byte : Nat}

theorem E820Entry.mem_raggedBlocks :
    block ∈ entry.raggedBlocks ↔
      entry.base.toNat % 4096 ≠ 0 ∧ block = entry.base.toNat / 4096 ∨
        entry.limit % 4096 ≠ 0 ∧ block = entry.limit / 4096 := by
  unfold raggedBlocks
  rw [List.mem_append]
  split <;> split <;> simp_all

theorem E820Entry.meets_iff :
    entry.Meets block ↔ ∃ byte, byte / 4096 = block ∧ entry.Covers byte := by
  unfold Meets Covers
  constructor
  · intro meets
    exact ⟨max entry.base.toNat (4096 * block), by omega, by omega, by omega⟩
  · rintro ⟨byte, inBlock, covers⟩
    omega

/-- A block is usable when no region of another type has a byte of it and the usable ones
leave none out. -/
theorem blockUsable_iff :
    BlockUsable mmap (4096 * block) ↔ ¬ MetByOther mmap block ∧ Filled mmap block := by
  have size : blockSize.toNat = 4096 := rfl
  unfold BlockUsable
  constructor
  · intro usable
    have bytes (byte : Nat) (inBlock : byte / 4096 = block) : UsableByte mmap byte :=
      usable byte (by omega) (by omega)
    refine ⟨?_, fun byte inBlock => (bytes byte inBlock).1⟩
    rintro ⟨entry, member, reserved, meets⟩
    obtain ⟨byte, inBlock, covers⟩ := E820Entry.meets_iff.mp meets
    exact reserved ((bytes byte inBlock).2 entry member covers)
  · rintro ⟨unmet, filled⟩ byte above below
    have inBlock : byte / 4096 = block := by omega
    refine ⟨filled byte inBlock, fun entry member covers => ?_⟩
    by_contra reserved
    exact unmet ⟨entry, member, reserved, E820Entry.meets_iff.mpr ⟨byte, inBlock, covers⟩⟩

/-- Only the blocks at its ragged ends reach out of a region. -/
theorem E820Entry.covers_or_ragged (meets : entry.Meets block) (inBlock : byte / 4096 = block) :
    entry.Covers byte ∨ block ∈ entry.raggedBlocks := by
  rw [mem_raggedBlocks]
  unfold Meets at meets
  unfold Covers
  omega

theorem E820Entry.meets_of_reached (reached : block ∈ entry.reachedBlocks) :
    entry.Meets block := by
  obtain ⟨round, inRounds, rfl⟩ := List.mem_map.mp reached
  rw [List.mem_range, rounds] at inRounds
  unfold Meets limit
  omega

/-- Below 4 GiB the loop over a region releases the blocks of every 4096th byte. -/
theorem regionFrames_toNat (below : entry.limit ≤ 2 ^ 32) :
    (regionFrames entry).map BitVec.toNat = entry.reachedBlocks := by
  rw [regionFrames, framesFrom, List.map_map, Nat.sub_zero, ← List.range_eq_range',
    E820Entry.reachedBlocks]
  refine List.map_congr_left fun round inRounds => ?_
  rw [List.mem_range, E820Entry.rounds] at inRounds
  unfold E820Entry.limit at below
  rw [Function.comp_apply, E820Entry.frameAt, BitVec.toNat_setWidth, BitVec.toNat_udiv,
    BitVec.toNat_add, BitVec.toNat_ofNat, show (4096 : BitVec 64).toNat = 4096 from rfl,
    Nat.mod_eq_of_lt (show 4096 * round < 2 ^ 64 by omega), Nat.mod_eq_of_lt (by omega),
    Nat.mod_eq_of_lt (by omega)]
  omega

theorem released_iff (below : ∀ entry ∈ mmap, entry.Usable → entry.limit ≤ 2 ^ 32) :
    Released mmap block ↔ ∃ entry ∈ mmap, entry.Usable ∧ block ∈ entry.reachedBlocks := by
  rw [Released, usableFrames, List.map_flatMap, List.mem_flatMap]
  constructor
  · rintro ⟨entry, chosen, released⟩
    obtain ⟨member, usable⟩ := List.mem_filter.mp chosen
    rw [decide_eq_true_iff] at usable
    rw [regionFrames_toNat (below entry member usable)] at released
    exact ⟨entry, member, usable, released⟩
  · rintro ⟨entry, member, usable, reached⟩
    refine ⟨entry, List.mem_filter.mpr ⟨member, decide_eq_true usable⟩, ?_⟩
    rwa [regionFrames_toNat (below entry member usable)]

end Regions

/-! ### The blocks handed out -/

section HandedOut

variable {memory : Image} {kernelEnd : Word} {mmap : List E820Entry}

/-- A released block is handed out unless it is kept back. -/
theorem mem_handedOut_iff {block : Nat} (released : Released mmap block) :
    block ∈ handedOut memory kernelEnd mmap ↔ ¬ KeptBack memory kernelEnd mmap block := by
  rw [handedOut, Bitmap.mem_take_filter_range, KeptBack, not_or, not_or, Nat.not_lt, Nat.not_le,
    Nat.not_le, and_iff_left released]
  exact and_left_comm

/-- Every released block that is not usable memory has the address 0 or is kept back. -/
theorem handsOutUsable_iff_released (memory : Image) (kernelEnd : Word) (mmap : List E820Entry) :
    HandsOutUsable memory kernelEnd mmap ↔
      (∃ entry ∈ mmap, entry.Usable ∧ ¬ entry.Short) ∨
        ∀ block, Released mmap block →
          MetByOther mmap (block % 2 ^ 20) ∨ ¬ Filled mmap (block % 2 ^ 20) →
            block % 2 ^ 20 = 0 ∨ KeptBack memory kernelEnd mmap block := by
  rw [HandsOutUsable, allocated_iff_handedOut memory kernelEnd mmap (BlockUsable mmap)]
  refine or_congr_right ⟨fun offered block released damaged => ?_, fun kept block member => ?_⟩
  · refine or_iff_not_imp_right.mpr fun free => ?_
    refine (offered block ((mem_handedOut_iff released).mpr free)).resolve_right fun usable => ?_
    obtain ⟨unmet, filled⟩ := blockUsable_iff.mp usable
    exact damaged.elim unmet fun unfilled => unfilled filled
  · have released := (mem_handedOut member).2.2.1
    refine or_iff_not_imp_left.mpr fun notZero => blockUsable_iff.mpr ?_
    by_contra damaged
    rw [not_and_or, not_not] at damaged
    exact (kept block released damaged).elim notZero ((mem_handedOut_iff released).mp member)

/-- Below 4 GiB a reached block that the region fills is filled. -/
theorem handsOutUsable_iff_reached
    (below : ∀ entry ∈ mmap, entry.Usable → entry.limit ≤ 2 ^ 32) :
    HandsOutUsable memory kernelEnd mmap ↔
      ∀ entry ∈ mmap, entry.Usable → ∀ block ∈ entry.reachedBlocks,
        MetByOther mmap block ∨ block ∈ entry.raggedBlocks ∧ ¬ Filled mmap block →
          block = 0 ∨ KeptBack memory kernelEnd mmap block := by
  have returns : ¬ ∃ entry ∈ mmap, entry.Usable ∧ ¬ entry.Short := by
    rintro ⟨entry, member, usable, long⟩
    have limit := below entry member usable
    unfold E820Entry.limit at limit
    exact long (show entry.len.toNat ≤ 2 ^ 64 - 4096 by omega)
  have small {entry : E820Entry} {block : Nat} (member : entry ∈ mmap) (usable : entry.Usable)
      (reached : block ∈ entry.reachedBlocks) : block % 2 ^ 20 = block := by
    have limit := below entry member usable
    have meets := E820Entry.meets_of_reached reached
    unfold E820Entry.Meets at meets
    omega
  rw [handsOutUsable_iff_released, or_iff_right returns]
  constructor
  · intro kept entry member usable block reached damaged
    have released := (released_iff below).mpr ⟨entry, member, usable, reached⟩
    have here := kept block released
    rw [small member usable reached] at here
    exact here (damaged.imp_right And.right)
  · intro kept block released damaged
    obtain ⟨entry, member, usable, reached⟩ := (released_iff below).mp released
    rw [small member usable reached] at damaged ⊢
    refine kept entry member usable block reached (damaged.imp_right fun unfilled => ⟨?_, unfilled⟩)
    by_contra whole
    refine unfilled fun byte inBlock => ⟨entry, member, usable, ?_⟩
    exact (E820Entry.covers_or_ragged (E820Entry.meets_of_reached reached) inBlock).resolve_right
      whole

/-- The two regions share no byte. -/
def E820Entry.Apart (left right : E820Entry) : Prop :=
  left.limit ≤ right.base.toNat ∨ right.limit ≤ left.base.toNat

instance : Std.Symm E820Entry.Apart := ⟨fun _ _ => Or.symm⟩

/-- Disjoint regions, the usable ones of whole blocks, are handed out as they are. -/
theorem handsOutUsable_of_aligned (apart : mmap.Pairwise E820Entry.Apart)
    (below : ∀ entry ∈ mmap, entry.Usable → entry.limit ≤ 2 ^ 32)
    (aligned : ∀ entry ∈ mmap, entry.Usable →
      entry.base.toNat % 4096 = 0 ∧ entry.len.toNat % 4096 = 0) :
    HandsOutUsable memory kernelEnd mmap := by
  rw [handsOutUsable_iff_reached below]
  intro entry member usable block reached damaged
  have whole := aligned entry member usable
  rcases damaged with ⟨other, otherMember, reserved, meets⟩ | ⟨part, _⟩
  · have different : entry ≠ other := fun same => reserved (same ▸ usable)
    have separate := apart.forall member otherMember different
    have inside := E820Entry.meets_of_reached reached
    unfold E820Entry.Meets at meets inside
    unfold E820Entry.Apart at separate
    unfold E820Entry.limit at *
    omega
  · rw [E820Entry.mem_raggedBlocks, E820Entry.limit] at part
    omega

/-- Only usable memory is handed out exactly when `pmm_init` does not return, or every
released block that a region of another type meets or that the usable regions do not fill has
the address 0 or is kept back. Where the usable regions end at or below 4 GiB these are the
blocks reached by their loops that a region of another type meets, or that the region fills
only in part and the usable ones together do not fill. -/
theorem handsOutUsable_iff (memory : Image) (kernelEnd : Word) (mmap : List E820Entry) :
    (HandsOutUsable memory kernelEnd mmap ↔
      (∃ entry ∈ mmap, entry.Usable ∧ ¬ entry.Short) ∨
        ∀ block, Released mmap block →
          MetByOther mmap (block % 2 ^ 20) ∨ ¬ Filled mmap (block % 2 ^ 20) →
            block % 2 ^ 20 = 0 ∨ KeptBack memory kernelEnd mmap block) ∧
    ((∀ entry ∈ mmap, entry.Usable → entry.limit ≤ 2 ^ 32) →
      (HandsOutUsable memory kernelEnd mmap ↔
        ∀ entry ∈ mmap, entry.Usable → ∀ block ∈ entry.reachedBlocks,
          MetByOther mmap block ∨ block ∈ entry.raggedBlocks ∧ ¬ Filled mmap block →
            block = 0 ∨ KeptBack memory kernelEnd mmap block)) :=
  ⟨handsOutUsable_iff_released memory kernelEnd mmap, handsOutUsable_iff_reached⟩

end HandedOut

/-! ### A region that starts inside a block -/

/-- The first half of the block at 1 MiB is reserved, the rest of 32 blocks is
usable. -/
def halfReservedMap : List E820Entry := [⟨0x100000, 0x800, 2⟩, ⟨0x100800, 0x1F800, 1⟩]

theorem halfReservedMap_below :
    ∀ entry ∈ halfReservedMap, entry.Usable → entry.limit ≤ 2 ^ 32 := by decide

/-- A kernel that ends behind the block keeps it back. -/
theorem handsOutUsable_halfReserved : HandsOutUsable (fun _ => 0) 0x101000 halfReservedMap := by
  refine ((handsOutUsable_iff (fun _ => 0) 0x101000 halfReservedMap).2 halfReservedMap_below).mpr ?_
  have atRisk : ∀ entry ∈ halfReservedMap, entry.Usable → ∀ block ∈ entry.reachedBlocks,
      MetByOther halfReservedMap block ∨ block ∈ entry.raggedBlocks → block = 256 := by
    decide +kernel
  intro entry member usable block reached damaged
  obtain rfl := atRisk entry member usable block reached (damaged.imp_right And.left)
  exact .inr (by decide +kernel)

/-- Behind a kernel that ends at 1 MiB it is the first block handed out. -/
theorem handsOutUsable_fails :
    ¬ ∀ (memory : Image) (kernelEnd : Word) (mmap : List E820Entry),
      HandsOutUsable memory kernelEnd mmap := by
  intro always
  have kept := (handsOutUsable_iff_reached halfReservedMap_below).mp
    (always (fun _ => 0) 0x100000 halfReservedMap) ⟨0x100800, 0x1F800, 1⟩ (by decide) rfl 256
    (by decide) (.inl (by decide))
  exact absurd kept (by decide +kernel)

end BrainDance.Memory
