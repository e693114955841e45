import BrainDance.Foundation.Bitmap
import BrainDance.Libc.Memcore

/-!
Owns the model of `memory/pmm.c`: the physical memory manager's bitmap and
counters, the allocation and release of blocks, the statistics in bytes, and the
initialisation from an E820 memory map.

The bitmap is the memory from `pmm_bitmap` on. It is an image without an end:
like the source, the model lets `clear_block` write past the bytes that
`pmm_init` initialises. The loop that frees a region counts in 64 bits and does
not end on a region of more than 2^64 - 4096 bytes, so it takes fuel.
-/

namespace BrainDance.Memory

open BrainDance.Foundation
open BrainDance.Libc

/-! ### Blocks -/

def blockSize : Word := 4096

def blocksPerByte : Word := 8

structure Pmm where
  bitmap : Image
  totalBlocks : Word
  usedBlocks : Word

def setBlock (pmm : Pmm) (bit : Word) : Pmm :=
  { pmm with bitmap := Bitmap.setBit pmm.bitmap bit.toNat }

def clearBlock (pmm : Pmm) (bit : Word) : Pmm :=
  { pmm with bitmap := Bitmap.clearBit pmm.bitmap bit.toNat }

def testBlock (pmm : Pmm) (bit : Word) : Word :=
  Bitmap.word pmm.bitmap bit.toNat &&& Bitmap.mask bit.toNat

/-- The search covers `total_blocks / 32` whole words; `-1` is no block. -/
def findFirstFree (pmm : Pmm) : Word :=
  match Bitmap.findClear pmm.bitmap (pmm.totalBlocks / 32).toNat with
  | some frame => BitVec.ofNat 32 frame
  | none => -1

/-- The address returned, 0 for no block, and the state after. -/
def pmmAllocBlock (pmm : Pmm) : Word × Pmm :=
  if pmm.usedBlocks ≥ pmm.totalBlocks then (0, pmm)
  else
    let frame := findFirstFree pmm
    if frame = -1 then (0, pmm)
    else (frame * blockSize, { setBlock pmm frame with usedBlocks := pmm.usedBlocks + 1 })

def pmmFreeBlock (pmm : Pmm) (block : Word) : Pmm :=
  let frame := block / blockSize
  if testBlock pmm frame ≠ 0 then
    { clearBlock pmm frame with usedBlocks := pmm.usedBlocks - 1 }
  else pmm

/-! ### Statistics -/

def pmmGetTotalMemory (pmm : Pmm) : Word := pmm.totalBlocks * blockSize

def pmmGetUsedMemory (pmm : Pmm) : Word := pmm.usedBlocks * blockSize

def pmmGetFreeMemory (pmm : Pmm) : Word := (pmm.totalBlocks - pmm.usedBlocks) * blockSize

/-! ### Initialisation -/

structure E820Entry where
  base : BitVec 64
  len : BitVec 64
  type : Word
deriving DecidableEq

/-- The entry describes usable RAM. -/
def E820Entry.Usable (entry : E820Entry) : Prop := entry.type = 1

instance (entry : E820Entry) : Decidable entry.Usable := inferInstanceAs (Decidable (_ = _))

def totalMemory (mmap : List E820Entry) : BitVec 64 :=
  mmap.foldl (fun totalMem entry =>
    if entry.Usable ∧ entry.base + entry.len > totalMem then entry.base + entry.len else totalMem) 0

/-- `total_mem / BLOCK_SIZE`, cut to 32 bits. -/
def totalBlocksOf (mmap : List E820Entry) : Word := (totalMemory mmap / 4096).setWidth 32

/-- `bitmap_size`: the bytes of the bitmap that `pmm_init` fills. -/
def bitmapSizeOf (mmap : List E820Entry) : Word := totalBlocksOf mmap / blocksPerByte

/-- All memory marked as used. -/
def fullPmm (memory : Image) (mmap : List E820Entry) : Pmm where
  bitmap := memset memory 0 0xFF (bitmapSizeOf mmap).toNat
  totalBlocks := totalBlocksOf mmap
  usedBlocks := totalBlocksOf mmap

/-- One round of the loop that frees a region. -/
def releaseFrame (pmm : Pmm) (frame : Word) : Pmm :=
  { clearBlock pmm frame with usedBlocks := pmm.usedBlocks - 1 }

/-- The block that holds byte `offset` of the region, cut to 32 bits. -/
def E820Entry.frameAt (entry : E820Entry) (offset : BitVec 64) : Word :=
  ((entry.base + offset) / 4096).setWidth 32

def freeRegion : Nat → Pmm → E820Entry → BitVec 64 → Option Pmm
  | 0, _, _, _ => none
  | fuel + 1, pmm, entry, j =>
      if j < entry.len then freeRegion fuel (releaseFrame pmm (entry.frameAt j)) entry (j + 4096)
      else some pmm

def freeUsable (fuel : Nat) : Pmm → List E820Entry → Option Pmm
  | pmm, [] => some pmm
  | pmm, entry :: rest =>
      if entry.Usable then (freeRegion fuel pmm entry 0).bind fun freed => freeUsable fuel freed rest
      else freeUsable fuel pmm rest

/-- The loop that marks the first `count` blocks as used. -/
def markUsed (pmm : Pmm) : Nat → Pmm
  | 0 => pmm
  | count + 1 =>
      let marked := markUsed pmm count
      let i := BitVec.ofNat 32 count
      if testBlock marked i = 0 then
        { setBlock marked i with usedBlocks := marked.usedBlocks + 1 }
      else marked

/-- `(&_kernel_end + bitmap_size) / BLOCK_SIZE` in 32-bit arithmetic. -/
def kernelAndBitmapBlocks (kernelEnd bitmapSize : Word) : Word := (kernelEnd + bitmapSize) / blockSize

/-- `pmm_init` with `memory` standing from `&_kernel_end` on. -/
def pmmInit (fuel : Nat) (memory : Image) (kernelEnd : Word) (mmap : List E820Entry) :
    Option Pmm :=
  (freeUsable fuel (fullPmm memory mmap) mmap).map fun freed =>
    markUsed freed (kernelAndBitmapBlocks kernelEnd (bitmapSizeOf mmap)).toNat

end BrainDance.Memory
