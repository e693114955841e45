import BrainDance.Foundation.Bytes

/-!
Owns the colours of `include/colors.h` that more than one part of the kernel prints with,
and those of the file system's listing.
-/

namespace BrainDance.Libc

open BrainDance.Foundation

/-- `COLOR_PROMPT`. -/
def colorPrompt : Byte := 0x0B

/-- `COLOR_SYSTEM`. -/
def colorSystem : Byte := 0x05

/-- `COLOR_SUCCESS`. -/
def colorSuccess : Byte := 0x0A

/-- `COLOR_ERROR`. -/
def colorError : Byte := 0x04

/-- `COLOR_DIR`. -/
def colorDir : Byte := 0x0E

/-- `COLOR_FILE`. -/
def colorFile : Byte := 0x07

/-- `COLOR_GHOST`. -/
def colorGhost : Byte := 0x09

/-- `COLOR_DIR_SOUL`. -/
def colorDirSoul : Byte := 0x0B

/-- `COLOR_DIR_CORTEX`. -/
def colorDirCortex : Byte := 0x05

/-- `COLOR_DIR_VAULT`. -/
def colorDirVault : Byte := 0x0E

/-- `COLOR_DIR_CHROME`. -/
def colorDirChrome : Byte := 0x0A

/-- `COLOR_DIR_DRIFT`. -/
def colorDirDrift : Byte := 0x0D

/-- `COLOR_DIR_GHOST`. -/
def colorDirGhost : Byte := 0x09

end BrainDance.Libc
