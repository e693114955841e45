import BrainDance.Drivers.Ata.Drive

/-!
Owns the driver of `drivers/ata/ata.c`, over any device behind the ports. The loop of
`ata_poll` has fuel; without enough of it a call has no result. The text is what the call
prints last.
-/

namespace BrainDance.Drivers.Ata

open BrainDance.Foundation

universe u

section Driver

variable {Device : Type u} (ports : Ports Device)

/-- What a call returns and prints, the buffer and the device behind it. -/
structure AtaReply (Device : Type u) where
  code : Int
  message : String
  buffer : Sector
  device : Device

def ataDelay (device : Device) : Device := ports.readTimes ataStatusCmdPort 4 device

def ataStatus (device : Device) : Byte × Device := ports.inb ataStatusCmdPort device

/-- `ata_poll`: reads until the drive is not busy, and once more. -/
def ataPoll (fuel : Nat) (device : Device) : Option (Byte × Device) :=
  (ports.poll ataStatusCmdPort (· &&& ataSrBsy = 0) fuel device).map
    (ports.inb ataStatusCmdPort)

def ataInit (fuel : Nat) (device : Device) : Option (String × Device) :=
  let device := ataDelay ports (ports.outb ataDriveHeadPort 0xE0 device)
  let present := ataStatus ports device
  if present.1 = 0xFF then some ("ATA: No drive found\n", present.2)
  else (ataPoll ports fuel present.2).map fun polled => ("ATA: Drive ready\n", polled.2)

/-- The seven writes that send a command, the same in both transfers. -/
def sendCommand (lba : Word) (value : Byte) (device : Device) : Device :=
  let device :=
    ports.outb ataDriveHeadPort ((0xE0 ||| ((lba >>> 24) &&& 0x0F)).setWidth 8) device
  let device := ports.outb ataErrorPort 0x00 device
  let device := ports.outb ataSectorCountPort 1 device
  let device := ports.outb ataLbaLowPort (lba.setWidth 8) device
  let device := ports.outb ataLbaMidPort ((lba >>> 8).setWidth 8) device
  let device := ports.outb ataLbaHighPort ((lba >>> 16).setWidth 8) device
  ports.outb ataStatusCmdPort value device

def ataReadSector (fuel : Nat) (lba : Word) (buffer : Sector) (device : Device) :
    Option (AtaReply Device) :=
  (ataPoll ports fuel device).bind fun polled =>
    if polled.1 &&& ataSrDrdy = 0 then
      some ⟨-1, "ATA: Drive not ready for read command\n", buffer, polled.2⟩
    else
      (ataPoll ports fuel (sendCommand ports lba ataCmdReadSectors polled.2)).map fun polled =>
        if polled.1 &&& ataSrErr ≠ 0 then ⟨-1, "ATA: Read error\n", buffer, polled.2⟩
        else if polled.1 &&& ataSrDrq = 0 then
          ⟨-1, "ATA: DRQ not set after read\n", buffer, polled.2⟩
        else
          let moved := ports.wordsIn ataDataPort sectorWords buffer polled.2
          ⟨0, "ATA: Read sector OK\n", moved.1, moved.2⟩

def ataWriteSector (fuel : Nat) (lba : Word) (buffer : Sector) (device : Device) :
    Option (AtaReply Device) :=
  (ataPoll ports fuel device).bind fun polled =>
    if polled.1 &&& ataSrDrdy = 0 then
      some ⟨-1, "ATA: Drive not ready for write command\n", buffer, polled.2⟩
    else
      (ataPoll ports fuel (sendCommand ports lba ataCmdWriteSectors polled.2)).bind fun polled =>
        if polled.1 &&& ataSrErr ≠ 0 then some ⟨-1, "ATA: Write error\n", buffer, polled.2⟩
        else if polled.1 &&& ataSrDrq = 0 then
          some ⟨-1, "ATA: DRQ not set after write\n", buffer, polled.2⟩
        else
          let device := ports.wordsOut ataDataPort sectorWords buffer polled.2
          let device := ports.outb ataStatusCmdPort flushCache device
          -- the status behind the flush is not looked at
          (ataPoll ports fuel device).map fun polled =>
            ⟨0, "ATA: Write sector OK\n", buffer, polled.2⟩

end Driver

/-! ### The driver on a drive -/

/-- The drive when it is done with what keeps it busy. -/
@[simps -fullyApplied]
def Drive.settled (drive : Drive) : Drive := { drive with busy := 0 }

@[simp] theorem settled_settled (drive : Drive) : drive.settled.settled = drive.settled := rfl

theorem busy_status (drive : Drive) : drive.status &&& ataSrBsy = 0 ↔ drive.busy = 0 := by
  rw [Drive.status]
  by_cases idle : drive.busy = 0
  · cases drive.ready <;> cases drive.transfer.pending <;> cases drive.error <;>
      simp [idle, ataSrBsy]
  · simp [idle, ataSrBsy]

theorem readTimes_drive (count : Nat) (drive : Drive) :
    drivePorts.readTimes ataStatusCmdPort count drive =
      { drive with busy := drive.busy - count } := by
  induction count generalizing drive with
  | zero => rfl
  | succ count inductionHypothesis =>
      rw [Ports.readTimes_succ, inductionHypothesis]
      simp only [drivePorts, Drive.inb, if_pos]
      congr 1
      omega

/-- The loop ends where the fuel is more than the reads that find the drive busy. -/
theorem ataPoll_drive (fuel : Nat) (drive : Drive) :
    ataPoll drivePorts fuel drive =
      if drive.busy < fuel then some (drive.settled.status, drive.settled) else none := by
  have value : ∀ count, drivePorts.readAfter ataStatusCmdPort count drive =
      Drive.status { drive with busy := drive.busy - count } := fun count => by
    rw [Ports.readAfter, readTimes_drive]
    rfl
  have right : ∀ count, decide (drivePorts.readAfter ataStatusCmdPort count drive &&&
      ataSrBsy = 0) = true ↔ drive.busy ≤ count := fun count => by
    rw [value, decide_eq_true_iff, busy_status]
    exact Nat.sub_eq_zero_iff_le
  rw [ataPoll]
  split
  · rename_i enough
    have ended : drivePorts.poll ataStatusCmdPort (· &&& ataSrBsy = 0) fuel drive = some _ :=
      (drivePorts.poll_eq_some _ _ _ _).mpr ⟨drive.busy, enough, fun earlier before => by
        rw [Bool.eq_false_iff, Ne, right]; omega, (right _).mpr (Nat.le_refl _), rfl⟩
    rw [ended, readTimes_drive, show drive.busy - (drive.busy + 1) = 0 by omega]
    rfl
  · rename_i short
    rw [Option.map_eq_none_iff, Option.eq_none_iff_forall_ne_some]
    intro after ended
    obtain ⟨count, below, _, found, _⟩ := (drivePorts.poll_eq_some _ _ _ _).mp ended
    have := (right count).mp found
    omega

theorem status_ne_floating (drive : Drive) : drive.status ≠ 0xFF := by
  rw [Drive.status]
  cases drive.ready <;> cases drive.transfer.pending <;> cases drive.error <;> split <;> decide

/-- The delay and the first status leave five reads less of a busy drive. -/
theorem ataInit_drive (fuel : Nat) (drive : Drive) :
    ataInit drivePorts fuel drive =
      if (drive.outb ataDriveHeadPort 0xE0).busy - 5 < fuel then
        some ("ATA: Drive ready\n", (drive.outb ataDriveHeadPort 0xE0).settled) else none := by
  rw [ataInit, ataDelay, readTimes_drive, ataStatus]
  simp only [drivePorts, Drive.inb, if_pos, status_ne_floating, if_false]
  rw [← drivePorts, ataPoll_drive, Nat.sub_sub]
  split <;> rfl

/-- The drive with the registers of a command for one sector. -/
@[simps -fullyApplied]
def Drive.addressed (drive : Drive) (lba : Word) : Drive :=
  { drive with
    features := 0
    sectorCount := 1
    lbaLow := lba.setWidth 8
    lbaMid := (lba >>> 8).setWidth 8
    lbaHigh := (lba >>> 16).setWidth 8
    driveHead := (0xE0 ||| ((lba >>> 24) &&& 0x0F)).setWidth 8 }

theorem sendCommand_drive {drive : Drive} (idle : drive.busy = 0)
    (done : drive.transfer = .none) (lba : Word) (value : Byte) :
    sendCommand drivePorts lba value drive = (drive.addressed lba).command value := by
  simp [sendCommand, drivePorts, Drive.outb, Drive.addressed, Transfer.pending, idle, done,
    ataErrorPort, ataSectorCountPort, ataLbaLowPort, ataLbaMidPort, ataLbaHighPort,
    ataDriveHeadPort, ataStatusCmdPort]

/-- The number of the sector that a call means: 28 bits of its argument. -/
def sectorOf (lba : Word) : Nat := lba.toNat % 2 ^ 28

/-- The upper half of the drive register says `LBA` and drive 0, the lower one has the number's
bits 24 to 27. -/
theorem driveHead_addressed (drive : Drive) (lba : Word) :
    (drive.addressed lba).driveHead &&& 0xF0 = 0xE0 ∧
      ((drive.addressed lba).driveHead &&& 0x0F).toNat = lba.toNat / 2 ^ 24 % 16 := by
  have split : ∀ half : Byte, (0xE0 ||| (half &&& 0x0F)) &&& 0xF0 = 0xE0 ∧
      (0xE0 ||| (half &&& 0x0F)) &&& 0x0F = half &&& 0x0F := by decide
  have head : (drive.addressed lba).driveHead =
      (0xE0 : Byte) ||| ((lba >>> 24).setWidth 8 &&& 0x0F) := by
    simp only [Drive.addressed, BitVec.setWidth_or, BitVec.setWidth_and]
    rfl
  rw [head]
  refine ⟨(split _).1, ?_⟩
  rw [(split _).2, BitVec.toNat_and, show (0x0F : Byte).toNat = 2 ^ 4 - 1 from rfl,
    Nat.and_two_pow_sub_one_eq_mod, BitVec.toNat_setWidth, BitVec.toNat_ushiftRight,
    Nat.shiftRight_eq_div_pow]
  omega

/-- The registers name the sector by the number's lower 28 bits. -/
theorem address_addressed (drive : Drive) (lba : Word) :
    (drive.addressed lba).address = sectorOf lba := by
  rw [Drive.address, sectorOf, (driveHead_addressed drive lba).2]
  simp only [Drive.addressed, BitVec.toNat_setWidth, BitVec.toNat_ushiftRight,
    Nat.shiftRight_eq_div_pow]
  omega

theorem inRange_addressed (drive : Drive) (lba : Word) :
    (drive.addressed lba).InRange ↔ sectorOf lba < drive.capacity := by
  rw [Drive.InRange, address_addressed, eq_true (driveHead_addressed drive lba).1, true_and]
  exact and_iff_right rfl

/-! ### Moving a sector -/

/-- A sector with the words of the buffer. -/
def overwrite (words old : Sector) : Sector := fun i => if i < sectorWords then words i else old i

/-- The drive that has sent some of a sector's words. -/
@[simps -fullyApplied busy ready error capacity sectors responses]
def Drive.sent (drive : Drive) (sector position : Nat) : Drive :=
  { drive with transfer := if position = sectorWords then .none else .toHost sector position }

@[simp] theorem pending_sent (drive : Drive) (sector : Nat) :
    (drive.sent sector 0).transfer.pending = true := rfl

@[simp] theorem wordsIn_sent (drive : Drive) (sector : Nat) (buffer : Sector) :
    drivePorts.wordsIn ataDataPort sectorWords buffer (drive.sent sector 0).settled =
      (overwrite (drive.sectors sector) buffer, (drive.sent sector sectorWords).settled) := by
  refine drivePorts.wordsIn_eq ataDataPort (fun i => (drive.sent sector i).settled) buffer
    fun i below => ?_
  have here : i ≠ sectorWords := by omega
  simp [drivePorts, Drive.inw, Drive.sent, Drive.settled, here]

/-- The drive that has taken some of a sector's words. -/
def Drive.received (drive : Drive) (sector : Nat) (words : Sector) (response : Response)
    (position : Nat) : Drive :=
  if position = sectorWords then
    { drive with
      transfer := .none
      busy := response.writing
      error := !response.stored
      sectors :=
        if response.stored then
          Function.update drive.sectors sector (overwrite words (drive.sectors sector))
        else drive.sectors }
  else
    { drive with
      transfer := .fromHost sector position
        (fun i => if i < position then words i else drive.sectors sector i) response }

theorem update_prefix (words old : Sector) (position : Nat) :
    Function.update (fun i => if i < position then words i else old i) position (words position) =
      fun i => if i < position + 1 then words i else old i := by
  funext i
  by_cases here : i = position
  · simp [here]
  · rw [Function.update_of_ne here]
    by_cases below : i < position
    · rw [if_pos below, if_pos (by omega)]
    · rw [if_neg below, if_neg (by omega)]

@[simp] theorem busy_received (drive : Drive) (sector : Nat) (words : Sector)
    (response : Response) : (drive.received sector words response 0).busy = drive.busy := rfl

@[simp] theorem error_received (drive : Drive) (sector : Nat) (words : Sector)
    (response : Response) : (drive.received sector words response 0).error = drive.error := rfl

@[simp] theorem pending_received (drive : Drive) (sector : Nat) (words : Sector)
    (response : Response) :
    (drive.received sector words response 0).transfer.pending = true := rfl

@[simp] theorem wordsOut_received (drive : Drive) (sector : Nat) (words : Sector)
    (response : Response) :
    drivePorts.wordsOut ataDataPort sectorWords words
        (drive.received sector words response 0).settled =
      drive.received sector words response sectorWords := by
  refine drivePorts.wordsOut_eq ataDataPort (drive.settled.received sector words response)
    fun i below => ?_
  have here : i ≠ sectorWords := by omega
  simp only [drivePorts, Drive.received, if_neg here, Drive.outw, Drive.settled, true_and,
    if_pos, update_prefix]
  split
  · rename_i last
    rw [last]
    rfl
  · rfl

end BrainDance.Drivers.Ata
