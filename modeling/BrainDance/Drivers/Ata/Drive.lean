import Mathlib.Tactic.Simps.Basic
import BrainDance.Foundation.PortIo

/-!
Owns the drive that `drivers/ata/ata.c` talks to: drive 0 of the primary channel, in the
programmed transfers that the driver uses. How long the drive is busy with a command,
whether it refuses it and whether the data of a write reach the medium is up to the drive.

A drive that is busy takes no access but the reading of its status. Of the commands only
the reading and the writing of one sector and the flush do something; the ports that the
driver leaves alone are not there.
-/

namespace BrainDance.Drivers.Ata

open BrainDance.Foundation

/-! ### Ports, commands and status -/

def ataDataPort : BitVec 16 := 0x1F0
def ataErrorPort : BitVec 16 := 0x1F1
def ataSectorCountPort : BitVec 16 := 0x1F2
def ataLbaLowPort : BitVec 16 := 0x1F3
def ataLbaMidPort : BitVec 16 := 0x1F4
def ataLbaHighPort : BitVec 16 := 0x1F5
def ataDriveHeadPort : BitVec 16 := 0x1F6
def ataStatusCmdPort : BitVec 16 := 0x1F7

def ataCmdReadSectors : Byte := 0x20
def ataCmdWriteSectors : Byte := 0x30

/-- The last command of `ata_write_sector`, a number in the source. -/
def flushCache : Byte := 0xE7

def ataSrBsy : Byte := 0x80
def ataSrDrdy : Byte := 0x40
def ataSrDrq : Byte := 0x08
def ataSrErr : Byte := 0x01

/-! ### The drive -/

/-- The words of a sector are those below 256. -/
abbrev Sector := Nat → BitVec 16

def sectorWords : Nat := 256

/-- What a drive makes of one command: how many status reads it is busy, whether it refuses,
and, where it writes, how long it is busy behind the data and whether they are stored. -/
structure Response where
  delay : Nat
  refused : Bool
  writing : Nat
  stored : Bool

/-- The data still to be moved. -/
inductive Transfer where
  | none
  | toHost (sector position : Nat)
  | fromHost (sector position : Nat) (words : Sector) (response : Response)

def Transfer.pending : Transfer → Bool
  | .none => false
  | _ => true

/-- The registers, the state and the medium; `responses 0` belongs to the next command. -/
structure Drive where
  features : Byte
  sectorCount : Byte
  lbaLow : Byte
  lbaMid : Byte
  lbaHigh : Byte
  driveHead : Byte
  busy : Nat
  ready : Bool
  error : Bool
  transfer : Transfer
  capacity : Nat
  sectors : Nat → Sector
  responses : Nat → Response

namespace Drive

def status (drive : Drive) : Byte :=
  if drive.busy = 0 then
    (if drive.ready then 0x50 else 0) ||| (if drive.transfer.pending then 0x08 else 0) |||
      (if drive.error then 0x01 else 0)
  else 0x80

/-- The sector that the registers name: 28 bits, the upper four in the drive register. -/
def address (drive : Drive) : Nat :=
  drive.lbaLow.toNat + 2 ^ 8 * drive.lbaMid.toNat + 2 ^ 16 * drive.lbaHigh.toNat +
    2 ^ 24 * (drive.driveHead &&& 0x0F).toNat

/-- The registers ask for one sector of this drive, by its number, and it has it. -/
def InRange (drive : Drive) : Prop :=
  drive.driveHead &&& 0xF0 = 0xE0 ∧ drive.sectorCount = 1 ∧ drive.address < drive.capacity

instance (drive : Drive) : Decidable drive.InRange := inferInstanceAs (Decidable (_ ∧ _ ∧ _))

/-- The drive with the next command in hand. -/
@[simps -fullyApplied]
def taken (drive : Drive) : Drive :=
  { drive with
    busy := (drive.responses 0).delay
    error := false
    responses := fun n => drive.responses (n + 1) }

/-- The drive with the error bit. -/
@[simps -fullyApplied]
def failed (drive : Drive) : Drive := { drive with error := true }

def command (drive : Drive) (value : Byte) : Drive :=
  if value = flushCache then { drive.taken with error := (drive.responses 0).refused }
  else if drive.InRange ∧ (drive.responses 0).refused = false then
    if value = ataCmdReadSectors then { drive.taken with transfer := .toHost drive.address 0 }
    else if value = ataCmdWriteSectors then
      { drive.taken with
        transfer := .fromHost drive.address 0 (drive.sectors drive.address) (drive.responses 0) }
    else drive.taken.failed
  else drive.taken.failed

def inb (port : BitVec 16) (drive : Drive) : Byte × Drive :=
  if port = ataStatusCmdPort then (drive.status, { drive with busy := drive.busy - 1 })
  else (0xFF, drive)

def outb (port : BitVec 16) (value : Byte) (drive : Drive) : Drive :=
  if drive.busy ≠ 0 ∨ drive.transfer.pending then drive
  else if port = ataErrorPort then { drive with features := value }
  else if port = ataSectorCountPort then { drive with sectorCount := value }
  else if port = ataLbaLowPort then { drive with lbaLow := value }
  else if port = ataLbaMidPort then { drive with lbaMid := value }
  else if port = ataLbaHighPort then { drive with lbaHigh := value }
  else if port = ataDriveHeadPort then { drive with driveHead := value }
  else if port = ataStatusCmdPort then drive.command value
  else drive

/-- One word to the host, the sector's last one ends the transfer. -/
def inw (port : BitVec 16) (drive : Drive) : BitVec 16 × Drive :=
  match drive.transfer with
  | .toHost sector position =>
      if drive.busy = 0 ∧ port = ataDataPort then
        (drive.sectors sector position,
          { drive with
            transfer :=
              if position + 1 = sectorWords then .none else .toHost sector (position + 1) })
      else (0xFFFF, drive)
  | _ => (0xFFFF, drive)

/-- One word from the host; behind the sector's last one the drive stores them all, or
reports that it cannot. -/
def outw (port : BitVec 16) (word : BitVec 16) (drive : Drive) : Drive :=
  match drive.transfer with
  | .fromHost sector position words response =>
      if drive.busy = 0 ∧ port = ataDataPort then
        let words := Function.update words position word
        if position + 1 = sectorWords then
          { drive with
            transfer := .none
            busy := response.writing
            error := !response.stored
            sectors :=
              if response.stored then Function.update drive.sectors sector words
              else drive.sectors }
        else { drive with transfer := .fromHost sector (position + 1) words response }
      else drive
  | _ => drive

end Drive

/-- The ports of the channel with a drive on it. -/
def drivePorts : Ports Drive := ⟨Drive.inb, Drive.outb, Drive.inw, Drive.outw⟩

/-- The ports of a channel without a drive, whose lines float. -/
def floatingPorts : Ports Unit :=
  ⟨fun _ _ => (0xFF, ()), fun _ _ _ => (), fun _ _ => (0xFFFF, ()), fun _ _ _ => ()⟩

end BrainDance.Drivers.Ata
