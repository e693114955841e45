import BrainDance.Drivers.Ata.Driver
import BrainDance.Foundation.Transition

/-!
Owns the results on `drivers/ata/ata.c`: over any run of calls, whatever the drive makes of
the commands, the driver and the drive are an array of sectors; each call returns; and
without a drive none does.
-/

namespace BrainDance.Drivers.Ata

open BrainDance.Foundation

/-! ### One call -/

@[simp] theorem drdy_settled (drive : Drive) :
    drive.settled.status &&& ataSrDrdy = 0#8 ↔ drive.ready = false := by
  rw [Drive.status, if_pos drive.settled_busy, Drive.settled_ready]
  cases drive.ready <;> cases drive.settled.transfer.pending <;> cases drive.settled.error <;>
    simp [ataSrDrdy]

@[simp] theorem drq_settled (drive : Drive) :
    drive.settled.status &&& ataSrDrq = 0#8 ↔ drive.transfer.pending = false := by
  rw [Drive.status, if_pos drive.settled_busy, Drive.settled_transfer]
  cases drive.settled.ready <;> cases drive.transfer.pending <;> cases drive.settled.error <;>
    simp [ataSrDrq]

@[simp] theorem err_settled (drive : Drive) :
    drive.settled.status &&& ataSrErr = 0#8 ↔ drive.error = false := by
  rw [Drive.status, if_pos drive.settled_busy, Drive.settled_error]
  cases drive.settled.ready <;> cases drive.settled.transfer.pending <;> cases drive.error <;>
    simp [ataSrErr]

/-- The drive has the sector and does not refuse the next command. -/
def Drive.Accepts (drive : Drive) (lba : Word) : Prop :=
  sectorOf lba < drive.capacity ∧ (drive.responses 0).refused = false

instance (drive : Drive) (lba : Word) : Decidable (drive.Accepts lba) :=
  inferInstanceAs (Decidable (_ ∧ _))

theorem accepts_iff (drive : Drive) (lba : Word) :
    (drive.addressed lba).InRange ∧ ((drive.addressed lba).responses 0).refused = false ↔
      drive.Accepts lba :=
  and_congr_left' (inRange_addressed drive lba)

section Calls

variable {drive : Drive} {fuel : Nat} {lba : Word} {buffer : Sector}

theorem command_read (accepts : drive.Accepts lba) :
    (drive.addressed lba).command ataCmdReadSectors =
      (drive.addressed lba).taken.sent (sectorOf lba) 0 := by
  rw [Drive.command, if_neg (by decide), if_pos ((accepts_iff drive lba).mpr accepts), if_pos rfl,
    address_addressed]
  rfl

theorem command_write (accepts : drive.Accepts lba) (words : Sector) :
    (drive.addressed lba).command ataCmdWriteSectors =
      (drive.addressed lba).taken.received (sectorOf lba) words (drive.responses 0) 0 := by
  rw [Drive.command, if_neg (by decide), if_pos ((accepts_iff drive lba).mpr accepts),
    if_neg (by decide), if_pos rfl, address_addressed, Drive.received, if_neg (by decide)]
  rfl

theorem command_refused (refused : ¬ drive.Accepts lba) {value : Byte}
    (transfer : value ≠ flushCache) :
    (drive.addressed lba).command value = (drive.addressed lba).taken.failed := by
  rw [Drive.command, if_neg transfer, if_neg ((accepts_iff drive lba).not.mpr refused)]

/-- What a read returns, its loops apart. -/
def readReply (drive : Drive) (lba : Word) (buffer : Sector) : AtaReply Drive :=
  let taken := (drive.settled.addressed lba).taken
  if drive.ready = false then
    ⟨-1, "ATA: Drive not ready for read command\n", buffer, drive.settled⟩
  else if drive.Accepts lba then
    ⟨0, "ATA: Read sector OK\n", overwrite (drive.sectors (sectorOf lba)) buffer,
      (taken.sent (sectorOf lba) sectorWords).settled⟩
  else ⟨-1, "ATA: Read error\n", buffer, taken.failed.settled⟩

theorem ataReadSector_drive (done : drive.transfer = .none) :
    ataReadSector drivePorts fuel lba buffer drive =
      if drive.busy < fuel ∧ (drive.ready = true → (drive.responses 0).delay < fuel) then
        some (readReply drive lba buffer) else none := by
  rw [ataReadSector, ataPoll_drive, readReply]
  have sends := @sendCommand_drive drive.settled rfl done lba ataCmdReadSectors
  by_cases first : drive.busy < fuel
  · by_cases unready : drive.ready = false
    · simp [first, unready]
    · by_cases accepts : drive.Accepts lba
      · rw [@command_read drive.settled lba accepts] at sends
        by_cases second : (drive.responses 0).delay < fuel
        · simp [first, unready, second, accepts, sends, ataPoll_drive]
        · simp [first, unready, second, sends, ataPoll_drive]
      · rw [@command_refused drive.settled lba accepts _ (by decide)] at sends
        by_cases second : (drive.responses 0).delay < fuel
        · simp [first, unready, second, accepts, sends, ataPoll_drive]
        · simp [first, unready, second, sends, ataPoll_drive]
  · rw [if_neg first, if_neg fun both => first both.1]
    rfl

/-- The drive behind the last word of a write and the flush. A drive that is still busy with
the data does not take the flush. -/
def Drive.flushed (drive : Drive) (lba : Word) (buffer : Sector) : Drive :=
  ((drive.settled.addressed lba).taken.received (sectorOf lba) buffer (drive.responses 0)
    sectorWords).outb ataStatusCmdPort flushCache

/-- What a write returns, its loops apart. -/
def writeReply (drive : Drive) (lba : Word) (buffer : Sector) : AtaReply Drive :=
  if drive.ready = false then
    ⟨-1, "ATA: Drive not ready for write command\n", buffer, drive.settled⟩
  else if drive.Accepts lba then
    ⟨0, "ATA: Write sector OK\n", buffer, (drive.flushed lba buffer).settled⟩
  else
    ⟨-1, "ATA: Write error\n", buffer, (drive.settled.addressed lba).taken.failed.settled⟩

theorem ataWriteSector_drive (done : drive.transfer = .none) :
    ataWriteSector drivePorts fuel lba buffer drive =
      if drive.busy < fuel ∧ (drive.ready = true → (drive.responses 0).delay < fuel ∧
          (drive.Accepts lba → (drive.flushed lba buffer).busy < fuel)) then
        some (writeReply drive lba buffer) else none := by
  rw [ataWriteSector, ataPoll_drive, writeReply]
  have sends := @sendCommand_drive drive.settled rfl done lba ataCmdWriteSectors
  by_cases first : drive.busy < fuel
  · by_cases unready : drive.ready = false
    · simp [first, unready]
    · by_cases accepts : drive.Accepts lba
      · rw [@command_write drive.settled lba accepts buffer] at sends
        have flushes : drivePorts.outb ataStatusCmdPort flushCache
            ((drive.settled.addressed lba).taken.received (sectorOf lba) buffer (drive.responses 0)
              sectorWords) = drive.flushed lba buffer := rfl
        by_cases second : (drive.responses 0).delay < fuel
        · by_cases third : (drive.flushed lba buffer).busy < fuel
          · simp [first, unready, second, third, accepts, sends, flushes, ataPoll_drive]
          · simp [first, unready, second, third, accepts, sends, flushes, ataPoll_drive]
        · simp [first, unready, second, sends, ataPoll_drive]
      · rw [@command_refused drive.settled lba accepts _ (by decide)] at sends
        by_cases second : (drive.responses 0).delay < fuel
        · simp [first, unready, second, accepts, sends, ataPoll_drive]
        · simp [first, unready, second, sends, ataPoll_drive]
  · rw [if_neg first, if_neg fun both => first both.1]
    rfl

/-- Neither the capacity nor whether the drive is ready changes, and no transfer is left open. -/
structure Drive.Kept (before after : Drive) : Prop where
  capacity : after.capacity = before.capacity
  ready : after.ready = before.ready
  done : after.transfer = .none

theorem readReply_device (done : drive.transfer = .none) (lba : Word) (buffer : Sector) :
    drive.Kept (readReply drive lba buffer).device ∧
      (readReply drive lba buffer).device.sectors = drive.sectors := by
  rw [readReply]
  split
  · exact ⟨⟨rfl, rfl, done⟩, rfl⟩
  · split
    · exact ⟨⟨rfl, rfl, rfl⟩, rfl⟩
    · exact ⟨⟨rfl, rfl, done⟩, rfl⟩

/-- The flush keeps the sectors, whether the drive takes it or not. -/
theorem flushed_eq (drive : Drive) (lba : Word) (buffer : Sector) :
    drive.Kept (drive.flushed lba buffer) ∧ (drive.flushed lba buffer).sectors =
      if (drive.responses 0).stored then
        Function.update drive.sectors (sectorOf lba)
          (overwrite buffer (drive.sectors (sectorOf lba)))
      else drive.sectors := by
  have flushing : ∀ drive : Drive, drive.transfer = .none →
      drive.Kept (drive.outb ataStatusCmdPort flushCache) ∧
        (drive.outb ataStatusCmdPort flushCache).sectors = drive.sectors := fun drive done => by
    rw [Drive.outb]
    split
    · exact ⟨⟨rfl, rfl, done⟩, rfl⟩
    · exact ⟨⟨rfl, rfl, done⟩, rfl⟩
  obtain ⟨kept, sectors⟩ := flushing ((drive.settled.addressed lba).taken.received (sectorOf lba)
    buffer (drive.responses 0) sectorWords) rfl
  exact ⟨⟨kept.capacity, kept.ready, kept.done⟩, sectors⟩

theorem writeReply_device (done : drive.transfer = .none) (lba : Word) (buffer : Sector) :
    drive.Kept (writeReply drive lba buffer).device := by
  rw [writeReply]
  split
  · exact ⟨rfl, rfl, done⟩
  · split
    · have kept := (flushed_eq drive lba buffer).1
      exact ⟨kept.capacity, kept.ready, kept.done⟩
    · exact ⟨rfl, rfl, done⟩

end Calls

/-! ### Runs -/

/-- A call with what it returns, the drive's word on whether it stored what it was sent, and
the drive getting ready or not. -/
inductive AtaEvent where
  | init
  | read (lba : Word) (buffer : Sector) (code : Int) (result : Sector)
  | write (lba : Word) (buffer : Sector) (code : Int) (stored : Bool)
  | turn (ready : Bool)

def ataSystem : TransitionSystem Drive AtaEvent where
  Init drive := drive.transfer = .none
  Step before event after :=
    match event with
    | .init => ∃ fuel message, ataInit drivePorts fuel before = some (message, after)
    | .read lba buffer code result =>
        ∃ fuel message, ataReadSector drivePorts fuel lba buffer before =
          some ⟨code, message, result, after⟩
    | .write lba buffer code stored =>
        stored = (before.responses 0).stored ∧
          ∃ fuel message, ataWriteSector drivePorts fuel lba buffer before =
            some ⟨code, message, buffer, after⟩
    | .turn ready => after = { before with ready }

/-- Sectors that are read and overwritten by the lower 28 bits of their number. A call that
fails does nothing; the code of a write says that the drive took the data, not that it stored
them. -/
def sectorStore (capacity : Nat) : TransitionSystem (Nat → Sector) AtaEvent where
  Init _ := True
  Step before event after :=
    match event with
    | .init => after = before
    | .read lba buffer code result =>
        after = before ∧
          (code = 0 ∧ sectorOf lba < capacity ∧ result = overwrite (before (sectorOf lba)) buffer ∨
            code = -1 ∧ result = buffer)
    | .write lba buffer code stored =>
        code = 0 ∧ sectorOf lba < capacity ∧
            after = (if stored then Function.update before (sectorOf lba)
              (overwrite buffer (before (sectorOf lba))) else before) ∨
          code = -1 ∧ after = before
    | .turn _ => after = before

theorem init_step {drive after : Drive} (done : drive.transfer = .none)
    (step : ataSystem.Step drive .init after) : drive.Kept after ∧ after.sectors = drive.sectors := by
  obtain ⟨fuel, message, called⟩ := step
  rw [ataInit_drive] at called
  split at called
  · obtain ⟨_, rfl⟩ := Prod.mk.inj (Option.some.inj called)
    rw [Drive.outb]
    split
    · exact ⟨⟨rfl, rfl, done⟩, rfl⟩
    · exact ⟨⟨rfl, rfl, done⟩, rfl⟩
  · exact absurd called (by simp)

theorem read_step {drive after : Drive} {lba : Word} {buffer result : Sector} {code : Int}
    (done : drive.transfer = .none)
    (step : ataSystem.Step drive (.read lba buffer code result) after) :
    ∃ message, readReply drive lba buffer = ⟨code, message, result, after⟩ := by
  obtain ⟨fuel, message, called⟩ := step
  rw [ataReadSector_drive done] at called
  split at called
  · exact ⟨message, Option.some.inj called⟩
  · exact absurd called (by simp)

theorem write_step {drive after : Drive} {lba : Word} {buffer : Sector} {code : Int}
    {stored : Bool} (done : drive.transfer = .none)
    (step : ataSystem.Step drive (.write lba buffer code stored) after) :
    stored = (drive.responses 0).stored ∧
      ∃ message, writeReply drive lba buffer = ⟨code, message, buffer, after⟩ := by
  obtain ⟨same, fuel, message, called⟩ := step
  rw [ataWriteSector_drive done] at called
  split at called
  · exact ⟨same, message, Option.some.inj called⟩
  · exact absurd called (by simp)

theorem step_kept {drive after : Drive} {event : AtaEvent} (done : drive.transfer = .none)
    (step : ataSystem.Step drive event after) :
    after.capacity = drive.capacity ∧ after.transfer = .none := by
  cases event with
  | init => exact ⟨(init_step done step).1.capacity, (init_step done step).1.done⟩
  | read lba buffer code result =>
      obtain ⟨message, reply⟩ := read_step done step
      have kept := (readReply_device done lba buffer).1
      rw [reply] at kept
      exact ⟨kept.capacity, kept.done⟩
  | write lba buffer code stored =>
      obtain ⟨_, message, reply⟩ := write_step done step
      have kept := writeReply_device done lba buffer
      rw [reply] at kept
      exact ⟨kept.capacity, kept.done⟩
  | turn ready =>
      rw [show after = _ from step]
      exact ⟨rfl, done⟩

/-- The sectors after a step are those that the store may have after it. -/
theorem step_follows {drive after : Drive} {event : AtaEvent} (done : drive.transfer = .none)
    (step : ataSystem.Step drive event after) :
    (sectorStore drive.capacity).Step drive.sectors event after.sectors := by
  cases event with
  | init => exact (init_step done step).2
  | read lba buffer code result =>
      obtain ⟨message, reply⟩ := read_step done step
      have sectors := (readReply_device done lba buffer).2
      rw [reply] at sectors
      refine ⟨sectors, ?_⟩
      rw [readReply] at reply
      split at reply
      · obtain ⟨rfl, -, rfl, -⟩ := AtaReply.mk.inj reply
        exact .inr ⟨rfl, rfl⟩
      · split at reply
        · rename_i accepts
          obtain ⟨rfl, -, rfl, -⟩ := AtaReply.mk.inj reply
          exact .inl ⟨rfl, accepts.1, rfl⟩
        · obtain ⟨rfl, -, rfl, -⟩ := AtaReply.mk.inj reply
          exact .inr ⟨rfl, rfl⟩
  | write lba buffer code stored =>
      obtain ⟨rfl, message, reply⟩ := write_step done step
      rw [writeReply] at reply
      split at reply
      · obtain ⟨rfl, -, -, rfl⟩ := AtaReply.mk.inj reply
        exact .inr ⟨rfl, rfl⟩
      · split at reply
        · rename_i accepts
          obtain ⟨rfl, -, -, rfl⟩ := AtaReply.mk.inj reply
          exact .inl ⟨rfl, accepts.1, (flushed_eq drive lba buffer).2⟩
        · obtain ⟨rfl, -, -, rfl⟩ := AtaReply.mk.inj reply
          exact .inr ⟨rfl, rfl⟩
  | turn ready =>
      rw [show after = _ from step]
      rfl

/-- A drive of the capacity, between two calls, with the sectors of the store. -/
structure Stored (capacity : Nat) (drive : Drive) (store : Nat → Sector) : Prop where
  done : drive.transfer = .none
  capacity : drive.capacity = capacity
  sectors : store = drive.sectors

section Stored

variable {capacity : Nat} {drive after : Drive} {store : Nat → Sector} {event : AtaEvent}

theorem Stored.follows (stored : Stored capacity drive store)
    (step : ataSystem.Step drive event after) :
    (sectorStore capacity).Step store event after.sectors := by
  rw [← stored.capacity, stored.sectors]
  exact step_follows stored.done step

theorem Stored.step (stored : Stored capacity drive store)
    (step : ataSystem.Step drive event after) : Stored capacity after after.sectors :=
  have kept := step_kept stored.done step
  ⟨kept.2, kept.1.trans stored.capacity, rfl⟩

end Stored

/-- Over every run of calls the driver and its drive are a store of sectors. -/
theorem ata_refines_sectorStore {drive after : Drive} {events : List AtaEvent}
    (initial : ataSystem.Init drive) (run : ataSystem.Run drive events after) :
    (sectorStore drive.capacity).Run drive.sectors events after.sectors := by
  have followed : ∃ last, (sectorStore drive.capacity).Run drive.sectors events last ∧
      Stored drive.capacity after last :=
    run.refines (Stored drive.capacity)
      (fun _ _ _ _ stored step => ⟨_, stored.follows step, stored.step step⟩) ⟨initial, rfl, rfl⟩
  obtain ⟨_, storeRun, _, _, rfl⟩ := followed
  exact storeRun

/-- A drive of eight sectors that takes its time and does what it is told. -/
def slowDrive : Drive :=
  ⟨0, 0, 0, 0, 0, 0, 7, true, false, .none, 8, fun _ _ => 0, fun _ => ⟨2, false, 3, true⟩⟩

/-- Words that differ from each other. -/
def countingWords : Sector := fun i => BitVec.ofNat 16 i

/-- Sector 5 is written and read back under a number whose upper bits the drive never sees. -/
theorem ata_refines_sectorStore_slowDrive :
    ∃ after, (sectorStore slowDrive.capacity).Run slowDrive.sectors
      [.write 5 countingWords 0 true,
        .read 0x10000005 (fun _ => 7) 0 (overwrite (overwrite countingWords fun _ => 0) fun _ => 7)]
      after := by
  have accepts : slowDrive.Accepts 5 := ⟨by decide, rfl⟩
  have first : ataSystem.Step slowDrive (.write 5 countingWords 0 true)
      (slowDrive.flushed 5 countingWords).settled := by
    refine ⟨rfl, 10, "ATA: Write sector OK\n", ?_⟩
    rw [ataWriteSector_drive rfl, if_pos ⟨by decide, fun _ => ⟨by decide, fun _ => by decide⟩⟩,
      writeReply, if_neg (by decide), if_pos accepts]
  have again : (slowDrive.flushed 5 countingWords).settled.Accepts 0x10000005 := ⟨by decide, rfl⟩
  have second : ataSystem.Step (slowDrive.flushed 5 countingWords).settled
      (.read 0x10000005 (fun _ => 7) 0
        (overwrite (overwrite countingWords fun _ => 0) fun _ => 7))
      (readReply (slowDrive.flushed 5 countingWords).settled 0x10000005 fun _ => 7).device := by
    refine ⟨10, "ATA: Read sector OK\n", ?_⟩
    rw [ataReadSector_drive rfl, if_pos ⟨by decide, fun _ => by decide⟩, readReply,
      if_neg (by decide), if_pos again]
    rfl
  exact ⟨_, ata_refines_sectorStore rfl (.cons first (.cons second (.nil _)))⟩

theorem reachable_done {drive : Drive} (reachable : ataSystem.Reachable drive) :
    drive.transfer = .none := by
  refine reachable.invariant (fun drive => drive.transfer = .none) ?_ ?_
  · exact fun _ initial => initial
  · exact fun _ _ _ _ done step => (step_kept done step).2

/-- In every reachable state both calls return, with 0 exactly where the drive is ready and
takes the command. -/
theorem ata_calls_return {drive : Drive} (reachable : ataSystem.Reachable drive) (lba : Word)
    (buffer : Sector) :
    (∃ enough reply, (∀ fuel, enough ≤ fuel →
        ataReadSector drivePorts fuel lba buffer drive = some reply) ∧
      (reply.code = 0 ↔ drive.ready = true ∧ drive.Accepts lba)) ∧
    ∃ enough reply, (∀ fuel, enough ≤ fuel →
        ataWriteSector drivePorts fuel lba buffer drive = some reply) ∧
      (reply.code = 0 ↔ drive.ready = true ∧ drive.Accepts lba) := by
  have done := reachable_done reachable
  constructor
  · refine ⟨drive.busy + (drive.responses 0).delay + 1, readReply drive lba buffer,
      fun fuel enough => ?_, ?_⟩
    · rw [ataReadSector_drive done, if_pos ⟨by omega, fun _ => by omega⟩]
    · rw [readReply]
      cases drive.ready <;> by_cases accepts : drive.Accepts lba <;> simp [accepts]
  · refine ⟨drive.busy + (drive.responses 0).delay + (drive.flushed lba buffer).busy + 1,
      writeReply drive lba buffer, fun fuel enough => ?_, ?_⟩
    · rw [ataWriteSector_drive done,
        if_pos ⟨by omega, fun _ => ⟨by omega, fun _ => by omega⟩⟩]
    · rw [writeReply]
      cases drive.ready <;> by_cases accepts : drive.Accepts lba <;> simp [accepts]

theorem ata_calls_return_slowDrive :
    ∃ enough reply, (∀ fuel, enough ≤ fuel →
        ataReadSector drivePorts fuel 5 countingWords slowDrive = some reply) ∧
      (reply.code = 0 ↔ slowDrive.ready = true ∧ slowDrive.Accepts 5) :=
  (ata_calls_return (.init (show ataSystem.Init slowDrive from rfl)) 5 countingWords).1

/-! ### No drive -/

theorem ataPoll_floating (fuel : Nat) : ataPoll floatingPorts fuel () = none := by
  have busy : ∀ count, decide
      (floatingPorts.readAfter ataStatusCmdPort count () &&& ataSrBsy = 0) = false :=
    fun _ => show decide ((0xFF : Byte) &&& ataSrBsy = 0) = false by decide
  rw [ataPoll, floatingPorts.poll_eq_none ataStatusCmdPort busy]
  rfl

/-- Without a drive `ata_init` says so and returns, and no later call ever does. -/
theorem ata_without_drive (fuel : Nat) (lba : Word) (buffer : Sector) :
    ataInit floatingPorts fuel () = some ("ATA: No drive found\n", ()) ∧
      ataReadSector floatingPorts fuel lba buffer () = none ∧
      ataWriteSector floatingPorts fuel lba buffer () = none := by
  refine ⟨rfl, ?_, ?_⟩
  · rw [ataReadSector, ataPoll_floating, Option.bind_none]
  · rw [ataWriteSector, ataPoll_floating, Option.bind_none]

end BrainDance.Drivers.Ata
