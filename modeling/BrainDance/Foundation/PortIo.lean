import Mathlib.Logic.Function.Iterate
import BrainDance.Foundation.Bytes

/-!
Owns devices behind ports. Every access may move the device, so a driver threads it
through its accesses. A loop that reads one port until the value pleases it ends exactly
where some read pleases it; a loop that moves words through a data port follows the
stages of the device.
-/

namespace BrainDance.Foundation

universe u

structure Ports (Device : Type u) where
  inb : BitVec 16 → Device → Byte × Device
  outb : BitVec 16 → Byte → Device → Device
  inw : BitVec 16 → Device → BitVec 16 × Device
  outw : BitVec 16 → BitVec 16 → Device → Device

namespace Ports

variable {Device : Type u} (ports : Ports Device) (port : BitVec 16)

/-! ### Polling -/

/-- Reads the port until the value is right, at most `fuel` times. -/
def poll (right : Byte → Bool) : Nat → Device → Option Device
  | 0, _ => none
  | fuel + 1, device =>
      let reply := ports.inb port device
      if right reply.1 then some reply.2 else poll right fuel reply.2

/-- The device behind a number of reads. -/
def readTimes (count : Nat) (device : Device) : Device :=
  (fun device => (ports.inb port device).2)^[count] device

/-- The value of the read behind a number of others. -/
def readAfter (count : Nat) (device : Device) : Byte :=
  (ports.inb port (ports.readTimes port count device)).1

variable {right : Byte → Bool}

theorem readTimes_succ (count : Nat) (device : Device) :
    ports.readTimes port (count + 1) device =
      ports.readTimes port count (ports.inb port device).2 :=
  Function.iterate_succ_apply _ _ _

/-- Polling ends at the first read that is right, if the fuel reaches it. -/
theorem poll_eq_some (fuel : Nat) (device after : Device) :
    ports.poll port right fuel device = some after ↔
      ∃ count < fuel, (∀ earlier < count, right (ports.readAfter port earlier device) = false) ∧
        right (ports.readAfter port count device) = true ∧
        after = ports.readTimes port (count + 1) device := by
  induction fuel generalizing device with
  | zero => simp [poll]
  | succ fuel inductionHypothesis =>
      rw [poll]
      by_cases now : right (ports.inb port device).1 = true
      · rw [if_pos now, Option.some_inj]
        constructor
        · rintro rfl
          exact ⟨0, Nat.succ_pos _, fun _ none => absurd none (Nat.not_lt_zero _), now, rfl⟩
        · rintro ⟨count, _, wrong, _, rfl⟩
          cases count with
          | zero => rfl
          | succ count => exact absurd now (by simpa [readAfter, readTimes] using wrong 0 (by omega))
      · rw [if_neg now, inductionHypothesis]
        have shifted : ∀ count, ports.readAfter port count (ports.inb port device).2 =
            ports.readAfter port (count + 1) device := fun count => by
          rw [readAfter, readAfter, readTimes_succ]
        constructor
        · rintro ⟨count, enough, wrong, found, rfl⟩
          refine ⟨count + 1, by omega, fun earlier before => ?_, by rwa [← shifted], rfl⟩
          cases earlier with
          | zero => exact Bool.eq_false_iff.mpr now
          | succ earlier => rw [← shifted]; exact wrong earlier (by omega)
        · rintro ⟨count, enough, wrong, found, rfl⟩
          cases count with
          | zero => exact absurd found now
          | succ count =>
              refine ⟨count, by omega, fun earlier before => ?_, by rwa [shifted], rfl⟩
              rw [shifted]
              exact wrong (earlier + 1) (by omega)

/-- Where no read is right, no fuel is enough. -/
theorem poll_eq_none {device : Device}
    (never : ∀ count, right (ports.readAfter port count device) = false) (fuel : Nat) :
    ports.poll port right fuel device = none := by
  rw [Option.eq_none_iff_forall_ne_some]
  intro after ended
  obtain ⟨count, _, _, found, _⟩ := (ports.poll_eq_some port fuel device after).mp ended
  rw [never count] at found
  exact absurd found (by decide)

/-! ### Moving words -/

/-- Reads words from the port into the places below `count`. -/
def wordsIn (count : Nat) (buffer : Nat → BitVec 16) (device : Device) :
    (Nat → BitVec 16) × Device :=
  match count with
  | 0 => (buffer, device)
  | count + 1 =>
      let earlier := wordsIn count buffer device
      let reply := ports.inw port earlier.2
      (Function.update earlier.1 count reply.1, reply.2)

/-- Writes the words at the places below `count` to the port. -/
def wordsOut (count : Nat) (buffer : Nat → BitVec 16) (device : Device) : Device :=
  match count with
  | 0 => device
  | count + 1 => ports.outw port (buffer count) (wordsOut count buffer device)

variable {count : Nat} (stage : Nat → Device)

theorem wordsIn_eq {word : Nat → BitVec 16} (buffer : Nat → BitVec 16)
    (reads : ∀ i < count, ports.inw port (stage i) = (word i, stage (i + 1))) :
    ports.wordsIn port count buffer (stage 0) =
      (fun i => if i < count then word i else buffer i, stage count) := by
  induction count with
  | zero => simp [wordsIn]
  | succ count inductionHypothesis =>
      rw [wordsIn, inductionHypothesis fun i below => reads i (by omega)]
      simp only [reads count (by omega), Prod.mk.injEq, and_true]
      funext i
      by_cases here : i = count
      · simp [here]
      · rw [Function.update_of_ne here]
        by_cases below : i < count
        · rw [if_pos below, if_pos (by omega)]
        · rw [if_neg below, if_neg (by omega)]

theorem wordsOut_eq {buffer : Nat → BitVec 16}
    (writes : ∀ i < count, ports.outw port (buffer i) (stage i) = stage (i + 1)) :
    ports.wordsOut port count buffer (stage 0) = stage count := by
  induction count with
  | zero => rfl
  | succ count inductionHypothesis =>
      rw [wordsOut, inductionHypothesis fun i below => writes i (by omega), writes count (by omega)]

end Ports

end BrainDance.Foundation
