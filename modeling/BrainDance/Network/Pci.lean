import BrainDance.Libc.Console.Output
import BrainDance.Network.E1000.Model
import Mathlib.Tactic.IntervalCases

/-!
Owns the model of `network/pci.c`: the address that `pci_config_read` writes, and the two
loops over all buses, devices and functions. The host bridge takes the address apart again,
so the loops find every function of the machine, each once and in order.

A place without a function reads as ones, and so does an address whose highest bit is clear.
A call of `e1000_init` is recorded and made: a scan goes on with the memory that it leaves,
whatever it returns, and ends where it does not return. What it prints is left out.
-/

namespace BrainDance.Network

open BrainDance.Foundation
open BrainDance.Libc

/-! ### The machine -/

/-- The place of a function. -/
structure PciPlace where
  bus : Fin 256
  dev : Fin 32
  func : Fin 8
deriving DecidableEq

/-- A function's configuration space, by the number of the register. -/
abbrev Registers := BitVec 6 → Word

/-- The functions of a machine. -/
abbrev PciMachine := PciPlace → Option Registers

/-- What `inl(0xCFC)` reads behind `outl(0xCF8, address)`. -/
def hostBridge (machine : PciMachine) (address : Word) : Word :=
  if address.getLsbD 31 then
    match machine ⟨(address.extractLsb' 16 8).toFin, (address.extractLsb' 11 5).toFin,
        (address.extractLsb' 8 3).toFin⟩ with
    | some registers => registers (address.extractLsb' 2 6)
    | none => 0xFFFFFFFF
  else 0xFFFFFFFF

/-! ### Model -/

/-- `address` of `pci_config_read`. -/
def configAddress (bus device func offset : Byte) : Word :=
  1 <<< 31 ||| bus.setWidth 32 <<< 16 ||| device.setWidth 32 <<< 11 ||| func.setWidth 32 <<< 8 |||
    (offset &&& 0xFC).setWidth 32

def pciConfigRead (machine : PciMachine) (bus device func offset : Byte) : Word :=
  hostBridge machine (configAddress bus device func offset)

/-- A call that `pci_scan_all` makes. -/
inductive ScanCall where
  | print (call : PrintCall)
  | e1000Init (bus dev func : Byte)

/-- `class_id` and `subclass`. -/
def classId (classCode : Word) : Byte := (classCode >>> 24).setWidth 8

def subclass (classCode : Word) : Byte := (classCode >>> 16).setWidth 8

def deviceFormat : Format :=
  format "  Bus %d, Dev %d, Func %d: Vendor %x, Class %x, Subclass %x\n"

/-- The body of the loops of `pci_list_devices`. -/
def listFunction (machine : PciMachine) (bus dev func : Byte) : List PrintCall :=
  let vendorDevice := pciConfigRead machine bus dev func 0x00
  let vendorId := vendorDevice &&& 0xFFFF
  if vendorId = 0xFFFF then []
  else
    let classCode := pciConfigRead machine bus dev func 0x08
    [.kprintf deviceFormat (words [bus.setWidth 32, dev.setWidth 32, func.setWidth 32,
      vendorId, (classId classCode).setWidth 32, (subclass classCode).setWidth 32])]

/-- What a scan has done: its calls, and the kernel's memory behind them. There is none behind a
call that does not return. -/
structure Scan where
  calls : List ScanCall
  kernel : Option Machine

/-- What `pci_scan_all` prints of a controller. -/
def ethernetLine (bus dev func : Byte) : List PrintCall := [
  .print (message "PCI Ethernet @ Bus ") 0x07, .printInt (bus.setWidth 32) 0x07,
  .print (message ", Device ") 0x07, .printInt (dev.setWidth 32) 0x07,
  .print (message ", Func ") 0x07, .printInt (func.setWidth 32) 0x07,
  .print (message "\n") 0x07]

/-- The body of the loops of `pci_scan_all`. -/
def scanFunction (machine : PciMachine) (scan : Scan) (bus dev func : Byte) : Scan :=
  match scan.kernel with
  | none => scan
  | some kernel =>
      let vendorDevice := pciConfigRead machine bus dev func 0x00
      let vendorId := vendorDevice &&& 0xFFFF
      if vendorId = 0xFFFF then scan
      else
        let classCode := pciConfigRead machine bus dev func 0x08
        if classId classCode = 0x02 ∧ subclass classCode = 0x00 then
          { calls := scan.calls ++ (ethernetLine bus dev func).map .print ++
              [.e1000Init bus dev func]
            kernel := (e1000Init (pciConfigRead machine bus dev func 0x10) kernel).map Prod.snd }
        else scan

/-- The three loops around a body. -/
def overFunctions {State : Type} (body : State → Byte → Byte → Byte → State) (start : State) :
    State :=
  (List.range 256).foldl (fun state bus => (List.range 32).foldl (fun state dev =>
    (List.range 8).foldl (fun state func =>
      body state (BitVec.ofNat 8 bus) (BitVec.ofNat 8 dev) (BitVec.ofNat 8 func)) state) state)
    start

def pciListDevices (machine : PciMachine) : List PrintCall :=
  overFunctions (fun calls bus dev func => calls ++ listFunction machine bus dev func)
    [.print (message "PCI Devices:\n") 0x07]

def pciScanAll (machine : PciMachine) (kernel : Machine) : Scan :=
  overFunctions (scanFunction machine) ⟨[], some kernel⟩

/-! ### The machine's functions -/

/-- All places, in the order of the loops. -/
def places : List PciPlace :=
  (List.finRange 256).flatMap fun bus => (List.finRange 32).flatMap fun dev =>
    (List.finRange 8).map fun func => ⟨bus, dev, func⟩

def vendor (registers : Registers) : Word := registers 0 &&& 0xFFFF

/-- The function at a place, if it says who made it. -/
def present (machine : PciMachine) (place : PciPlace) : Option (PciPlace × Registers) :=
  (machine place).bind fun registers =>
    if vendor registers = 0xFFFF then none else some (place, registers)

/-- The functions of the machine, in the order of the loops. -/
def presentFunctions (machine : PciMachine) : List (PciPlace × Registers) :=
  places.filterMap (present machine)

def IsEthernet (registers : Registers) : Prop :=
  classId (registers 2) = 0x02 ∧ subclass (registers 2) = 0x00

instance (registers : Registers) : Decidable (IsEthernet registers) :=
  inferInstanceAs (Decidable (_ ∧ _))

/-- The Ethernet controllers among them. -/
def controllers (machine : PciMachine) : List (PciPlace × Registers) :=
  (presentFunctions machine).filter fun found => IsEthernet found.2

/-- The line of a function. -/
def deviceLine (place : PciPlace) (registers : Registers) : PrintCall :=
  .kprintf deviceFormat (words [BitVec.ofNat 32 place.bus.val, BitVec.ofNat 32 place.dev.val,
    BitVec.ofNat 32 place.func.val, vendor registers, (classId (registers 2)).setWidth 32,
    (subclass (registers 2)).setWidth 32])

/-- The calls of `e1000_init` among the calls. -/
def initialised (calls : List ScanCall) : List (Byte × Byte × Byte) :=
  calls.filterMap fun call =>
    match call with
    | .print _ => none
    | .e1000Init bus dev func => some (bus, dev, func)

/-- The place as the three loop variables. -/
def PciPlace.loop (place : PciPlace) : Byte × Byte × Byte :=
  (BitVec.ofNat 8 place.bus.val, BitVec.ofNat 8 place.dev.val, BitVec.ofNat 8 place.func.val)

/-- What a scan does at a controller. -/
def controllerCalls (place : PciPlace) : List ScanCall :=
  (ethernetLine place.loop.1 place.loop.2.1 place.loop.2.2).map .print ++
    [.e1000Init place.loop.1 place.loop.2.1 place.loop.2.2]

/-- The number of a place in the order of the loops. -/
def PciPlace.number (place : PciPlace) : Nat :=
  place.bus.val * 256 + place.dev.val * 8 + place.func.val

/-! ### Addresses -/

section Addresses

variable {bus device func offset : Byte}

theorem bit_of_small {value : Byte} {bits : Nat} (small : value.toNat < 2 ^ bits) {i : Nat}
    (inByte : i < 8) (above : bits ≤ i) : value[i] = false := by
  rw [← BitVec.getLsbD_eq_getElem, BitVec.getLsbD, Nat.testBit_lt_two_pow]
  exact Nat.lt_of_lt_of_le small (Nat.pow_le_pow_right (by decide) above)

theorem configAddress_enabled : (configAddress bus device func offset).getLsbD 31 = true := by
  simp [configAddress]

theorem configAddress_bus (dev : device.toNat < 2 ^ 5) :
    (configAddress bus device func offset).extractLsb' 16 8 = bus := by
  apply BitVec.eq_of_getLsbD_eq
  intro i inBus
  interval_cases i <;> simp [configAddress, bit_of_small dev]

theorem configAddress_device (small : func.toNat < 2 ^ 3) :
    (configAddress bus device func offset).extractLsb' 11 5 = device.setWidth 5 := by
  apply BitVec.eq_of_getLsbD_eq
  intro i inDevice
  interval_cases i <;> simp [configAddress, bit_of_small small]

theorem configAddress_func :
    (configAddress bus device func offset).extractLsb' 8 3 = func.setWidth 3 := by
  apply BitVec.eq_of_getLsbD_eq
  intro i inFunc
  interval_cases i <;> simp [configAddress]

theorem configAddress_register :
    (configAddress bus device func offset).extractLsb' 2 6 = offset.extractLsb' 2 6 := by
  apply BitVec.eq_of_getLsbD_eq
  intro i inRegister
  interval_cases i <;> simp [configAddress]

end Addresses

/-- The address of a place takes the host bridge to it. -/
theorem pciConfigRead_place (machine : PciMachine) (place : PciPlace) (offset : Byte) :
    pciConfigRead machine (BitVec.ofNat 8 place.bus.val) (BitVec.ofNat 8 place.dev.val)
        (BitVec.ofNat 8 place.func.val) offset =
      match machine place with
      | some registers => registers (offset.extractLsb' 2 6)
      | none => 0xFFFFFFFF := by
  obtain ⟨bus, dev, func⟩ := place
  have smallDevice : (BitVec.ofNat 8 dev.val).toNat < 2 ^ 5 := by
    rw [BitVec.toNat_ofNat]
    omega
  have smallFunc : (BitVec.ofNat 8 func.val).toNat < 2 ^ 3 := by
    rw [BitVec.toNat_ofNat]
    omega
  have atBus : (BitVec.ofNat 8 bus.val).toFin = bus := by
    apply Fin.ext
    simp only [BitVec.toFin_ofNat, Fin.val_ofNat]
    omega
  have atDevice : ((BitVec.ofNat 8 dev.val).setWidth 5).toFin = dev := by
    apply Fin.ext
    simp only [BitVec.val_toFin, BitVec.toNat_setWidth, BitVec.toNat_ofNat]
    omega
  have atFunc : ((BitVec.ofNat 8 func.val).setWidth 3).toFin = func := by
    apply Fin.ext
    simp only [BitVec.val_toFin, BitVec.toNat_setWidth, BitVec.toNat_ofNat]
    omega
  unfold pciConfigRead hostBridge
  rw [if_pos configAddress_enabled, configAddress_bus smallDevice, configAddress_device smallFunc,
    configAddress_func, configAddress_register, atBus, atDevice, atFunc]

/-! ### Loops -/

theorem mem_places (place : PciPlace) : place ∈ places := by
  obtain ⟨bus, dev, func⟩ := place
  simp [places, List.mem_finRange]

theorem places_pairwise :
    places.Pairwise fun first second => first.number < second.number := by
  have onFunctions (bus : Fin 256) (dev : Fin 32) :
      ((List.finRange 8).map fun func => PciPlace.mk bus dev func).Pairwise
        fun first second => first.number < second.number := by
    rw [List.pairwise_map]
    refine (List.pairwise_lt_finRange 8).imp fun {first second} before => ?_
    simp only [PciPlace.number]
    omega
  unfold places
  rw [List.pairwise_flatMap]
  refine ⟨fun bus _ => ?_, (List.pairwise_lt_finRange 256).imp fun {first second} before => ?_⟩
  · rw [List.pairwise_flatMap]
    refine ⟨fun dev _ => onFunctions bus dev,
      (List.pairwise_lt_finRange 32).imp fun {first second} before => ?_⟩
    intro lower inLower upper inUpper
    simp only [List.mem_map] at inLower inUpper
    obtain ⟨_, _, rfl⟩ := inLower
    obtain ⟨_, _, rfl⟩ := inUpper
    simp only [PciPlace.number]
    omega
  · intro lower inLower upper inUpper
    simp only [List.mem_flatMap, List.mem_map] at inLower inUpper
    obtain ⟨_, _, _, _, rfl⟩ := inLower
    obtain ⟨_, _, _, _, rfl⟩ := inUpper
    simp only [PciPlace.number]
    omega

/-- The loops go over the places. -/
theorem overFunctions_eq {State : Type} (body : State → Byte → Byte → Byte → State)
    (start : State) :
    overFunctions body start = places.foldl
      (fun state place => body state place.loop.1 place.loop.2.1 place.loop.2.2) start := by
  simp only [overFunctions, places, ← List.map_coe_finRange_eq_range, List.foldl_map,
    List.foldl_flatMap, PciPlace.loop]

/-! ### Bodies of the loops -/

section Bodies

variable {machine : PciMachine} {place : PciPlace} {registers : Registers}

theorem pciConfigRead_absent (absent : machine place = none) (offset : Byte) :
    pciConfigRead machine place.loop.1 place.loop.2.1 place.loop.2.2 offset = 0xFFFFFFFF := by
  rw [PciPlace.loop, pciConfigRead_place, absent]

theorem pciConfigRead_found (found : machine place = some registers) (offset : Byte) :
    pciConfigRead machine place.loop.1 place.loop.2.1 place.loop.2.2 offset =
      registers (offset.extractLsb' 2 6) := by
  rw [PciPlace.loop, pciConfigRead_place, found]

theorem pciConfigRead_vendor (found : machine place = some registers) :
    pciConfigRead machine place.loop.1 place.loop.2.1 place.loop.2.2 0x00 = registers 0 :=
  pciConfigRead_found found 0x00

theorem pciConfigRead_class (found : machine place = some registers) :
    pciConfigRead machine place.loop.1 place.loop.2.1 place.loop.2.2 0x08 = registers 2 :=
  pciConfigRead_found found 0x08

theorem ones_anonymous : (0xFFFFFFFF : Word) &&& 0xFFFF = 0xFFFF := by decide

theorem present_absent (absent : machine place = none) : present machine place = none := by
  rw [present, absent, Option.bind_none]

theorem present_anonymous (found : machine place = some registers)
    (anonymous : registers 0 &&& 0xFFFF = 0xFFFF) : present machine place = none := by
  rw [present, found, Option.bind_some, vendor, if_pos anonymous]

theorem present_named (found : machine place = some registers)
    (named : registers 0 &&& 0xFFFF ≠ 0xFFFF) :
    present machine place = some (place, registers) := by
  rw [present, found, Option.bind_some, vendor, if_neg named]

theorem present_place {found : PciPlace} (here : present machine place = some (found, registers)) :
    found = place := by
  obtain ⟨held, _, named⟩ := Option.bind_eq_some_iff.mp here
  split at named
  · contradiction
  · exact (Prod.mk.inj (Option.some.inj named)).1.symm

theorem loop_words (place : PciPlace) :
    place.loop.1.setWidth 32 = BitVec.ofNat 32 place.bus.val ∧
      place.loop.2.1.setWidth 32 = BitVec.ofNat 32 place.dev.val ∧
      place.loop.2.2.setWidth 32 = BitVec.ofNat 32 place.func.val := by
  refine ⟨?_, ?_, ?_⟩ <;>
  · apply BitVec.eq_of_toNat_eq
    simp only [PciPlace.loop, BitVec.toNat_setWidth, BitVec.toNat_ofNat]
    omega

/-- A place gives a line when its function is present, and none otherwise. -/
theorem listFunction_place (machine : PciMachine) (place : PciPlace) :
    listFunction machine place.loop.1 place.loop.2.1 place.loop.2.2 =
      ((present machine place).map fun found => deviceLine found.1 found.2).toList := by
  unfold listFunction
  cases found : machine place with
  | none =>
    simp only [pciConfigRead_absent found, ones_anonymous, if_true, present_absent found,
      Option.map_none, Option.toList_none]
  | some registers =>
    simp only [pciConfigRead_vendor found, pciConfigRead_class found]
    by_cases anonymous : registers 0 &&& 0xFFFF = 0xFFFF
    · rw [if_pos anonymous, present_anonymous found anonymous, Option.map_none,
        Option.toList_none]
    · have widths := loop_words place
      rw [if_neg anonymous, present_named found anonymous, Option.map_some, Option.toList_some,
        deviceLine, widths.1, widths.2.1, widths.2.2, vendor]

/-- A scan passes over a place without an Ethernet controller. -/
theorem scanFunction_other {calls : List ScanCall} {kernel : Machine}
    (other : (present machine place).filter (fun found => IsEthernet found.2) = none) :
    scanFunction machine ⟨calls, some kernel⟩ place.loop.1 place.loop.2.1 place.loop.2.2 =
      ⟨calls, some kernel⟩ := by
  unfold scanFunction
  cases found : machine place with
  | none => simp only [pciConfigRead_absent found, ones_anonymous, if_true]
  | some registers =>
    simp only [pciConfigRead_vendor found, pciConfigRead_class found]
    by_cases anonymous : registers 0 &&& 0xFFFF = 0xFFFF
    · rw [if_pos anonymous]
    · rw [if_neg anonymous]
      refine if_neg fun ethernet => ?_
      have chosen : decide (IsEthernet registers) = true := decide_eq_true ethernet
      rw [present_named found anonymous, Option.filter_some, if_pos chosen] at other
      contradiction

/-- At an Ethernet controller it calls `e1000_init` with its first base address. -/
theorem scanFunction_controller {calls : List ScanCall} {kernel : Machine}
    (controller : (present machine place).filter (fun found => IsEthernet found.2) =
      some (place, registers)) :
    scanFunction machine ⟨calls, some kernel⟩ place.loop.1 place.loop.2.1 place.loop.2.2 =
      ⟨calls ++ controllerCalls place, (e1000Init (registers 4) kernel).map Prod.snd⟩ := by
  obtain ⟨isPresent, chosen⟩ := Option.filter_eq_some_iff.mp controller
  obtain ⟨held, found, named⟩ := Option.bind_eq_some_iff.mp isPresent
  split at named
  · contradiction
  rename_i notAnonymous
  obtain rfl := (Prod.mk.inj (Option.some.inj named)).2
  have isNamed : held 0 &&& 0xFFFF ≠ 0xFFFF := notAnonymous
  have ethernet : IsEthernet held := of_decide_eq_true chosen
  have bar0 : pciConfigRead machine place.loop.1 place.loop.2.1 place.loop.2.2 0x10 = held 4 :=
    pciConfigRead_found found 0x10
  unfold scanFunction
  simp only [pciConfigRead_vendor found, pciConfigRead_class found, bar0]
  rw [if_neg isNamed]
  refine (if_pos ethernet).trans (congrArg (Scan.mk · _) ?_)
  exact List.append_assoc _ _ _

end Bodies

/-! ### Scans -/

/-- The controllers were given to `e1000_init` in their order, up to the first for which it did
not return. -/
inductive Scanned : Machine → List (PciPlace × Registers) → List (Byte × Byte × Byte) →
    Option Machine → Prop where
  | done (kernel : Machine) : Scanned kernel [] [] (some kernel)
  | returns {kernel next : Machine} {found : PciPlace × Registers}
      {rest : List (PciPlace × Registers)} {calls : List (Byte × Byte × Byte)}
      {last : Option Machine} {driver : Option E1000}
      (started : e1000Init (found.2 4) kernel = some (driver, next))
      (behind : Scanned next rest calls last) :
      Scanned kernel (found :: rest) (found.1.loop :: calls) last
  | stops {kernel : Machine} {found : PciPlace × Registers} (rest : List (PciPlace × Registers))
      (stuck : e1000Init (found.2 4) kernel = none) :
      Scanned kernel (found :: rest) [found.1.loop] none

/-- Where every call returns, every controller had its call. -/
theorem Scanned.complete {kernel final : Machine} {found : List (PciPlace × Registers)}
    {calls : List (Byte × Byte × Byte)} (scanned : Scanned kernel found calls (some final)) :
    calls = found.map fun controller => controller.1.loop := by
  generalize same : some final = last at scanned
  induction scanned with
  | done kernel => rfl
  | returns started behind inductionHypothesis =>
      rw [inductionHypothesis same, List.map_cons]
  | stops rest stuck => contradiction

/-- A scan that has ended makes no more calls. -/
theorem foldl_scanFunction_ended (machine : PciMachine) (calls : List ScanCall)
    (rest : List PciPlace) :
    rest.foldl (fun scan place => scanFunction machine scan place.loop.1 place.loop.2.1
      place.loop.2.2) ⟨calls, none⟩ = ⟨calls, none⟩ := by
  induction rest with
  | nil => rfl
  | cons place rest inductionHypothesis => exact inductionHypothesis

theorem foldl_scanFunction (machine : PciMachine) (rest : List PciPlace) (calls : List ScanCall)
    (kernel : Machine) :
    ∃ made last, rest.foldl (fun scan place => scanFunction machine scan place.loop.1
        place.loop.2.1 place.loop.2.2) ⟨calls, some kernel⟩ = ⟨calls ++ made, last⟩ ∧
      Scanned kernel ((rest.filterMap (present machine)).filter fun found => IsEthernet found.2)
        (initialised made) last := by
  rw [List.filter_filterMap]
  induction rest generalizing calls kernel with
  | nil => exact ⟨[], some kernel, by rw [List.append_nil]; rfl, .done kernel⟩
  | cons place rest inductionHypothesis =>
      rw [List.foldl_cons, List.filterMap_cons]
      cases controller : (present machine place).filter (fun found => IsEthernet found.2) with
      | none =>
          rw [scanFunction_other controller]
          exact inductionHypothesis calls kernel
      | some found =>
          obtain ⟨here, registers⟩ := found
          obtain rfl : here = place := present_place (Option.filter_eq_some_iff.mp controller).1
          rw [scanFunction_controller controller]
          have named : initialised (controllerCalls here) = [here.loop] := rfl
          cases started : e1000Init (registers 4) kernel with
          | none =>
              exact ⟨_, none, foldl_scanFunction_ended machine _ rest, named ▸ .stops _ started⟩
          | some result =>
              obtain ⟨driver, next⟩ := result
              obtain ⟨made, last, ended, behind⟩ :=
                inductionHypothesis (calls ++ controllerCalls here) next
              refine ⟨_, last, ended.trans (congrArg (Scan.mk · last) (List.append_assoc _ _ _)), ?_⟩
              rw [initialised, List.filterMap_append, ← initialised, ← initialised, named]
              exact .returns started behind

/-- `pci_list_devices` prints one line for each function of the machine that says who made it.
`pci_scan_all` calls `e1000_init` once for each Ethernet controller among them, in turn, until
a call does not return. Both go in the order of buses, devices and functions; where every call
returns, they leave no place out. -/
theorem pci_enumeration (machine : PciMachine) (kernel : Machine) :
    places.Pairwise (fun first second => first.number < second.number) ∧
      (∀ place, place ∈ places) ∧
      pciListDevices machine = .print (message "PCI Devices:\n") 0x07 ::
        (presentFunctions machine).map (fun found => deviceLine found.1 found.2) ∧
      Scanned kernel (controllers machine) (initialised (pciScanAll machine kernel).calls)
        (pciScanAll machine kernel).kernel ∧
      ∀ final, (pciScanAll machine kernel).kernel = some final →
        initialised (pciScanAll machine kernel).calls =
          (controllers machine).map fun found => found.1.loop := by
  obtain ⟨made, last, ended, scanned⟩ := foldl_scanFunction machine places [] kernel
  have scan : pciScanAll machine kernel = ⟨made, last⟩ := by
    rw [pciScanAll, overFunctions_eq]
    exact ended
  refine ⟨places_pairwise, mem_places, ?_, ?_, fun final is => ?_⟩
  · rw [pciListDevices, overFunctions_eq, presentFunctions, List.map_filterMap,
      List.filterMap_eq_flatMap_toList]
    simp only [listFunction_place, List.foldl_append_eq_append, List.singleton_append,
      List.flatMap_def]
  · rw [scan]
    exact scanned
  · rw [scan] at is ⊢
    obtain rfl : last = some final := is
    exact scanned.complete

end BrainDance.Network
