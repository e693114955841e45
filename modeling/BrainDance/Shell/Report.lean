import BrainDance.Fs.Bdfs.Listing
import BrainDance.Network.Pci
import BrainDance.Shell.Readers
import BrainDance.Shell.Dispatch
import BrainDance.Shell.Pulse
import BrainDance.App.Calculator.Model

/-!
Owns what the commands of `shell/shell.c` print: the calls of `print`, `print_int`,
`print_char` and `kprintf` that each makes, with the file system that it leaves. The commands
that clear the screen, edit or run a program do more than print and have no report.

A command has no report where it traps, writes past the end of an array, or resets the machine
or turns it off.
-/

namespace BrainDance.Shell

open BrainDance.Foundation
open BrainDance.Libc
open BrainDance.Memory
open BrainDance.Network
open BrainDance.Fs.Bdfs

/-! ### Surroundings -/

/-- What the commands meet besides the files: the memory manager, `_kernel_end - _bss_start`,
`timer_ticks`, what `cpu_get_usage` returns, the machine's PCI functions, the bytes that the
keyboard controller answers with at port 0x64, and the writes to ports, the port first, that
reset the machine or turn it off. -/
structure Surroundings where
  pmm : Pmm
  kernelSize : Word
  timerTicks : Word
  cpuUsage : Word
  machine : PciMachine
  controllerStatus : List Byte
  endsAt : BitVec 16 → BitVec 16 → Bool

/-- What was printed, if the machine is still running behind the write to the port. -/
def Surroundings.out (around : Surroundings) (port value : BitVec 16)
    (output : List PrintCall) : Option (List PrintCall) :=
  if around.endsAt port value then none else some output

/-! ### Texts -/

def helpLines : List CString := [
  message "Available commands:\n",
  message "  help     - Display this help message\n",
  message "  clear    - Clear the screen\n",
  message "  meminfo  - Show PMM statistics\n",
  message "  time     - Show system uptime\n",
  message "  halt     - Halt the system (requires QEMU to be closed manually)\n",
  message "  reboot   - Reboot the system\n",
  message "  shutdown - Shutdown the system\n",
  message "  ls       - List files\n",
  message "  touch    - Create a file\n",
  message "  write    - Write to a file\n",
  message "  echo     - Print text to the screen\n",
  message "  cat      - Read from a file\n",
  message "  cable    - Open a text editor\n",
  message "  rm       - Remove a file\n",
  message "  mv       - Rename a file\n",
  message "  mkdir    - Create a directory\n",
  message "  cd       - Change directory\n",
  message "  sysinfo  - Display system information\n",
  message "  calc     - Evaluate a mathematical expression\n",
  message "  pulse    - Show CPU and memory usage\n",
  message "  chrome   - List connected PCI devices\n",
  message "  applist  - List available applications\n"]

def helpCommand : List PrintCall := helpLines.map fun line => .print line colorSystem

def applistCommand : List PrintCall := [
  .print (message "Available applications:\n") colorSystem,
  .print (message "  calc     - A simple calculator\n") colorSystem,
  .print (message "  cable    - A simple text editor\n") colorSystem]

/-- Bytes as MiB, as the source divides them. -/
def megabytes (bytes : Word) : Word := bytes / 1024 / 1024

def sysinfoCommand (around : Surroundings) : List PrintCall := [
  .print (message "[sysinfo] brainDance v0.3\n") colorSystem,
  .kprintf (format "[sysinfo] Kernel Size: %d KB\n") (words [around.kernelSize / 1024]),
  .kprintf (format "[sysinfo] Total RAM: %d MB\n")
    (words [megabytes (pmmGetTotalMemory around.pmm)]),
  .kprintf (format "[sysinfo] Free RAM: %d MB\n")
    (words [megabytes (pmmGetFreeMemory around.pmm)]),
  .kprintf (format "[sysinfo] Uptime: %d seconds\n") (words [around.timerTicks / 100]),
  .print (literal
    "[sysinfo] Drivers: ATA, BDFS, CPU, E1000, Keyboard, Paging, PCI, PMM, Timer\n".toList)
    colorSystem,
  .print (message "[sysinfo] Shell User: V\n") colorSystem]

def meminfoCommand (pmm : Pmm) : List PrintCall := [
  .print (message "Physical Memory Manager (PMM) Info:\n") colorSystem,
  .print (message "  Total memory: ") colorSystem,
  .printInt (megabytes (pmmGetTotalMemory pmm)) colorSystem,
  .print (message " MB\n") colorSystem,
  .print (message "  Used memory:  ") colorSystem,
  .printInt (megabytes (pmmGetUsedMemory pmm)) colorSystem,
  .print (message " MB\n") colorSystem,
  .print (message "  Free memory:  ") colorSystem,
  .printInt (megabytes (pmmGetFreeMemory pmm)) colorSystem,
  .print (message " MB\n") colorSystem]

/-- A number with a zero in front of a single digit. -/
def twoDigits (number : Word) : List PrintCall :=
  (if number < 10 then [.print (message "0") colorSystem] else []) ++
    [.printInt number colorSystem]

def timeCommand (timerTicks : Word) : List PrintCall :=
  let totalSeconds := timerTicks / 100
  let hours := totalSeconds / 3600
  let minutes := totalSeconds % 3600 / 60
  let seconds := totalSeconds % 60
  [.print (message "Uptime: ") colorSystem] ++ twoDigits hours ++
    [.print (message ":") colorSystem] ++ twoDigits minutes ++
    [.print (message ":") colorSystem] ++ twoDigits seconds ++
    [.print (message "\n") colorSystem]

/-- Interrupts are on, so the `hlt` behind the text ends at the next one. -/
def haltCommand : List PrintCall := [.print (message "Halting system...\n") colorSystem]

/-- The loop ends at the first answer whose bit 1 is clear. -/
def rebootCommand (around : Surroundings) : Option (List PrintCall) :=
  if around.controllerStatus.any fun good => good &&& 0x02 == 0 then
    around.out 0x64 0xFE [.print (message "Rebooting system...\n") colorSystem]
  else none

def shutdownCommand (around : Surroundings) : Option (List PrintCall) :=
  around.out 0x604 0x2000 [.print (message "Shutting down system...\n") colorSystem]

def echoCommand : Option CString → List PrintCall
  | some text => [.print text colorInput, .print (message "\n") colorInput]
  | none => []

/-- The places of a usage bar. -/
def barPlaces (usage : Word) : List PrintCall :=
  (List.range 10).map fun i =>
    if (BitVec.ofNat 32 i).slt ((usage * 10).sdiv 100) then .print (message "#") colorSuccess
    else .print (message "-") colorSystem

def cpuFormat : Format := format "] %d%%\n"

def memoryFormat : Format := format "] %d%% (%d/%d MB)\n"

/-- What `pulse_command` prints of the figures. -/
def vitals (cpuUsage : Word) (figures : MemoryFigures) : List PrintCall :=
  [.print (message "System Vitals:\n") colorSystem,
    .print (message "  CPU Usage: [") colorSystem] ++ barPlaces cpuUsage ++
  [.kprintf cpuFormat (words [cpuUsage]), .print (message "  RAM Usage: [") colorSystem] ++
  barPlaces figures.memUsage ++
  [.kprintf memoryFormat
    (words [figures.memUsage, figures.totalMem - figures.freeMem, figures.totalMem])]

/-! ### Messages -/

/-- A name between two texts. -/
def quoted (front : CString) (name : CString) (back : CString) (color : Byte) : List PrintCall :=
  [.print front color, .print name color, .print back color]

def touchMessage (filename : CString) (code : Int) : List PrintCall :=
  if code = 0 then
    quoted (message "File '") filename (message "' created.\n") colorSuccess
  else
    quoted (message "Error creating file '") filename (message "'.\n") colorError

def writeMessage (filename : CString) (code : Int) : List PrintCall :=
  if code > 0 then
    quoted (message "Wrote to file '") filename (message "'.\n") colorSuccess
  else
    quoted (message "Error writing to file '") filename (message "'.\n") colorError

def rmMessage (filename : CString) (code : Int) : List PrintCall :=
  if code = 0 then
    quoted (message " File '") filename (message "' deleted.\n") colorSuccess
  else
    quoted (message "Error deleting file '") filename (message "'.\n") colorError

def mvMessage (oldFilename newFilename : CString) (code : Int) : List PrintCall :=
  if code = 0 then
    quoted (message "File '") oldFilename (message "' renamed to '") colorSuccess ++
      [.print newFilename colorSuccess, .print (message "'.\n") colorSuccess]
  else if code = -2 then
    quoted (message "Error: Source file '") oldFilename (message "' not found.\n")
      colorError
  else if code = -3 then
    quoted (message "Error: Destination file '") newFilename
      (message "' already exists.\n") colorError
  else
    quoted (message "Error renaming file '") oldFilename (message "'.\n") colorError

def mkdirMessage (dirname : CString) (code : Int) : List PrintCall :=
  if code = 0 then
    quoted (message "Directory '") dirname (message "' created.\n") colorSuccess
  else if code = -2 then
    quoted (message "Error: '") dirname (message "' already exists.\n") colorError
  else
    quoted (message "Error creating directory '") dirname (message "'.\n") colorError

def cdMessage (dirname : CString) (code : Int) : List PrintCall :=
  if code = -1 then
    quoted (message "Error: Directory '") dirname (message "' not found.\n") colorError
  else if code = -2 then
    quoted (message "Error: '") dirname (message "' is not a directory.\n") colorError
  else []

/-! ### Reports -/

/-- What a call prints and the file system it leaves. -/
abbrev Report := List PrintCall × FileSystem

/-- A call of the file system, whose result is told. -/
def tellResult (fs : FileSystem) (op : Op) (message : Int → List PrintCall) : Option Report :=
  (op.exec fs).map fun result => (message result.1, result.2)

/-- `cat_command` reads into an array of 1024 bytes. -/
def catCommand (fs : FileSystem) (filename : CString) : Option (List PrintCall) :=
  match bdfsReadFile fs filename with
  | none => none
  | some (.error _) => some (quoted (message "Error reading from file '") filename
      (message "'.\n") colorError)
  | some (.ok (_, data)) =>
      if data.length ≤ catBufferSize then
        some (data.map (fun byte => .printChar byte colorFile) ++
          [.kprintf (format "\n") (words [])])
      else none

def calculatorCommand (expression : CString) : Option (List PrintCall) :=
  match App.Calculator.calculatorMain expression.bytes with
  | .ok result => some [.kprintf (format "Result: %d\n") (words [result])]
  | .error _ => none

def Call.report (around : Surroundings) (fs : FileSystem) : Call → Option Report
  | .help => some (helpCommand, fs)
  | .meminfo => some (meminfoCommand around.pmm, fs)
  | .time => some (timeCommand around.timerTicks, fs)
  | .halt => some (haltCommand, fs)
  | .reboot => (rebootCommand around).map fun output => (output, fs)
  | .shutdown => (shutdownCommand around).map fun output => (output, fs)
  | .sysinfo => some (sysinfoCommand around, fs)
  | .ls => (bdfsListFiles fs).map fun output => (output, fs)
  | .touch filename => tellResult fs (.createFile filename) (touchMessage filename)
  | .write filename data =>
      tellResult fs (.writeFile filename data.image (BitVec.ofNat 32 (strlen data)))
        (writeMessage filename)
  | .echo text => some (echoCommand text, fs)
  | .cat filename => (catCommand fs filename).map fun output => (output, fs)
  | .rm filename => tellResult fs (.deleteFile filename) (rmMessage filename)
  | .mv oldFilename newFilename =>
      tellResult fs (.renameFile oldFilename newFilename) (mvMessage oldFilename newFilename)
  | .mkdir dirname => tellResult fs (.mkdir dirname) (mkdirMessage dirname)
  | .cd dirname => tellResult fs (.chdir dirname) (cdMessage dirname)
  | .calculatorMain expression => (calculatorCommand expression).map fun output => (output, fs)
  | .pulse => (memoryFigures around.pmm).map fun figures => (vitals around.cpuUsage figures, fs)
  | .pciListDevices => some (Network.pciListDevices around.machine, fs)
  | .applist => some (applistCommand, fs)
  | .print text color => some ([.print text color], fs)
  | .clear | .clearScreen _ | .cableMain _ | .executeBdx _ => none

end BrainDance.Shell
