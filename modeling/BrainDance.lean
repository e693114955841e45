import BrainDance.Fs.Bdfs.Isolation
import BrainDance.Fs.Bdfs.Tree
import BrainDance.Fs.Bdfs.SpaceCheck
import BrainDance.Boot.Shell
import BrainDance.Arch.Interrupts
import BrainDance.Drivers.Keyboard
import BrainDance.Drivers.Ata.Runs
import BrainDance.Memory.Heap.Runs
import BrainDance.Memory.Pmm.Accounting
import BrainDance.Memory.Pmm.Fullness
import BrainDance.Memory.Pmm.Usable
import BrainDance.Memory.Paging.Unmap
import BrainDance.Memory.System.Refinement
import BrainDance.Network.E1000.Descriptors
import BrainDance.Libc.Console.Bounds
import BrainDance.Libc.Memmove
import BrainDance.Exec.Progress
import BrainDance.Shell.Line
import BrainDance.Shell.Readers
import BrainDance.Shell.Dispatch
import BrainDance.Shell.Typing
import BrainDance.Kernel.Cpu
import BrainDance.App.Calculator.Correctness
import BrainDance.App.Calculator.Rejection
import BrainDance.App.Cable.CursorColumn
import BrainDance.App.Cable.SaveSize
import BrainDance.App.Cable.Insert
import BrainDance.App.Cable.Delete
import BrainDance.App.Cable.Canonical
import BrainDance.App.Cable.Reopening
import BrainDance.App.Cable.Screen
