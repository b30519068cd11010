import Xv6.Log.Reservation
import Xv6.Process.Reuse
import Xv6.Process.Accounting
import Xv6.Process.WaitStat
import Xv6.Sections.ExitWait
import Xv6.Interrupt.StaleProc
import Xv6.Interrupt.Progress
import Xv6.Sections.Ancestry
import Xv6.Sections.Fcfs
import Xv6.Interrupt.Selection
import Xv6.LockOrder.Order
import Xv6.Memory.Shape
import Xv6.Pipe.Sleepers
import Xv6.Pipe.Fifo
import Xv6.Log.GroupCommit
import Xv6.Disk.Holes
import Xv6.Disk.Reservation
import Xv6.Disk.Directory
import Xv6.Console.Editor
import Xv6.Shell.Parser
import Xv6.Fs.Paths
import Xv6.Vm.Fork
import Xv6.Vm.Reads
import Xv6.Sysutil.Random
import Xv6.Sysutil.Calendar
import Xv6.User.Grep
import Xv6.User.Cp
import Xv6.Malloc.Sbrk
import Xv6.Vm.Ptable
import Xv6.Process.Targets
import Xv6.Library.Memmove
import Xv6.Library.Printf
import Xv6.User.Find
import Xv6.Bio.Store
import Xv6.Trap.Registers
