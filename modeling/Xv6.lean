import Xv6.Log.Atomicity
import Xv6.Log.Reservation
import Xv6.Log.Grouping
import Xv6.Ipc.Fifo
import Xv6.Ipc.Wakeup
import Xv6.Ptable.Kill
import Xv6.Console.Bounds
import Xv6.Console.Discipline
import Xv6.Mkfs.Agree
import Xv6.Vim.Save
import Xv6.Vim.Edit
import Xv6.Sleep.Lock
import Xv6.Ide.Errors
import Xv6.Shell.Wiring
import Xv6.Files.Lifetimes
import Xv6.Shell.Print
import Xv6.Bio.Exhaust
import Xv6.Fs.Reserve
import Xv6.Syscall.Args
import Xv6.Fs.Shared
import Xv6.Fs.Resolve
import Xv6.Vm.Deliver
import Xv6.Vm.Clean
import Xv6.Names.Open
import Xv6.Grep.Lines
import Xv6.Mp
import Xv6.Malloc.Sbrk
import Xv6.Sleep.Spin
