import Xv6.Log.Crash
import Xv6.Log.Reservation
import Xv6.Pipe.Fifo
import Xv6.Pipe.Wakeup
import Xv6.Sem.Accounting
import Xv6.Sem.Reuse
import Xv6.Sem.Value
import Xv6.Sem.Wakeup
import Xv6.Trap.Nested
import Xv6.Mkfs.ReadBack
import Xv6.Ftable.Lifetime
import Xv6.Bcache.Driver
import Xv6.Process.Fifo
import Xv6.Process.Quantum
import Xv6.Process.Kill
import Xv6.Exec.Overflow
import Xv6.Sem.Bounds
import Xv6.Sem.Killed
import Xv6.Syscall.Sysproc
import Xv6.Fs.Sharing
import Xv6.Fs.Budget
import Xv6.Grep.Lines
import Xv6.Fs.Paths
import Xv6.Fs.Shape
import Xv6.Bcache.Errors
import Xv6.Boot.Mp
import Xv6.Vm.Dealloc
import Xv6.Ulib.Memmove
