import Xv6.Process.Kill
import Xv6.Process.Ps
import Xv6.Sched.Timeslice
import Xv6.Sched.Accounting
import Xv6.Semaphore.Killed
import Xv6.Sync.Wakeup
import Xv6.Sync.SleepTicks
import Xv6.Pipe.Wakeup
import Xv6.Bio.Transparency
import Xv6.Log.Recovery
import Xv6.Log.Admission
import Xv6.Console.LineDiscipline
import Xv6.Vm.ArgStack
import Xv6.Vm.Fork
import Xv6.Inode.SharedOffset
import Xv6.Inode.Readers
import Xv6.Dir.Namei
import Xv6.Fs.Outcome
import Xv6.Fs.OnDisk
import Xv6.Grep.Lines
import Xv6.Memory.Memmove
import Xv6.Boot.Mp
