import Xv6.Sched.Levels
import Xv6.Sched.Dispatch
import Xv6.Sched.Quantum
import Xv6.Sync.SemCalls
import Xv6.Sync.SemSlots
import Xv6.Sync.Killed
import Xv6.Sync.PipeWakeup
import Xv6.Sync.Spinlock
import Xv6.Fs.Coherence
import Xv6.Fs.Ide
import Xv6.Files.Lookup
import Xv6.Volume.SharedWrites
import Xv6.Files.Buffers
import Xv6.Files.Deadlock
import Xv6.Volume.SeekEnd
import Xv6.Vm.Fill
import Xv6.Vm.Kmap
import Xv6.Vm.Owners
import Xv6.Vm.Strings
import Xv6.Vm.ShmCalls
import Xv6.Vm.Attached
import Xv6.Console.Line
import Xv6.Shell.Words
import Xv6.Shell.Run
import Xv6.Util.Memmove
import Xv6.Util.Printint
import Xv6.User.Match
import Xv6.User.Malloc
import Xv6.User.Cp
import Xv6.Boot.Mp
