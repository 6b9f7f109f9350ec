import Xv6.Log.Admission
import Xv6.Sd.Driver
import Xv6.Vm.Map
import Xv6.Fs.FileOps
import Xv6.Sched.Cpu
import Xv6.Sched.Intr
import Xv6.Sched.Pids
import Xv6.Sched.Protocols
import Xv6.Sched.KillWait
import Xv6.Sched.PipeWait
import Xv6.Bio.Lru
import Xv6.File.Refs
import Xv6.Sched.Input
import Xv6.Plic.Delivery
import Xv6.Sd.Transfer
import Xv6.Sd.Fields
import Xv6.Log.Buffers
import Xv6.Vm.Ownership
import Xv6.Vm.Lazy
import Xv6.User.Heap
import Xv6.User.Words
import Xv6.User.Grep
import Xv6.User.Printf
import Xv6.User.Memmove
import Xv6.Vm.ForkMem
import Xv6.Vm.Sbrk
import Xv6.Vm.CopyStr
import Xv6.Vm.ForkFail
import Xv6.Vm.ExecFile
