import Xv6.Log.Crash
import Xv6.Log.Space
import Xv6.Pipe.Wakeup
import Xv6.Proc.Exits
import Xv6.Ftable.Calls
import Xv6.Fs.Failing
import Xv6.Console.Refines
import Xv6.Mkfs.Agree
import Xv6.Primes.Sieve
import Xv6.Bio.LinksInv
import Xv6.Umalloc.Process
import Xv6.Virtio.Run
import Xv6.Fs.CutShort
import Xv6.Fs.Reads
import Xv6.Fs.Resolve
import Xv6.Smp.Exclusive
import Xv6.Fs.Sharing
import Xv6.Tables
import Xv6.Fork
import Xv6.Pipe.ReadCopy
import Xv6.Pipe.Messages
import Xv6.Proc.Pids
import Xv6.Sleeplock
import Xv6.Log.Sleepers
import Xv6.Vm.Exec
import Xv6.Xargs
import Xv6.Grep.Loop
import Xv6.Uprintf
import Xv6.Sh.Redirect
import Xv6.Find
import Xv6.Memmove
import Xv6.Intr
