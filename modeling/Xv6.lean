import Xv6.Log.Admission
import Xv6.Proc.LockOrder
import Xv6.Proc.Wakeup
import Xv6.Proc.Reaped
import Xv6.Memory.FiniteMap
import Xv6.Malloc.Exhaustion
import Xv6.Fs.Exhaustion
import Xv6.Pipe.Fifo
import Xv6.Console.LineDiscipline
import Xv6.HashTable.Lookup
import Xv6.Umalloc.Soundness
import Xv6.Disk.ShortWrite
import Xv6.Disk.Paths
import Xv6.Vault.Marking
import Xv6.Vault.Access
import Xv6.Virtio.Descriptors
import Xv6.Mkfs.Readback
import Xv6.Proc.Listing
import Xv6.Proc.Charging
import Xv6.Umalloc.Growth
import Xv6.Memory.Translate
import Xv6.Pipe.FailedRead
import Xv6.Proc.Table
import Xv6.Strings.Memmove
import Xv6.Shell.Strings
import Xv6.Copying.Loop
import Xv6.Proc.Nesting
