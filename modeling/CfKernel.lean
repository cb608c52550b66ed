import CfKernel.Binfmt.Segment
import CfKernel.Binfmt.TarBounds
import CfKernel.Block.Ata
import CfKernel.Drivers.Scrollback
import CfKernel.Drivers.Terminal
import CfKernel.Fat.Listing
import CfKernel.Fat.ShortNames
import CfKernel.Ipc.Registry
import CfKernel.Libc.Math
import CfKernel.Mm.HeapLimits
import CfKernel.Mm.PmmRun
import CfKernel.Mm.UserString
import CfKernel.Net.Ethernet
import CfKernel.Net.Ipv4
import CfKernel.Proc.Descriptors
import CfKernel.Sched.ExecStack
import CfKernel.Sched.Sleep
import CfKernel.Signal.Delivery
import CfKernel.Syscall.Console
import CfKernel.Syscall.LexicalPath
import CfKernel.Syscall.RamfsIo
import CfKernel.Vfs.Lookup
import CfKernel.Vfs.MountRun
import CfKernel.Vfs.Run
import CfKernel.Vfs.VnodeLeak
