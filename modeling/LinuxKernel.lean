import LinuxKernel.Kernel.Timer
import LinuxKernel.Proofs.PosixLockRuns
import LinuxKernel.Proofs.RadixTreeMap
import LinuxKernel.Proofs.IdrRuns
import LinuxKernel.Net.Filter
import LinuxKernel.Ipc.Sem
import LinuxKernel.Net.SctpTsnmap
import LinuxKernel.Drivers.Raid5
import LinuxKernel.Mm.PageAlloc
import LinuxKernel.Fs.Mballoc
import LinuxKernel.Proofs.Rbtree
import LinuxKernel.Proofs.PrioTreeIter
import LinuxKernel.Net.Xfrm
import LinuxKernel.Security.Commoncap
import LinuxKernel.Drivers.Raid10
import LinuxKernel.Kernel.Kfifo
import LinuxKernel.Mm.Hugetlb
import LinuxKernel.Mm.Percpu
import LinuxKernel.Drivers.NandEcc
import LinuxKernel.Proofs.Resource
import LinuxKernel.Lib.Rwsem
import LinuxKernel.Net.IpFragment
import LinuxKernel.Fs.ExtentMap
import LinuxKernel.Net.IpTables
import LinuxKernel.Net.NetlabelCatmap
import LinuxKernel.Security.DeviceCgroup
import LinuxKernel.Lib.IommuHelper
import LinuxKernel.Fs.NlsBase
import LinuxKernel.Lib.Rational
import LinuxKernel.Lib.Vsprintf
