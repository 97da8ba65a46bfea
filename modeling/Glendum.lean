import Glendum.Lib.Memory
import Glendum.Lib.Area
import Glendum.Lib.AddressSpace
import Glendum.Lib.Bytes
import Glendum.Lib.Chain
import Glendum.Lib.Dll
import Glendum.Lib.Locks
import Glendum.Lib.FailStop
import Glendum.Lib.Trace
import Glendum.Lib.Clients
import Glendum.Lib.Count
import Glendum.Lib.Nest
import Glendum.Lib.Ring
import Glendum.Lib.Window
import Glendum.Lib.Code
import Glendum.Lib.CString
import Glendum.Lib.Fields
import Glendum.Lib.Tokenize
import Glendum.Lib.Exact
import Glendum.Kernel.Types
import Glendum.Kernel.Page
import Glendum.Kernel.PageSpec
import Glendum.Kernel.PageStep
import Glendum.Kernel.PageRun
import Glendum.Kernel.PteBalance
import Glendum.Kernel.PageLocks
import Glendum.Kernel.Deadlock
import Glendum.Kernel.RaceStep
import Glendum.Kernel.PageRace
import Glendum.Kernel.PageBytes
import Glendum.Kernel.DupCopy
import Glendum.Kernel.NewpageWait
import Glendum.Kernel.CheckRefs
import Glendum.Uthread.Model
import Glendum.Uthread.Remap
import Glendum.Uthread.RemapExact
import Glendum.Uthread.Frame
import Glendum.Uthread.Loop
import Glendum.Uthread.Once
import Glendum.Uthread.Transparent
import Glendum.Uthread.Isolation
import Glendum.Uthread.Views
import Glendum.Host.Symtab
import Glendum.Host.Link
import Glendum.Host.Loader
import Glendum.Host.LoaderExact
import Glendum.Host.Physmem
import Glendum.Host.SymScan
import Glendum.Host.Regions
import Glendum.Conf.Options
import Glendum.Conf.OptionsExact
import Glendum.Conf.Isa
import Glendum.Conf.Stable
import Glendum.Conf.Inverse
import Glendum.Conf.Memory
import Glendum.Console.Types
import Glendum.Console.Open
import Glendum.Console.Kbin
import Glendum.Console.Kmesg
import Glendum.Console.KmesgWords
import Glendum.Console.Echo
import Glendum.Console.Batching
import Glendum.Console.Output
import Glendum.Console.Cooked
import Glendum.Console.Scan
import Glendum.Console.Keys
import Glendum.Console.Staging
import Glendum.Console.Runes
import Glendum.Console.Editing
import Glendum.Console.Modifiers
import Glendum.Console.Compose
import Glendum.Console.Random
import Glendum.Console.Texts
import Glendum.Console.Bintime
import Glendum.Console.Timetext
import Glendum.Arch.Trap
import Glendum.Arch.Vectors
import Glendum.Arch.Mach
import Glendum.Arch.Delay
import Glendum.Arch.Fastclock
import Glendum.Arch.Mul64fract
import Glendum.Arch.Ptclbsum
import Glendum.Arch.Irqalloc
import Glendum.Arch.Uregs
import Glendum.Arch.Notes
import Glendum.Arch.Nested
import Glendum.Arch.Mtrrop
import Glendum.Arch.MtrropEnds
import Glendum.Arch.Mtrr
import Glendum.Arch.MtrrTable
import Glendum.Arch.TrapFrame
import Glendum.Arch.Fork
import Glendum.Arch.I8259
