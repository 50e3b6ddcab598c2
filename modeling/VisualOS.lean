import VisualOS.Framework.ByteLayout
import VisualOS.Framework.Codebook
import VisualOS.Framework.Fifo
import VisualOS.Framework.Insertion
import VisualOS.Framework.LinkedTables
import VisualOS.Framework.Rewriting
import VisualOS.Framework.Ring
import VisualOS.Framework.SharedPrograms
import VisualOS.Framework.Transition
import VisualOS.Memory.AddressSpace
import VisualOS.Memory.Bitmap
import VisualOS.Memory.BootMap
import VisualOS.Memory.ByteRanges
import VisualOS.Memory.MemoryManager
import VisualOS.Memory.Pageframe
import VisualOS.Memory.PageframeAccounting
import VisualOS.Memory.PageframeAvailability
import VisualOS.Memory.PageframeConcurrency
import VisualOS.Memory.PageframeContainment
import VisualOS.Memory.PageframeFirstFit
import VisualOS.Memory.PageframeInit
import VisualOS.Memory.PageframeOwnership
import VisualOS.Memory.PageframeRanges
import VisualOS.Memory.PageframeRequests
import VisualOS.Memory.Paging
import VisualOS.Memory.PagingAttribute
import VisualOS.Memory.PagingCache
import VisualOS.Memory.PagingFailure
import VisualOS.Memory.PagingFlags
import VisualOS.Memory.PagingInit
import VisualOS.Memory.PagingMap
import VisualOS.Memory.PagingRange
import VisualOS.Memory.PagingSpan
import VisualOS.Scheduler.Calls
import VisualOS.Scheduler.ConcurrentCalls
import VisualOS.Scheduler.ConcurrentCode
import VisualOS.Scheduler.ConcurrentSafety
import VisualOS.Scheduler.ConcurrentSteps
import VisualOS.Scheduler.ConcurrentWorld
import VisualOS.Scheduler.Interrupts
import VisualOS.Scheduler.Multiprocessor
import VisualOS.Scheduler.Process
import VisualOS.Scheduler.ProcessCreation
import VisualOS.Scheduler.ProcessDispatch
import VisualOS.Scheduler.ProcessPagemap
import VisualOS.Scheduler.ProcessRoot
import VisualOS.Scheduler.QueueSafety
import VisualOS.Scheduler.Rings
import VisualOS.Scheduler.Scheduler
import VisualOS.Scheduler.Selection
import VisualOS.Scheduler.SingleCpu
import VisualOS.Scheduler.TimerCode
import VisualOS.Scheduler.TimerInterrupt
import VisualOS.Scheduler.TimerRefinement
import VisualOS.Shell.Color
import VisualOS.Shell.Image
import VisualOS.Shell.Screen
import VisualOS.Shell.Text
import VisualOS.Symbols.StringTables
import VisualOS.Symbols.Symbol
import VisualOS.Symbols.SymbolOrder
import VisualOS.Symbols.SymbolSearch
import VisualOS.Sys.Memory
import VisualOS.Sys.Mmap
import VisualOS.Sys.Printers
import VisualOS.Sys.Write
import VisualOS.X86.Acpi
import VisualOS.X86.ApMemory
import VisualOS.X86.ApStartup
import VisualOS.X86.Atomic
import VisualOS.X86.BitLocks
import VisualOS.X86.CpuMemory
import VisualOS.X86.Descriptors
import VisualOS.X86.InterruptDelivery
import VisualOS.X86.InterruptService
import VisualOS.X86.InterruptStubs
import VisualOS.X86.Ioapic
import VisualOS.X86.Machine
import VisualOS.X86.Madt
import VisualOS.X86.Pci
import VisualOS.X86.Pit
import VisualOS.X86.Stack
import VisualOS.X86.Syscall
import VisualOS.X86.SyscallEntry
import VisualOS.X86.SyscallPreemption
import VisualOS.X86.SyscallReturn
import VisualOS.X86.TableWalks
