import ForgeOS.Sched.RoundRobin
import ForgeOS.Sched.Exclusive
import ForgeOS.Sched.Pop
import ForgeOS.Pmem.Exclusive
import ForgeOS.Semaphore.Mutex
import ForgeOS.Semaphore.Wakeup
import ForgeOS.Tree.Length
import ForgeOS.Trie.Delete
import ForgeOS.Apic.Routing
import ForgeOS.CrossCpu.Calls
import ForgeOS.CrossCpu.Flags
import ForgeOS.Powerman.LowMemory
import ForgeOS.Sleep.Wakeup
import ForgeOS.Reaper.Listed
import ForgeOS.Vmem.Exhausted
import ForgeOS.Pmem.Frames
import ForgeOS.Pmem.Handover
import ForgeOS.Pmem.Sequential
import ForgeOS.Pmem.Omap3
import ForgeOS.Queue.Delete
import ForgeOS.Tree.Deletion
import ForgeOS.Tree.Ownership
import ForgeOS.Mmio.Partition
import ForgeOS.Mmio.Window
import ForgeOS.Cache.Evict
import ForgeOS.Cache.Blocks
import ForgeOS.Timer.Elapsed
import ForgeOS.Timer.Sorted
import ForgeOS.Timer.Remove
import ForgeOS.Sleep.Duration
import ForgeOS.Pool.Bounds
import ForgeOS.Pool.Freed
import ForgeOS.Sbrk.Covered
import ForgeOS.Sbrk.Trimmed
import ForgeOS.Spinlock.Nested
import ForgeOS.Powerman.Callbacks
import ForgeOS.Powerman.SleepState
import ForgeOS.Semaphore.Release
import ForgeOS.Context.Bounds
import ForgeOS.Acpi.Pci
import ForgeOS.Acpi.Map
import ForgeOS.Apic.Madt
import ForgeOS.Acpi.Readable
import ForgeOS.Vsprintf.Star
import ForgeOS.Context.Clone
import ForgeOS.Cache.Exhausted
import ForgeOS.Screen.Terminal
