import TorexOS.Apic
import TorexOS.Bitset
import TorexOS.BootTables
import TorexOS.Bootsect
import TorexOS.CheckMemory
import TorexOS.ComString
import TorexOS.ComStringNew
import TorexOS.ComStringRun
import TorexOS.DescriptorTables
import TorexOS.FindFirst
import TorexOS.IrqProtocol
import TorexOS.KernelArea
import TorexOS.KernelMap
import TorexOS.KeyboardPort
import TorexOS.Kfree
import TorexOS.LoadKernel
import TorexOS.MainLoop
import TorexOS.MemoryBoot
import TorexOS.Memset
import TorexOS.Multitask
import TorexOS.NumberFormat
import TorexOS.OneSlab
import TorexOS.OwningList
import TorexOS.Pit
import TorexOS.PoolAllocator
import TorexOS.RawOstream
import TorexOS.Rsdt
import TorexOS.SelectionSort
import TorexOS.Strlen
import TorexOS.TaskStack
import TorexOS.Terminal
import TorexOS.TimeSlice
