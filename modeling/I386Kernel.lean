import I386Kernel.Memory.PoolLimits
import I386Kernel.Memory.LinearMap
import I386Kernel.Memory.BitmapAccess
import I386Kernel.Memory.AddressSpace
import I386Kernel.Task.Starvation
import I386Kernel.Task.AllOrNothing
import I386Kernel.Task.ListHeap
import I386Kernel.Task.Reclaim
import I386Kernel.Task.Semaphore
import I386Kernel.Task.WaitOrder
import I386Kernel.Task.SpinLock
import I386Kernel.Switch.Transparent
import I386Kernel.Text.Numbers
import I386Kernel.Text.FormatScan
import I386Kernel.Text.Strcmp
import I386Kernel.Block.Lookup
import I386Kernel.Block.SectorAddress
import I386Kernel.Block.InfoString
import I386Kernel.Block.IdeInit
import I386Kernel.Block.Pairing
import I386Kernel.Block.SerialOrder
import I386Kernel.Block.BootDisk
import I386Kernel.Boot.MemoryDetect
import I386Kernel.Boot.DiskImage
import I386Kernel.Boot.PagingHandover
import I386Kernel.Console.Terminal
import I386Kernel.Console.BootCursor
import I386Kernel.Console.Printk
import I386Kernel.Console.PrintkBuffer
import I386Kernel.Keyboard.History
import I386Kernel.Preempt.Lifetime
import I386Kernel.Preempt.Pid
import I386Kernel.Preempt.Spin
import I386Kernel.Preempt.Dispatch
import I386Kernel.Preempt.LockLaw
import I386Kernel.Preempt.WholeCalls
import I386Kernel.Init.BootOrder
import I386Kernel.Interrupt.Gates
import I386Kernel.Interrupt.Pic
import I386Kernel.Interrupt.SerialRuns
import I386Kernel.Timer.HwTimer
import I386Kernel.Timer.Cadence
