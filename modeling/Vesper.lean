import Vesper.Lib.FirstFit
import Vesper.Mm.PageFrame
import Vesper.Mm.PageFrameRefinement
import Vesper.Mm.HeapBounds
import Vesper.Mm.HeapMemory
import Vesper.Lib.Bits
import Vesper.Mm.Sv39
import Vesper.Mm.Sv39Entry
import Vesper.Lib.PathTree
import Vesper.Mm.Sv39Tree
import Vesper.Mm.Sv39Map
import Vesper.Fs.Minix3
import Vesper.Fs.ZoneStream
import Vesper.Fs.BlockMap
import Vesper.Fs.ReadExact
import Vesper.Fs.Visit
import Vesper.Fs.HoleSpan
import Vesper.Fs.ReadBounds
import Vesper.Lib.Transition
import Vesper.Process.Table
import Vesper.Process.Trap
import Vesper.Process.TrapVector
import Vesper.Process.ContextSwitch
import Vesper.Lib.WrapRing
import Vesper.Virtio.Queue
import Vesper.Virtio.Exchange
import Vesper.Virtio.Ownership
import Vesper.Virtio.Rings
import Vesper.Virtio.Completion
import Vesper.Virtio.Sequential
import Vesper.Boot.KernelMap
import Vesper.Boot.Start
import Vesper.Boot.Kinit
import Vesper.Boot.Skmain
import Vesper.Mm.Paging
import Vesper.Process.Lifecycle
import Vesper.Process.RoundRobin
import Vesper.Fs.PageBalance
import Vesper.Fs.SharedMemory
import Vesper.Exec.Elf
import Vesper.Virtio.Spurious
import Vesper.Virtio.Interrupt
import Vesper.Mm.WrongPointer
import Vesper.Mm.Sv39Hardware
import Vesper.Virtio.Setup
import Vesper.Fs.Arrivals
import Vesper.Fs.BlockIndex
import Vesper.Process.MmioGuard
import Vesper.Fs.OffsetExact
import Vesper.Fs.Holes
import Vesper.Virtio.Probe
import Vesper.Lib.PolledFifo
import Vesper.Console.Keys
import Vesper.Console.Plic
import Vesper.Console.External
import Vesper.Console.Transmit
import Vesper.Lib.Linearization
import Vesper.Lib.ByteMemory
import Vesper.Virtio.QueueMemory
import Vesper.Virtio.Stores
import Vesper.Virtio.StoresRefinement
import Vesper.Virtio.Disk
import Vesper.Virtio.Linearizable
import Vesper.Fs.Directory
import Vesper.Fs.Store
