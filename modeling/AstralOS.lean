import AstralOS.Acpi.Madt
import AstralOS.Arch.CpuIds
import AstralOS.Fs.Accounting
import AstralOS.Fs.CrashMark
import AstralOS.Fs.Directory
import AstralOS.Fs.FailingCache
import AstralOS.Fs.Failure
import AstralOS.Fs.OpenFileRuns
import AstralOS.Fs.PathRace
import AstralOS.Fs.PathResolution
import AstralOS.Fs.Paths
import AstralOS.Fs.Records
import AstralOS.Graphics.Frames
import AstralOS.Ipc.Registry
import AstralOS.Ipc.Wakeup
import AstralOS.Memory.FractalBacking
import AstralOS.Memory.FrameCount
import AstralOS.Memory.HeapHeaders
import AstralOS.Memory.Mmio
import AstralOS.Memory.SlabRace
import AstralOS.Memory.SlabService
import AstralOS.Network.Encapsulation
import AstralOS.Network.Stack
import AstralOS.Process.Balance
import AstralOS.Process.Context
import AstralOS.Process.Deadlock
import AstralOS.Process.Exit
import AstralOS.Process.Preemption
import AstralOS.Process.RoundRobin
import AstralOS.Process.RunQueues
import AstralOS.Process.Runnable
import AstralOS.Reality.Branches
import AstralOS.Reality.Causality
import AstralOS.Reality.Dream
import AstralOS.Security.Intents
import AstralOS.Sync.Barrier
import AstralOS.Sync.Condvar
import AstralOS.Sync.RwLock
import AstralOS.Usermode.Dispatch
import AstralOS.Usermode.KernelHalf
import AstralOS.Usermode.KernelStack
import AstralOS.Usermode.Privilege
import AstralOS.Usermode.SegmentFlags
import AstralOS.Usermode.SpawnFailure
import AstralOS.Usermode.UserHeap
import AstralOS.Usermode.UserMemory
import AstralOS.Virtio.FailedIo
