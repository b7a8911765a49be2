import Xv6.Params
import Xv6.CString
import Xv6.Lib.Transition
import Xv6.Lib.Except
import Xv6.Lib.Fold
import Xv6.Lib.Count
import Xv6.Lib.Ring
import Xv6.Lib.WrapRing
import Xv6.Lib.Spin
import Xv6.Lib.LockOrder
import Xv6.Lib.Word
import Xv6.Lib.Writes
import Xv6.Lib.NameTree
import Xv6.Lib.Lineage
import Xv6.Lib.Search
import Xv6.ProcTable
import Xv6.Lib.Panic
import Xv6.Sched.ReadyQueue
import Xv6.Sched.QueueRefinement
import Xv6.Log.Model
import Xv6.Log.Crash
import Xv6.Log.Reservation
import Xv6.Log.Transaction
import Xv6.Sync.Model
import Xv6.Sync.LockBalance
import Xv6.Sync.Exclusion
import Xv6.Sync.Isolation
import Xv6.Sync.Deadlock
import Xv6.Sync.Wakeups
import Xv6.Sync.WaitQueue
import Xv6.Files.Inode
import Xv6.Files.Names
import Xv6.Files.Calls
import Xv6.Files.Descriptors
import Xv6.Files.Resources
import Xv6.Files.References
import Xv6.Files.Lifetimes
import Xv6.Pipes.Model
import Xv6.Pipes.Fifo
import Xv6.Pipes.Wakeups
import Xv6.Ptable.Model
import Xv6.Ptable.Life
import Xv6.Ptable.Simulation
import Xv6.Ptable.Placement
import Xv6.Ptable.Ready
import Xv6.Ptable.Dispatch
import Xv6.Ptable.Board
import Xv6.Ptable.InStep
import Xv6.Ptable.StrictPriority
import Xv6.Ptable.Tree
import Xv6.Ptable.Reaping
import Xv6.Ptable.Namespaces
import Xv6.Ptable.Accesses
import Xv6.Ptable.Passes
import Xv6.Ptable.Residue
import Xv6.Fs.Inode
import Xv6.Fs.Path
import Xv6.Fs.Walk
import Xv6.Fs.References
import Xv6.Fs.Confinement
import Xv6.Vm.Paging
import Xv6.Vm.Accounting
import Xv6.Vm.AddressRange
import Xv6.Vm.Progress
import Xv6.Vm.Resizing
import Xv6.Kernel.Model
import Xv6.Kernel.Calls
import Xv6.Kernel.AddressSpace
import Xv6.Kernel.Progress
import Xv6.Kernel.Contiguity
import Xv6.Kernel.Lifecycle
import Xv6.Kernel.ProcessLimit
import Xv6.Kernel.PageFlow
import Xv6.Kernel.PageCensus
import Xv6.Kernel.SharedPages
import Xv6.Kernel.Bindings
import Xv6.Kernel.Containers
import Xv6.Files.Blocks
import Xv6.Kernel.MutexFrame
import Xv6.Kernel.ShmTable
import Xv6.Kernel.RegionMutexes
import Xv6.Kernel.ShmAtomicity
import Xv6.Kernel.ShmLedger
import Xv6.Sync.Atomic
import Xv6.Sync.Refinement
import Xv6.Sync.FreeSlots
import Xv6.Sync.Faults
import Xv6.User.ContainerStart
import Xv6.Files.Contents
import Xv6.Files.Truncation
import Xv6.Files.BlockRuns
import Xv6.Mkfs.Layout
import Xv6.Mkfs.Append
import Xv6.Mkfs.Image
import Xv6.Files.Directory
import Xv6.Mkfs.Usable
import Xv6.Kernel.CopyRounds
import Xv6.Ptable.PrioSet
import Xv6.Vm.Copyout
import Xv6.Kernel.ForkCopy
import Xv6.Kernel.ForkAtomic
import Xv6.Kernel.Sbrk
import Xv6.Files.ByteArray
import Xv6.Sync.Edges
import Xv6.Console
import Xv6.Bio
import Xv6.User.Grep
