import OperateSystem.Core.Invariant
import OperateSystem.Core.LinkedList
import OperateSystem.Core.Ring
import OperateSystem.Core.ByteStore
import OperateSystem.Core.Bitmap
import OperateSystem.Core.PointerTree
import OperateSystem.Core.WaitGraph
import OperateSystem.Core.Sweep
import OperateSystem.Core.History
import OperateSystem.Core.NamedTree
import OperateSystem.Core.Trace
import OperateSystem.Core.Recency
import OperateSystem.Core.RingBuffer
import OperateSystem.Core.DownStack
import OperateSystem.Core.Words
import OperateSystem.Core.Terminated
import OperateSystem.Core.Sieve
import OperateSystem.Core.Scanning
import OperateSystem.Core.Translation
import OperateSystem.Core.Ledger
import OperateSystem.Kalloc.Allocator
import OperateSystem.Kalloc.Conservation
import OperateSystem.Kalloc.Exhaustion
import OperateSystem.Bio.Cache
import OperateSystem.Bio.Rings
import OperateSystem.Bio.Interleaving
import OperateSystem.Bio.Identity
import OperateSystem.Bio.Deadlock
import OperateSystem.Bio.Exhaustion
import OperateSystem.Bio.Search
import OperateSystem.Bio.Transparency
import OperateSystem.Bio.Recency
import OperateSystem.Newfs.Layout
import OperateSystem.Newfs.Driver
import OperateSystem.Newfs.Requests
import OperateSystem.Newfs.Inode
import OperateSystem.Newfs.Operations
import OperateSystem.Newfs.Path
import OperateSystem.Newfs.Growth
import OperateSystem.Newfs.Flush
import OperateSystem.Newfs.Mount
import OperateSystem.Newfs.Run
import OperateSystem.Newfs.Alloc
import OperateSystem.Newfs.Neutral
import OperateSystem.Newfs.Format
import OperateSystem.Newfs.Lookup
import OperateSystem.Newfs.Creation
import OperateSystem.Newfs.Walk
import OperateSystem.Newfs.Safety
import OperateSystem.Newfs.Tree
import OperateSystem.Newfs.Refinement
import OperateSystem.Newfs.Accounting
import OperateSystem.Newfs.Limits
import OperateSystem.Newfs.Numbers
import OperateSystem.Newfs.Counters
import OperateSystem.Newfs.Writes
import OperateSystem.Newfs.Persist
import OperateSystem.Newfs.Chart
import OperateSystem.Newfs.Settle
import OperateSystem.Newfs.Reload
import OperateSystem.Newfs.Catalog
import OperateSystem.Newfs.Extents
import OperateSystem.Newfs.Represent
import OperateSystem.Newfs.Remount
import OperateSystem.Newfs.Contents
import OperateSystem.Newfs.Stacked
import OperateSystem.Newfs.Scan
import OperateSystem.Vm.Riscv
import OperateSystem.Vm.PageTable
import OperateSystem.Vm.Tree
import OperateSystem.Vm.Table
import OperateSystem.Vm.Mapping
import OperateSystem.Vm.Space
import OperateSystem.Vm.Unmap
import OperateSystem.Vm.FiniteMap
import OperateSystem.Vm.Grow
import OperateSystem.Vm.Copy
import OperateSystem.Vm.Rollback
import OperateSystem.Vm.Release
import OperateSystem.Vm.Ranges
import OperateSystem.Vm.Proc
import OperateSystem.Vm.Templates
import OperateSystem.Vm.Process
import OperateSystem.Vm.Growproc
import OperateSystem.Vm.Access
import OperateSystem.Vm.Exec
import OperateSystem.Vm.Image
import OperateSystem.Vm.Commit
import OperateSystem.Vm.ExecSafety
import OperateSystem.Vm.Arguments
import OperateSystem.Vm.Owners
import OperateSystem.Vm.Fork
import OperateSystem.Vm.ForkSafety
import OperateSystem.Vm.Boot
import OperateSystem.Vm.Calls
import OperateSystem.Vm.Reaping
import OperateSystem.Vm.Census
import OperateSystem.Vm.Lifetimes
import OperateSystem.Vm.Contents
import OperateSystem.Vm.Loading
import OperateSystem.Vm.Programs
import OperateSystem.Vm.Refinement
import OperateSystem.Vm.Isolation
import OperateSystem.Vm.UserCopy
import OperateSystem.Vm.DirectAccess
import OperateSystem.Vm.ExecFailure
import OperateSystem.Pipe.Transfer
import OperateSystem.Pipe.Accounts
import OperateSystem.Syscall.Kernel
import OperateSystem.Syscall.Tracing
import OperateSystem.Sched.Scheduler
import OperateSystem.Sched.Loaded
import OperateSystem.Sched.Waiting
import OperateSystem.Sched.Wakeup
import OperateSystem.User.Find
import OperateSystem.User.Xargs
import OperateSystem.User.Primes
import OperateSystem.Core.Session
import OperateSystem.Syscall.Handlers
import OperateSystem.Syscall.Discipline
import OperateSystem.Syscall.Descriptors
import OperateSystem.Sched.ProcessTree
import OperateSystem.Syscall.Freemem
import OperateSystem.Pipe.Closing
import OperateSystem.Pipe.Sleepers
import OperateSystem.Sched.LockOrder
import OperateSystem.Vm.Printing
