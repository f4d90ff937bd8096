import OsLabs.Lib.Transition
import OsLabs.Lib.Monitor
import OsLabs.Lib.Simulation
import OsLabs.Lib.AtomicStore
import OsLabs.Lib.RingBuffer
import OsLabs.Lib.Schedule
import OsLabs.Lib.CInt
import OsLabs.Lib.Lfsr
import OsLabs.Lib.Effect
import OsLabs.Lib.RefCount
import OsLabs.Lib.Ring
import OsLabs.Lib.BlockCache
import OsLabs.Lib.Heap
import OsLabs.Rwlock.Model
import OsLabs.Rwlock.Safety
import OsLabs.Rwlock.Wakeup
import OsLabs.Rwlock.Preference
import OsLabs.MasterWorker.Model
import OsLabs.MasterWorker.Delivery
import OsLabs.MasterWorker.Progress
import OsLabs.Zemaphore.Model
import OsLabs.Zemaphore.Counting
import OsLabs.Zemaphore.Toggle
import OsLabs.Zemaphore.Stall
import OsLabs.Barber.Model
import OsLabs.Barber.Pthread
import OsLabs.Barber.Zemaphore
import OsLabs.Barber.Shop
import OsLabs.Lottery.Random
import OsLabs.Lottery.Proc
import OsLabs.Lottery.Scheduler
import OsLabs.Lottery.Scan
import OsLabs.Lottery.Tickets
import OsLabs.Lottery.Accounts
import OsLabs.Lottery.Rounds
import OsLabs.Lottery.Slices
import OsLabs.Lottery.Share
import OsLabs.Lottery.Slots
import OsLabs.Lottery.Draw
import OsLabs.Lottery.Stale
import OsLabs.Vm.Memory
import OsLabs.Vm.Pagetable
import OsLabs.Vm.Ledger
import OsLabs.Vm.Invariant
import OsLabs.Vm.Space
import OsLabs.Vm.Walk
import OsLabs.Vm.Uvm
import OsLabs.Vm.Free
import OsLabs.Vm.Cow
import OsLabs.Vm.Image
import OsLabs.Vm.Kernel
import OsLabs.Vm.Isolation
import OsLabs.Vm.Proc
import OsLabs.Vm.Users
import OsLabs.Vm.Refine
import OsLabs.Vm.Equivalence
import OsLabs.Vm.Copyout
import OsLabs.Vm.Outline
import OsLabs.Vm.System
import OsLabs.Vm.ForkFail
import OsLabs.Vm.Tables
import OsLabs.Vm.Sbrk
import OsLabs.Syscall.Kalloc
import OsLabs.Syscall.Proc
import OsLabs.Syscall.Events
import OsLabs.Syscall.Alive
import OsLabs.Syscall.Snapshot
import OsLabs.Syscall.Trace
import OsLabs.Syscall.Titles
import OsLabs.Syscall.Family
import OsLabs.Sleep.Model
import OsLabs.Sleep.Refine
import OsLabs.Sleep.Schedule
import OsLabs.Pipe.Model
import OsLabs.Pipe.Stream
import OsLabs.Pipe.Wakeup
import OsLabs.Log.Model
import OsLabs.Log.Disk
import OsLabs.Log.Commit
import OsLabs.Log.Recovery
import OsLabs.Log.Space
import OsLabs.Log.Waiting
import OsLabs.Bio.Model
import OsLabs.Bio.Count
import OsLabs.Bio.Refine
import OsLabs.Bio.Lru
import OsLabs.File.Model
import OsLabs.File.Process
import OsLabs.File.Refs
import OsLabs.File.Steps
import OsLabs.File.Safety
