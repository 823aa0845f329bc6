import Pintos.Base.RingBuffer
import Pintos.Base.Run
import Pintos.Base.LiveCount
import Pintos.Base.SecondChance
import Pintos.Base.Path
import Pintos.Base.Loop
import Pintos.Base.Words
import Pintos.Lib.Bitmap
import Pintos.Lib.Bytes
import Pintos.Lib.CString
import Pintos.Lib.PackedBitmap
import Pintos.Threads.Vaddr
import Pintos.Userprog.Pagedir
import Pintos.Filesys.Inode
import Pintos.Vm.State
import Pintos.Vm.Swap
import Pintos.Vm.Frame
import Pintos.Vm.Page
import Pintos.Vm.MapCalls
import Pintos.Userprog.FileHandles
import Pintos.Vm.Mappings
import Pintos.Vm.NewEntries
import Pintos.Vm.Mmap
import Pintos.Userprog.Exit
import Pintos.Userprog.Load
import Pintos.Vm.System
import Pintos.Userprog.Syscall
import Pintos.Vm.Effect
import Pintos.Vm.Consistency
import Pintos.Vm.Paths
import Pintos.Vm.LoadPaths
import Pintos.Userprog.Exception
import Pintos.Filesys.File
import Pintos.Filesys.Disk
import Pintos.Filesys.FreeMap
import Pintos.Filesys.FreeMapFile
import Pintos.Vm.ReleasePaths
import Pintos.Vm.Reachable
import Pintos.Vm.SwapOwnership
import Pintos.Vm.Coherence
import Pintos.Vm.Transparency
import Pintos.Vm.EvictionRace
import Pintos.Userprog.Confinement
import Pintos.Vm.PinnedFrames
import Pintos.Userprog.Pinning
import Pintos.Userprog.StackGrowth
import Pintos.Userprog.Process
import Pintos.Userprog.ProcessInvariant
import Pintos.Userprog.WaitProtocol
import Pintos.Userprog.ExitLocks
import Pintos.Vm.Clock
import Pintos.Vm.ClockHand
import Pintos.Base.Placement
import Pintos.Threads.Thread
import Pintos.Threads.Synch
import Pintos.Threads.Effect
import Pintos.Threads.Queues
import Pintos.Threads.Code
import Pintos.Threads.Semaphore
import Pintos.Threads.LockOwnership
import Pintos.Threads.Donation
import Pintos.Threads.EffectivePriority
import Pintos.Threads.Preemption
import Pintos.Threads.Mlfqs
import Pintos.Userprog.CommandLine
import Pintos.Userprog.ArgumentStack
import Pintos.Userprog.Segments
import Pintos.Base.DeadlineQueue
import Pintos.Threads.FixedPoint
import Pintos.Threads.LoadAvg
import Pintos.Threads.Priorities
import Pintos.Threads.Malloc
import Pintos.Threads.HeapInvariant
import Pintos.Threads.HeapCalls
import Pintos.Threads.HeapRuns
import Pintos.Threads.MallocLimits
import Pintos.Threads.Aside
import Pintos.Threads.Sleepers
import Pintos.Base.StableSort
import Pintos.Lib.List
import Pintos.Base.RunQueue
import Pintos.Threads.RoundRobin
import Pintos.Lib.Arithmetic
import Pintos.Base.DoublyLinked
import Pintos.Lib.LinkedList
import Pintos.Lib.LinkedSort
import Pintos.Devices.Intq
import Pintos.Devices.Partition
import Pintos.Lib.Fields
import Pintos.Lib.Ustar
import Pintos.Filesys.Fsutil
import Pintos.Base.BinaryHeap
import Pintos.Lib.Sort
import Pintos.Base.Buckets
import Pintos.Base.KeyedSet
import Pintos.Lib.HashTable
import Pintos.Base.Interval
import Pintos.Threads.Palloc
import Pintos.Lib.BitmapScan
import Pintos.Lib.Memmove
import Pintos.Devices.Rtc
import Pintos.Lib.LinkedOps
import Pintos.Lib.Stdio
import Pintos.Lib.FormatInteger
import Pintos.Lib.FieldWidth
import Pintos.Lib.Vsnprintf
