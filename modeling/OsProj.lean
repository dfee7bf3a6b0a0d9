import OsProj.History
import OsProj.Coordinator
import OsProj.CoordinatorScan
import OsProj.CoordinatorRun
import OsProj.CoordinatorRecords
import OsProj.CoordinatorCounting
import OsProj.CoordinatorProgress
import OsProj.CoordinatorFrames
import OsProj.CoordinatorOutcome
import OsProj.ByteMemory
import OsProj.CoordinatorTiming
import OsProj.MmAlloc
import OsProj.MmAllocChain
import OsProj.MmAllocOps
import OsProj.MmAllocGrow
import OsProj.MmAllocSafety
import OsProj.MmAllocShape
import OsProj.MmAllocCoalesce
import OsProj.Bitmap
import OsProj.UserMemory
import OsProj.UserMemoryFrames
import OsProj.UserMemoryLoad
import OsProj.UserMemoryBreak
import OsProj.UserMemoryHeap
import OsProj.Stopping
import OsProj.Syscall
import OsProj.SyscallPointers
import OsProj.SyscallLocks
import OsProj.SyscallExit
import OsProj.FileSys
import OsProj.FileSysBlocks
import OsProj.FileSysLayout
import OsProj.FileSysFreeMap
import OsProj.FileSysCreate
import OsProj.FileSysTable
import OsProj.FileSysDirectory
import OsProj.FileSysInvariant
import OsProj.FileSysSteps
import OsProj.FileSysNames
import OsProj.FileSysStore
import OsProj.FileSysCalls
import OsProj.FileSysFiles
import OsProj.FileSysFormat
import OsProj.FileSysRuns
import OsProj.FileSysAtomic
import OsProj.InodeRefs
import OsProj.InodeRefsCount
import OsProj.InodeRefsFileSys
import OsProj.InodeRefsMirror
import OsProj.InodeRefsRuns
import OsProj.PartitionScan
import OsProj.Synch
import OsProj.SynchSemaphore
import OsProj.SynchMonitor
import OsProj.SynchMonitorLocks
import OsProj.SynchMonitorWaits
import OsProj.SynchMonitorRuns
import OsProj.SynchReadersWriter
import OsProj.SynchReadersWriterRuns
import OsProj.Scheduler
import OsProj.SchedulerRuns
import OsProj.IntQueue
import OsProj.IntQueueRuns
import OsProj.Fsutil
import OsProj.FileSysFilled
import OsProj.FsutilArchive
import OsProj.FsutilAppend
import OsProj.FsutilExtract
import OsProj.FileSysMounted
import OsProj.CoordinatorService
import OsProj.Palloc
import OsProj.PallocBitmap
import OsProj.PallocRuns
import OsProj.KernelList
import OsProj.LinkedChain
import OsProj.KernelListShape
import OsProj.KernelListCalls
import OsProj.KernelListRuns
import OsProj.HashTable
import OsProj.HashTableRuns
import OsProj.ByteList
import OsProj.Grouping
import OsProj.WorkerCodec
import OsProj.WorkerTasks
import OsProj.WorkerJob
import OsProj.WorkerKeys
import OsProj.WorkerCounting
import OsProj.WorkerWc
import OsProj.WorkerDegree
import OsProj.RustWorker
import OsProj.RustWorkerJob
import OsProj.ListSort
import OsProj.PWords
import OsProj.PWordsRuns
import OsProj.Malloc
import OsProj.MallocHeap
import OsProj.MallocCalls
import OsProj.MallocRelease
import OsProj.MallocRuns
import OsProj.FileSysTransfer
import OsProj.WorkerPartition
import OsProj.UserMemoryStart
import OsProj.PageDir
import OsProj.PageDirMap
import OsProj.PageDirCalls
import OsProj.PageDirDestroy
import OsProj.PageDirRuns
import OsProj.Process
import OsProj.ProcessSegment
import OsProj.ProcessStart
import OsProj.MmAllocFailure
import OsProj.MmAllocSizes
import OsProj.MmAllocSeats
import OsProj.MmAllocContents
import OsProj.MallocOverflow
import OsProj.WorkerMalformed
import OsProj.WorkerGrep
import OsProj.IntQueueFifo
import OsProj.FileSysDenial
import OsProj.FileSysDirOpen
import OsProj.FileSysDirRuns
import OsProj.Arithmetic
import OsProj.BitmapWords
import OsProj.BitmapWordsRuns
import OsProj.HashIteration
import OsProj.HeapOrder
import OsProj.HeapSort
import OsProj.BinarySearch
import OsProj.KernelListOrdered
import OsProj.Printf
import OsProj.PrintfDecimal
import OsProj.LibHttp
import OsProj.KvStore
import OsProj.HttpBody
import OsProj.HttpConfinement
import OsProj.TokenizerQuoting
import OsProj.WordsFrequency
import OsProj.LibString
import OsProj.LibStringTokens
import OsProj.FixedPoint
import OsProj.Cluster
import OsProj.ClusterRuns
import OsProj.ClusterTasks
import OsProj.ClusterOutput
import OsProj.FileSysCuts
import OsProj.FileSysCrash
import OsProj.FileSysCutCalls
import OsProj.FileSysReboots
import OsProj.Channel
import OsProj.WorkQueue
import OsProj.WorkQueueRuns
import OsProj.WorkQueueSettles
import OsProj.IntQueueBytes
import OsProj.IntQueueSleepers
import OsProj.Keyboard
import OsProj.SerialPort
import OsProj.SerialPortRuns
import OsProj.Simulating
import OsProj.MallocFootprint
import OsProj.KernelMemory
import OsProj.KernelMemoryRuns
import OsProj.Ide
import OsProj.IdeController
import OsProj.IdeInterrupts
import OsProj.IdeSettles
