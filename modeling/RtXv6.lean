import RtXv6.Segments
import RtXv6.HeapOrder
import RtXv6.Ring
import RtXv6.Process
import RtXv6.Outcome
import RtXv6.ReadyHeap
import RtXv6.ReadyQueue
import RtXv6.DispatchOrder
import RtXv6.ProcessTable
import RtXv6.ReadyExactness
import RtXv6.SchedulerFaults
import RtXv6.Preemption
import RtXv6.BufferCache
import RtXv6.CacheCoherence
import RtXv6.Bytes
import RtXv6.Journal
import RtXv6.LogAdmission
import RtXv6.LogReservation
import RtXv6.LogBuffers
import RtXv6.LogCommit
import RtXv6.LogRecovery
import RtXv6.Lifetimes
import RtXv6.ExitWait
import RtXv6.Killing
import RtXv6.WakeupExactness
import RtXv6.WriteTransaction
import RtXv6.RecordMoves
import RtXv6.BatchCreation
import RtXv6.Statistics
import RtXv6.SampleTimes
import RtXv6.ClockArithmetic
import RtXv6.Ownership
import RtXv6.Tally
import RtXv6.Stateful
import RtXv6.Bits
import RtXv6.FsFormat
import RtXv6.Inodes
import RtXv6.Directories
import RtXv6.UserBuffers
import RtXv6.FileCalls
import RtXv6.FsFrames
import RtXv6.FileTable
import RtXv6.ProcessFiles
import RtXv6.FileReferences
import RtXv6.BlockMap
import RtXv6.InodeContents
import RtXv6.InodeWrites
import RtXv6.InodeTruncation
import RtXv6.InodeCache
import RtXv6.InodeFiles
import RtXv6.DirectoryEntries
import RtXv6.DirectoryMaps
import RtXv6.PathLookup
import RtXv6.DirectoryCalls
import RtXv6.InodeReferences
import RtXv6.CallEffects
import RtXv6.FileSystemRuns
import RtXv6.Mkfs
import RtXv6.MkfsImage
import RtXv6.MkfsLayout
import RtXv6.MkfsReadBack
import RtXv6.CircularBuffer
import RtXv6.ConsoleInput
import RtXv6.PipeStream
import RtXv6.PipeSleepers
import RtXv6.SleepWakeup
import RtXv6.Shell
import RtXv6.ShellTokens
import RtXv6.ShellGrammar
import RtXv6.PageTables
import RtXv6.AddressSpaces
import RtXv6.PageRelease
import RtXv6.PageGrowth
import RtXv6.Allocuvm
import RtXv6.Growproc
import RtXv6.Copyout
import RtXv6.KernelMap
import RtXv6.Copyuvm
import RtXv6.Circle
import RtXv6.Umalloc
import RtXv6.UmallocBlocks
import RtXv6.UmallocCalls
import RtXv6.UmallocRuns
import RtXv6.LinkedQueue
import RtXv6.Ide
import RtXv6.IdeRefinement
import RtXv6.Memmove
import RtXv6.Traps
import RtXv6.Interrupts
import RtXv6.Grep
