import Xv6.Lib.References
import Xv6.Lib.Allocation
import Xv6.Lib.Runs
import Xv6.Lib.LockOrder
import Xv6.Lib.Potential
import Xv6.Lib.Words
import Xv6.Lib.Ring
import Xv6.Lib.Links
import Xv6.Lib.Slots
import Xv6.Lib.CString
import Xv6.Lib.BubbleSort
import Xv6.Lib.Inheritance
import Xv6.Lib.Families
import Xv6.Machine.TrapFrame
import Xv6.Machine.UserSpace
import Xv6.Common.FileTable
import Xv6.Common.Pipe
import Xv6.Common.Console
import Xv6.Common.Log
import Xv6.Common.LogOps
import Xv6.Common.LogCrash
import Xv6.Common.LogSpace
import Xv6.Public3.Vm
import Xv6.Public3.VmRules
import Xv6.Public3.AddressSpace
import Xv6.Public3.Processes
import Xv6.Public3.PageOwners
import Xv6.Public3.OwnerSteps
import Xv6.Public3.CallSteps
import Xv6.Public3.PageOwnership
import Xv6.Public3.ExitWait
import Xv6.Public3.Reaping
import Xv6.Public3.ReapingRuns
import Xv6.Public2.CopyOut
import Xv6.Public2.Signals
import Xv6.Public2.ProcTable
import Xv6.Public2.Kernel
import Xv6.Public2.Scan
import Xv6.Public2.TableInv
import Xv6.Public2.Dispatch
import Xv6.Public2.Wakeups
import Xv6.Public2.Changes
import Xv6.Public2.Suspension
import Xv6.Public2.ConsoleLocks
import Xv6.Public2.CtrlC
import Xv6.Public2.Batching
import Xv6.Public2.Handlers
import Xv6.Public2.SavedFrames
import Xv6.Public2.Profile
import Xv6.Public2.Ageing
import Xv6.Public2.Choice
import Xv6.Public2.WaitScan
import Xv6.Public2.Trap
import Xv6.Public2.SignalTraps
import Xv6.Public2.Fresh
import Xv6.Public2.StartLater
import Xv6.Public2.Transparency
import Xv6.Public1.Login
import Xv6.Public1.Syscall
import Xv6.Public1.ExecFilter
import Xv6.Public1.BlockCalls
import Xv6.Public1.Process
import Xv6.Public1.Lifecycle
import Xv6.Public1.BlockSets
import Xv6.Public1.History
import Xv6.Public1.InodeCache
import Xv6.Public1.CacheCoherence
import Xv6.Public1.ModeDurability
import Xv6.Public1.CacheFrame
import Xv6.Public1.Inodes
import Xv6.Public1.Files
import Xv6.Public1.PipeModes
import Xv6.Public1.PermissionChecks
import Xv6.Lib.Outcome
import Xv6.Public1.Blocks
import Xv6.Public1.BlockMap
import Xv6.Public1.FileContents
import Xv6.Lib.Splice
import Xv6.Public1.FileRefinement
import Xv6.Public1.Truncation
import Xv6.Public1.BlockRuns
import Xv6.Public1.Directory
import Xv6.Public1.Tree
import Xv6.Public1.Forest
import Xv6.Public1.TreeInv
import Xv6.Public1.TreeLookup
import Xv6.Public1.TreeCalls
import Xv6.Public1.TreeSteps
import Xv6.Public1.TreeRuns
import Xv6.Public1.BlockAppends
import Xv6.Public1.Mkfs
import Xv6.Public1.MkfsSteps
import Xv6.Public1.MkfsImage
import Xv6.Public1.LineDiscipline
import Xv6.Public1.PipeRuns
import Xv6.Public1.PipeStreams
import Xv6.Public1.PipeWakeups
import Xv6.Public1.UserHeap
import Xv6.Public1.UserHeapLists
import Xv6.Public1.UserHeapRuns
import Xv6.Public2.Shell
import Xv6.Public2.ShellGrammar
import Xv6.Public2.ShellSound
import Xv6.Public2.ShellParser
import Xv6.Public2.Runcmd
import Xv6.Public2.Pipelines
import Xv6.Public2.PipelineRuns
import Xv6.Lib.Supply
import Xv6.Public3.PageTables
import Xv6.Public1.Exec
import Xv6.Public1.ExecImage
import Xv6.Public1.ExecCopy
import Xv6.Public1.ExecStack
import Xv6.Public1.ExecRuns
import Xv6.Public2.OpenFiles
import Xv6.Public2.FileRefs
import Xv6.Public2.FileCalls
import Xv6.Public3.SkippingWalk
import Xv6.Lib.Contents
import Xv6.Public3.Contents
import Xv6.Public3.ForkCopy
import Xv6.Public3.SbrkExact
import Xv6.Public3.PageReport
import Xv6.Public3.Arguments
import Xv6.Lib.Pieces
import Xv6.Public1.Paths
import Xv6.Public1.ChmodNames
import Xv6.Public2.DiskQueue
import Xv6.Public2.DiskQueueRuns
import Xv6.Public1.FileWrite
import Xv6.Public1.InodeSteps
import Xv6.Public1.InodeStepsInv
import Xv6.Public1.InodeStepsRuns
import Xv6.Lib.Handles
import Xv6.Public1.BufCache
import Xv6.Public1.BufCacheInv
import Xv6.Public1.BufCacheRuns
import Xv6.Lib.Moves
import Xv6.Public1.Memmove
import Xv6.Lib.Rely
import Xv6.Common.Spinlocks
import Xv6.Common.SpinlockNesting
import Xv6.Lib.Letters
import Xv6.Lib.Lines
import Xv6.Public1.Matcher
import Xv6.Public1.Grep
import Xv6.Common.Cprintf
import Xv6.Public1.ChmodOutput
import Xv6.Public1.ChmodCommand
import Xv6.Public1.UserMemory
import Xv6.Public2.ShellTokens
import Xv6.Public1.TransactionRuns
import Xv6.Lib.Simulation
import Xv6.Public3.Switching
import Xv6.Public3.SwitchingInv
import Xv6.Public3.SwitchingSteps
import Xv6.Public3.SwitchingRuns
import Xv6.Public3.Interrupts
import Xv6.Lib.Progress
import Xv6.Common.SleepLocks
import Xv6.Common.SleepLockRuns
import Xv6.Common.SleepLockProgress
import Xv6.Public3.Kalloc
import Xv6.Public3.KallocPrograms
import Xv6.Lib.Assembly
import Xv6.Machine.Forkret
