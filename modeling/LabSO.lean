import LabSO.Lib.Transition
import LabSO.Lib.Locks
import LabSO.Lib.Program
import LabSO.Lib.Bytes
import LabSO.Lib.Writes
import LabSO.Kernel.Semaphore
import LabSO.Kernel.SemMachine
import LabSO.Kernel.SemSteps
import LabSO.Kernel.SemCount
import LabSO.Kernel.SemOpening
import LabSO.Kernel.SemLocks
import LabSO.Kernel.SemWakeup
import LabSO.Kernel.SemClosing
import LabSO.Kernel.Disk
import LabSO.Kernel.Log
import LabSO.Kernel.LogCrash
import LabSO.Kernel.LogMachine
import LabSO.Kernel.LogSteps
import LabSO.Kernel.LogSafe
import LabSO.Mkfs.Layout
import LabSO.Kernel.LogSpace
import LabSO.Shell.Command
import LabSO.Shell.Parser
import LabSO.Shell.Parsing
import LabSO.Shell.ParsingLine
import LabSO.Shell.Grammar
import LabSO.Shell.ParsingGrammar
import LabSO.Shell.Printing
import LabSO.Shell.Syscall
import LabSO.Shell.Execute
import LabSO.Shell.ExecuteParent
import LabSO.Shell.ExecuteChild
import LabSO.Shell.ExecuteSafe
import LabSO.Shell.ExecuteCalls
import LabSO.Shell.Children
import LabSO.User.Pingpong
import LabSO.User.PingpongRun
import LabSO.User.PingpongApart
import LabSO.User.PingpongAlone
import LabSO.User.PingpongTidy
import LabSO.Kernel.FsFormat
import LabSO.Kernel.Volume
import LabSO.Kernel.VolumeOk
import LabSO.Kernel.FsBlocks
import LabSO.Kernel.FsAlloc
import LabSO.Kernel.CopyIn
import LabSO.Kernel.Inode
import LabSO.Lib.Tokens
import LabSO.Kernel.FsInv
import LabSO.Kernel.FsContent
import LabSO.Kernel.FsReadWrite
import LabSO.Kernel.Directory
import LabSO.Kernel.FsDirectory
import LabSO.Kernel.Sysfile
import LabSO.Kernel.FsCreate
import LabSO.Kernel.FsFiles
import LabSO.Kernel.FsCalls
import LabSO.Kernel.FsProcs
import LabSO.Lib.Monitor
import LabSO.Lib.MonitorRules
import LabSO.Kernel.Pipe
import LabSO.Kernel.PipeData
import LabSO.Kernel.PipeWakeup
import LabSO.Lib.Ring
import LabSO.Kernel.Virtio
import LabSO.Kernel.VirtioInv
import LabSO.Kernel.VirtioOutline
import LabSO.Kernel.VirtioSafe
import LabSO.Kernel.ProcMachine
import LabSO.Kernel.ProcSteps
import LabSO.Kernel.ProcLocks
import LabSO.Kernel.ProcSched
import LabSO.Kernel.ProcFamily
import LabSO.Kernel.ProcKin
import LabSO.Kernel.ProcWait
import LabSO.Kernel.ProcKill
import LabSO.Lib.Memory
import LabSO.Kernel.Paging
import LabSO.Kernel.PagingHeap
import LabSO.Kernel.PageTable
import LabSO.Kernel.Console
import LabSO.Kernel.ConsoleData
import LabSO.Kernel.ConsoleRun
import LabSO.Lib.Circular
import LabSO.Kernel.Bcache
import LabSO.Kernel.BcacheInv
import LabSO.Kernel.BcacheData
import LabSO.Kernel.BcacheRun
import LabSO.Kernel.BcacheReaders
import LabSO.Kernel.FileTable
import LabSO.Kernel.FileRefs
import LabSO.Kernel.FileRun
import LabSO.Kernel.FileCalls
import LabSO.Kernel.Itable
import LabSO.Kernel.ItableInv
import LabSO.Kernel.ItableRun
import LabSO.Kernel.ItableFree
import LabSO.Kernel.ItableFiles
import LabSO.Lib.Chase
import LabSO.User.Malloc
import LabSO.User.MallocBlocks
import LabSO.User.MallocFree
import LabSO.User.MallocAlloc
import LabSO.User.MallocLoops
import LabSO.User.MallocRun
import LabSO.User.MallocBreak
import LabSO.Lib.Rounds
import LabSO.User.Sh
import LabSO.User.ShTokens
import LabSO.User.ShForms
import LabSO.User.ShText
import LabSO.Shell.ExecuteRedirect
import LabSO.Shell.ExecuteFile
import LabSO.Shell.Outcomes
import LabSO.Shell.ExecuteForked
import LabSO.Kernel.SemProgress
import LabSO.Kernel.SemValue
import LabSO.Kernel.SemScan
import LabSO.Kernel.SemKill
import LabSO.Lib.Handles
import LabSO.Shell.ParsingGivenUp
import LabSO.Shell.Ownership
import LabSO.Shell.ParserCalls
import LabSO.Kernel.VolumeContent
import LabSO.Kernel.FsBytes
import LabSO.Kernel.VolumeArray
import LabSO.Kernel.FsArray
import LabSO.Kernel.VolumeBlocks
import LabSO.Kernel.FsArrayRun
import LabSO.Mkfs.Image
import LabSO.Mkfs.Append
import LabSO.Mkfs.Frame
import LabSO.Mkfs.Build
import LabSO.Mkfs.ReadBack
import LabSO.Mkfs.Main
import LabSO.Mkfs.WellFormed
import LabSO.Kernel.PageMap
import LabSO.Kernel.UserCopy
import LabSO.Kernel.PageMapping
import LabSO.Kernel.Uvm
import LabSO.Kernel.Sbrk
import LabSO.User.Grep
import LabSO.User.GrepLines
import LabSO.User.Iobench
import LabSO.Kernel.PipeFaults
import LabSO.Kernel.Sleeplock
import LabSO.Kernel.Ticks
import LabSO.Kernel.Kalloc
import LabSO.Kernel.PushOff
import LabSO.Kernel.PushOffSteps
import LabSO.Kernel.PushOffRun
import LabSO.Kernel.DirectoryMap
import LabSO.Kernel.PathNames
import LabSO.Kernel.Namei
import LabSO.Lib.Copying
import LabSO.Kernel.Memmove
import LabSO.User.Memmove
import LabSO.Kernel.FreeMap
import LabSO.Kernel.FsLogged
import LabSO.Kernel.FsRuns
import LabSO.Kernel.ReadOnly
