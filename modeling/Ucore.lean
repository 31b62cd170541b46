import Ucore.Lib.Prog
import Ucore.Lib.TwoRuns
import Ucore.Lib.Balance
import Ucore.Lib.Extents
import Ucore.Lib.Ownership
import Ucore.Lib.SkewTree
import Ucore.Lib.Tabulate
import Ucore.Lib.Ring
import Ucore.Lib.FreeRing
import Ucore.Lib.CString
import Ucore.Lib.Digits
import Ucore.Mm.DefaultPmm
import Ucore.Mm.PmmRuns
import Ucore.Mm.Slob
import Ucore.Mm.SlobRuns
import Ucore.Mm.SlobTermination
import Ucore.Mm.KmallocSizes
import Ucore.Fs.Bitmap
import Ucore.Fs.BitmapRuns
import Ucore.Fs.Sfs
import Ucore.Fs.SfsBlocks
import Ucore.Fs.SfsBmap
import Ucore.Fs.BmapErrors
import Ucore.Fs.SfsFile
import Ucore.Fs.SfsRuns
import Ucore.Fs.File
import Ucore.Fs.FileRuns
import Ucore.Fs.Content
import Ucore.Fs.InodeCache
import Ucore.Fs.Descriptors
import Ucore.Fs.DescriptorRuns
import Ucore.Fs.SfsDisk
import Ucore.Fs.SfsFrame
import Ucore.Fs.SfsSync
import Ucore.Fs.ReadOnly
import Ucore.Fs.ReportedCounts
import Ucore.Tools.Mksfs
import Ucore.Fs.Dirent
import Ucore.Tools.MksfsBlocks
import Ucore.Tools.MksfsRuns
import Ucore.Tools.MksfsImage
import Ucore.Tools.MksfsTree
import Ucore.Tools.MksfsAccepts
import Ucore.Tools.ReadBack
import Ucore.Fs.VfsLookup
import Ucore.Tools.OpenPath
import Ucore.Fs.VopDispatch
import Ucore.Fs.DispatchRuns
import Ucore.Fs.KernelVfs
import Ucore.Fs.OpenData
import Ucore.Fs.InodeCounts
import Ucore.Fs.OpenBalance
import Ucore.Fs.LookupFinds
import Ucore.Fs.FailedOpens
import Ucore.Tools.OpenCalls
import Ucore.Tools.MksfsMount
import Ucore.Tools.MksfsIndex
import Ucore.Lib.Chain
import Ucore.Process.Pid
import Ucore.Process.Table
import Ucore.Process.Links
import Ucore.Process.PidRuns
import Ucore.Process.Family
import Ucore.Process.FamilyRuns
import Ucore.Sched.SkewHeap
import Ucore.Sched.RunQueue
import Ucore.Sched.Queue
import Ucore.Sched.QueueRuns
import Ucore.Sched.Stride
import Ucore.Lib.DeltaList
import Ucore.Sched.Timer
import Ucore.Sched.TimerRuns
import Ucore.Lib.RefCount
import Ucore.Mm.AddressSpace
import Ucore.Lib.Ranges
import Ucore.Mm.PageFrame
import Ucore.Mm.VmaList
import Ucore.Mm.PageTables
import Ucore.Mm.PageMaps
import Ucore.Mm.PageRanges
import Ucore.Mm.PageRefs
import Ucore.Mm.DupMmap
import Ucore.Mm.PageDirs
import Ucore.Mm.ExitMmap
import Ucore.Mm.Spaces
import Ucore.Mm.SpaceCopies
import Ucore.Mm.LoadIcode
import Ucore.Mm.SpaceBytes
import Ucore.Mm.LoadSegments
import Ucore.Mm.LoadProgram
import Ucore.Mm.UserSpaces
import Ucore.Mm.ProgramBytes
import Ucore.Mm.TwinMemories
import Ucore.Mm.TwinLoads
import Ucore.Mm.RecycledPages
import Ucore.Mm.MmapChecks
import Ucore.Mm.UserMemory
import Ucore.Mm.PrivatePages
import Ucore.Mm.ProgramArgs
import Ucore.Mm.CountFrames
import Ucore.Process.Calls
import Ucore.Process.CallFrames
import Ucore.Process.CallUses
import Ucore.Process.SharedCounts
import Ucore.Process.ForkFailures
import Ucore.Mm.PageInit
import Ucore.Mm.Swap
import Ucore.Mm.SwapAlloc
import Ucore.Mm.SwapEntries
import Ucore.Mm.SwapSpace
import Ucore.Mm.SwapFaults
import Ucore.Mm.SwapRuns
import Ucore.Lib.Semaphores
import Ucore.Lib.Threads
import Ucore.Sync.Semaphore
import Ucore.Sync.SemaphoreRuns
import Ucore.Sync.SemaphoreTraces
import Ucore.Sync.Monitor
import Ucore.Sync.Philosophers
import Ucore.Sync.PhilosophersMonitor
import Ucore.Lib.RingBuffer
import Ucore.Lib.Paging
import Ucore.Fs.Stdin
import Ucore.Fs.PathParse
import Ucore.Lab4.DefaultPmm
import Ucore.Lab4.PmmRuns
import Ucore.Lab4.Threads
import Ucore.Lab4.ProcessSwitch
import Ucore.Lab3.Replacement
import Ucore.Lab3.ReplacementRuns
import Ucore.Lab6.Policies
import Ucore.Lab6.Sjf
import Ucore.Lab6.RoundRobin
import Ucore.Lab4.SwitchTermination
import Ucore.User.Shell
import Ucore.User.Redirections
import Ucore.Sched.ListQueue
import Ucore.Fs.Namefile
import Ucore.Fs.NamefilePath
import Ucore.Debug.Kmonitor
import Ucore.Debug.Kdebug
import Ucore.Debug.StabSearch
import Ucore.Libs.Printfmt
import Ucore.Libs.PrintFormat
import Ucore.Libs.NumberFormat
import Ucore.Libs.FieldWidth
import Ucore.Libs.Strtol
import Ucore.Lib.BlockMove
import Ucore.Libs.Memory
import Ucore.Lib.Roll
import Ucore.Driver.Cga
import Ucore.Driver.Keyboard
import Ucore.Driver.ConsoleInput
import Ucore.Driver.ConsoleOutput
import Ucore.Driver.Readline
