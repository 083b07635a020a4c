import Xv6.Runs
import Xv6.Bytes
import Xv6.Wp
import Xv6.Refine
import Xv6.Writes
import Xv6.Params
import Xv6.Log
import Xv6.LogCrash
import Xv6.Places
import Xv6.Spinlock
import Xv6.Chain
import Xv6.LogSteps
import Xv6.LogMoves
import Xv6.LogGroup
import Xv6.LogSpace
import Xv6.Proc
import Xv6.Owners
import Xv6.ProcDirs
import Xv6.ProcJoin
import Xv6.Sleep
import Xv6.Ptable
import Xv6.PtableCpus
import Xv6.PtableDoes
import Xv6.PtableTree
import Xv6.PtableWaits
import Xv6.PtableKill
import Xv6.PtableReap
import Xv6.Vm
import Xv6.VmEntries
import Xv6.VmDealloc
import Xv6.VmMap
import Xv6.VmCopy
import Xv6.CopyOut
import Xv6.VmPages
import Xv6.Grow
import Xv6.ProcClone
import Xv6.Frames
import Xv6.VmAlloc
import Xv6.Sbrk
import Xv6.Argstr
import Xv6.Pool
import Xv6.Fs
import Xv6.Icache
import Xv6.Ring
import Xv6.Bio
import Xv6.FsDisk
import Xv6.FsBlocks
import Xv6.FsTrunc
import Xv6.FsFiles
import Xv6.FsBytes
import Xv6.FsGood
import Xv6.FsLogged
import Xv6.FsCache
import Xv6.FsSmall
import Xv6.FsState
import Xv6.FsDirs
import Xv6.FsPaths
import Xv6.FsRuns
import Xv6.FsFull
import Xv6.Sysread
import Xv6.Fifo
import Xv6.Pipe
import Xv6.File
import Xv6.FileRefs
import Xv6.Dir
import Xv6.Sysfile
import Xv6.Prog
import Xv6.Exec
import Xv6.Ops
import Xv6.Holds
import Xv6.HoldsCalls
import Xv6.HoldsTables
import Xv6.Irefs
import Xv6.Mutex
import Xv6.Ide
import Xv6.Console
import Xv6.Sections
import Xv6.Filewrite
import Xv6.Sh
import Xv6.ShGrammar
import Xv6.ShParse
import Xv6.ShWords
import Xv6.ShPrint
import Xv6.ShRun
import Xv6.ShWires
import Xv6.Mkfs
import Xv6.MkfsImage
import Xv6.MkfsFiles
import Xv6.MkfsMain
import Xv6.MkfsBoot
import Xv6.MkfsLookup
import Xv6.Memmove
import Xv6.Grep
import Xv6.GrepReads
import Xv6.Mp
import Xv6.ShRedirs
