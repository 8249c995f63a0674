import Xv6Mmap.Theorems.RefUpdates
import Xv6Mmap.Theorems.InodeRefs
import Xv6Mmap.Theorems.ExecReplaces
import Xv6Mmap.Theorems.UserCopies
import Xv6Mmap.Theorems.CopyExact
import Xv6Mmap.Theorems.GroupCommit
import Xv6Mmap.Theorems.Recovery
import Xv6Mmap.Theorems.BufferCache
import Xv6Mmap.Theorems.Transactions
import Xv6Mmap.Theorems.MunmapLocks
import Xv6Mmap.Theorems.CachedBlocks
import Xv6Mmap.Theorems.Allocator
import Xv6Mmap.Theorems.ProcSize
import Xv6Mmap.Theorems.InodeTable
import Xv6Mmap.Theorems.Pipes
import Xv6Mmap.Theorems.ConsoleLines
import Xv6Mmap.Theorems.PipeWakeups
import Xv6Mmap.Theorems.Reaping
import Xv6Mmap.Theorems.DiskRequests
import Xv6Mmap.Theorems.Directories
import Xv6Mmap.Theorems.LinkCounts
import Xv6Mmap.Theorems.Dangling
import Xv6Mmap.Theorems.ForkCopies
import Xv6Mmap.Theorems.MunmapWalks
import Xv6Mmap.Theorems.MunmapExact
import Xv6Mmap.Theorems.ShellParser
import Xv6Mmap.Theorems.UserHeap
import Xv6Mmap.Theorems.MkfsConsistent
import Xv6Mmap.Theorems.MkfsReadBack
import Xv6Mmap.Theorems.GrepLines
import Xv6Mmap.Theorems.GrepMatch
