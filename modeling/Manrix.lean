import Manrix.Lib.Links
import Manrix.Lib.Queues
import Manrix.Lib.Runs
import Manrix.Lib.Fuel
import Manrix.LinkedList
import Manrix.Kernel.Thread
import Manrix.Kernel.RunQueue
import Manrix.Kernel.Scheduling
import Manrix.Kernel.Message
import Manrix.Kernel.Ipc
import Manrix.Kernel.ClientServer
import Manrix.Kernel.Sleep
import Manrix.Lib.IndexList
import Manrix.Mm.Slab
import Manrix.Lib.Circle
import Manrix.Mm.VmMap
import Manrix.Mm.MapEnter
import Manrix.Mm.MapRemove
import Manrix.Mm.MapHint
import Manrix.Mm.PageHash
import Manrix.Lib.RefCount
import Manrix.Mm.VmObject
import Manrix.Mm.ObjectLife
import Manrix.Lib.Frames
import Manrix.Mm.Pmap
import Manrix.Mm.PmapGrowth
import Manrix.Mm.PmapUser
import Manrix.Mm.PmapEnter
import Manrix.Mm.PmapCopy
import Manrix.Mm.PmapShare
import Manrix.Mm.KernelGrowth
import Manrix.Mm.UserSpace
import Manrix.Mm.PageFault
import Manrix.Mm.ZeroFill
import Manrix.Mm.Protect
import Manrix.Mm.Fork
import Manrix.Lib.Bitmap
import Manrix.Kernel.Id
import Manrix.Mm.BootMemory
import Manrix.Mm.PageAlloc
import Manrix.Mm.FrameAccounts
import Manrix.Kernel.Process
import Manrix.Kernel.ChildLists
import Manrix.Kernel.Credentials
import Manrix.Kernel.ExitWait
import Manrix.Kernel.Fd
import Manrix.Kernel.FdFork
import Manrix.Kernel.OpenFile
import Manrix.FsIo.VfsRead
import Manrix.Kernel.Signal
import Manrix.Lib.Memcpy
import Manrix.FsIo.Ext2Read
import Manrix.FsIo.Ext2Bmap
import Manrix.FsIo.Ext2Sb
import Manrix.FsIo.Bcache
import Manrix.FsIo.VnodeCache
import Manrix.Libc.SvrPool
import Manrix.Console.Tty
import Manrix.Kernel.Timer
import Manrix.Kernel.Irq
import Manrix.Mm.PageFinds
import Manrix.Mm.ShareAddr
import Manrix.Kernel.IdHistory
import Manrix.Kernel.ThreadHash
import Manrix.Kernel.ProcessTable
import Manrix.Mm.EntryRings
import Manrix.Mm.KmemBlocks
import Manrix.Mm.PageLists
import Manrix.Mm.PmapRemove
import Manrix.Libc.MemMove
import Manrix.Console.Screen
import Manrix.FsIo.Partition
import Manrix.Mm.PmapRange
import Manrix.Kernel.RoundRobin
import Manrix.Kernel.Priority
import Manrix.Kernel.ThreadExit
import Manrix.Kernel.FailedSend
import Manrix.Kernel.SignalQueue
import Manrix.Kernel.TimerTable
import Manrix.Lib.IntExpr
import Manrix.Lib.Calendar
import Manrix.Libc.Time
import Manrix.Kernel.Clock
import Manrix.Kernel.Sync
import Manrix.Kernel.SyncQueue
import Manrix.Lib.CString
import Manrix.Kernel.BootArgs
import Manrix.Lib.Records
import Manrix.FsIo.Ext2Inode
import Manrix.FsIo.VfsOpen
import Manrix.Lib.Wildcard
import Manrix.FsIo.Ext2Dir
import Manrix.FsIo.ExtendedReads
import Manrix.Mm.SlabChain
import Manrix.FsIo.VnodeHash
import Manrix.Lib.Numeral
import Manrix.Kernel.KernelStdio
import Manrix.Kernel.SpinLock
import Manrix.Kernel.Atomic
import Manrix.FsIo.Ext2Lookup
import Manrix.FsIo.Ext2Names
