import Siegfried.Forest
import Siegfried.SlotStack
import Siegfried.PageEntry
import Siegfried.PageHeap
import Siegfried.Fold
import Siegfried.Kernel
import Siegfried.PageTable
import Siegfried.TaskTable
import Siegfried.PagePool
import Siegfried.TaskRun
import Siegfried.VirtSearch
import Siegfried.PageAlloc
import Siegfried.Frames
import Siegfried.FrameAlloc
import Siegfried.Boot
import Siegfried.BootHeap
import Siegfried.History
import Siegfried.MsgQueue
import Siegfried.Bytes
import Siegfried.ExitMessage
import Siegfried.Ring
import Siegfried.TaskList
import Siegfried.Segments
import Siegfried.Inode
import Siegfried.Extents
import Siegfried.ExtentRead
import Siegfried.SparseRead
import Siegfried.FileRead
import Siegfried.Nvme
import Siegfried.NvmeQueue
import Siegfried.NvmeTransfer
import Siegfried.Gpt
import Siegfried.PathDisk
import Siegfried.StrTok
import Siegfried.DirEntry
import Siegfried.PathWalk
import Siegfried.DirTree
import Siegfried.TreeDevice
import Siegfried.FindInode
import Siegfried.SymlinkPath
import Siegfried.Finer
import Siegfried.Anchored
import Siegfried.FrameRun
import Siegfried.FrameSafe
import Siegfried.NvmeWrite
import Siegfried.DirLookup
import Siegfried.DirWalks
import Siegfried.ExtentBounds
import Siegfried.Requests
import Siegfried.ExtfsRequests
import Siegfried.ExtfsRanges
import Siegfried.Partition
import Siegfried.GetCwd
import Siegfried.ParentName
import Siegfried.CwdPath
import Siegfried.DiskOps
import Siegfried.SyscallDisks
import Siegfried.NvmePages
import Siegfried.InodeAddress
import Siegfried.Loops
import Siegfried.VirtTurns
import Siegfried.CurrentTab
import Siegfried.PageSlot
import Siegfried.PaddrLookup
import Siegfried.UserPages
import Siegfried.StrTokens
import Siegfried.PciBar
import Siegfried.PciConfig
import Siegfried.Descent
import Siegfried.PciEnum
import Siegfried.VirtFit
import Siegfried.AcpiTables
import Siegfried.DiskBuffers
import Siegfried.FrameReturn
import Siegfried.HeapGrowth
import Siegfried.GrowthTables
import Siegfried.Keyboard
import Siegfried.PathSplit
import Siegfried.Scancodes
import Siegfried.PoshLine
import Siegfried.PoshTokens
import Siegfried.UuidText
import Siegfried.MemCpy
import Siegfried.TextBuffer
import Siegfried.FrameBuffer
import Siegfried.TableWalks
import Siegfried.GptDevices
import Siegfried.Links
import Siegfried.Intervals
import Siegfried.ObjHeap
import Siegfried.ObjChunks
import Siegfried.ObjPlace
import Siegfried.ObjInsert
import Siegfried.ObjMajors
import Siegfried.ObjAlloc
import Siegfried.ObjFree
import Siegfried.ObjFuel
import Siegfried.ObjRealloc
import Siegfried.ObjCalls
import Siegfried.ObjRun
