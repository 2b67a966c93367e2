import ZxyOs.Lib.Exec
import ZxyOs.Lib.Bytes
import ZxyOs.Lib.Cells
import ZxyOs.Lib.Links
import ZxyOs.Kernel.List
import ZxyOs.Kernel.ListRun
import ZxyOs.Kernel.Console
import ZxyOs.Kernel.Bitmap
import ZxyOs.Kernel.BitmapScan
import ZxyOs.Kernel.Arena
import ZxyOs.Kernel.ArenaInv
import ZxyOs.Kernel.ArenaOps
import ZxyOs.Kernel.ArenaCalls
import ZxyOs.Kernel.ArenaRun
import ZxyOs.Fs.State
import ZxyOs.Fs.Inode
import ZxyOs.Fs.Dir
import ZxyOs.Fs.File
import ZxyOs.Fs.Path
import ZxyOs.Fs.Syscall
import ZxyOs.Fs.Format
import ZxyOs.Fs.InodeTable
import ZxyOs.Fs.DirEntries
import ZxyOs.Fs.DirInsert
import ZxyOs.Kernel.PageLocks
import ZxyOs.Kernel.PageRaces
import ZxyOs.User.Heap
import ZxyOs.User.HeapFork
import ZxyOs.Device.Ioqueue
import ZxyOs.Device.IoqueueInv
import ZxyOs.Device.IoqueueRun
import ZxyOs.Kernel.LockInv
import ZxyOs.Kernel.LockRuns
import ZxyOs.Kernel.SchedInv
import ZxyOs.Kernel.SchedRun
import ZxyOs.Fs.DirCalls
import ZxyOs.Fs.Getcwd
import ZxyOs.Fs.GetcwdBuf
import ZxyOs.Fs.Unlink
import ZxyOs.Fs.Mkdir
import ZxyOs.Device.IdeTransfer
import ZxyOs.User.WashPath
import ZxyOs.Device.ScanSafety
import ZxyOs.Kernel.PoolRanges
import ZxyOs.Kernel.AllocFails
import ZxyOs.User.ForkCopies
import ZxyOs.User.Printf
import ZxyOs.User.CmdParse
import ZxyOs.User.Readline
import ZxyOs.Fs.ReadDir
import ZxyOs.Fs.PathParse
import ZxyOs.Fs.FileSafety
import ZxyOs.Fs.FormatLayout
import ZxyOs.Fs.WriteFails
import ZxyOs.Kernel.AddrSpace
import ZxyOs.Kernel.PageWalk
import ZxyOs.User.Calls
import ZxyOs.User.DescriptorFails
import ZxyOs.User.DiskReads
import ZxyOs.User.ElfLoad
import ZxyOs.User.FdValidation
import ZxyOs.User.FileAppend
import ZxyOs.User.PipeRun
import ZxyOs.User.PipeWrite
import ZxyOs.User.ReleaseFrames
import ZxyOs.User.WaitExit
import ZxyOs.User.WaitInv
import ZxyOs.User.WaitRun
import ZxyOs.Device.KeyboardRun
import ZxyOs.Fs.InOrder
import ZxyOs.Fs.MkdirKeeps
import ZxyOs.Fs.OpenFrame
import ZxyOs.User.FileLog
import ZxyOs.User.Shell
import ZxyOs.User.TreeRun
import ZxyOs.User.Restart
