import Lithium.Lib.Transition
import Lithium.Lib.Ring
import Lithium.Lib.RedoLog
import Lithium.Lib.Sv39
import Lithium.Lib.Coroutine
import Lithium.Lib.Circular
import Lithium.Param
import Lithium.Mem.Spinlock
import Lithium.Mem.Physmem
import Lithium.Mem.PageTable
import Lithium.Mem.PageTree
import Lithium.Mem.HardwareWalk
import Lithium.Mem.KernelMap
import Lithium.Fs.Sleeplock
import Lithium.Fs.SleeplockRun
import Lithium.Fs.Buffer
import Lithium.Fs.BlockCache
import Lithium.Fs.BufferKeys
import Lithium.Fs.BufferUse
import Lithium.Fs.CacheCoherence
import Lithium.Fs.CacheStatus
import Lithium.Fs.CacheLayer
import Lithium.Fs.VirtioDisk
import Lithium.Fs.VirtioRun
import Lithium.Fs.VirtioRings
import Lithium.Fs.VirtioServe
import Lithium.Fs.VirtioProgress
import Lithium.Fs.CacheOverDisk
import Lithium.Fs.StorageStack
import Lithium.Fs.Log
import Lithium.Fs.Inode
import Lithium.Fs.Icache
import Lithium.Fs.InodeFree
import Lithium.Fs.InodeAlloc
import Lithium.Fs.InodeData
import Lithium.Fs.ReadWrite
import Lithium.Fs.FileLoop
import Lithium.Fs.InodeLock
import Lithium.Fs.InodeStore
import Lithium.Fs.FileRead
import Lithium.Fs.FileWindow
import Lithium.Fs.FileWrite
import Lithium.Fs.FileCrash
import Lithium.Fs.WriteLogged
import Lithium.Fs.InodeUse
import Lithium.Fs.InodeClaim
import Lithium.Fs.LogHold
import Lithium.Fs.BufferBalance
import Lithium.Fs.Recovery
import Lithium.Fs.SharedOffset
import Lithium.Fs.Block
import Lithium.Fs.LogCommit
import Lithium.Fs.LogCrash
import Lithium.Fs.LogDurable
import Lithium.Fs.LogNull
import Lithium.Fs.LogReserve
import Lithium.Fs.Pipe
import Lithium.Fs.PipeBroken
import Lithium.Fs.File
import Lithium.Trap.Kerneltrap
import Lithium.Sys.Syscall
import Lithium.Trap.Sepc
import Lithium.Proc.Process
import Lithium.Proc.Machine
import Lithium.Proc.Running
import Lithium.Proc.Tables
import Lithium.Proc.Pending
import Lithium.Proc.Wakeup
import Lithium.Proc.Children
import Lithium.Fs.LogState
import Lithium.Fs.LogRegion
import Lithium.Mem.PageMap
import Lithium.Mem.TableHandle
import Lithium.Mem.PhysRun
import Lithium.Lib.Ledger
import Lithium.Lib.Takes
import Lithium.Lib.Windows
import Lithium.Lib.Handles
import Lithium.Lib.Extents
import Lithium.Fs.FileRun
import Lithium.Proc.Supply
import Lithium.Proc.Account
import Lithium.Proc.Resources
import Lithium.Proc.ForkCopy
import Lithium.Proc.Pids
import Lithium.Proc.Resume
import Lithium.Proc.Channels
import Lithium.Fs.PipeAlloc
import Lithium.Proc.Wait
import Lithium.Lib.Cyclic
import Lithium.Proc.RoundRobin
import Lithium.Lib.Recency
import Lithium.Fs.Lru
import Lithium.Lib.SaveArea
import Lithium.Lib.Copy
import Lithium.Mem.Bytes
import Lithium.Proc.ContextSwitch
import Lithium.Lib.Numeral
import Lithium.Lib.Scan
import Lithium.Io.Console
import Lithium.Io.Printk
import Lithium.Io.PrintkNumerals
import Lithium.Io.PrintkCount
import Lithium.User.Ulibc
import Lithium.Io.Formatters
