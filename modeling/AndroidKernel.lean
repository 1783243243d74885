import AndroidKernel.Ashmem.Accounting
import AndroidKernel.Ashmem.Purge
import AndroidKernel.Binder.BufferRelease
import AndroidKernel.Binder.DeathBugs
import AndroidKernel.Binder.Handles
import AndroidKernel.Binder.WriteLoop
import AndroidKernel.Bitmap.Remap
import AndroidKernel.Filter.Reads
import AndroidKernel.Filter.Scratch
import AndroidKernel.Ids.Runs
import AndroidKernel.IoResource.Runs
import AndroidKernel.IpFrag.Runs
import AndroidKernel.Ipc.SemUndo
import AndroidKernel.Locks.Convert
import AndroidKernel.Locks.Deadlock
import AndroidKernel.Locks.Runs
import AndroidKernel.Logger.History
import AndroidKernel.Logger.Reads
import AndroidKernel.Mm.BuddyPages
import AndroidKernel.Mm.MemblockRuns
import AndroidKernel.NameVal.Runs
import AndroidKernel.Nand.CacheRuns
import AndroidKernel.RadixTree.Runs
import AndroidKernel.RamConsole.Runs
import AndroidKernel.Rational.Approximation
import AndroidKernel.Rtc.Queues
import AndroidKernel.Timer.Runs
import AndroidKernel.WakeLock.Timer
import AndroidKernel.Yaffs.BlockRuns
import AndroidKernel.Yaffs.CheckpointStream
import AndroidKernel.Yaffs.TnodeTree
