import NoviceKernel.LogCrash
import NoviceKernel.FlatDisk
import NoviceKernel.FsShort
import NoviceKernel.UserCopy
import NoviceKernel.SysProc
import NoviceKernel.KallocConc
import NoviceKernel.Pipe
import NoviceKernel.LogSpace
import NoviceKernel.CommitBuffers
import NoviceKernel.SysStored
import NoviceKernel.Sleeplock
import NoviceKernel.Trap
import NoviceKernel.ProcWait
import NoviceKernel.BioList
import NoviceKernel.VirtioDisk
import NoviceKernel.Shell
import NoviceKernel.Umalloc
import NoviceKernel.Console
import NoviceKernel.Grep
