import Flix.Boot.BootInfo
import Flix.Boot.DirectoryRuns
import Flix.Boot.FrameAccounts
import Flix.Boot.ModuleMapping
import Flix.Console.Page
import Flix.Cpu.Clone
import Flix.Cpu.KernelStack
import Flix.Cpu.StackTrace
import Flix.Exec.Image
import Flix.Exec.Residue
import Flix.Fs.ArchiveTree
import Flix.Fs.Paths
import Flix.Memory.KHeapRequests
import Flix.Memory.KHeapStore
import Flix.Paging.HeapRuns
import Flix.Paging.Privilege
import Flix.Paging.TableLeak
import Flix.Sync.CondWait
import Flix.Sync.InterruptFlag
import Flix.Sync.NotifyAll
import Flix.Sync.Tty
import Flix.Sync.TtyLines
import Flix.Sync.Turns
import Flix.Syscalls.Answers
import Flix.Tasks.Fairness
import Flix.Tasks.HierarchyForest
import Flix.Tasks.HierarchyLocks
import Flix.Tasks.Managers
import Flix.Tasks.Tids
import Flix.Testex.TestLog
