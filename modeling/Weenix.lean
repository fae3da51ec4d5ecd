import Weenix.Lib.Run
import Weenix.Lib.Cover
import Weenix.Spec.Page
import Weenix.Proofs.PageGroup
import Weenix.Proofs.PageOps
import Weenix.Proofs.PageJoin
import Weenix.Proofs.PageBoot
import Weenix.Proofs.PageRun
import Weenix.Lib.Memory
import Weenix.Proofs.PageWhole
import Weenix.Spec.Slab
import Weenix.Proofs.SlabRep
import Weenix.Proofs.SlabObj
import Weenix.Proofs.SlabGrow
import Weenix.Proofs.SlabAlloc
import Weenix.Proofs.SlabInit
import Weenix.Proofs.SlabSys
import Weenix.Spec.Proc
import Weenix.Proofs.SchedEffect
import Weenix.Proofs.SchedQueue
import Weenix.Proofs.SchedStable
import Weenix.Proofs.Mutex
import Weenix.Proofs.MutexRun
import Weenix.Proofs.SchedSwitch
import Weenix.Proofs.ProcCalls
import Weenix.Proofs.ProcInv
import Weenix.Proofs.ProcWait
import Weenix.Proofs.ProcRun
import Weenix.Proofs.ProcSys
import Weenix.Proofs.ProcReap
import Weenix.Lib.CallOrder
import Weenix.Proofs.Init
import Weenix.Lib.Cyclic
import Weenix.Proofs.Virtterm
import Weenix.Lib.ByteFile
import Weenix.Lib.Exec
import Weenix.Spec.S5fs
import Weenix.Proofs.S5Free
import Weenix.Proofs.S5Image
import Weenix.Proofs.S5File
import Weenix.Spec.Vnode
import Weenix.Proofs.Vnode
import Weenix.Proofs.RamfsOps
import Weenix.Proofs.RamfsDisk
import Weenix.Proofs.RamfsCalls
import Weenix.Lib.SlotMap
import Weenix.Proofs.RamfsMap
import Weenix.Spec.Namev
import Weenix.Spec.Vfs
import Weenix.Proofs.VfsFile
import Weenix.Proofs.VfsIo
import Weenix.Lib.Tally
import Weenix.Proofs.VfsCount
import Weenix.Proofs.Namev
import Weenix.Proofs.VfsRefs
import Weenix.Proofs.VfsBalance
import Weenix.Proofs.NamevAgrees
import Weenix.Proofs.VfsNet
import Weenix.Proofs.VfsMoved
import Weenix.Proofs.VfsTree
import Weenix.Proofs.VfsLife
import Weenix.Proofs.ProcAnswer
import Weenix.Proofs.SchedFiled
import Weenix.Proofs.SchedState
import Weenix.Proofs.SchedLevel
import Weenix.Proofs.ProcLost
import Weenix.Proofs.VfsFd
import Weenix.Proofs.VfsCreat
import Weenix.Lib.SlotScan
import Weenix.Proofs.VfsGetdent
import Weenix.Proofs.VirttermWindow
import Weenix.Proofs.VnodeWaiters
import Weenix.Proofs.VirttermScreen
import Weenix.Lib.Unfolding
import Weenix.Proofs.InitComplete
import Weenix.Spec.S5Tool
import Weenix.Proofs.S5Format
import Weenix.Proofs.ProcHalt
import Weenix.Lib.Worklist
import Weenix.Proofs.LdClosure
import Weenix.Spec.Elf
import Weenix.Proofs.ElfArgs
import Weenix.Proofs.AccessSizes
import Weenix.Proofs.AccessClean
import Weenix.Spec.Pagetable
import Weenix.Proofs.PtBoot
import Weenix.Proofs.PtRange
import Weenix.Proofs.PtDirs
import Weenix.Proofs.Kshell
import Weenix.Proofs.ElfSegments
import Weenix.Proofs.LdEnv
