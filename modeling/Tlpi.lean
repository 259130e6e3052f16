import Tlpi.Lib.Lts
import Tlpi.Lib.Threads
import Tlpi.Lib.Ipc
import Tlpi.Lib.ByteMem
import Tlpi.Lib.NullChain
import Tlpi.Lib.DList
import Tlpi.Lib.File
import Tlpi.Lib.Stdio
import Tlpi.Lib.Open
import Tlpi.Lib.FdTable
import Tlpi.Lib.Input
import Tlpi.Lib.CInt
import Tlpi.Lib.Fault
import Tlpi.Lib.CString
import Tlpi.Lib.Strtol
import Tlpi.Lib.Forest
import Tlpi.Lib.Keyed
import Tlpi.Lib.UpdateAll
import Tlpi.Alloc.Heap
import Tlpi.Alloc.Client
import Tlpi.Alloc.Blocks
import Tlpi.Alloc.Integrity
import Tlpi.Alloc.Links
import Tlpi.Alloc.FreeList
import Tlpi.Alloc.FirstFit
import Tlpi.Alloc.Reuse
import Tlpi.FileIo.AtomicAppend
import Tlpi.FileIo.VectorIo
import Tlpi.FileIo.VectorCalls
import Tlpi.FileIo.CpHoles
import Tlpi.FileIo.HolyFile
import Tlpi.FileIo.Tail
import Tlpi.FileIo.TailScan
import Tlpi.FileIo.Tee
import Tlpi.FileIo.Dup
import Tlpi.FileIo.WriteBytes
import Tlpi.FileIo.Copy
import Tlpi.FileIo.ReadLine
import Tlpi.FileIo.Rdwrn
import Tlpi.FileSys.Shuffle
import Tlpi.FileSys.Benchmark
import Tlpi.Attr.Chmod
import Tlpi.Attr.Chattr
import Tlpi.Attr.SetFAttr
import Tlpi.Attr.LibAcl
import Tlpi.Attr.AclUpdate
import Tlpi.Attr.AclParse
import Tlpi.Proc.Environ
import Tlpi.Proc.SetEnv
import Tlpi.Proc.ExecLp
import Tlpi.Proc.GetNum
import Tlpi.Proc.PsTree
import Tlpi.Proc.PsForest
import Tlpi.Proc.Status
import Tlpi.Proc.Scan
import Tlpi.Proc.StatusFile
import Tlpi.Proc.Trim
import Tlpi.Proc.Fields
import Tlpi.Proc.Select
import Tlpi.Users.GetPwNam
import Tlpi.Users.InitGroups
import Tlpi.Threads.Incr
import Tlpi.Threads.Producer
import Tlpi.Threads.Multijoin
import Tlpi.Threads.Once
import Tlpi.Ipc.Transfer
import Tlpi.Ipc.FileServer
import Tlpi.Ipc.SeqNum
import Tlpi.Ipc.MultiSigchld
import Tlpi.Ipc.MqNotify
import Tlpi.Ipc.PidFile
import Tlpi.Ipc.SemInit
import Tlpi.Ipc.SemOps
import Tlpi.Ipc.EpollInput
import Tlpi.Ipc.ChangeCase
