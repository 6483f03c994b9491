import Aios.ProcessMgr.Running
import Aios.ProcessMgr.Frozen
import Aios.ProcessMgr.Groups
import Aios.ProcessMgr.Departures
import Aios.ProcessMgr.Recorded
import Aios.ProcessMgr.Polling
import Aios.Ringbuf.Fifo
import Aios.Ipc.RingTransport
import Aios.Kernel.HeapRuns
import Aios.Kernel.PagingRuns
import Aios.Kernel.FrameRuns
import Aios.Kernel.Sock.Receive
import Aios.Kernel.Sock.Parents
import Aios.Kernel.Sock.Closing
import Aios.Kernel.Net.Leases
import Aios.Kernel.Sched.FaultRuns
import Aios.Kernel.Sched.Contexts
import Aios.Kernel.RecvCopy
import Aios.Kernel.Vector
import Aios.Kernel.Net.Checksum
import Aios.Kernel.Ccm
import Aios.BlockMgr.HotReload
import Aios.Persistence.RecoveryRuns
import Aios.Persistence.TornLines
import Aios.Persistence.Snapshot
import Aios.Persistence.Crashes
import Aios.LiveUpdate.WasmEngine
import Aios.LiveUpdate.Persisted
import Aios.Cluster.Failover
import Aios.Cluster.Migration
import Aios.SysControl.Keyring
import Aios.Bridge.Auth
import Aios.Store.Update
import Aios.Vfs.Algebra
import Aios.Vfs.Deleting
import Aios.Security.AccessControl
import Aios.Mpk.Mpk
import Aios.Watchdog.Replay
import Aios.ProcessMgr.Conserving
import Aios.ProcessMgr.Deadlines
import Aios.Autohal.Replug
import Aios.Ipc.Priority
import Aios.Store.Outdated
import Aios.ExecCompat.Format
import Aios.Compress.Cache
