import Mathlib.Data.Prod.Lex
import Mathlib.Order.Nat

/-!
The data of the cluster. Of the load of a node only its memory is read.
-/
namespace Aios.Cluster

abbrev NodeId := ℕ

inductive NodeStatus where
  | unknown | online | offline | leaving
  deriving DecidableEq

structure NodeMetrics where
  ramUsedMb : UInt64
  ramTotalMb : UInt64
  deriving DecidableEq

namespace NodeMetrics

def idle : NodeMetrics := ⟨0,0⟩

def loadFraction (m : NodeMetrics) : Float :=
  if m.ramTotalMb = 0 then 1.0 else m.ramUsedMb.toFloat/m.ramTotalMb.toFloat

end NodeMetrics

structure NodeEntry where
  name : String
  addr : String
  tier : UInt8
  status : NodeStatus
  metrics : NodeMetrics
  deriving DecidableEq

structure NodeInfo extends NodeEntry where
  id : NodeId
  deriving DecidableEq

structure RemoteProcessId where
  node : NodeId
  pid : ℕ
  deriving DecidableEq

namespace RemoteProcessId

def display (rid : RemoteProcessId) : String :=
  "node_" ++ toString rid.node ++ ":pid_" ++ toString rid.pid

theorem pair_injective :
    Function.Injective fun rid : RemoteProcessId => toLex (rid.node,rid.pid) := by
  rintro ⟨node,pid⟩ ⟨node',pid'⟩ h
  simpa using h

instance : LinearOrder RemoteProcessId := LinearOrder.lift' _ pair_injective

end RemoteProcessId

structure RemoteProcessSpec where
  name : String
  priority : UInt8
  ramMb : UInt64
  blockId : Option UInt32
  payload : List UInt8
  minTier : Option UInt8
  maxTier : Option UInt8
  deriving DecidableEq

structure RemoteProcessStatus where
  id : RemoteProcessId
  name : String
  state : String
  ramMb : UInt64
  deriving DecidableEq

inductive PlacementStrategy where
  | roundRobin | leastLoaded | byTier
  deriving DecidableEq

inductive ClusterMessage where
  | hello (info : NodeInfo)
  | metrics (id : NodeId) (metrics : NodeMetrics)
  | spawn (requestId : UInt64) (source : String) (spec : RemoteProcessSpec)
    (state : Option (List UInt8))
  | spawnAck (requestId : UInt64) (pid : ℕ) (ok : Bool) (error : Option String)
  | kill (requestId : UInt64) (source : String) (pid : ℕ)
  | killAck (requestId : UInt64) (ok : Bool) (error : Option String)
  | setPriority (requestId : UInt64) (source : String) (pid : ℕ) (priority : UInt8)
  | setPriorityAck (requestId : UInt64) (ok : Bool) (error : Option String)
  | getState (requestId : UInt64) (source : String) (pid : ℕ)
  | getStateReply (requestId : UInt64) (ok : Bool) (state : List UInt8) (error : Option String)
  | checkpoint (source : String) (rid : RemoteProcessId) (state : List UInt8)
  | statusRequest (source : String)
  | statusReply (processes : List RemoteProcessStatus)
  deriving DecidableEq

def ClusterMessage.acknowledges : ClusterMessage → Option UInt64
  | .spawnAck requestId _ _ _ => some requestId
  | .killAck requestId _ _ => some requestId
  | .setPriorityAck requestId _ _ => some requestId
  | .getStateReply requestId _ _ _ => some requestId
  | _ => none

/-- The id of a request that waits for an acknowledgement. -/
def ClusterMessage.requests : ClusterMessage → Option UInt64
  | .spawn requestId _ _ _ => some requestId
  | .kill requestId _ _ => some requestId
  | .setPriority requestId _ _ _ => some requestId
  | .getState requestId _ _ => some requestId
  | _ => none

structure ProcessExecutor where
  spawn : RemoteProcessSpec → Except String ℕ
  kill : ℕ → Except String Unit
  setPriority : ℕ → UInt8 → Except String Unit
  status : List RemoteProcessStatus
  metrics : NodeMetrics
  extractState : ℕ → Except String (List UInt8)
  restoreState : ℕ → List UInt8 → Except String Unit

end Aios.Cluster
