import Aios.Lib.FiniteMap
import Aios.Lib.Transition
import Aios.ProcessMgr.Task

/-!
The priority-inheritance lock table: owners, waiter queues, recorded priorities, and the boosts that
wait to be applied.
-/
namespace Aios.ProcessMgr

inductive BoostReason where
  | lockContention | resourceWait | ioPending
  deriving DecidableEq

structure PriorityBoost where
  pid : ProcessId
  from_ : Priority
  to_ : Priority
  reason : BoostReason
  deriving DecidableEq

inductive LockResult where
  | acquired
  | blocked (owner : ProcessId)
  | alreadyHeld
  deriving DecidableEq

inductive ResourceResult where
  | granted
  | blocked (owner : ProcessId)
  | alreadyHeld
  deriving DecidableEq

structure PriorityInheritance where
  lockOwners : Finmap fun _ : UInt32 => ProcessId
  originalPriorities : Finmap fun _ : ProcessId => Priority
  lockWaiters : Finmap fun _ : UInt32 => List ProcessId
  pendingBoosts : List PriorityBoost
  totalInheritances : UInt64

namespace PriorityInheritance

def new : PriorityInheritance where
  lockOwners := ∅
  originalPriorities := ∅
  lockWaiters := ∅
  pendingBoosts := []
  totalInheritances := 0

variable (s : PriorityInheritance) (lockId : UInt32)

/-- `original_priorities.entry(pid).or_insert(priority)`. -/
def recordPriority (pid : ProcessId) (priority : Priority) :
    PriorityInheritance :=
  if pid ∈ s.originalPriorities then s
  else { s with originalPriorities := s.originalPriorities.insert pid priority }

/-- The contention check that `acquire_lock` and `request_resource` share. -/
def boostOwner (owner : ProcessId) (requesterPriority : Priority)
    (reason : BoostReason) : PriorityInheritance :=
  let ownerPriority := (s.originalPriorities.lookup owner).getD .normal
  if ownerPriority < requesterPriority then
    let boost : PriorityBoost := ⟨owner,ownerPriority,requesterPriority,reason⟩
    let s := { s with pendingBoosts := s.pendingBoosts ++ [boost] }
    let s := s.recordPriority owner ownerPriority
    { s with totalInheritances := s.totalInheritances+1 }
  else s

/-- The requester is queued without a look at the queue. -/
def acquireLock (requester : ProcessId)
    (requesterPriority : Priority) : PriorityInheritance × LockResult :=
  match s.lockOwners.lookup lockId with
  | some owner =>
    if owner = requester then (s,.alreadyHeld)
    else
      let s := s.boostOwner owner requesterPriority .lockContention
      let waiters := (s.lockWaiters.lookup lockId).getD []
      ({ s with lockWaiters := s.lockWaiters.insert lockId (waiters ++ [requester]) },
        .blocked owner)
  | none =>
    let s := { s with lockOwners := s.lockOwners.insert lockId requester }
    (s.recordPriority requester requesterPriority,.acquired)

def restorePriority (pid : ProcessId) : PriorityInheritance × Option Priority :=
  ({ s with originalPriorities := s.originalPriorities.erase pid }, s.originalPriorities.lookup pid)

/-- The first waiter of a lock, if there is one, becomes its owner. -/
def grantNext : PriorityInheritance × Option ProcessId :=
  match s.lockWaiters.lookup lockId with
  | some (next::rest) =>
    ({ s with
      lockWaiters := s.lockWaiters.insert lockId rest
      lockOwners := s.lockOwners.insert lockId next },some next)
  | _ => (s,none)

def releaseLock (releaser : ProcessId) : PriorityInheritance × Option ProcessId :=
  match s.lockOwners.lookup lockId with
  | none => (s,none)
  | some owner =>
    if owner ≠ releaser then (s,none)
    else
      let s := { s with lockOwners := s.lockOwners.erase lockId }
      (s.restorePriority releaser).1.grantNext lockId

/-- A blocked request for a resource is not queued. -/
def requestResource (pid : ProcessId) (currentPriority : Priority)
    (resourceId : UInt32) : PriorityInheritance × ResourceResult :=
  match s.lockOwners.lookup resourceId with
  | some owner =>
    if owner = pid then (s,.alreadyHeld)
    else (s.boostOwner owner currentPriority .resourceWait,.blocked owner)
  | none =>
    let s := { s with lockOwners := s.lockOwners.insert resourceId pid }
    (s.recordPriority pid currentPriority,.granted)

def applyPendingBoosts : PriorityInheritance × List PriorityBoost :=
  ({ s with pendingBoosts := [] },s.pendingBoosts)

/-- One round of the loop of `release_all`. -/
def releaseOne : PriorityInheritance :=
  ({ s with lockOwners := s.lockOwners.erase lockId }.grantNext lockId).1

/-- `order` is the iteration order of `lock_owners`. -/
def releaseAll (order : List UInt32) (pid : ProcessId) : PriorityInheritance × List UInt32 :=
  let locks := order.filter fun lockId => s.lockOwners.lookup lockId = some pid
  ((locks.foldl releaseOne s).restorePriority pid |>.1,locks)

inductive Op where
  | acquireLock (lockId : UInt32) (requester : ProcessId) (requesterPriority : Priority)
  | requestResource (pid : ProcessId) (currentPriority : Priority) (resourceId : UInt32)
  | releaseLock (lockId : UInt32) (releaser : ProcessId)
  | releaseAll (order : List UInt32) (pid : ProcessId)
  | applyPendingBoosts
  | restorePriority (pid : ProcessId)

def step : Op → Option PriorityInheritance
  | .acquireLock lockId requester priority => some (s.acquireLock lockId requester priority).1
  | .requestResource pid priority resourceId => some (s.requestResource pid priority resourceId).1
  | .releaseLock lockId releaser => some (s.releaseLock lockId releaser).1
  | .releaseAll order pid =>
    if Finmap.Enumerates order s.lockOwners then some (s.releaseAll order pid).1 else none
  | .applyPendingBoosts => some s.applyPendingBoosts.1
  | .restorePriority pid => some (s.restorePriority pid).1

def ownerOf : Option ProcessId :=
  s.lockOwners.lookup lockId

def waitersOf : List ProcessId :=
  (s.lockWaiters.lookup lockId).getD []

end PriorityInheritance
end Aios.ProcessMgr
