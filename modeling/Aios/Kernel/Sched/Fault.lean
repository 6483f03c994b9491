import Aios.Kernel.Sched.Frame

/-!
The fault records of the kernel: the queue that awaits a decision, the feed of events, and the
history of decisions; lists here, oldest entry first.
-/
namespace Aios.Kernel.Sched

def maxFaultsPerTask : UInt8 := 3
def faultHistoryLen : ℕ := 8
def faultEventLen : ℕ := 16
def faultQueueLen : ℕ := maxTasks

inductive FaultCode where
  | divideError
  | invalidOpcode
  | generalProtection
  | pageFault
  | hang
  deriving DecidableEq

structure FaultRecord where
  snapshot : TaskSnapshot
  kind : FaultCode
  count : UInt8

inductive Recovery where
  | resume
  | terminate
  | rollback
  deriving DecidableEq

structure FaultEvent where
  pid : Fin maxTasks
  kind : FaultCode
  count : UInt8
  rip : UInt64
  deriving DecidableEq

structure Faults where
  pending : Bool
  queue : List FaultRecord
  crashCounts : Fin maxTasks → UInt8
  history : List FaultRecord
  total : UInt64
  resolutions : Recovery → UInt64
  events : List FaultEvent

def FaultRecord.pid (r : FaultRecord) : Fin maxTasks := r.snapshot.pid

def FaultRecord.overBudget (r : FaultRecord) : Bool := maxFaultsPerTask < r.count

namespace Faults

def init : Faults where
  pending := false
  queue := []
  crashCounts := fun _ => 0
  history := []
  total := 0
  resolutions := fun _ => 0
  events := []

variable (F : Faults)

def pids : List (Fin maxTasks) := F.queue.map FaultRecord.pid

/-- A full feed loses its oldest event. -/
def postEvent (e : FaultEvent) : Faults :=
  if faultEventLen ≤ F.events.length then { F with events := F.events.drop 1 ++ [e] }
  else { F with events := F.events ++ [e] }

def pollEvent : Faults := { F with events := F.events.drop 1 }

/-- A full queue loses the new record. -/
def enqueue (r : FaultRecord) : Faults :=
  if faultQueueLen ≤ F.queue.length then F
  else { F with queue := F.queue ++ [r], pending := true }

def publish (kind : FaultCode) (s : TaskSnapshot) : Faults :=
  let count := if F.crashCounts s.pid = 255 then 255 else F.crashCounts s.pid+1
  let F := { F with crashCounts := Function.update F.crashCounts s.pid count }
  (F.postEvent ⟨s.pid,kind,count,s.regs .rip⟩).enqueue ⟨s,kind,count⟩

def popFront : Faults :=
  match F.queue with
  | [] => F
  | _::queue => { F with queue := queue, pending := if queue.isEmpty then false else F.pending }

def archive (r : FaultRecord) (action : Recovery) : Faults :=
  { F with
    history := (F.history ++ [r]).drop (F.history.length+1-faultHistoryLen)
    total := F.total+1
    resolutions := Function.update F.resolutions action (F.resolutions action+1) }

def clearCount (pid : Fin maxTasks) : Faults :=
  { F with crashCounts := Function.update F.crashCounts pid 0 }

section
variable {F} {kind : FaultCode} {s : TaskSnapshot}

theorem publish_queue (kind : FaultCode) (s : TaskSnapshot) (h : F.queue.length < faultQueueLen) :
    (∃ r, r.pid = s.pid ∧ (F.publish kind s).queue = F.queue ++ [r]) ∧
      (F.publish kind s).pending = true := by
  have hpost (F : Faults) (e : FaultEvent) : (F.postEvent e).queue = F.queue := by
    unfold postEvent
    split <;> rfl
  have hfits : ¬ faultQueueLen ≤ F.queue.length := Nat.not_le.mpr h
  unfold publish enqueue
  simp only [hpost,hfits,if_false]
  exact ⟨⟨_,rfl,rfl⟩,trivial⟩

end
end Faults
end Aios.Kernel.Sched
