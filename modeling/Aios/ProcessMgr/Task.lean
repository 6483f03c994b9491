import Mathlib.Data.Finmap

/-! Tasks of the host process manager: processes, groups, timers, fault reports and the snapshots
used by rollback recovery. -/
namespace Aios.ProcessMgr

/-- Process identifiers are handed out by a counter, which is modelled without a bound. -/
abbrev ProcessId := ℕ

inductive Priority where
  | background | low | normal | high | critical
  deriving DecidableEq

namespace Priority

def toU8 : Priority → UInt8
  | background => 0
  | low => 1
  | normal => 2
  | high => 3
  | critical => 4

def fromU8 (v : UInt8) : Priority :=
  if v = 0 then background else if v = 1 then low else if v = 2 then normal
  else if v = 3 then high else critical

/-- The derived order compares discriminants. -/
instance : LT Priority := ⟨fun a b => a.toU8 < b.toU8⟩

instance (a b : Priority) : Decidable (a < b) := inferInstanceAs (Decidable (a.toU8 < b.toU8))

end Priority

inductive ProcessState where
  | ready | running | suspended | terminated | crashed
  deriving DecidableEq

structure Process where
  pid : ProcessId
  name : String
  priority : Priority
  state : ProcessState
  ramQuotaMb : UInt64
  cpuTimeMs : UInt64
  blockId : Option UInt32
  parentPid : Option ProcessId
  groupId : Option ℕ
  crashCount : UInt32
  maxRestarts : UInt32
  deriving DecidableEq

namespace Process

def new (pid : ProcessId) (name : String) (priority : Priority) (ramMb : UInt64) : Process where
  pid := pid
  name := name
  priority := priority
  state := .ready
  ramQuotaMb := ramMb
  cpuTimeMs := 0
  blockId := none
  parentPid := none
  groupId := none
  crashCount := 0
  maxRestarts := 3

def withParent (p : Process) (parent : ProcessId) : Process := { p with parentPid := some parent }

def withMaxRestarts (p : Process) (max : UInt32) : Process := { p with maxRestarts := max }

end Process

structure ProcessGroup where
  id : ℕ
  name : String
  priority : Priority
  memberPids : List ProcessId
  createdAtMs : UInt64
  sessionId : Option ℕ
  deriving DecidableEq

namespace ProcessGroup

def new (id : ℕ) (name : String) (priority : Priority) (now : UInt64) : ProcessGroup where
  id := id
  name := name
  priority := priority
  memberPids := []
  createdAtMs := now
  sessionId := none

def addMember (g : ProcessGroup) (pid : ProcessId) : ProcessGroup :=
  if pid ∈ g.memberPids then g else { g with memberPids := g.memberPids ++ [pid] }

def removeMember (g : ProcessGroup) (pid : ProcessId) : ProcessGroup :=
  { g with memberPids := g.memberPids.filter (fun p => p ≠ pid) }

end ProcessGroup

/-- The clocks: wall-clock milliseconds (`now_ms`) and the monotonic clock (`Instant::now`) in
nanoseconds. The readings of one `schedule_next` are taken to be the same; a `tick` reads the
monotonic clock before it calls it. -/
structure Clock where
  wall : UInt64
  mono : ℤ
  deriving DecidableEq

structure ProcessTimer where
  pid : ProcessId
  started : ℤ
  quotaMs : UInt64
  deriving DecidableEq

namespace ProcessTimer

def new (now : ℤ) (pid : ProcessId) (quotaMs : UInt64) : ProcessTimer := ⟨pid,now,quotaMs⟩

/-- Elapsed whole milliseconds, truncated to 64 bits; an instant in the future counts as zero. -/
def elapsedMs (t : ProcessTimer) (now : ℤ) : UInt64 :=
  UInt64.ofNat ((now-t.started).toNat/1000000)

def quotaExceeded (t : ProcessTimer) (now : ℤ) : Bool := decide (t.quotaMs ≤ t.elapsedMs now)

def forceExpire (t : ProcessTimer) (now : ℤ) : ProcessTimer :=
  { t with started := now-((t.quotaMs+1).toNat*1000000 : ℕ) }

end ProcessTimer

inductive RecoveryAction where
  | rollback | terminate | resume
  deriving DecidableEq

inductive FaultKind where
  | panic | hang | taskFault
  deriving DecidableEq

structure FaultInfo where
  pid : ProcessId
  name : String
  kind : FaultKind
  message : String
  timestampMs : UInt64
  deriving DecidableEq

inductive AIOSException where
  | schedulerError (message : String)
  | processNotFound (pid : ProcessId)
  deriving DecidableEq

structure TaskSnapshot where
  pid : ProcessId
  name : String
  priority : Priority
  ramQuotaMb : UInt64
  blockId : Option UInt32
  crashCount : UInt32
  deriving DecidableEq

namespace TaskSnapshot

def capture (p : Process) : TaskSnapshot where
  pid := p.pid
  name := p.name
  priority := p.priority
  ramQuotaMb := p.ramQuotaMb
  blockId := p.blockId
  crashCount := p.crashCount

def restoreTo (snap : TaskSnapshot) (p : Process) : Process :=
  { p with
    priority := snap.priority
    ramQuotaMb := snap.ramQuotaMb
    blockId := snap.blockId
    crashCount := snap.crashCount }

end TaskSnapshot

def faultFor (p : Process) (kind : FaultKind) (message : String) (now : UInt64) : FaultInfo :=
  ⟨p.pid,p.name,kind,message,now⟩

end Aios.ProcessMgr
