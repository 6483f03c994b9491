import Aios.Lib.FiniteMap
import Aios.ProcessMgr.Task

/-!
The host process scheduler. A public operation is a function from the scheduler before the call to
the one after it and the returned value; `none` stands for a panic. Code that iterates over a hash
map takes the order as an argument.
-/
namespace Aios.ProcessMgr

inductive SchedulingMode where
  | normal | realTime
  deriving DecidableEq

/-- An OS thread that runs a task. `returned` says that the payload has ended, with or without a
recorded panic, so that only the exit is left; `finished` is what `JoinHandle::is_finished`
reports. -/
structure RealThread where
  returned : Bool
  finished : Bool
  terminate : Bool
  suspend : Bool
  affinity : List ℕ
  panic : Option String
  deriving DecidableEq

structure JitterEntry where
  pid : ProcessId
  expectedMs : UInt64
  actualMs : UInt64
  timestamp : UInt64
  deriving DecidableEq

structure CrashEvent where
  pid : ProcessId
  name : String
  timestamp : UInt64
  crashCount : UInt32
  deriving DecidableEq

/-- The floating-point memory-pressure threshold is left out: no operation below reads it. -/
structure Scheduler where
  processes : Finmap fun _ : ProcessId => Process
  priorityQueues : Finmap fun _ : Priority => List ProcessId
  current : Option ProcessId
  timer : Option ProcessTimer
  nextPid : ℕ
  totalRamMb : UInt64
  usedRamMb : UInt64
  defaultTimeSliceMs : UInt64
  maxCrashRestarts : UInt32
  crashLog : List CrashEvent
  agingThresholdMs : UInt64
  lastScheduledMs : Finmap fun _ : ProcessId => UInt64
  roundRobinPositions : Finmap fun _ : Priority => ℕ
  memoryPressureCallbacks : List String
  groups : Finmap fun _ : ℕ => ProcessGroup
  nextGroupId : ℕ
  schedulingMode : SchedulingMode
  rtDeadlines : Finmap fun _ : ProcessId => UInt64
  jitterLog : List JitterEntry
  maxJitterEntries : ℕ
  realThreads : Finmap fun _ : ProcessId => RealThread
  faultQueue : List FaultInfo
  snapshots : Finmap fun _ : ProcessId => TaskSnapshot

def satSub (a b : UInt64) : UInt64 := if a < b then 0 else a-b

namespace Scheduler

def new (totalRamMb : UInt64) : Scheduler where
  processes := ∅
  priorityQueues := ∅
  current := none
  timer := none
  nextPid := 1
  totalRamMb := totalRamMb
  usedRamMb := 0
  defaultTimeSliceMs := 50
  maxCrashRestarts := 3
  crashLog := []
  agingThresholdMs := 500
  lastScheduledMs := ∅
  roundRobinPositions := ∅
  memoryPressureCallbacks := []
  groups := ∅
  nextGroupId := 1
  schedulingMode := .normal
  rtDeadlines := ∅
  jitterLog := []
  maxJitterEntries := 1000
  realThreads := ∅
  faultQueue := []
  snapshots := ∅

variable (s : Scheduler) (pid : ProcessId)

variable (clk : Clock) (ms : UInt64)

def withAgingThreshold : Scheduler :=
  { s with agingThresholdMs := ms }

def withTimeSlice : Scheduler := { s with defaultTimeSliceMs := ms }

def withMaxRestarts (max : UInt32) : Scheduler := { s with maxCrashRestarts := max }

/-- `processes.get_mut(&pid)` followed by an assignment through the reference. -/
def modifyProcess (f : Process → Process) : Scheduler :=
  { s with processes := s.processes.adjust pid f }

/-- What the preemption paths do to the process they take the CPU from. -/
def preempt (elapsed : UInt64) (p : Process) : Process :=
  { p with cpuTimeMs := p.cpuTimeMs+elapsed, state := .ready }

def setState (st : ProcessState) (p : Process) : Process := { p with state := st }

/-- `timer.as_ref().map(|t| t.elapsed_ms()).unwrap_or(0)`. -/
def timerElapsed (timer : Option ProcessTimer) (now : ℤ) : UInt64 :=
  (timer.map fun t => t.elapsedMs now).getD 0

def forcePreempt : Scheduler :=
  let timer := s.timer.map fun t => t.forceExpire clk.mono
  match s.current with
  | none => { s with timer := timer }
  | some current =>
    { s.modifyProcess current (preempt (timerElapsed timer clk.mono)) with
      lastScheduledMs := s.lastScheduledMs.insert current clk.wall
      current := none
      timer := none }

def setSchedulingMode (mode : SchedulingMode) : Scheduler :=
  { s with schedulingMode := mode }

def setRtDeadline (deadlineMs : UInt64) : Scheduler :=
  { s with rtDeadlines := s.rtDeadlines.insert pid deadlineMs }

def clearRtDeadline : Scheduler :=
  { s with rtDeadlines := s.rtDeadlines.erase pid }

def clearJitterLog : Scheduler := { s with jitterLog := [] }

def recordJitter (expectedMs actualMs now : UInt64) : Scheduler :=
  let log := s.jitterLog ++ [⟨pid,expectedMs,actualMs,now⟩]
  { s with jitterLog := if s.maxJitterEntries < log.length then log.tail else log }

/-- One round of the search loop of `schedule_next_rt`. -/
def rtBetter (now : UInt64) (best : Option (UInt64 × ProcessId))
    (pid : ProcessId) : Option (UInt64 × ProcessId) :=
  match s.processes.lookup pid with
  | none => best
  | some proc =>
    if proc.state ≠ .ready then best
    else
      let deadline := (s.rtDeadlines.lookup pid).getD 0xFFFFFFFFFFFFFFFF
      let remaining := satSub deadline now
      match best with
      | none => some (remaining,pid)
      | some b => if remaining < b.1 then some (remaining,pid) else some b

def rtBest (order : List ProcessId) (now : UInt64) : Option (UInt64 × ProcessId) :=
  order.foldl (s.rtBetter now) none

/-- The jitter entries written when `pid` is dispatched against its deadline. -/
def rtJitter (now : UInt64) : Scheduler :=
  match s.rtDeadlines.lookup pid with
  | none => s
  | some deadline =>
    let expected := s.defaultTimeSliceMs
    let actual := satSub now ((s.lastScheduledMs.lookup pid).getD now)
    let s := if expected < actual then s.recordJitter pid expected actual now else s
    if deadline ≤ now then s.recordJitter pid expected actual now else s

def scheduleNextRt (order : List ProcessId) (clk : Clock) : Scheduler × Option ProcessId :=
  match s.rtBest order clk.wall with
  | some (_,pid) =>
    let s := match s.current with
      | some old => if old ≠ pid then s.modifyProcess old (setState .ready) else s
      | none => s
    let s := s.modifyProcess pid (setState .running)
    let s := { s with
      current := some pid
      timer := some (ProcessTimer.new clk.mono pid s.defaultTimeSliceMs) }
    let s := s.rtJitter pid clk.wall
    ({ s with lastScheduledMs := s.lastScheduledMs.insert pid clk.wall },some pid)
  | none => ({ s with current := none, timer := none },none)

def setLastScheduled : Scheduler :=
  { s with lastScheduledMs := s.lastScheduledMs.insert pid ms }

/-- `priority_queues.entry(priority).or_default().push(pid)`. -/
def pushQueue (queues : Finmap fun _ : Priority => List ProcessId) (priority : Priority)
    (pid : ProcessId) : Finmap fun _ : Priority => List ProcessId :=
  queues.insert priority ((queues.lookup priority).getD [] ++ [pid])

/-- Retain everything but `pid` in one queue and drop the queue when that empties it. -/
def dropFromQueue (queues : Finmap fun _ : Priority => List ProcessId) (priority : Priority)
    (pid : ProcessId) : Finmap fun _ : Priority => List ProcessId :=
  match queues.lookup priority with
  | none => queues
  | some queue =>
    let queue := queue.filter (fun p => p ≠ pid)
    if queue.isEmpty then queues.erase priority else queues.insert priority queue

/-- The refusal text subtracts in 64 bits, as a release build does. -/
def insufficientRam (ramMb : UInt64) : AIOSException :=
  let available := s.totalRamMb-s.usedRamMb
  .schedulerError s!"Insufficient RAM: requested {ramMb}MB, available {available}MB"

/-- Table updates shared by the three spawn functions. -/
def enroll (process : Process) : Scheduler :=
  { s with
    processes := s.processes.insert process.pid process
    priorityQueues := pushQueue s.priorityQueues process.priority process.pid
    usedRamMb := s.usedRamMb+process.ramQuotaMb }

def spawnProcess (name : String) (priority : Priority)
    (ramMb : UInt64) : Scheduler × Except AIOSException ProcessId :=
  if s.totalRamMb < s.usedRamMb+ramMb then (s,.error (s.insufficientRam ramMb))
  else
    let pid := s.nextPid
    let s := { s with nextPid := s.nextPid+1 }
    let process := (Process.new pid name priority ramMb).withMaxRestarts s.maxCrashRestarts
    let s := s.enroll process
    ({ s with lastScheduledMs := s.lastScheduledMs.insert pid clk.wall },.ok pid)

/-- `os` is the answer of the operating system to the thread creation. -/
def spawnRealProcess (os : Except String Unit) (name : String)
    (priority : Priority) (ramMb : UInt64) : Scheduler × Except AIOSException ProcessId :=
  if s.totalRamMb < s.usedRamMb+ramMb then (s,.error (s.insufficientRam ramMb))
  else
    let pid := s.nextPid
    let s := { s with nextPid := s.nextPid+1 }
    match os with
    | .error e => (s,.error (.schedulerError s!"Failed to spawn thread: {e}"))
    | .ok _ =>
      let process := (Process.new pid name priority ramMb).withMaxRestarts s.maxCrashRestarts
      let s := { s with snapshots := s.snapshots.insert pid (TaskSnapshot.capture process) }
      let s := s.enroll process
      ({ s with
        lastScheduledMs := s.lastScheduledMs.insert pid clk.wall
        realThreads := s.realThreads.insert pid
          { returned := false, finished := false, terminate := false, suspend := false,
            affinity := [], panic := none } },.ok pid)

/-- A child gets no entry in `last_scheduled_ms`. -/
def spawnChild (parentPid : ProcessId) (name : String) (priority : Priority)
    (ramMb : UInt64) : Scheduler × Except AIOSException ProcessId :=
  if s.totalRamMb < s.usedRamMb+ramMb then (s,.error (s.insufficientRam ramMb))
  else
    let pid := s.nextPid
    let s := { s with nextPid := s.nextPid+1 }
    let process := ((Process.new pid name priority ramMb).withParent parentPid).withMaxRestarts
      s.maxCrashRestarts
    (s.enroll process,.ok pid)

/-- The thread entry, the snapshot and the pending faults go even when `pid` is unknown. -/
def killProcess : Scheduler × Except AIOSException Process :=
  let s := { s with
    realThreads := s.realThreads.erase pid
    snapshots := s.snapshots.erase pid
    faultQueue := s.faultQueue.filter (fun f => f.pid ≠ pid) }
  match s.processes.lookup pid with
  | none => (s,.error (.processNotFound pid))
  | some process =>
    let s := { s with
      processes := s.processes.erase pid
      usedRamMb := satSub s.usedRamMb process.ramQuotaMb
      priorityQueues := dropFromQueue s.priorityQueues process.priority pid }
    let s := if s.current = some pid then { s with current := none, timer := none } else s
    (s,.ok (setState .terminated process))

def setPriority (newPriority : Priority) : Scheduler × Except AIOSException Unit :=
  match s.processes.lookup pid with
  | none => (s,.error (.processNotFound pid))
  | some process =>
    let oldPriority := process.priority
    if oldPriority = newPriority then (s,.ok ())
    else
      let s := s.modifyProcess pid (fun p => { p with priority := newPriority })
      ({ s with priorityQueues :=
        pushQueue (dropFromQueue s.priorityQueues oldPriority pid) newPriority pid },.ok ())

def suspendProcess : Scheduler × Except AIOSException Unit :=
  match s.processes.lookup pid with
  | none => (s,.error (.processNotFound pid))
  | some _ =>
    let s := s.modifyProcess pid (setState .suspended)
    let s := if s.current = some pid then { s with current := none, timer := none } else s
    ({ s with realThreads := s.realThreads.adjust pid (fun r => { r with suspend := true }) },
      .ok ())

def resumeProcess : Scheduler × Except AIOSException Unit :=
  match s.processes.lookup pid with
  | none => (s,.error (.processNotFound pid))
  | some process =>
    let s := if process.state = .suspended then s.modifyProcess pid (setState .ready) else s
    ({ s with realThreads := s.realThreads.adjust pid (fun r => { r with suspend := false }) },
      .ok ())

/-- What a crash report does to the process: count it and freeze it. -/
def crash (p : Process) : Process := { p with crashCount := p.crashCount+1, state := .crashed }

def reportCrash (pid : ProcessId) : Scheduler × Except AIOSException CrashEvent :=
  match s.processes.lookup pid with
  | none => (s,.error (.processNotFound pid))
  | some process =>
    let event : CrashEvent := ⟨pid,process.name,clk.wall,process.crashCount+1⟩
    ({ s.modifyProcess pid crash with crashLog := s.crashLog ++ [event] },.ok event)

end Scheduler
end Aios.ProcessMgr
