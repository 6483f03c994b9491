import Aios.ProcessMgr.Scheduler

/-! Fault recovery, dispatching, thread supervision and process groups of the host
scheduler. -/
namespace Aios.ProcessMgr.Scheduler

variable (s : Scheduler) (pid : ProcessId)

def clearPanic : Scheduler :=
  { s with realThreads := s.realThreads.adjust pid (fun r => { r with panic := none }) }

/-- The first loop of `poll_faults`: take the message out of every filled slot. -/
def takePanics (s : Scheduler) : List ProcessId → Scheduler × List (ProcessId × String)
  | [] => (s,[])
  | pid::rest =>
    match (s.realThreads.lookup pid).bind RealThread.panic with
    | none => s.takePanics rest
    | some message =>
      let tail := (s.clearPanic pid).takePanics rest
      (tail.1,(pid,message)::tail.2)

/-- The report built for a panic; a process that is gone is reported as `unknown`. -/
def panicInfo (clk : Clock) (pid : ProcessId) (message : String) : FaultInfo :=
  match s.processes.lookup pid with
  | some process => faultFor process .panic message clk.wall
  | none => ⟨pid,"unknown",.panic,message,clk.wall⟩

/-- One round of the second loop of `poll_faults`. -/
def raiseFault (clk : Clock) (pid : ProcessId) (message : String) : Scheduler × FaultInfo :=
  let s := { s with realThreads := s.realThreads.erase pid }
  let info := s.panicInfo clk pid message
  let s := match s.processes.lookup pid with
    | none => s
    | some process =>
      let event : CrashEvent := ⟨pid,process.name,info.timestampMs,process.crashCount+1⟩
      { s.modifyProcess pid crash with crashLog := s.crashLog ++ [event] }
  ({ s with faultQueue := s.faultQueue ++ [info] },info)

def raiseFaults (s : Scheduler) (clk : Clock) :
    List (ProcessId × String) → Scheduler × List FaultInfo
  | [] => (s,[])
  | (pid,message)::rest =>
    let head := s.raiseFault clk pid message
    let tail := head.1.raiseFaults clk rest
    (tail.1,head.2::tail.2)

/-- `order` is the iteration order of `real_threads`. -/
def pollFaults (order : List ProcessId) (clk : Clock) : Scheduler × List FaultInfo :=
  let taken := s.takePanics order
  taken.1.raiseFaults clk taken.2

def hasPendingFault : Bool :=
  s.faultQueue.any (fun f => f.pid = pid)

def takeFaults : Scheduler × List FaultInfo :=
  ({ s with faultQueue := [] },s.faultQueue)

def resolveFault (action : RecoveryAction) : Scheduler × Except AIOSException Unit :=
  if s.hasPendingFault pid = false then (s,.error (.processNotFound pid))
  else
    let s := { s with faultQueue := s.faultQueue.filter (fun f => f.pid ≠ pid) }
    match action with
    | .terminate =>
      let r := s.killProcess pid
      (r.1,r.2.map fun _ => ())
    | .resume =>
      match s.processes.lookup pid with
      | none => (s,.error (.processNotFound pid))
      | some _ => (s.modifyProcess pid (setState .ready),.ok ())
    | .rollback =>
      match s.snapshots.lookup pid with
      | none => (s,.error (.processNotFound pid))
      | some snapshot =>
        match s.processes.lookup pid with
        | none => (s,.error (.processNotFound pid))
        | some _ =>
          (s.modifyProcess pid (fun p => setState .ready (snapshot.restoreTo p)),.ok ())

def priorityWeight : Priority → UInt32
  | .background => 1
  | .low => 2
  | .normal => 3
  | .high => 4
  | .critical => 5

/-- The queue read from its round-robin position onwards, wrapping at the end. -/
def scanQueue (rrPos : ℕ) (queue : List ProcessId) : List ProcessId :=
  (List.range queue.length).filterMap fun i => queue[(rrPos+i)%queue.length]?

/-- Everything the candidate loop looks at, from the highest queue to the lowest. -/
def scanOrder : List (Priority × ProcessId) :=
  [Priority.critical,.high,.normal,.low,.background].flatMap fun priority =>
    match s.priorityQueues.lookup priority with
    | none => []
    | some queue =>
      (scanQueue ((s.roundRobinPositions.lookup priority).getD 0) queue).map fun pid =>
        (priority,pid)

/-- The priority raised by waiting time; `none` is the panic on a zero aging threshold. -/
def effectivePriority (now : UInt64) (priority : Priority) (pid : ProcessId) :
    Option Priority :=
  match s.lastScheduledMs.lookup pid with
  | none => some priority
  | some lastMs =>
    if s.agingThresholdMs = 0 then none
    else
      let wait := satSub now lastMs
      let boost := (min (wait/s.agingThresholdMs) 4).toUInt8
      some (Priority.fromU8 (priority.toU8+boost))

/-- One round of the candidate loop. -/
def considerCandidate (now : UInt64) (skip : Option ProcessId)
    (candidate : Option (Priority × UInt32 × ProcessId)) (entry : Priority × ProcessId) :
    Option (Option (Priority × UInt32 × ProcessId)) :=
  if some entry.2 = skip then some candidate
  else
    match s.processes.lookup entry.2 with
    | none => some candidate
    | some proc =>
      if proc.state = .ready then
        (s.effectivePriority now entry.1 entry.2).map fun effective =>
          let weight := priorityWeight effective
          match candidate with
          | none => some (effective,weight,entry.2)
          | some best =>
            if best.1 < effective ∨ (effective = best.1 ∧ best.2.1 < weight) then
              some (effective,weight,entry.2)
            else some best
      else some candidate

def pickCandidate (now : UInt64) (skip : Option ProcessId) :
    Option (Option (Priority × UInt32 × ProcessId)) :=
  s.scanOrder.foldlM (s.considerCandidate now skip) none

/-- Move the round-robin position of the candidate's own queue behind the candidate. -/
def advanceRoundRobin : Scheduler :=
  match s.processes.lookup pid with
  | none => s
  | some proc =>
    match s.priorityQueues.lookup proc.priority with
    | none => s
    | some queue =>
      match queue.findIdx? (fun p => p = pid) with
      | none => s
      | some pos =>
        { s with roundRobinPositions :=
          s.roundRobinPositions.insert proc.priority ((pos+1)%queue.length) }

/-- Give the CPU to the chosen candidate. The final `unwrap` panics on a missing process. -/
def dispatch (clk : Clock) (pid : ProcessId) : Option Scheduler :=
  let s := match s.current with
    | some old => s.modifyProcess old (setState .ready)
    | none => s
  let s := s.advanceRoundRobin pid
  match s.processes.lookup pid with
  | none => none
  | some proc =>
    let timeSlice := s.defaultTimeSliceMs*(priorityWeight proc.priority).toUInt64
    some { s.modifyProcess pid (setState .running) with
      current := some pid
      timer := some (ProcessTimer.new clk.mono pid timeSlice) }

/-- The current process goes back among the ready ones but stays `current` for now. -/
def yieldCurrent (clk : Clock) : Scheduler :=
  match s.current with
  | none => s
  | some current =>
    { s.modifyProcess current (preempt (timerElapsed s.timer clk.mono)) with
      lastScheduledMs := s.lastScheduledMs.insert current clk.wall }

/-- The part of `schedule_next` after the early return, in normal mode. -/
def reschedule (clk : Clock) : Option (Scheduler × Option ProcessId) :=
  let s := s.yieldCurrent clk
  (s.pickCandidate clk.wall s.current).bind fun candidate =>
    match candidate with
    | some (_,_,pid) => (s.dispatch clk pid).map fun t => (t,some pid)
    | none => some ({ s with current := none, timer := none },none)

/-- The current process keeps the CPU while its timer runs. -/
def keepsCurrent (clk : Clock) : Bool :=
  s.current.isSome && (s.timer.map fun t => !t.quotaExceeded clk.mono).getD false

/-- `order` is the iteration order of `processes`, used in real-time mode only. -/
def scheduleNext (order : List ProcessId) (clk : Clock) : Option (Scheduler × Option ProcessId) :=
  if s.schedulingMode = .realTime then some (s.scheduleNextRt order clk)
  else if s.keepsCurrent clk then some (s,s.current)
  else s.reschedule clk

/-- The quota check at the start of `tick`. -/
def expire (clk : Clock) : Scheduler :=
  match s.timer with
  | none => s
  | some timer =>
    if timer.quotaExceeded clk.mono then
      match s.current with
      | none => s
      | some current =>
        { s.modifyProcess current (preempt (timer.elapsedMs clk.mono)) with
          current := none
          timer := none }
    else s

/-- The slice of the current process may end between the two readings of the clock. -/
def tick (order : List ProcessId) (clk later : Clock) : Option (Scheduler × Option ProcessId) :=
  (s.expire clk).scheduleNext order later

def registerMemoryPressureCallback (name : String) : Scheduler :=
  if name ∈ s.memoryPressureCallbacks then s
  else { s with memoryPressureCallbacks := s.memoryPressureCallbacks ++ [name] }

def createGroup (clk : Clock) (name : String) (priority : Priority) : Scheduler × ℕ :=
  let id := s.nextGroupId
  ({ s with
    nextGroupId := s.nextGroupId+1
    groups := s.groups.insert id (ProcessGroup.new id name priority clk.wall) },id)

def createSession (clk : Clock) (name : String) (priority : Priority) : Scheduler × ℕ :=
  let groupId := s.nextGroupId
  let group := { ProcessGroup.new groupId name priority clk.wall with sessionId := some groupId }
  ({ s with
    nextGroupId := s.nextGroupId+1
    groups := s.groups.insert groupId group },groupId)

def groupNotFound (groupId : ℕ) : AIOSException := .schedulerError s!"Group {groupId} not found"

/-- The member is listed before anyone looks whether the process exists. -/
def addToGroup (groupId : ℕ) : Scheduler × Except AIOSException Unit :=
  match s.groups.lookup groupId with
  | none => (s,.error (groupNotFound groupId))
  | some group =>
    let s := { s with groups := s.groups.insert groupId (group.addMember pid) }
    (s.modifyProcess pid (fun p => { p with groupId := some groupId }),.ok ())

def removeFromGroup : Scheduler × Except AIOSException Unit :=
  match (s.processes.lookup pid).bind Process.groupId with
  | none => (s,.error (.schedulerError s!"Process {pid} has no group"))
  | some groupId =>
    let s := { s with groups := s.groups.adjust groupId (fun g => g.removeMember pid) }
    (s.modifyProcess pid (fun p => { p with groupId := none }),.ok ())

/-- What `check_real_threads` does to the process of a finished thread. -/
def settle (p : Process) : Process :=
  if p.state = .running ∨ p.state = .ready then setState .ready p else p

/-- One round of the second loop of `check_real_threads`. -/
def reapThread : Scheduler :=
  { s.modifyProcess pid settle with realThreads := s.realThreads.erase pid }

def finishedThreads (order : List ProcessId) : List ProcessId :=
  order.filter fun pid => ((s.realThreads.lookup pid).map RealThread.finished).getD false

/-- `order` is the iteration order of `real_threads`. -/
def checkRealThreads (order : List ProcessId) : Scheduler × List ProcessId :=
  let finished := s.finishedThreads order
  (finished.foldl reapThread s,finished)

/-- The Linux limit on core indices. -/
def cpuSetSize : ℕ := 1024

def validateCores (cores : List ℕ) : Except AIOSException Unit :=
  if cores.isEmpty then .error (.schedulerError "CPU affinity requires at least one core")
  else
    match cores.find? (fun core => cpuSetSize ≤ core) with
    | some core =>
      .error (.schedulerError s!"Core index {core} exceeds maximum ({cpuSetSize})")
    | none => .ok ()

def setCpuAffinity (cores : List ℕ) : Scheduler × Except AIOSException Unit :=
  match validateCores cores with
  | .error e => (s,.error e)
  | .ok _ =>
    match s.realThreads.lookup pid with
    | none => (s,.error (.schedulerError s!"Process {pid} is not a real thread"))
    | some _ =>
      ({ s with realThreads := s.realThreads.adjust pid (fun r => { r with affinity := cores }) },
        .ok ())

/-- Members are killed one by one; failures (members that are gone) are ignored. -/
def killMembers (pids : List ProcessId) : Scheduler :=
  pids.foldl (fun s pid => (s.killProcess pid).1) s

def killGroup (groupId : ℕ) : Scheduler × Except AIOSException (List ProcessId) :=
  match s.groups.lookup groupId with
  | none => (s,.error (groupNotFound groupId))
  | some group =>
    let s := s.killMembers group.memberPids
    ({ s with groups := s.groups.erase groupId },.ok group.memberPids)

/-- One round of `suspend_group` and of `resume_group`: a member in one of the states
`from_` moves to `to_` and is reported. -/
def moveMember (from_ : List ProcessState) (to_ : ProcessState)
    (acc : Scheduler × List ProcessId) (pid : ProcessId) : Scheduler × List ProcessId :=
  match acc.1.processes.lookup pid with
  | none => acc
  | some proc =>
    if proc.state ∈ from_ then (acc.1.modifyProcess pid (setState to_),acc.2 ++ [pid]) else acc

def moveMembers (from_ : List ProcessState) (to_ : ProcessState) (s : Scheduler) (groupId : ℕ) :
    Scheduler × Except AIOSException (List ProcessId) :=
  match s.groups.lookup groupId with
  | none => (s,.error (groupNotFound groupId))
  | some group =>
    let r := group.memberPids.foldl (moveMember from_ to_) (s,[])
    (r.1,.ok r.2)

/-- Unlike `suspend_process`, this leaves `current` and `timer` alone. -/
def suspendGroup (groupId : ℕ) : Scheduler × Except AIOSException (List ProcessId) :=
  moveMembers [.running,.ready] .suspended s groupId

def resumeGroup (groupId : ℕ) : Scheduler × Except AIOSException (List ProcessId) :=
  moveMembers [.suspended] .ready s groupId

/-- Stops at the first member that is not a live process. -/
def setPriorities (priority : Priority) (s : Scheduler) :
    List ProcessId → Scheduler × Except AIOSException Unit
  | [] => (s,.ok ())
  | pid::rest =>
    match s.setPriority pid priority with
    | (s,.ok _) => setPriorities priority s rest
    | (s,.error e) => (s,.error e)

def setGroupPriority (groupId : ℕ) (priority : Priority) : Scheduler × Except AIOSException Unit :=
  match s.groups.lookup groupId with
  | none => (s,.error (groupNotFound groupId))
  | some group =>
    let s := { s with groups := s.groups.insert groupId { group with priority := priority } }
    setPriorities priority s group.memberPids

/-- The payload of a task panics and its thread stores the message in the slot. -/
def recordPanic (message : String) : Option Scheduler :=
  match s.realThreads.lookup pid with
  | none => none
  | some real =>
    if real.returned ∨ real.finished then none
    else some { s with realThreads :=
      s.realThreads.insert pid { real with returned := true, panic := some message } }

def finishThread : Option Scheduler :=
  match s.realThreads.lookup pid with
  | none => none
  | some real =>
    some { s with realThreads := s.realThreads.insert pid { real with finished := true } }

end Aios.ProcessMgr.Scheduler
