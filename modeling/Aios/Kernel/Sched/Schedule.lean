import Aios.Kernel.Sched.Fault

/-!
The scheduler: the table of tasks, the hang watchdog, the choice of the next task, and how faults
freeze tasks and decisions release them.
-/
namespace Aios.Kernel.Sched

open Function

def timerHz : UInt64 := 100
def switchDivider : UInt64 := timerHz/4
def hangWatchdogTicks : UInt64 := 10*timerHz
def apicTimerVector : UInt64 := 0x90
def sysSleep : UInt64 := 5
def sysFaultPoll : UInt64 := 8

/-- `u64::MAX`: the deadline of a frozen task. -/
def never : UInt64 := 0xFFFFFFFFFFFFFFFF

structure Task where
  present : Bool
  validFrame : Bool
  sleepUntil : UInt64
  frame : InterruptFrame

def Task.empty : Task := ⟨false,false,0,.zero⟩

/-- The statics of the scheduler with the tick count; `current` is `none` for -1. -/
structure Machine where
  tasks : Fin maxTasks → Task
  current : Option (Fin maxTasks)
  bootActive : Bool
  ticks : UInt64
  lastSwitchTick : UInt64
  switchCount : UInt64
  stallSince : Fin maxTasks → UInt64
  stallRip : Fin maxTasks → UInt64
  lastActivity : Fin maxTasks → UInt64
  faults : Faults

/-- What an interrupt leads to: the tasks that were frozen, and the slot and frame with which the
CPU goes on if it does not return. -/
structure Outcome where
  machine : Machine
  frozen : List (Fin maxTasks)
  resumed : Option (Fin maxTasks × InterruptFrame)

namespace Machine

/-- After `init`; the timer may have been running before. -/
def init (ticks : UInt64) : Machine where
  tasks := update (fun _ => Task.empty) 0 { Task.empty with present := true }
  current := some 0
  bootActive := true
  ticks := ticks
  lastSwitchTick := 0
  switchCount := 0
  stallSince := fun _ => 0
  stallRip := fun _ => 0
  lastActivity := fun _ => 0
  faults := .init

variable (k : Machine)

section

def setTask (i : Fin maxTasks) (t : Task) : Machine :=
  { k with tasks := update k.tasks i t }

def resetStall (i : Fin maxTasks) (now : UInt64) : Machine :=
  { k with
    stallSince := update k.stallSince i now
    stallRip := update k.stallRip i 0
    lastActivity := update k.lastActivity i now }

variable (pid : Fin maxTasks)

def noteActivity : Machine :=
  if pid = 0 then k
  else { k with lastActivity := update k.lastActivity pid k.ticks }

/-- The registration of a task, in the first free slot after the idle one. -/
def spawnWith (values : List (Field × UInt64)) : Machine :=
  match (List.finRange maxTasks).find? fun i => i ≠ 0 ∧ (k.tasks i).present = false with
  | none => k
  | some i =>
    (k.setTask i { k.tasks i with
      frame := (k.tasks i).frame.fill values, present := true, validFrame := true }).resetStall i
      k.ticks

def spawnKernel (entry stackTop : UInt64) : Machine :=
  k.spawnWith [(.rip,entry),(.cs,0x08),(.ss,0x10),(.ds,0x10),(.rsp,stackTop),(.rflags,0x202)]

def spawnUser (entry stackTop arg1 arg2 : UInt64) : Machine :=
  k.spawnWith [(.rip,entry),(.cs,userCs),(.ss,userDs),(.ds,userDs),(.rsp,stackTop),
    (.rflags,0x202),(.rdi,arg1),(.rsi,arg2)]

/-- The end of boot: slot 0 enters the idle loop afresh. -/
def bootFinished (entry idleTop : UInt64) : Machine :=
  let t := k.tasks 0
  { k.setTask 0 { t with
      present := true
      validFrame := true
      frame := t.frame.fill [(.rip,entry),(.cs,0x08),(.ss,0x10),(.ds,0x10),(.rsp,idleTop),
        (.rflags,0x202)] } with
    current := none
    bootActive := false }

def freezeTask : Machine :=
  if pid = 0 ∨ (k.tasks pid).present = false then k
  else k.setTask pid { k.tasks pid with sleepUntil := never }

def unfreezeTask : Machine :=
  if pid = 0 ∨ (k.tasks pid).present = false then k
  else (k.setTask pid { k.tasks pid with sleepUntil := 0 }).resetStall pid k.ticks

def removeTask : Machine :=
  if pid = 0 ∨ (k.tasks pid).present = false then k
  else
    let k' := (k.setTask pid { k.tasks pid with
      present := false, validFrame := false, sleepUntil := 0 }).resetStall pid 0
    { k' with current := if k.current = some pid then none else k.current }

def restoreTask (s : TaskSnapshot) : Machine :=
  if pid = 0 ∨ (k.tasks pid).present = false then k
  else
    let frame : InterruptFrame := fun f =>
      if f ∈ TaskSnapshot.captured then s.regs f else (k.tasks pid).frame f
    (k.setTask pid { k.tasks pid with
      frame := frame, validFrame := true, sleepUntil := 0 }).resetStall pid k.ticks

def taskSnapshot : Option TaskSnapshot :=
  if pid = 0 ∨ (k.tasks pid).present = false then none
  else some (.capture pid (k.tasks pid).frame)

end

/-- When a slot last moved its `rip` or made a call, seen from `rip`. -/
def progress (c : Fin maxTasks) (rip : UInt64) : UInt64 :=
  let since := if k.stallRip c ≠ rip then k.ticks else k.stallSince c
  if since < k.lastActivity c then k.lastActivity c else since

/-- The watchdog would fire for a task at `rip`. -/
def hangDue (c : Fin maxTasks) (rip : UInt64) : Bool :=
  hangWatchdogTicks ≤ k.ticks-k.progress c rip

def recordHang (s : TaskSnapshot) : Machine :=
  freezeTask { k with faults := k.faults.publish .hang s } s.pid

/-- The watchdog, for the current task with its frame refreshed. -/
def watchdog (c : Fin maxTasks) : Machine × List (Fin maxTasks) :=
  let rip := (k.tasks c).frame .rip
  let k' := { k with
    stallRip := update k.stallRip c rip
    stallSince := update k.stallSince c (k.progress c rip) }
  if k.hangDue c rip then
    let k'' := k'.recordHang (.capture c (k.tasks c).frame)
    ({ k'' with stallSince := update k''.stallSince c k.ticks },[c])
  else (k',[])

section
variable (critical : Bool) (frame : InterruptFrame)

/-- The first part of `schedule`: what is kept of the outgoing task. -/
def saveCurrent : Machine × List (Fin maxTasks) :=
  match k.current with
  | none => (k,[])
  | some c =>
    if (k.tasks c).validFrame = false then
      (k.setTask c { k.tasks c with frame := frame, validFrame := true },[])
    else if (k.tasks c).present then
      let k := k.setTask c { k.tasks c with frame := refresh (k.tasks c).frame frame }
      if frame .cs = userCs then k.watchdog c else (k,[])
    else (k,[])

/-- The slots in the order in which the rotation looks at them. -/
def rotation (cur : Option (Fin maxTasks)) : List (Fin maxTasks) :=
  (List.finRange maxTasks).map fun step =>
    match cur with
    | none => step
    | some c => c+step+1

/-- The choice of the next slot; a sleeper whose time has come is woken on the way, also if
it is too hot for it to run. -/
def select (critical : Bool) (ticks : UInt64) (cur : Option (Fin maxTasks)) :
    List (Fin maxTasks) → (Fin maxTasks → Task) → (Fin maxTasks → Task) × Option (Fin maxTasks)
  | [], tasks => (tasks,none)
  | c::cs, tasks =>
    if (tasks c).present = false ∨ some c = cur then select critical ticks cur cs tasks
    else if ticks < (tasks c).sleepUntil then select critical ticks cur cs tasks
    else
      let tasks := update tasks c { tasks c with sleepUntil := 0 }
      if critical = true ∧ (tasks c).frame .cs = userCs then select critical ticks cur cs tasks
      else (tasks,some c)

def rotate : Machine × Option (Fin maxTasks × InterruptFrame) :=
  let r := select critical k.ticks k.current (rotation k.current) k.tasks
  match r.2 with
  | none => ({ k with tasks := r.1 },none)
  | some n =>
    ({ k with tasks := r.1, current := some n, switchCount := k.switchCount+1 },
      some (n,(r.1 n).frame))

def hwTick : Bool :=
  32 ≤ frame .vector ∧ frame .vector ≤ 47 ∨ frame .vector = apicTimerVector

def schedule : Outcome :=
  if k.current = some 0 ∧ k.bootActive = true then ⟨k,[],none⟩
  else if hwTick frame = true ∧ frame .cs = kernelCs ∧ k.current ≠ none then ⟨k,[],none⟩
  else
    let r := k.saveCurrent frame
    let r' := r.1.rotate critical
    ⟨r'.1,r.2,r'.2⟩

def tick (critical : Bool) (frame : InterruptFrame) : Outcome :=
  if k.ticks-k.lastSwitchTick < switchDivider then ⟨k,[],none⟩
  else schedule { k with lastSwitchTick := k.ticks } critical frame

/-- The end of a sleep, at least one tick from now. -/
def wakeTime (ticks : UInt64) : UInt64 :=
  if k.ticks.toNat+(max ticks 1).toNat < 2^64 then k.ticks+max ticks 1 else never

def sleepCurrent (ticks : UInt64) : Outcome :=
  match k.current with
  | none => k.schedule critical frame
  | some c =>
    if c ≠ 0 ∧ (k.tasks c).present = true then
      (k.setTask c { k.tasks c with sleepUntil := k.wakeTime ticks }).schedule critical frame
    else k.schedule critical frame

end

section

def currentPid : Fin maxTasks := k.current.getD 0

variable (critical : Bool) (frame : InterruptFrame)

/-- `intercept` for an exception in user mode. -/
def intercept (kind : FaultCode) : Outcome :=
  let pid := k.currentPid
  let k := freezeTask { k with faults := k.faults.publish kind (.capture pid frame) } pid
  let r := k.schedule critical frame
  ⟨r.machine,pid::r.frozen,r.resumed⟩

/-- What a system call does to the scheduler and to the feed of fault events. -/
def syscall : Outcome :=
  let k := k.noteActivity k.currentPid
  if frame .rax = sysSleep then
    k.sleepCurrent critical (update frame .rax 0) (frame .rdi)
  else if frame .rax = sysFaultPoll then ⟨{ k with faults := k.faults.pollEvent },[],none⟩
  else ⟨k,[],none⟩

/-- The exceptions that a user task survives. -/
def faultCode (vector : UInt64) : Option FaultCode :=
  if vector = 0 then some .divideError
  else if vector = 6 then some .invalidOpcode
  else if vector = 13 then some .generalProtection
  else if vector = 14 then some .pageFault
  else none

/-- The dispatch of an interrupt; `none` is the halt on a fault of the kernel itself or on a
vector without a handler. -/
def handleInterrupt : Option Outcome :=
  match faultCode (frame .vector) with
  | some kind =>
    if frame .cs = kernelCs then none else some (k.intercept critical frame kind)
  | none =>
    if frame .vector = 32 ∨ frame .vector = apicTimerVector then
      some (tick { k with ticks := k.ticks+1 } critical frame)
    else if 33 ≤ frame .vector ∧ frame .vector ≤ 47 then some ⟨k,[],none⟩
    else if frame .vector = 128 then some (k.syscall critical frame)
    else if frame .vector = 250 then some (k.schedule critical frame)
    else none

end

/-- The frozen task still has the frame of its record. -/
def intact (r : FaultRecord) : Bool :=
  match k.taskSnapshot r.pid with
  | none => false
  | some live => live.verify ∧ live.stateHash = r.snapshot.stateHash

def terminate (pid : Fin maxTasks) : Machine :=
  let k := k.removeTask pid
  { k with faults := k.faults.clearCount pid }

def recover (r : FaultRecord) : Recovery → Machine
  | .resume => if k.intact r then k.unfreezeTask r.pid else k.terminate r.pid
  | .terminate => k.terminate r.pid
  | .rollback => k.restoreTask r.pid r.snapshot

/-- The dialog's decision on the oldest record. -/
def resolve (action : Recovery) : Machine :=
  match k.faults.queue with
  | [] => k
  | r::_ =>
    if action ≠ .terminate ∧ r.overBudget = true then k
    else
      let k := k.recover r action
      { k with faults := (k.faults.archive r action).popFront }

end Machine

/-- What happens to the machine: an interrupt, with the frame that it pushes and whether the package
is too hot, or an action of the kernel. -/
inductive Event where
  | interrupt (frame : InterruptFrame) (critical : Bool)
  | resolve (action : Recovery)
  | spawnKernel (entry stackTop : UInt64)
  | spawnUser (entry stackTop arg1 arg2 : UInt64)
  | bootFinished (entry idleTop : UInt64)

/-- An interrupt in a cool package, with some fields of its frame. -/
def Event.trap (vector cs rip : UInt64) (values : List (Field × UInt64)) : Event :=
  .interrupt (InterruptFrame.zero.fill ([(.vector,vector),(.cs,cs),(.rip,rip)] ++ values)) false

namespace Machine

variable (k : Machine)

/-- The code segment of what runs: the boot context and slot 0 are the kernel's, a task has
the one it was entered with. -/
def contextCs : UInt64 :=
  match k.current with
  | none => kernelCs
  | some c => if c = 0 then kernelCs else (k.tasks c).frame .cs

/-- An interrupt pushes the code segment of what runs. The dialog decides in the idle context;
kernel code registers tasks. -/
def respond : Event → Option Outcome
  | .interrupt frame critical =>
    if frame .cs = k.contextCs then k.handleInterrupt critical frame else none
  | .resolve action => if k.current = some 0 then some ⟨k.resolve action,[],none⟩ else none
  | .spawnKernel entry stackTop =>
    if k.contextCs = kernelCs then some ⟨k.spawnKernel entry stackTop,[],none⟩ else none
  | .spawnUser entry stackTop arg1 arg2 =>
    if k.contextCs = kernelCs then some ⟨k.spawnUser entry stackTop arg1 arg2,[],none⟩ else none
  | .bootFinished entry idleTop =>
    if k.bootActive = true then some ⟨k.bootFinished entry idleTop,[],none⟩ else none

end Machine
end Aios.Kernel.Sched
