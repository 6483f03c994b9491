import Aios.ProcessMgr.Lifecycle

/-!
The scheduler seen as a CPU: the state of every process, which one is dispatched and whose timer
runs. Each operation relabels processes, takes the CPU, gives it, or removes a process; every case
is described once, in the state before.
-/
namespace Aios.ProcessMgr

open List Option Finmap
variable {pids : List ProcessId} {process : Process} {op : Op} {r : Scheduler × Option ProcessId}

namespace Scheduler

variable {s t u : Scheduler} {pid : ProcessId} {order : List ProcessId} {from_ : List ProcessState}
  {to_ : ProcessState} {clk : Clock} {f : Process → Process}

def stateOf (s : Scheduler) (pid : ProcessId) : Option ProcessState :=
  (s.processes.lookup pid).map Process.state

def timedPid (s : Scheduler) : Option ProcessId := s.timer.map ProcessTimer.pid

/-- The message waiting in the panic slot of a real thread. -/
def panicOf (s : Scheduler) (pid : ProcessId) : Option String :=
  (s.realThreads.lookup pid).bind RealThread.panic

def threadFinished (s : Scheduler) (pid : ProcessId) : Bool :=
  ((s.realThreads.lookup pid).map RealThread.finished).getD false

def membersOf (s : Scheduler) (groupId : ℕ) : List ProcessId :=
  ((s.groups.lookup groupId).map ProcessGroup.memberPids).getD []

theorem stateOf_eq_none : s.stateOf pid = none ↔ pid ∉ s.processes := by
  rw [stateOf,map_eq_none_iff,lookup_eq_none]

theorem mem_of_stateOf {st : ProcessState} (h : s.stateOf pid = some st) : pid ∈ s.processes := by
  by_contra hnot
  rw [stateOf_eq_none.mpr hnot] at h
  cases h

theorem stateOf_congr (h : t.processes = s.processes) (pid : ProcessId) :
    t.stateOf pid = s.stateOf pid := by rw [stateOf,h,stateOf]

theorem stateOf_modifyProcess {g : ProcessState → ProcessState}
    (hf : ∀ p, (f p).state = g p.state) (s : Scheduler) (pid j : ProcessId) :
    (s.modifyProcess pid f).stateOf j = if j = pid then (s.stateOf j).map g else s.stateOf j := by
  unfold stateOf modifyProcess
  rw [lookup_adjust]
  split
  · simp only [Option.map_map,Function.comp_def,hf]
  · rfl

theorem stateOf_modify_other (s : Scheduler) (pid : ProcessId)
    (hf : ∀ p, (f p).state = p.state) (j : ProcessId) :
    (s.modifyProcess pid f).stateOf j = s.stateOf j :=
  map_lookup_adjust hf j

structure Relabels (s t : Scheduler) (f : ProcessId → ProcessState → ProcessState) : Prop where
  state : ∀ pid, t.stateOf pid = (s.stateOf pid).map (f pid)
  current : t.current = s.current
  timer : t.timedPid = s.timedPid

/-- Relabel only the processes of a list. -/
def only (pids : List ProcessId) (g : ProcessState → ProcessState) (pid : ProcessId)
    (st : ProcessState) : ProcessState :=
  if pid ∈ pids then g st else st

theorem only_of_mem (h : pid ∈ pids) (g : ProcessState → ProcessState) : only pids g pid = g := by
  funext st
  exact if_pos h

theorem only_of_not_mem (h : pid ∉ pids) (g : ProcessState → ProcessState) :
    only pids g pid = id := by
  funext st
  exact if_neg h

namespace Relabels

variable {f : ProcessId → ProcessState → ProcessState} {g : ProcessState → ProcessState}

theorem of_state (h : ∀ pid, t.stateOf pid = s.stateOf pid) (hc : t.current = s.current)
    (ht : t.timedPid = s.timedPid) : Relabels s t fun _ st => st :=
  ⟨fun pid => by simp [h pid],hc,ht⟩

theorem of_eq (hp : t.processes = s.processes) (hc : t.current = s.current)
    (ht : t.timedPid = s.timedPid) : Relabels s t fun _ st => st :=
  of_state (stateOf_congr hp) hc ht

theorem congr (h : Relabels s t f) (hp : u.processes = t.processes) (hc : u.current = t.current)
    (ht : u.timedPid = t.timedPid) : Relabels s u f :=
  ⟨fun pid => (stateOf_congr hp pid).trans (h.state pid),hc.trans h.current,ht.trans h.timer⟩

theorem after {h' : ProcessId → ProcessState → ProcessState} (hp : t.processes = s.processes)
    (hc : t.current = s.current) (ht : t.timedPid = s.timedPid) (h : Relabels t u h') :
    Relabels s u h' :=
  ⟨fun pid => by rw [h.state,stateOf_congr hp],h.current.trans hc,h.timer.trans ht⟩

theorem eq_fun {f' : ProcessId → ProcessState → ProcessState} (h : Relabels s t f)
    (he : ∀ pid st, f' pid st = f pid st) : Relabels s t f' := by
  have hf : f' = f := funext fun pid => funext (he pid)
  rwa [hf]

theorem modify (s : Scheduler) (pid : ProcessId) {f : Process → Process}
    (hf : ∀ p, (f p).state = g p.state) : Relabels s (s.modifyProcess pid f) (only [pid] g) := by
  refine ⟨fun j => ?_,rfl,rfl⟩
  rw [stateOf_modifyProcess hf]
  split
  next hj => rw [only_of_mem (by simp [hj])]
  next hj => rw [only_of_not_mem (by simp [hj]),Option.map_id,id]

theorem cons (hg : ∀ st, g (g st) = g st) (h : Relabels s t (only [pid] g))
    (k : Relabels t u (only pids g)) : Relabels s u (only (pid::pids) g) := by
  refine ⟨fun j => ?_,k.current.trans h.current,k.timer.trans h.timer⟩
  rw [k.state,h.state,Option.map_map]
  congr 1
  funext st
  by_cases hj : j = pid <;> simp [only,hj,hg]

theorem congr_at {g' : ProcessState → ProcessState} (h : Relabels s t (only [pid] g))
    (he : ∀ st, s.stateOf pid = some st → g' st = g st) : Relabels s t (only [pid] g') := by
  refine ⟨fun j => ?_,h.current,h.timer⟩
  rw [h.state]
  by_cases hj : j = pid
  · subst hj
    rw [only_of_mem (by simp),only_of_mem (by simp)]
    cases hst : s.stateOf j with
    | none => rfl
    | some st => simp [he st hst]
  · rw [only_of_not_mem (by simp [hj]),only_of_not_mem (by simp [hj])]

theorem nil (s : Scheduler) : Relabels s s (only [] g) :=
  ⟨fun _ => by rw [only_of_not_mem not_mem_nil,Option.map_id,id],rfl,rfl⟩

theorem foldl {β : Type*} (proj : β → Scheduler) (step : β → ProcessId → β)
    (hg : ∀ st, g (g st) = g st)
    (hstep : ∀ b pid, Relabels (proj b) (proj (step b pid)) (only [pid] g))
    (pids : List ProcessId) (b : β) :
    Relabels (proj b) (proj (pids.foldl step b)) (only pids g) := by
  induction pids generalizing b with
  | nil => exact nil _
  | cons pid pids ih => exact cons hg (hstep b pid) (ih _)

theorem same (h : ∀ st, s.stateOf pid = some st → g st = st) : Relabels s s (only [pid] g) :=
  ((of_eq rfl rfl rfl).eq_fun fun _ _ => ite_self _).congr_at (g := id) h

theorem absent (h : s.processes.lookup pid = none) : Relabels s s (only [pid] g) :=
  same fun st hst => by simp [stateOf,h] at hst

end Relabels

open Relabels

/-- What a finished thread does to the state of its process. -/
def settleState (st : ProcessState) : ProcessState :=
  if st = .running ∨ st = .ready then .ready else st

/-- What a group operation does to the state of a member. -/
def moveState (from_ : List ProcessState) (to_ st : ProcessState) : ProcessState :=
  if st ∈ from_ then to_ else st

def crashes (s : Scheduler) : Op → ProcessId → Bool
  | .reportCrash _ p, pid => pid = p
  | .pollFaults _ _, pid => (s.panicOf pid).isSome
  | _, _ => false

def recovers (s : Scheduler) : Op → ProcessId → Bool
  | .resolveFault p .resume, pid => pid = p && s.hasPendingFault p
  | .resolveFault p .rollback, pid => pid = p && s.hasPendingFault p && decide (p ∈ s.snapshots)
  | _, _ => false

def settles (s : Scheduler) : Op → ProcessId → Bool
  | .checkRealThreads _, pid => s.threadFinished pid
  | _, _ => false

/-- The operation suspends the process as a member of its group. -/
def suspendsMember (s : Scheduler) : Op → ProcessId → Bool
  | .suspendGroup g, pid => pid ∈ s.membersOf g
  | _, _ => false

def resumes (s : Scheduler) : Op → ProcessId → Bool
  | .resumeProcess p, pid => pid = p
  | .resumeGroup g, pid => pid ∈ s.membersOf g
  | _, _ => false

/-- The new state of a process whose old state is `st`, for the operations that leave
the CPU alone. -/
def relabel (s : Scheduler) (op : Op) (pid : ProcessId) (st : ProcessState) : ProcessState :=
  if s.crashes op pid then .crashed
  else if s.recovers op pid then .ready
  else if s.settles op pid then settleState st
  else if s.suspendsMember op pid then moveState [.running,.ready] .suspended st
  else if s.resumes op pid then moveState [.suspended] .ready st
  else st

attribute [local simp] relabel crashes recovers settles suspendsMember resumes

theorem moveState_idem (st : ProcessState) :
    moveState from_ to_ (moveState from_ to_ st) = moveState from_ to_ st := by
  unfold moveState
  by_cases h : st ∈ from_ <;> simp [h]

theorem stateOf_of_lookup (h : s.processes.lookup pid = some process) :
    s.stateOf pid = some process.state := by
  rw [stateOf,h,map_some]

theorem move_relabels (h : s.processes.lookup pid = some process) (from_ : List ProcessState)
    (to_ : ProcessState) :
    Relabels s (if process.state ∈ from_ then s.modifyProcess pid (setState to_) else s)
      (only [pid] (moveState from_ to_)) := by
  have hst (st : ProcessState) (hs : s.stateOf pid = some st) : st = process.state := by
    rw [stateOf_of_lookup h] at hs
    exact (some.inj hs).symm
  split
  next hm =>
    refine (modify s pid (g := fun _ => to_) fun _ => rfl).congr_at fun st hs => ?_
    rw [hst st hs,moveState,if_pos hm]
  next hm =>
    refine same fun st hs => ?_
    rw [hst st hs,moveState,if_neg hm]

theorem resumeProcess_relabels :
    Relabels s (s.resumeProcess pid).1 (s.relabel (.resumeProcess pid)) := by
  refine eq_fun (f := only [pid] (moveState [.suspended] .ready)) ?_ fun j st => by simp [only]
  unfold resumeProcess
  split
  next hnone => exact .absent hnone
  next process hsome =>
    have h := move_relabels hsome [.suspended] .ready
    simp only [List.mem_singleton] at h
    exact h.congr rfl rfl rfl

theorem reportCrash_relabels :
    Relabels s (s.reportCrash clk pid).1 (s.relabel (.reportCrash clk pid)) := by
  refine eq_fun (f := only [pid] fun _ => .crashed) ?_ fun j st => by simp [only]
  unfold reportCrash
  split
  next hnone => exact .absent hnone
  next => exact (Relabels.modify s pid fun _ => rfl).congr rfl rfl rfl

theorem panicOf_clearPanic (j : ProcessId) :
    (s.clearPanic pid).panicOf j = if j = pid then none else s.panicOf j := by
  unfold panicOf clearPanic
  rw [lookup_adjust]
  split
  next => cases s.realThreads.lookup j <;> rfl
  next => rfl

/-- One pass over the slots finds every waiting message, in the order of the pass. -/
theorem takePanics_found (hnd : order.Nodup) (s : Scheduler) : (s.takePanics order).2 =
      order.filterMap fun pid => (s.panicOf pid).map fun message => (pid,message) := by
  induction order generalizing s with
  | nil => rfl
  | cons pid rest ih =>
    obtain ⟨hnot,hrest⟩ := nodup_cons.mp hnd
    unfold takePanics
    split
    next hnone =>
      have hn : s.panicOf pid = none := hnone
      rw [filterMap_cons_none (by rw [hn,map_none]),ih hrest]
    next message hsome =>
      have hs : s.panicOf pid = some message := hsome
      rw [filterMap_cons_some (by rw [hs,map_some])]
      dsimp only
      rw [ih hrest]
      congr 1
      apply filterMap_congr
      intro j hj
      have hne : j ≠ pid := fun he => hnot (he ▸ hj)
      rw [panicOf_clearPanic,if_neg hne]

theorem takePanics_frame (s : Scheduler) (order : List ProcessId) :
    (s.takePanics order).1.processes = s.processes ∧
      (s.takePanics order).1.current = s.current ∧
        (s.takePanics order).1.timedPid = s.timedPid := by
  induction order generalizing s with
  | nil => exact ⟨rfl,rfl,rfl⟩
  | cons pid rest ih =>
    unfold takePanics
    split
    · exact ih s
    · exact ih (s.clearPanic pid)

theorem raiseFault_relabels (s : Scheduler) (clk : Clock) (pid : ProcessId) (message : String) :
    Relabels s (s.raiseFault clk pid message).1 (only [pid] fun _ => .crashed) := by
  unfold raiseFault
  dsimp only
  split
  next hnone => exact (absent hnone).congr rfl rfl rfl
  next => exact (Relabels.modify s pid fun _ => rfl).congr rfl rfl rfl

theorem raiseFaults_relabels (s : Scheduler) (found : List (ProcessId × String)) :
    Relabels s (s.raiseFaults clk found).1 (only (found.map Prod.fst) fun _ => .crashed) := by
  induction found generalizing s with
  | nil => exact .nil s
  | cons e rest ih =>
    exact .cons (g := fun _ => .crashed) (fun _ => rfl) (raiseFault_relabels s clk e.1 e.2) (ih _)

theorem mem_realThreads_of_panicOf (h : (s.panicOf pid).isSome) : pid ∈ s.realThreads := by
  rw [mem_iff_lookup_ne_none]
  intro hnone
  simp [panicOf,hnone] at h

theorem pollFaults_relabels (horder : Enumerates order s.realThreads) :
    Relabels s (s.pollFaults order clk).1 (s.relabel (.pollFaults order clk)) := by
  obtain ⟨hp,hc,ht⟩ := takePanics_frame s order
  refine (after hp hc ht (raiseFaults_relabels _ _)).eq_fun fun pid st => ?_
  have hmem : pid ∈ (s.takePanics order).2.map Prod.fst ↔ (s.panicOf pid).isSome := by
    simp only [takePanics_found horder.1,List.mem_map,mem_filterMap,map_eq_some_iff]
    constructor
    · rintro ⟨_,⟨j,-,message,hm,rfl⟩,rfl⟩
      rw [hm,isSome_some]
    · intro h
      obtain ⟨message,hm⟩ := isSome_iff_exists.mp h
      exact ⟨_,⟨pid,(horder.2 pid).mpr (mem_realThreads_of_panicOf h),message,hm,rfl⟩,rfl⟩
  simp [only,hmem]

theorem recover_relabels {action : RecoveryAction} (haction : action ≠ .terminate) :
    Relabels s (s.resolveFault pid action).1 (s.relabel (.resolveFault pid action)) := by
  have hsame (hno : ∀ j, s.recovers (.resolveFault pid action) j = false) :
      s.relabel (.resolveFault pid action) = fun _ st => st := by
    funext j st
    simp [-recovers,hno]
  have hready (hyes : ∀ j, s.recovers (.resolveFault pid action) j = decide (j = pid)) :
      s.relabel (.resolveFault pid action) = only [pid] fun _ => .ready := by
    funext j st
    simp [-recovers,hyes,only]
  cases hp : s.hasPendingFault pid with
  | false =>
    rw [resolveFault,if_pos hp,hsame fun j => by cases action <;> simp [hp]]
    exact .of_eq rfl rfl rfl
  | true =>
    unfold resolveFault
    rw [if_neg (by simp [hp])]
    cases action with
    | terminate => exact absurd rfl haction
    | resume =>
      rw [hready fun j => by simp [hp]]
      dsimp only
      split
      next hnone => exact (absent hnone).congr rfl rfl rfl
      next => exact (Relabels.modify s pid fun _ => rfl).congr rfl rfl rfl
    | rollback =>
      dsimp only
      split
      next hnone =>
        have hnot : pid ∉ s.snapshots := lookup_eq_none.mp hnone
        rw [hsame fun j => by simp [hnot]]
        exact .of_eq rfl rfl rfl
      next snapshot hsnap =>
        have hmem : pid ∈ s.snapshots := mem_of_lookup_eq_some hsnap
        rw [hready fun j => by simp [hp,hmem]]
        split
        next hnone => exact (absent hnone).congr rfl rfl rfl
        next => exact (Relabels.modify s pid fun _ => rfl).congr rfl rfl rfl

theorem settle_state (p : Process) : (settle p).state = settleState p.state := by
  unfold settle settleState
  split <;> rfl

theorem checkRealThreads_relabels (horder : Enumerates order s.realThreads) :
    Relabels s (s.checkRealThreads order).1 (s.relabel (.checkRealThreads order)) := by
  have hfold := foldl id reapThread (g := settleState) (fun st => by cases st <;> rfl)
    (fun s pid => (modify s pid settle_state).congr rfl rfl rfl)
    (s.finishedThreads order) s
  refine eq_fun hfold fun pid st => ?_
  have hmem : pid ∈ s.finishedThreads order ↔ s.threadFinished pid = true := by
    unfold finishedThreads
    rw [mem_filter,horder.2 pid]
    refine ⟨And.right,fun h => ⟨?_,h⟩⟩
    rw [mem_iff_lookup_ne_none]
    intro hnone
    simp [threadFinished,hnone] at h
  simp [only,hmem]

theorem moveMembers_relabels (groupId : ℕ) : Relabels s (moveMembers from_ to_ s groupId).1
      (only (s.membersOf groupId) (moveState from_ to_)) := by
  have hstep (acc : Scheduler × List ProcessId) (pid : ProcessId) :
      Relabels acc.1 (moveMember from_ to_ acc pid).1 (only [pid] (moveState from_ to_)) := by
    unfold moveMember
    split
    next hnone => exact .absent hnone
    next proc hsome =>
      have h := move_relabels hsome from_ to_
      split
      next hm => rwa [if_pos hm] at h
      next hm => rwa [if_neg hm] at h
  unfold moveMembers membersOf
  split
  next hnone =>
    rw [hnone]
    exact .nil s
  next group hsome =>
    rw [hsome]
    exact foldl Prod.fst _ moveState_idem hstep group.memberPids (s,[])

section
variable (s : Scheduler)

theorem suspendGroup_relabels (groupId : ℕ) :
    Relabels s (s.suspendGroup groupId).1 (s.relabel (.suspendGroup groupId)) :=
  (moveMembers_relabels groupId).eq_fun fun pid st => by simp [only]

theorem resumeGroup_relabels (groupId : ℕ) :
    Relabels s (s.resumeGroup groupId).1 (s.relabel (.resumeGroup groupId)) :=
  (moveMembers_relabels groupId).eq_fun fun pid st => by simp [only]

theorem setPriority_relabels (pid : ProcessId) (priority : Priority) :
    Relabels s (s.setPriority pid priority).1 fun _ st => st := by
  unfold setPriority
  split
  · exact .of_eq rfl rfl rfl
  · dsimp only
    split
    · exact .of_eq rfl rfl rfl
    · exact .of_state (stateOf_modify_other s pid fun _ => rfl) rfl rfl

theorem setGroupPriority_relabels (groupId : ℕ) (priority : Priority) :
    Relabels s (s.setGroupPriority groupId priority).1 fun _ st => st := by
  unfold setGroupPriority
  split
  · exact .of_eq rfl rfl rfl
  next group _ =>
    refine setPriorities_induction (P := fun u => Relabels s u fun _ st => st)
      (fun u pid hu => ?_) ?_ group.memberPids
    swap
    · exact .of_eq rfl rfl rfl
    have hset := setPriority_relabels u pid priority
    refine .of_state (fun j => ?_) (hset.current.trans hu.current) (hset.timer.trans hu.timer)
    rw [hset.state,hu.state]
    simp

theorem groupId_relabels (groups : Finmap fun _ : ℕ => ProcessGroup) (pid : ProcessId)
    (groupId : Option ℕ) :
    Relabels s ({ s with groups := groups }.modifyProcess pid
      fun p => { p with groupId := groupId }) fun _ st => st :=
  .of_state (stateOf_modify_other { s with groups := groups } pid fun _ => rfl) rfl rfl

theorem addToGroup_relabels (pid : ProcessId) (groupId : ℕ) :
    Relabels s (s.addToGroup pid groupId).1 fun _ st => st := by
  unfold addToGroup
  split
  · exact .of_eq rfl rfl rfl
  · exact groupId_relabels s _ pid _

theorem removeFromGroup_relabels (pid : ProcessId) :
    Relabels s (s.removeFromGroup pid).1 fun _ st => st := by
  unfold removeFromGroup
  split
  · exact .of_eq rfl rfl rfl
  · exact groupId_relabels s _ pid _

theorem setCpuAffinity_relabels (pid : ProcessId) (cores : List ℕ) :
    Relabels s (s.setCpuAffinity pid cores).1 fun _ st => st := by
  unfold setCpuAffinity
  split
  · exact .of_eq rfl rfl rfl
  · split <;> exact .of_eq rfl rfl rfl

theorem registerMemoryPressureCallback_relabels (name : String) :
    Relabels s (s.registerMemoryPressureCallback name) fun _ st => st := by
  unfold registerMemoryPressureCallback
  split <;> exact .of_eq rfl rfl rfl

end
end Scheduler

/-- The operations that leave the CPU alone. -/
def Op.relabels : Op → Bool
  | .spawnProcess .. | .spawnRealProcess .. | .spawnChild .. => false
  | .killProcess _ | .killGroup _ | .resolveFault _ .terminate | .suspendProcess _ => false
  | .forcePreempt _ | .scheduleNext .. | .tick .. => false
  | _ => true

theorem Scheduler.step_relabels {s t : Scheduler} (hop : op.relabels = true)
    (hst : s.step op = some t) : Relabels s t (s.relabel op) := by
  have frame {u : Scheduler} {f : ProcessId → ProcessState → ProcessState} (hu : Relabels s u f)
      (he : some u = some t) : Relabels s t f := some.inj he ▸ hu
  cases op with
  | pollFaults order clk =>
    obtain ⟨horder,hst⟩ := ite_none_right_eq_some.mp hst
    exact frame (pollFaults_relabels horder) hst
  | checkRealThreads order =>
    obtain ⟨horder,hst⟩ := ite_none_right_eq_some.mp hst
    exact frame (checkRealThreads_relabels horder) hst
  | recordPanic pid message =>
    obtain ⟨threads,rfl⟩ := recordPanic_threads hst
    exact .of_eq rfl rfl rfl
  | finishThread pid =>
    obtain ⟨threads,rfl⟩ := finishThread_threads hst
    exact .of_eq rfl rfl rfl
  | resolveFault pid action =>
    cases action with
    | resume | rollback => exact frame (recover_relabels (by simp)) hst
    | terminate => simp [Op.relabels] at hop
  | addToGroup pid groupId => exact frame (addToGroup_relabels s pid groupId) hst
  | removeFromGroup pid => exact frame (removeFromGroup_relabels s pid) hst
  | setCpuAffinity pid cores => exact frame (setCpuAffinity_relabels s pid cores) hst
  | registerMemoryPressureCallback name =>
    exact frame (registerMemoryPressureCallback_relabels s name) hst
  | setPriority pid priority => exact frame (setPriority_relabels s pid priority) hst
  | setGroupPriority groupId priority =>
    exact frame (setGroupPriority_relabels s groupId priority) hst
  | resumeProcess pid => exact frame resumeProcess_relabels hst
  | reportCrash clk pid => exact frame reportCrash_relabels hst
  | suspendGroup groupId => exact frame (suspendGroup_relabels s groupId) hst
  | resumeGroup groupId => exact frame (resumeGroup_relabels s groupId) hst
  | setSchedulingMode | setRtDeadline | clearRtDeadline | clearJitterLog | setLastScheduled
  | takeFaults | createGroup | createSession =>
    cases hst
    exact .of_eq rfl rfl rfl
  | _ => simp [Op.relabels] at hop

namespace Scheduler

variable {s t u : Scheduler} {pid j : ProcessId} {clk : Clock} {order : List ProcessId}
  {f : Process → Process}

/-- The states after the current process has been put back among the ready ones. -/
def yieldedState (s : Scheduler) (pid : ProcessId) : Option ProcessState :=
  if s.current = some pid then (s.stateOf pid).map fun _ => .ready else s.stateOf pid

structure Released (s t : Scheduler) : Prop where
  state : ∀ pid, t.stateOf pid = s.yieldedState pid
  current : t.current = none
  timer : t.timer = none

structure Given (s t : Scheduler) (pid : ProcessId) : Prop where
  ready : s.stateOf pid = some .ready
  state : ∀ j, t.stateOf j = if j = pid then some .running else s.yieldedState j
  current : t.current = some pid
  timer : t.timedPid = some pid

structure Dropped (s t : Scheduler) : Prop where
  state : ∀ pid, t.stateOf pid = s.stateOf pid
  current : t.current = none
  timer : t.timer = none

inductive Scheduled (s t : Scheduler) : Prop where
  | kept (mode : s.schedulingMode = .normal) (same : t = s)
  | released (mode : s.schedulingMode = .normal) (change : Released s t)
  | given (pid : ProcessId) (change : Given s t pid)
  | dropped (mode : s.schedulingMode = .realTime) (idle : ∀ pid, s.stateOf pid ≠ some .ready)
      (change : Dropped s t)

theorem stateOf_yield (hf : ∀ p, (f p).state = .ready) (hc : s.current = some pid) (j : ProcessId) :
    (s.modifyProcess pid f).stateOf j = s.yieldedState j := by
  rw [stateOf_modifyProcess (g := fun _ => .ready) hf,yieldedState,hc]
  simp only [some.injEq,eq_comm]

theorem stateOf_vacant (hc : s.current = none) : s.stateOf j = s.yieldedState j := by
  rw [yieldedState,hc,if_neg (by simp)]

theorem released_of_yield (hf : ∀ p, (f p).state = .ready) (hc : s.current = some pid)
    (hp : t.processes = (s.modifyProcess pid f).processes) (hcur : t.current = none)
    (ht : t.timer = none) : Released s t :=
  ⟨fun j => (stateOf_congr hp j).trans (stateOf_yield hf hc j),hcur,ht⟩

/-- A ready process that has not the CPU is still ready after the current one was put back. -/
theorem yieldedState_ready (hready : s.stateOf pid = some .ready) (hne : s.current ≠ some pid)
    (j : ProcessId) :
    s.yieldedState j = if j = pid then some .ready else s.yieldedState j := by
  split
  next hj => rw [hj,yieldedState,if_neg hne,hready]
  next => rfl

theorem given_of_running {v : Scheduler} (hready : s.stateOf pid = some .ready)
    (hv : ∀ j, v.stateOf j = if j = pid then some .ready else s.yieldedState j)
    (hu : ∀ j, u.stateOf j = (v.modifyProcess pid (setState .running)).stateOf j)
    (hc : u.current = some pid) (htimer : u.timedPid = some pid) : Given s u pid := by
  refine ⟨hready,fun j => ?_,hc,htimer⟩
  rw [hu,stateOf_modifyProcess (g := fun _ => .running) fun _ => rfl,hv]
  by_cases hj : j = pid <;> simp [hj]

theorem forcePreempt_cases (s : Scheduler) (clk : Clock) :
    (Relabels s (s.forcePreempt clk) fun _ st => st) ∨ Released s (s.forcePreempt clk) := by
  unfold forcePreempt
  split
  next hc =>
    refine .inl (.of_eq rfl rfl ?_)
    simp only [timedPid,Option.map_map]
    rfl
  next current hc => exact .inr (released_of_yield (fun _ => rfl) hc rfl rfl rfl)

def sliceOver (s : Scheduler) (clk : Clock) : Bool :=
  (s.timer.map fun timer => timer.quotaExceeded clk.mono).getD false

theorem expire_cases (s : Scheduler) (clk : Clock) :
    ((s.sliceOver clk = false ∨ s.current = none) ∧ s.expire clk = s) ∨
      (s.sliceOver clk = true ∧ Released s (s.expire clk)) := by
  unfold expire sliceOver
  split
  next ht => exact .inl ⟨.inl (by rw [ht]; rfl),rfl⟩
  next timer ht =>
    rw [ht]
    split
    next hq =>
      split
      next hc => exact .inl ⟨.inr hc,rfl⟩
      next current hc => exact .inr ⟨hq,released_of_yield (fun _ => rfl) hc rfl rfl rfl⟩
    next hq => exact .inl ⟨.inl (by simpa using hq),rfl⟩

section
variable {now : UInt64} {best : Option (UInt64 × ProcessId)} {b : UInt64 × ProcessId}

theorem rtBetter_not_ready (h : s.stateOf pid ≠ some .ready) : s.rtBetter now best pid = best := by
  unfold rtBetter
  split
  · rfl
  next proc hp =>
    rw [stateOf_of_lookup hp,Ne,some.injEq] at h
    rw [if_pos h]

theorem rtBetter_ready (h : s.stateOf pid = some .ready) (now : UInt64)
    (best : Option (UInt64 × ProcessId)) :
    ∃ b, s.rtBetter now best pid = some b ∧ (best = some b ∨ b.2 = pid) := by
  obtain ⟨proc,hp,hst⟩ := map_eq_some_iff.mp h
  unfold rtBetter
  rw [hp]
  dsimp only
  rw [if_neg (not_not.mpr hst)]
  cases best with
  | none => exact ⟨_,rfl,.inr rfl⟩
  | some b =>
    dsimp only
    split
    · exact ⟨_,rfl,.inr rfl⟩
    · exact ⟨_,rfl,.inl rfl⟩

theorem rtBetter_foldl_some (h : order.foldl (s.rtBetter now) best = some b) :
    best = some b ∨ s.stateOf b.2 = some .ready := by
  induction order generalizing best with
  | nil => exact .inl h
  | cons p rest ih =>
    by_cases hp : s.stateOf p = some .ready
    · rcases ih h with hb | hb
      · obtain ⟨b',hb',hor⟩ := rtBetter_ready hp now best
        rw [hb',some.injEq] at hb
        subst hb
        exact hor.imp_right fun he => by rw [he,hp]
      · exact .inr hb
    · rw [foldl_cons,rtBetter_not_ready hp] at h
      exact ih h

theorem rtBetter_foldl_none (h : order.foldl (s.rtBetter now) best = none) :
    best = none ∧ ∀ p ∈ order, s.stateOf p ≠ some .ready := by
  induction order generalizing best with
  | nil => exact ⟨h,fun _ hp => absurd hp not_mem_nil⟩
  | cons p rest ih =>
    obtain ⟨hnone,hrest⟩ := ih h
    by_cases hp : s.stateOf p = some .ready
    · obtain ⟨b',hb',-⟩ := rtBetter_ready hp now best
      rw [hb'] at hnone
      cases hnone
    · rw [rtBetter_not_ready hp] at hnone
      refine ⟨hnone,fun q hq => ?_⟩
      rcases mem_cons.mp hq with rfl | hq
      · exact hp
      · exact hrest q hq

theorem rtJitter_relabels : Relabels s (s.rtJitter pid now) fun _ st => st := by
  unfold rtJitter
  split
  · exact .of_eq rfl rfl rfl
  · dsimp only
    split <;> split <;> exact .of_eq rfl rfl rfl

end

/-- The old process is put back unless it is the one that was found. -/
theorem scheduleNextRt_given {remaining : UInt64} (clk : Clock)
    (hbest : s.rtBest order clk.wall = some (remaining,pid)) :
    Given s (s.scheduleNextRt order clk).1 pid := by
  have hready : s.stateOf pid = some .ready := by
    rcases rtBetter_foldl_some hbest with h | h
    · cases h
    · exact h
  unfold scheduleNextRt
  rw [hbest]
  refine given_of_running (v := ?v) hready ?hold ?same
    rtJitter_relabels.current rtJitter_relabels.timer
  case same =>
    intro j
    refine (rtJitter_relabels.state j).trans ?_
    rw [Option.map_id_fun',id]
    rfl
  case hold =>
    intro j
    cases hc : s.current with
    | none => exact (stateOf_vacant hc).trans (yieldedState_ready hready (by simp [hc]) j)
    | some old =>
      dsimp only
      split
      next hne =>
        rw [stateOf_yield (fun _ => rfl) hc]
        exact yieldedState_ready hready (by simpa [hc] using hne) j
      next hold =>
        rw [not_not.mp hold] at hc
        split
        next hj => rw [hj,hready]
        next hj => rw [yieldedState,hc,if_neg (by simpa using Ne.symm hj)]

theorem scheduleNextRt_scheduled (hmode : s.schedulingMode = .realTime)
    (horder : Enumerates order s.processes) :
    Scheduled s (s.scheduleNextRt order clk).1 := by
  cases hbest : s.rtBest order clk.wall with
  | some b => exact .given b.2 (scheduleNextRt_given clk hbest)
  | none =>
    have hdrop : Dropped s (s.scheduleNextRt order clk).1 := by
      unfold scheduleNextRt
      rw [hbest]
      exact ⟨fun _ => rfl,rfl,rfl⟩
    refine .dropped hmode (fun pid hp => ?_) hdrop
    exact (rtBetter_foldl_none hbest).2 pid ((horder.2 pid).mpr (mem_of_stateOf hp)) hp

section
variable {now : UInt64} {skip : Option ProcessId} {entry : Priority × ProcessId}
  {entries : List (Priority × ProcessId)} {c c' : Option (Priority × UInt32 × ProcessId)}
  {b : Priority × UInt32 × ProcessId}

theorem considerCandidate_cases (h : s.considerCandidate now skip c entry = some c') :
    c' = c ∨ (s.stateOf entry.2 = some .ready ∧ some entry.2 ≠ skip ∧
      ∃ b, c' = some b ∧ (c = some b ∨ b.2.2 = entry.2)) := by
  revert h
  fun_cases considerCandidate s now skip c entry with
  | case3 hskip proc hp hst =>
    intro h
    obtain ⟨effective,-,rfl⟩ := map_eq_some_iff.mp h
    refine .inr ⟨by rw [stateOf_of_lookup hp,hst],hskip,?_⟩
    cases c with
    | none => exact ⟨_,rfl,.inr rfl⟩
    | some b =>
      dsimp only
      split
      · exact ⟨_,rfl,.inr rfl⟩
      · exact ⟨_,rfl,.inl rfl⟩
  | _ => exact fun h => .inl (some.inj h).symm

theorem considerCandidate_foldlM
    (h : entries.foldlM (s.considerCandidate now skip) c = some (some b)) :
    c = some b ∨ s.stateOf b.2.2 = some .ready ∧ some b.2.2 ≠ skip := by
  induction entries generalizing c with
  | nil => exact .inl (some.inj h)
  | cons entry rest ih =>
    obtain ⟨c',hc',hrest⟩ := bind_eq_some_iff.mp h
    rcases ih hrest with hb | hb
    · rcases considerCandidate_cases hc' with rfl | ⟨hready,hskip,b',hb',hor⟩
      · exact .inl hb
      · rw [hb',some.injEq] at hb
        subst hb
        exact hor.imp_right fun he => by rw [he]; exact ⟨hready,hskip⟩
    · exact .inr hb

theorem advanceRoundRobin_relabels : Relabels s (s.advanceRoundRobin pid) fun _ st => st := by
  unfold advanceRoundRobin
  repeat' split
  all_goals exact .of_eq rfl rfl rfl

theorem dispatch_given (hready : s.stateOf pid = some .ready) (hne : s.current ≠ some pid)
    (h : s.dispatch clk pid = some t) : Given s t pid := by
  unfold dispatch at h
  dsimp only at h
  split at h
  · cases h
  · cases h
    refine given_of_running hready (fun j => ?_) (fun _ => rfl) rfl rfl
    rw [advanceRoundRobin_relabels.state,Option.map_id_fun',id,
      ← yieldedState_ready hready hne]
    cases hc : s.current with
    | none => exact stateOf_vacant hc
    | some old => exact stateOf_yield (fun _ => rfl) hc j

theorem stateOf_yieldCurrent (s : Scheduler) (clk : Clock) (j : ProcessId) :
    (s.yieldCurrent clk).stateOf j = s.yieldedState j := by
  unfold yieldCurrent
  split
  next hc => exact stateOf_vacant hc
  next current hc =>
    exact (stateOf_congr rfl j).trans (stateOf_yield (f := preempt _) (fun _ => rfl) hc j)

/-- In normal mode the CPU goes to a candidate, or to no one if there is none. -/
theorem reschedule_cases (h : s.reschedule clk = some r) :
    ((s.yieldCurrent clk).pickCandidate clk.wall s.current = some none ∧ Released s r.1 ∧
        r.2 = none) ∨
      ∃ pid, s.current ≠ some pid ∧ Given s r.1 pid ∧ r.2 = some pid := by
  obtain ⟨candidate,hpick,hrun⟩ := bind_eq_some_iff.mp h
  have hstate := stateOf_yieldCurrent s clk
  have hcurrent : (s.yieldCurrent clk).current = s.current := by
    unfold yieldCurrent
    split <;> rfl
  cases candidate with
  | none =>
    rw [← some.inj hrun]
    rw [hcurrent] at hpick
    exact .inl ⟨hpick,⟨hstate,rfl,rfl⟩,rfl⟩
  | some b =>
    obtain ⟨u,hu,rfl⟩ := map_eq_some_iff.mp hrun
    rcases considerCandidate_foldlM hpick with hb | ⟨hready,hskip⟩
    · cases hb
    have hg := dispatch_given hready (fun he => hskip he.symm) hu
    have hne : s.current ≠ some b.2.2 := fun he => hskip (by rw [hcurrent,he])
    have hs : s.stateOf b.2.2 = some .ready := by
      rw [hstate,yieldedState,if_neg hne] at hready
      exact hready
    refine .inr ⟨b.2.2,hne,⟨hs,fun j => ?_,hg.current,hg.timer⟩,rfl⟩
    rw [hg.state]
    split
    · rfl
    · -- the process that lost the CPU is put back twice
      rw [yieldedState,hcurrent,hstate,yieldedState]
      split
      · rw [Option.map_map]
        rfl
      · rfl

end

theorem scheduleNext_scheduled (horder : Enumerates order s.processes)
    (h : s.scheduleNext order clk = some r) : Scheduled s r.1 := by
  unfold scheduleNext at h
  split at h
  next hmode =>
    cases h
    exact scheduleNextRt_scheduled hmode horder
  next hmode =>
    have hnormal : s.schedulingMode = .normal := by
      cases hm : s.schedulingMode with
      | normal => rfl
      | realTime => exact absurd hm hmode
    split at h
    · cases h
      exact .kept hnormal rfl
    · rcases reschedule_cases h with ⟨-,hr,-⟩ | ⟨pid,-,hg,-⟩
      · exact .released hnormal hr
      · exact .given pid hg

/-- A process is removed (`st = none`) or frozen, and loses the CPU if it had it. -/
structure Withdrawn (s t : Scheduler) (pid : ProcessId) (st : Option ProcessState) : Prop where
  state : ∀ j, t.stateOf j = if j = pid then st else s.stateOf j
  current : t.current =
    if pid ∈ s.processes ∧ s.current = some pid then none else s.current
  timer : t.timedPid =
    if pid ∈ s.processes ∧ s.current = some pid then none else s.timedPid

theorem Killed.withdrawn (h : Killed s t pid) : Withdrawn s t pid none := by
  refine ⟨fun j => ?_,?_,?_⟩
  · unfold stateOf
    rw [h.processes,lookup_erase_if]
    split <;> rfl
  · exact h.current
  · rw [timedPid,h.timer]
    split <;> rfl

theorem suspendProcess_withdrawn :
    Withdrawn s (s.suspendProcess pid).1 pid ((s.stateOf pid).map fun _ => .suspended) := by
  unfold suspendProcess
  split
  next hnone =>
    have hmem : pid ∉ s.processes := lookup_eq_none.mp hnone
    refine ⟨fun j => ?_,by simp [hmem],by simp [hmem]⟩
    split
    next hj => rw [hj,stateOf_eq_none.mpr hmem,map_none]
    next => rfl
  next process hp =>
    have hmem : pid ∈ s.processes := mem_of_lookup_eq_some hp
    have hstate (j : ProcessId) : (s.modifyProcess pid (setState .suspended)).stateOf j =
        if j = pid then (s.stateOf pid).map fun _ => .suspended else s.stateOf j := by
      rw [stateOf_modifyProcess (g := fun _ => .suspended) fun _ => rfl]
      split
      next hj => rw [hj]
      next => rfl
    dsimp only
    split
    next hc =>
      have hc' : s.current = some pid := hc
      exact ⟨hstate,by simp [hmem,hc'],by simp [hmem,hc',timedPid]⟩
    next hc =>
      have hc' : s.current ≠ some pid := hc
      exact ⟨hstate,by simp [hc',modifyProcess],by simp [hc',timedPid,modifyProcess]⟩

theorem killMembers_stateOf (s : Scheduler) :
    (s.killMembers pids).stateOf j = if j ∈ pids then none else s.stateOf j := by
  induction pids generalizing s with
  | nil => rfl
  | cons pid pids ih =>
    have hstep := (killProcess_killed s pid).withdrawn.state j
    refine (ih (s.killProcess pid).1).trans ?_
    rw [hstep]
    by_cases hj : j = pid <;> simp [hj]

theorem killGroup_stateOf (s : Scheduler) (groupId : ℕ) (j : ProcessId) :
    (s.killGroup groupId).1.stateOf j =
      if j ∈ s.membersOf groupId then none else s.stateOf j := by
  unfold killGroup membersOf
  split
  next hnone => rw [hnone,map_none,getD_none,if_neg not_mem_nil]
  next group hsome =>
    rw [hsome]
    exact killMembers_stateOf s

theorem Spawned.stateOf (h : Spawned s t process) (j : ProcessId) :
    t.stateOf j = if j = s.nextPid then some .ready else s.stateOf j := by
  unfold Scheduler.stateOf
  rw [h.processes,lookup_insert_if]
  split
  · rw [map_some,h.state]
  · rfl

theorem expire_enumerates (horder : Enumerates order s.processes) :
    Enumerates order (s.expire clk).processes :=
  ⟨horder.1,fun j => (horder.2 j).trans (expire_frame.mem_iff j).symm⟩

/-- Everything that one operation can do to the CPU and to the states of the processes. -/
inductive CpuStep (s t : Scheduler) : Op → Prop where
  | relabels {op : Op} (hop : op.relabels = true) (change : Relabels s t (s.relabel op)) :
      CpuStep s t op
  | refused {op : Op} {ramMb : UInt64} (hop : op.spawnRequest = some ramMb)
      (change : Relabels s t fun _ st => st) : CpuStep s t op
  | spawned {op : Op} {ramMb : UInt64} (hop : op.spawnRequest = some ramMb) (process : Process)
      (change : Spawned s t process) : CpuStep s t op
  | preemptedNone (clk : Clock) (change : Relabels s t fun _ st => st) :
      CpuStep s t (.forcePreempt clk)
  | preempted (clk : Clock) (change : Released s t) : CpuStep s t (.forcePreempt clk)
  | suspended (pid : ProcessId)
      (change : Withdrawn s t pid ((s.stateOf pid).map fun _ => .suspended)) :
      CpuStep s t (.suspendProcess pid)
  | killed (pid : ProcessId) (change : Withdrawn s t pid none) : CpuStep s t (.killProcess pid)
  | terminatedNone (pid : ProcessId) (same : t = s) : CpuStep s t (.resolveFault pid .terminate)
  | terminated (pid : ProcessId) (pending : s.hasPendingFault pid = true)
      (change : Withdrawn s t pid none) : CpuStep s t (.resolveFault pid .terminate)
  | groupKilled (groupId : ℕ) (change : t = (s.killGroup groupId).1) :
      CpuStep s t (.killGroup groupId)
  | scheduled (order : List ProcessId) (clk : Clock) (change : Scheduled s t) :
      CpuStep s t (.scheduleNext order clk)
  | ticked (order : List ProcessId) (clk later : Clock) (change : Scheduled (s.expire clk) t) :
      CpuStep s t (.tick order clk later)

theorem step_cpu (hst : s.step op = some t) : CpuStep s t op := by
  by_cases hop : op.relabels = true
  · exact .relabels hop (step_relabels hop hst)
  by_cases hsp : ∃ ramMb, op.spawnRequest = some ramMb
  · obtain ⟨ramMb,hreq⟩ := hsp
    rcases step_spawn hreq hst with ⟨-,-,hr⟩ | ⟨-,-,-,process,-,hs⟩
    · exact .refused hreq (.of_eq hr.processes hr.current (by rw [timedPid,hr.timer,timedPid]))
    · exact .spawned hreq process hs
  cases op with
  | forcePreempt clk =>
    cases hst
    rcases forcePreempt_cases s clk with hr | hr
    · exact .preemptedNone clk hr
    · exact .preempted clk hr
  | killProcess p =>
    cases hst
    exact .killed p (killProcess_killed s p).withdrawn
  | suspendProcess p =>
    cases hst
    exact .suspended p suspendProcess_withdrawn
  | resolveFault p action =>
    cases action with
    | terminate =>
      cases hst
      rcases terminate_cases s p with ⟨-,he⟩ | ⟨hp,hk⟩
      · exact .terminatedNone p he
      · exact .terminated p hp hk.withdrawn
    | _ => exact absurd rfl hop
  | killGroup g => exact .groupKilled g (some.inj hst).symm
  | scheduleNext order clk =>
    obtain ⟨horder,hst⟩ := ite_none_right_eq_some.mp hst
    obtain ⟨r,hr,rfl⟩ := map_eq_some_iff.mp hst
    exact .scheduled order clk (scheduleNext_scheduled horder hr)
  | tick order clk later =>
    obtain ⟨horder,hst⟩ := ite_none_right_eq_some.mp hst
    obtain ⟨r,hr,rfl⟩ := map_eq_some_iff.mp hst
    exact .ticked order clk later (scheduleNext_scheduled (expire_enumerates horder) hr)
  | spawnProcess clk name priority ramMb | spawnRealProcess clk os name priority ramMb
  | spawnChild parent name priority ramMb => exact absurd ⟨ramMb,rfl⟩ hsp
  | _ => exact absurd rfl hop

end Scheduler
end Aios.ProcessMgr
