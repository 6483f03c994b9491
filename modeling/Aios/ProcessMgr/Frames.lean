import Aios.ProcessMgr.Operations

/-!
What the operations leave alone. Most of them touch no table, so that an invariant about the tables
only has to be checked against the others.
-/
namespace Aios.ProcessMgr

open Option

structure ThreadSlot where
  returned : Bool
  finished : Bool
  panic : Option String
  deriving DecidableEq

def RealThread.slot (r : RealThread) : ThreadSlot := ⟨r.returned,r.finished,r.panic⟩

/-- A process without the fields that scheduling and crash handling write. -/
def Process.core (p : Process) : Process :=
  { p with state := .ready, cpuTimeMs := 0, crashCount := 0 }

variable {α : Type*} {f : RealThread → RealThread} {clk : Clock} {r : Scheduler × Option ProcessId}
  {order : List ProcessId} {pid : ProcessId}

variable {s t : Scheduler} {from_ : List ProcessState} {to_ : ProcessState}

namespace Scheduler

@[simp] theorem core_setState (st : ProcessState) (p : Process) :
    (setState st p).core = p.core := rfl

@[simp] theorem core_preempt (n : UInt64) (p : Process) : (preempt n p).core = p.core := rfl

@[simp] theorem core_crash (p : Process) : (crash p).core = p.core := rfl

@[simp] theorem core_settle (p : Process) : (settle p).core = p.core := by
  unfold settle
  split <;> rfl

def slotOf (s : Scheduler) (pid : ProcessId) : Option ThreadSlot :=
  (s.realThreads.lookup pid).map RealThread.slot

structure Tables where
  priorityQueues : Finmap fun _ : Priority => List ProcessId
  totalRamMb : UInt64
  usedRamMb : UInt64
  groups : Finmap fun _ : ℕ => ProcessGroup
  nextGroupId : ℕ
  snapshots : Finmap fun _ : ProcessId => TaskSnapshot
  nextPid : ℕ

def tables (s : Scheduler) : Tables :=
  ⟨s.priorityQueues,s.totalRamMb,s.usedRamMb,s.groups,s.nextGroupId,s.snapshots,s.nextPid⟩

structure KeepsTables (s t : Scheduler) : Prop where
  core : ∀ pid, (t.processes.lookup pid).map Process.core =
    (s.processes.lookup pid).map Process.core
  tables : t.tables = s.tables

namespace KeepsTables

variable {s t u : Scheduler}

section
variable (h : KeepsTables s t)
include h

theorem queues : t.priorityQueues = s.priorityQueues := congrArg Tables.priorityQueues h.tables

theorem totalRamMb : t.totalRamMb = s.totalRamMb := congrArg Tables.totalRamMb h.tables

theorem usedRamMb : t.usedRamMb = s.usedRamMb := congrArg Tables.usedRamMb h.tables

theorem groups : t.groups = s.groups := congrArg Tables.groups h.tables

theorem nextGroupId : t.nextGroupId = s.nextGroupId := congrArg Tables.nextGroupId h.tables

theorem snapshots : t.snapshots = s.snapshots := congrArg Tables.snapshots h.tables

theorem nextPid : t.nextPid = s.nextPid := congrArg Tables.nextPid h.tables

end

theorem refl (s : Scheduler) : KeepsTables s s := ⟨fun _ => rfl,rfl⟩

theorem trans (h : KeepsTables s t) (k : KeepsTables t u) : KeepsTables s u :=
  ⟨fun pid => (k.core pid).trans (h.core pid),k.tables.trans h.tables⟩

theorem of_eq (hp : t.processes = s.processes) (ht : t.tables = s.tables) : KeepsTables s t :=
  ⟨fun pid => by rw [hp],ht⟩

theorem congr (h : KeepsTables s t) (hp : u.processes = t.processes)
    (ht : u.tables = t.tables) : KeepsTables s u :=
  h.trans (of_eq hp ht)

/-- The fields of `core` are the same before and after, process by process. -/
theorem field (h : KeepsTables s t) (f : Process → α) (hf : ∀ p, f p.core = f p) (pid : ProcessId) :
    (t.processes.lookup pid).map f = (s.processes.lookup pid).map f := by
  have hcore := congrArg (Option.map f) (h.core pid)
  simpa only [map_map,Function.comp_def,hf] using hcore

theorem mem_iff (h : KeepsTables s t) (pid : ProcessId) :
    pid ∈ t.processes ↔ pid ∈ s.processes := by
  have hcore := congrArg isSome (h.core pid)
  simp only [isSome_map] at hcore
  rw [← Finmap.lookup_isSome,← Finmap.lookup_isSome,hcore]

end KeepsTables

structure Frame (s t : Scheduler) : Prop extends KeepsTables s t where
  slots : ∀ pid, t.slotOf pid = s.slotOf pid

section
variable {s t u : Scheduler}

theorem slotOf_congr (h : t.realThreads = s.realThreads) (pid : ProcessId) :
    t.slotOf pid = s.slotOf pid := by rw [slotOf,h,slotOf]

theorem slotOf_adjust (hf : ∀ r, (f r).slot = r.slot)
    (h : t.realThreads = s.realThreads.adjust pid f) (j : ProcessId) : t.slotOf j = s.slotOf j := by
  unfold slotOf
  rw [h]
  exact Finmap.map_lookup_adjust hf j

namespace Frame

theorem refl (s : Scheduler) : Frame s s := ⟨.refl s,fun _ => rfl⟩

theorem trans (h : Frame s t) (k : Frame t u) : Frame s u :=
  ⟨h.toKeepsTables.trans k.toKeepsTables,fun pid => (k.slots pid).trans (h.slots pid)⟩

theorem of_eq (hp : t.processes = s.processes) (ht : t.tables = s.tables)
    (hr : t.realThreads = s.realThreads) : Frame s t := ⟨.of_eq hp ht,slotOf_congr hr⟩

theorem congr (h : Frame s t) (hp : u.processes = t.processes) (ht : u.tables = t.tables)
    (hr : u.realThreads = t.realThreads) : Frame s u := h.trans (of_eq hp ht hr)

theorem adjust (h : Frame s t) (pid : ProcessId) (hf : ∀ r, (f r).slot = r.slot) :
    Frame s { t with realThreads := t.realThreads.adjust pid f } :=
  ⟨h.toKeepsTables.congr rfl rfl,fun j => (slotOf_adjust hf rfl j).trans (h.slots j)⟩

end Frame
end

theorem frame_modifyProcess (s : Scheduler) (pid : ProcessId) {f : Process → Process}
    (hf : ∀ p, (f p).core = p.core) : Frame s (s.modifyProcess pid f) :=
  ⟨⟨Finmap.map_lookup_adjust hf,rfl⟩,fun _ => rfl⟩

theorem keepsTables_foldl (f : Scheduler → α → Scheduler) (hf : ∀ s a, KeepsTables s (f s a))
    (as : List α) (s : Scheduler) : KeepsTables s (as.foldl f s) := by
  induction as generalizing s with
  | nil => exact .refl s
  | cons a as ih => exact (hf s a).trans (ih (f s a))

section
variable (s : Scheduler)

theorem forcePreempt_frame (clk : Clock) : Frame s (s.forcePreempt clk) := by
  unfold forcePreempt
  split
  · exact .of_eq rfl rfl rfl
  · exact (frame_modifyProcess s _ (core_preempt _)).congr rfl rfl rfl

theorem rtJitter_frame (pid : ProcessId) (now : UInt64) : Frame s (s.rtJitter pid now) := by
  unfold rtJitter
  split
  · exact .refl s
  · dsimp only
    split <;> split <;> exact .of_eq rfl rfl rfl

theorem scheduleNextRt_frame (order : List ProcessId) (clk : Clock) :
    Frame s (s.scheduleNextRt order clk).1 := by
  unfold scheduleNextRt
  split
  next _ _ pid _ =>
    refine Frame.congr (Frame.trans ?_ (rtJitter_frame _ pid clk.wall)) rfl rfl rfl
    refine Frame.congr (Frame.trans ?_ (frame_modifyProcess _ pid (core_setState .running)))
      rfl rfl rfl
    split
    · split
      · exact frame_modifyProcess s _ (core_setState _)
      · exact .refl s
    · exact .refl s
  next => exact .of_eq rfl rfl rfl

theorem suspendProcess_frame (pid : ProcessId) : Frame s (s.suspendProcess pid).1 := by
  unfold suspendProcess
  split
  · exact .refl s
  · have h := frame_modifyProcess s pid (core_setState .suspended)
    refine Frame.adjust ?_ pid (f := fun r => { r with suspend := true }) fun _ => rfl
    split
    · exact h.congr rfl rfl rfl
    · exact h

theorem resumeProcess_frame (pid : ProcessId) : Frame s (s.resumeProcess pid).1 := by
  unfold resumeProcess
  split
  · exact .refl s
  · refine Frame.adjust ?_ pid (f := fun r => { r with suspend := false }) fun _ => rfl
    split
    · exact frame_modifyProcess s pid (core_setState .ready)
    · exact .refl s

theorem reportCrash_frame (clk : Clock) (pid : ProcessId) : Frame s (s.reportCrash clk pid).1 := by
  unfold reportCrash
  split
  · exact .refl s
  · exact (frame_modifyProcess s pid core_crash).congr rfl rfl rfl

theorem takePanics_keepsTables (order : List ProcessId) : KeepsTables s (s.takePanics order).1 := by
  induction order generalizing s with
  | nil => exact .refl s
  | cons pid rest ih =>
    unfold takePanics
    split
    · exact ih s
    · exact KeepsTables.trans (t := s.clearPanic pid) (.of_eq rfl rfl) (ih _)

theorem raiseFault_keepsTables (clk : Clock) (pid : ProcessId) (message : String) :
    KeepsTables s (s.raiseFault clk pid message).1 := by
  unfold raiseFault
  dsimp only
  split
  · exact .of_eq rfl rfl
  · exact (frame_modifyProcess s pid core_crash).toKeepsTables.congr rfl rfl

theorem raiseFaults_keepsTables (clk : Clock) (found : List (ProcessId × String)) :
    KeepsTables s (s.raiseFaults clk found).1 := by
  induction found generalizing s with
  | nil => exact .refl s
  | cons e rest ih => exact (raiseFault_keepsTables s clk e.1 e.2).trans (ih _)

theorem pollFaults_keepsTables (order : List ProcessId) (clk : Clock) :
    KeepsTables s (s.pollFaults order clk).1 :=
  (takePanics_keepsTables s order).trans (raiseFaults_keepsTables _ clk _)

theorem resume_frame (pid : ProcessId) : Frame s (s.resolveFault pid .resume).1 := by
  unfold resolveFault
  split
  · exact .refl s
  · dsimp only
    split
    · exact .of_eq rfl rfl rfl
    · exact (frame_modifyProcess s pid (core_setState .ready)).congr rfl rfl rfl

theorem advanceRoundRobin_frame (pid : ProcessId) : Frame s (s.advanceRoundRobin pid) := by
  unfold advanceRoundRobin
  repeat' split
  all_goals exact .of_eq rfl rfl rfl

end

theorem dispatch_frame (h : s.dispatch clk pid = some t) : Frame s t := by
  unfold dispatch at h
  dsimp only at h
  split at h
  · simp at h
  · cases h
    refine Frame.congr (Frame.trans ?_ ((advanceRoundRobin_frame _ pid).trans
      (frame_modifyProcess _ pid (core_setState .running)))) rfl rfl rfl
    split
    · exact frame_modifyProcess s _ (core_setState _)
    · exact .refl s

theorem yieldCurrent_frame (s : Scheduler) (clk : Clock) : Frame s (s.yieldCurrent clk) := by
  unfold yieldCurrent
  split
  · exact .refl s
  · exact (frame_modifyProcess s _ (core_preempt _)).congr rfl rfl rfl

theorem reschedule_frame (h : s.reschedule clk = some r) : Frame s r.1 := by
  obtain ⟨candidate,-,hrun⟩ := bind_eq_some_iff.mp h
  have hyield := yieldCurrent_frame s clk
  split at hrun
  · obtain ⟨t,ht,hr⟩ := map_eq_some_iff.mp hrun
    rw [← hr]
    exact hyield.trans (dispatch_frame ht)
  · rw [← some.inj hrun]
    exact hyield.congr rfl rfl rfl

theorem scheduleNext_frame (h : s.scheduleNext order clk = some r) : Frame s r.1 := by
  revert h
  fun_cases scheduleNext s order clk with
  | case1 =>
    rintro ⟨⟩
    exact scheduleNextRt_frame s order clk
  | case2 =>
    rintro ⟨⟩
    exact .refl s
  | case3 => exact reschedule_frame

theorem expire_frame : Frame s (s.expire clk) := by
  fun_cases expire s clk with
  | case3 => exact (frame_modifyProcess s _ (core_preempt _)).congr rfl rfl rfl
  | _ => exact .refl s

theorem tick_frame {later : Clock} (h : s.tick order clk later = some r) : Frame s r.1 :=
  expire_frame.trans (scheduleNext_frame h)

theorem checkRealThreads_keepsTables : KeepsTables s (s.checkRealThreads order).1 := by
  apply keepsTables_foldl
  intro s pid
  exact (frame_modifyProcess s pid core_settle).toKeepsTables.congr rfl rfl

theorem moveMember_frame (acc : Scheduler × List ProcessId) :
    Frame acc.1 (moveMember from_ to_ acc pid).1 := by
  unfold moveMember
  split
  · exact .refl _
  · split
    · exact frame_modifyProcess _ pid (core_setState to_)
    · exact .refl _

theorem moveMembers_frame (groupId : ℕ) : Frame s (moveMembers from_ to_ s groupId).1 := by
  unfold moveMembers
  split
  · exact .refl s
  next group _ =>
    have hfold (pids : List ProcessId) (acc : Scheduler × List ProcessId) :
        Frame acc.1 (pids.foldl (moveMember from_ to_) acc).1 := by
      induction pids generalizing acc with
      | nil => exact .refl _
      | cons pid pids ih => exact (moveMember_frame acc).trans (ih _)
    exact hfold group.memberPids (s,[])

theorem setCpuAffinity_frame (cores : List ℕ) : Frame s (s.setCpuAffinity pid cores).1 := by
  unfold setCpuAffinity
  split
  · exact .refl s
  · split
    · exact .refl s
    · exact (Frame.refl s).adjust pid (f := fun r => { r with affinity := cores }) fun _ => rfl

theorem registerMemoryPressureCallback_frame (name : String) :
    Frame s (s.registerMemoryPressureCallback name) := by
  unfold registerMemoryPressureCallback
  split <;> exact .of_eq rfl rfl rfl

theorem recordPanic_threads {message : String} (h : s.recordPanic pid message = some t) :
    ∃ threads, t = { s with realThreads := threads } := by
  revert h
  fun_cases recordPanic s pid message with
  | case3 =>
    rintro ⟨⟩
    exact ⟨_,rfl⟩
  | _ => exact nofun

theorem finishThread_threads (h : s.finishThread pid = some t) :
    ∃ threads, t = { s with realThreads := threads } := by
  revert h
  fun_cases finishThread s pid with
  | case1 => exact nofun
  | case2 =>
    rintro ⟨⟩
    exact ⟨_,rfl⟩

end Scheduler

/-- The operations that write none of the tables. -/
def Op.quiet : Op → Bool
  | .spawnProcess .. | .spawnRealProcess .. | .spawnChild .. => false
  | .killProcess _ | .setPriority .. => false
  | .resolveFault _ .terminate | .resolveFault _ .rollback => false
  | .createGroup .. | .createSession .. | .addToGroup .. | .removeFromGroup _ => false
  | .killGroup _ | .setGroupPriority .. => false
  | _ => true

/-- The public operations apart from the two polling functions. -/
def Op.isCall : Op → Bool
  | .pollFaults .. | .checkRealThreads _ | .recordPanic .. | .finishThread _ => false
  | _ => true

namespace Scheduler

variable {s t : Scheduler} {op : Op}

theorem step_frame (hq : op.quiet = true) (hc : op.isCall = true) (h : s.step op = some t) :
    Frame s t := by
  have frame {u : Scheduler} (hu : Frame s u) (he : some u = some t) : Frame s t := some.inj he ▸ hu
  cases op with
  | forcePreempt clk => exact frame (forcePreempt_frame s clk) h
  | setSchedulingMode | setRtDeadline | clearRtDeadline | clearJitterLog | setLastScheduled
  | takeFaults =>
    cases h
    exact .of_eq rfl rfl rfl
  | suspendProcess pid => exact frame (suspendProcess_frame s pid) h
  | resumeProcess pid => exact frame (resumeProcess_frame s pid) h
  | reportCrash clk pid => exact frame (reportCrash_frame s clk pid) h
  | resolveFault pid action =>
    cases action with
    | resume => exact frame (resume_frame s pid) h
    | _ => cases hq
  | scheduleNext order clk =>
    obtain ⟨r,hr,rfl⟩ := map_eq_some_iff.mp (ite_none_right_eq_some.mp h).2
    exact scheduleNext_frame hr
  | tick order clk =>
    obtain ⟨r,hr,rfl⟩ := map_eq_some_iff.mp (ite_none_right_eq_some.mp h).2
    exact tick_frame hr
  | registerMemoryPressureCallback name =>
    exact frame (registerMemoryPressureCallback_frame name) h
  | setCpuAffinity pid cores => exact frame (setCpuAffinity_frame cores) h
  | suspendGroup groupId | resumeGroup groupId => exact frame (moveMembers_frame groupId) h
  | pollFaults | checkRealThreads | recordPanic | finishThread => cases hc
  | _ => cases hq

theorem step_keepsTables (hq : op.quiet = true) (h : s.step op = some t) : KeepsTables s t := by
  by_cases hc : op.isCall = true
  · exact (step_frame hq hc h).toKeepsTables
  cases op with
  | pollFaults order clk =>
    cases (ite_none_right_eq_some.mp h).2
    exact pollFaults_keepsTables s order clk
  | checkRealThreads order =>
    cases (ite_none_right_eq_some.mp h).2
    exact checkRealThreads_keepsTables
  | recordPanic pid message =>
    obtain ⟨threads,rfl⟩ := recordPanic_threads h
    exact .of_eq rfl rfl
  | finishThread pid =>
    obtain ⟨threads,rfl⟩ := finishThread_threads h
    exact .of_eq rfl rfl
  | _ => exact absurd rfl hc

end Scheduler
end Aios.ProcessMgr
