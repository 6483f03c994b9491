import Aios.ProcessMgr.Cpu

/-!
Frozen processes. A suspended or crashed process waits for its resume or resolution. The preemption
paths put back whatever `current` names, so the process that has the CPU must not be frozen in
place.
-/
namespace Aios.ProcessMgr
namespace Scheduler

open Transition Option
variable {s t : Scheduler} {pid : ProcessId} {op : Op} {clk : Clock} {order : List ProcessId}
  {st : ProcessState}

def Frozen (st : ProcessState) : Prop := st = .suspended ∨ st = .crashed

def Kills (s : Scheduler) : Op → ProcessId → Prop
  | .killProcess p, pid => pid = p
  | .resolveFault p .terminate, pid => pid = p ∧ s.hasPendingFault p
  | .killGroup g, pid => pid ∈ s.membersOf g
  | _, _ => False

/-- The operations that decide on the CPU or look after the threads. -/
def schedules : Op → Bool
  | .forcePreempt _ | .scheduleNext .. | .tick .. | .checkRealThreads _ => true
  | _ => false

structure FrozenStays (s : Scheduler) (op : Op) (t : Scheduler) : Prop where
  suspended : ∀ pid, s.stateOf pid = some .suspended → t.stateOf pid = some .suspended ∨
    (t.stateOf pid = some .ready ∧ s.resumes op pid) ∨
    (t.stateOf pid = some .crashed ∧ s.crashes op pid) ∨ (t.stateOf pid = none ∧ Kills s op pid)
  crashed : ∀ pid, s.stateOf pid = some .crashed → t.stateOf pid = some .crashed ∨
    (t.stateOf pid = some .ready ∧ s.recovers op pid) ∨
    (t.stateOf pid = some .suspended ∧ op = .suspendProcess pid) ∨
    (t.stateOf pid = none ∧ Kills s op pid)
  scheduling : schedules op = true → ∀ pid st, Frozen st → s.stateOf pid = some st →
    t.stateOf pid = some st

/-- The process that has the CPU is not frozen. -/
def CurrentAwake (s : Scheduler) : Prop :=
  ∀ pid st, s.current = some pid → s.stateOf pid = some st → ¬ Frozen st

/-- The operation freezes no process that keeps the CPU, and resolves no fault of a process
suspended since. -/
structure FreezesOffCpu (s : Scheduler) (op : Op) : Prop where
  crashes : ∀ pid, s.current = some pid → s.crashes op pid = false
  suspends : ∀ pid, s.current = some pid → s.suspendsMember op pid = false
  recovers : ∀ pid, s.stateOf pid = some .suspended → s.recovers op pid = false

theorem relabel_awake (hc : s.crashes op pid = false) (hs : s.suspendsMember op pid = false)
    (hst : ¬ Frozen st) : ¬ Frozen (s.relabel op pid st) := by
  unfold relabel settleState moveState
  split_ifs <;> simp_all [Frozen]

theorem Withdrawn.currentAwake {last : Option ProcessState} (hw : Withdrawn s t pid last)
    (habsent : pid ∉ s.processes → last = none) (h : CurrentAwake s) : CurrentAwake t := by
  intro j st hcur hst
  rw [hw.current] at hcur
  split at hcur
  · cases hcur
  next hnot =>
    rw [hw.state] at hst
    split at hst
    next hj =>
      rw [habsent fun hmem => hnot ⟨hmem,hj ▸ hcur⟩] at hst
      cases hst
    next => exact h j st hcur hst

theorem Given.currentAwake (hg : Given s t pid) : CurrentAwake t := by
  intro j st hcur hst
  rw [hg.current,some.injEq] at hcur
  rw [hg.state,if_pos hcur.symm,some.injEq] at hst
  simp [Frozen,← hst]

theorem currentAwake_of_idle (h : t.current = none) : CurrentAwake t := by
  intro j st hcur
  rw [h] at hcur
  cases hcur

theorem Spawned.currentAwake {process : Process} (hs : Spawned s t process)
    (h : CurrentAwake s) : CurrentAwake t := by
  intro j st hcur hst
  rw [hs.current] at hcur
  rw [hs.stateOf] at hst
  split at hst
  · simp [Frozen,← some.inj hst]
  · exact h j st hcur hst

theorem CurrentAwake.congr (h : CurrentAwake s) (hp : t.processes = s.processes)
    (hc : t.current = s.current) : CurrentAwake t := by
  intro j st hcur hst
  rw [hc] at hcur
  rw [stateOf_congr hp] at hst
  exact h j st hcur hst

theorem Scheduled.currentAwake (hs : Scheduled s t) (h : CurrentAwake s) : CurrentAwake t := by
  cases hs with
  | kept mode same => rwa [same]
  | released mode change | dropped mode idle change => exact currentAwake_of_idle change.current
  | given pid change => exact change.currentAwake

theorem expire_currentAwake (h : CurrentAwake s) : CurrentAwake (s.expire clk) := by
  rcases expire_cases s clk with ⟨-,he⟩ | ⟨-,hrel⟩
  · rwa [he]
  · exact currentAwake_of_idle hrel.current

theorem killGroup_currentAwake (h : CurrentAwake s) (groupId : ℕ) :
    CurrentAwake (s.killGroup groupId).1 := by
  unfold killGroup
  split
  · exact h
  next group _ =>
    have hk := killMembers_induction
      (fun s pid hs => (killProcess_killed s pid).withdrawn.currentAwake (fun _ => rfl) hs) h
      group.memberPids
    exact hk.congr rfl rfl

theorem Relabels.currentAwake {f : ProcessId → ProcessState → ProcessState}
    (hr : Relabels s t f) (h : CurrentAwake s)
    (hf : ∀ pid, s.current = some pid → ∀ st, ¬ Frozen st → ¬ Frozen (f pid st)) :
    CurrentAwake t := by
  intro pid st hcur hst
  rw [hr.current] at hcur
  rw [hr.state,map_eq_some_iff] at hst
  obtain ⟨old,hold,rfl⟩ := hst
  exact hf pid hcur old (h pid old hcur hold)

theorem step_currentAwake (h : CurrentAwake s) (hc : FreezesOffCpu s op)
    (hst : s.step op = some t) : CurrentAwake t := by
  cases step_cpu hst with
  | relabels hop change =>
    exact change.currentAwake h fun pid hpid st =>
      relabel_awake (hc.crashes pid hpid) (hc.suspends pid hpid)
  | refused hop change | preemptedNone clk change => exact change.currentAwake h fun _ _ _ => id
  | spawned hop process change => exact change.currentAwake h
  | preempted clk change => exact currentAwake_of_idle change.current
  | suspended pid change =>
    exact change.currentAwake (fun hnot => by rw [stateOf_eq_none.mpr hnot,map_none]) h
  | killed pid change => exact change.currentAwake (fun _ => rfl) h
  | terminatedNone pid same => exact same ▸ h
  | terminated pid pending change => exact change.currentAwake (fun _ => rfl) h
  | groupKilled groupId change => exact change ▸ killGroup_currentAwake h groupId
  | scheduled order clk change => exact change.currentAwake h
  | ticked order clk later change => exact change.currentAwake (expire_currentAwake h)

theorem yieldedState_frozen (h : CurrentAwake s) (hst : s.stateOf pid = some st)
    (hf : Frozen st) : s.yieldedState pid = some st := by
  rw [yieldedState,if_neg fun hc => h pid st hc hst hf,hst]

theorem Scheduled.frozen (hs : Scheduled s t) (h : CurrentAwake s)
    (hst : s.stateOf pid = some st) (hf : Frozen st) : t.stateOf pid = some st := by
  cases hs with
  | kept mode same => rwa [same]
  | released mode change => rw [change.state,yieldedState_frozen h hst hf]
  | given j change =>
    have hne : pid ≠ j := by
      rintro rfl
      rw [change.ready,some.injEq] at hst
      simp [Frozen,← hst] at hf
    rw [change.state,if_neg hne,yieldedState_frozen h hst hf]
  | dropped mode idle change => rw [change.state,hst]

theorem expire_frozen (h : CurrentAwake s) (hst : s.stateOf pid = some st)
    (hf : Frozen st) : (s.expire clk).stateOf pid = some st := by
  rcases expire_cases s clk with ⟨-,he⟩ | ⟨-,hrel⟩
  · rwa [he]
  · rw [hrel.state,yieldedState_frozen h hst hf]

theorem step_frozen (hj : PidsBelow s) (h : CurrentAwake s) (hst : s.step op = some t)
    (hp : s.stateOf pid = some st) (hf : Frozen st) :
    t.stateOf pid = some (s.relabel op pid st) ∨
      (t.stateOf pid = some .suspended ∧ op = .suspendProcess pid) ∨
      (t.stateOf pid = none ∧ Kills s op pid) := by
  cases step_cpu hst with
  | relabels hop change => exact .inl (by rw [change.state,hp,map_some])
  | refused hop change =>
    refine .inl ?_
    rw [change.state,hp]
    cases op <;> first | rfl | simp [Op.spawnRequest] at hop
  | spawned hop process change =>
    refine .inl ?_
    have hne : pid ≠ s.nextPid := by
      rintro rfl
      rw [stateOf,hj.fresh] at hp
      cases hp
    rw [change.stateOf,if_neg hne,hp]
    cases op <;> first | rfl | simp [Op.spawnRequest] at hop
  | preemptedNone clk change =>
    refine .inl ?_
    rw [change.state,hp]
    rfl
  | preempted clk change => exact .inl (by rw [change.state,yieldedState_frozen h hp hf]; rfl)
  | suspended p change =>
    by_cases hpid : pid = p
    · subst hpid
      exact .inr (.inl ⟨by rw [change.state,if_pos rfl,hp,map_some],rfl⟩)
    · exact .inl (by rw [change.state,if_neg hpid,hp]; rfl)
  | killed p change =>
    by_cases hpid : pid = p
    · exact .inr (.inr ⟨by rw [change.state,if_pos hpid],hpid⟩)
    · exact .inl (by rw [change.state,if_neg hpid,hp]; rfl)
  | terminatedNone p same => exact .inl (by rw [same,hp]; rfl)
  | terminated p pending change =>
    by_cases hpid : pid = p
    · exact .inr (.inr ⟨by rw [change.state,if_pos hpid],hpid,pending⟩)
    · exact .inl (by rw [change.state,if_neg hpid,hp]; rfl)
  | groupKilled groupId change =>
    have hstate := killGroup_stateOf s groupId pid
    rw [← change] at hstate
    split at hstate
    next hm => exact .inr (.inr ⟨hstate,hm⟩)
    next => exact .inl (by rw [hstate,hp]; rfl)
  | scheduled order clk change => exact .inl (change.frozen h hp hf)
  | ticked order clk later change =>
    exact .inl (change.frozen (expire_currentAwake h) (expire_frozen h hp hf) hf)

theorem relabel_suspended (hr : s.recovers op pid = false) :
    s.relabel op pid .suspended = .suspended ∨
      (s.relabel op pid .suspended = .ready ∧ s.resumes op pid = true) ∨
      (s.relabel op pid .suspended = .crashed ∧ s.crashes op pid = true) := by
  unfold relabel settleState moveState
  split_ifs <;> simp_all

theorem relabel_crashed : s.relabel op pid .crashed = .crashed ∨
      (s.relabel op pid .crashed = .ready ∧ s.recovers op pid = true) := by
  unfold relabel settleState moveState
  split_ifs <;> simp_all

theorem relabel_schedules (hop : schedules op = true) (hf : Frozen st) :
    s.relabel op pid st = st := by
  cases op with
  | checkRealThreads order =>
    rcases hf with rfl | rfl <;> simp [relabel,crashes,recovers,suspendsMember,resumes,settleState]
  | _ => first | rfl | simp [schedules] at hop

theorem step_frozenStays (hj : PidsBelow s) (h : CurrentAwake s) (hc : FreezesOffCpu s op)
    (hst : s.step op = some t) : FrozenStays s op t := by
  refine ⟨fun pid hp => ?_,fun pid hp => ?_,fun hop pid st hf hp => ?_⟩
  · rcases step_frozen hj h hst hp (.inl rfl) with hrel | ⟨hsus,-⟩ | hkill
    · rw [hrel]
      rcases relabel_suspended (hc.recovers pid hp) with he | ⟨he,hres⟩ | ⟨he,hcr⟩
      · exact .inl (by rw [he])
      · exact .inr (.inl ⟨by rw [he],hres⟩)
      · exact .inr (.inr (.inl ⟨by rw [he],hcr⟩))
    · exact .inl hsus
    · exact .inr (.inr (.inr hkill))
  · rcases step_frozen hj h hst hp (.inr rfl) with hrel | hsus | hkill
    · rw [hrel]
      rcases relabel_crashed with he | ⟨he,hrec⟩
      · exact .inl (by rw [he])
      · exact .inr (.inl ⟨by rw [he],hrec⟩)
    · exact .inr (.inr (.inl hsus))
    · exact .inr (.inr (.inr hkill))
  · rcases step_frozen hj h hst hp hf with hrel | ⟨-,hop'⟩ | ⟨-,hkill⟩
    · rw [hrel,relabel_schedules hop hf]
    · rw [hop'] at hop
      cases hop
    · cases op <;> first | exact hkill.elim | cases hop

theorem init_currentAwake (cfg : Config) : CurrentAwake (init cfg) := currentAwake_of_idle rfl

/-- In every run whose operations freeze no process that keeps the CPU (and resolve no fault of a
process suspended since), a frozen process leaves its state only by a resume, a resolution, a crash
report or a kill of its own; scheduling, ticking, preempting and reaping never wake it. -/
theorem frozen_processes_wait_for_their_release (cfg : Config) (ops : List Op)
    (h : EachStep step (fun s op _ => FreezesOffCpu s op) (init cfg) ops) :
    EachStep step FrozenStays (init cfg) ops := by
  have hinv : Always step (fun s => CurrentAwake s ∧ PidsBelow s) (init cfg) ops :=
    h.always (fun s op t hs hc hst => ⟨step_currentAwake hs.1 hc hst,step_pidsBelow hs.2 hst⟩)
      ⟨init_currentAwake cfg,init_pidsBelow cfg⟩
  exact hinv.eachStep (Q := FrozenStays)
    (fun _ _ _ hs hc hst => step_frozenStays hs.2 hs.1 hc hst) h

def suspendResumeRun : List Op :=
  [.spawnProcess ⟨0,0⟩ "a" .normal 16,.scheduleNext [1] ⟨1,1000000⟩,.suspendProcess 1,
    .tick [1] ⟨100,100000000⟩ ⟨100,100000000⟩,.resumeProcess 1]

theorem suspendResumeRun_waits :
    EachStep step (fun s op _ => FreezesOffCpu s op) (init ⟨256,10,500,3⟩) suspendResumeRun ∧
      EachStep step FrozenStays (init ⟨256,10,500,3⟩) suspendResumeRun := by
  have h : EachStep step (fun s op _ => FreezesOffCpu s op) (init ⟨256,10,500,3⟩)
      suspendResumeRun := by
    iterate 5 refine fun t ht => ⟨⟨fun _ _ => rfl,fun _ _ => rfl,fun _ _ => rfl⟩,?_⟩
    trivial
  exact ⟨h,frozen_processes_wait_for_their_release ⟨256,10,500,3⟩ suspendResumeRun h⟩

def suspendedGroupRun : List Op :=
  [.spawnProcess ⟨0,0⟩ "a" .normal 16,.createGroup ⟨0,0⟩ "g" .normal,.addToGroup 1 1,
    .scheduleNext [1] ⟨1,1000000⟩,.suspendGroup 1,.tick [1] ⟨100,100000000⟩ ⟨100,100000000⟩]

/-- The tick puts the suspended process back and dispatches it. -/
theorem tick_wakes_suspended_member :
    ¬ EachStep step FrozenStays (init ⟨256,10,500,3⟩) suspendedGroupRun := by
  intro h
  have hspawn := (h _ rfl).2
  have hgroup := (hspawn _ rfl).2
  have hadd := (hgroup _ rfl).2
  have hrun := (hadd _ rfl).2
  have hsuspend := (hrun _ rfl).2
  have hstay := (hsuspend _ rfl).1.scheduling rfl 1 .suspended (.inl rfl) (by decide)
  revert hstay
  decide

end Scheduler
end Aios.ProcessMgr
