import Aios.ProcessMgr.Cpu

/-!
Who runs. `current`, the timer and the states of the processes are three records of one
fact; they agree along a run precisely as long as no operation strands the process that
has the CPU.
-/
namespace Aios.ProcessMgr
namespace Scheduler

open Transition
variable {s t : Scheduler} {pid : ProcessId} {op : Op} {clk : Clock} {order : List ProcessId}

structure OnCpu (s : Scheduler) : Prop where
  running : ∀ pid, s.stateOf pid = some .running ↔ s.current = some pid
  timer : s.timedPid = s.current

def Forgets (s : Scheduler) : Op → Prop
  | .scheduleNext _ _ => s.schedulingMode = .realTime ∧ ∀ j, s.stateOf j ≠ some .ready
  | .tick _ clk _ => s.sliceOver clk = false ∧ s.schedulingMode = .realTime ∧
      ∀ j, s.stateOf j ≠ some .ready
  | _ => False

/-- The operation neither changes the state of the process that has the CPU behind the back of
`current`, nor forgets it while it is running. -/
structure SparesCurrent (s : Scheduler) (op : Op) (pid : ProcessId) : Prop where
  crashes : s.crashes op pid = false
  recovers : s.recovers op pid = false
  settles : s.settles op pid = false
  suspends : s.suspendsMember op pid = false
  forgets : ¬ Forgets s op

theorem relabel_ne_running {st : ProcessState} (hst : st ≠ .running) :
    s.relabel op pid st ≠ .running := by
  unfold relabel settleState moveState
  split_ifs <;> simp [hst]

theorem relabel_running : s.relabel op pid .running = .running ↔ s.crashes op pid = false ∧
      s.recovers op pid = false ∧ s.settles op pid = false ∧ s.suspendsMember op pid = false := by
  unfold relabel settleState moveState
  split_ifs <;> simp_all

theorem Relabels.onCpu_iff {f : ProcessId → ProcessState → ProcessState} (h : OnCpu s)
    (hr : Relabels s t f) (hf : ∀ pid st, st ≠ .running → f pid st ≠ .running) :
    OnCpu t ↔ ∀ pid, s.current = some pid → f pid .running = .running := by
  constructor
  · intro ht pid hpid
    have hrun := (ht.running pid).mpr (hr.current.trans hpid)
    rw [hr.state,(h.running pid).mpr hpid,Option.map_some,Option.some.injEq] at hrun
    exact hrun
  · intro hkeep
    refine ⟨fun pid => ?_,by rw [hr.timer,hr.current,h.timer]⟩
    rw [hr.current,hr.state,Option.map_eq_some_iff]
    constructor
    · rintro ⟨st,hst,he⟩
      have hrun : st = .running := by
        by_contra hne
        exact hf pid st hne he
      rw [← h.running pid,hst,hrun]
    · intro hpid
      exact ⟨.running,(h.running pid).mpr hpid,hkeep pid hpid⟩

theorem OnCpu.yielded_ne_running (h : OnCpu s) (pid : ProcessId) :
    s.yieldedState pid ≠ some .running := by
  unfold yieldedState
  split
  next hc => simp
  next hc => exact fun hrun => hc ((h.running pid).mp hrun)

theorem Released.onCpu (hr : Released s t) (h : OnCpu s) : OnCpu t := by
  refine ⟨fun pid => ?_,by rw [timedPid,hr.timer,hr.current,Option.map_none]⟩
  rw [hr.current,hr.state]
  exact iff_of_false (h.yielded_ne_running pid) (by simp)

theorem Given.onCpu (hg : Given s t pid) (h : OnCpu s) : OnCpu t := by
  refine ⟨fun j => ?_,by rw [hg.timer,hg.current]⟩
  rw [hg.current,hg.state,Option.some.injEq]
  split
  next hj => exact iff_of_true rfl hj.symm
  next hj => exact iff_of_false (h.yielded_ne_running j) (Ne.symm hj)

theorem Dropped.onCpu_iff (hd : Dropped s t) (h : OnCpu s) : OnCpu t ↔ s.current = none := by
  constructor
  · intro ht
    cases hc : s.current with
    | none => rfl
    | some pid =>
      have hrun := (h.running pid).mpr hc
      rw [← hd.state,ht.running,hd.current] at hrun
      cases hrun
  · intro hc
    refine ⟨fun pid => ?_,by rw [timedPid,hd.timer,hd.current,Option.map_none]⟩
    rw [hd.state,h.running,hc,hd.current]

theorem Withdrawn.onCpu {st : Option ProcessState} (hw : Withdrawn s t pid st)
    (hst : st ≠ some .running) (h : OnCpu s) : OnCpu t := by
  by_cases hc : s.current = some pid
  · have hmem : pid ∈ s.processes := mem_of_stateOf ((h.running pid).mpr hc)
    have hcur : t.current = none := by rw [hw.current,if_pos ⟨hmem,hc⟩]
    refine ⟨fun j => ?_,by rw [hw.timer,if_pos ⟨hmem,hc⟩,hcur]⟩
    rw [hcur,hw.state]
    refine iff_of_false ?_ (by simp)
    split
    · exact hst
    next hj =>
      rw [h.running,hc,Option.some.injEq]
      exact Ne.symm hj
  · have hcur : t.current = s.current := by rw [hw.current,if_neg fun hb => hc hb.2]
    refine ⟨fun j => ?_,by rw [hw.timer,if_neg fun hb => hc hb.2,hcur,h.timer]⟩
    rw [hcur,hw.state]
    split
    next hj =>
      rw [hj]
      exact iff_of_false hst hc
    next => exact h.running j

theorem Spawned.onCpu {process : Process} (hs : Spawned s t process) (hj : PidsBelow s)
    (h : OnCpu s) : OnCpu t := by
  refine ⟨fun j => ?_,by rw [timedPid,hs.timer,hs.current,← h.timer]; rfl⟩
  rw [hs.current,hs.stateOf]
  split
  next hnew =>
    refine iff_of_false (by simp) fun hc => ?_
    have hrun := (h.running j).mpr hc
    rw [hnew,Scheduler.stateOf,hj.fresh] at hrun
    cases hrun
  next => exact h.running j

theorem sparesCurrent_iff (hf : ¬ Forgets s op) :
    SparesCurrent s op pid ↔ s.relabel op pid .running = .running := by
  rw [relabel_running]
  exact ⟨fun h => ⟨h.crashes,h.recovers,h.settles,h.suspends⟩,fun ⟨h₁,h₂,h₃,h₄⟩ => ⟨h₁,h₂,h₃,h₄,hf⟩⟩

theorem Scheduled.onCpu_iff (hs : Scheduled s t) (h : OnCpu s) :
    OnCpu t ↔ ∀ pid, s.current = some pid →
      ¬ (s.schedulingMode = .realTime ∧ ∀ j, s.stateOf j ≠ some .ready) := by
  cases hs with
  | kept mode same =>
    rw [same]
    exact iff_of_true h fun _ _ hrt => by simp [mode] at hrt
  | released mode change =>
    exact iff_of_true (change.onCpu h) fun _ _ hrt => by simp [mode] at hrt
  | given pid change =>
    exact iff_of_true (change.onCpu h) fun _ _ hrt => hrt.2 pid change.ready
  | dropped mode idle change =>
    rw [change.onCpu_iff h]
    constructor
    · intro hc pid hpid
      rw [hc] at hpid
      cases hpid
    · intro hno
      cases hc : s.current with
      | none => rfl
      | some pid => exact absurd ⟨mode,idle⟩ (hno pid hc)

theorem tick_onCpu_iff {later : Clock} (hs : Scheduled (s.expire clk) t) (h : OnCpu s) :
    OnCpu t ↔ ∀ pid, s.current = some pid → ¬ Forgets s (.tick order clk later) := by
  rcases expire_cases s clk with ⟨hwhy,he⟩ | ⟨hover,hrel⟩
  · rw [he] at hs
    rw [hs.onCpu_iff h]
    refine forall₂_congr fun pid hpid => not_congr ?_
    have hover : s.sliceOver clk = false := by
      rcases hwhy with hover | hc
      · exact hover
      · rw [hc] at hpid
        cases hpid
    exact ⟨fun hrt => ⟨hover,hrt⟩,fun hf => hf.2⟩
  · -- the CPU is idle when the scheduling round starts
    have hidle : OnCpu t := (hs.onCpu_iff (hrel.onCpu h)).mpr fun pid hpid => by
      rw [hrel.current] at hpid
      cases hpid
    refine iff_of_true hidle fun pid _ hf => ?_
    have hnot := hf.1
    rw [hover] at hnot
    cases hnot

theorem killGroup_onCpu (h : OnCpu s) (groupId : ℕ) : OnCpu (s.killGroup groupId).1 := by
  unfold killGroup
  split
  · exact h
  next group _ =>
    have hkilled := killMembers_induction
      (fun s pid hs => (killProcess_killed s pid).withdrawn.onCpu (by simp) hs) h group.memberPids
    exact ⟨hkilled.running,hkilled.timer⟩

/-- One operation keeps the three records in agreement precisely if it spares the
process that has the CPU. -/
theorem step_onCpu_iff (hj : PidsBelow s) (h : OnCpu s) (hst : s.step op = some t) :
    OnCpu t ↔ ∀ pid, s.current = some pid → SparesCurrent s op pid := by
  have fine (ht : OnCpu t) (hr : ∀ pid, s.relabel op pid .running = .running)
      (hf : ¬ Forgets s op) : OnCpu t ↔ ∀ pid, s.current = some pid → SparesCurrent s op pid :=
    iff_of_true ht fun pid _ => (sparesCurrent_iff hf).mpr (hr pid)
  have same {u : Scheduler} (hr : Relabels s u fun _ st => st) : OnCpu u :=
    (hr.onCpu_iff h fun _ _ => id).mpr fun _ _ => rfl
  cases step_cpu hst with
  | relabels hop change =>
    rw [change.onCpu_iff h fun pid st => relabel_ne_running]
    refine forall₂_congr fun pid _ => (sparesCurrent_iff ?_).symm
    cases op <;> first | exact id | simp [Op.relabels] at hop
  | refused hop change =>
    cases op <;> first
      | exact fine (same change) (fun _ => rfl) id
      | simp [Op.spawnRequest] at hop
  | spawned hop process change =>
    cases op <;> first
      | exact fine (change.onCpu hj h) (fun _ => rfl) id
      | simp [Op.spawnRequest] at hop
  | preemptedNone clk change => exact fine (same change) (fun _ => rfl) id
  | preempted clk change => exact fine (change.onCpu h) (fun _ => rfl) id
  | suspended pid change =>
    exact fine (change.onCpu (by cases s.stateOf pid <;> simp) h) (fun _ => rfl) id
  | killed pid change | terminated pid pending change =>
    exact fine (change.onCpu (by simp) h) (fun _ => rfl) id
  | terminatedNone pid same => exact fine (same ▸ h) (fun _ => rfl) id
  | groupKilled groupId change => exact fine (change ▸ killGroup_onCpu h groupId) (fun _ => rfl) id
  | scheduled order clk change =>
    rw [change.onCpu_iff h]
    exact forall₂_congr fun pid _ => ⟨fun hf => ⟨rfl,rfl,rfl,rfl,hf⟩,fun hs => hs.forgets⟩
  | ticked order clk later change =>
    rw [tick_onCpu_iff change h]
    exact forall₂_congr fun pid _ => ⟨fun hf => ⟨rfl,rfl,rfl,rfl,hf⟩,fun hs => hs.forgets⟩

theorem init_onCpu (cfg : Config) : OnCpu (init cfg) :=
  ⟨fun pid => by simp [stateOf,init,new,withTimeSlice,withAgingThreshold,withMaxRestarts],rfl⟩

/-- In every run a process is running exactly when it is current and the timer is its own, precisely
if no operation strands the process that has the CPU. -/
theorem on_cpu_iff_current_is_spared (cfg : Config) (ops : List Op) :
    Always step OnCpu (init cfg) ops ↔
      EachStep step (fun s op _ => ∀ pid, s.current = some pid → SparesCurrent s op pid)
        (init cfg) ops :=
  always_iff_eachStep (J := PidsBelow) (fun _ _ _ hj hst => step_pidsBelow hj hst)
    (fun _ _ _ hj h hst => step_onCpu_iff hj h hst) (init_pidsBelow cfg) (init_onCpu cfg) ops

def crashedCurrentRun : List Op :=
  [.spawnProcess ⟨0,0⟩ "a" .normal 16,.scheduleNext [1] ⟨1,1000000⟩,.reportCrash ⟨2,2000000⟩ 1]

theorem crashed_process_stays_current :
    ∃ t, exec step (init ⟨256,10,500,3⟩) crashedCurrentRun = some t ∧ ¬ OnCpu t := by
  refine ⟨_,rfl,fun h => ?_⟩
  have hrun := (h.running 1).mpr (by decide)
  revert hrun
  decide

end Scheduler
end Aios.ProcessMgr
