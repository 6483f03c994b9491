import Aios.ProcessMgr.Cpu
import Aios.ProcessMgr.Queues

/-!
Whether the scheduler leaves the CPU idle while a process could use it. In normal mode the process
that loses the CPU is no candidate unless a tick has taken the CPU from it before.
-/
namespace Aios.ProcessMgr.Scheduler

open Transition List Option
variable {s t : Scheduler} {pid q : ProcessId} {clk : Clock} {order : List ProcessId}
  {r : Scheduler × Option ProcessId} {p j : Priority}
  {queues : Finmap fun _ : Priority => List ProcessId} {now : UInt64} {skip : Option ProcessId}
  {entry : Priority × ProcessId}

/-- Some process is ready, or the current one is running. -/
def Busy (s : Scheduler) : Prop :=
  ∃ pid, s.stateOf pid = some .ready ∨ s.current = some pid ∧ s.stateOf pid = some .running

/-- The process that is returned is the only one that runs. -/
def RunsReturned (r : Scheduler × Option ProcessId) : Prop :=
  ∃ pid, r.2 = some pid ∧ ∀ j, r.1.stateOf j = some .running ↔ j = pid

def OnlyCurrentRuns (s : Scheduler) : Prop :=
  ∀ pid, s.stateOf pid = some .running → s.current = some pid

/-- There is a process to choose: in real-time mode a ready one; in normal mode the current one
while its slice lasts, and then another ready one. -/
def HasChoice (s : Scheduler) (clk : Clock) : Prop :=
  if s.schedulingMode = .realTime then ∃ pid, s.stateOf pid = some .ready
  else if s.keepsCurrent clk then ∃ pid, s.current = some pid ∧ s.stateOf pid = some .running
  else ∃ pid, s.stateOf pid = some .ready ∧ s.current ≠ some pid

/-! ### Every process stands in a queue -/

def Enqueued (s : Scheduler) : Prop :=
  ∀ pid ∈ s.processes, ∃ priority, pid ∈ queueOf s.priorityQueues priority

theorem Enqueued.of_mem (h : Enqueued s) (hp : ∀ pid, pid ∈ t.processes → pid ∈ s.processes)
    (hq : t.priorityQueues = s.priorityQueues) : Enqueued t := fun pid hpid => by
  rw [hq]
  exact h pid (hp pid hpid)

theorem mem_dropFromQueue (hne : q ≠ pid) (h : q ∈ queueOf queues j) :
    q ∈ queueOf (dropFromQueue queues p pid) j := by
  rw [queueOf_dropFromQueue]
  split
  · exact mem_filter.mpr ⟨h,by simpa using hne⟩
  · exact h

theorem mem_pushQueue : q ∈ queueOf (pushQueue queues p pid) j ↔
      q ∈ queueOf queues j ∨ j = p ∧ q = pid := by
  rw [queueOf_pushQueue]
  split
  next h => simp [h]
  next h => simp [h]

theorem Killed.enqueued (hk : Killed s t pid) (h : Enqueued s) : Enqueued t := by
  intro j hj
  rw [hk.processes,Finmap.mem_erase] at hj
  obtain ⟨priority,hmem⟩ := h j hj.2
  refine ⟨priority,?_⟩
  rw [hk.queues]
  cases s.processes.lookup pid with
  | none => exact hmem
  | some process => exact mem_dropFromQueue hj.1 hmem

theorem step_enqueued {op : Op} (h : Enqueued s) (hst : s.step op = some t) : Enqueued t := by
  have hkeep {t : Scheduler} (hk : KeepsTables s t) : Enqueued t :=
    h.of_mem (fun pid => (hk.mem_iff pid).mp) hk.queues
  rcases op.writes_cases with ⟨ramMb,hop⟩ | ⟨pid,rfl⟩ | ⟨hsp,hroll⟩
  · rcases step_spawn hop hst with ⟨-,-,hr⟩ | ⟨-,-,-,process,-,hs⟩
    · exact h.of_mem (fun pid hp => by rwa [hr.processes] at hp) hr.queues
    · intro j hj
      rw [hs.processes,Finmap.mem_insert] at hj
      rw [hs.queues]
      rcases hj with rfl | hj
      · exact ⟨process.priority,mem_pushQueue.mpr (.inr ⟨rfl,rfl⟩)⟩
      · obtain ⟨p,hmem⟩ := h j hj
        exact ⟨p,mem_pushQueue.mpr (.inl hmem)⟩
  · cases hst
    rcases rollback_cases s pid with hk | ⟨-,snap,proc,-,-,he⟩
    · exact hkeep hk.toKeepsTables
    · rw [he]
      exact h.of_mem (fun j hj => Finmap.mem_adjust.mp hj) rfl
  · refine step_preserves (fun _ => hkeep) (fun s t pid hk h => hk.enqueued h)
      (fun s pid process priority _ h j hj => ?_)
      (fun s groups n _ _ h => h.of_mem (fun _ hj => hj) rfl)
      (fun s pid groupId h => h.of_mem (fun _ hj => Finmap.mem_adjust.mp hj) rfl) hsp hroll h hst
    by_cases hne : j = pid
    · exact ⟨priority,mem_pushQueue.mpr (.inr ⟨rfl,hne⟩)⟩
    · obtain ⟨p,hmem⟩ := h j (Finmap.mem_adjust.mp hj)
      exact ⟨p,mem_pushQueue.mpr (.inl (mem_dropFromQueue hne hmem))⟩

theorem enqueued_of_exec {cfg : Config} {ops : List Op} (h : exec step (init cfg) ops = some s) :
    Enqueued s :=
  (always_of_step (fun _ _ _ hs hst => step_enqueued hs hst)
    (fun _ hp => absurd hp Finmap.notMem_empty) ops).last h

/-! ### The candidate loop misses no ready process -/

theorem mem_scanQueue {queue : List ProcessId} (rrPos : ℕ) (h : pid ∈ queue) :
    pid ∈ scanQueue rrPos queue := by
  obtain ⟨k,hk,rfl⟩ := mem_iff_getElem.mp h
  have hlen : 0 < queue.length := by omega
  -- The step from the round-robin position to the place of the process.
  have hstep : (rrPos+(k+(queue.length-rrPos%queue.length))%queue.length) % queue.length = k := by
    have hmod := Nat.mod_lt rrPos hlen
    have hsum : rrPos%queue.length+(k+(queue.length-rrPos%queue.length)) =
        k+queue.length := by omega
    rw [Nat.add_mod_mod,← Nat.mod_add_mod,hsum,Nat.add_mod_right,Nat.mod_eq_of_lt hk]
  refine mem_filterMap.mpr ⟨(k+(queue.length-rrPos%queue.length))%queue.length,
    mem_range.mpr (Nat.mod_lt _ hlen),?_⟩
  rw [hstep,List.getElem?_eq_getElem hk]

theorem mem_scanOrder {priority : Priority} (h : pid ∈ queueOf s.priorityQueues priority) :
    (priority,pid) ∈ s.scanOrder := by
  refine mem_flatMap.mpr ⟨priority,by cases priority <;> simp,?_⟩
  unfold queueOf at h
  cases hq : s.priorityQueues.lookup priority with
  | none => simp [hq] at h
  | some queue =>
    rw [hq] at h
    exact mem_map.mpr ⟨pid,mem_scanQueue _ h,rfl⟩

theorem considerCandidate_ne_none {c : Option (Priority × UInt32 × ProcessId)}
    (h : s.considerCandidate now skip c entry = some none) :
    c = none ∧ ¬(s.stateOf entry.2 = some .ready ∧ some entry.2 ≠ skip) := by
  revert h
  fun_cases considerCandidate s now skip c entry with
  | case1 hskip => exact fun h => ⟨some.inj h,fun hno => hno.2 hskip⟩
  | case2 hskip hnone => exact fun h => ⟨some.inj h,by simp [stateOf,hnone]⟩
  | case3 hskip proc hp hready =>
    intro h
    obtain ⟨effective,-,he⟩ := map_eq_some_iff.mp h
    dsimp only at he
    split at he
    · cases he
    · split at he <;> cases he
  | case4 hskip proc hp hst =>
    exact fun h => ⟨some.inj h,by simp [stateOf_of_lookup hp,hst]⟩

theorem pickCandidate_none (h : s.pickCandidate now skip = some none)
    (hentry : entry ∈ s.scanOrder) : ¬(s.stateOf entry.2 = some .ready ∧ some entry.2 ≠ skip) := by
  have hall : ∀ (entries : List (Priority × ProcessId)) c,
      entries.foldlM (s.considerCandidate now skip) c = some none →
      c = none ∧ ∀ e ∈ entries, ¬(s.stateOf e.2 = some .ready ∧ some e.2 ≠ skip) := by
    intro entries
    induction entries with
    | nil => exact fun c hc => ⟨some.inj hc,by simp⟩
    | cons e rest ih =>
      intro c hc
      obtain ⟨c',hc',hrest⟩ := bind_eq_some_iff.mp hc
      obtain ⟨rfl,hothers⟩ := ih c' hrest
      obtain ⟨hnone,he⟩ := considerCandidate_ne_none hc'
      exact ⟨hnone,forall_mem_cons.mpr ⟨he,hothers⟩⟩
  exact (hall _ _ h).2 entry hentry

/-! ### One call -/

theorem Given.runsReturned_iff (h : Given s r.1 pid) (hr : r.2 = some pid) :
    RunsReturned r ↔ OnlyCurrentRuns s := by
  have hrunning (j : ProcessId) : r.1.stateOf j = some .running ↔
      j = pid ∨ s.stateOf j = some .running ∧ s.current ≠ some j := by
    rw [h.state,yieldedState]
    by_cases hj : j = pid
    · simp [hj]
    · by_cases hc : s.current = some j <;> simp [hj,hc]
  constructor
  · rintro ⟨p,hp,hall⟩ j hj
    obtain rfl : pid = p := some.inj (hr.symm.trans hp)
    by_contra hc
    obtain rfl := (hall j).mp ((hrunning j).mpr (.inr ⟨hj,hc⟩))
    rw [h.ready] at hj
    cases hj
  · intro honly
    refine ⟨pid,hr,fun j => (hrunning j).trans (or_iff_left ?_)⟩
    exact fun hj => hj.2 (honly j hj.1)

/-- From a state whose processes all stand in a queue, only the returned process runs exactly when
no other than the current one did and there was one to choose. -/
theorem scheduleNext_runsReturned_iff (hq : Enqueued s)
    (horder : Finmap.Enumerates order s.processes) (h : s.scheduleNext order clk = some r) :
    RunsReturned r ↔ OnlyCurrentRuns s ∧ s.HasChoice clk := by
  have hidle {r : Scheduler × Option ProcessId} (hr : r.2 = none) : ¬RunsReturned r := by
    rintro ⟨p,hp,-⟩
    rw [hr] at hp
    cases hp
  unfold scheduleNext at h
  unfold HasChoice
  split at h
  next hmode =>
    rw [if_pos hmode]
    obtain rfl := some.inj h
    cases hbest : s.rtBest order clk.wall with
    | some b =>
      have hg := scheduleNextRt_given clk hbest
      rw [hg.runsReturned_iff (by rw [scheduleNextRt,hbest])]
      exact (and_iff_left ⟨b.2,hg.ready⟩).symm
    | none =>
      have hnone : (s.scheduleNextRt order clk).2 = none := by rw [scheduleNextRt,hbest]
      refine iff_of_false (hidle hnone) fun ⟨_,p,hp⟩ => ?_
      exact (rtBetter_foldl_none hbest).2 p ((horder.2 p).mpr (mem_of_stateOf hp)) hp
  next hmode =>
    rw [if_neg hmode]
    split at h
    next hkeeps =>
      rw [if_pos hkeeps]
      obtain rfl := some.inj h
      constructor
      · rintro ⟨p,hp,hall⟩
        refine ⟨fun j hj => ?_,p,hp,(hall p).mpr rfl⟩
        rw [(hall j).mp hj]
        exact hp
      · rintro ⟨honly,p,hp,hrun⟩
        refine ⟨p,hp,fun j => ⟨fun hj => ?_,fun hj => hj ▸ hrun⟩⟩
        exact some.inj ((honly j hj).symm.trans hp)
    next hkeeps =>
      rw [if_neg hkeeps]
      rcases reschedule_cases h with ⟨hpick,-,hr⟩ | ⟨pid,hne,hg,hr⟩
      · refine iff_of_false (hidle hr) fun ⟨_,p,hp,hne⟩ => ?_
        have hmem : p ∈ s.processes := mem_of_stateOf hp
        -- The loop runs after the current process was put back, which keeps the queues.
        obtain ⟨priority,hqueue⟩ := hq p hmem
        rw [← (yieldCurrent_frame s clk).queues] at hqueue
        refine pickCandidate_none hpick (mem_scanOrder hqueue) ⟨?_,fun he => hne he.symm⟩
        rw [stateOf_yieldCurrent,yieldedState,if_neg hne]
        exact hp
      · rw [hg.runsReturned_iff hr]
        exact (and_iff_left ⟨pid,hg.ready,hne⟩).symm

theorem expire_of_idle (hc : s.current = none) (clk : Clock) : s.expire clk = s := by
  unfold expire
  split
  · rfl
  · rw [hc]
    split <;> rfl

/-- A tick that ends the slice leaves a ready process to choose whenever the scheduler is busy. -/
theorem Released.choice_iff (h : Released s t) (hbusy : Busy s) :
    OnlyCurrentRuns t ∧ t.HasChoice clk ↔ OnlyCurrentRuns s := by
  have honly : OnlyCurrentRuns t ↔ OnlyCurrentRuns s := by
    refine forall_congr' fun j => ?_
    rw [h.state,h.current,yieldedState]
    by_cases hc : s.current = some j <;> simp [hc]
  have hchoice : t.HasChoice clk := by
    have hready : ∃ pid, t.stateOf pid = some .ready ∧ t.current ≠ some pid := by
      obtain ⟨p,hp⟩ := hbusy
      refine ⟨p,?_,by simp [h.current]⟩
      rw [h.state,yieldedState]
      rcases hp with hp | ⟨hc,hp⟩
      · simp [hp]
      · simp [hc,hp]
    obtain ⟨p,hp,hne⟩ := hready
    unfold HasChoice
    split
    · exact ⟨p,hp⟩
    · rw [if_neg (by simp [keepsCurrent,h.current])]
      exact ⟨p,hp,hne⟩
  rw [and_iff_left hchoice,honly]

/-- In every reachable state and under every clock, `schedule_next` and `tick` run exactly the
process they return, whenever there is work, if and only if then only the current process is
running, and there is one to choose: for a tick, also the current one when the first reading of the
clock finds its slice over. -/
theorem work_conserved_iff {cfg : Config} {ops : List Op}
    (hreach : exec step (init cfg) ops = some s) (horder : Finmap.Enumerates order s.processes)
    (clk later : Clock) :
    (∀ r, s.scheduleNext order clk = some r →
      ((Busy s → RunsReturned r) ↔ (Busy s → OnlyCurrentRuns s ∧ s.HasChoice clk))) ∧
    (∀ r, s.tick order clk later = some r →
      ((Busy s → RunsReturned r) ↔ (Busy s → OnlyCurrentRuns s ∧
        (s.sliceOver clk = true ∧ s.current ≠ none ∨ s.HasChoice later)))) := by
  have hq := enqueued_of_exec hreach
  refine ⟨fun r h => imp_congr_right fun _ => scheduleNext_runsReturned_iff hq horder h,
    fun r h => imp_congr_right fun hbusy => ?_⟩
  have hexpired := scheduleNext_runsReturned_iff
    (hq.of_mem (fun j => (expire_frame.mem_iff j).mp) expire_frame.queues)
    (expire_enumerates horder) h
  rw [hexpired]
  by_cases hc : s.current = none
  · rw [expire_of_idle hc]
    simp [hc]
  · rcases expire_cases s clk with ⟨hslice | hnone,he⟩ | ⟨hslice,hrel⟩
    · rw [he]
      simp [hslice]
    · exact absurd hnone hc
    · rw [hrel.choice_iff hbusy]
      simp [hslice,hc]

def oneProcess : Scheduler :=
  ((init ⟨64,10,500,3⟩).spawnProcess ⟨0,0⟩ "a" .normal 16).1

/-- Its first call runs it. -/
theorem first_process_is_run :
    ∃ r, oneProcess.scheduleNext [1] ⟨0,0⟩ = some r ∧ RunsReturned r := by
  have hreach : exec step (init ⟨64,10,500,3⟩) [.spawnProcess ⟨0,0⟩ "a" .normal 16] =
    some oneProcess := rfl
  have horder : Finmap.Enumerates [1] oneProcess.processes := by decide +kernel
  refine ⟨_,rfl,((work_conserved_iff hreach horder ⟨0,0⟩ ⟨0,0⟩).1 _ rfl).mpr
    (fun _ => ⟨fun pid hp => ?_,?_⟩) ⟨1,.inl rfl⟩⟩
  · obtain rfl := mem_singleton.mp ((horder.2 pid).mpr (mem_of_stateOf hp))
    cases hp
  · exact ⟨1,rfl,nofun⟩

/-- The call at the end of its slice takes the CPU from it and leaves it idle. -/
theorem lone_process_is_dropped : ∃ s r, exec step (init ⟨64,10,500,3⟩)
        [.spawnProcess ⟨0,0⟩ "a" .normal 16,.scheduleNext [1] ⟨0,0⟩] = some s ∧
      s.current = some 1 ∧ s.stateOf 1 = some .running ∧
      s.scheduleNext [1] ⟨100,100000000⟩ = some r ∧ r.2 = none ∧
      r.1.stateOf 1 = some .ready := by
  refine ⟨_,_,rfl,?_,?_,rfl,?_,?_⟩
  all_goals decide +kernel

end Aios.ProcessMgr.Scheduler
