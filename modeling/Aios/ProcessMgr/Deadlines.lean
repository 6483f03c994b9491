import Aios.ProcessMgr.Cpu
import Aios.ProcessMgr.Ram
import Mathlib.Data.ENat.Basic

/-!
Deadlines in real-time mode. The search looks at the ready processes only, so the running one loses
the CPU to any of them.
-/
namespace Aios.ProcessMgr.Scheduler

open Transition List
variable {s t : Scheduler} {pid : ProcessId} {now : UInt64} {order : List ProcessId}
  {best : Option (UInt64 × ProcessId)} {b : UInt64 × ProcessId}

variable (s)

/-- The time to the deadline, infinite without one; deadlines that are past are all alike. -/
def timeLeft (now : UInt64) (pid : ProcessId) : ℕ∞ :=
  match s.rtDeadlines.lookup pid with
  | none => ⊤
  | some deadline => (deadline.toNat-now.toNat : ℕ)

/-- The same time as the code computes it. -/
def remaining (now : UInt64) (pid : ProcessId) : UInt64 :=
  satSub ((s.rtDeadlines.lookup pid).getD 0xFFFFFFFFFFFFFFFF) now

def Contends (pid : ProcessId) : Prop :=
  s.stateOf pid = some .ready ∨ s.stateOf pid = some .running

def Earliest (now : UInt64) (pid : ProcessId) : Prop :=
  ∀ j, s.Contends j → s.timeLeft now pid ≤ s.timeLeft now j

variable {s}

/-- A process runs if one was ready or running, and every one that runs has the earliest deadline
of these. -/
def EarliestRuns (s t : Scheduler) (now : UInt64) : Prop :=
  (∃ pid, s.Contends pid) → (∃ pid, t.stateOf pid = some .running) ∧
    ∀ pid, t.stateOf pid = some .running → s.Earliest now pid

/-- No running process is due before all ready ones; those left running are due first of all; and if
no ready process is due before the end of time, then all ready ones have a deadline or none has. -/
structure InOrder (s : Scheduler) (now : UInt64) : Prop where
  running : (∃ p, s.stateOf p = some .ready) → ∀ j, s.stateOf j = some .running →
    ∃ p, s.stateOf p = some .ready ∧ s.timeLeft now p ≤ s.timeLeft now j
  left : ∀ j, s.stateOf j = some .running →
    (s.current ≠ some j ∨ ∀ p, s.stateOf p ≠ some .ready) → s.Earliest now j
  unmixed : (∀ p, s.stateOf p = some .ready → s.remaining now p = satSub 0xFFFFFFFFFFFFFFFF now) →
    ∀ p q, s.stateOf p = some .ready → s.stateOf q = some .ready →
      s.timeLeft now p = ⊤ → s.timeLeft now q = ⊤

theorem timeLeft_of_ne_top (h : s.timeLeft now pid ≠ ⊤) :
    s.timeLeft now pid = ((s.remaining now pid).toNat : ℕ) := by
  unfold timeLeft remaining at *
  cases hd : s.rtDeadlines.lookup pid with
  | none => simp [hd] at h
  | some deadline => simp [satSub_toNat]

theorem remaining_of_top (h : s.timeLeft now pid = ⊤) :
    s.remaining now pid = satSub 0xFFFFFFFFFFFFFFFF now := by
  unfold timeLeft remaining at *
  cases hd : s.rtDeadlines.lookup pid with
  | none => rfl
  | some deadline => simp [hd] at h

theorem remaining_le : s.remaining now pid ≤ satSub 0xFFFFFFFFFFFFFFFF now := by
  have hmax := ((s.rtDeadlines.lookup pid).getD 0xFFFFFFFFFFFFFFFF).toNat_lt
  rw [UInt64.le_iff_toNat_le,remaining,satSub_toNat,satSub_toNat]
  have hword : (0xFFFFFFFFFFFFFFFF : UInt64).toNat = 2^64-1 := rfl
  omega

theorem rtBetter_of_ready (h : s.stateOf pid = some .ready) (best : Option (UInt64 × ProcessId)) :
    s.rtBetter now best pid = match best with
      | none => some (s.remaining now pid,pid)
      | some b =>
        if s.remaining now pid < b.1 then some (s.remaining now pid,pid) else some b := by
  obtain ⟨proc,hp,hst⟩ := Option.map_eq_some_iff.mp h
  simp only [rtBetter,hp,hst]
  rfl

/-- The ready processes that the search can end with, one for each order of the table. -/
def Favoured (s : Scheduler) (now : UInt64) (pid : ProcessId) : Prop :=
  s.stateOf pid = some .ready ∧
    ∀ q, s.stateOf q = some .ready → s.remaining now pid ≤ s.remaining now q

/-- After a ready process the search holds a value that is at most its own and the one before. -/
theorem rtBetter_least (h : s.stateOf pid = some .ready)
    (hbest : ∀ c, best = some c → c.1 = s.remaining now c.2) :
    ∃ d, s.rtBetter now best pid = some d ∧ d.1 = s.remaining now d.2 ∧
      d.1 ≤ s.remaining now pid ∧ ∀ c, best = some c → d.1 ≤ c.1 := by
  rw [rtBetter_of_ready h]
  cases best with
  | none => exact ⟨_,rfl,rfl,UInt64.le_refl _,nofun⟩
  | some c =>
    dsimp only
    split
    next hlt =>
      refine ⟨_,rfl,rfl,UInt64.le_refl _,?_⟩
      rintro c' ⟨⟩
      exact UInt64.le_of_lt hlt
    next hge =>
      refine ⟨_,rfl,hbest c rfl,UInt64.not_lt.mp hge,?_⟩
      rintro c' ⟨⟩
      exact UInt64.le_refl _

theorem foldl_rtBetter_least (hbest : ∀ c, best = some c → c.1 = s.remaining now c.2)
    (h : order.foldl (s.rtBetter now) best = some b) :
    b.1 = s.remaining now b.2 ∧ (∀ c, best = some c → b.1 ≤ c.1) ∧
      ∀ q ∈ order, s.stateOf q = some .ready → b.1 ≤ s.remaining now q := by
  induction order generalizing best with
  | nil =>
    refine ⟨hbest b h,fun c hc => ?_,fun q hq => absurd hq not_mem_nil⟩
    rw [Option.some.inj (h.symm.trans hc)]
    exact UInt64.le_refl _
  | cons p rest ih =>
    rw [foldl_cons] at h
    rw [forall_mem_cons]
    by_cases hp : s.stateOf p = some .ready
    · obtain ⟨d,hd,hdp,hle,hmin⟩ := rtBetter_least hp hbest
      rw [hd] at h
      obtain ⟨hb,hbd,hrest⟩ := ih (fun c hc => Option.some.inj hc ▸ hdp) h
      have hbd := hbd d rfl
      exact ⟨hb,fun c hc => UInt64.le_trans hbd (hmin c hc),fun _ => UInt64.le_trans hbd hle,hrest⟩
    · rw [rtBetter_not_ready hp] at h
      obtain ⟨hb,hle,hrest⟩ := ih hbest h
      exact ⟨hb,hle,fun hready => absurd hready hp,hrest⟩

theorem rtBest_favoured (horder : Finmap.Enumerates order s.processes)
    (h : s.rtBest order now = some b) : s.Favoured now b.2 := by
  obtain ⟨hb,-,hmin⟩ := foldl_rtBetter_least (fun c hc => by cases hc) h
  refine ⟨(rtBetter_foldl_some h).resolve_left nofun,fun q hq => ?_⟩
  rw [← hb]
  exact hmin q ((horder.2 q).mpr (mem_of_stateOf hq)) hq

theorem exists_rtBest (horder : Finmap.Enumerates order s.processes)
    (hready : ∃ p, s.stateOf p = some .ready) :
    ∃ b, s.rtBest order now = some b ∧ s.Favoured now b.2 := by
  obtain ⟨p,hp⟩ := hready
  cases hb : s.rtBest order now with
  | none => exact absurd hp ((rtBetter_foldl_none hb).2 p ((horder.2 p).mpr (mem_of_stateOf hp)))
  | some b => exact ⟨b,rfl,rtBest_favoured horder hb⟩

/-- A table that lists a favoured process first is one whose search ends with it. -/
theorem Favoured.rtBest (h : s.Favoured now pid) : ∃ order, Finmap.Enumerates order s.processes ∧
      s.rtBest order now = some (s.remaining now pid,pid) := by
  obtain ⟨order,hnodup,hmem⟩ := Finmap.exists_enumerates s.processes
  refine ⟨pid::order.erase pid,⟨?_,fun q => ?_⟩,?_⟩
  · exact nodup_cons.mpr ⟨hnodup.not_mem_erase,hnodup.erase pid⟩
  · rw [mem_cons,hnodup.mem_erase_iff,hmem]
    by_cases hq : q = pid
    · simp [hq,mem_of_stateOf h.1]
    · simp [hq]
  · rw [Scheduler.rtBest,foldl_cons,rtBetter_of_ready h.1]
    induction order.erase pid with
    | nil => rfl
    | cons q rest ih =>
      rw [foldl_cons]
      by_cases hq : s.stateOf q = some .ready
      · rw [rtBetter_of_ready hq]
        dsimp only
        rw [if_neg (UInt64.not_lt.mpr (h.2 q hq)),ih]
      · rw [rtBetter_not_ready hq,ih]

/-- Among the ready processes a favoured one is the earliest, unless it has no deadline while
another one has. -/
theorem favoured_earliest_iff (now : UInt64) (hready : ∃ p, s.stateOf p = some .ready) :
    (∀ p, s.Favoured now p → s.Earliest now p) ↔
      (∀ j, s.stateOf j = some .running →
        ∃ p, s.stateOf p = some .ready ∧ s.timeLeft now p ≤ s.timeLeft now j) ∧
      ((∀ p, s.stateOf p = some .ready →
          s.remaining now p = satSub 0xFFFFFFFFFFFFFFFF now) →
        ∀ p q, s.stateOf p = some .ready → s.stateOf q = some .ready →
          s.timeLeft now p = ⊤ → s.timeLeft now q = ⊤) := by
  constructor
  · intro h
    refine ⟨fun j hj => ?_,fun hall p q hp hq htop => ?_⟩
    · obtain ⟨order,horder⟩ := Finmap.exists_enumerates s.processes
      obtain ⟨b,-,hfav⟩ := exists_rtBest horder hready
      exact ⟨b.2,hfav.1,h _ hfav j (.inr hj)⟩
    · have hfav : s.Favoured now p :=
        ⟨hp,fun r hr => by rw [hall p hp,hall r hr]; exact UInt64.le_refl _⟩
      exact top_le_iff.mp (htop ▸ h p hfav q (.inl hq))
  · rintro ⟨hrun,hmix⟩ p hfav
    have hamong (q) (hq : s.stateOf q = some .ready) : s.timeLeft now p ≤ s.timeLeft now q := by
      by_cases htop : s.timeLeft now p = ⊤
      · -- Without a deadline the favoured process has the longest time there is.
        have hall (r) (hr : s.stateOf r = some .ready) :
            s.remaining now r = satSub 0xFFFFFFFFFFFFFFFF now :=
          UInt64.le_antisymm remaining_le (remaining_of_top htop ▸ hfav.2 r hr)
        rw [hmix hall p q hfav.1 hq htop]
        exact le_top
      · by_cases hqtop : s.timeLeft now q = ⊤
        · rw [hqtop]
          exact le_top
        · rw [timeLeft_of_ne_top htop,timeLeft_of_ne_top hqtop]
          exact_mod_cast UInt64.le_iff_toNat_le.mp (hfav.2 q hq)
    intro j hj
    rcases hj with hj | hj
    · exact hamong j hj
    · obtain ⟨q,hq,hle⟩ := hrun j hj
      exact (hamong q hq).trans hle

/-- In real-time mode a call runs the earliest of the processes that were ready or running, in
whatever order the table is read, if and only if the state before is in order. -/
theorem earliest_runs_iff (hmode : s.schedulingMode = .realTime) (clk : Clock) :
    (∀ order, Finmap.Enumerates order s.processes →
      ∀ r, s.scheduleNext order clk = some r → EarliestRuns s r.1 clk.wall) ↔
    s.InOrder clk.wall := by
  have hcall (order : List ProcessId) :
      s.scheduleNext order clk = some (s.scheduleNextRt order clk) := by
    rw [scheduleNext,if_pos hmode]
  simp only [hcall,Option.some.injEq,forall_eq']
  by_cases hready : ∃ p, s.stateOf p = some .ready
  · have hgiven (order) (horder : Finmap.Enumerates order s.processes) :
        ∃ p, s.Favoured clk.wall p ∧ Given s (s.scheduleNextRt order clk).1 p := by
      obtain ⟨b,hb,hfav⟩ := exists_rtBest horder hready
      exact ⟨b.2,hfav,scheduleNextRt_given clk hb⟩
    have hfav := favoured_earliest_iff clk.wall hready
    constructor
    · intro h
      have hearliest : ∀ p, s.Favoured clk.wall p → s.Earliest clk.wall p := by
        intro p hp
        obtain ⟨order,horder,hb⟩ := hp.rtBest
        refine (h order horder ⟨p,.inl hp.1⟩).2 p ?_
        rw [(scheduleNextRt_given clk hb).state,if_pos rfl]
      refine ⟨fun _ => (hfav.mp hearliest).1,fun j hj hleft => ?_,(hfav.mp hearliest).2⟩
      obtain ⟨p,hp⟩ := hready
      have hc := hleft.resolve_right fun hno => hno p hp
      obtain ⟨order,horder⟩ := Finmap.exists_enumerates s.processes
      obtain ⟨q,hq,hg⟩ := hgiven order horder
      have hne : j ≠ q := by
        rintro rfl
        rw [hq.1] at hj
        cases hj
      refine (h order horder ⟨p,.inl hp⟩).2 j ?_
      rw [hg.state,if_neg hne,yieldedState,if_neg hc,hj]
    · intro h order horder _
      obtain ⟨p,hp,hg⟩ := hgiven order horder
      refine ⟨⟨p,by rw [hg.state,if_pos rfl]⟩,fun j hj => ?_⟩
      rw [hg.state,yieldedState] at hj
      by_cases hjp : j = p
      · rw [hjp]
        exact hfav.mpr ⟨h.running hready,h.unmixed⟩ p hp
      · rw [if_neg hjp] at hj
        split at hj
        · simp at hj
        next hc => exact h.left j hj (.inl hc)
  · -- Without a ready process the call leaves every state as it is.
    have hsame (order) (horder : Finmap.Enumerates order s.processes) (j) :
        (s.scheduleNextRt order clk).1.stateOf j = s.stateOf j := by
      cases hb : s.rtBest order clk.wall with
      | none => rw [scheduleNextRt,hb]; rfl
      | some b => exact absurd ⟨_,(rtBest_favoured horder hb).1⟩ hready
    have hnone : ∀ p, s.stateOf p ≠ some .ready := fun p hp => hready ⟨p,hp⟩
    constructor
    · intro h
      obtain ⟨order,horder⟩ := Finmap.exists_enumerates s.processes
      refine ⟨fun hp => absurd hp hready,fun j hj _ => ?_,fun _ p _ hp => absurd hp (hnone p)⟩
      exact (h order horder ⟨j,.inr hj⟩).2 j (by rw [hsame order horder,hj])
    · intro h order horder hcont
      simp only [hsame order horder]
      obtain ⟨p,hp⟩ := hcont
      exact ⟨⟨p,hp.resolve_left (hnone p)⟩,fun j hj => h.left j hj (.inr hnone)⟩

def twoDue : Scheduler :=
  let s := ((init ⟨64,10,500,3⟩).spawnProcess ⟨0,0⟩ "a" .normal 16).1
  let s := (s.spawnProcess ⟨0,0⟩ "b" .normal 16).1
  ((s.setSchedulingMode .realTime).setRtDeadline 1 100).setRtDeadline 2 200

/-- The first call runs it, in whatever order the table is read. -/
theorem earliest_is_started : twoDue.schedulingMode = .realTime ∧
    ∀ order, Finmap.Enumerates order twoDue.processes →
      ∀ r, twoDue.scheduleNext order ⟨0,0⟩ = some r → EarliestRuns twoDue r.1 0 := by
  have horder : Finmap.Enumerates [1,2] twoDue.processes := by decide +kernel
  have hidle (j) : twoDue.stateOf j ≠ some .running := by
    intro hj
    have hmem := (horder.2 j).mpr (mem_of_stateOf hj)
    have hno : ∀ j ∈ [1,2], twoDue.stateOf j ≠ some .running := by decide +kernel
    exact hno j hmem hj
  refine ⟨rfl,(earliest_runs_iff rfl ⟨0,0⟩).mpr ⟨fun _ j hj => absurd hj (hidle j),
    fun j hj => absurd hj (hidle j),fun hall => ?_⟩⟩
  exact absurd (hall 1 (by decide +kernel)) (by decide +kernel)

/-- The second call takes the CPU from it. -/
theorem later_deadline_preempts :
    ∃ s r, exec step (init ⟨64,10,500,3⟩) [.spawnProcess ⟨0,0⟩ "a" .normal 16,
        .spawnProcess ⟨0,0⟩ "b" .normal 16,.setSchedulingMode .realTime,.setRtDeadline 1 100,
        .setRtDeadline 2 200,.scheduleNext [1,2] ⟨0,0⟩] = some s ∧
      s.schedulingMode = .realTime ∧ s.stateOf 1 = some .running ∧ s.stateOf 2 = some .ready ∧
      s.rtDeadlines.lookup 1 = some 100 ∧ s.rtDeadlines.lookup 2 = some 200 ∧
      s.scheduleNext [1,2] ⟨1,1⟩ = some r ∧ r.1.stateOf 1 = some .ready ∧
      r.1.stateOf 2 = some .running := by
  refine ⟨_,_,rfl,?_,?_,?_,?_,?_,rfl,?_,?_⟩
  all_goals decide +kernel

end Aios.ProcessMgr.Scheduler
