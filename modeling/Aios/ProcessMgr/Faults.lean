import Aios.ProcessMgr.Threads

/-!
Delivery of faults. The task threads run beside the scheduler's calls: the two polling functions are
cut into the steps between which a thread can record its panic or end. A history of the panics and
reports tells what is lost or reported twice.
-/
namespace Aios.ProcessMgr

open List Option

inductive Phase where
  | idle
  | polling (todo : List ProcessId) (found : List (ProcessId × String)) (raised : List FaultInfo)
  | checking (todo finished : List ProcessId)

/-- The panics that a running poll has taken out of their slots. -/
def Phase.pending : Phase → List ProcessId
  | .polling _ found raised => raised.map FaultInfo.pid ++ found.map Prod.fst
  | _ => []

/-- The scheduler, the call it is in, and the history: the panics recorded so far and before the
running poll, the processes removed, and the results of the polls. -/
structure Machine where
  sched : Scheduler
  phase : Phase
  recorded : ProcessId → Option String
  atStart : ProcessId → Option String
  killed : ProcessId → Bool
  returned : List (List FaultInfo)

inductive Event where
  | call (op : Op)
  | panic (pid : ProcessId) (message : String)
  | finish (pid : ProcessId)
  | pollStart (order : List ProcessId)
  | pollVisit
  | pollRaise (clk : Clock)
  | pollEnd
  | checkStart (order : List ProcessId)
  | checkVisit
  | checkReap
  | checkEnd

namespace Scheduler

/-- One round of the first loop of `poll_faults`. -/
def takeSlot (s : Scheduler) (pid : ProcessId) : Scheduler × List (ProcessId × String) :=
  match s.panicOf pid with
  | none => (s,[])
  | some message => (s.clearPanic pid,[(pid,message)])

/-- `handle.join()` returns once the thread has ended. -/
def joinable (s : Scheduler) (pid : ProcessId) : Bool :=
  ((s.realThreads.lookup pid).map RealThread.finished).getD true

end Scheduler

variable {phase : Phase} {op : Op} {killed : ProcessId → Bool} {message : String}
  {todo finished : List ProcessId}

variable {M : Machine} {s t : Scheduler} {pid : ProcessId} {found : List (ProcessId × String)}
  {raised : List FaultInfo}

namespace Machine

open Scheduler Transition

def init (cfg : Config) : Machine where
  sched := Scheduler.init cfg
  phase := .idle
  recorded := fun _ => none
  atStart := fun _ => none
  killed := fun _ => false
  returned := []

def step (M : Machine) : Event → Option Machine
  | .call op =>
    match M.phase with
    | .idle =>
      if op.isCall then
        (M.sched.step op).map fun t => { M with
          sched := t
          killed := fun pid => M.killed pid ||
            (decide (pid ∈ M.sched.processes) && decide (pid ∉ t.processes)) }
      else none
    | _ => none
  | .panic pid message =>
    (M.sched.recordPanic pid message).map fun t => { M with
      sched := t
      recorded := fun p => if p = pid then some message else M.recorded p }
  | .finish pid => (M.sched.finishThread pid).map fun t => { M with sched := t }
  | .pollStart order =>
    match M.phase with
    | .idle =>
      if Finmap.Enumerates order M.sched.realThreads then
        some { M with phase := .polling order [] [], atStart := M.recorded }
      else none
    | _ => none
  | .pollVisit =>
    match M.phase with
    | .polling (pid::todo) found raised =>
      let r := M.sched.takeSlot pid
      some { M with sched := r.1, phase := .polling todo (found ++ r.2) raised }
    | _ => none
  | .pollRaise clk =>
    match M.phase with
    | .polling [] ((pid,message)::found) raised =>
      if M.sched.joinable pid then
        let r := M.sched.raiseFault clk pid message
        some { M with sched := r.1, phase := .polling [] found (raised ++ [r.2]) }
      else none
    | _ => none
  | .pollEnd =>
    match M.phase with
    | .polling [] [] raised =>
      some { M with phase := .idle, returned := M.returned ++ [raised] }
    | _ => none
  | .checkStart order =>
    match M.phase with
    | .idle =>
      if Finmap.Enumerates order M.sched.realThreads then
        some { M with phase := .checking order [] }
      else none
    | _ => none
  | .checkVisit =>
    match M.phase with
    | .checking (pid::todo) finished =>
      let finished := if M.sched.threadFinished pid then finished ++ [pid] else finished
      some { M with phase := .checking todo finished }
    | _ => none
  | .checkReap =>
    match M.phase with
    | .checking [] (pid::finished) =>
      some { M with sched := M.sched.reapThread pid, phase := .checking [] finished }
    | _ => none
  | .checkEnd =>
    match M.phase with
    | .checking [] [] => some { M with phase := .idle }
    | _ => none

/-- In how many places the panic of a process is on record: reports returned, the running poll, and
the slot of its thread. -/
def copies (M : Machine) (pid : ProcessId) : ℕ :=
  (M.returned.flatten.map FaultInfo.pid).count pid+M.phase.pending.count pid +
    if (M.sched.panicOf pid).isSome then 1 else 0

/-- No fault is lost or doubled: a recorded panic of a process that was not killed is on record
exactly once, any other at most once. -/
def Conserved (M : Machine) : Prop :=
  ∀ pid, M.copies pid ≤ 1 ∧
    (M.recorded pid ≠ none → M.killed pid = false → M.copies pid = 1)

/-- A poll that ends has reported every panic recorded before it started, unless the process was
killed; it returns faults of crashed processes, with their messages, queued for recovery. -/
def PollReports (M : Machine) (e : Event) (M' : Machine) : Prop :=
  e = .pollEnd →
    (∀ pid message, M.atStart pid = some message → M.killed pid = false →
      ∃ info ∈ M'.returned.flatten, info.pid = pid ∧ info.message = message) ∧
    ∃ raised, M'.returned = M.returned ++ [raised] ∧ ∀ info ∈ raised,
      M'.recorded info.pid = some info.message ∧ info.kind = .panic ∧
      M'.sched.stateOf info.pid = some .crashed ∧ info ∈ M'.sched.faultQueue

/-- `check_real_threads` only reaps threads whose panic slot is empty. -/
def ReapsEmptySlots (M : Machine) (e : Event) : Prop :=
  ∀ pid finished, e = .checkReap → M.phase = .checking [] (pid::finished) →
    M.sched.panicOf pid = none

section
variable (M : Machine) (pid : ProcessId) (t : Scheduler) (raised : List FaultInfo)

abbrev called : Machine :=
  { M with
    sched := t
    killed := fun pid => M.killed pid ||
      (decide (pid ∈ M.sched.processes) && decide (pid ∉ t.processes)) }

abbrev panicked (message : String) : Machine :=
  { M with sched := t, recorded := fun p => if p = pid then some message else M.recorded p }

abbrev visited (todo : List ProcessId) (found : List (ProcessId × String)) : Machine :=
  { M with
    sched := (M.sched.takeSlot pid).1
    phase := .polling todo (found ++ (M.sched.takeSlot pid).2) raised }

abbrev reported (clk : Clock) (m : String) (found : List (ProcessId × String)) : Machine :=
  { M with
    sched := (M.sched.raiseFault clk pid m).1
    phase := .polling [] found (raised ++ [(M.sched.raiseFault clk pid m).2]) }

abbrev polled : Machine := { M with phase := .idle, returned := M.returned ++ [raised] }

abbrev reaped (finished : List ProcessId) : Machine :=
  { M with sched := M.sched.reapThread pid, phase := .checking [] finished }

end

inductive Turn (M : Machine) : Event → Machine → Prop where
  | call {op : Op} {t : Scheduler} (idle : M.phase = .idle) (isCall : op.isCall = true)
      (run : M.sched.step op = some t) :
      Turn M (.call op) (M.called t)
  | panic {pid : ProcessId} {message : String} {t : Scheduler}
      (run : M.sched.recordPanic pid message = some t) :
      Turn M (.panic pid message) (M.panicked pid t message)
  | finish {pid : ProcessId} {t : Scheduler} (run : M.sched.finishThread pid = some t) :
      Turn M (.finish pid) { M with sched := t }
  | pollStart {order : List ProcessId} (idle : M.phase = .idle)
      (enumerates : Finmap.Enumerates order M.sched.realThreads) :
      Turn M (.pollStart order) { M with phase := .polling order [] [], atStart := M.recorded }
  | pollVisit {pid : ProcessId} {todo : List ProcessId} {found : List (ProcessId × String)}
      {raised : List FaultInfo} (polling : M.phase = .polling (pid::todo) found raised) :
      Turn M .pollVisit (M.visited pid raised todo found)
  | pollRaise {clk : Clock} {pid : ProcessId} {message : String}
      {found : List (ProcessId × String)} {raised : List FaultInfo}
      (polling : M.phase = .polling [] ((pid,message)::found) raised) :
      Turn M (.pollRaise clk) (M.reported pid raised clk message found)
  | pollEnd {raised : List FaultInfo} (polling : M.phase = .polling [] [] raised) :
      Turn M .pollEnd (M.polled raised)
  | checkStart {order : List ProcessId} (idle : M.phase = .idle) :
      Turn M (.checkStart order) { M with phase := .checking order [] }
  | checkVisit {todo finished todo' finished' : List ProcessId}
      (checking : M.phase = .checking todo finished) :
      Turn M .checkVisit { M with phase := .checking todo' finished' }
  | checkReap {pid : ProcessId} {finished : List ProcessId}
      (checking : M.phase = .checking [] (pid::finished)) :
      Turn M .checkReap (M.reaped pid finished)
  | checkEnd (checking : M.phase = .checking [] []) : Turn M .checkEnd { M with phase := .idle }

theorem step_turn {M' : Machine} {e : Event} (h : M.step e = some M') : Turn M e M' := by
  revert h
  fun_cases step M e with
  | case1 op idle isCall =>
    intro h
    obtain ⟨t,ht,rfl⟩ := map_eq_some_iff.mp h
    exact .call idle isCall ht
  | case4 pid message =>
    intro h
    obtain ⟨t,ht,rfl⟩ := map_eq_some_iff.mp h
    exact .panic ht
  | case5 pid =>
    intro h
    obtain ⟨t,ht,rfl⟩ := map_eq_some_iff.mp h
    exact .finish ht
  | case6 order idle enumerates =>
    rintro ⟨⟩
    exact .pollStart idle enumerates
  | case9 pid todo found raised polling =>
    rintro ⟨⟩
    exact .pollVisit polling
  | case11 clk pid message found raised polling =>
    rintro ⟨⟩
    exact .pollRaise polling
  | case14 raised polling =>
    rintro ⟨⟩
    exact .pollEnd polling
  | case16 order idle =>
    rintro ⟨⟩
    exact .checkStart idle
  | case19 pid todo finished checking =>
    rintro ⟨⟩
    exact .checkVisit checking
  | case21 pid finished checking =>
    rintro ⟨⟩
    exact .checkReap checking
  | case23 checking =>
    rintro ⟨⟩
    exact .checkEnd checking
  | _ => exact nofun

structure ThreadFacts (M : Machine) : Prop where
  once : ∀ pid slot, M.recorded pid ≠ none → M.sched.slotOf pid = some slot → slot.returned = true
  below : ∀ pid, M.recorded pid ≠ none → pid < M.sched.nextPid
  process : ∀ pid, M.sched.slotOf pid ≠ none → pid ∈ M.sched.processes
  pids : PidsBelow M.sched
  filed : PidsMatch M.sched
  dead : ∀ pid, M.killed pid = true → pid ∉ M.sched.processes ∧ pid < M.sched.nextPid
  message : ∀ pid m, M.sched.panicOf pid = some m → M.recorded pid = some m

structure Weakens (s t : Scheduler) : Prop where
  slots : ∀ pid slot, t.slotOf pid = some slot → ∃ old, s.slotOf pid = some old ∧
    slot.returned = old.returned ∧ (slot.panic = none ∨ slot.panic = old.panic)
  processes : ∀ pid, pid ∈ t.processes ↔ pid ∈ s.processes
  nextPid : t.nextPid = s.nextPid
  filed : PidsMatch s → PidsMatch t

theorem panicOf_eq_some {m : String} :
    s.panicOf pid = some m ↔ ∃ slot, s.slotOf pid = some slot ∧ slot.panic = some m := by
  rw [panicOf_eq_slot,bind_eq_some_iff]

theorem ThreadFacts.weaken (h : ThreadFacts M) (hw : Weakens M.sched t) :
    ThreadFacts { M with sched := t, phase := phase } := by
  refine ⟨fun pid slot hrec hslot => ?_,fun pid hrec => hw.nextPid ▸ h.below pid hrec,
    fun pid hslot => ?_,fun pid hp => ?_,hw.filed h.filed,fun pid hk => ?_,
    fun pid m hm => ?_⟩
  · obtain ⟨old,hold,hret,-⟩ := hw.slots pid slot hslot
    rw [hret]
    exact h.once pid old hrec hold
  · obtain ⟨slot,hs⟩ := ne_none_iff_exists'.mp hslot
    obtain ⟨old,hold,-⟩ := hw.slots pid slot hs
    exact (hw.processes pid).mpr (h.process pid (by rw [hold]; simp))
  · exact hw.nextPid ▸ h.pids pid ((hw.processes pid).mp hp)
  · obtain ⟨hnot,hlt⟩ := h.dead pid hk
    exact ⟨fun hp => hnot ((hw.processes pid).mp hp),hw.nextPid ▸ hlt⟩
  · obtain ⟨slot,hs,hpanic⟩ := panicOf_eq_some.mp hm
    obtain ⟨old,hold,-,hor⟩ := hw.slots pid slot hs
    refine h.message pid m (panicOf_eq_some.mpr ⟨old,hold,?_⟩)
    rcases hor with hnone | hsame
    · rw [hpanic] at hnone
      cases hnone
    · rw [← hsame,hpanic]

section
variable {s t : Scheduler} {pid : ProcessId}

theorem Weakens.refl (s : Scheduler) : Weakens s s :=
  ⟨fun _ slot h => ⟨slot,h,rfl,.inr rfl⟩,fun _ => Iff.rfl,rfl,id⟩

theorem Weakens.of_erase (hthreads : t.realThreads = s.realThreads.erase pid)
    (hp : ∀ j, j ∈ t.processes ↔ j ∈ s.processes) (hn : t.nextPid = s.nextPid)
    (hfiled : PidsMatch s → PidsMatch t) : Weakens s t := by
  refine ⟨fun j slot hslot => ?_,hp,hn,hfiled⟩
  rw [slotOf_erase hthreads] at hslot
  split at hslot
  · cases hslot
  · exact ⟨slot,hslot,rfl,.inr rfl⟩

theorem finishThread_weakens (h : s.finishThread pid = some t) : Weakens s t := by
  obtain ⟨hp,hn,-,hslots⟩ := finishThread_slots h
  refine ⟨fun j slot hslot => ?_,fun j => by rw [hp],hn,fun hm => ?_⟩
  · rw [hslots] at hslot
    split at hslot
    · obtain ⟨old,hold,rfl⟩ := map_eq_some_iff.mp hslot
      exact ⟨old,hold,rfl,.inr rfl⟩
    · exact ⟨slot,hslot,rfl,.inr rfl⟩
  · exact hm.of_field fun _ => by rw [hp]

variable (s)

theorem takeSlot_weakens (pid : ProcessId) : Weakens s (s.takeSlot pid).1 := by
  unfold takeSlot
  split
  · exact .refl s
  · refine ⟨fun j slot hslot => ?_,fun _ => Iff.rfl,rfl,fun hm => hm⟩
    rw [clearPanic_slots] at hslot
    split at hslot
    · obtain ⟨old,hold,rfl⟩ := map_eq_some_iff.mp hslot
      exact ⟨old,hold,rfl,.inl rfl⟩
    · exact ⟨slot,hslot,rfl,.inr rfl⟩

theorem raiseFault_frame (clk : Clock) (pid : ProcessId) (m : String) :
    (s.raiseFault clk pid m).1.realThreads = s.realThreads.erase pid ∧
      (s.raiseFault clk pid m).1.nextPid = s.nextPid ∧
      (s.raiseFault clk pid m).1.faultQueue = s.faultQueue ++ [(s.raiseFault clk pid m).2] := by
  unfold raiseFault
  dsimp only
  split <;> exact ⟨rfl,rfl,rfl⟩

theorem raiseFault_weakens (clk : Clock) (pid : ProcessId) (m : String) :
    Weakens s (s.raiseFault clk pid m).1 := by
  obtain ⟨hthreads,hnext,-⟩ := raiseFault_frame s clk pid m
  refine .of_erase hthreads (raiseFault_keepsTables s clk pid m).mem_iff hnext fun hm => ?_
  exact hm.of_field ((raiseFault_keepsTables s clk pid m).field Process.pid fun _ => rfl)

theorem reapThread_weakens (pid : ProcessId) : Weakens s (s.reapThread pid) :=
  .of_erase rfl (fun _ => Finmap.mem_adjust) rfl fun hm => hm.modifyProcess pid fun p => by
    unfold settle
    split <;> rfl

variable {s}

end

variable {M M' : Machine} {e : Event}

structure CallEffect (s t : Scheduler) : Prop where
  old : ∀ pid, pid < s.nextPid → t.slotOf pid = s.slotOf pid ∨
    t.slotOf pid = none ∧ pid ∈ s.processes ∧ pid ∉ t.processes
  new : ∀ pid, s.nextPid ≤ pid → t.panicOf pid = none
  process : ∀ pid, t.slotOf pid ≠ none → pid ∈ t.processes
  processes : ∀ pid, pid < s.nextPid → pid ∈ t.processes → pid ∈ s.processes
  nextPid : s.nextPid ≤ t.nextPid

theorem ThreadFacts.slotOf_new (h : ThreadFacts M) (hp : M.sched.nextPid ≤ pid) :
    M.sched.slotOf pid = none := by
  by_contra hs
  exact absurd (h.pids pid (h.process pid hs)) hp.not_gt

section
variable (h : ThreadFacts M) (hc : op.isCall = true) (hst : M.sched.step op = some t)
include h hc hst

theorem ThreadFacts.callEffect : CallEffect M.sched t := by
  rcases step_threads hc hst with ⟨gone,hthin⟩ | hgrow
  · refine ⟨fun pid _ => ?_,fun pid hp => ?_,fun pid hs => ?_,
      fun pid _ hp => ((hthin.processes pid).mp hp).1,hthin.nextPid⟩
    · rw [hthin.slots]
      split
      next hg =>
        by_cases hs : M.sched.slotOf pid = none
        · exact .inl hs.symm
        · exact .inr ⟨rfl,h.process pid hs,fun hp => ((hthin.processes pid).mp hp).2 hg⟩
      next => exact .inl rfl
    · rw [panicOf_eq_slot,hthin.slots,h.slotOf_new hp,ite_self,bind_none]
    · rw [hthin.slots] at hs
      split at hs
      · exact absurd rfl hs
      next hnot => exact (hthin.processes pid).mpr ⟨h.process pid hs,hnot⟩
  · refine ⟨fun pid hp => .inl (hgrow.slots pid hp.ne),fun pid hp => ?_,fun pid hs => ?_,
      fun pid hlt hp => ((hgrow.processes pid).mp hp).resolve_left hlt.ne,?_⟩
    · have hnone := h.slotOf_new hp
      rw [panicOf_eq_slot]
      by_cases hne : pid = M.sched.nextPid
      · rw [hne] at hnone ⊢
        rcases hgrow.fresh with he | ⟨slot,he,hpanic,-⟩
        · rw [he,hnone,bind_none]
        · rw [he,bind_some,hpanic]
      · rw [hgrow.slots pid hne,hnone,bind_none]
    · rw [hgrow.processes]
      by_cases hne : pid = M.sched.nextPid
      · exact .inl hne
      · exact .inr (h.process pid (hgrow.slots pid hne ▸ hs))
    · rw [hgrow.nextPid]
      exact Nat.le_succ _

theorem ThreadFacts.call : ThreadFacts (M.called t) := by
  have heff := h.callEffect hc hst
  have hold {pid : ProcessId} {slot : ThreadSlot} (hlt : pid < M.sched.nextPid)
      (hs : t.slotOf pid = some slot) : M.sched.slotOf pid = some slot := by
    rcases heff.old pid hlt with he | ⟨he,-⟩
    · exact he ▸ hs
    · rw [he] at hs
      cases hs
  refine ⟨fun pid slot hrec hslot => h.once pid slot hrec (hold (h.below pid hrec) hslot),
    fun pid hrec => (h.below pid hrec).trans_le heff.nextPid,heff.process,
    step_pidsBelow h.pids hst,step_pidsMatch h.filed hst,fun pid hkill => ?_,fun pid m hm => ?_⟩
  · rcases Bool.or_eq_true_iff.mp hkill with hdead | hnow
    · obtain ⟨hnot,hlt⟩ := h.dead pid hdead
      exact ⟨fun hp => hnot (heff.processes pid hlt hp),hlt.trans_le heff.nextPid⟩
    · obtain ⟨hp,hnot⟩ := Bool.and_eq_true_iff.mp hnow
      exact ⟨of_decide_eq_true hnot,(h.pids pid (of_decide_eq_true hp)).trans_le heff.nextPid⟩
  · rcases lt_or_ge pid M.sched.nextPid with hlt | hge
    · obtain ⟨slot,hs,hpanic⟩ := panicOf_eq_some.mp hm
      exact h.message pid m (panicOf_eq_some.mpr ⟨slot,hold hlt hs,hpanic⟩)
    · rw [heff.new pid hge] at hm
      cases hm

end

section
variable (h : ThreadFacts M) (hrun : M.sched.recordPanic pid message = some t)
include h hrun

/-- A thread records its panic once; the process has no earlier one. -/
theorem ThreadFacts.fresh : M.recorded pid = none := by
  obtain ⟨slot,hslot,hret,-⟩ := recordPanic_slots hrun
  by_contra hne
  rw [h.once pid slot hne hslot] at hret
  cases hret

theorem ThreadFacts.panic : ThreadFacts (M.panicked pid t message) := by
  obtain ⟨slot,hslot,-,hp,hn,-,hslots⟩ := recordPanic_slots hrun
  have hproc : pid ∈ M.sched.processes := h.process pid (by rw [hslot]; simp)
  refine ⟨fun j slot' hrec hs => ?_,fun j hrec => ?_,fun j hs => ?_,fun j hj => ?_,
    h.filed.of_field fun _ => by rw [hp],fun j hk => ?_,fun j m hm => ?_⟩
  · rw [hslots] at hs
    split at hs
    · rw [← some.inj hs]
    next hne => exact h.once j slot' (by simpa [hne] using hrec) hs
  · rw [hn]
    by_cases hj : j = pid
    · rw [hj]
      exact h.pids pid hproc
    · exact h.below j (by simpa [hj] using hrec)
  · rw [hp]
    rw [hslots] at hs
    split at hs
    next hj => rw [hj]; exact hproc
    next => exact h.process j hs
  · rw [hp] at hj
    rw [hn]
    exact h.pids j hj
  · obtain ⟨hnot,hlt⟩ := h.dead j hk
    exact ⟨hp ▸ hnot,hn ▸ hlt⟩
  · obtain ⟨slot',hs,hpanic⟩ := panicOf_eq_some.mp hm
    rw [hslots] at hs
    by_cases hj : j = pid
    · rw [if_pos hj] at hs
      rw [← some.inj hs] at hpanic
      simpa [hj] using hpanic
    · rw [if_neg hj] at hs
      simpa [hj] using h.message j m (panicOf_eq_some.mpr ⟨slot',hs,hpanic⟩)

end

theorem step_threadFacts (h : ThreadFacts M) (hst : M.step e = some M') : ThreadFacts M' := by
  cases step_turn hst with
  | call idle isCall run => exact h.call isCall run
  | panic run => exact h.panic run
  | finish run => exact h.weaken (finishThread_weakens run)
  | pollStart | pollEnd | checkStart | checkVisit | checkEnd => exact { h with }
  | pollVisit => exact h.weaken (takeSlot_weakens M.sched _)
  | pollRaise => exact h.weaken (raiseFault_weakens M.sched _ _ _)
  | checkReap => exact h.weaken (reapThread_weakens M.sched _)

/-- Where a running poll stands: what it has taken is recorded, what it has raised is
crashed and queued, and the slots it has passed hold no old panic. -/
structure PollOk (M : Machine) (todo : List ProcessId) (found : List (ProcessId × String))
    (raised : List FaultInfo) : Prop where
  found : ∀ pid m, (pid,m) ∈ found → M.recorded pid = some m ∧ M.sched.slotOf pid ≠ none
  raised : ∀ info ∈ raised, M.recorded info.pid = some info.message ∧ info.kind = .panic ∧
    M.sched.stateOf info.pid = some .crashed ∧ info ∈ M.sched.faultQueue
  recorded : ∀ pid m, M.atStart pid = some m → M.recorded pid = some m
  visited : ∀ pid, M.atStart pid ≠ none → pid ∉ todo → M.sched.panicOf pid = none

structure Delivery (M : Machine) : Prop where
  atMostOnce : ∀ pid, M.copies pid ≤ 1
  unrecorded : ∀ pid, M.recorded pid = none → M.copies pid = 0
  reports : ∀ info ∈ M.returned.flatten, M.recorded info.pid = some info.message
  poll : ∀ todo found raised, M.phase = .polling todo found raised → PollOk M todo found raised

/-- How often a panic has left its slot. -/
def taken (M : Machine) (pid : ProcessId) : ℕ :=
  (M.returned.flatten.map FaultInfo.pid).count pid+M.phase.pending.count pid

theorem copies_eq : M.copies pid = M.taken pid+if (M.sched.panicOf pid).isSome then 1 else 0 := rfl

theorem copies_congr (ht : M'.taken pid = M.taken pid)
    (hp : M'.sched.panicOf pid = M.sched.panicOf pid) : M'.copies pid = M.copies pid := by
  rw [copies_eq,copies_eq,ht,hp]

theorem copies_le (ht : M'.taken pid = M.taken pid)
    (hp : M'.sched.panicOf pid = M.sched.panicOf pid ∨ M'.sched.panicOf pid = none) :
    M'.copies pid ≤ M.copies pid := by
  rcases hp with hp | hp
  · exact (copies_congr ht hp).le
  · rw [copies_eq,copies_eq,ht,hp]
    simp

theorem panicOf_congr (h : t.slotOf pid = s.slotOf pid) :
    t.panicOf pid = s.panicOf pid := by rw [panicOf_eq_slot,h,← panicOf_eq_slot]

theorem ThreadFacts.call_panicOf (h : ThreadFacts M) (hc : op.isCall = true)
    (hst : M.sched.step op = some t) (pid : ProcessId) :
    t.panicOf pid = M.sched.panicOf pid ∨
      (t.panicOf pid = none ∧ pid ∈ M.sched.processes ∧ pid ∉ t.processes) := by
  have heff := h.callEffect hc hst
  rcases lt_or_ge pid M.sched.nextPid with hlt | hge
  · refine (heff.old pid hlt).imp panicOf_congr fun ⟨hnone,hp⟩ => ⟨?_,hp⟩
    rw [panicOf_eq_slot,hnone,bind_none]
  · refine .inl ?_
    rw [heff.new pid hge,panicOf_eq_slot,h.slotOf_new hge,bind_none]

/-- Nothing recorded anew, and no panic on record more often than before. -/
theorem Delivery.of_le (h : Delivery M) (hle : ∀ pid, M'.copies pid ≤ M.copies pid)
    (hrec : M'.recorded = M.recorded)
    (hreports : ∀ info ∈ M'.returned.flatten, M.recorded info.pid = some info.message)
    (hpoll : ∀ todo found raised, M'.phase = .polling todo found raised →
      PollOk M' todo found raised) : Delivery M' :=
  ⟨fun pid => (hle pid).trans (h.atMostOnce pid),
    fun pid hnone => Nat.le_zero.mp (h.unrecorded pid (hrec ▸ hnone) ▸ hle pid),hrec ▸ hreports,
    hpoll⟩

theorem Delivery.call (h : Delivery M) (hf : ThreadFacts M) (hidle : M.phase = .idle)
    (hc : op.isCall = true) (hst : M.sched.step op = some t) : Delivery (M.called t) := by
  refine h.of_le (fun pid => copies_le rfl ((hf.call_panicOf hc hst pid).imp_right And.left)) rfl
    h.reports fun todo found raised hphase => ?_
  rw [hidle] at hphase
  cases hphase

theorem panic_panicOf (hrun : s.recordPanic pid message = some t) (j : ProcessId) :
    t.panicOf j = if j = pid then some message else s.panicOf j := by
  obtain ⟨slot,-,-,-,-,-,hslots⟩ := recordPanic_slots hrun
  rw [panicOf_eq_slot,hslots]
  split
  · rfl
  · exact panicOf_eq_slot.symm

section
variable (h : Delivery M) (hf : ThreadFacts M) (hrun : M.sched.recordPanic pid message = some t)
include h hf hrun

theorem copies_panic (j : ProcessId) :
    (M.panicked pid t message).copies j = if j = pid then 1 else M.copies j := by
  split
  next hj =>
    have hzero := h.unrecorded pid (hf.fresh hrun)
    rw [copies_eq] at hzero ⊢
    rw [panic_panicOf hrun,if_pos hj,hj]
    have htaken : M.taken pid = 0 := by omega
    exact congrArg (·+1) htaken
  next hj => exact copies_congr rfl (by rw [panic_panicOf hrun,if_neg hj])

theorem Delivery.panic : Delivery (M.panicked pid t message) := by
  have hfresh := hf.fresh hrun
  have hext (j : ProcessId) (m : String) (hm : M.recorded j = some m) :
      (if j = pid then some message else M.recorded j) = some m := by
    rw [if_neg ?_,hm]
    rintro rfl
    rw [hfresh] at hm
    cases hm
  have hcopies := copies_panic h hf hrun
  obtain ⟨slot,hslot,-,hp,hn,hq,hslots⟩ := recordPanic_slots hrun
  refine ⟨fun j => ?_,fun j hrec => ?_,fun info hi => hext _ _ (h.reports info hi),
    fun todo found raised hphase => ?_⟩
  · rw [hcopies]
    split
    · exact le_rfl
    · exact h.atMostOnce j
  · have hj : j ≠ pid := by
      rintro rfl
      simp at hrec
    rw [hcopies,if_neg hj]
    exact h.unrecorded j (by simpa [hj] using hrec)
  · have hok := h.poll todo found raised hphase
    refine ⟨fun j m hm => ⟨hext j m (hok.found j m hm).1,?_⟩,fun info hi => ?_,
      fun j m hm => hext j m (hok.recorded j m hm),fun j hj hnot => ?_⟩
    · rw [hslots]
      split
      · simp
      · exact (hok.found j m hm).2
    · obtain ⟨hrec,hkind,hstate,hqueue⟩ := hok.raised info hi
      exact ⟨hext _ _ hrec,hkind,(stateOf_congr hp _).trans hstate,hq ▸ hqueue⟩
    · obtain ⟨m,hm⟩ := ne_none_iff_exists'.mp hj
      have hne : j ≠ pid := by
        rintro rfl
        rw [hok.recorded j m hm] at hfresh
        cases hfresh
      rw [panic_panicOf hrun,if_neg hne]
      exact hok.visited j hj hnot

end

theorem finishThread_panicOf (hrun : s.finishThread pid = some t) (j : ProcessId) :
    t.panicOf j = s.panicOf j := by
  obtain ⟨-,-,-,hslots⟩ := finishThread_slots hrun
  rw [panicOf_eq_slot,hslots,panicOf_eq_slot]
  split
  · cases s.slotOf j <;> rfl
  · rfl

theorem Delivery.finish (h : Delivery M) (hrun : M.sched.finishThread pid = some t) :
    Delivery { M with sched := t } := by
  obtain ⟨hp,hn,hq,hslots⟩ := finishThread_slots hrun
  have hpanic := finishThread_panicOf hrun
  refine h.of_le (fun j => copies_le rfl (.inl (hpanic j))) rfl h.reports
    fun todo found raised hphase => ?_
  have hok := h.poll todo found raised hphase
  refine ⟨fun j m hm => ⟨(hok.found j m hm).1,?_⟩,fun info hi => ?_,hok.recorded,
    fun j hj hnot => (hpanic j).trans (hok.visited j hj hnot)⟩
  · rw [hslots]
    split
    · simpa using (hok.found j m hm).2
    · exact (hok.found j m hm).2
  · obtain ⟨hrec,hkind,hstate,hqueue⟩ := hok.raised info hi
    exact ⟨hrec,hkind,(stateOf_congr hp _).trans hstate,hq ▸ hqueue⟩

theorem taken_eq (hphase : M.phase = phase) (pid : ProcessId) :
    M.taken pid = (M.returned.flatten.map FaultInfo.pid).count pid+phase.pending.count pid := by
  rw [taken,hphase]

theorem Delivery.rephase (h : Delivery M) (hpending : phase.pending = M.phase.pending)
    (hpoll : ∀ todo found raised, phase ≠ .polling todo found raised) :
    Delivery { M with phase := phase } := by
  exact h.of_le (fun pid => copies_le (by rw [taken,hpending]; rfl) (.inl rfl)) rfl h.reports
    fun todo found raised hphase => absurd hphase (hpoll todo found raised)

theorem Delivery.pollStart (h : Delivery M) {order : List ProcessId} (hidle : M.phase = .idle)
    (horder : Finmap.Enumerates order M.sched.realThreads) :
    Delivery { M with phase := .polling order [] [], atStart := M.recorded } := by
  refine h.of_le (fun pid => copies_le (by rw [taken_eq hidle]; rfl) (.inl rfl)) rfl h.reports
    fun todo found raised hphase => ?_
  cases hphase
  refine ⟨fun _ _ hm => absurd hm not_mem_nil,fun _ hi => absurd hi not_mem_nil,
    fun _ _ hm => hm,fun pid _ hnot => ?_⟩
  have hgone : pid ∉ M.sched.realThreads := fun hmem => hnot ((horder.2 pid).mpr hmem)
  exact bind_eq_none_iff.mpr fun real hr => by
    rw [Finmap.lookup_eq_none.mpr hgone] at hr
    cases hr

theorem takeSlot_frame (s : Scheduler) (pid : ProcessId) :
    (s.takeSlot pid).1.processes = s.processes ∧
      (s.takeSlot pid).1.faultQueue = s.faultQueue := by
  unfold takeSlot
  split <;> exact ⟨rfl,rfl⟩

section
variable (s : Scheduler) (pid j : ProcessId)

theorem takeSlot_panicOf :
    (s.takeSlot pid).1.panicOf j = if j = pid then none else s.panicOf j := by
  unfold takeSlot
  split
  next hnone =>
    split
    next hj => rw [hj,hnone]
    next => rfl
  next => exact panicOf_clearPanic j

theorem takeSlot_slotOf (h : s.slotOf j ≠ none) : (s.takeSlot pid).1.slotOf j ≠ none := by
  unfold takeSlot
  split
  · exact h
  · rw [clearPanic_slots]
    split
    · simpa using h
    · exact h

theorem takeSlot_count : ((s.takeSlot pid).2.map Prod.fst).count j =
      if j = pid ∧ (s.panicOf pid).isSome then 1 else 0 := by
  unfold takeSlot
  split
  next hnone => simp [hnone]
  next m hm =>
    by_cases hj : j = pid
    · simp [hj,hm]
    · simp [hj,Ne.symm hj]

end

theorem copies_pollVisit (hphase : M.phase = .polling (pid::todo) found raised) (j : ProcessId) :
    (M.visited pid raised todo found).copies j = M.copies j := by
  have hcount := takeSlot_count M.sched pid j
  rw [copies_eq,copies_eq,taken_eq hphase,taken_eq rfl,takeSlot_panicOf]
  simp only [Phase.pending,map_append,count_append]
  rw [hcount]
  by_cases hj : j = pid
  · simp [hj]
    split <;> omega
  · simp [hj]

theorem Delivery.pollVisit (h : Delivery M) (hf : ThreadFacts M)
    (hphase : M.phase = .polling (pid::todo) found raised) :
    Delivery (M.visited pid raised todo found) := by
  obtain ⟨hp,hq⟩ := takeSlot_frame M.sched pid
  refine h.of_le (fun j => (copies_pollVisit hphase j).le) rfl h.reports
    fun todo' found' raised' hphase' => ?_
  cases hphase'
  have hok := h.poll _ _ _ hphase
  refine ⟨fun j m hm => ?_,fun info hi => ?_,hok.recorded,fun j hj hnot => ?_⟩
  · rcases mem_append.mp hm with hold | hnew
    · exact ⟨(hok.found j m hold).1,takeSlot_slotOf M.sched pid j (hok.found j m hold).2⟩
    · have htaken : M.sched.panicOf j = some m := by
        unfold takeSlot at hnew
        split at hnew
        · exact absurd hnew not_mem_nil
        next message hs =>
          cases mem_singleton.mp hnew
          exact hs
      obtain ⟨slot,hslot,-⟩ := panicOf_eq_some.mp htaken
      exact ⟨hf.message j m htaken,takeSlot_slotOf M.sched pid j (by rw [hslot]; simp)⟩
  · obtain ⟨hrec,hkind,hstate,hqueue⟩ := hok.raised info hi
    exact ⟨hrec,hkind,(stateOf_congr hp _).trans hstate,hq ▸ hqueue⟩
  · rw [takeSlot_panicOf]
    split
    · rfl
    next hne => exact hok.visited j hj (by simp [hne,hnot])

/-- The report names the process under which the panic was found. -/
theorem raiseFault_info (hm : PidsMatch s) (clk : Clock) (hp : pid ∈ s.processes) (m : String) :
    (s.raiseFault clk pid m).2.pid = pid ∧ (s.raiseFault clk pid m).2.message = m ∧
      (s.raiseFault clk pid m).2.kind = .panic := by
  cases hl : s.processes.lookup pid with
  | none => exact absurd hp (Finmap.lookup_eq_none.mp hl)
  | some process =>
    simp only [raiseFault,panicInfo,hl,faultFor]
    exact ⟨hm pid process hl,trivial,trivial⟩

theorem raiseFault_panicOf (clk : Clock) (m : String) (j : ProcessId) :
    (s.raiseFault clk pid m).1.panicOf j = if j = pid then none else s.panicOf j := by
  rw [panicOf_eq_slot,slotOf_erase (raiseFault_frame s clk pid m).1]
  split
  · rfl
  · exact panicOf_eq_slot.symm

section
variable {clk : Clock} {pid : ProcessId} {m : String} {found : List (ProcessId × String)}
  {raised : List FaultInfo}

/-- A panic that the poll has taken is neither in its slot nor a second time in the list. -/
theorem Delivery.taken_once (h : Delivery M)
    (hphase : M.phase = .polling [] ((pid,m)::found) raised) :
    M.sched.panicOf pid = none ∧ pid ∉ found.map Prod.fst := by
  have hcount := h.atMostOnce pid
  rw [copies_eq,taken_eq hphase] at hcount
  simp only [Phase.pending,map_cons,count_append,count_cons_self] at hcount
  constructor
  · rw [← not_isSome_iff_eq_none]
    intro hs
    rw [if_pos hs] at hcount
    omega
  · intro hin
    have hpos := count_pos_iff.mpr hin
    omega

section
variable (h : Delivery M) (hf : ThreadFacts M)
  (hphase : M.phase = .polling [] ((pid,m)::found) raised)
include h hf hphase

theorem copies_pollRaise (clk : Clock) (j : ProcessId) :
    (M.reported pid raised clk m found).copies j = M.copies j := by
  have hslot := ((h.poll _ _ _ hphase).found pid m (by simp)).2
  obtain ⟨hpid,-⟩ := raiseFault_info hf.filed clk (hf.process pid hslot) m
  rw [copies_eq,copies_eq,taken_eq hphase,taken_eq rfl,raiseFault_panicOf]
  simp only [Phase.pending,map_append,map_cons,count_append,count_cons,hpid]
  by_cases hj : j = pid
  · simp [hj,(h.taken_once hphase).1]
    omega
  · simp [hj]
    omega

theorem Delivery.pollRaise : Delivery (M.reported pid raised clk m found) := by
  have hok := h.poll _ _ _ hphase
  obtain ⟨hrec,hslot⟩ := hok.found pid m (by simp)
  obtain ⟨hpid,hmsg,hkind⟩ := raiseFault_info hf.filed clk (hf.process pid hslot) m
  have hlabel := raiseFault_relabels M.sched clk pid m
  refine h.of_le (fun j => (copies_pollRaise h hf hphase clk j).le) rfl h.reports
    fun todo' found' raised' hphase' => ?_
  cases hphase'
  refine ⟨fun j m' hm' => ?_,fun info hi => ?_,hok.recorded,fun j hj hnot => ?_⟩
  · have hne : j ≠ pid := by
      rintro rfl
      exact (h.taken_once hphase).2 (mem_map.mpr ⟨_,hm',rfl⟩)
    obtain ⟨hrec',hslot'⟩ := hok.found j m' (by simp [hm'])
    refine ⟨hrec',?_⟩
    rwa [slotOf_erase (raiseFault_frame M.sched clk pid m).1,if_neg hne]
  · rw [reported,(raiseFault_frame M.sched clk pid m).2.2]
    rcases mem_append.mp hi with hold | hnew
    · obtain ⟨hrec',hkind',hstate,hqueue⟩ := hok.raised info hold
      refine ⟨hrec',hkind',?_,mem_append_left _ hqueue⟩
      rw [hlabel.state,hstate,map_some]
      by_cases he : info.pid = pid <;> simp [only]
    · rw [mem_singleton.mp hnew,hpid,hmsg]
      refine ⟨hrec,hkind,?_,by simp⟩
      have hstate := hlabel.state pid
      rw [only_of_mem (by simp)] at hstate
      cases hst : M.sched.stateOf pid with
      | none => exact absurd (hf.process pid hslot) (stateOf_eq_none.mp hst)
      | some st => rw [hstate,hst,map_some]
  · rw [raiseFault_panicOf]
    split
    · rfl
    · exact hok.visited j hj hnot

end
end

theorem copies_pollEnd (hphase : M.phase = .polling [] [] raised) (j : ProcessId) :
    (M.polled raised).copies j = M.copies j := by
  refine copies_congr ?_ rfl
  rw [taken_eq hphase,taken_eq rfl]
  simp [Phase.pending]

theorem Delivery.pollEnd (h : Delivery M) (hphase : M.phase = .polling [] [] raised) :
    Delivery (M.polled raised) := by
  refine h.of_le (fun j => (copies_pollEnd hphase j).le) rfl (fun info hi => ?_)
    fun _ _ _ hp => nomatch hp
  rw [polled,flatten_append,mem_append] at hi
  rcases hi with hold | hnew
  · exact h.reports info hold
  · exact ((h.poll _ _ _ hphase).raised info (by simpa using hnew)).1

theorem copies_checkReap (hphase : M.phase = .checking [] (pid::finished)) (j : ProcessId) :
    (M.reaped pid finished).copies j = if j = pid then M.taken j else M.copies j := by
  have hslot : (M.sched.reapThread pid).slotOf j = if j = pid then none else M.sched.slotOf j :=
    slotOf_erase rfl j
  rw [copies_eq,taken_eq rfl,copies_eq,taken_eq hphase,panicOf_eq_slot,hslot]
  split
  · rfl
  · rw [← panicOf_eq_slot]
    rfl

theorem Delivery.checkReap (h : Delivery M) (hphase : M.phase = .checking [] (pid::finished)) :
    Delivery (M.reaped pid finished) := by
  refine h.of_le (fun j => ?_) rfl h.reports fun _ _ _ hp => nomatch hp
  rw [copies_checkReap hphase]
  split
  · exact Nat.le_add_right _ _
  · exact le_rfl

theorem step_delivery (h : Delivery M) (hf : ThreadFacts M) (hst : M.step e = some M') :
    Delivery M' := by
  cases step_turn hst with
  | call idle isCall run => exact h.call hf idle isCall run
  | panic run => exact h.panic hf run
  | finish run => exact h.finish run
  | pollStart idle enumerates => exact h.pollStart idle enumerates
  | pollVisit polling => exact h.pollVisit hf polling
  | pollRaise polling => exact h.pollRaise hf polling
  | pollEnd polling => exact h.pollEnd polling
  | checkStart idle => exact h.rephase (by rw [idle]; rfl) fun _ _ _ hp => nomatch hp
  | checkVisit checking | checkEnd checking =>
    exact h.rephase (by rw [checking]; rfl) fun _ _ _ hp => nomatch hp
  | checkReap checking => exact h.checkReap checking

section
variable (h : Conserved M)
include h

theorem Conserved.congr (hcopies : ∀ pid, M'.copies pid = M.copies pid)
    (hrecorded : M'.recorded = M.recorded) (hkilled : M'.killed = M.killed) : Conserved M' := by
  intro pid
  rw [hcopies,hrecorded,hkilled]
  exact h pid

theorem Conserved.call (hf : ThreadFacts M) (hc : op.isCall = true) (hst : M.sched.step op = some t)
    (hd : Delivery (M.called t)) : Conserved (M.called t) := by
  refine fun pid => ⟨hd.atMostOnce pid,fun hrec hkill => ?_⟩
  obtain ⟨halive,hkept⟩ := Bool.or_eq_false_iff.mp hkill
  rcases hf.call_panicOf hc hst pid with hsame | ⟨-,hin,hout⟩
  · have hcopies : (M.called t).copies pid = M.copies pid := copies_congr rfl hsame
    rw [hcopies]
    exact (h pid).2 hrec halive
  · simp [hin,hout] at hkept

theorem Conserved.panic (hd : Delivery M) (hf : ThreadFacts M)
    (hrun : M.sched.recordPanic pid message = some t) : Conserved (M.panicked pid t message) := by
  intro j
  rw [copies_panic hd hf hrun]
  by_cases hj : j = pid
  · rw [if_pos hj]
    exact ⟨le_rfl,fun _ _ => rfl⟩
  · rw [if_neg hj]
    exact ⟨(h j).1,fun hrec => (h j).2 (by simpa [hj] using hrec)⟩

/-- A reaped thread takes a panic that is still in its slot with it: the fault of a live process is
nowhere on record. -/
theorem Conserved.checkReap_iff (hf : ThreadFacts M)
    (hphase : M.phase = .checking [] (pid::finished)) :
    Conserved (M.reaped pid finished) ↔ M.sched.panicOf pid = none := by
  have hcopies := copies_checkReap hphase
  constructor
  · intro hc
    by_contra hne
    obtain ⟨m,hm⟩ := ne_none_iff_exists'.mp hne
    obtain ⟨slot,hslot,-⟩ := panicOf_eq_some.mp hm
    have hrec : M.recorded pid ≠ none := by
      rw [hf.message pid m hm]
      exact some_ne_none m
    have halive : M.killed pid = false := by
      rw [← Bool.not_eq_true]
      exact fun hk => (hf.dead pid hk).1 (hf.process pid (by rw [hslot]; simp))
    have hafter := (hc pid).2 hrec halive
    have hbefore := (h pid).2 hrec halive
    rw [hcopies,if_pos rfl] at hafter
    rw [copies_eq,hm,isSome_some,if_pos rfl] at hbefore
    omega
  · intro hnone
    refine h.congr (fun j => ?_) rfl rfl
    rw [hcopies]
    split
    next hj => rw [copies_eq,hj,hnone]; rfl
    next => rfl

/-- From a machine that has lost no fault, the next step loses one exactly when it reaps
a thread whose slot is full. -/
theorem step_conserved_iff (hd : Delivery M) (hf : ThreadFacts M) (hst : M.step e = some M') :
    Conserved M' ↔ ReapsEmptySlots M e := by
  have hd' := step_delivery hd hf hst
  have quiet {e : Event} {M' : Machine} (hcopies : ∀ pid, M'.copies pid = M.copies pid)
      (hr : M'.recorded = M.recorded) (hk : M'.killed = M.killed) (he : e ≠ .checkReap) :
      Conserved M' ↔ ReapsEmptySlots M e :=
    iff_of_true (h.congr hcopies hr hk) fun _ _ hreap => absurd hreap he
  cases step_turn hst with
  | call idle isCall run =>
    exact iff_of_true (h.call hf isCall run hd') fun _ _ he => nomatch he
  | panic run => exact iff_of_true (h.panic hd hf run) fun _ _ he => nomatch he
  | finish run =>
    exact quiet (fun pid => copies_congr rfl (finishThread_panicOf run pid)) rfl rfl nofun
  | pollStart idle | checkStart idle =>
    exact quiet (fun pid => copies_congr (by rw [taken_eq idle]; rfl) rfl) rfl rfl nofun
  | pollVisit polling => exact quiet (copies_pollVisit polling) rfl rfl nofun
  | pollRaise polling => exact quiet (copies_pollRaise hd hf polling _) rfl rfl nofun
  | pollEnd polling => exact quiet (copies_pollEnd polling) rfl rfl nofun
  | checkVisit checking | checkEnd checking =>
    exact quiet (fun pid => copies_congr (by rw [taken_eq checking]; rfl) rfl) rfl rfl nofun
  | checkReap checking =>
    refine (h.checkReap_iff hf checking).trans ⟨fun hnone pid finished _ hphase => ?_,fun hr => ?_⟩
    · rw [checking] at hphase
      cases hphase
      exact hnone
    · exact hr _ _ rfl checking

/-- A poll passes every slot, so what was recorded before it has left its slot and can only
be in a report. -/
theorem step_pollReports (hd : Delivery M) (hst : M.step e = some M') : PollReports M e M' := by
  rintro rfl
  cases step_turn hst with
  | @pollEnd raised polling =>
    have hok := hd.poll _ _ _ polling
    refine ⟨fun pid m hm halive => ?_,raised,rfl,hok.raised⟩
    have hrec := hok.recorded pid m hm
    have hempty := hok.visited pid (by rw [hm]; simp) not_mem_nil
    have hone := (h pid).2 (by rw [hrec]; simp) halive
    rw [← copies_pollEnd polling,copies_eq] at hone
    simp only [hempty] at hone
    have hin : pid ∈ (M.returned ++ [raised]).flatten.map FaultInfo.pid :=
      count_pos_iff.mp (Nat.lt_of_lt_of_eq Nat.one_pos hone.symm)
    obtain ⟨info,hi,hpid⟩ := mem_map.mp hin
    have hreport := (hd.pollEnd polling).reports info hi
    rw [hpid,hrec] at hreport
    exact ⟨info,hi,hpid,(some.inj hreport).symm⟩

end
end Machine
end Aios.ProcessMgr
