import Aios.Kernel.Sched.Rotation
import Aios.Lib.Transition
import Mathlib.Data.Fintype.Card

/-!
The queue of fault records along runs: one for each task that a fault or a hang has stopped, none
for the others.
-/
namespace Aios.Kernel.Sched

open Transition List Function Option
variable {k' : Machine} {c : Fin maxTasks} {r : Outcome} {frame : InterruptFrame}

namespace Machine

/-- The invariant between the parts of `schedule`: the records belong to different tasks, which are
frozen, and the idle task can run. -/
structure Settled (k : Machine) : Prop where
  unique : k.faults.pids.Nodup
  frozen : ∀ i ∈ k.faults.pids, i ≠ 0 ∧ (k.tasks i).present = true ∧ (k.tasks i).sleepUntil = never
  pending : k.faults.pending = true ↔ k.faults.queue ≠ []
  boot : k.bootActive = true → k.current = some 0
  awake : (k.tasks 0).sleepUntil = 0
  idle : k.bootActive = false → (k.tasks 0).present = true ∧ (k.tasks 0).frame .cs = kernelCs
  running : ∀ c, k.current = some c → (k.tasks c).present = true

structure Sound (k : Machine) : Prop extends Settled k where
  free : ∀ c, k.current = some c → c ∉ k.faults.pids

structure Advances (k : Machine) (r : Machine × List (Fin maxTasks)) : Prop where
  settled : r.1.Settled
  current : r.1.current = k.current
  bootActive : r.1.bootActive = k.bootActive
  ticks : r.1.ticks = k.ticks
  recorded : ∀ i, i ∈ r.2 ∨ i ∈ k.faults.pids → i ∈ r.1.faults.pids

variable {k : Machine} {i : Fin maxTasks}

theorem Settled.of_eq (hk : k.Settled) (hf : k'.faults = k.faults) (ht : k'.tasks = k.tasks)
    (hc : k'.current = k.current) (hb : k'.bootActive = k.bootActive) : k'.Settled := by
  obtain ⟨hunique,hfrozen,hpending,hboot,hawake,hidle,hrunning⟩ := hk
  rw [← hf] at hunique hfrozen hpending
  rw [← ht] at hfrozen hawake hidle hrunning
  rw [← hb] at hboot hidle
  rw [← hc] at hboot hrunning
  exact ⟨hunique,hfrozen,hpending,hboot,hawake,hidle,hrunning⟩

/-- Nothing but the table of tasks changes, and there neither who is present nor who is
frozen. -/
theorem Settled.of_tasks (hk : k.Settled) {tasks : Fin maxTasks → Task}
    (hpresent : ∀ i, (tasks i).present = (k.tasks i).present)
    (hfrozen : ∀ i ∈ k.faults.pids, (tasks i).sleepUntil = never)
    (hawake : (tasks 0).sleepUntil = 0)
    (hcs : k.bootActive = false → (tasks 0).frame .cs = kernelCs) :
    Settled { k with tasks := tasks } where
  unique := hk.unique
  frozen i hi := ⟨(hk.frozen i hi).1,(hpresent i).trans (hk.frozen i hi).2.1,hfrozen i hi⟩
  pending := hk.pending
  boot := hk.boot
  awake := hawake
  idle hboot := ⟨(hpresent 0).trans (hk.idle hboot).1,hcs hboot⟩
  running c hc := (hpresent c).trans (hk.running c hc)

/-- There is a record for every task at most, and none for slot 0. -/
theorem Settled.length_lt (hk : k.Settled) (hc : c ≠ 0) (hnot : c ∉ k.faults.pids) :
    k.faults.queue.length < faultQueueLen := by
  have hzero : (0 : Fin maxTasks) ∉ k.faults.pids := fun h => (hk.frozen 0 h).1 rfl
  have hnodup : (0::c::k.faults.pids).Nodup := by simp [Ne.symm hc,hzero,hnot,hk.unique]
  have hlen := hnodup.length_le_card
  simp only [length_cons,Fintype.card_fin,Faults.pids,length_map] at hlen
  unfold faultQueueLen
  omega

theorem Settled.advances {r : Machine} (hs : r.Settled) (hc : r.current = k.current)
    (hb : r.bootActive = k.bootActive) (ht : r.ticks = k.ticks) (hf : r.faults = k.faults) :
    Advances k (r,[]) := by
  refine ⟨hs,hc,hb,ht,fun i hi => ?_⟩
  rw [hf]
  exact hi.resolve_left not_mem_nil

theorem Settled.seize (hk : k.Settled) {s : TaskSnapshot} (kind : FaultCode) (hzero : s.pid ≠ 0)
    (hpresent : (k.tasks s.pid).present = true) (hnot : s.pid ∉ k.faults.pids) :
    Advances k (freezeTask { k with faults := k.faults.publish kind s } s.pid,[s.pid]) := by
  obtain ⟨⟨r,hr,hqueue⟩,hpending⟩ := Faults.publish_queue kind s (hk.length_lt hzero hnot)
  have hpids : (k.faults.publish kind s).pids = k.faults.pids ++ [s.pid] := by
    simp [Faults.pids,hqueue,hr]
  rw [freezeTask,if_neg (by simp [hzero,hpresent])]
  refine ⟨⟨?_,?_,?_,hk.boot,?_,?_,?_⟩,rfl,rfl,rfl,?_⟩
  · have hfresh : ∀ a ∈ k.faults.pids, ∀ b ∈ [s.pid], a ≠ b := by
      intro a ha b hb hab
      rw [mem_singleton.mp hb] at hab
      exact hnot (hab ▸ ha)
    simp only [setTask,hpids]
    exact nodup_append.mpr ⟨hk.unique,nodup_singleton _,hfresh⟩
  · intro i hi
    simp only [setTask,hpids,mem_append,mem_singleton] at hi
    rw [setTask_tasks]
    split
    next his => exact ⟨his ▸ hzero,his ▸ hpresent,rfl⟩
    next his => exact hk.frozen i (hi.resolve_right his)
  · simp [setTask,hpending,hqueue]
  · rw [setTask_tasks,if_neg (Ne.symm hzero)]
    exact hk.awake
  · intro hboot
    rw [setTask_tasks,if_neg (Ne.symm hzero)]
    exact hk.idle hboot
  · intro c hc
    rw [setTask_tasks]
    split
    next hcs => exact hcs ▸ hpresent
    next => exact hk.running c hc
  · intro i hi
    simp only [setTask,hpids,mem_append]
    exact hi.symm

theorem Settled.watchdog (hk : k.Settled) (hcur : k.current = some c) (hzero : c ≠ 0)
    (hnot : k.hangDue c ((k.tasks c).frame .rip) = true → c ∉ k.faults.pids) :
    Advances k (k.watchdog c) := by
  have hpresent := hk.running c hcur
  unfold Machine.watchdog
  dsimp only
  split
  next hdue =>
    have hk' : Settled { k with
        stallRip := update k.stallRip c ((k.tasks c).frame .rip)
        stallSince := update k.stallSince c (k.progress c ((k.tasks c).frame .rip)) } :=
      hk.of_eq rfl rfl rfl rfl
    obtain ⟨hs,hc,hb,ht,hrec⟩ :=
      hk'.seize (s := .capture c (k.tasks c).frame) .hang hzero hpresent (hnot hdue)
    exact ⟨hs.of_eq rfl rfl rfl rfl,hc,hb,ht,hrec⟩
  next =>
    refine Settled.advances ?_ rfl rfl rfl rfl
    exact hk.of_eq rfl rfl rfl rfl

/-- The interrupt belongs to what runs: user code segments are those of tasks. -/
theorem ne_zero_of_userCs (hcs : frame .cs = k.contextCs) (huser : frame .cs ≠ kernelCs) :
    ∃ c, k.current = some c ∧ c ≠ 0 := by
  unfold contextCs at hcs
  split at hcs
  · exact absurd hcs huser
  next c hc =>
    refine ⟨c,hc,fun hzero => ?_⟩
    rw [if_pos hzero] at hcs
    exact huser hcs

theorem Settled.setTask_current (hk : k.Settled) (hc : k.current = some c) {t : Task}
    (hp : t.present = (k.tasks c).present) (hs : t.sleepUntil = (k.tasks c).sleepUntil)
    (hf : t.frame .cs = k.contextCs) : Settled (k.setTask c t) := by
  apply hk.of_tasks
  · intro i
    rw [update_apply]
    split
    next hi => rw [hp,hi]
    next => rfl
  · intro i hi
    rw [update_apply]
    split
    next hic => rw [hs,← hic,(hk.frozen i hi).2.2]
    next => exact (hk.frozen i hi).2.2
  · rw [update_apply]
    split
    next hzero => rw [hs,← hzero,hk.awake]
    next => exact hk.awake
  · intro hboot
    rw [update_apply]
    split
    next hzero =>
      rw [hf,contextCs,hc]
      exact if_pos hzero.symm
    next => exact (hk.idle hboot).2

/-- The watchdog is due for no task that has a record. -/
def Unrecorded (k : Machine) (frame : InterruptFrame) : Prop :=
  ∀ c, k.current = some c → frame .cs = userCs → k.hangDue c (frame .rip) = true → c ∉ k.faults.pids

theorem Settled.saveCurrent (hk : k.Settled) (hcs : frame .cs = k.contextCs)
    (hnot : k.Unrecorded frame) : Advances k (k.saveCurrent frame) := by
  unfold Machine.saveCurrent
  split
  · exact hk.advances rfl rfl rfl rfl
  next c hc =>
    split
    · refine Settled.advances ?_ rfl rfl rfl rfl
      exact hk.setTask_current hc rfl rfl hcs
    · split
      next hpresent =>
        have hframe : refresh (k.tasks c).frame frame .cs = frame .cs :=
          refresh_of_mem (by decide) _ _
        have hrip : refresh (k.tasks c).frame frame .rip = frame .rip :=
          refresh_of_mem (by decide) _ _
        have hs := hk.setTask_current (t := { k.tasks c with
          frame := refresh (k.tasks c).frame frame }) hc rfl rfl (hframe.trans hcs)
        split
        next huser =>
          have hc0 : c ≠ 0 := by
            obtain ⟨d,hd,hd0⟩ := ne_zero_of_userCs hcs (by rw [huser]; decide)
            rw [hc] at hd
            cases hd
            exact hd0
          have hdog := hs.watchdog (c := c) hc hc0 (by
            rw [setTask_tasks,if_pos rfl]
            dsimp only
            exact hnot c hc huser)
          exact ⟨hdog.settled,hdog.current,hdog.bootActive,hdog.ticks,hdog.recorded⟩
        next => exact hs.advances rfl rfl rfl rfl
      next => exact hk.advances rfl rfl rfl rfl

/-- The rotation leaves the frozen tasks alone, chooses none of them, and goes on from any task but
the idle one. -/
theorem Settled.rotate (hk : k.Settled) (hboot : k.bootActive = false) (hticks : k.ticks ≠ never)
    (critical : Bool) :
    Sound (k.rotate critical).1 ∧ (k.rotate critical).1.faults = k.faults := by
  obtain ⟨tasks,hwakes,hcases⟩ := k.rotate_cases critical
  have hfrozen : ∀ i ∈ k.faults.pids, (tasks i).sleepUntil = never := by
    intro i hi
    have hnever := (hk.frozen i hi).2.2
    rw [(hwakes i).eq_of_never hticks hnever,hnever]
  have hawake : (tasks 0).sleepUntil = 0 := by
    rcases hwakes 0 with h | ⟨-,h⟩
    · rw [h,hk.awake]
    · rw [h]
  have hcs : (tasks 0).frame .cs = kernelCs := by
    rw [(hwakes 0).frame]
    exact (hk.idle hboot).2
  have hs : Settled { k with tasks := tasks } :=
    hk.of_tasks (fun i => (hwakes i).present) hfrozen hawake fun _ => hcs
  obtain ⟨hnone,heq⟩ | ⟨n,hsome,heq⟩ := hcases
  · rw [heq]
    refine ⟨⟨hs,fun c hc hmem => ?_⟩,rfl⟩
    -- slot 0 can always run, so it is the one that runs already
    have hidle := find?_eq_none.mp hnone 0 (zero_mem_rotation _)
    have hcool : ¬ (critical = true ∧ (k.tasks 0).frame .cs = userCs) := by
      rw [(hk.idle hboot).2]
      rintro ⟨-,h⟩
      exact absurd h (by decide)
    have hsleep : (k.tasks 0).sleepUntil ≤ k.ticks := by
      rw [hk.awake]
      exact UInt64.zero_le
    have hcur : some 0 = k.current := by
      by_contra hne
      apply hidle
      simp only [runs,decide_eq_true_eq]
      exact ⟨(hk.idle hboot).1,hne,hsleep,hcool⟩
    have hc0 : c = 0 := some.inj (hc.symm.trans hcur.symm)
    exact (hk.frozen c hmem).1 hc0
  · have hruns := find?_some hsome
    simp only [runs,decide_eq_true_eq] at hruns
    obtain ⟨hpresent,-,hle,-⟩ := hruns
    rw [heq]
    refine ⟨⟨⟨hs.unique,hs.frozen,hs.pending,fun h => ?_,hs.awake,hs.idle,fun c hc => ?_⟩,
      fun c hc hmem => ?_⟩,rfl⟩
    · exact absurd (hboot.symm.trans h) (by decide)
    · cases hc
      exact (hwakes n).present.trans hpresent
    · cases hc
      rw [(hk.frozen n hmem).2.2] at hle
      exact hticks (eq_never_of_le hle)

theorem Settled.switch (hk : k.Settled) (hboot : k.bootActive = false) (hticks : k.ticks ≠ never)
    (hcs : frame .cs = k.contextCs) (hnot : k.Unrecorded frame) (critical : Bool) :
    Sound ((k.saveCurrent frame).1.rotate critical).1 ∧
      ∀ i, i ∈ (k.saveCurrent frame).2 ∨ i ∈ k.faults.pids →
        i ∈ ((k.saveCurrent frame).1.rotate critical).1.faults.pids := by
  have hsave := hk.saveCurrent hcs hnot
  obtain ⟨hsound,hfaults⟩ := hsave.settled.rotate (hsave.bootActive.trans hboot)
    (fun h => hticks (hsave.ticks.symm.trans h)) critical
  refine ⟨hsound,fun i hi => ?_⟩
  rw [hfaults]
  exact hsave.recorded i hi

/-- An event leads to a sound machine, with a record for each task that a fault or a hang has
stopped and that is still stopped. -/
structure Leads (k : Machine) (r : Outcome) : Prop where
  sound : r.machine.Sound
  recorded : ∀ i, i ∈ r.frozen ∨ i ∈ k.faults.pids → (r.machine.tasks i).present = true →
    (r.machine.tasks i).sleepUntil = never → i ∈ r.machine.faults.pids

theorem Leads.quiet (hk : k'.Sound) (hf : k'.faults.pids = k.faults.pids) :
    Leads k ⟨k',[],none⟩ := by
  refine ⟨hk,fun i hi _ _ => ?_⟩
  rw [hf]
  exact hi.resolve_left not_mem_nil

theorem Sound.of_eq (hk : k.Sound) (hf : k'.faults = k.faults) (ht : k'.tasks = k.tasks)
    (hc : k'.current = k.current) (hb : k'.bootActive = k.bootActive) : k'.Sound := by
  refine ⟨hk.toSettled.of_eq hf ht hc hb,fun c hcur => ?_⟩
  rw [hf]
  exact hk.free c (hc.symm.trans hcur)

theorem Sound.schedule (hk : k.Sound) (hticks : k.ticks ≠ never) (hcs : frame .cs = k.contextCs)
    (critical : Bool) : Leads k (k.schedule critical frame) := by
  unfold Machine.schedule
  split
  · exact .quiet hk rfl
  next hearly =>
    split
    · exact .quiet hk rfl
    next =>
      have hboot : k.bootActive = false := by
        by_contra hactive
        rw [Bool.not_eq_false] at hactive
        exact hearly ⟨hk.boot hactive,hactive⟩
      obtain ⟨hsound,hrec⟩ := hk.toSettled.switch hboot hticks hcs
        (fun c hc _ _ => hk.free c hc) critical
      exact ⟨hsound,fun i hi _ _ => hrec i hi⟩

theorem Leads.trans (h : Leads k' r) (hf : ∀ i ∈ k.faults.pids, i ∈ k'.faults.pids) : Leads k r :=
  ⟨h.sound,fun i hi => h.recorded i (hi.imp_right (hf i))⟩

theorem Sound.tick (hk : k.Sound) (hticks : k.ticks ≠ never) (hcs : frame .cs = k.contextCs)
    (critical : Bool) : Leads k (k.tick critical frame) := by
  unfold Machine.tick
  split
  · exact .quiet hk rfl
  · have hk' : Sound { k with lastSwitchTick := k.ticks } := hk.of_eq rfl rfl rfl rfl
    exact (hk'.schedule hticks hcs critical).trans fun _ hi => hi

theorem Sound.sleep (hk : k.Sound) (hcur : k.current = some c) (hc : c ≠ 0) (deadline : UInt64) :
    Sound (k.setTask c { k.tasks c with sleepUntil := deadline }) := by
  refine ⟨hk.toSettled.of_tasks (fun i => ?_) (fun i hi => ?_) ?_ fun hboot => ?_,hk.free⟩
  · rw [update_apply]
    split
    next hi => rw [hi]
    next => rfl
  · have hic : i ≠ c := fun h => hk.free c hcur (h ▸ hi)
    rw [update_of_ne hic]
    exact (hk.frozen i hi).2.2
  · rw [update_of_ne (Ne.symm hc)]
    exact hk.awake
  · rw [update_of_ne (Ne.symm hc)]
    exact (hk.idle hboot).2

theorem Sound.sleepCurrent (hk : k.Sound) (hticks : k.ticks ≠ never) (hcs : frame .cs = k.contextCs)
    (critical : Bool) (ticks : UInt64) : Leads k (k.sleepCurrent critical frame ticks) := by
  unfold Machine.sleepCurrent
  split
  · exact hk.schedule hticks hcs critical
  next c hc =>
    split
    next hrun =>
      have hk' := hk.sleep hc hrun.1 (k.wakeTime ticks)
      have hcs' : frame .cs = (k.setTask c { k.tasks c with
          sleepUntil := k.wakeTime ticks }).contextCs := by
        rw [hcs]
        simp [contextCs,setTask,hc]
      exact (hk'.schedule hticks hcs' critical).trans fun _ hi => hi
    next => exact hk.schedule hticks hcs critical

theorem Sound.syscall (hk : k.Sound) (hticks : k.ticks ≠ never) (hcs : frame .cs = k.contextCs)
    (critical : Bool) : Leads k (k.syscall critical frame) := by
  obtain ⟨activity,hnote⟩ : ∃ activity,
      k.noteActivity k.currentPid = { k with lastActivity := activity } := by
    unfold noteActivity
    split
    · exact ⟨k.lastActivity,rfl⟩
    · exact ⟨_,rfl⟩
  have hk' : Sound { k with lastActivity := activity } := hk.of_eq rfl rfl rfl rfl
  unfold Machine.syscall
  rw [hnote]
  split
  · have hcs' : update frame .rax 0 .cs = k.contextCs := hcs
    exact (hk'.sleepCurrent hticks hcs' critical _).trans fun _ hi => hi
  · split
    · refine .quiet ⟨⟨?_,?_,?_,hk.boot,hk.awake,hk.idle,hk.running⟩,?_⟩ rfl
      · exact hk.unique
      · exact hk.frozen
      · exact hk.pending
      · exact hk.free
    · exact .quiet hk' rfl

theorem freezeTask_contextCs : (k.freezeTask i).contextCs = k.contextCs := by
  rcases k.freezeTask_eq i with h | h
  · rw [h]
  · rw [h]
    unfold contextCs
    dsimp only [setTask]
    split
    · rfl
    next c _ =>
      rw [update_apply]
      split
      · rfl
      · split
        next hci => rw [hci]
        next => rfl

theorem freezeTask_hangDue (rip : UInt64) : (k.freezeTask i).hangDue c rip = k.hangDue c rip := by
  rcases k.freezeTask_eq i with h | h
  · rw [h]
  · rw [h]
    rfl

theorem Settled.schedule_user (hk : k.Settled) (hboot : k.bootActive = false)
    (hticks : k.ticks ≠ never) (hcs : frame .cs = k.contextCs) (huser : frame .cs ≠ kernelCs)
    (hnot : k.Unrecorded frame) (critical : Bool) : Leads k (k.schedule critical frame) := by
  have hbooted : ¬ (k.current = some 0 ∧ k.bootActive = true) := by simp [hboot]
  have hkernel : ¬ (hwTick frame = true ∧ frame .cs = kernelCs ∧ k.current ≠ none) :=
    fun h => huser h.2.1
  obtain ⟨hsound,hrec⟩ := hk.switch hboot hticks hcs hnot critical
  unfold Machine.schedule
  rw [if_neg hbooted,if_neg hkernel]
  exact ⟨hsound,fun i hi _ _ => hrec i hi⟩

/-- An exception of a task for which the watchdog is not due makes one record. -/
theorem Sound.intercept (hk : k.Sound) (hticks : k.ticks ≠ never) (hcs : frame .cs = k.contextCs)
    (huser : frame .cs ≠ kernelCs)
    (hcalm : frame .cs = userCs → k.hangDue k.currentPid (frame .rip) = false) (critical : Bool)
    (kind : FaultCode) : Leads k (k.intercept critical frame kind) := by
  obtain ⟨c,hc,hc0⟩ := ne_zero_of_userCs hcs huser
  have hpid : k.currentPid = c := by simp [currentPid,hc]
  have hboot : k.bootActive = false := by
    by_contra hactive
    rw [Bool.not_eq_false] at hactive
    exact hc0 (some.inj (hc.symm.trans (hk.boot hactive)))
  have hseize : Advances k
      (freezeTask { k with faults := k.faults.publish kind (.capture c frame) } c,[c]) :=
    hk.toSettled.seize (s := .capture c frame) kind hc0 (hk.running c hc) (hk.free c hc)
  rw [hpid] at hcalm
  unfold Machine.intercept
  dsimp only
  rw [hpid]
  generalize hk' : freezeTask { k with faults := k.faults.publish kind (.capture c frame) } c = k'
    at hseize
  have hcs' : frame .cs = k'.contextCs := by
    rw [← hk',freezeTask_contextCs]
    exact hcs
  have hnot : k'.Unrecorded frame := by
    intro d hd hu hhang
    have hdc : d = c := some.inj (hd.symm.trans (hseize.current.trans hc))
    have hdue : k'.hangDue c (frame .rip) = k.hangDue c (frame .rip) := by
      rw [← hk',freezeTask_hangDue]
      rfl
    rw [hdc,hdue,hcalm hu] at hhang
    cases hhang
  obtain ⟨hsound,hrec⟩ := hseize.settled.schedule_user (hseize.bootActive.trans hboot)
    (fun h => hticks (hseize.ticks.symm.trans h)) hcs' huser hnot critical
  refine ⟨hsound,fun i hi => hrec i ?_⟩
  rcases hi with hi | hi
  · rcases mem_cons.mp hi with rfl | hi
    · exact .inr (hseize.recorded _ (.inl (mem_singleton_self _)))
    · exact .inl hi
  · exact .inr (hseize.recorded i (.inr hi))

/-- Fewer than 2⁶⁴ - 2 ticks have passed, and no exception comes when the watchdog is due for its
task. -/
def Calm (k : Machine) : Event → Prop
  | .interrupt frame _ =>
    k.ticks.toNat+1 < never.toNat ∧
      (faultCode (frame .vector) ≠ none → frame .cs = userCs →
        k.hangDue k.currentPid (frame .rip) = false)
  | _ => True

instance : (e : Event) → Decidable (k.Calm e)
  | .interrupt frame _ =>
    inferInstanceAs (Decidable (k.ticks.toNat+1 < never.toNat ∧
      (faultCode (frame .vector) ≠ none → frame .cs = userCs →
        k.hangDue k.currentPid (frame .rip) = false)))
  | .resolve _ | .spawnKernel _ _ | .spawnUser _ _ _ _ | .bootFinished _ _ =>
    inferInstanceAs (Decidable True)

theorem Sound.handleInterrupt (hk : k.Sound) {critical : Bool}
    (hC : k.Calm (.interrupt frame critical)) (hcs : frame .cs = k.contextCs)
    (h : k.handleInterrupt critical frame = some r) : Leads k r := by
  obtain ⟨hfew,hcalm⟩ := hC
  have hticks : k.ticks ≠ never := by
    rintro he
    rw [he] at hfew
    omega
  unfold Machine.handleInterrupt at h
  split at h
  next kind hkind =>
    split at h
    · cases h
    next huser =>
      cases h
      exact hk.intercept hticks hcs huser (hcalm (by simp [hkind])) critical kind
  next =>
    split_ifs at h
    · cases h
      have hk' : Sound { k with ticks := k.ticks+1 } := hk.of_eq rfl rfl rfl rfl
      have hticks' : k.ticks+1 ≠ never := by
        intro he
        have hnat := congrArg UInt64.toNat he
        rw [UInt64.toNat_add,UInt64.toNat_one] at hnat
        omega
      exact (hk'.tick hticks' hcs critical).trans fun _ hi => hi
    · cases h
      exact .quiet hk rfl
    · cases h
      exact hk.syscall hticks hcs critical
    · cases h
      exact hk.schedule hticks hcs critical

theorem Sound.release (hk : k.Sound) {r : FaultRecord} {rest : List FaultRecord}
    (hqueue : k.faults.queue = r::rest) (hcur : k.current = some 0) {action : Recovery}
    (h : Decides k k' r.pid action) {F : Faults} (hF : F.queue = rest)
    (hpending : F.pending = if rest.isEmpty then false else k.faults.pending) :
    Leads k ⟨{ k' with faults := F },[],none⟩ := by
  have hpids : k.faults.pids = r.pid::rest.map FaultRecord.pid := by simp [Faults.pids,hqueue]
  have hpids' : F.pids = rest.map FaultRecord.pid := by simp [Faults.pids,hF]
  obtain ⟨hpid,hstopped,-⟩ := hk.frozen r.pid (by simp [hpids])
  have hunique := hk.unique
  rw [hpids,nodup_cons] at hunique
  have hold (i : Fin maxTasks) (hi : i ∈ F.pids) : i ≠ r.pid ∧ i ∈ k.faults.pids := by
    rw [hpids'] at hi
    refine ⟨fun hir => hunique.1 (hir ▸ hi),?_⟩
    rw [hpids]
    exact mem_cons_of_mem _ hi
  have hother : k.current ≠ some r.pid := by
    rw [hcur]
    exact fun h => hpid (some.inj h).symm
  have hcur' : k'.current = some 0 := (h.current (.inl hother)).trans hcur
  have hzero : k'.tasks 0 = k.tasks 0 := h.others 0 (.inr rfl)
  refine ⟨⟨⟨?_,fun i hi => ?_,?_,fun _ => hcur',?_,fun hb => ?_,fun c hc => ?_⟩,
    fun c hc hi => ?_⟩,fun i hi hpresent hnever => ?_⟩
  · exact hpids' ▸ hunique.2
  · obtain ⟨hne,hin⟩ := hold i hi
    rw [h.others i (.inl hne)]
    exact hk.frozen i hin
  · have hheld : k.faults.pending = true := hk.pending.mpr (by simp [hqueue])
    rw [hpending,hF,hheld]
    cases rest <;> simp
  · rw [hzero]
    exact hk.awake
  · rw [hzero]
    exact hk.idle (h.bootActive.symm.trans hb)
  · have hc0 : c = 0 := some.inj (hc.symm.trans hcur')
    rw [hc0,hzero]
    exact hk.running 0 hcur
  · have hc0 : c = 0 := some.inj (hc.symm.trans hcur')
    exact (hk.frozen c (hold c hi).2).1 hc0
  · have hin := hi.resolve_left not_mem_nil
    rw [hpids] at hin
    rcases mem_cons.mp hin with rfl | hrest
    · rcases h.released hpid hstopped with habsent | hawake
      · exact absurd (habsent.symm.trans hpresent) (by decide)
      · exact absurd (hawake.symm.trans hnever) (by decide)
    · exact hpids' ▸ hrest

theorem Sound.resolve (hk : k.Sound) (hcur : k.current = some 0) (action : Recovery) :
    Leads k ⟨k.resolve action,[],none⟩ := by
  unfold Machine.resolve
  split
  · exact .quiet hk rfl
  next r rest hqueue =>
    split
    · exact .quiet hk rfl
    next =>
      have h := k.recover_decides r action
      have hpop : ((k.recover r action).faults.archive r action).popFront =
          { (k.recover r action).faults.archive r action with
            queue := rest
            pending := if rest.isEmpty then false else (k.recover r action).faults.pending } := by
        have hq : ((k.recover r action).faults.archive r action).queue = r::rest :=
          h.queue.trans hqueue
        unfold Faults.popFront
        rw [hq]
        rfl
      dsimp only
      rw [hpop]
      exact hk.release hqueue hcur h rfl (by rw [h.pending])

theorem Sound.spawnWith (hk : k.Sound) (values : List (Field × UInt64)) :
    Leads k ⟨k.spawnWith values,[],none⟩ := by
  unfold Machine.spawnWith
  split
  · exact .quiet hk rfl
  next i hfree =>
    have hslot := find?_some hfree
    simp only [decide_eq_true_eq] at hslot
    obtain ⟨hi0,habsent⟩ := hslot
    have hother {j : Fin maxTasks} (hj : (k.tasks j).present = true) : j ≠ i := by
      rintro rfl
      exact absurd (habsent.symm.trans hj) (by decide)
    refine .quiet ⟨⟨hk.unique,fun j hj => ?_,hk.pending,hk.boot,?_,fun hb => ?_,
      fun c hc => ?_⟩,hk.free⟩ rfl
    · have hji := hother (hk.frozen j hj).2.1
      simpa [resetStall,setTask,hji] using hk.frozen j hj
    · simpa [resetStall,setTask,Ne.symm hi0] using hk.awake
    · simpa [resetStall,setTask,Ne.symm hi0] using hk.idle hb
    · have hci := hother (hk.running c hc)
      simpa [resetStall,setTask,hci] using hk.running c hc

theorem Sound.bootFinished (hk : k.Sound) (entry idleTop : UInt64) :
    Leads k ⟨k.bootFinished entry idleTop,[],none⟩ := by
  have hnobody (c : Fin maxTasks) : (k.bootFinished entry idleTop).current ≠ some c := (nomatch ·)
  refine .quiet ⟨⟨hk.unique,fun i hi => ?_,hk.pending,(nomatch ·),?_,fun _ => ?_,
    fun c hc => absurd hc (hnobody c)⟩,fun c hc => absurd hc (hnobody c)⟩ rfl
  · have hi0 := (hk.frozen i hi).1
    simpa [Machine.bootFinished,hi0] using hk.frozen i hi
  · simpa [Machine.bootFinished] using hk.awake
  · exact ⟨rfl,rfl⟩

theorem sound_init (ticks : UInt64) : (init ticks).Sound where
  unique := nodup_nil
  frozen _ h := (not_mem_nil h).elim
  pending := by simp [init,Faults.init]
  boot _ := rfl
  awake := rfl
  idle h := nomatch h
  running c hc := by
    cases hc
    rfl
  free _ _ := not_mem_nil

theorem Sound.respond (hk : k.Sound) {e : Event} (hC : k.Calm e) (h : k.respond e = some r) :
    Leads k r := by
  cases e with
  | interrupt frame critical =>
    obtain ⟨hcs,h⟩ := ite_none_right_eq_some.mp h
    exact hk.handleInterrupt hC hcs h
  | resolve action =>
    obtain ⟨hcur,h⟩ := ite_none_right_eq_some.mp h
    cases h
    exact hk.resolve hcur action
  | spawnKernel | spawnUser =>
    obtain ⟨-,h⟩ := ite_none_right_eq_some.mp h
    cases h
    exact hk.spawnWith _
  | bootFinished entry idleTop =>
    obtain ⟨-,h⟩ := ite_none_right_eq_some.mp h
    cases h
    exact hk.bootFinished entry idleTop

end Machine
end Aios.Kernel.Sched
