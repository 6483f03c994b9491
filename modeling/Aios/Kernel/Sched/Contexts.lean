import Aios.Kernel.Sched.Restore
import Aios.Kernel.Sched.Rotation
import Aios.Lib.Transition

/-!
The contexts of the tasks along runs of the kernel: with which registers a task goes on.
-/
namespace Aios.Kernel.Sched

open Transition Option

/-- The CPU in the handler of an interrupt when it calls a restore routine: `rdi` points to the copy
of the incoming frame, and the code segment is the kernel's. -/
structure Handler where
  cpu : Cpu
  kernel : cpu.regs .cs = kernelCs

variable {f : Field} {k' : Machine} {frame : InterruptFrame} {r : Outcome} {e : Event} {s : Threads}
  {ticks : UInt64}

namespace Handler

/-- The end of `schedule`: the registers with which the incoming task goes on. -/
def resume (h : Handler) (incoming : InterruptFrame) : Field → UInt64 :=
  (h.cpu.run (incoming.memory (h.cpu.regs .rdi))
    (if incoming .cs = kernelCs then aiosRestoreRing0 else aiosRestoreRing3)).regs

/-- The routines bring back all of a frame: `r10`, through which they pass `rip`, holds it anyway;
in ring 0 the stack segment is the handler's, in ring 3 `rdi` points to the copy. -/
def Survives (h : Handler) (frame : InterruptFrame) : Prop :=
  frame .r10 = frame .rip ∧
    if frame .cs = kernelCs then frame .ss = h.cpu.regs .ss else frame .rdi = h.cpu.regs .rdi

variable {h : Handler} {incoming left : InterruptFrame}

theorem resume_ring0 (hcs : incoming .cs = kernelCs) (hf : f ∈ refreshed) : h.resume incoming f =
      if f = .r10 then incoming .rip else if f = .ss then h.cpu.regs .ss else incoming f := by
  have hregs := Cpu.run_aiosRestoreRing0 (incoming.memory_offset (h.cpu.regs .rdi)) rfl hf
  rw [resume,if_pos hcs,hregs]
  by_cases hfcs : f = .cs
  · rw [hfcs,if_neg (by decide),if_pos (.inl rfl),if_neg (by decide),if_neg (by decide),hcs]
    exact h.kernel
  · by_cases hfss : f = .ss
    · simp [hfss]
    · rw [if_neg (not_or.mpr ⟨hfcs,hfss⟩),if_neg hfss]

theorem resume_ring3 (hcs : incoming .cs ≠ kernelCs) (hf : f ∈ refreshed) : h.resume incoming f =
      if f = .r10 then incoming .rip else if f = .rdi then h.cpu.regs .rdi else incoming f := by
  rw [resume,if_neg hcs]
  exact Cpu.run_aiosRestoreRing3 (incoming.memory_offset (h.cpu.regs .rdi)) rfl hf

/-- Beside `r10` each routine changes one field `x`. -/
theorem forall_resume_iff {x : Field} (hx : x ∈ refreshed) (hne : x ≠ .r10)
    (hresume : ∀ f ∈ refreshed, h.resume incoming f =
      if f = .r10 then incoming .rip else if f = x then h.cpu.regs x else incoming f)
    (hsaved : ∀ f ∈ refreshed, incoming f = left f) :
    (∀ f ∈ refreshed, h.resume incoming f = left f) ↔
      left .r10 = left .rip ∧ left x = h.cpu.regs x := by
  have hrip := hsaved .rip (by decide)
  constructor
  · intro hall
    have hr10 := hall .r10 (by decide)
    have hleft := hall x hx
    rw [hresume _ (by decide),if_pos rfl] at hr10
    rw [hresume x hx,if_neg hne,if_pos rfl] at hleft
    exact ⟨hr10.symm.trans hrip,hleft.symm⟩
  · rintro ⟨hr10,hleft⟩ f hf
    rw [hresume f hf]
    split_ifs with hf10 hfx
    · rw [hf10,hr10,hrip]
    · rw [hfx,hleft]
    · exact hsaved f hf

/-- A saved frame that agrees with the one of the last interrupt is brought back exactly if
that one survives the routines. -/
theorem resume_iff_survives (hsaved : ∀ f ∈ refreshed, incoming f = left f) :
    (∀ f ∈ refreshed, h.resume incoming f = left f) ↔ h.Survives left := by
  have hcs := hsaved .cs (by decide)
  unfold Survives
  by_cases hkernel : incoming .cs = kernelCs
  · rw [if_pos (hcs.symm.trans hkernel)]
    exact forall_resume_iff (by decide) (by decide) (fun f => resume_ring0 hkernel) hsaved
  · rw [if_neg (fun hk => hkernel (hcs.trans hk))]
    exact forall_resume_iff (by decide) (by decide) (fun f => resume_ring3 hkernel) hsaved

end Handler

namespace Machine

variable {k : Machine} {critical : Bool}

structure Keeps (k k' : Machine) : Prop where
  frame : ∀ i, (k'.tasks i).frame = (k.tasks i).frame
  present : ∀ i, (k'.tasks i).present = (k.tasks i).present
  current : k'.current = k.current

/-- The task that has the CPU is there. -/
def Occupied (k : Machine) : Prop := ∀ c, k.current = some c → (k.tasks c).present = true

theorem Keeps.refl (k : Machine) : Keeps k k := ⟨fun _ => rfl,fun _ => rfl,rfl⟩

theorem Keeps.occupied (h : Keeps k k') (hrun : k.Occupied) : k'.Occupied := by
  intro c hc
  rw [h.present]
  exact hrun c (h.current.symm.trans hc)

theorem keeps_setTask {i : Fin maxTasks} {t : Task} (hf : t.frame = (k.tasks i).frame)
    (hp : t.present = (k.tasks i).present) : Keeps k (k.setTask i t) := by
  refine ⟨fun j => ?_,fun j => ?_,rfl⟩
  · rw [setTask_tasks]
    split
    next hj => rw [hf,hj]
    next => rfl
  · rw [setTask_tasks]
    split
    next hj => rw [hp,hj]
    next => rfl

theorem keeps_freezeTask (k : Machine) (i : Fin maxTasks) : Keeps k (k.freezeTask i) := by
  rcases k.freezeTask_eq i with h | h
  · rw [h]
    exact ⟨fun _ => rfl,fun _ => rfl,rfl⟩
  · rw [h]
    exact keeps_setTask rfl rfl

theorem keeps_watchdog (k : Machine) (c : Fin maxTasks) : Keeps k (k.watchdog c).1 := by
  unfold watchdog
  dsimp only
  split
  · obtain ⟨hframe,hpresent,hcurrent⟩ := keeps_freezeTask { k with
      stallRip := Function.update k.stallRip c ((k.tasks c).frame .rip)
      stallSince := Function.update k.stallSince c (k.progress c ((k.tasks c).frame .rip))
      faults := k.faults.publish .hang (.capture c (k.tasks c).frame) } c
    exact ⟨hframe,hpresent,hcurrent⟩
  · exact ⟨fun _ => rfl,fun _ => rfl,rfl⟩

/-- What an interrupt with `frame` does: the contexts of tasks that do not run stay, and a task that
leaves the CPU has the registers of `frame` saved. -/
structure Turns (k : Machine) (frame : InterruptFrame) (r : Outcome) : Prop where
  others : ∀ i, k.current ≠ some i → (r.machine.tasks i).frame = (k.tasks i).frame
  present : ∀ i, (r.machine.tasks i).present = (k.tasks i).present
  turn : r.resumed = none ∧ r.machine.current = k.current ∨
    ∃ n, r.resumed = some (n,(r.machine.tasks n).frame) ∧ r.machine.current = some n ∧
      k.current ≠ some n ∧ (k.tasks n).present = true ∧
      ∀ c, k.current = some c → ∀ f ∈ refreshed, (r.machine.tasks c).frame f = frame f

theorem Turns.stay (h : Keeps k k') (frame : InterruptFrame) (frozen : List (Fin maxTasks)) :
    Turns k frame ⟨k',frozen,none⟩ :=
  ⟨fun i _ => h.frame i,h.present,.inl ⟨rfl,h.current⟩⟩

/-- Deadlines, counters and records may change before the turn. -/
theorem Turns.of_keeps (h : Keeps k k') (hr : Turns k' frame r) (frozen : List (Fin maxTasks)) :
    Turns k frame ⟨r.machine,frozen,r.resumed⟩ := by
  obtain ⟨hothers,hpresent,hturn⟩ := hr
  rw [h.current] at hothers hturn
  refine ⟨fun i hi => (hothers i hi).trans (h.frame i),fun i => (hpresent i).trans (h.present i),?_⟩
  obtain hstay | ⟨n,hres,hcur,hne,hp,hsaved⟩ := hturn
  · exact .inl hstay
  · exact .inr ⟨n,hres,hcur,hne,(h.present n).symm.trans hp,hsaved⟩

theorem saveCurrent_saves (hrun : k.Occupied) (frame : InterruptFrame) :
    ∃ k', (k.saveCurrent frame).1 = k' ∧ k'.current = k.current ∧
      (∀ i, (k'.tasks i).present = (k.tasks i).present) ∧
      (∀ i, k.current ≠ some i → (k'.tasks i).frame = (k.tasks i).frame) ∧
      ∀ c, k.current = some c → ∀ f ∈ refreshed, (k'.tasks c).frame f = frame f := by
  refine ⟨_,rfl,?_⟩
  unfold saveCurrent
  split
  next hnone =>
    refine ⟨rfl,fun _ => rfl,fun _ _ => rfl,fun c hc => ?_⟩
    exact absurd (hnone.symm.trans hc) (by simp)
  next c hc =>
    -- the two ways in which the frame is written
    have hwrite (t : Task) (hp : t.present = (k.tasks c).present)
        (hf : ∀ f ∈ refreshed, t.frame f = frame f) {k' : Machine}
        (hk' : Keeps (k.setTask c t) k') :
        k'.current = k.current ∧ (∀ i, (k'.tasks i).present = (k.tasks i).present) ∧
        (∀ i, k.current ≠ some i → (k'.tasks i).frame = (k.tasks i).frame) ∧
        ∀ d, k.current = some d → ∀ f ∈ refreshed, (k'.tasks d).frame f = frame f := by
      refine ⟨hk'.current,fun i => ?_,fun i hi => ?_,fun d hd f hmem => ?_⟩
      · rw [hk'.present,setTask_tasks]
        split
        next hic => rw [hp,hic]
        next => rfl
      · have hic : i ≠ c := fun h => hi (h ▸ hc)
        rw [hk'.frame,setTask_tasks,if_neg hic]
      · have hdc : d = c := some.inj (hd.symm.trans hc)
        rw [hk'.frame,setTask_tasks,if_pos hdc]
        exact hf f hmem
    have hrefresh (f : Field) (hf : f ∈ refreshed) :
        refresh (k.tasks c).frame frame f = frame f := refresh_of_mem hf _ _
    split
    · exact hwrite { k.tasks c with frame := frame, validFrame := true } rfl (fun _ _ => rfl)
        ⟨fun _ => rfl,fun _ => rfl,rfl⟩
    · rw [if_pos (hrun c hc)]
      split
      · exact hwrite { k.tasks c with frame := refresh (k.tasks c).frame frame } rfl hrefresh
          (keeps_watchdog _ c)
      · exact hwrite { k.tasks c with frame := refresh (k.tasks c).frame frame } rfl hrefresh
          ⟨fun _ => rfl,fun _ => rfl,rfl⟩

theorem turns_schedule (hrun : k.Occupied) (frame : InterruptFrame) :
    Turns k frame (k.schedule critical frame) := by
  unfold schedule
  split
  · exact .stay (.refl k) frame []
  · split
    · exact .stay (.refl k) frame []
    · obtain ⟨k',hk',hcur,hpresent,hothers,hsaved⟩ := saveCurrent_saves hrun frame
      dsimp only
      rw [hk']
      obtain ⟨tasks,hwakes,⟨-,heq⟩ | ⟨n,hfind,heq⟩⟩ := k'.rotate_cases critical
      · rw [heq]
        refine ⟨fun i hi => ?_,fun i => ?_,.inl ⟨rfl,hcur⟩⟩
        · exact (hwakes i).frame.trans (hothers i hi)
        · exact (hwakes i).present.trans (hpresent i)
      · have hruns := List.find?_some hfind
        simp only [runs,decide_eq_true_eq] at hruns
        obtain ⟨hn,hne,-⟩ := hruns
        rw [hcur] at hne
        rw [heq]
        refine ⟨fun i hi => ?_,fun i => ?_,.inr ⟨n,rfl,rfl,Ne.symm hne,?_,?_⟩⟩
        · exact (hwakes i).frame.trans (hothers i hi)
        · exact (hwakes i).present.trans (hpresent i)
        · exact (hpresent n).symm.trans hn
        · intro c hc f hf
          rw [(hwakes c).frame]
          exact hsaved c hc f hf

/-- The frame with which an interrupt leaves a task: a sleep has returned 0 by then. -/
def trapFrame (frame : InterruptFrame) : InterruptFrame :=
  if frame .vector = 128 ∧ frame .rax = sysSleep then Function.update frame .rax 0 else frame

theorem turns_sleepCurrent (hrun : k.Occupied) :
    Turns k frame (k.sleepCurrent critical frame ticks) := by
  unfold sleepCurrent
  split
  · exact turns_schedule hrun frame
  next c hc =>
    split
    · have hkeeps : Keeps k (k.setTask c { k.tasks c with sleepUntil := k.wakeTime ticks }) :=
        keeps_setTask rfl rfl
      exact .of_keeps hkeeps (turns_schedule (hkeeps.occupied hrun) frame) _
    · exact turns_schedule hrun frame

theorem turns_syscall (hrun : k.Occupied) (hv : frame .vector = 128) :
    Turns k (trapFrame frame) (k.syscall critical frame) := by
  have hkeeps : Keeps k (k.noteActivity k.currentPid) := by
    unfold noteActivity
    split <;> exact ⟨fun _ => rfl,fun _ => rfl,rfl⟩
  unfold syscall
  split
  next hsleep =>
    rw [trapFrame,if_pos ⟨hv,hsleep⟩]
    exact .of_keeps hkeeps (turns_sleepCurrent (hkeeps.occupied hrun)) _
  next =>
    split
    · refine .stay ?_ _ []
      exact ⟨hkeeps.frame,hkeeps.present,hkeeps.current⟩
    · exact .stay hkeeps _ []

theorem turns_handleInterrupt (hrun : k.Occupied) (h : k.handleInterrupt critical frame = some r) :
    Turns k (trapFrame frame) r := by
  have hplain (hv : frame .vector ≠ 128) : trapFrame frame = frame := if_neg fun h => hv h.1
  revert h
  fun_cases handleInterrupt k critical frame with
  | case1 | case7 => exact nofun
  | case2 kind hkind =>
    rintro ⟨⟩
    have hv : frame .vector ≠ 128 := fun hv => by
      rw [hv] at hkind
      cases hkind
    rw [hplain hv]
    have hkeeps : Keeps k (freezeTask { k with
        faults := k.faults.publish kind (.capture k.currentPid frame) } k.currentPid) := by
      obtain ⟨hf,hp,hc⟩ := keeps_freezeTask { k with
        faults := k.faults.publish kind (.capture k.currentPid frame) } k.currentPid
      exact ⟨hf,hp,hc⟩
    exact .of_keeps hkeeps (turns_schedule (hkeeps.occupied hrun) frame) _
  | case3 _ htimer =>
    rintro ⟨⟩
    have hv : frame .vector ≠ 128 := by rcases htimer with hv | hv <;> rw [hv] <;> decide
    rw [hplain hv]
    have hkeeps (last : UInt64) : Keeps k { k with ticks := k.ticks+1, lastSwitchTick := last } :=
      ⟨fun _ => rfl,fun _ => rfl,rfl⟩
    unfold tick
    split
    · exact .stay (hkeeps k.lastSwitchTick) frame []
    · have hrun' := (hkeeps (k.ticks+1)).occupied hrun
      exact .of_keeps (hkeeps (k.ticks+1)) (turns_schedule hrun' frame) _
  | case4 =>
    rintro ⟨⟩
    exact .stay (.refl k) _ []
  | case5 _ _ _ hsys =>
    rintro ⟨⟩
    exact turns_syscall hrun hsys
  | case6 _ _ _ _ hyield =>
    rintro ⟨⟩
    rw [hplain (by rw [hyield]; decide)]
    exact turns_schedule hrun frame

/-- The slots whose context an event makes anew: those a registration may take, the task rolled
back, and at the end of boot all. -/
def renews (k : Machine) : Event → Fin maxTasks → Bool
  | .interrupt _ _, _ => false
  | .resolve .rollback, i =>
    match k.faults.queue with
    | [] => false
    | r::_ => r.pid = i ∧ i ≠ 0 ∧ r.overBudget = false
  | .resolve _, _ => false
  | .spawnKernel _ _, i | .spawnUser _ _ _ _, i => (k.tasks i).present = false
  | .bootFinished _ _, _ => true

/-- The kernel's own actions leave the CPU to the one that has it, and keep the frames that are not
made anew. -/
structure Stays (k : Machine) (e : Event) (r : Outcome) : Prop where
  resumed : r.resumed = none
  current : ∀ i, k.renews e i = false → r.machine.current = k.current
  running : ∀ c, r.machine.current = some c → (r.machine.tasks c).present = true
  frame : ∀ i, k.renews e i = false → (r.machine.tasks i).frame = (k.tasks i).frame

theorem stays_resolve (hrun : k.Occupied) (hcur : k.current = some 0) (action : Recovery) :
    Stays k (.resolve action) ⟨k.resolve action,[],none⟩ := by
  unfold resolve
  split
  · exact ⟨rfl,fun _ _ => rfl,hrun,fun _ _ => rfl⟩
  next r rest hqueue =>
    split
    · exact ⟨rfl,fun _ _ => rfl,hrun,fun _ _ => rfl⟩
    next hbudget =>
      have h := k.recover_decides r action
      have hcur' : (k.recover r action).current = k.current := by
        apply h.current
        by_cases hpid : r.pid = 0
        · exact .inr hpid
        · rw [hcur]
          exact .inl fun h => hpid (some.inj h).symm
      refine ⟨rfl,fun _ _ => hcur',fun c hc => ?_,fun i hi => ?_⟩
      · have hc0 : c = 0 := some.inj (hc.symm.trans (hcur'.trans hcur))
        rw [hc0,h.others 0 (.inr rfl)]
        exact hrun 0 hcur
      · by_cases hother : i ≠ r.pid ∨ i = 0
        · rw [h.others i hother]
        · obtain ⟨hpid,hzero⟩ := not_or.mp hother
          rw [not_not] at hpid
          rw [hpid]
          apply h.frame
          rintro rfl
          have hwithin : r.overBudget = false := by simpa using hbudget
          have hrenews : k.renews (.resolve .rollback) i = true := by
            simp [renews,hqueue,hpid,hpid ▸ hzero,hwithin]
          exact absurd (hi.symm.trans hrenews) (by decide)

theorem stays_spawnWith (hrun : k.Occupied)
    (he : ∀ i, k.renews e i = decide ((k.tasks i).present = false))
    (values : List (Field × UInt64)) : Stays k e ⟨k.spawnWith values,[],none⟩ := by
  unfold spawnWith
  split
  · exact ⟨rfl,fun _ _ => rfl,hrun,fun _ _ => rfl⟩
  next i hfree =>
    have hslot := List.find?_some hfree
    simp only [decide_eq_true_eq] at hslot
    refine ⟨rfl,fun _ _ => rfl,fun c hc => ?_,fun j hj => ?_⟩
    · dsimp only [resetStall]
      rw [setTask_tasks]
      split
      · rfl
      · exact hrun c hc
    · have hji : j ≠ i := by
        rintro rfl
        rw [he j,hslot.2] at hj
        cases hj
      dsimp only [resetStall]
      rw [setTask_tasks,if_neg hji]

theorem respond_cases (hrun : k.Occupied) (h : k.respond e = some r) :
    (∃ frame critical, e = .interrupt frame critical ∧ Turns k (trapFrame frame) r) ∨
      Stays k e r := by
  cases e with
  | interrupt frame critical =>
    obtain ⟨-,h⟩ := ite_none_right_eq_some.mp h
    exact .inl ⟨frame,critical,rfl,turns_handleInterrupt hrun h⟩
  | resolve action =>
    obtain ⟨hcur,h⟩ := ite_none_right_eq_some.mp h
    cases h
    exact .inr (stays_resolve hrun hcur action)
  | spawnKernel | spawnUser =>
    obtain ⟨-,h⟩ := ite_none_right_eq_some.mp h
    cases h
    exact .inr (stays_spawnWith hrun (fun _ => rfl) _)
  | bootFinished entry idleTop =>
    obtain ⟨-,h⟩ := ite_none_right_eq_some.mp h
    cases h
    refine .inr ⟨rfl,?_,?_,?_⟩
    all_goals exact fun _ h => by cases h

end Machine

/-- The machine, and the interrupt frame with which each task left the CPU, if it did since
its context was made. -/
structure Threads where
  machine : Machine
  left : Fin maxTasks → Option InterruptFrame

namespace Threads

def start (ticks : UInt64) : Threads := ⟨.init ticks,fun _ => none⟩

/-- The frame that an event leaves behind for the task that it takes the CPU from. -/
def leaving : Event → Option InterruptFrame
  | .interrupt frame _ => some (Machine.trapFrame frame)
  | _ => none

def step (s : Threads) (e : Event × Handler) : Option Threads :=
  (s.machine.respond e.1).map fun r =>
    ⟨r.machine,fun i =>
      if s.machine.renews e.1 i then none
      else if r.resumed.isSome ∧ s.machine.current = some i then leaving e.1
      else s.left i⟩

/-- `P` holds of the restored frame and the one with which the task had left, if the event gives the
CPU to such a task. -/
def Resumes (P : InterruptFrame → InterruptFrame → Prop) (s : Threads) (e : Event) : Prop :=
  ∀ r ∈ s.machine.respond e, ∀ p ∈ r.resumed, ∀ left ∈ s.left p.1, P p.2 left

/-- The task goes on with the registers with which it left. -/
def Restored (s : Threads) (e : Event × Handler) : Prop :=
  s.Resumes (fun incoming left => ∀ f ∈ refreshed, e.2.resume incoming f = left f) e.1

instance (s : Threads) (e : Event × Handler) : Decidable (s.Restored e) :=
  inferInstanceAs (Decidable (∀ r ∈ s.machine.respond e.1, ∀ p ∈ r.resumed, ∀ left ∈ s.left p.1,
    ∀ f ∈ refreshed, e.2.resume p.2 f = left f))

/-- The frame with which the task left survives the routines. -/
def Spared (s : Threads) (e : Event × Handler) : Prop :=
  s.Resumes (fun _ left => e.2.Survives left) e.1

structure Kept (s : Threads) : Prop where
  running : ∀ c, s.machine.current = some c → (s.machine.tasks c).present = true
  saved : ∀ i left, s.left i = some left → s.machine.current ≠ some i →
    ∀ f ∈ refreshed, (s.machine.tasks i).frame f = left f

theorem kept_start : (start ticks).Kept where
  running c hc := by
    cases hc
    rfl
  saved _ _ h := nomatch h

theorem Kept.step {t : Threads} {e : Event × Handler} (hs : s.Kept) (h : s.step e = some t) :
    t.Kept := by
  obtain ⟨r,hr,rfl⟩ := map_eq_some_iff.mp h
  obtain ⟨frame,critical,he,hturn⟩ | hstay := Machine.respond_cases hs.running hr
  · obtain ⟨hothers,hpresent,hcases⟩ := hturn
    refine ⟨fun c hc => ?_,fun i left hleft hne f hf => ?_⟩
    · rw [hpresent c]
      obtain ⟨-,hcur⟩ | ⟨n,-,hcur,-,hn,-⟩ := hcases
      · exact hs.running c (hcur.symm.trans hc)
      · cases hcur.symm.trans hc
        exact hn
    · have hrenews : ¬ s.machine.renews e.1 i = true := by
        rw [he]
        exact Bool.false_ne_true
      dsimp only at hleft hne ⊢
      rw [if_neg hrenews] at hleft
      by_cases hi : s.machine.current = some i
      · obtain ⟨-,hcur⟩ | ⟨n,hres,-,-,-,hsaved⟩ := hcases
        · exact absurd (hcur.trans hi) hne
        · have hleaves : r.resumed.isSome ∧ s.machine.current = some i := ⟨by simp [hres],hi⟩
          rw [if_pos hleaves,he] at hleft
          cases hleft
          exact hsaved i hi f hf
      · rw [if_neg fun h => hi h.2] at hleft
        rw [hothers i hi]
        exact hs.saved i left hleft hi f hf
  · refine ⟨hstay.running,fun i left hleft hne f hf => ?_⟩
    have hnobody : ¬ (r.resumed.isSome ∧ s.machine.current = some i) := by simp [hstay.resumed]
    dsimp only at hleft hne ⊢
    rw [if_neg hnobody] at hleft
    cases hrenews : s.machine.renews e.1 i with
    | true =>
      rw [if_pos hrenews] at hleft
      cases hleft
    | false =>
      rw [if_neg (by simp [hrenews])] at hleft
      rw [hstay.frame i hrenews]
      exact hs.saved i left hleft (hstay.current i hrenews ▸ hne) f hf

/-- The frame that is restored has the registers with which the task left. -/
theorem Kept.resumes (hs : s.Kept) (e : Event) :
    s.Resumes (fun incoming left => ∀ f ∈ refreshed, incoming f = left f) e := by
  intro r hr p hp left hleft
  obtain ⟨frame,critical,he,hturn⟩ | hstay := Machine.respond_cases hs.running hr
  · obtain ⟨hnone,-⟩ | ⟨n,hres,-,hne,-⟩ := hturn.turn
    · exact absurd (hnone.symm.trans hp) (by simp)
    · cases some.inj (hres.symm.trans hp)
      intro f hf
      rw [hturn.others n hne]
      exact hs.saved n left hleft hne f hf
  · exact absurd (hstay.resumed.symm.trans hp) (by simp)

theorem Kept.restored_iff (hs : s.Kept) (e : Event × Handler) : s.Restored e ↔ s.Spared e := by
  have hsaved := hs.resumes e.1
  exact forall₂_congr fun r hr => forall₂_congr fun p hp => forall₂_congr fun left hleft =>
    Handler.resume_iff_survives (hsaved r hr p hp left hleft)

/-- Along every run the tasks go on with the registers with which they left exactly if the frames
that are resumed survive the routines. -/
theorem restored_iff_spared (ticks : UInt64) (es : List (Event × Handler)) :
    EachStep step (fun s e _ => s.Restored e) (start ticks) es ↔
      EachStep step (fun s e _ => s.Spared e) (start ticks) es := by
  have hkept : Always step Kept (start ticks) es :=
    always_of_step (fun _ _ _ hs h => hs.step h) kept_start es
  constructor
  · exact hkept.eachStep fun _ e _ hs h _ => (hs.restored_iff e).mp h
  · exact hkept.eachStep fun _ e _ hs h _ => (hs.restored_iff e).mpr h

/-- In every run a task that is resumed finds the registers with which it left. -/
theorem resumes_with_saved_registers (ticks : UInt64) (es : List (Event × Handler)) :
    EachStep step (fun s e _ => s.Resumes (fun incoming left => ∀ f ∈ refreshed,
      incoming f = left f) e.1) (start ticks) es :=
  eachStep_of_step (fun _ e _ hs h => ⟨hs.step h,hs.resumes e.1⟩) kept_start es

def handler : Handler := ⟨⟨fun f => if f = .cs then kernelCs else 0x7000,[]⟩,rfl⟩

/-- A user task sleeps for a tick with 1 in `r10`. -/
def nap : List (Event × Handler) :=
  [.spawnUser 0x400000 0x500000 0 0,.bootFinished 0x100000 0x200000,
    .trap 250 kernelCs 0x100000 [],.trap 250 kernelCs 0x100000 [],
    .trap 128 userCs 0x401000 [(.rax,sysSleep),(.rdi,1),(.r10,1)],
    .trap 32 kernelCs 0x100000 [],.trap 250 kernelCs 0x100000 []].map (·,handler)

/-- It goes on with its `rip` in `r10`. -/
theorem nap_clobbers_r10 : ¬ EachStep step (fun s e _ => s.Restored e) (start 0) nap := by
  decide +kernel

end Threads
end Aios.Kernel.Sched
