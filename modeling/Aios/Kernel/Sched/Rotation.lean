import Aios.Kernel.Sched.Schedule

/-!
What the calls of the scheduler do to the table of tasks, and which slot the rotation
chooses.
-/
namespace Aios.Kernel.Sched.Machine

open Function
variable (k : Machine) {i j pid : Fin maxTasks} {k' : Machine} {t t' : Task}

@[simp] theorem setTask_tasks (t : Task) :
    (k.setTask i t).tasks j = if j = i then t else k.tasks j := by
  simp [setTask,update_apply]

/-- A call of `freeze_task` only pins deadlines. -/
theorem freezeTask_eq (i : Fin maxTasks) :
    k.freezeTask i = k ∨ k.freezeTask i = k.setTask i { k.tasks i with sleepUntil := never } := by
  unfold freezeTask
  split
  · exact .inl rfl
  · exact .inr rfl

structure Decides (k k' : Machine) (pid : Fin maxTasks) (action : Recovery) : Prop where
  queue : k'.faults.queue = k.faults.queue
  pending : k'.faults.pending = k.faults.pending
  bootActive : k'.bootActive = k.bootActive
  current : k.current ≠ some pid ∨ pid = 0 → k'.current = k.current
  others : ∀ i, i ≠ pid ∨ i = 0 → k'.tasks i = k.tasks i
  frame : action ≠ .rollback → (k'.tasks pid).frame = (k.tasks pid).frame
  released : pid ≠ 0 → (k.tasks pid).present = true →
    (k'.tasks pid).present = false ∨ (k'.tasks pid).sleepUntil = 0

theorem Decides.of_absent (action : Recovery) (h : pid = 0 ∨ (k.tasks pid).present = false)
    (ht : k'.tasks = k.tasks) (hc : k'.current = k.current) (hb : k'.bootActive = k.bootActive)
    (hq : k'.faults.queue = k.faults.queue) (hp : k'.faults.pending = k.faults.pending) :
    Decides k k' pid action := by
  refine ⟨hq,hp,hb,fun _ => hc,fun i _ => by rw [ht],fun _ => by rw [ht],?_⟩
  intro hzero hpresent
  rcases h with h | h
  · exact absurd h hzero
  · exact absurd (h.symm.trans hpresent) (by decide)

theorem Decides.of_update {action : Recovery} (h : pid ≠ 0) (ht : k'.tasks = update k.tasks pid t)
    (hc : k.current ≠ some pid → k'.current = k.current) (hb : k'.bootActive = k.bootActive)
    (hq : k'.faults.queue = k.faults.queue) (hp : k'.faults.pending = k.faults.pending)
    (hf : action ≠ .rollback → t.frame = (k.tasks pid).frame)
    (hr : t.present = false ∨ t.sleepUntil = 0) : Decides k k' pid action := by
  refine ⟨hq,hp,hb,fun hcur => hc (hcur.resolve_right h),fun i hi => ?_,fun ha => ?_,fun _ _ => ?_⟩
  · have hne : i ≠ pid := hi.elim id fun hzero hip => h (hip.symm.trans hzero)
    rw [ht,update_of_ne hne]
  · rw [ht,update_self]
    exact hf ha
  · rw [ht,update_self]
    exact hr

theorem terminate_decides (pid : Fin maxTasks) (action : Recovery) :
    Decides k (k.terminate pid) pid action := by
  unfold terminate removeTask
  by_cases h : pid = 0 ∨ (k.tasks pid).present = false
  · rw [if_pos h]
    exact .of_absent k action h rfl rfl rfl rfl rfl
  · rw [if_neg h]
    exact .of_update k (not_or.mp h).1 rfl (fun hc => if_neg hc) rfl rfl rfl (fun _ => rfl)
      (.inl rfl)

theorem recover_decides (r : FaultRecord) (action : Recovery) :
    Decides k (k.recover r action) r.pid action := by
  cases action with
  | terminate => exact k.terminate_decides r.pid _
  | resume =>
    dsimp only [recover]
    split
    · unfold unfreezeTask
      by_cases h : r.pid = 0 ∨ (k.tasks r.pid).present = false
      · rw [if_pos h]
        exact .of_absent k _ h rfl rfl rfl rfl rfl
      · rw [if_neg h]
        exact .of_update k (not_or.mp h).1 rfl (fun _ => rfl) rfl rfl rfl (fun _ => rfl) (.inr rfl)
    · exact k.terminate_decides r.pid _
  | rollback =>
    dsimp only [recover,restoreTask]
    by_cases h : r.pid = 0 ∨ (k.tasks r.pid).present = false
    · rw [if_pos h]
      exact .of_absent k _ h rfl rfl rfl rfl rfl
    · rw [if_neg h]
      exact .of_update k (not_or.mp h).1 rfl (fun _ => rfl) rfl rfl rfl (absurd rfl ·) (.inr rfl)

section
variable (critical : Bool) (ticks : UInt64) (cur : Option (Fin maxTasks))
  (tasks : Fin maxTasks → Task)

def runs (c : Fin maxTasks) : Bool :=
  (tasks c).present = true ∧ some c ≠ cur ∧ (tasks c).sleepUntil ≤ ticks ∧
    ¬ (critical = true ∧ (tasks c).frame .cs = userCs)

/-- The task is left alone, or woken because its time has come. -/
def Wakes (t t' : Task) : Prop :=
  t' = t ∨ t.sleepUntil ≤ ticks ∧ t' = { t with sleepUntil := 0 }

variable {critical ticks cur tasks}

theorem Wakes.present (h : Wakes ticks t t') : t'.present = t.present := by
  rcases h with rfl | ⟨-,rfl⟩ <;> rfl

theorem Wakes.frame (h : Wakes ticks t t') : t'.frame = t.frame := by
  rcases h with rfl | ⟨-,rfl⟩ <;> rfl

theorem Wakes.trans {t'' : Task} (h : Wakes ticks t t') (h' : Wakes ticks t' t'') :
    Wakes ticks t t'' := by
  rcases h with rfl | ⟨hle,rfl⟩
  · exact h'
  · rcases h' with rfl | ⟨-,rfl⟩ <;> exact .inr ⟨hle,rfl⟩

theorem eq_never_of_le (h : never ≤ ticks) : ticks = never := by
  have hbound := ticks.toNat_lt
  have hle := UInt64.le_iff_toNat_le.mp h
  have hmax : never.toNat = 2^64-1 := by decide
  apply UInt64.toNat_inj.mp
  omega

/-- A frozen task is not woken before the tick counter is at its end. -/
theorem Wakes.eq_of_never (h : Wakes ticks t t') (hticks : ticks ≠ never)
    (hnever : t.sleepUntil = never) : t' = t := by
  rcases h with rfl | ⟨hle,-⟩
  · rfl
  · rw [hnever] at hle
    exact absurd (eq_never_of_le hle) hticks

theorem runs_of_wakes {c d : Fin maxTasks} (h : Wakes ticks (tasks c) t) :
    runs critical ticks cur (update tasks c t) d = runs critical ticks cur tasks d := by
  by_cases hd : d = c
  · subst hd
    rcases h with rfl | ⟨hle,rfl⟩
    · simp [runs]
    · simp [runs,hle]
  · simp [runs,hd]

variable (critical cur) in
theorem select_eq_find (cs : List (Fin maxTasks)) :
    (select critical ticks cur cs tasks).2 = cs.find? (runs critical ticks cur tasks) := by
  fun_induction select critical ticks cur cs tasks with
  | case1 => rfl
  | case2 c cs tasks hskip ih =>
    have hnot : runs critical ticks cur tasks c = false := by
      rcases hskip with h | h <;> simp [runs,h]
    rw [ih,List.find?_cons,hnot]
  | case3 c cs tasks hskip hlater ih =>
    have hnot : runs critical ticks cur tasks c = false := by simp [runs,UInt64.not_le.mpr hlater]
    rw [ih,List.find?_cons,hnot]
  | case4 c cs tasks hskip hdue woken hhot ih =>
    have hnot : runs critical ticks cur tasks c = false := by
      simp only [woken,update_self] at hhot
      simp [runs,hhot.1,hhot.2]
    rw [ih,List.find?_cons,hnot]
    congr 1
    exact funext fun d => runs_of_wakes (.inr ⟨UInt64.not_lt.mp hdue,rfl⟩)
  | case5 c cs tasks hskip hdue woken hcool =>
    obtain ⟨hpresent,hcur⟩ := not_or.mp hskip
    have hruns : runs critical ticks cur tasks c = true := by
      simp only [woken,update_self] at hcool
      simp only [runs,decide_eq_true_eq]
      exact ⟨by simpa using hpresent,hcur,UInt64.not_lt.mp hdue,hcool⟩
    rw [List.find?_cons,hruns]

theorem wakes_update {c : Fin maxTasks} (hdue : ¬ ticks < (tasks c).sleepUntil) (j : Fin maxTasks) :
    Wakes ticks (tasks j) (update tasks c { tasks c with sleepUntil := 0 } j) := by
  by_cases hj : j = c
  · subst hj
    rw [update_self]
    exact .inr ⟨UInt64.not_lt.mp hdue,rfl⟩
  · rw [update_of_ne hj]
    exact .inl rfl

variable (critical cur) in
theorem select_wakes (cs : List (Fin maxTasks)) (j : Fin maxTasks) :
    Wakes ticks (tasks j) ((select critical ticks cur cs tasks).1 j) := by
  fun_induction select critical ticks cur cs tasks with
  | case1 => exact .inl rfl
  | case2 c cs tasks hskip ih | case3 c cs tasks hskip hlater ih => exact ih
  | case4 c cs tasks hskip hdue woken hhot ih => exact (wakes_update hdue j).trans ih
  | case5 c cs tasks hskip hdue woken hcool => exact wakes_update hdue j

end

theorem zero_mem_rotation (cur : Option (Fin maxTasks)) : 0 ∈ rotation cur := by
  cases cur with
  | none => decide
  | some c =>
    revert c
    decide

theorem rotate_cases (critical : Bool) : ∃ tasks, (∀ j, Wakes k.ticks (k.tasks j) (tasks j)) ∧
      ((rotation k.current).find? (runs critical k.ticks k.current k.tasks) = none ∧
          k.rotate critical = ({ k with tasks := tasks },none) ∨
        ∃ n, (rotation k.current).find? (runs critical k.ticks k.current k.tasks) = some n ∧
          k.rotate critical =
            ({ k with tasks := tasks, current := some n, switchCount := k.switchCount+1 },
              some (n,(tasks n).frame))) := by
  refine ⟨_,select_wakes critical k.current (rotation k.current),?_⟩
  have hfind : (select critical k.ticks k.current (rotation k.current) k.tasks).2 = _ :=
    select_eq_find critical k.current (rotation k.current)
  unfold rotate
  dsimp only
  rw [← hfind]
  cases (select critical k.ticks k.current (rotation k.current) k.tasks).2 with
  | none => exact .inl ⟨rfl,rfl⟩
  | some n => exact .inr ⟨n,rfl,rfl⟩

end Aios.Kernel.Sched.Machine
