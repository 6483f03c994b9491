import Aios.ProcessMgr.Cpu

/-!
The thread table. Apart from the polling functions, the operations only add a fresh thread, remove
those of killed processes, or leave every panic slot as it is.
-/
namespace Aios.ProcessMgr

open Finmap

namespace Scheduler

variable {s t u : Scheduler} {pid : ProcessId} {message : String}

theorem panicOf_eq_slot : s.panicOf pid = (s.slotOf pid).bind ThreadSlot.panic := by
  unfold panicOf slotOf
  cases s.realThreads.lookup pid <;> rfl

structure Thins (s t : Scheduler) (gone : List ProcessId) : Prop where
  slots : ∀ pid, t.slotOf pid = if pid ∈ gone then none else s.slotOf pid
  processes : ∀ pid, pid ∈ t.processes ↔ pid ∈ s.processes ∧ pid ∉ gone
  nextPid : s.nextPid ≤ t.nextPid

structure Grows (s t : Scheduler) : Prop where
  slots : ∀ pid, pid ≠ s.nextPid → t.slotOf pid = s.slotOf pid
  fresh : t.slotOf s.nextPid = s.slotOf s.nextPid ∨
    ∃ slot, t.slotOf s.nextPid = some slot ∧ slot.panic = none ∧ slot.returned = false
  processes : ∀ pid, pid ∈ t.processes ↔ pid = s.nextPid ∨ pid ∈ s.processes
  nextPid : t.nextPid = s.nextPid+1

theorem Thins.of_slots (h : ∀ pid, t.slotOf pid = s.slotOf pid)
    (hp : ∀ pid, pid ∈ t.processes ↔ pid ∈ s.processes) (hn : s.nextPid ≤ t.nextPid) :
    Thins s t [] :=
  ⟨fun pid => by rw [if_neg List.not_mem_nil,h],fun pid => by simp [hp],hn⟩

theorem Frame.thins (h : Frame s t) : Thins s t [] := .of_slots h.slots h.mem_iff h.nextPid.ge

theorem Killed.thins (h : Killed s t pid) : Thins s t [pid] := by
  refine ⟨fun j => ?_,fun j => ?_,h.nextPid.ge⟩
  · unfold slotOf
    rw [h.threads,lookup_erase_if]
    by_cases hj : j = pid <;> simp [hj]
  · rw [h.processes,mem_erase,List.mem_singleton,and_comm]

theorem Thins.trans {gone gone' : List ProcessId} (h : Thins s t gone) (k : Thins t u gone') :
    Thins s u (gone ++ gone') := by
  refine ⟨fun pid => ?_,fun pid => ?_,h.nextPid.trans k.nextPid⟩
  · rw [k.slots,h.slots]
    by_cases h : pid ∈ gone <;> simp [h]
  · rw [k.processes,h.processes,List.mem_append,not_or,and_assoc]

theorem Spawned.grows {process : Process} (h : Spawned s t process) : Grows s t := by
  refine ⟨fun pid hne => ?_,?_,fun pid => ?_,h.nextPid⟩
  · rcases h.threads with he | ⟨real,-,-,he⟩
    · exact slotOf_congr he pid
    · unfold slotOf
      rw [he,lookup_insert_if,if_neg hne]
  · rcases h.threads with he | ⟨real,hpanic,hret,he⟩
    · exact .inl (slotOf_congr he _)
    · refine .inr ⟨real.slot,?_,hpanic,hret⟩
      unfold slotOf
      rw [he,lookup_insert_if,if_pos rfl,Option.map_some]
  · rw [h.processes,mem_insert]

theorem step_threads {op : Op} (hc : op.isCall = true) (hst : s.step op = some t) :
    (∃ gone, Thins s t gone) ∨ Grows s t := by
  rcases op.writes_cases with ⟨ramMb,hop⟩ | ⟨p,rfl⟩ | ⟨hsp,hroll⟩
  · rcases step_spawn hop hst with ⟨-,-,hr⟩ | ⟨-,-,-,process,-,hs⟩
    · refine .inl ⟨[],.of_slots (slotOf_congr hr.threads) (fun pid => ?_) hr.nextPid⟩
      rw [hr.processes]
    · exact .inr hs.grows
  · cases hst
    rcases rollback_cases s p with hk | ⟨-,snap,proc,-,-,he⟩
    · exact .inl ⟨[],hk.thins⟩
    · rw [he]
      exact .inl ⟨[],.of_slots (fun _ => rfl) (fun _ => mem_adjust) le_rfl⟩
  · have edit {u v : Scheduler} (hu : ∃ gone, Thins s u gone)
        (hp : ∀ pid, pid ∈ v.processes ↔ pid ∈ u.processes) (hn : v.nextPid = u.nextPid)
        (hr : v.realThreads = u.realThreads) : ∃ gone, Thins s v gone := by
      obtain ⟨gone,hu⟩ := hu
      exact ⟨_,hu.trans (.of_slots (slotOf_congr hr) hp hn.ge)⟩
    refine .inl (step_preserves (P := fun u => ∃ gone, Thins s u gone)
      (fun hq _ => ⟨[],(step_frame hq hc hst).thins⟩)
      (fun u v pid hk hu => ?_)
      (fun u pid process priority _ hu => edit hu (fun _ => mem_adjust) rfl rfl)
      (fun u groups n _ _ hu => edit hu (fun _ => Iff.rfl) rfl rfl)
      (fun u pid groupId hu => edit hu (fun _ => mem_adjust) rfl rfl) hsp hroll
      ⟨[],(Frame.refl s).thins⟩ hst)
    obtain ⟨gone,hu⟩ := hu
    exact ⟨_,hu.trans hk.thins⟩

/-- A process is filed under its own identifier. -/
def PidsMatch (s : Scheduler) : Prop :=
  ∀ pid process, s.processes.lookup pid = some process → process.pid = pid

theorem PidsMatch.of_field (h : PidsMatch s) (hf : ∀ pid, (t.processes.lookup pid).map Process.pid =
      (s.processes.lookup pid).map Process.pid) : PidsMatch t := by
  intro pid process hp
  have hpid := hf pid
  rw [hp,Option.map_some] at hpid
  obtain ⟨old,hold,he⟩ := Option.map_eq_some_iff.mp hpid.symm
  rw [← he,h pid old hold]

theorem PidsMatch.modifyProcess (h : PidsMatch s) (pid : ProcessId) {f : Process → Process}
    (hf : ∀ p, (f p).pid = p.pid) : PidsMatch (s.modifyProcess pid f) :=
  h.of_field (map_lookup_adjust hf)

theorem step_pidsMatch {op : Op} (h : PidsMatch s) (hst : s.step op = some t) : PidsMatch t := by
  rcases op.writes_cases with ⟨ramMb,hop⟩ | ⟨p,rfl⟩ | ⟨hsp,hroll⟩
  · rcases step_spawn hop hst with ⟨-,-,hr⟩ | ⟨-,-,-,process,-,hs⟩
    · exact h.of_field fun _ => by rw [hr.processes]
    · intro pid p hp
      rw [hs.processes,lookup_insert_if] at hp
      split at hp
      next he => rw [← Option.some.inj hp,hs.pid,he]
      next => exact h pid p hp
  · cases hst
    rcases rollback_cases s p with hk | ⟨-,snap,proc,-,-,he⟩
    · exact h.of_field (hk.field Process.pid fun _ => rfl)
    · rw [he]
      exact h.modifyProcess p fun _ => rfl
  · refine step_preserves (fun _ hk => h.of_field (hk.field Process.pid fun _ => rfl))
      (fun s t pid hk h j process hp => ?_)
      (fun s pid process priority _ h => h.modifyProcess pid fun _ => rfl)
      (fun s groups n _ _ h => h) (fun s pid groupId h => h.modifyProcess pid fun _ => rfl)
      hsp hroll h hst
    rw [hk.processes,lookup_erase_if] at hp
    split at hp
    · cases hp
    · exact h j process hp

theorem recordPanic_slots (h : s.recordPanic pid message = some t) :
    ∃ slot, s.slotOf pid = some slot ∧ slot.returned = false ∧ t.processes = s.processes ∧
      t.nextPid = s.nextPid ∧ t.faultQueue = s.faultQueue ∧
      ∀ j, t.slotOf j =
        if j = pid then some { slot with returned := true, panic := some message }
        else s.slotOf j := by
  revert h
  fun_cases recordPanic s pid message with
  | case1 | case2 => rintro ⟨⟩
  | case3 real hr hnot =>
    rintro ⟨⟩
    refine ⟨real.slot,by rw [slotOf,hr,Option.map_some],?_,rfl,rfl,rfl,fun j => ?_⟩
    · simpa [RealThread.slot] using fun hret => hnot (.inl hret)
    · unfold slotOf
      rw [lookup_insert_if]
      split <;> rfl

theorem finishThread_slots (h : s.finishThread pid = some t) :
    t.processes = s.processes ∧ t.nextPid = s.nextPid ∧ t.faultQueue = s.faultQueue ∧
      ∀ j, t.slotOf j =
        if j = pid then (s.slotOf j).map fun slot => { slot with finished := true }
        else s.slotOf j := by
  unfold finishThread at h
  split at h
  · cases h
  next real hr =>
    cases h
    refine ⟨rfl,rfl,rfl,fun j => ?_⟩
    unfold slotOf
    rw [lookup_insert_if]
    split
    next hj => rw [hj,hr]; rfl
    next => rfl

theorem clearPanic_slots (j : ProcessId) : (s.clearPanic pid).slotOf j =
      if j = pid then (s.slotOf j).map fun slot => { slot with panic := none }
      else s.slotOf j := by
  unfold slotOf clearPanic
  rw [lookup_adjust]
  split
  · cases s.realThreads.lookup j <;> rfl
  · rfl

theorem slotOf_erase (h : t.realThreads = s.realThreads.erase pid) (j : ProcessId) :
    t.slotOf j = if j = pid then none else s.slotOf j := by
  unfold slotOf
  rw [h,lookup_erase_if]
  split <;> rfl

end Scheduler
end Aios.ProcessMgr
