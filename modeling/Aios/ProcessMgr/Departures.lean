import Aios.ProcessMgr.Locks

/-!
Processes that gave up all their locks. `release_all` hands the locks to their waiters, but leaves
the process in the queues that it waits in.
-/
namespace Aios.ProcessMgr.PriorityInheritance

open Transition

structure Departures where
  table : PriorityInheritance
  departed : ProcessId → Bool

namespace Departures

def init : Departures := ⟨new,fun _ => false⟩

def departs (δ : Departures) (op : Op) (pid : ProcessId) : Bool :=
  match op with
  | .releaseAll _ p => pid = p || δ.departed pid
  | .acquireLock _ p _ | .requestResource p _ _ => δ.departed pid && pid ≠ p
  | _ => δ.departed pid

def step (δ : Departures) (op : Op) : Option Departures :=
  (δ.table.step op).map fun t => ⟨t,δ.departs op⟩

/-- Whoever is gone owns no lock and waits for none. -/
def Gone (δ : Departures) : Prop :=
  ∀ pid, δ.departed pid = true →
    ∀ lock, δ.table.ownerOf lock ≠ some pid ∧ pid ∉ δ.table.waitersOf lock

/-- Only a process that waits for nothing gives up all its locks. -/
def LeavesNoQueue (δ : Departures) (op : Op) : Prop :=
  ∀ order pid, op = .releaseAll order pid → ∀ lock, pid ∉ δ.table.waitersOf lock

variable {δ δ' : Departures} {op : Op} {pid : ProcessId}

theorem step_eq_some (h : δ.step op = some δ') :
    δ.table.step op = some δ'.table ∧ δ'.departed = δ.departs op := by
  obtain ⟨t,ht,rfl⟩ := Option.map_eq_some_iff.mp h
  exact ⟨ht,rfl⟩

theorem departs_cases (h : δ.departs op pid = true) : (∃ order, op = .releaseAll order pid) ∨
      δ.departed pid = true ∧ ∀ r, op.request = some r → r.pid ≠ pid := by
  cases op with
  | releaseAll order p =>
    rcases Bool.or_eq_true_iff.mp h with hp | hd
    · exact .inl ⟨order,by rw [of_decide_eq_true hp]⟩
    · exact .inr ⟨hd,fun _ hreq => nomatch hreq⟩
  | acquireLock | requestResource =>
    obtain ⟨hd,hp⟩ := Bool.and_eq_true_iff.mp h
    refine .inr ⟨hd,fun _ hreq => ?_⟩
    cases hreq
    exact Ne.symm (of_decide_eq_true hp)
  | releaseLock | applyPendingBoosts | restorePriority =>
    exact .inr ⟨h,fun _ hreq => nomatch hreq⟩

theorem gone_after (hst : δ.table.step op = some δ'.table)
    (hwait : ∀ lock, pid ∉ δ.table.waitersOf lock)
    (hown : ∀ lock, δ.table.ownerOf lock = some pid → δ.table.releases op lock = true)
    (hask : ∀ r, op.request = some r → r.pid ≠ pid) (lock : UInt32) :
    δ'.table.ownerOf lock ≠ some pid ∧ pid ∉ δ'.table.waitersOf lock := by
  cases step_lockChange hst with
  | same noBlock noRelease owner waiters =>
    rw [owner,waiters]
    refine ⟨fun ho => ?_,hwait lock⟩
    have hrel := hown lock ho
    rw [noRelease] at hrel
    cases hrel
  | acquired p noBlock noRelease free owner waiters =>
    rw [waiters]
    refine ⟨fun ho => ?_,hwait lock⟩
    obtain ⟨r,hreq,-,hpid⟩ := step_acquired hst free ho
    exact hask r hreq hpid
  | queued p holder block noRelease held other owner waiters =>
    rw [owner,waiters,List.mem_append,List.mem_singleton,not_or]
    refine ⟨fun ho => ?_,hwait lock,?_⟩
    · have hrel := hown lock (held.trans ho)
      rw [noRelease] at hrel
      cases hrel
    · rintro rfl
      have hblock : δ.table.blocks op lock pid = true := by simp [block]
      cases op with
      | acquireLock l q priority =>
        simp only [blocks,Bool.and_eq_true,decide_eq_true_eq] at hblock
        obtain ⟨⟨⟨rfl,rfl⟩,-⟩,-⟩ := hblock
        exact hask _ rfl rfl
      | requestResource | releaseLock | releaseAll | applyPendingBoosts | restorePriority =>
        cases hblock
  | handed noBlock release owner waiters =>
    rw [owner,waiters]
    exact ⟨fun ho => hwait lock (List.mem_of_head? ho),
      fun hin => hwait lock (List.mem_of_mem_tail hin)⟩

theorem step_gone_iff (h : Gone δ) (hst : δ.step op = some δ') : Gone δ' ↔ LeavesNoQueue δ op := by
  obtain ⟨htable,hdeparted⟩ := step_eq_some hst
  constructor
  · rintro hgone order pid rfl lock hwait
    have hd : δ'.departed pid = true := by simp [hdeparted,departs]
    obtain ⟨howner,hwaiters⟩ := hgone pid hd lock
    -- whoever waited is the new owner or still waits
    cases step_lockChange htable with
    | same noBlock noRelease owner waiters | acquired p noBlock noRelease free owner waiters =>
      exact hwaiters (waiters ▸ hwait)
    | queued p holder block noRelease held other owner waiters =>
      exact hwaiters (waiters ▸ List.mem_append_left _ hwait)
    | handed noBlock release owner waiters =>
      cases hws : δ.table.waitersOf lock with
      | nil =>
        rw [hws] at hwait
        exact List.not_mem_nil hwait
      | cons next rest =>
        rw [hws] at hwait owner waiters
        rcases List.mem_cons.mp hwait with rfl | hrest
        · exact howner owner
        · exact hwaiters (waiters ▸ hrest)
  · intro hleave pid hd lock
    rw [hdeparted] at hd
    rcases departs_cases hd with ⟨order,rfl⟩ | ⟨hbefore,hask⟩
    · refine gone_after htable (hleave order pid rfl) (fun l ho => ?_)
        (fun _ hreq => nomatch hreq) lock
      simp [releases,ho]
    · refine gone_after htable (fun l => (h pid hbefore l).2) (fun l ho => ?_) hask lock
      exact absurd ho (h pid hbefore l).1

/-- In every run a process that gave up all its locks stays without locks and out of every queue
until it asks again, precisely if none does so while it waits. -/
theorem gone_iff_leaves_no_queue (ops : List Op) :
    Always step Gone init ops ↔ EachStep step (fun δ op _ => LeavesNoQueue δ op) init ops := by
  apply always_iff_eachStep (J := fun _ => True)
  · intros
    trivial
  · intro δ op δ' _ h hst
    exact step_gone_iff h hst
  · trivial
  · intro pid hd
    cases hd

/-- Process 2 waits for the lock of process 1, gives up everything, and gets the lock when
process 1 releases it. -/
theorem departed_process_is_granted : ∃ δ, exec step init
        [.acquireLock 7 1 .normal,.acquireLock 7 2 .normal,.releaseAll [7] 2,.releaseLock 7 1] =
          some δ ∧
      δ.departed 2 = true ∧ δ.table.ownerOf 7 = some 2 ∧ ¬ Gone δ := by
  refine ⟨_,rfl,by decide,by decide,fun h => ?_⟩
  exact (h 2 (by decide) 7).1 (by decide)

end Departures
end Aios.ProcessMgr.PriorityInheritance
