import Aios.ProcessMgr.Lifecycle

/-!
The priority queues are an index over the processes: each stands exactly once in the queue of its
priority. Only rollback recovery, which writes the priority of the snapshot, leaves the queues as
they are; it is harmless while the two agree.
-/
namespace Aios.ProcessMgr.Scheduler

open Transition List Finmap

/-- The queue of one priority; an absent queue reads as empty. -/
def queueOf (queues : Finmap fun _ : Priority => List ProcessId) (priority : Priority) :
    List ProcessId :=
  (queues.lookup priority).getD []

structure QueuesConsistent (s : Scheduler) : Prop where
  home : ∀ pid proc, s.processes.lookup pid = some proc →
    (queueOf s.priorityQueues proc.priority).count pid = 1
  elsewhere : ∀ pid proc priority, s.processes.lookup pid = some proc →
    priority ≠ proc.priority → pid ∉ queueOf s.priorityQueues priority
  alive : ∀ pid priority, pid ∈ queueOf s.priorityQueues priority → pid ∈ s.processes
  noEmpty : ∀ priority, s.priorityQueues.lookup priority ≠ some []

structure Indexes (processes : Finmap fun _ : ProcessId => Process)
    (queues : Finmap fun _ : Priority => List ProcessId) : Prop where
  count : ∀ priority pid, (queueOf queues priority).count pid =
    if (processes.lookup pid).map Process.priority = some priority then 1 else 0
  noEmpty : ∀ priority, queues.lookup priority ≠ some []

theorem queuesConsistent_iff_indexes (s : Scheduler) :
    QueuesConsistent s ↔ Indexes s.processes s.priorityQueues := by
  constructor
  · intro h
    refine ⟨fun priority pid => ?_,h.noEmpty⟩
    cases hp : s.processes.lookup pid with
    | none =>
      apply count_eq_zero_of_not_mem
      intro hmem
      exact lookup_eq_none.mp hp (h.alive pid priority hmem)
    | some proc =>
      simp only [Option.map_some,Option.some.injEq]
      split
      next he =>
        rw [← he]
        exact h.home pid proc hp
      next hne => exact count_eq_zero_of_not_mem (h.elsewhere pid proc priority hp (Ne.symm hne))
  · intro h
    refine ⟨fun pid proc hp => ?_,fun pid proc priority hp hne => ?_,fun pid priority hm => ?_,
      h.noEmpty⟩
    · simp [h.count,hp]
    · apply count_eq_zero.mp
      simp [h.count,hp,Ne.symm hne]
    · by_contra hdead
      have hc := h.count priority pid
      rw [lookup_eq_none.mpr hdead] at hc
      exact count_eq_zero.mp hc hm

variable {pid : ProcessId} {process : Process} {s t : Scheduler}

section
variable {processes : Finmap fun _ : ProcessId => Process}
  {queues : Finmap fun _ : Priority => List ProcessId}

theorem queueOf_pushQueue (p j : Priority) : queueOf (pushQueue queues p pid) j =
      if j = p then queueOf queues j ++ [pid] else queueOf queues j := by
  unfold queueOf pushQueue
  rw [lookup_insert_if]
  split
  next h => rw [h]; rfl
  next => rfl

theorem queueOf_dropFromQueue (p j : Priority) : queueOf (dropFromQueue queues p pid) j =
      if j = p then (queueOf queues j).filter (fun q => q ≠ pid) else queueOf queues j := by
  unfold queueOf dropFromQueue
  by_cases hj : j = p
  · subst hj
    rw [if_pos rfl]
    cases h : queues.lookup j with
    | none => simp [h]
    | some q =>
      dsimp only [Option.getD_some]
      split
      next he =>
        rw [lookup_erase]
        exact (List.isEmpty_iff.mp he).symm
      next => rw [lookup_insert,Option.getD_some]
  · rw [if_neg hj]
    cases queues.lookup p with
    | none => rfl
    | some q =>
      dsimp only
      split
      · rw [lookup_erase_ne hj]
      · rw [lookup_insert_of_ne _ hj]

section
variable (h : ∀ j, queues.lookup j ≠ some []) (p : Priority) (pid : ProcessId) (j : Priority)
include h

theorem pushQueue_noEmpty : (pushQueue queues p pid).lookup j ≠ some [] := by
  unfold pushQueue
  rw [lookup_insert_if]
  split
  · simp
  · exact h j

theorem dropFromQueue_noEmpty : (dropFromQueue queues p pid).lookup j ≠ some [] := by
  unfold dropFromQueue
  split
  · exact h j
  · dsimp only
    split
    · rw [lookup_erase_if]
      split
      · simp
      · exact h j
    next hne =>
      rw [lookup_insert_if]
      split
      · intro he
        exact hne (List.isEmpty_iff.mpr (Option.some.inj he))
      · exact h j

end

theorem count_filter_ne (q : List ProcessId) (j : ProcessId) :
    (q.filter fun p => p ≠ pid).count j = if j = pid then 0 else q.count j := by
  split
  next h =>
    apply count_eq_zero_of_not_mem
    simp [h]
  next h => exact count_filter (by simpa using h)

theorem Indexes.congr {processes' : Finmap fun _ : ProcessId => Process}
    (h : Indexes processes queues)
    (hp : ∀ pid, (processes'.lookup pid).map Process.priority =
      (processes.lookup pid).map Process.priority) : Indexes processes' queues :=
  ⟨fun priority pid => by rw [h.count,hp],h.noEmpty⟩

theorem Indexes.insert (h : Indexes processes queues) (process : Process)
    (hfresh : processes.lookup pid = none) :
    Indexes (processes.insert pid process) (pushQueue queues process.priority pid) := by
  refine ⟨fun priority j => ?_,pushQueue_noEmpty h.noEmpty _ _⟩
  rw [queueOf_pushQueue,lookup_insert_if]
  by_cases hj : j = pid
  · subst hj
    have hc := h.count priority j
    by_cases hp : priority = process.priority
    · simp_all
    · simp_all [Ne.symm hp]
  · have hc := h.count priority j
    by_cases hp : priority = process.priority <;> simp_all [Ne.symm hj]

section
variable (h : Indexes processes queues) (hp : processes.lookup pid = some process)
include h hp

theorem Indexes.erase :
    Indexes (processes.erase pid) (dropFromQueue queues process.priority pid) := by
  refine ⟨fun priority j => ?_,dropFromQueue_noEmpty h.noEmpty _ _⟩
  rw [queueOf_dropFromQueue,lookup_erase_if]
  have hc := h.count priority j
  by_cases hj : j = pid
  · subst hj
    rw [hp] at hc
    by_cases hpr : priority = process.priority
    · rw [if_pos hpr,count_filter_ne]
      simp
    · simpa [hpr,Ne.symm hpr] using hc
  · by_cases hpr : priority = process.priority
    · simpa [hpr,hj] using hc
    · simpa [hpr,hj] using hc

theorem Indexes.move (priority : Priority) :
    Indexes (processes.adjust pid fun p => { p with priority := priority })
      (pushQueue (dropFromQueue queues process.priority pid) priority pid) := by
  rw [adjust_eq_insert_erase _ hp]
  exact (h.erase hp).insert { process with priority := priority } (lookup_erase _ _)

theorem Indexes.adjust_iff (f : Process → Process) :
    Indexes (processes.adjust pid f) queues ↔ (f process).priority = process.priority := by
  constructor
  · intro hf
    have hold := h.count (f process).priority pid
    have hnew := hf.count (f process).priority pid
    rw [lookup_adjust,if_pos rfl] at hnew
    rw [hnew] at hold
    by_contra hne
    simp [hp,Ne.symm hne] at hold
  · intro hf
    apply h.congr
    intro j
    rw [lookup_adjust]
    split
    next hj =>
      rw [hj,hp]
      exact congrArg some hf
    next => rfl

end
end

/-- The queues index the processes. -/
def Indexed (s : Scheduler) : Prop := Indexes s.processes s.priorityQueues

theorem KeepsTables.indexed (hk : KeepsTables s t) (h : Indexed s) : Indexed t := by
  have hpr := hk.field Process.priority (fun _ => rfl)
  unfold Indexed
  rw [hk.queues]
  exact h.congr hpr

theorem Killed.indexed (hk : Killed s t pid) (h : Indexed s) : Indexed t := by
  unfold Indexed
  rw [hk.processes,hk.queues]
  cases hp : s.processes.lookup pid with
  | none =>
    rw [erase_of_lookup_eq_none hp]
    exact h
  | some process => exact h.erase hp

/-- A rollback must find the process at the priority its snapshot recorded. -/
def RollbackKeepsPriority (s : Scheduler) : Op → Prop
  | .resolveFault pid .rollback => s.hasPendingFault pid = true →
      ∀ snap proc, s.snapshots.lookup pid = some snap → s.processes.lookup pid = some proc →
        snap.priority = proc.priority
  | _ => True

theorem rollback_indexed_iff (h : Indexed s) : Indexed (s.resolveFault pid .rollback).1 ↔
      RollbackKeepsPriority s (.resolveFault pid .rollback) := by
  rcases hc : rollback_cases s pid with hk | ⟨hpend,snap,proc,hsnap,hproc,he⟩
  · refine ⟨fun _ hpend snap proc hsnap hproc => ?_,fun _ => hk.indexed h⟩
    have hf := hk.field Process.priority (fun _ => rfl) pid
    simpa [resolveFault,hpend,hsnap,hproc,modifyProcess,lookup_adjust,setState,
      TaskSnapshot.restoreTo] using hf
  · rw [he]
    have hi := Indexes.adjust_iff h hproc (fun p => setState .ready (snap.restoreTo p))
    constructor
    · intro hnew _ snap' proc' hsnap' hproc'
      rw [hsnap,Option.some.injEq] at hsnap'
      rw [hproc,Option.some.injEq] at hproc'
      rw [← hsnap',← hproc']
      exact hi.mp hnew
    · intro hcond
      exact hi.mpr (hcond hpend snap proc hsnap hproc)

/-- From a state with a correct index, an operation leads to one precisely if it is not
a rollback to another priority. -/
theorem step_indexed_iff {op : Op} (hj : PidsBelow s) (h : Indexed s) (hst : s.step op = some t) :
    Indexed t ↔ RollbackKeepsPriority s op := by
  rcases op.writes_cases with ⟨ramMb,hop⟩ | ⟨pid,rfl⟩ | ⟨hsp,hroll⟩
  · have ht : Indexed t := by
      unfold Indexed
      rcases step_spawn hop hst with ⟨-,-,hr⟩ | ⟨-,-,-,process,-,hs⟩
      · rw [hr.processes,hr.queues]
        exact h
      · rw [hs.processes,hs.queues]
        exact Indexes.insert h process hj.fresh
    have hc : RollbackKeepsPriority s op := by
      unfold RollbackKeepsPriority
      split
      · simp [Op.spawnRequest] at hop
      · trivial
    exact ⟨fun _ => hc,fun _ => ht⟩
  · cases hst
    exact rollback_indexed_iff h
  · have ht : Indexed t := by
      exact step_preserves (fun _ hk => hk.indexed h) (fun s t pid hk h => hk.indexed h)
        (fun s pid process priority hp h => Indexes.move h hp priority) (fun s groups n _ _ h => h)
        (fun s pid groupId h => Indexes.congr h (map_lookup_adjust fun _ => rfl))
        hsp hroll h hst
    have hc : RollbackKeepsPriority s op := by
      unfold RollbackKeepsPriority
      split
      · exact absurd rfl (hroll _)
      · trivial
    exact ⟨fun _ => hc,fun _ => ht⟩

theorem init_indexed (cfg : Config) : Indexed (init cfg) := ⟨fun _ _ => rfl,fun _ h => nomatch h⟩

/-- In every run, the queues stay a correct index of the processes precisely if every rollback finds
its process at the priority of the snapshot. -/
theorem queues_consistent_iff_rollbacks_keep_priority (cfg : Config) (ops : List Op) :
    Always step QueuesConsistent (init cfg) ops ↔
      EachStep step (fun s op _ => RollbackKeepsPriority s op) (init cfg) ops := by
  apply always_iff_eachStep (J := PidsBelow)
  · exact fun s op t hj hst => step_pidsBelow hj hst
  · intro s op t hj hs hst
    rw [queuesConsistent_iff_indexes] at hs ⊢
    exact step_indexed_iff hj hs hst
  · exact init_pidsBelow cfg
  · exact (queuesConsistent_iff_indexes _).mpr (init_indexed cfg)

def staleQueueRun : List Op :=
  [.spawnRealProcess ⟨0,0⟩ (.ok ()) "svc" .high 16,.setPriority 1 .low,
    .recordPanic 1 "oops",.finishThread 1,.pollFaults [1] ⟨5,5000000⟩,
    .resolveFault 1 .rollback]

theorem rollback_leaves_queue_stale :
    ∃ t, exec step (init ⟨256,10,500,3⟩) staleQueueRun = some t ∧ ¬ QueuesConsistent t := by
  refine ⟨_,rfl,fun h => ?_⟩
  have hc := h.home 1 _ rfl
  revert hc
  decide

end Aios.ProcessMgr.Scheduler
