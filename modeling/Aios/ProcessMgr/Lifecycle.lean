import Aios.ProcessMgr.Frames

/-! How the operations that write the tables change them: spawning, killing and fault
recovery, each described once. -/
namespace Aios.ProcessMgr

open Finmap

structure Scheduler.Spawned (s t : Scheduler) (process : Process) : Prop where
  pid : process.pid = s.nextPid
  state : process.state = .ready
  group : process.groupId = none
  processes : t.processes = s.processes.insert s.nextPid process
  queues : t.priorityQueues = Scheduler.pushQueue s.priorityQueues process.priority s.nextPid
  total : t.totalRamMb = s.totalRamMb
  used : t.usedRamMb = s.usedRamMb+process.ramQuotaMb
  groups : t.groups = s.groups
  nextGroupId : t.nextGroupId = s.nextGroupId
  snapshots : t.snapshots = s.snapshots ∨
    t.snapshots = s.snapshots.insert s.nextPid (TaskSnapshot.capture process)
  nextPid : t.nextPid = s.nextPid+1
  current : t.current = s.current
  timer : t.timer = s.timer
  threads : t.realThreads = s.realThreads ∨ ∃ real, real.panic = none ∧ real.returned = false ∧
    t.realThreads = s.realThreads.insert s.nextPid real

structure Scheduler.Refused (s t : Scheduler) : Prop where
  processes : t.processes = s.processes
  queues : t.priorityQueues = s.priorityQueues
  total : t.totalRamMb = s.totalRamMb
  used : t.usedRamMb = s.usedRamMb
  groups : t.groups = s.groups
  nextGroupId : t.nextGroupId = s.nextGroupId
  snapshots : t.snapshots = s.snapshots
  nextPid : s.nextPid ≤ t.nextPid
  current : t.current = s.current
  timer : t.timer = s.timer
  threads : t.realThreads = s.realThreads

def Op.spawnRequest : Op → Option UInt64
  | .spawnProcess _ _ _ ramMb => some ramMb
  | .spawnRealProcess _ _ _ _ ramMb => some ramMb
  | .spawnChild _ _ _ ramMb => some ramMb
  | _ => none

/-- A spawn, a rollback, or neither: the split under which `step_preserves` is used. -/
theorem Op.writes_cases (op : Op) :
    (∃ ramMb, op.spawnRequest = some ramMb) ∨ (∃ pid, op = .resolveFault pid .rollback) ∨
      op.spawnRequest = none ∧ ∀ pid, op ≠ .resolveFault pid .rollback := by
  cases h : op.spawnRequest with
  | some ramMb => exact .inl ⟨ramMb,rfl⟩
  | none =>
    by_cases hr : ∃ pid, op = .resolveFault pid .rollback
    · exact .inr (.inl hr)
    · exact .inr (.inr ⟨rfl,fun pid he => hr ⟨pid,he⟩⟩)

/-- The operating system refuses the thread of a real process. -/
def Op.osRefuses : Op → Bool
  | .spawnRealProcess _ (.error _) .. => true
  | _ => false

def Scheduler.spawnResult (s : Scheduler) : Op → Option (Except AIOSException ProcessId)
  | .spawnProcess clk name priority ramMb => some (s.spawnProcess clk name priority ramMb).2
  | .spawnRealProcess clk os name priority ramMb =>
    some (s.spawnRealProcess clk os name priority ramMb).2
  | .spawnChild parent name priority ramMb => some (s.spawnChild parent name priority ramMb).2
  | _ => none

inductive Scheduler.SpawnOutcome (s t : Scheduler) (op : Op) (ramMb : UInt64) : Prop where
  | refused (why : s.totalRamMb < s.usedRamMb+ramMb ∨ op.osRefuses = true)
      (result : ∃ e, s.spawnResult op = some (.error e)) (change : Refused s t)
  | spawned (fits : ¬ s.totalRamMb < s.usedRamMb+ramMb) (os : op.osRefuses = false)
      (result : s.spawnResult op = some (.ok s.nextPid)) (process : Process)
      (quota : process.ramQuotaMb = ramMb) (change : Spawned s t process)

variable {s t : Scheduler} {op : Op} {P : Scheduler → Prop}

theorem Scheduler.step_spawn {ramMb : UInt64} (hop : op.spawnRequest = some ramMb)
    (h : s.step op = some t) : SpawnOutcome s t op ramMb := by
  have hself : Refused s s := ⟨rfl,rfl,rfl,rfl,rfl,rfl,rfl,le_rfl,rfl,rfl,rfl⟩
  cases op with
  | spawnProcess clk name priority ram =>
    cases hop
    cases h
    by_cases hr : s.totalRamMb < s.usedRamMb+ramMb
    · simp only [spawnProcess,if_pos hr]
      exact .refused (.inl hr) ⟨_,by simp only [spawnResult,spawnProcess,if_pos hr]; rfl⟩ hself
    · simp only [spawnProcess,if_neg hr]
      exact .spawned hr rfl (by simp only [spawnResult,spawnProcess,if_neg hr]) _ rfl
        ⟨rfl,rfl,rfl,rfl,rfl,rfl,rfl,rfl,rfl,.inl rfl,rfl,rfl,rfl,.inl rfl⟩
  | spawnRealProcess clk os name priority ram =>
    cases hop
    cases h
    by_cases hr : s.totalRamMb < s.usedRamMb+ramMb
    · simp only [spawnRealProcess,if_pos hr]
      exact .refused (.inl hr) ⟨_,by simp only [spawnResult,spawnRealProcess,if_pos hr]; rfl⟩ hself
    · simp only [spawnRealProcess,if_neg hr]
      cases os with
      | error e =>
        exact .refused (.inr rfl) ⟨_,by simp only [spawnResult,spawnRealProcess,if_neg hr]; rfl⟩
          ⟨rfl,rfl,rfl,rfl,rfl,rfl,rfl,Nat.le_succ _,rfl,rfl,rfl⟩
      | ok _ =>
        exact .spawned hr rfl (by simp only [spawnResult,spawnRealProcess,if_neg hr]) _ rfl
          ⟨rfl,rfl,rfl,rfl,rfl,rfl,rfl,rfl,rfl,.inr rfl,rfl,rfl,rfl,.inr ⟨_,rfl,rfl,rfl⟩⟩
  | spawnChild parent name priority ram =>
    cases hop
    cases h
    by_cases hr : s.totalRamMb < s.usedRamMb+ramMb
    · simp only [spawnChild,if_pos hr]
      exact .refused (.inl hr) ⟨_,by simp only [spawnResult,spawnChild,if_pos hr]; rfl⟩ hself
    · simp only [spawnChild,if_neg hr]
      exact .spawned hr rfl (by simp only [spawnResult,spawnChild,if_neg hr]) _ rfl
        ⟨rfl,rfl,rfl,rfl,rfl,rfl,rfl,rfl,rfl,.inl rfl,rfl,rfl,rfl,.inl rfl⟩
  | _ => simp [Op.spawnRequest] at hop

structure Scheduler.Killed (s t : Scheduler) (pid : ProcessId) : Prop where
  processes : t.processes = s.processes.erase pid
  queues : t.priorityQueues = ((s.processes.lookup pid).map fun p =>
    Scheduler.dropFromQueue s.priorityQueues p.priority pid).getD s.priorityQueues
  total : t.totalRamMb = s.totalRamMb
  used : t.usedRamMb = ((s.processes.lookup pid).map fun p =>
    satSub s.usedRamMb p.ramQuotaMb).getD s.usedRamMb
  groups : t.groups = s.groups
  nextGroupId : t.nextGroupId = s.nextGroupId
  snapshots : t.snapshots = s.snapshots.erase pid
  nextPid : t.nextPid = s.nextPid
  current : t.current = if pid ∈ s.processes ∧ s.current = some pid then none else s.current
  timer : t.timer = if pid ∈ s.processes ∧ s.current = some pid then none else s.timer
  threads : t.realThreads = s.realThreads.erase pid

theorem Scheduler.killProcess_killed (s : Scheduler) (pid : ProcessId) :
    Killed s (s.killProcess pid).1 pid := by
  unfold killProcess
  dsimp only
  cases hp : s.processes.lookup pid with
  | none =>
    have hmem : pid ∉ s.processes := lookup_eq_none.mp hp
    refine ⟨(erase_of_lookup_eq_none hp).symm,?_,rfl,?_,rfl,rfl,rfl,rfl,?_,?_,
      rfl⟩ <;> simp [hp,hmem]
  | some process =>
    have hmem : pid ∈ s.processes := mem_of_lookup_eq_some hp
    dsimp only
    split
    next hc => exact ⟨rfl,by simp [hp],rfl,by simp [hp],rfl,rfl,rfl,rfl,by simp [hmem,hc],
      by simp [hmem,hc],rfl⟩
    next hc => exact ⟨rfl,by simp [hp],rfl,by simp [hp],rfl,rfl,rfl,rfl,by simp [hc],
      by simp [hc],rfl⟩

namespace Scheduler

/-- A rollback that is not refused restores the snapshot onto the process and nothing else. -/
theorem rollback_cases (s : Scheduler) (pid : ProcessId) :
    Frame s (s.resolveFault pid .rollback).1 ∨
      s.hasPendingFault pid = true ∧ ∃ snap proc, s.snapshots.lookup pid = some snap ∧
        s.processes.lookup pid = some proc ∧
        (s.resolveFault pid .rollback).1 =
          { s.modifyProcess pid (fun p => setState .ready (snap.restoreTo p)) with
            faultQueue := s.faultQueue.filter (fun f => f.pid ≠ pid) } := by
  unfold resolveFault
  split
  · exact .inl (.refl s)
  next hpend =>
    dsimp only
    split
    · exact .inl (.of_eq rfl rfl rfl)
    next snap hsnap =>
      split
      · exact .inl (.of_eq rfl rfl rfl)
      next proc hproc => exact .inr ⟨by simpa using hpend,snap,proc,hsnap,hproc,rfl⟩

theorem terminate_cases (s : Scheduler) (pid : ProcessId) :
    (s.hasPendingFault pid = false ∧ (s.resolveFault pid .terminate).1 = s) ∨
      (s.hasPendingFault pid = true ∧ Killed s (s.resolveFault pid .terminate).1 pid) := by
  unfold resolveFault
  split
  next hp => exact .inl ⟨hp,rfl⟩
  next hp =>
    have h := killProcess_killed
      { s with faultQueue := s.faultQueue.filter (fun f => f.pid ≠ pid) } pid
    exact .inr ⟨by simpa using hp,h.processes,h.queues,h.total,h.used,h.groups,
      h.nextGroupId,h.snapshots,h.nextPid,h.current,h.timer,h.threads⟩

theorem killMembers_induction (hP : ∀ s pid, P s → P (s.killProcess pid).1) (hs : P s)
    (pids : List ProcessId) : P (s.killMembers pids) := by
  induction pids generalizing s with
  | nil => exact hs
  | cons pid pids ih => exact ih (hP s pid hs)

theorem setPriorities_induction {priority : Priority}
    (hP : ∀ s pid, P s → P (s.setPriority pid priority).1) (hs : P s) (pids : List ProcessId) :
    P (setPriorities priority s pids).1 := by
  induction pids generalizing s with
  | nil => exact hs
  | cons pid pids ih =>
    have hstep := hP s pid hs
    unfold setPriorities
    split
    next s' _ he =>
      rw [he] at hstep
      exact ih hstep
    next s' _ he =>
      rw [he] at hstep
      exact hstep

/-- The induction rule for properties of the tables. Spawns and rollbacks are left to the caller;
the rest is a framed change, a kill, a change of priority or a write to the groups, which only adds
the next identifier. -/
theorem step_preserves (keeps : op.quiet = true → KeepsTables s t → P t)
    (killed : ∀ s t pid, Killed s t pid → P s → P t)
    (moved : ∀ (s : Scheduler) pid process priority, s.processes.lookup pid = some process →
      P s → P { s.modifyProcess pid fun p => { p with priority := priority } with
        priorityQueues :=
          pushQueue (dropFromQueue s.priorityQueues process.priority pid) priority pid })
    (groups : ∀ (s : Scheduler) groups n, (∀ g ∈ groups, g ∈ s.groups ∨ g < n) →
      s.nextGroupId ≤ n → P s → P { s with groups := groups, nextGroupId := n })
    (groupId : ∀ (s : Scheduler) pid groupId, P s →
      P (s.modifyProcess pid fun p => { p with groupId := groupId }))
    (hsp : op.spawnRequest = none) (hroll : ∀ pid, op ≠ .resolveFault pid .rollback)
    (h : P s) (hst : s.step op = some t) : P t := by
  by_cases hq : op.quiet = true
  · exact keeps hq (step_keepsTables hq hst)
  have priority (s : Scheduler) (pid : ProcessId) (pr : Priority) (hs : P s) :
      P (s.setPriority pid pr).1 := by
    unfold setPriority
    split
    · exact hs
    next process hp =>
      dsimp only
      split
      · exact hs
      · exact moved s pid process pr hp hs
  have create (group : ProcessGroup) : P { s with
      groups := s.groups.insert s.nextGroupId group, nextGroupId := s.nextGroupId+1 } := by
    refine groups s _ _ (fun g hg => ?_) (Nat.le_succ _) h
    rcases mem_insert.mp hg with rfl | hold
    · exact .inr (Nat.lt_succ_self _)
    · exact .inl hold
  have rewrite {gid : ℕ} {old : ProcessGroup} (group : ProcessGroup)
      (hold : s.groups.lookup gid = some old) :
      P { s with groups := s.groups.insert gid group } := by
    refine groups s _ _ (fun g hg => .inl ?_) le_rfl h
    rcases mem_insert.mp hg with rfl | hg
    · exact mem_of_lookup_eq_some hold
    · exact hg
  cases op with
  | killProcess pid =>
    cases hst
    exact killed _ _ pid (killProcess_killed s pid) h
  | setPriority pid pr =>
    cases hst
    exact priority s pid pr h
  | resolveFault pid action =>
    cases hst
    cases action with
    | resume => exact absurd rfl hq
    | terminate =>
      rcases terminate_cases s pid with ⟨-,he⟩ | ⟨-,hk⟩
      · rw [he]
        exact h
      · exact killed _ _ pid hk h
    | rollback => exact absurd rfl (hroll pid)
  | createGroup | createSession =>
    cases hst
    exact create _
  | addToGroup pid gid =>
    cases hst
    unfold addToGroup
    split
    · exact h
    next group hg => exact groupId _ pid _ (rewrite (group.addMember pid) hg)
  | removeFromGroup pid =>
    cases hst
    unfold removeFromGroup
    split
    · exact h
    next gid _ =>
      exact groupId _ pid _ (groups s (s.groups.adjust gid fun g => g.removeMember pid)
        s.nextGroupId (fun g hg => .inl (mem_adjust.mp hg)) le_rfl h)
  | killGroup gid =>
    cases hst
    unfold killGroup
    split
    · exact h
    next group _ =>
      have hk := killMembers_induction
        (fun s pid hs => killed _ _ pid (killProcess_killed s pid) hs) h group.memberPids
      exact groups _ (s.killMembers group.memberPids |>.groups.erase gid) _
        (fun g hg => .inl (mem_erase.mp hg).2) le_rfl hk
  | setGroupPriority gid pr =>
    cases hst
    unfold setGroupPriority
    split
    · exact h
    next group hg =>
      exact setPriorities_induction (fun s pid hs => priority s pid pr hs)
        (rewrite { group with priority := pr } hg) group.memberPids
  | spawnProcess | spawnRealProcess | spawnChild => cases hsp
  | _ => exact absurd rfl hq

/-- Identifiers in use are below the counter, so the next one is fresh. -/
def PidsBelow (s : Scheduler) : Prop := ∀ pid ∈ s.processes, pid < s.nextPid

theorem PidsBelow.fresh (h : PidsBelow s) : s.processes.lookup s.nextPid = none := by
  rw [lookup_eq_none]
  intro hmem
  exact absurd (h _ hmem) (lt_irrefl _)

theorem PidsBelow.of_mem (h : PidsBelow s) (hm : ∀ pid, pid ∈ t.processes → pid ∈ s.processes)
    (hn : t.nextPid = s.nextPid) : PidsBelow t := fun pid hp => hn ▸ h pid (hm pid hp)

theorem Killed.pidsBelow {pid : ProcessId} (hk : Killed s t pid) (h : PidsBelow s) :
    PidsBelow t := by
  refine h.of_mem (fun j hj => ?_) hk.nextPid
  rw [hk.processes] at hj
  exact (mem_erase.mp hj).2

theorem step_pidsBelow (h : PidsBelow s) (hst : s.step op = some t) : PidsBelow t := by
  have hkeep {t : Scheduler} (hk : KeepsTables s t) : PidsBelow t :=
    h.of_mem (fun pid => (hk.mem_iff pid).mp) hk.nextPid
  rcases op.writes_cases with ⟨ramMb,hop⟩ | ⟨pid,rfl⟩ | ⟨hsp,hroll⟩
  · rcases step_spawn hop hst with ⟨-,-,hr⟩ | ⟨-,-,-,process,-,hs⟩
    · intro pid hpid
      rw [hr.processes] at hpid
      exact (h pid hpid).trans_le hr.nextPid
    · intro pid hpid
      rw [hs.processes,mem_insert] at hpid
      rw [hs.nextPid]
      rcases hpid with rfl | hpid
      · exact Nat.lt_succ_self _
      · exact (h pid hpid).trans (Nat.lt_succ_self _)
  · cases hst
    rcases rollback_cases s pid with hk | ⟨-,snap,proc,-,-,he⟩
    · exact hkeep hk.toKeepsTables
    · rw [he]
      exact h.of_mem (fun j hj => mem_adjust.mp hj) rfl
  · exact step_preserves (fun _ => hkeep) (fun s t pid hk h => hk.pidsBelow h)
      (fun s pid process priority _ h => h.of_mem (fun _ hj => mem_adjust.mp hj) rfl)
      (fun s groups n _ _ h => h.of_mem (fun _ hj => hj) rfl)
      (fun s pid groupId h => h.of_mem (fun _ hj => mem_adjust.mp hj) rfl) hsp hroll h hst

theorem init_pidsBelow (cfg : Config) : PidsBelow (init cfg) := fun _ h => absurd h notMem_empty

end Scheduler
end Aios.ProcessMgr
