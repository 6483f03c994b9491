import Aios.ProcessMgr.Cpu

/-!
Group membership is written down twice, in the group and in the process; the two agree along a run
precisely as long as members leave their group before they are killed, and none joins a second one.
-/
namespace Aios.ProcessMgr
namespace Scheduler

open Transition Option Finmap
variable {s t : Scheduler} {pid : ProcessId} {op : Op} {groupId : ℕ}

/-- The group that a live process believes to be in. -/
def groupOf (s : Scheduler) (pid : ProcessId) : Option ℕ :=
  (s.processes.lookup pid).bind Process.groupId

/-- A group lists exactly the live processes that believe to be in it. -/
def GroupsConsistent (s : Scheduler) : Prop :=
  ∀ pid groupId, pid ∈ s.membersOf groupId ↔ s.groupOf pid = some groupId

/-- A kill only meets processes without a group, and a process only joins a group when
it exists and is in no other one. -/
def RespectsGroups (s : Scheduler) : Op → Prop
  | .killProcess pid => s.groupOf pid = none
  | .resolveFault pid .terminate => s.hasPendingFault pid = true → s.groupOf pid = none
  | .addToGroup pid groupId => groupId ∈ s.groups →
      pid ∈ s.processes ∧ (s.groupOf pid = none ∨ s.groupOf pid = some groupId)
  | _ => True

/-- Group identifiers in use are below the counter. -/
def GroupIdsBelow (s : Scheduler) : Prop := ∀ groupId ∈ s.groups, groupId < s.nextGroupId

structure KeepsGroups (s t : Scheduler) : Prop where
  groupOf : ∀ pid, t.groupOf pid = s.groupOf pid
  members : ∀ groupId, t.membersOf groupId = s.membersOf groupId

namespace KeepsGroups

variable {u : Scheduler}

theorem of_eq (hp : t.processes = s.processes) (hg : t.groups = s.groups) : KeepsGroups s t :=
  ⟨fun pid => by rw [Scheduler.groupOf,hp,Scheduler.groupOf],
    fun g => by rw [membersOf,hg,membersOf]⟩

theorem trans (h : KeepsGroups s t) (k : KeepsGroups t u) : KeepsGroups s u :=
  ⟨fun pid => (k.groupOf pid).trans (h.groupOf pid),fun g => (k.members g).trans (h.members g)⟩

theorem consistent_iff (h : KeepsGroups s t) : GroupsConsistent t ↔ GroupsConsistent s := by
  unfold GroupsConsistent
  simp only [h.groupOf,h.members]

end KeepsGroups

theorem groupOf_eq_map : s.groupOf pid = ((s.processes.lookup pid).map Process.groupId).join := by
  unfold groupOf
  cases s.processes.lookup pid <;> rfl

theorem KeepsTables.keepsGroups (h : KeepsTables s t) : KeepsGroups s t := by
  refine ⟨fun pid => ?_,fun g => by rw [membersOf,h.groups,membersOf]⟩
  rw [groupOf_eq_map,groupOf_eq_map,h.field Process.groupId fun _ => rfl]

theorem groupOf_modifyProcess (f : Process → Process) (s : Scheduler) (pid j : ProcessId) :
    (s.modifyProcess pid f).groupOf j =
      if j = pid then (s.processes.lookup j).bind (fun p => (f p).groupId) else s.groupOf j := by
  unfold groupOf modifyProcess
  rw [lookup_adjust]
  split
  · rw [bind_map]
    rfl
  · rfl

theorem keepsGroups_modifyProcess {f : Process → Process} (hf : ∀ p, (f p).groupId = p.groupId)
    (s : Scheduler) (pid : ProcessId) : KeepsGroups s (s.modifyProcess pid f) := by
  refine ⟨fun j => ?_,fun _ => rfl⟩
  rw [groupOf_modifyProcess]
  split
  · simp only [hf]
    rfl
  · rfl

variable (s)

theorem setPriority_keepsGroups (pid : ProcessId) (priority : Priority) :
    KeepsGroups s (s.setPriority pid priority).1 := by
  unfold setPriority
  split
  · exact .of_eq rfl rfl
  · dsimp only
    split
    · exact .of_eq rfl rfl
    · have h := keepsGroups_modifyProcess (f := fun p => { p with priority := priority })
        (fun _ => rfl) s pid
      exact h.trans (.of_eq rfl rfl)

theorem rollback_keepsGroups (pid : ProcessId) :
    KeepsGroups s (s.resolveFault pid .rollback).1 := by
  rcases rollback_cases s pid with hk | ⟨-,snap,proc,-,-,he⟩
  · exact hk.keepsGroups
  · rw [he]
    have h := keepsGroups_modifyProcess (f := fun p => setState .ready (snap.restoreTo p))
      (fun _ => rfl) s pid
    exact h.trans (.of_eq rfl rfl)

theorem membersOf_insert (g : ℕ) (group : ProcessGroup) (j : ℕ) :
    ({ s with groups := s.groups.insert g group } : Scheduler).membersOf j =
      if j = g then group.memberPids else s.membersOf j := by
  unfold membersOf
  rw [lookup_insert_if]
  split <;> rfl

theorem setGroupPriority_keepsGroups (g : ℕ) (priority : Priority) :
    KeepsGroups s (s.setGroupPriority g priority).1 := by
  unfold setGroupPriority
  split
  · exact .of_eq rfl rfl
  next group hg =>
    refine setPriorities_induction (P := KeepsGroups s)
      (fun u pid hu => hu.trans (setPriority_keepsGroups u pid priority)) ?_ group.memberPids
    refine ⟨fun _ => rfl,fun j => ?_⟩
    rw [membersOf_insert]
    split
    next hj => rw [membersOf,hj,hg]; rfl
    next => rfl

variable {s} {pids : List ProcessId} {group : ProcessGroup}

theorem groupOf_of_not_mem (h : pid ∉ s.processes) : s.groupOf pid = none := by
  rw [groupOf,lookup_eq_none.mpr h,bind_none]

theorem Killed.groupOf (h : Killed s t pid) (j : ProcessId) :
    t.groupOf j = if j = pid then none else s.groupOf j := by
  unfold Scheduler.groupOf
  rw [h.processes,lookup_erase_if]
  split <;> rfl

theorem Killed.membersOf (h : Killed s t pid) (g : ℕ) : t.membersOf g = s.membersOf g := by
  rw [Scheduler.membersOf,h.groups,Scheduler.membersOf]

/-- Nobody tells the group of a killed process. -/
theorem Killed.consistent_iff (hk : Killed s t pid) (h : GroupsConsistent s) :
    GroupsConsistent t ↔ s.groupOf pid = none := by
  constructor
  · intro ht
    cases hg : s.groupOf pid with
    | none => rfl
    | some g =>
      have hmem : pid ∈ t.membersOf g := by rw [hk.membersOf,h pid g,hg]
      rw [ht pid g,hk.groupOf,if_pos rfl] at hmem
      cases hmem
  · intro hnone j g
    rw [hk.membersOf,hk.groupOf,h j g]
    split
    next hj => rw [hj,hnone]
    next => rfl

theorem Spawned.consistent {process : Process} (hs : Spawned s t process) (hj : PidsBelow s)
    (h : GroupsConsistent s) : GroupsConsistent t := by
  intro j g
  have hmembers : t.membersOf g = s.membersOf g := by rw [membersOf,hs.groups,membersOf]
  have hgroup : t.groupOf j = s.groupOf j := by
    unfold groupOf
    rw [hs.processes,lookup_insert_if]
    split
    next hnew => rw [hnew,hj.fresh,bind_some,hs.group,bind_none]
    next => rfl
  rw [hmembers,hgroup,h j g]

theorem newGroup_keepsGroups (hg : GroupIdsBelow s) (hempty : group.memberPids = []) :
    KeepsGroups s { s with
      groups := s.groups.insert s.nextGroupId group, nextGroupId := s.nextGroupId+1 } := by
  refine ⟨fun _ => rfl,fun j => (membersOf_insert s s.nextGroupId group j).trans ?_⟩
  split
  next hj =>
    have hnot : s.nextGroupId ∉ s.groups := fun hmem => absurd (hg _ hmem) (lt_irrefl _)
    rw [hempty,hj,membersOf,lookup_eq_none.mpr hnot,map_none,getD_none]
  next => rfl

theorem mem_addMember {j : ProcessId} :
    j ∈ (group.addMember pid).memberPids ↔ j = pid ∨ j ∈ group.memberPids := by
  unfold ProcessGroup.addMember
  split
  next hm =>
    refine ⟨.inr,fun hor => ?_⟩
    rcases hor with rfl | hj
    · exact hm
    · exact hj
  next => simp [or_comm]

section
variable {group : ProcessGroup}

theorem addToGroup_members (hg : s.groups.lookup groupId = some group) (pid j : ProcessId) (g : ℕ) :
    j ∈ (s.addToGroup pid groupId).1.membersOf g ↔ (g = groupId ∧ j = pid) ∨ j ∈ s.membersOf g := by
  have hadd : (s.addToGroup pid groupId).1.membersOf g =
      if g = groupId then (group.addMember pid).memberPids else s.membersOf g := by
    rw [addToGroup,hg]
    exact membersOf_insert s groupId (group.addMember pid) g
  rw [hadd]
  split
  next he =>
    have hold : s.membersOf groupId = group.memberPids := by rw [membersOf,hg]; rfl
    rw [mem_addMember,he,hold]
    simp
  next he => simp [he]

theorem addToGroup_groupOf (hg : s.groups.lookup groupId = some group) (pid j : ProcessId) :
    (s.addToGroup pid groupId).1.groupOf j =
      if j = pid ∧ pid ∈ s.processes then some groupId else s.groupOf j := by
  have hadd : (s.addToGroup pid groupId).1.groupOf j =
      if j = pid then (s.processes.lookup j).bind (fun _ => some groupId) else s.groupOf j := by
    rw [addToGroup,hg]
    exact groupOf_modifyProcess (fun p => { p with groupId := some groupId })
      { s with groups := s.groups.insert groupId (group.addMember pid) } pid j
  rw [hadd]
  by_cases hj : j = pid
  · subst hj
    cases hp : s.processes.lookup j with
    | none =>
      have hnot : j ∉ s.processes := lookup_eq_none.mp hp
      simp [hnot,groupOf,hp]
    | some p => simp [mem_of_lookup_eq_some hp]
  · simp [hj]

/-- Joining keeps the records in agreement precisely if there is a process to record it and no other
group still lists it. -/
theorem addToGroup_consistent_iff (h : GroupsConsistent s) :
    GroupsConsistent (s.addToGroup pid groupId).1 ↔ RespectsGroups s (.addToGroup pid groupId) := by
  cases hg : s.groups.lookup groupId with
  | none =>
    have hsame : (s.addToGroup pid groupId).1 = s := by rw [addToGroup,hg]
    rw [hsame]
    exact iff_of_true h fun hmem => absurd hmem (lookup_eq_none.mp hg)
  | some group =>
    have hmembers := addToGroup_members hg pid
    have hgroup := addToGroup_groupOf hg pid
    constructor
    · intro ht _
      have hin : (s.addToGroup pid groupId).1.groupOf pid = some groupId :=
        (ht pid groupId).mp ((hmembers pid groupId).mpr (.inl ⟨rfl,rfl⟩))
      have hproc : pid ∈ s.processes := by
        by_contra hnot
        rw [hgroup,if_neg fun hb => hnot hb.2,groupOf_of_not_mem hnot] at hin
        cases hin
      refine ⟨hproc,?_⟩
      cases hold : s.groupOf pid with
      | none => exact .inl rfl
      | some g =>
        -- the old group still lists the process
        have hstill := (ht pid g).mp ((hmembers pid g).mpr (.inr ((h pid g).mpr hold)))
        exact .inr (hstill.symm.trans hin)
    · intro hok j g
      obtain ⟨hproc,hwas⟩ := hok (mem_of_lookup_eq_some hg)
      rw [hmembers,hgroup,h j g]
      by_cases hj : j = pid
      · subst hj
        rw [if_pos ⟨rfl,hproc⟩]
        rcases hwas with hnone | hsome
        · simp [hnone,eq_comm]
        · simp [hsome,eq_comm]
      · simp [hj]

end

theorem removeFromGroup_consistent (h : GroupsConsistent s) :
    GroupsConsistent (s.removeFromGroup pid).1 := by
  cases hg : s.groupOf pid with
  | none =>
    have hbind : (s.processes.lookup pid).bind Process.groupId = none := hg
    have hsame : (s.removeFromGroup pid).1 = s := by rw [removeFromGroup,hbind]
    rwa [hsame]
  | some g =>
    have hbind : (s.processes.lookup pid).bind Process.groupId = some g := hg
    have hgroup (j : ProcessId) : (s.removeFromGroup pid).1.groupOf j =
        if j = pid then none else s.groupOf j := by
      have hmod := groupOf_modifyProcess (fun p => { p with groupId := none })
        { s with groups := s.groups.adjust g fun group => group.removeMember pid } pid j
      rw [removeFromGroup,hbind]
      refine hmod.trans ?_
      split
      · exact bind_fun_none _
      · rfl
    have hmembers (j : ProcessId) (g' : ℕ) : j ∈ (s.removeFromGroup pid).1.membersOf g' ↔
        j ∈ s.membersOf g' ∧ (g' = g → j ≠ pid) := by
      rw [removeFromGroup,hbind]
      simp only [membersOf,modifyProcess,lookup_adjust]
      by_cases hg' : g' = g
      · cases hl : s.groups.lookup g' with
        | none => simp [hg']
        | some group => simp [hg',ProcessGroup.removeMember]
      · simp [hg']
    intro j g'
    rw [hmembers,hgroup,h j g']
    by_cases hj : j = pid
    · subst hj
      rw [if_pos rfl,hg,some.injEq]
      exact iff_of_false (fun hb => hb.2 hb.1.symm rfl) (by simp)
    · simp [hj]

theorem killMembers_groups : (s.killMembers pids).groups = s.groups :=
  killMembers_induction (P := fun u => u.groups = s.groups)
    (fun u pid hu => (killProcess_killed u pid).groups.trans hu) rfl pids

theorem killMembers_groupOf (s : Scheduler) (j : ProcessId) :
    (s.killMembers pids).groupOf j = if j ∈ pids then none else s.groupOf j := by
  induction pids generalizing s with
  | nil => rfl
  | cons pid pids ih =>
    refine (ih (s.killProcess pid).1).trans ?_
    rw [(killProcess_killed s pid).groupOf j]
    by_cases hj : j = pid <;> simp [hj]

/-- Killing a group kills exactly the processes that believe to be in it. -/
theorem killGroup_consistent (h : GroupsConsistent s) :
    GroupsConsistent (s.killGroup groupId).1 := by
  cases hg : s.groups.lookup groupId with
  | none =>
    have hsame : (s.killGroup groupId).1 = s := by rw [killGroup,hg]
    rwa [hsame]
  | some group =>
    have hold : s.membersOf groupId = group.memberPids := by rw [membersOf,hg]; rfl
    have hgroup (j : ProcessId) : (s.killGroup groupId).1.groupOf j =
        if j ∈ s.membersOf groupId then none else s.groupOf j := by
      rw [killGroup,hg,hold]
      exact killMembers_groupOf s j
    have hmembers (g : ℕ) : (s.killGroup groupId).1.membersOf g =
        if g = groupId then [] else s.membersOf g := by
      rw [killGroup,hg]
      simp only [membersOf,killMembers_groups,lookup_erase_if]
      split <;> rfl
    intro j g
    rw [hmembers,hgroup]
    by_cases hj : j ∈ s.membersOf groupId
    · rw [if_pos hj]
      have hin := (h j groupId).mp hj
      refine iff_of_false ?_ (by simp)
      split
      · exact List.not_mem_nil
      next hne =>
        rw [h j g,hin,some.injEq]
        exact Ne.symm hne
    · split
      next he =>
        rw [he,← h j groupId]
        exact iff_of_false List.not_mem_nil hj
      next => exact h j g

theorem GroupIdsBelow.congr (h : GroupIdsBelow s) (hg : t.groups = s.groups)
    (hn : t.nextGroupId = s.nextGroupId) : GroupIdsBelow t := by
  unfold GroupIdsBelow
  rwa [hg,hn]

theorem step_groupIdsBelow (h : GroupIdsBelow s) (hst : s.step op = some t) : GroupIdsBelow t := by
  rcases op.writes_cases with ⟨ramMb,hop⟩ | ⟨p,rfl⟩ | ⟨hsp,hroll⟩
  · rcases step_spawn hop hst with ⟨-,-,hr⟩ | ⟨-,-,-,process,-,hs⟩
    · exact h.congr hr.groups hr.nextGroupId
    · exact h.congr hs.groups hs.nextGroupId
  · cases hst
    rcases rollback_cases s p with hk | ⟨-,snap,proc,-,-,he⟩
    · exact h.congr hk.groups hk.nextGroupId
    · rw [he]
      exact h.congr rfl rfl
  · refine step_preserves (fun _ hk => h.congr hk.groups hk.nextGroupId)
      (fun s t pid hk h => h.congr hk.groups hk.nextGroupId)
      (fun s pid process priority _ h => h.congr rfl rfl) (fun s groups n hg hn h g hmem => ?_)
      (fun s pid groupId h => h.congr rfl rfl) hsp hroll h hst
    rcases hg g hmem with hold | hnew
    · exact (h g hold).trans_le hn
    · exact hnew

/-- One operation keeps the two records in agreement precisely if it respects the groups. -/
theorem step_groupsConsistent_iff (hj : PidsBelow s) (hb : GroupIdsBelow s)
    (h : GroupsConsistent s) (hst : s.step op = some t) :
    GroupsConsistent t ↔ RespectsGroups s op := by
  have fine (ht : GroupsConsistent t) (hr : RespectsGroups s op) :
      GroupsConsistent t ↔ RespectsGroups s op := iff_of_true ht hr
  have keep {u : Scheduler} (hk : KeepsGroups s u) : GroupsConsistent u := hk.consistent_iff.mpr h
  by_cases hq : op.quiet = true
  · refine fine (keep (step_keepsTables hq hst).keepsGroups) ?_
    cases op with
    | resolveFault p action =>
      cases action with
      | resume => trivial
      | _ => cases hq
    | _ => trivial
  by_cases hsp : ∃ ramMb, op.spawnRequest = some ramMb
  · obtain ⟨ramMb,hreq⟩ := hsp
    have ht : GroupsConsistent t := by
      rcases step_spawn hreq hst with ⟨-,-,hr⟩ | ⟨-,-,-,process,-,hs⟩
      · exact keep (.of_eq hr.processes hr.groups)
      · exact hs.consistent hj h
    cases op <;> first | exact fine ht trivial | simp [Op.spawnRequest] at hreq
  cases op with
  | killProcess p =>
    cases hst
    exact (killProcess_killed s p).consistent_iff h
  | setPriority p priority =>
    exact fine (some.inj hst ▸ keep (setPriority_keepsGroups s p priority)) trivial
  | resolveFault p action =>
    cases action with
    | resume => exact absurd rfl hq
    | terminate =>
      cases hst
      rcases terminate_cases s p with ⟨hp,he⟩ | ⟨hp,hk⟩
      · rw [he]
        exact iff_of_true h fun hpend => by simp [hp] at hpend
      · exact (hk.consistent_iff h).trans ⟨fun hn _ => hn,fun hr => hr hp⟩
    | rollback => exact fine (some.inj hst ▸ keep (rollback_keepsGroups s p)) trivial
  | createGroup | createSession =>
    exact fine (some.inj hst ▸ keep (newGroup_keepsGroups hb rfl)) trivial
  | addToGroup p g =>
    cases hst
    exact addToGroup_consistent_iff h
  | removeFromGroup p =>
    exact fine (some.inj hst ▸ removeFromGroup_consistent h) trivial
  | killGroup g => exact fine (some.inj hst ▸ killGroup_consistent h) trivial
  | setGroupPriority g priority =>
    exact fine (some.inj hst ▸ keep (setGroupPriority_keepsGroups s g priority)) trivial
  | spawnProcess clk name priority ramMb => exact absurd ⟨ramMb,rfl⟩ hsp
  | spawnRealProcess clk os name priority ramMb => exact absurd ⟨ramMb,rfl⟩ hsp
  | spawnChild parent name priority ramMb => exact absurd ⟨ramMb,rfl⟩ hsp
  | _ => exact absurd rfl hq

theorem init_groupsConsistent (cfg : Config) : GroupsConsistent (init cfg) := fun pid g => by
  simp [membersOf,groupOf,init,new,withTimeSlice,withAgingThreshold,withMaxRestarts]

/-- In every run, a group lists exactly the live processes in it, precisely if no member is killed
on its own and no process joins a group while it is missing or in another one. -/
theorem groups_consistent_iff_groups_are_respected (cfg : Config) (ops : List Op) :
    Always step GroupsConsistent (init cfg) ops ↔
      EachStep step (fun s op _ => RespectsGroups s op) (init cfg) ops :=
  always_iff_eachStep (J := fun s => PidsBelow s ∧ GroupIdsBelow s)
    (fun _ _ _ hj hst => ⟨step_pidsBelow hj.1 hst,step_groupIdsBelow hj.2 hst⟩)
    (fun _ _ _ hj h hst => step_groupsConsistent_iff hj.1 hj.2 h hst)
    ⟨init_pidsBelow cfg,fun _ h => absurd h notMem_empty⟩ (init_groupsConsistent cfg) ops

def killedMemberRun : List Op :=
  [.spawnProcess ⟨0,0⟩ "a" .normal 16,.createGroup ⟨0,0⟩ "g" .normal,.addToGroup 1 1,.killProcess 1]

theorem group_lists_killed_member :
    ∃ t, exec step (init ⟨256,10,500,3⟩) killedMemberRun = some t ∧ ¬ GroupsConsistent t := by
  refine ⟨_,rfl,fun h => ?_⟩
  have hgroup := (h 1 1).mp (by decide)
  revert hgroup
  decide

end Scheduler
end Aios.ProcessMgr
