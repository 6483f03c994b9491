import Aios.Cluster.Answers

/-!
Failover. A tick forgets each process of the nodes declared offline, with its checkpoint, before the
attempt to spawn it elsewhere; so the answers to the attempts, in their order, decide what becomes
of it.
-/
namespace Aios.Cluster

open Await List Finmap
variable {spec : RemoteProcessSpec}

namespace DistributedScheduler

variable {s t : DistributedScheduler} {env : TickEnv} {rid : RemoteProcessId} {as : List Attempt}

namespace Attempt

section
variable (env)

def result (a : Attempt) : DistributedScheduler × Except String RemoteProcessId :=
  a.state.respawn a.oldRid a.spec (env.respawn a.oldRid)

/-- The copy that the attempt comes to, from what it meets. -/
def answered (a : Attempt) : Option RemoteProcessId :=
  (a.state.untrack a.oldRid).answered a.spec (env.respawn a.oldRid)

/-- The messages that the attempt takes. -/
def met (a : Attempt) : List Incoming :=
  (a.state.untrack a.oldRid).met a.spec (env.respawn a.oldRid)

/-- A node has acknowledged the copy. -/
def AckedAs (a : Attempt) (new : RemoteProcessId) : Prop :=
  (a.result env).2 = .ok new ∧
    ∃ error, .spawnAck a.state.nextRequestId new.pid true error ∈
      received (env.respawn a.oldRid).polls

/-- The attempt is about the process, as the one that it replaces or as the copy. -/
def Concerns (rid : RemoteProcessId) (a : Attempt) : Prop :=
  a.oldRid = rid ∨ a.answered env = some rid

/-- The state with which the loop goes on. -/
def next (a : Attempt) : DistributedScheduler :=
  (a.result env).1.logEvent
    (respawnEvent a.oldRid (a.state.checkpoints.lookup a.oldRid).isSome (a.result env).2)

end

variable {a : Attempt} {new : RemoteProcessId}

theorem result_of_answered (h : a.answered env = some new) : a.AckedAs env new ∧
      (a.result env).1.spawnedSpecs =
        (a.state.spawnedSpecs.erase a.oldRid).insert new a.spec ∧
      new ∈ (a.result env).1.remote := by
  obtain ⟨t,hspawn,ht,-⟩ := spawnWithState_of_answered
    ((a.state.checkpoints.lookup a.oldRid).map Prod.fst) h
  have hresult : a.result env = (t.track new a.spec,.ok new) := hspawn
  have hack := Call.matched (a.call env).1 (a.call env).2 new (congrArg Prod.snd hresult)
  rw [AckedAs,hresult]
  refine ⟨⟨rfl,hack.2.2⟩,?_,mem_insert.mpr (.inl rfl)⟩
  rw [track,ht.spawnedSpecs]
  rfl

theorem result_of_unanswered (h : a.answered env = none) :
    (a.result env).1.spawnedSpecs = a.state.spawnedSpecs.erase a.oldRid := by
  obtain ⟨e,t,hspawn,ht⟩ := spawnWithState_of_unanswered
    ((a.state.checkpoints.lookup a.oldRid).map Prod.fst) h
  have hresult : a.result env = (t,.error e) := hspawn
  rw [hresult,ht.spawnedSpecs]
  rfl

theorem ackedAs_iff : a.AckedAs env new ↔ a.answered env = some new :=
  ⟨fun h => answered_of_ok h.1,fun h => (result_of_answered h).1⟩

theorem lookup_next (hanswer : a.answered env ≠ some rid) :
    (a.next env).spawnedSpecs.lookup rid = (a.state.spawnedSpecs.erase a.oldRid).lookup rid := by
  cases hanswered : a.answered env with
  | none => rw [next,logEvent,result_of_unanswered hanswered]
  | some new =>
    obtain ⟨-,hspecs,-⟩ := result_of_answered hanswered
    have hnew : rid ≠ new := fun h => hanswer (by rw [hanswered,h])
    rw [next,logEvent,hspecs,lookup_insert_of_ne _ hnew]

theorem tracked_next (h : a.answered env = some new) : (a.next env).Tracked new a.spec := by
  obtain ⟨-,hspecs,hremote⟩ := result_of_answered h
  exact ⟨by rw [next,logEvent,hspecs,lookup_insert],hremote⟩

theorem lookup_next_of_concerns (h : a.Concerns env rid) :
    (a.next env).spawnedSpecs.lookup rid = some spec ↔
      a.answered env = some rid ∧ a.spec = spec := by
  by_cases hanswer : a.answered env = some rid
  · rw [(tracked_next hanswer).1,Option.some_inj]
    exact (and_iff_right hanswer).symm
  · rw [lookup_next hanswer,h.resolve_right hanswer,lookup_erase]
    exact ⟨nofun,fun h => absurd h.1 hanswer⟩

theorem lookup_next_of_not_concerns (h : ¬ a.Concerns env rid) :
    (a.next env).spawnedSpecs.lookup rid = a.state.spawnedSpecs.lookup rid := by
  obtain ⟨hold,hanswer⟩ := not_or.mp h
  rw [lookup_next hanswer,lookup_erase_ne (Ne.symm hold)]

theorem mem_remote_next (h : rid ∈ a.state.remote) (hne : a.oldRid ≠ rid) :
    rid ∈ (a.next env).remote := by
  have hkept : rid ∈ (a.state.untrack a.oldRid).remote := mem_erase.mpr ⟨hne.symm,h⟩
  obtain ⟨e,t,hspawn,ht⟩ | ⟨new,t,peer,hspawn,ht,-⟩ :=
    spawnWithState_cases (a.state.untrack a.oldRid) a.spec none
      ((a.state.checkpoints.lookup a.oldRid).map Prod.fst) (env.respawn a.oldRid)
  · have hresult : a.result env = (t,.error e) := hspawn
    rw [next,logEvent,hresult]
    exact ht.known rid hkept
  · have hresult : a.result env = (t.track new a.spec,.ok new) := hspawn
    rw [next,logEvent,hresult]
    exact mem_insert.mpr (.inr (ht.known rid hkept))

theorem checkpoints_next : (a.next env).checkpoints =
    (a.met env).foldl storeCheckpoint (a.state.checkpoints.erase a.oldRid) :=
  checkpoints_spawnWithState _ _ _ _

end Attempt

open Attempt

/-- The attempts that lead from one state to another; in between, the scheduler only logs. -/
inductive Trail (env : TickEnv) :
    DistributedScheduler → List Attempt → DistributedScheduler → Prop
  | nil (s : DistributedScheduler) : Trail env s [] s
  | log {s t : DistributedScheduler} {as : List Attempt} (event : String) :
    Trail env (s.logEvent event) as t → Trail env s as t
  | attempt {a : Attempt} {as : List Attempt} {t : DistributedScheduler} :
    Trail env (a.next env) as t → Trail env a.state (a::as) t

theorem Trail.append {u : DistributedScheduler} {bs : List Attempt} (h : Trail env s as t)
    (h' : Trail env t bs u) : Trail env s (as ++ bs) u := by
  induction h with
  | nil => exact h'
  | log _ _ ih => exact .log _ (ih h')
  | attempt _ ih => exact .attempt (ih h')

theorem trail_respawnAll (env : TickEnv) (s : DistributedScheduler)
    (victims : List (RemoteProcessId × RemoteProcessSpec)) (events : List String) :
    Trail env s (respawnAttempts env s victims) (respawnAll env s victims events).1 := by
  induction victims generalizing s events with
  | nil => exact .nil s
  | cons v victims ih => exact .attempt (a := ⟨s,v.1,v.2⟩) (ih _ _)

theorem respawnAll_fst (env : TickEnv) (s : DistributedScheduler)
    (victims : List (RemoteProcessId × RemoteProcessSpec)) (events events' : List String) :
    (respawnAll env s victims events).1 = (respawnAll env s victims events').1 := by
  induction victims generalizing s events events' with
  | nil => rfl
  | cons v victims ih => exact ih _ _ _

theorem trail_failover (env : TickEnv) (s : DistributedScheduler) (ids : List NodeId)
    (events : List String) :
    Trail env s (failoverAttempts env s ids) (failover env s ids events).1 := by
  induction ids generalizing s events with
  | nil => exact .nil s
  | cons id ids ih =>
    unfold failoverAttempts failover
    dsimp only
    refine .log ("node " ++ toString id ++ " went offline") ?_
    split
    · refine (trail_respawnAll env _ _ []).append ?_
      rw [respawnAll_fst env _ _ (events ++ _) []]
      exact ih _ _
    · exact ih _ _

/-- The last of the attempts that concern the process was answered by it, and had this spec. -/
def LastNamed (env : TickEnv) (as : List Attempt) (rid : RemoteProcessId)
    (spec : RemoteProcessSpec) : Prop :=
  ∃ earlier a later, as = earlier ++ a::later ∧ a.answered env = some rid ∧ a.spec = spec ∧
    ∀ b ∈ later, ¬ b.Concerns env rid

/-- None of the attempts concerns the process, which had this spec before. -/
def Untouched (env : TickEnv) (s : DistributedScheduler) (as : List Attempt)
    (rid : RemoteProcessId) (spec : RemoteProcessSpec) : Prop :=
  s.spawnedSpecs.lookup rid = some spec ∧ ∀ a ∈ as, ¬ a.Concerns env rid

theorem lastNamed_cons {a : Attempt} : LastNamed env (a::as) rid spec ↔
    LastNamed env as rid spec ∨
      a.answered env = some rid ∧ a.spec = spec ∧ ∀ b ∈ as, ¬ b.Concerns env rid := by
  constructor
  · rintro ⟨earlier,b,later,hsplit,hb⟩
    cases earlier with
    | nil =>
      cases hsplit
      exact .inr hb
    | cons c earlier =>
      cases hsplit
      exact .inl ⟨earlier,b,later,rfl,hb⟩
  · rintro (⟨earlier,b,later,rfl,hb⟩ | hfirst)
    · exact ⟨a::earlier,b,later,rfl,hb⟩
    · exact ⟨[],a,as,rfl,hfirst⟩

theorem Trail.lookup_iff (h : Trail env s as t) : t.spawnedSpecs.lookup rid = some spec ↔
    LastNamed env as rid spec ∨ Untouched env s as rid spec := by
  induction h with
  | nil s =>
    refine ⟨fun h => .inr ⟨h,forall_mem_nil _⟩,?_⟩
    rintro (⟨earlier,a,later,hsplit,-⟩ | h)
    · cases earlier <;> cases hsplit
    · exact h.1
  | log _ _ ih => exact ih
  | @attempt a as t _ ih =>
    rw [ih,lastNamed_cons]
    unfold Untouched
    rw [forall_mem_cons]
    by_cases ha : a.Concerns env rid
    · rw [lookup_next_of_concerns ha]
      tauto
    · have hne : a.answered env ≠ some rid := fun h => ha (.inr h)
      rw [lookup_next_of_not_concerns ha]
      tauto

theorem Trail.mem_remote (h : Trail env s as t) (hrid : rid ∈ s.remote)
    (hlater : ∀ b ∈ as, ¬ b.Concerns env rid) : rid ∈ t.remote := by
  induction h with
  | nil => exact hrid
  | log _ _ ih => exact ih hrid hlater
  | attempt _ ih =>
    obtain ⟨hfirst,hlater⟩ := forall_mem_cons.mp hlater
    exact ih (mem_remote_next hrid fun h => hfirst (.inl h)) hlater

theorem Trail.mem_remote_of_lastNamed (h : Trail env s as t) (hlast : LastNamed env as rid spec) :
    rid ∈ t.remote := by
  induction h with
  | nil =>
    obtain ⟨earlier,a,later,hsplit,-⟩ := hlast
    cases earlier <;> cases hsplit
  | log _ _ ih => exact ih hlast
  | attempt hrest ih =>
    obtain hlast | ⟨hanswer,-,hlater⟩ := lastNamed_cons.mp hlast
    · exact ih hlast
    · exact hrest.mem_remote (tracked_next hanswer).2 hlater

def renew (rid : RemoteProcessId) (checkpoint : Option (List UInt8 × ℕ)) (i : Incoming) :
    Option (List UInt8 × ℕ) :=
  match i.message with
  | .checkpoint _ other state => if other = rid then some (state,i.now) else checkpoint
  | _ => checkpoint

/-- The checkpoint of a process, as the attempts leave it: forgotten with the process, and renewed
by the messages that they take. -/
def checkpointAfter (env : TickEnv) (rid : RemoteProcessId) (checkpoint : Option (List UInt8 × ℕ))
    (as : List Attempt) : Option (List UInt8 × ℕ) :=
  as.foldl (fun checkpoint a =>
    (a.met env).foldl (renew rid) (if a.oldRid = rid then none else checkpoint)) checkpoint

theorem lookup_foldl_storeCheckpoint (inbox : List Incoming)
    (checkpoints : Finmap fun _ : RemoteProcessId => List UInt8 × ℕ) :
    (inbox.foldl storeCheckpoint checkpoints).lookup rid =
      inbox.foldl (renew rid) (checkpoints.lookup rid) := by
  induction inbox generalizing checkpoints with
  | nil => rfl
  | cons i inbox ih =>
    have hstep : (storeCheckpoint checkpoints i).lookup rid =
        renew rid (checkpoints.lookup rid) i := by
      unfold storeCheckpoint renew
      cases i.message with
      | checkpoint node other state =>
        dsimp only
        split
        · next hother => rw [hother,lookup_insert]
        · next hother => exact lookup_insert_of_ne _ (Ne.symm hother)
      | _ => rfl
    rw [foldl_cons,foldl_cons,ih,hstep]

theorem Trail.lookup_checkpoints (h : Trail env s as t) :
    t.checkpoints.lookup rid = checkpointAfter env rid (s.checkpoints.lookup rid) as := by
  induction h with
  | nil => rfl
  | log _ _ ih => exact ih
  | @attempt a as t _ ih =>
    have hnext : (a.next env).checkpoints.lookup rid = (a.met env).foldl (renew rid)
        (if a.oldRid = rid then none else a.state.checkpoints.lookup rid) := by
      rw [checkpoints_next,lookup_foldl_storeCheckpoint]
      split
      · next hold => rw [hold,lookup_erase]
      · next hold => rw [lookup_erase_ne (Ne.symm hold)]
    rw [ih,hnext]
    rfl

section
variable (s : DistributedScheduler) (env : TickEnv)

theorem trail_tick : Trail env (s.detected env) (s.attempts env) (s.tick env).1 :=
  trail_failover env (s.detected env) (s.failedNodes env) []

theorem spawnedSpecs_detected : (s.detected env).spawnedSpecs = s.spawnedSpecs :=
  (steady_processEvents s env.drained).spawnedSpecs

variable (rid : RemoteProcessId) (spec : RemoteProcessSpec)

/-- After the tick another node has acknowledged a copy of the process, or the process is still
tracked, with its checkpoint. -/
def Recovered : Prop :=
  (∃ a ∈ s.attempts env, a.oldRid = rid ∧ ∃ new, a.AckedAs env new ∧ new.node ≠ rid.node ∧
    (s.tick env).1.Tracked new spec) ∨
    (s.tick env).1.spawnedSpecs.lookup rid = some spec ∧
      (s.tick env).1.checkpoints.lookup rid = (s.detected env).checkpoints.lookup rid

/-- The attempt for the process is answered by another node, under an id that no later attempt
replaces, or uses for another spec. Otherwise its own id has to be the last answer, from a node that
is back, or there is no attempt; and its checkpoint has to have come again. -/
def Restored : Prop :=
  (∃ a ∈ s.attempts env, a.oldRid = rid ∧ ∃ new, a.answered env = some new ∧
    new.node ≠ rid.node ∧ LastNamed env (s.attempts env) new spec) ∨
    (LastNamed env (s.attempts env) rid spec ∨ Untouched env s (s.attempts env) rid spec) ∧
      checkpointAfter env rid ((s.detected env).checkpoints.lookup rid) (s.attempts env) =
        (s.detected env).checkpoints.lookup rid

/-- What becomes of a process in a tick is decided by the answers to the attempts. -/
theorem failover_recovers_iff : s.Recovered env rid spec ↔ s.Restored env rid spec := by
  have htick := trail_tick s env
  have huntouched : Untouched env (s.detected env) (s.attempts env) rid spec ↔
      Untouched env s (s.attempts env) rid spec := by
    rw [Untouched,spawnedSpecs_detected,Untouched]
  refine or_congr (exists_congr fun a => and_congr_right fun ha => and_congr_right fun hold =>
    exists_congr fun new => ?_) ?_
  · rw [ackedAs_iff]
    refine and_congr_right fun hanswer => and_congr_right fun _ => ?_
    rw [Tracked,htick.lookup_iff]
    constructor
    · rintro ⟨hlast | hbefore,-⟩
      · exact hlast
      · exact absurd (.inr hanswer) (hbefore.2 a ha)
    · intro hlast
      exact ⟨.inl hlast,htick.mem_remote_of_lastNamed hlast⟩
  · rw [htick.lookup_iff,huntouched,htick.lookup_checkpoints]

end

def noAnswer : TickEnv where
  drained := []
  now := 20
  nodeOrder := .ascending
  processOrder _ := .ascending
  respawn _ := ⟨[],.ok (),[]⟩

example : ((twoNodes.tick { noAnswer with respawn := fun _ =>
    ⟨[],.ok (),[.message ⟨.spawnAck 1 5 true none,20,none⟩]⟩ }).1.spawnedSpecs.lookup
      ⟨2,5⟩).isSome := by decide +kernel

theorem unanswered_respawn_forgets :
    twoNodes.failoverRespawn = true ∧ 1 ∈ twoNodes.failedNodes noAnswer ∧
      twoNodes.spawnedSpecs.lookup ⟨1,7⟩ = some ⟨"worker",0,64,none,[],none,none⟩ ∧
      ¬ twoNodes.Recovered noAnswer ⟨1,7⟩ ⟨"worker",0,64,none,[],none,none⟩ := by
  have hspecs : (twoNodes.tick noAnswer).1.spawnedSpecs = ∅ := by decide +kernel
  refine ⟨rfl,by decide +kernel,by decide +kernel,?_⟩
  rintro (⟨a,-,-,new,-,-,htracked⟩ | ⟨hkept,-⟩)
  · rw [Tracked,hspecs] at htracked
    exact absurd htracked.1 (by simp)
  · rw [hspecs] at hkept
    exact absurd hkept (by simp)

end DistributedScheduler
end Aios.Cluster
