import Aios.Cluster.Messages
import Aios.Lib.Transition

/-!
Requests and acknowledgements. The pending slot of a waiting request holds the request or nothing;
so only its own acknowledgement can fill its result slot.
-/
namespace Aios.Cluster

open Await Transition
variable {env : Env} {p : PendingRequest} {m : ClusterMessage} {kind : PendingKind}

namespace DistributedScheduler

variable {s : DistributedScheduler} {i : Incoming} {ρ : Type}

section
variable {slot : Slot ρ} {answer : PendingRequest → ClusterMessage → Option (Except String ρ)}

/-- A request succeeds with the answer of a message that was received while it was waiting. -/
theorem Lawful.exchange_ok (hslot : Lawful slot answer) {r : Request} {peer : String} {v : ρ}
    (hempty : slot.get s = none) (h : (exchange slot s r peer env).2 = .ok v) :
    ∃ m ∈ received env.polls, answer ⟨s.nextRequestId,r.kind⟩ m = some (.ok v) := by
  unfold exchange at h
  cases hsend : env.send with
  | error e => simp [hsend] at h
  | ok u =>
    simp only [hsend] at h
    split at h
    · cases h
    -- While the request waits, nothing but itself is pending.
    let J (t : DistributedScheduler) : Prop :=
      t.pending = some ⟨s.nextRequestId,r.kind⟩ ∨ t.pending = none
    have hstep (t : DistributedScheduler) (i : Incoming) (_ : .message i ∈ env.polls) (ht : J t)
        (_ : (slot.get t).isSome = false) : J (t.dispatchIncoming i) := by
      obtain hsame | hnone := pending_dispatchIncoming t i
      · exact ht.imp hsame.trans hsame.trans
      · exact .inr hnone
    have hstart : (slot.get (s.waiting r peer)).isSome = false := by
      rw [hslot.get_waiting,hempty]
      rfl
    generalize hended : await dispatchIncoming (fun s => (slot.get s).isSome) (s.waiting r peer)
      env.polls = ended at h
    rw [hslot.get_pending] at h
    have hsome : slot.get ended.1 = some (.ok v) := by
      cases hget : slot.get ended.1 with
      | none => simp [hget] at h
      | some result => simpa [hget] using h
    obtain ⟨t,i,hi,ht,hopen,hlast⟩ := exists_message_of_done hstep (.inl rfl) hstart
      (by rw [hended,hsome]; rfl)
    have hnone : slot.get t = none := by simpa using hopen
    rw [hended] at hlast
    rw [hlast,hslot.get_dispatch,hnone,Option.or_none] at hsome
    refine ⟨i.message,mem_received hi,?_⟩
    obtain hown | hidle := ht
    · rwa [hown,Option.bind_some] at hsome
    · rw [hidle] at hsome
      cases hsome

/-- A request to the node of a process fails, or it returns what its own answer carries. -/
theorem Lawful.call_cases (hslot : Lawful slot answer) (s : DistributedScheduler)
    (rid : RemoteProcessId) {r : String → Request} (hkind : ∀ peer, (r peer).kind = kind)
    (env : Env) :
    (∃ e t, call slot s rid r env = (t,.error e) ∧ Evolves env.heard s t) ∨
      ∃ v t peer, call slot s rid r env = (t,.ok v) ∧ Evolves env.heard s t ∧
        (peer,(r peer).message s.nextRequestId) ∈ t.sent ∧
        ∃ m ∈ received env.polls, answer ⟨s.nextRequestId,kind⟩ m = some (.ok v) := by
  have hevolves := hslot.evolves_call s rid r env
  have hid : (slot.set (s.processEvents env.drained) none).nextRequestId = s.nextRequestId :=
    ((steady_processEvents s env.drained).trans (hslot.set_steady _ none)).nextRequestId
  generalize hcall : call slot s rid r env = result at hevolves ⊢
  obtain ⟨t,outcome⟩ := result
  cases outcome with
  | error e => exact .inl ⟨e,t,rfl,hevolves⟩
  | ok v =>
    unfold call at hcall
    dsimp only at hcall
    split at hcall
    · cases hcall
    · next node hnode =>
      have hsent := hslot.sent_exchange (slot.set (s.processEvents env.drained) none)
        (r node.addr) node.addr env
      obtain ⟨m,hm,hanswer⟩ := hslot.exchange_ok (hslot.get_set _ _) (congrArg Prod.snd hcall)
      rw [hcall,hid] at hsent
      rw [hid,hkind] at hanswer
      exact .inr ⟨v,t,node.addr,rfl,hevolves,hsent,m,hm,hanswer⟩

theorem spawnAnswer_ok {rid : RemoteProcessId} (h : spawnAnswer p m = some (.ok rid)) :
    p.kind = .spawn rid.node ∧ ∃ error, m = .spawnAck p.requestId rid.pid true error := by
  revert h
  fun_cases spawnAnswer p m with
  | case1 pid ok error node hkind =>
    cases ok <;> rintro ⟨⟩
    exact ⟨hkind,error,rfl⟩
  | _ => rintro ⟨⟩

theorem ctrlAnswer_ok (h : ctrlAnswer p m = some (.ok ())) :
    ∃ error, m = .killAck p.requestId true error ∨ m = .setPriorityAck p.requestId true error := by
  revert h
  fun_cases ctrlAnswer p m with
  | case1 ok error =>
    cases ok <;> rintro ⟨⟩
    exact ⟨error,.inl rfl⟩
  | case3 ok error =>
    cases ok <;> rintro ⟨⟩
    exact ⟨error,.inr rfl⟩
  | _ => rintro ⟨⟩

theorem getStateAnswer_ok {state : List UInt8} (h : getStateAnswer p m = some (.ok state)) :
    ∃ error, m = .getStateReply p.requestId true state error := by
  revert h
  fun_cases getStateAnswer p m with
  | case1 ok bytes error =>
    cases ok <;> rintro ⟨⟩
    exact ⟨error,rfl⟩
  | _ => rintro ⟨⟩

end

variable (s)

def placing (env : Env) : DistributedScheduler :=
  { s.processEvents env.drained with spawnResult := none }

def placed (spec : RemoteProcessSpec) (target : Option NodeId)
    (env : Env) : Option NodeId :=
  ((s.placing env).chooseNode spec target).2

theorem evolves_placing (env : Env) : Evolves env.heard s (s.placing env) :=
  (evolves_processEvents s env.mem_heard_of_drained).trans (spawnSlot_lawful.evolves_set _ none)

variable {s}

section
variable (s : DistributedScheduler) (spec : RemoteProcessSpec) (target : Option NodeId)

theorem nextRequestId_placed (env : Env) :
    ((s.placing env).chooseNode spec target).1.nextRequestId = s.nextRequestId := by
  rw [chooseNode_fst]
  exact (steady_processEvents s env.drained).nextRequestId

theorem spawnResult_placed (env : Env) :
    ((s.placing env).chooseNode spec target).1.spawnResult = none := by
  rw [chooseNode_fst]
  rfl

/-- A spawn fails and tracks nothing, or it tracks the process that its own acknowledgement
names. -/
theorem spawnWithState_cases (state : Option (List UInt8)) (env : Env) :
    (∃ e t, s.spawnWithState spec target state env = (t,.error e) ∧ Evolves env.heard s t) ∨
      ∃ rid t peer, s.spawnWithState spec target state env = (t.track rid spec,.ok rid) ∧
        Evolves env.heard s t ∧ s.placed spec target env = some rid.node ∧
        (peer,.spawn s.nextRequestId s.selfInfo.addr spec state) ∈ t.sent ∧
        ∃ error, .spawnAck s.nextRequestId rid.pid true error ∈ received env.polls := by
  have hplacing := evolves_placing s env
  have hchosen : Evolves env.heard s ((s.placing env).chooseNode spec target).1 :=
    hplacing.trans (evolves_chooseNode _ spec target)
  unfold spawnWithState
  dsimp only
  split
  · next hnode => exact .inl ⟨_,_,rfl,hchosen⟩
  · next node hnode =>
    split
    · exact .inl ⟨_,_,rfl,hchosen⟩
    · next entry hentry =>
      have hexchange := (hchosen.trans (evolves_waiting _ _ _)).trans
        (spawnSlot_lawful.evolves_exchange _
          ((s.placing env).spawnRequest spec state node entry.addr) entry.addr env)
      have hsent := spawnSlot_lawful.sent_exchange ((s.placing env).chooseNode spec target).1
        ((s.placing env).spawnRequest spec state node entry.addr) entry.addr env
      split
      · exact .inl ⟨_,_,rfl,hexchange⟩
      · next rid hrid =>
        obtain ⟨m,hm,hanswer⟩ := spawnSlot_lawful.exchange_ok
          (spawnResult_placed s spec target env) hrid
        obtain ⟨hkind,error,rfl⟩ := spawnAnswer_ok hanswer
        cases hkind
        rw [nextRequestId_placed] at hm hsent
        refine .inr ⟨rid,_,entry.addr,rfl,hexchange,hnode,?_,error,hm⟩
        rw [← hplacing.selfInfo]
        exact hsent

end

theorem kill_cases (s : DistributedScheduler) (rid : RemoteProcessId) (env : Env) :
    (∃ e t, s.kill rid env = (t,.error e) ∧ Evolves env.heard s t) ∨
      ∃ t, s.kill rid env = (t.untrack rid,.ok ()) ∧ Evolves env.heard s t ∧
        (∃ peer, (peer,.kill s.nextRequestId s.selfInfo.addr rid.pid) ∈ t.sent) ∧
        ∃ m ∈ received env.polls, ctrlAnswer ⟨s.nextRequestId,.kill⟩ m = some (.ok ()) := by
  unfold kill
  obtain ⟨e,t,hcall,ht⟩ | ⟨_,t,peer,hcall,ht,hsent,hanswer⟩ :=
    ctrlSlot_lawful.call_cases s rid
      (fun peer => show (s.killRequest rid peer).kind = .kill from rfl)
      env
  · rw [hcall]
    exact .inl ⟨e,t,rfl,ht⟩
  · rw [hcall]
    exact .inr ⟨t,rfl,ht,⟨peer,hsent⟩,hanswer⟩

inductive Call where
  | spawn (spec : RemoteProcessSpec) (target : Option NodeId) (state : Option (List UInt8))
    (env : Env)
  | kill (rid : RemoteProcessId) (env : Env)
  | setPriority (rid : RemoteProcessId) (priority : UInt8) (env : Env)
  | getState (rid : RemoteProcessId) (env : Env)

variable (s)

/-- The positive acknowledgement of a kill or of a change of priority was received. -/
def CtrlAcked (env : Env) : Prop :=
  ∃ error, .killAck s.nextRequestId true error ∈ received env.polls ∨
    .setPriorityAck s.nextRequestId true error ∈ received env.polls

def Sends (m : ClusterMessage) : Prop := ∃ peer, (peer,m) ∈ s.sent

/-- A request goes out with the next id. It succeeds on the acknowledgement with this id only, and
returns what that carries. -/
def Call.Matched : Call → Prop
  | .spawn spec target state env =>
    let r := s.spawnWithState spec target state env
    ∀ rid, r.2 = .ok rid → r.1.Sends (.spawn s.nextRequestId s.selfInfo.addr spec state) ∧
      s.placed spec target env = some rid.node ∧
      ∃ error, .spawnAck s.nextRequestId rid.pid true error ∈ received env.polls
  | .kill rid env =>
    let r := s.kill rid env
    r.2 = .ok () →
      r.1.Sends (.kill s.nextRequestId s.selfInfo.addr rid.pid) ∧ s.CtrlAcked env
  | .setPriority rid priority env =>
    let r := s.setPriority rid priority env
    r.2 = .ok () → r.1.Sends (.setPriority s.nextRequestId s.selfInfo.addr rid.pid priority) ∧
      s.CtrlAcked env
  | .getState rid env =>
    let r := s.getState rid env
    ∀ state, r.2 = .ok state →
      r.1.Sends (.getState s.nextRequestId s.selfInfo.addr rid.pid) ∧
      ∃ error, .getStateReply s.nextRequestId true state error ∈ received env.polls

/-- The ids of the requests that were sent since. -/
def requestedSince (t : DistributedScheduler) : List UInt64 :=
  requestIds (t.sent.drop s.sent.length)

/-- The next id is that of no request sent since, unless the counter has gone around. -/
def FreshSince (t : DistributedScheduler) : Prop :=
  (s.requestedSince t).length < 2^64 → t.nextRequestId ∉ s.requestedSince t

variable {s}

/-- The tracked processes that are not among the changed ones are kept, up to reports of their
status. -/
def Keeps (messages : List ClusterMessage) (changed : RemoteProcessId → Prop)
    (s t : DistributedScheduler) : Prop :=
  ∀ rid, ¬ changed rid → t.spawnedSpecs.lookup rid = s.spawnedSpecs.lookup rid ∧
    ((∀ m ∈ messages, ¬ Reports rid m) → t.remote.lookup rid = s.remote.lookup rid)

/-- A request changes the tracked process that it succeeds on, and no other. -/
def Call.Tracks (s : DistributedScheduler) : Call → Prop
  | .spawn spec target state env =>
    let r := s.spawnWithState spec target state env
    Keeps env.heard (fun rid => r.2 = .ok rid) s r.1
  | .kill rid env =>
    let r := s.kill rid env
    Keeps env.heard (fun killed => r.2 = .ok () ∧ killed = rid) s r.1
  | .setPriority rid priority env =>
    Keeps env.heard (fun _ => False) s (s.setPriority rid priority env).1
  | .getState rid env => Keeps env.heard (fun _ => False) s (s.getState rid env).1

theorem ctrlAcked_of_answer
    (h : ∃ m ∈ received env.polls, ctrlAnswer ⟨s.nextRequestId,kind⟩ m = some (.ok ())) :
    s.CtrlAcked env := by
  obtain ⟨m,hm,hanswer⟩ := h
  obtain ⟨error,rfl | rfl⟩ := ctrlAnswer_ok hanswer
  · exact ⟨error,.inl hm⟩
  · exact ⟨error,.inr hm⟩

theorem Call.matched (s : DistributedScheduler) (c : Call) : c.Matched s := by
  cases c with
  | spawn spec target state env =>
    intro rid hrid
    obtain ⟨e,t,hspawn,-⟩ | ⟨new,t,peer,hspawn,-,hplaced,hsent,hack⟩ :=
      spawnWithState_cases s spec target state env
    · rw [hspawn] at hrid
      cases hrid
    · rw [hspawn] at hrid ⊢
      cases hrid
      exact ⟨⟨peer,hsent⟩,hplaced,hack⟩
  | kill rid env =>
    intro hok
    obtain ⟨e,t,hkill,-⟩ | ⟨t,hkill,-,hsent,hanswer⟩ := kill_cases s rid env
    · rw [hkill] at hok
      cases hok
    · rw [hkill]
      exact ⟨hsent,ctrlAcked_of_answer hanswer⟩
  | setPriority rid priority env =>
    intro hok
    obtain ⟨e,t,hcall,-⟩ | ⟨v,t,peer,hcall,-,hsent,hanswer⟩ :=
      ctrlSlot_lawful.call_cases s rid
        (fun peer => show (s.setPriorityRequest rid priority peer).kind = .setPriority from rfl) env
    · rw [DistributedScheduler.setPriority,hcall] at hok
      cases hok
    · rw [DistributedScheduler.setPriority,hcall]
      exact ⟨⟨peer,hsent⟩,ctrlAcked_of_answer hanswer⟩
  | getState rid env =>
    intro state hstate
    obtain ⟨e,t,hcall,-⟩ | ⟨v,t,peer,hcall,-,hsent,m,hm,hanswer⟩ :=
      getStateSlot_lawful.call_cases s rid
        (fun peer => show (s.getStateRequest rid peer).kind = .getState from rfl) env
    · rw [DistributedScheduler.getState,hcall] at hstate
      cases hstate
    · rw [DistributedScheduler.getState,hcall] at hstate ⊢
      cases hstate
      obtain ⟨error,rfl⟩ := getStateAnswer_ok hanswer
      exact ⟨⟨peer,hsent⟩,error,hm⟩

theorem Follows.freshSince {t : DistributedScheduler} (h : Follows s t) : s.FreshSince t := by
  obtain ⟨n,new,h⟩ := h
  intro hlength
  rw [requestedSince,h.sent,List.drop_left,h.ids] at hlength ⊢
  rw [List.length_map,List.length_range] at hlength
  rw [h.nextRequestId,List.mem_map]
  rintro ⟨k,hk,heq⟩
  rw [List.mem_range] at hk
  have hnat := congrArg UInt64.toNat ((UInt64.add_right_inj _).mp heq)
  rw [UInt64.toNat_ofNat_of_lt' (hk.trans hlength),UInt64.toNat_ofNat_of_lt' hlength] at hnat
  exact hk.ne hnat

theorem follows_spawnWithState (s : DistributedScheduler) (spec : RemoteProcessSpec)
    (target : Option NodeId) (state : Option (List UInt8)) (env : Env) :
    Follows s (s.spawnWithState spec target state env).1 := by
  obtain ⟨e,t,hspawn,ht⟩ | ⟨rid,t,peer,hspawn,ht,-⟩ := spawnWithState_cases s spec target state env
  · rw [hspawn]
    exact ht.follows
  · rw [hspawn]
    exact ht.follows.trans (.of_eq rfl rfl)

theorem follows_kill (s : DistributedScheduler) (rid : RemoteProcessId) (env : Env) :
    Follows s (s.kill rid env).1 := by
  obtain ⟨e,t,hkill,ht⟩ | ⟨t,hkill,ht,-⟩ := kill_cases s rid env
  · rw [hkill]
    exact ht.follows
  · rw [hkill]
    exact ht.follows.trans (.of_eq rfl rfl)

theorem follows_getState (s : DistributedScheduler) (rid : RemoteProcessId) (env : Env) :
    Follows s (s.getState rid env).1 :=
  (getStateSlot_lawful.evolves_call s rid _ env).follows

theorem follows_processEvents (s : DistributedScheduler) (inbox : List Incoming) :
    Follows s (s.processEvents inbox) :=
  (evolves_processEvents s fun _ hi => List.mem_map_of_mem hi).follows

section
variable {messages : List ClusterMessage} {changed : RemoteProcessId → Prop}
  {t u : DistributedScheduler} {rid : RemoteProcessId} {spec : RemoteProcessSpec}

theorem Evolves.keeps (h : Evolves messages s t) (changed : RemoteProcessId → Prop) :
    Keeps messages changed s t :=
  fun rid _ => ⟨by rw [h.spawnedSpecs],h.remote rid⟩

theorem Keeps.trans (h : Keeps messages changed s t) (k : Keeps messages changed t u) :
    Keeps messages changed s u := by
  intro q hq
  obtain ⟨hspecs,hremote⟩ := h q hq
  obtain ⟨hspecs',hremote'⟩ := k q hq
  exact ⟨hspecs'.trans hspecs,fun hm => (hremote' hm).trans (hremote hm)⟩

theorem keeps_track (h : changed rid) : Keeps messages changed s (s.track rid spec) := by
  intro q hq
  have hne : q ≠ rid := fun heq => hq (heq ▸ h)
  exact ⟨Finmap.lookup_insert_of_ne _ hne,fun _ => Finmap.lookup_insert_of_ne _ hne⟩

theorem keeps_untrack (h : changed rid) : Keeps messages changed s (s.untrack rid) := by
  intro q hq
  have hne : q ≠ rid := fun heq => hq (heq ▸ h)
  exact ⟨Finmap.lookup_erase_ne hne,fun _ => Finmap.lookup_erase_ne hne⟩

end

theorem Call.tracks (s : DistributedScheduler) (c : Call) : c.Tracks s := by
  cases c with
  | spawn spec target state env =>
    obtain ⟨e,t,hspawn,ht⟩ | ⟨new,t,peer,hspawn,ht,-⟩ :=
      spawnWithState_cases s spec target state env
    · simp only [Tracks,hspawn]
      exact ht.keeps _
    · simp only [Tracks,hspawn]
      exact (ht.keeps _).trans (keeps_track rfl)
  | kill rid env =>
    obtain ⟨e,t,hkill,ht⟩ | ⟨t,hkill,ht,-⟩ := kill_cases s rid env
    · simp only [Tracks,hkill]
      exact ht.keeps _
    · simp only [Tracks,hkill]
      exact (ht.keeps _).trans (keeps_untrack ⟨trivial,rfl⟩)
  | setPriority rid priority env => exact (ctrlSlot_lawful.evolves_call s rid _ env).keeps _
  | getState rid env => exact (getStateSlot_lawful.evolves_call s rid _ env).keeps _

/-- A call of the scheduler's owner, with what it meets. -/
inductive Op where
  | processEvents (inbox : List Incoming)
  | spawn (spec : RemoteProcessSpec) (target : Option NodeId) (env : Env)
  | kill (rid : RemoteProcessId) (env : Env)
  | setPriority (rid : RemoteProcessId) (priority : UInt8) (env : Env)
  | getState (rid : RemoteProcessId) (env : Env)
  | migrate (rid : RemoteProcessId) (target : Option NodeId) (env : MigrateEnv)
  | tick (env : TickEnv)

variable (s)

def step : Op → Option DistributedScheduler
  | .processEvents inbox => some (s.processEvents inbox)
  | .spawn spec target env => some (s.spawn spec target env).1
  | .kill rid env => some (s.kill rid env).1
  | .setPriority rid priority env => some (s.setPriority rid priority env).1
  | .getState rid env => some (s.getState rid env).1
  | .migrate rid target env => some (s.migrate rid target env).1
  | .tick env => some (s.tick env).1

/-- The requests of a migration, each with the state in which it is made. -/
def migrateCalls (rid : RemoteProcessId) (target : Option NodeId)
    (env : MigrateEnv) : List (DistributedScheduler × Call) :=
  let s := s.processEvents env.drained
  match s.spawnedSpecs.lookup rid with
  | none => []
  | some spec =>
    if target = some rid.node then []
    else
      let r := s.getState rid env.getState
      (s,.getState rid env.getState) ::
        match r.2 with
        | .error _ => []
        | .ok state =>
          let q := r.1.spawnWithState spec target (some state) env.spawn
          (r.1,.spawn spec target (some state) env.spawn) ::
            match q.2 with
            | .error _ => []
            | .ok newRid =>
              [(q.1,.kill (if newRid.node = rid.node then newRid else rid) env.kill)]

variable {s}

structure Attempt where
  state : DistributedScheduler
  oldRid : RemoteProcessId
  spec : RemoteProcessSpec

def respawnAttempts (env : TickEnv) :
    DistributedScheduler → List (RemoteProcessId × RemoteProcessSpec) → List Attempt
  | _, [] => []
  | s, (oldRid,spec)::victims =>
    let r := s.respawn oldRid spec (env.respawn oldRid)
    ⟨s,oldRid,spec⟩::respawnAttempts env
      (r.1.logEvent (respawnEvent oldRid (s.checkpoints.lookup oldRid).isSome r.2)) victims

def failoverAttempts (env : TickEnv) : DistributedScheduler → List NodeId → List Attempt
  | _, [] => []
  | s, id::ids =>
    let s := s.logEvent ("node " ++ toString id ++ " went offline")
    if s.failoverRespawn then
      respawnAttempts env s (s.victims env id) ++
        failoverAttempts env (respawnAll env s (s.victims env id) []).1 ids
    else failoverAttempts env s ids

def attempts (s : DistributedScheduler) (env : TickEnv) : List Attempt :=
  failoverAttempts env (s.detected env) (s.failedNodes env)

/-- The request of an attempt; the process is forgotten when it is made. -/
def Attempt.call (env : TickEnv) (a : Attempt) : DistributedScheduler × Call :=
  (a.state.untrack a.oldRid,
    .spawn a.spec none ((a.state.checkpoints.lookup a.oldRid).map Prod.fst) (env.respawn a.oldRid))

def calls (s : DistributedScheduler) : Op → List (DistributedScheduler × Call)
  | .processEvents _ => []
  | .spawn spec target env => [(s,.spawn spec target none env)]
  | .kill rid env => [(s,.kill rid env)]
  | .setPriority rid priority env => [(s,.setPriority rid priority env)]
  | .getState rid env => [(s,.getState rid env)]
  | .migrate rid target env => s.migrateCalls rid target env
  | .tick env => (s.attempts env).map (Attempt.call env)

theorem follows_logEvent (s : DistributedScheduler) (event : String) :
    Follows s (s.logEvent event) :=
  .of_eq rfl rfl

theorem follows_migrateCalls (s : DistributedScheduler) (rid : RemoteProcessId)
    (target : Option NodeId) (env : MigrateEnv) :
    ∀ c ∈ s.migrateCalls rid target env, Follows s c.1 := by
  have hdrained := follows_processEvents s env.drained
  have hstate := hdrained.trans (follows_getState _ rid env.getState)
  unfold migrateCalls
  dsimp only
  split
  · exact List.forall_mem_nil _
  · split
    · exact List.forall_mem_nil _
    · refine List.forall_mem_cons.mpr ⟨hdrained,?_⟩
      split
      · exact List.forall_mem_nil _
      · refine List.forall_mem_cons.mpr ⟨hstate,?_⟩
        split
        · exact List.forall_mem_nil _
        · rw [List.forall_mem_singleton]
          exact hstate.trans (follows_spawnWithState _ _ _ _ _)

theorem follows_migrate (s : DistributedScheduler) (rid : RemoteProcessId)
    (target : Option NodeId) (env : MigrateEnv) : Follows s (s.migrate rid target env).1 := by
  have hdrained := follows_processEvents s env.drained
  have hstate := hdrained.trans (follows_getState _ rid env.getState)
  unfold migrate
  dsimp only
  split
  · exact hdrained
  · next spec _ =>
    split
    · exact hdrained
    · split
      · exact hstate
      · next state _ =>
        have hspawn := hstate.trans (follows_spawnWithState _ spec target (some state) env.spawn)
        split
        · exact hspawn
        · split
          · exact (hspawn.trans (follows_kill _ _ env.kill)).trans (follows_logEvent _ _)
          · split
            · exact (hspawn.trans (follows_kill _ rid env.kill)).trans (follows_logEvent _ _)
            · exact (hspawn.trans (follows_kill _ rid env.kill)).trans (follows_logEvent _ _)

theorem follows_respawn (s : DistributedScheduler) (oldRid : RemoteProcessId)
    (spec : RemoteProcessSpec) (env : Env) (event : String) :
    Follows s ((s.respawn oldRid spec env).1.logEvent event) :=
  have huntrack : Follows s (s.untrack oldRid) := .of_eq rfl rfl
  (huntrack.trans (follows_spawnWithState _ spec none _ env)).trans (follows_logEvent _ event)

theorem follows_respawnAll (env : TickEnv) (s : DistributedScheduler)
    (victims : List (RemoteProcessId × RemoteProcessSpec)) (events : List String) :
    Follows s (respawnAll env s victims events).1 ∧
      ∀ a ∈ respawnAttempts env s victims, Follows s a.state := by
  induction victims generalizing s events with
  | nil => exact ⟨.refl s,List.forall_mem_nil _⟩
  | cons v victims ih =>
    have hnext := follows_respawn s v.1 v.2 (env.respawn v.1)
    constructor
    · exact (hnext _).trans (ih _ _).1
    · refine List.forall_mem_cons.mpr ⟨.refl s,fun a ha => ?_⟩
      exact (hnext _).trans ((ih _ []).2 a ha)

theorem follows_failover (env : TickEnv) (s : DistributedScheduler) (ids : List NodeId)
    (events : List String) : Follows s (failover env s ids events).1 ∧
      ∀ a ∈ failoverAttempts env s ids, Follows s a.state := by
  induction ids generalizing s events with
  | nil => exact ⟨.refl s,List.forall_mem_nil _⟩
  | cons id ids ih =>
    have hlog := follows_logEvent s ("node " ++ toString id ++ " went offline")
    unfold failover failoverAttempts
    dsimp only
    split
    · have hall := follows_respawnAll env
        (s.logEvent ("node " ++ toString id ++ " went offline"))
        ((s.logEvent ("node " ++ toString id ++ " went offline")).victims env id)
      refine ⟨hlog.trans ((hall _).1.trans (ih _ _).1),fun a ha => ?_⟩
      rcases List.mem_append.mp ha with ha | ha
      · exact hlog.trans ((hall []).2 a ha)
      · exact hlog.trans ((hall []).1.trans ((ih _ []).2 a ha))
    · exact ⟨hlog.trans (ih _ _).1,fun a ha => hlog.trans ((ih _ []).2 a ha)⟩

theorem follows_tick (s : DistributedScheduler) (env : TickEnv) : Follows s (s.tick env).1 ∧
      ∀ c ∈ (s.attempts env).map (Attempt.call env), Follows s c.1 := by
  have hdetected : Follows s (s.detected env) :=
    (follows_processEvents s env.drained).trans (.of_eq rfl rfl)
  obtain ⟨hend,hattempts⟩ := follows_failover env (s.detected env) (s.failedNodes env) []
  refine ⟨hdetected.trans hend,fun c hc => ?_⟩
  obtain ⟨a,ha,rfl⟩ := List.mem_map.mp hc
  exact hdetected.trans ((hattempts a ha).trans (.of_eq rfl rfl))

/-- What a call sends is numbered, and each of its requests is made in a state that it leads to. -/
theorem follows_step {t : DistributedScheduler} {op : Op} (h : s.step op = some t) :
    Follows s t ∧ ∀ c ∈ s.calls op, Follows s c.1 := by
  cases op <;> cases h
  case processEvents inbox => exact ⟨follows_processEvents s inbox,List.forall_mem_nil _⟩
  case spawn spec target env =>
    exact ⟨follows_spawnWithState s spec target none env,List.forall_mem_singleton.mpr (.refl s)⟩
  case kill rid env => exact ⟨follows_kill s rid env,List.forall_mem_singleton.mpr (.refl s)⟩
  case setPriority rid priority env =>
    exact ⟨(ctrlSlot_lawful.evolves_call s rid _ env).follows,
      List.forall_mem_singleton.mpr (.refl s)⟩
  case getState rid env =>
    exact ⟨follows_getState s rid env,List.forall_mem_singleton.mpr (.refl s)⟩
  case migrate rid target env =>
    exact ⟨follows_migrate s rid target env,follows_migrateCalls s rid target env⟩
  case tick env => exact follows_tick s env

theorem tracked_of_acknowledges (h : i.message.acknowledges ≠ none) :
    (s.dispatchIncoming i).remote = s.remote ∧
      (s.dispatchIncoming i).spawnedSpecs = s.spawnedSpecs ∧
      (s.dispatchIncoming i).checkpoints = s.checkpoints := by
  unfold dispatchIncoming
  cases hm : i.message with
  | spawnAck | killAck | setPriorityAck | getStateReply =>
    unfold completeSpawn completeCtrl completeGetState
    dsimp only
    repeat' split
    all_goals exact ⟨rfl,rfl,rfl⟩
  | _ => exact absurd (by rw [hm]; rfl) h

/-- Whatever is called and whatever arrives, a request has an id that no earlier one had, succeeds
on the acknowledgement with this id only, and only such a success changes the tracked processes. -/
theorem requests_matched (s : DistributedScheduler) (ops : List Op) :
    EachStep step (fun t op _ => ∀ c ∈ t.calls op,
      c.2.Matched c.1 ∧ c.2.Tracks c.1 ∧ s.FreshSince c.1) s ops ∧
      Always step (fun s => ∀ i : Incoming, i.message.acknowledges ≠ none →
        (s.dispatchIncoming i).remote = s.remote ∧
          (s.dispatchIncoming i).spawnedSpecs = s.spawnedSpecs ∧
          (s.dispatchIncoming i).checkpoints = s.checkpoints) s ops := by
  constructor
  · refine eachStep_of_step (J := Follows s) (fun t op t' ht hstep => ?_) (.refl s) ops
    obtain ⟨hnext,hcalls⟩ := follows_step hstep
    refine ⟨ht.trans hnext,fun c hc => ⟨c.2.matched c.1,c.2.tracks c.1,?_⟩⟩
    exact (ht.trans (hcalls c hc)).freshSince
  · exact always_of_step (fun _ _ _ _ _ _ => tracked_of_acknowledges)
      (fun _ => tracked_of_acknowledges) ops

end DistributedScheduler
end Aios.Cluster
