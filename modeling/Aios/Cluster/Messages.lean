import Aios.Cluster.Scheduler

/-!
What a message can do: fill a result slot, if it answers the pending request, and report on nodes
and processes. What is tracked is not touched.
-/
namespace Aios.Cluster

open Await List
variable {processes : List RemoteProcessStatus} {rid : RemoteProcessId}
  {polls : List (Poll Incoming)}

namespace DistributedScheduler

variable {s : DistributedScheduler} {i : Incoming} {ρ : Type}

structure Steady (s t : DistributedScheduler) : Prop where
  selfInfo : t.selfInfo = s.selfInfo
  strategy : t.strategy = s.strategy
  spawnedSpecs : t.spawnedSpecs = s.spawnedSpecs
  rrCursor : t.rrCursor = s.rrCursor
  nextRequestId : t.nextRequestId = s.nextRequestId
  failoverRespawn : t.failoverRespawn = s.failoverRespawn

theorem Steady.refl (s : DistributedScheduler) : Steady s s := ⟨rfl,rfl,rfl,rfl,rfl,rfl⟩

theorem Steady.trans {t u : DistributedScheduler} (h : Steady s t) (k : Steady t u) : Steady s u :=
  ⟨k.selfInfo.trans h.selfInfo,k.strategy.trans h.strategy,k.spawnedSpecs.trans h.spawnedSpecs,
    k.rrCursor.trans h.rrCursor,k.nextRequestId.trans h.nextRequestId,
    k.failoverRespawn.trans h.failoverRespawn⟩

variable (s)

theorem steady_dispatchIncoming (i : Incoming) : Steady s (s.dispatchIncoming i) := by
  unfold dispatchIncoming registerNode completeSpawn completeCtrl completeGetState
  dsimp only
  repeat' split
  all_goals exact ⟨rfl,rfl,rfl,rfl,rfl,rfl⟩

theorem steady_processEvents (inbox : List Incoming) : Steady s (s.processEvents inbox) := by
  induction inbox generalizing s with
  | nil => exact .refl s
  | cons i inbox ih => exact (steady_dispatchIncoming s i).trans (ih _)

theorem pending_dispatchIncoming (i : Incoming) :
    (s.dispatchIncoming i).pending = s.pending ∨ (s.dispatchIncoming i).pending = none := by
  unfold dispatchIncoming registerNode completeSpawn completeCtrl completeGetState
  dsimp only
  repeat' split
  all_goals first | exact .inl rfl | exact .inr rfl

variable {s}

section
variable (p : PendingRequest) (m : ClusterMessage)

/-- What a message puts into the slot of the spawned process. -/
def spawnAnswer : ClusterMessage → Option (Except String RemoteProcessId)
  | .spawnAck requestId pid ok error =>
    match p.kind with
    | .spawn node =>
      if p.requestId = requestId then
        some (if ok then .ok ⟨node,pid⟩ else .error (error.getD "spawn rejected by node"))
      else none
    | _ => none
  | _ => none

def ctrlAnswer : ClusterMessage → Option (Except String Unit)
  | .killAck requestId ok error | .setPriorityAck requestId ok error =>
    if p.requestId = requestId then
      some (if ok then .ok () else .error (error.getD "request rejected by node"))
    else none
  | _ => none

def getStateAnswer : ClusterMessage → Option (Except String (List UInt8))
  | .getStateReply requestId ok state error =>
    if p.requestId = requestId then
      some (if ok then .ok state else .error (error.getD "state request rejected by node"))
    else none
  | _ => none

def slots (s : DistributedScheduler) : Option PendingRequest ×
    Option (Except String RemoteProcessId) × Option (Except String Unit) ×
    Option (Except String (List UInt8)) :=
  (s.pending,s.spawnResult,s.ctrlResult,s.getStateResult)

theorem slots_dispatchIncoming (h : i.message.acknowledges = none) :
    (s.dispatchIncoming i).slots = s.slots := by
  unfold dispatchIncoming
  cases hm : i.message with
  | hello info =>
    unfold registerNode
    dsimp only
    split_ifs <;> rfl
  | spawnAck | killAck | setPriorityAck | getStateReply =>
    rw [hm] at h
    cases h
  | _ => rfl

section
variable (h : m.acknowledges ≠ some p.requestId)
include h

theorem spawnAnswer_eq_none : spawnAnswer p m = none := by
  cases m with
  | spawnAck requestId pid ok error =>
    have hne : p.requestId ≠ requestId := fun heq => h (by rw [heq]; rfl)
    unfold spawnAnswer
    dsimp only
    split
    · rw [if_neg hne]
    · rfl
  | _ => rfl

theorem ctrlAnswer_eq_none : ctrlAnswer p m = none := by
  cases m with
  | killAck requestId ok error | setPriorityAck requestId ok error =>
    exact if_neg fun heq => h (by rw [heq]; rfl)
  | _ => rfl

theorem getStateAnswer_eq_none : getStateAnswer p m = none := by
  cases m with
  | getStateReply requestId ok state error => exact if_neg fun heq => h (by rw [heq]; rfl)
  | _ => rfl

end

/-- A slot that only answers to the pending request can fill. -/
structure Lawful (slot : Slot ρ)
    (answer : PendingRequest → ClusterMessage → Option (Except String ρ)) : Prop where
  get_set : ∀ s r, slot.get (slot.set s r) = r
  get_pending : ∀ (s : DistributedScheduler) p, slot.get { s with pending := p } = slot.get s
  get_waiting : ∀ s r peer, slot.get (waiting s r peer) = slot.get s
  get_dispatch : ∀ (s : DistributedScheduler) i, slot.get (s.dispatchIncoming i) =
    (s.pending.bind fun p => answer p i.message).or (slot.get s)
  answer_eq_none : ∀ p m, m.acknowledges ≠ some p.requestId → answer p m = none
  set_steady : ∀ s r, Steady s (slot.set s r)
  set_kept : ∀ s r, (slot.set s r).nodes = s.nodes ∧ (slot.set s r).remote = s.remote ∧
    (slot.set s r).checkpoints = s.checkpoints ∧ (slot.set s r).sent = s.sent

theorem dispatchIncoming_slots (s : DistributedScheduler) (i : Incoming) :
    (s.dispatchIncoming i).spawnResult =
        (s.pending.bind fun p => spawnAnswer p i.message).or s.spawnResult ∧
      (s.dispatchIncoming i).ctrlResult =
        (s.pending.bind fun p => ctrlAnswer p i.message).or s.ctrlResult ∧
      (s.dispatchIncoming i).getStateResult =
        (s.pending.bind fun p => getStateAnswer p i.message).or s.getStateResult := by
  cases hm : i.message.acknowledges with
  | none =>
    have hslots := slots_dispatchIncoming (s := s) hm
    simp only [slots,Prod.mk.injEq] at hslots
    obtain ⟨-,hspawn,hctrl,hstate⟩ := hslots
    have hack (p : PendingRequest) : i.message.acknowledges ≠ some p.requestId := by simp [hm]
    simp [hspawn,hctrl,hstate,spawnAnswer_eq_none _ _ (hack _),ctrlAnswer_eq_none _ _ (hack _),
      getStateAnswer_eq_none _ _ (hack _)]
  | some id =>
    unfold dispatchIncoming
    cases hmessage : i.message with
    | spawnAck requestId pid ok error =>
      unfold completeSpawn
      rcases hp : s.pending with _ | ⟨id,kind⟩
      · simp
      · by_cases hid : id = requestId <;> cases kind <;>
          simp [spawnAnswer,ctrlAnswer,getStateAnswer,hid]
    | killAck requestId ok error | setPriorityAck requestId ok error =>
      unfold completeCtrl
      rcases hp : s.pending with _ | ⟨id,kind⟩
      · simp
      · by_cases hid : id = requestId <;> simp [spawnAnswer,ctrlAnswer,getStateAnswer,hid]
    | getStateReply requestId ok state error =>
      unfold completeGetState
      rcases hp : s.pending with _ | ⟨id,kind⟩
      · simp
      · by_cases hid : id = requestId <;> simp [spawnAnswer,ctrlAnswer,getStateAnswer,hid]
    | _ => simp [hmessage,ClusterMessage.acknowledges] at hm

theorem spawnSlot_lawful : Lawful spawnSlot spawnAnswer where
  get_set _ _ := rfl
  get_pending _ _ := rfl
  get_waiting _ _ _ := rfl
  get_dispatch s i := (dispatchIncoming_slots s i).1
  answer_eq_none := spawnAnswer_eq_none
  set_steady _ _ := ⟨rfl,rfl,rfl,rfl,rfl,rfl⟩
  set_kept _ _ := ⟨rfl,rfl,rfl,rfl⟩

theorem ctrlSlot_lawful : Lawful ctrlSlot ctrlAnswer where
  get_set _ _ := rfl
  get_pending _ _ := rfl
  get_waiting _ _ _ := rfl
  get_dispatch s i := (dispatchIncoming_slots s i).2.1
  answer_eq_none := ctrlAnswer_eq_none
  set_steady _ _ := ⟨rfl,rfl,rfl,rfl,rfl,rfl⟩
  set_kept _ _ := ⟨rfl,rfl,rfl,rfl⟩

theorem getStateSlot_lawful : Lawful getStateSlot getStateAnswer where
  get_set _ _ := rfl
  get_pending _ _ := rfl
  get_waiting _ _ _ := rfl
  get_dispatch s i := (dispatchIncoming_slots s i).2.2
  answer_eq_none := getStateAnswer_eq_none
  set_steady _ _ := ⟨rfl,rfl,rfl,rfl,rfl,rfl⟩
  set_kept _ _ := ⟨rfl,rfl,rfl,rfl⟩

end

section

/-- The ids of the requests among sent messages. -/
def requestIds (sent : List (String × ClusterMessage)) : List UInt64 :=
  sent.filterMap fun q => q.2.requests

/-- What was sent from the one state to the other: the requests have the ids from the counter on,
one after another. -/
structure Numbered (s t : DistributedScheduler) (n : ℕ) (new : List (String × ClusterMessage)) :
    Prop where
  sent : t.sent = s.sent ++ new
  nextRequestId : t.nextRequestId = s.nextRequestId+.ofNat n
  ids : requestIds new = (range n).map fun k => s.nextRequestId+.ofNat k

def Follows (s t : DistributedScheduler) : Prop := ∃ n new, Numbered s t n new

theorem Follows.of_eq {s t : DistributedScheduler} (hid : t.nextRequestId = s.nextRequestId)
    (hsent : t.sent = s.sent) : Follows s t :=
  ⟨0,[],by rw [hsent,append_nil],by rw [hid]; simp,rfl⟩

theorem Follows.refl (s : DistributedScheduler) : Follows s s := .of_eq rfl rfl

theorem Follows.trans {s t u : DistributedScheduler} (h : Follows s t) (k : Follows t u) :
    Follows s u := by
  obtain ⟨m,new,h⟩ := h
  obtain ⟨n,newer,k⟩ := k
  refine ⟨m+n,new ++ newer,?_,?_,?_⟩
  · rw [k.sent,h.sent,append_assoc]
  · rw [k.nextRequestId,h.nextRequestId,UInt64.ofNat_add,UInt64.add_assoc]
  · rw [requestIds,filterMap_append,range_add,map_append,map_map,← requestIds,← requestIds,h.ids,
      k.ids,h.nextRequestId]
    congr 1
    refine map_congr_left fun j _ => ?_
    rw [Function.comp_apply,UInt64.ofNat_add,UInt64.add_assoc]

theorem Follows.sent_prefix {s t : DistributedScheduler} (h : Follows s t) : s.sent <+: t.sent := by
  obtain ⟨n,new,h⟩ := h
  exact ⟨new,h.sent.symm⟩

theorem follows_waiting (s : DistributedScheduler) (r : Request) (peer : String) :
    Follows s (s.waiting r peer) := by
  refine ⟨1,[(peer,r.message s.nextRequestId)],rfl,rfl,?_⟩
  simp [requestIds,r.carries,range_succ]

/-- The answer to a request of another node is no request. -/
theorem requests_spawnReply (executor : Option ProcessExecutor) (id : UInt64)
    (spec : RemoteProcessSpec) (state : Option (List UInt8)) :
    (spawnReply executor id spec state).requests = none := by
  unfold spawnReply
  repeat' split
  all_goals rfl

theorem requests_getStateReply (executor : Option ProcessExecutor) (id : UInt64) (pid : ℕ) :
    (getStateReply executor id pid).requests = none := by
  unfold getStateReply
  repeat' split
  all_goals rfl

theorem requests_ctrlReply (executor : Option ProcessExecutor)
    (f : ProcessExecutor → Except String Unit) {ack : Bool → Option String → ClusterMessage}
    (hack : ∀ ok error, (ack ok error).requests = none) :
    (ctrlReply executor f ack).requests = none := by
  unfold ctrlReply
  repeat' split
  all_goals exact hack _ _

theorem follows_post {s : DistributedScheduler} (peer : String) {m : ClusterMessage}
    (h : m.requests = none) : Follows s (s.post peer m) :=
  ⟨0,[(peer,m)],rfl,by simp [post],by simp [requestIds,h]⟩

theorem follows_dispatchIncoming (s : DistributedScheduler) (i : Incoming) :
    Follows s (s.dispatchIncoming i) := by
  unfold dispatchIncoming
  cases i.message with
  | hello info =>
    dsimp only
    split
    · exact .refl s
    · unfold registerNode
      refine Follows.trans (.of_eq ?_ ?_) (follows_post info.addr rfl)
      all_goals
        dsimp only
        split_ifs <;> rfl
  | spawn requestId source spec state =>
    exact follows_post source (requests_spawnReply _ _ _ _)
  | getState requestId source pid => exact follows_post source (requests_getStateReply _ _ _)
  | kill requestId source pid =>
    exact follows_post source (requests_ctrlReply _ _ fun _ _ => rfl)
  | setPriority requestId source pid priority =>
    exact follows_post source (requests_ctrlReply _ _ fun _ _ => rfl)
  | statusRequest source => exact follows_post source rfl
  | spawnAck | killAck | setPriorityAck | getStateReply =>
    unfold completeSpawn completeCtrl completeGetState
    dsimp only
    repeat' split
    all_goals exact .of_eq rfl rfl
  | metrics | checkpoint | statusReply => exact .of_eq rfl rfl

def Reports (rid : RemoteProcessId) : ClusterMessage → Prop
  | .statusReply processes => ∃ p ∈ processes, p.id = rid
  | _ => False

structure Evolves (messages : List ClusterMessage) (s t : DistributedScheduler) : Prop where
  selfInfo : t.selfInfo = s.selfInfo
  strategy : t.strategy = s.strategy
  spawnedSpecs : t.spawnedSpecs = s.spawnedSpecs
  failoverRespawn : t.failoverRespawn = s.failoverRespawn
  nodes : ∀ id ∈ s.nodes, id ∈ t.nodes
  remote : ∀ rid, (∀ m ∈ messages, ¬ Reports rid m) → t.remote.lookup rid = s.remote.lookup rid
  known : ∀ rid ∈ s.remote, rid ∈ t.remote
  follows : Follows s t

variable {messages : List ClusterMessage} {t u : DistributedScheduler} {slot : Slot ρ}
  {answer : PendingRequest → ClusterMessage → Option (Except String ρ)}

theorem Evolves.refl (s : DistributedScheduler) : Evolves messages s s :=
  ⟨rfl,rfl,rfl,rfl,fun _ h => h,fun _ _ => rfl,fun _ h => h,.refl s⟩

theorem Evolves.trans (h : Evolves messages s t) (k : Evolves messages t u) :
    Evolves messages s u where
  selfInfo := k.selfInfo.trans h.selfInfo
  strategy := k.strategy.trans h.strategy
  spawnedSpecs := k.spawnedSpecs.trans h.spawnedSpecs
  failoverRespawn := k.failoverRespawn.trans h.failoverRespawn
  nodes id hid := k.nodes id (h.nodes id hid)
  remote rid hrid := (k.remote rid hrid).trans (h.remote rid hrid)
  known rid hrid := k.known rid (h.known rid hrid)
  follows := h.follows.trans k.follows

theorem Evolves.mono {more : List ClusterMessage} (h : Evolves messages s t)
    (hsub : messages ⊆ more) : Evolves more s t :=
  { h with remote := fun rid hrid => h.remote rid fun m hm => hrid m (hsub hm) }

theorem lookup_foldl_insert (h : ∀ p ∈ processes, p.id ≠ rid)
    (remote : Finmap fun _ : RemoteProcessId => RemoteProcessStatus) :
    (processes.foldl (fun remote p => remote.insert p.id p) remote).lookup rid =
      remote.lookup rid := by
  induction processes generalizing remote with
  | nil => rfl
  | cons p processes ih =>
    obtain ⟨hp,hprocesses⟩ := forall_mem_cons.mp h
    rw [foldl_cons,ih hprocesses,Finmap.lookup_insert_of_ne _ hp.symm]

theorem mem_foldl_insert {remote : Finmap fun _ : RemoteProcessId => RemoteProcessStatus}
    (h : rid ∈ remote) : rid ∈ processes.foldl (fun remote p => remote.insert p.id p) remote := by
  induction processes generalizing remote with
  | nil => exact h
  | cons p processes ih => exact ih (Finmap.mem_insert.mpr (.inr h))

variable (s)

/-- A message can add a node, or the statuses that it reports. -/
theorem dispatchIncoming_tables (i : Incoming) :
    ((s.dispatchIncoming i).nodes = s.nodes ∨
        ∃ id entry, (s.dispatchIncoming i).nodes = s.nodes.insert id entry) ∧
      ((s.dispatchIncoming i).remote = s.remote ∨
        ∃ processes, i.message = .statusReply processes ∧ (s.dispatchIncoming i).remote =
          processes.foldl (fun remote p => remote.insert p.id p) s.remote) := by
  unfold dispatchIncoming registerNode completeSpawn completeCtrl completeGetState logEvent post
  dsimp only
  repeat' split
  all_goals
    refine ⟨?_,?_⟩
    · first | exact .inl rfl | exact .inr ⟨_,_,rfl⟩
    · first
        | exact .inl rfl
        | next hmessage => exact .inr ⟨_,hmessage,rfl⟩

theorem evolves_dispatchIncoming (h : i.message ∈ messages) :
    Evolves messages s (s.dispatchIncoming i) := by
  have hsteady := steady_dispatchIncoming s i
  obtain ⟨hnodes,hremote⟩ := dispatchIncoming_tables s i
  refine ⟨hsteady.selfInfo,hsteady.strategy,hsteady.spawnedSpecs,hsteady.failoverRespawn,
    fun id hid => ?_,fun rid hrid => ?_,fun rid hrid => ?_,follows_dispatchIncoming s i⟩
  · obtain heq | ⟨id',entry,heq⟩ := hnodes <;> rw [heq]
    · exact hid
    · exact Finmap.mem_insert.mpr (.inr hid)
  · obtain heq | ⟨processes,hmessage,heq⟩ := hremote <;> rw [heq]
    have hnot := hrid i.message h
    rw [hmessage] at hnot
    exact lookup_foldl_insert (fun p hp hid => hnot ⟨p,hp,hid⟩) _
  · obtain heq | ⟨processes,-,heq⟩ := hremote <;> rw [heq]
    · exact hrid
    · exact mem_foldl_insert hrid

theorem evolves_processEvents {inbox : List Incoming}
    (h : ∀ i ∈ inbox, i.message ∈ messages) : Evolves messages s (s.processEvents inbox) := by
  induction inbox generalizing s with
  | nil => exact .refl s
  | cons i inbox ih =>
    obtain ⟨hi,hinbox⟩ := forall_mem_cons.mp h
    exact (evolves_dispatchIncoming s hi).trans (ih _ hinbox)

variable {s}

def received (polls : List (Poll Incoming)) : List ClusterMessage :=
  polls.filterMap fun
    | .message i => some i.message
    | _ => none

theorem mem_received (h : .message i ∈ polls) : i.message ∈ received polls :=
  mem_filterMap.mpr ⟨_,h,rfl⟩

/-- All messages that are handled in the course of a request. -/
def Env.heard (env : Env) : List ClusterMessage :=
  env.drained.map Incoming.message ++ received env.polls

theorem Env.mem_heard_of_drained (env : Env) : ∀ i ∈ env.drained, i.message ∈ env.heard :=
  fun _ hi => mem_append_left _ (mem_map_of_mem hi)

theorem evolves_waiting (s : DistributedScheduler) (r : Request) (peer : String) :
    Evolves messages s (s.waiting r peer) :=
  ⟨rfl,rfl,rfl,rfl,fun _ h => h,fun _ _ => rfl,fun _ h => h,follows_waiting s r peer⟩

section
variable (hslot : Lawful slot answer) (s : DistributedScheduler)
include hslot

theorem Lawful.evolves_set (r : Option (Except String ρ)) : Evolves messages s (slot.set s r) := by
  obtain ⟨hnodes,hremote,-,hsent⟩ := hslot.set_kept s r
  have hsteady := hslot.set_steady s r
  exact ⟨hsteady.selfInfo,hsteady.strategy,hsteady.spawnedSpecs,hsteady.failoverRespawn,
    fun _ h => hnodes ▸ h,fun _ _ => by rw [hremote],fun _ h => hremote ▸ h,
    .of_eq hsteady.nextRequestId hsent⟩

theorem Lawful.evolves_exchange (r : Request) (peer : String) (env : Env) :
    Evolves env.heard (s.waiting r peer) (exchange slot s r peer env).1 := by
  unfold exchange
  cases env.send with
  | error e => exact .refl _
  | ok u =>
    have hended : Evolves env.heard (s.waiting r peer)
        (await dispatchIncoming (fun s => (slot.get s).isSome) (s.waiting r peer) env.polls).1 :=
      await_invariant (fun t _ hi ht _ => ht.trans (evolves_dispatchIncoming t
        (mem_append_right _ (mem_received hi)))) (.refl _)
    dsimp only
    split
    · exact hended
    · refine hended.trans (Evolves.trans ?_ (hslot.evolves_set _ none))
      exact ⟨rfl,rfl,rfl,rfl,fun _ h => h,fun _ _ => rfl,fun _ h => h,.of_eq rfl rfl⟩

theorem Lawful.evolves_call (rid : RemoteProcessId) (r : String → Request) (env : Env) :
    Evolves env.heard s (call slot s rid r env).1 := by
  have hstart := (evolves_processEvents s env.mem_heard_of_drained).trans
    (hslot.evolves_set (s.processEvents env.drained) none)
  unfold call
  dsimp only
  split
  · exact hstart
  · exact (hstart.trans (evolves_waiting _ _ _)).trans (hslot.evolves_exchange _ _ _ env)

theorem Lawful.sent_exchange (r : Request) (peer : String) (env : Env) :
    (peer,r.message s.nextRequestId) ∈ (exchange slot s r peer env).1.sent :=
  (hslot.evolves_exchange s r peer env).follows.sent_prefix.subset
    (mem_append_right _ mem_cons_self)

end

section
variable (s : DistributedScheduler) (spec : RemoteProcessSpec) (target : Option NodeId)

/-- Choosing a node moves the cursor only. -/
theorem chooseNode_fst : (s.chooseNode spec target).1 =
    { s with rrCursor := (s.chooseNode spec target).1.rrCursor } := by
  unfold chooseNode selectNode
  dsimp only
  repeat' split
  all_goals rfl

theorem evolves_chooseNode : Evolves messages s (s.chooseNode spec target).1 := by
  rw [chooseNode_fst]
  exact ⟨rfl,rfl,rfl,rfl,fun _ h => h,fun _ _ => rfl,fun _ h => h,.of_eq rfl rfl⟩

end

end
end DistributedScheduler
end Aios.Cluster
