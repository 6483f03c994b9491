import Aios.Cluster.Requests

/-!
The outcome of a request. The first message with its id decides: an acknowledgement of another kind
also ends the wait of a spawn, without an answer.
-/
namespace Aios.Cluster

open Await List Option Finmap
variable {before : List Incoming} {r : Request} {peer : String}

namespace DistributedScheduler

variable {s : DistributedScheduler} {i : Incoming} {ρ : Type} {p : PendingRequest}
  {v : Except String ρ}

def Tracked (s : DistributedScheduler) (rid : RemoteProcessId) (spec : RemoteProcessSpec) : Prop :=
  s.spawnedSpecs.lookup rid = some spec ∧ rid ∈ s.remote

section

def Acks (id : UInt64) (i : Incoming) : Bool := i.message.acknowledges = some id

theorem acks_iff {id : UInt64} : Acks id i = true ↔ i.message.acknowledges = some id :=
  decide_eq_true_iff

theorem slots_of_not_acks (hp : s.pending = some p) (h : Acks p.requestId i = false) :
    (s.dispatchIncoming i).slots = s.slots := by
  have hid : i.message.acknowledges ≠ some p.requestId := of_decide_eq_false h
  cases hm : i.message with
  | spawnAck requestId | killAck requestId | setPriorityAck requestId | getStateReply requestId =>
    have hne : p.requestId ≠ requestId := fun h => hid (by rw [hm,h]; rfl)
    simp [dispatchIncoming,completeSpawn,completeCtrl,completeGetState,hm,hp,hne]
  | _ => exact slots_dispatchIncoming (by rw [hm]; rfl)

/-- The acknowledgement of a request: the first message with its id, with the ones before. -/
def acknowledgement (id : UInt64) (env : Env) : Option (List Incoming × Incoming) :=
  match env.send with
  | .error _ => none
  | .ok () => decision (Acks id) env.polls

variable {slot : Slot ρ} {answer : PendingRequest → ClusterMessage → Option (Except String ρ)}
  {env : Env} {node : NodeId}

def Waits (slot : Slot ρ) (p : PendingRequest) (s : DistributedScheduler) : Prop :=
  s.pending = some p ∧ slot.get s = none

theorem Lawful.waits_dispatch (hslot : Lawful slot answer) (h : Waits slot p s)
    (hi : Acks p.requestId i = false) : Waits slot p (s.dispatchIncoming i) := by
  obtain ⟨hpending,hempty⟩ := h
  have hid : i.message.acknowledges ≠ some p.requestId := of_decide_eq_false hi
  constructor
  · have hslots := slots_of_not_acks hpending hi
    simp only [slots,Prod.mk.injEq] at hslots
    rw [hslots.1,hpending]
  · rw [hslot.get_dispatch,hpending,bind_some,hslot.answer_eq_none p _ hid,hempty]
    rfl

theorem Lawful.waits_waiting (hslot : Lawful slot answer) (hempty : slot.get s = none)
    (r : Request) (peer : String) :
    Waits slot ⟨s.nextRequestId,r.kind⟩ (s.waiting r peer) :=
  ⟨rfl,by rw [hslot.get_waiting,hempty]⟩

theorem Waits.not_done {t : DistributedScheduler} (h : Waits slot p t) :
    (slot.get t).isSome = false := by
  rw [h.2]
  rfl

theorem Lawful.exchange_of_answer (hslot : Lawful slot answer) (hempty : slot.get s = none)
    (r : Request) (peer : String) (hack : acknowledgement s.nextRequestId env = some (before,i))
    (hv : answer ⟨s.nextRequestId,r.kind⟩ i.message = some v) :
    exchange slot s r peer env =
      (slot.set { (s.waiting r peer).processEvents (before ++ [i]) with pending := none } none,
        v) := by
  have hwaiting := hslot.waits_waiting hempty r peer
  have hstep (t : DistributedScheduler) (j : Incoming) := hslot.waits_dispatch (s := t) (i := j)
    (p := ⟨s.nextRequestId,r.kind⟩)
  unfold acknowledgement at hack
  cases hsend : env.send with
  | error e =>
    rw [hsend] at hack
    cases hack
  | ok u =>
    rw [hsend] at hack
    obtain ⟨hpending,hnone⟩ := invariant_foldl hstep hwaiting hack
    have hget : slot.get ((before.foldl dispatchIncoming (s.waiting r peer)).dispatchIncoming i) =
        some v := by
      rw [hslot.get_dispatch,hpending,bind_some,hv]
      rfl
    have hended := await_of_decision (fun s => (slot.get s).isSome) hstep
      (fun _ ht => ht.not_done) hwaiting hack (by rw [hget]; rfl)
    unfold exchange
    simp only [hsend,hended,Bool.false_eq_true,if_false,hslot.get_pending,hget,
      getD_some,processEvents,foldl_append,foldl_cons,foldl_nil]

theorem pending_of_acks {id : UInt64} (hp : s.pending = some ⟨id,.spawn node⟩)
    (h : Acks id i = true) : (s.dispatchIncoming i).pending = none := by
  have hid := acks_iff.mp h
  cases hm : i.message with
  | spawnAck | killAck | setPriorityAck | getStateReply =>
    rw [hm] at hid
    cases hid
    simp [dispatchIncoming,completeSpawn,completeCtrl,completeGetState,hm,hp]
  | _ =>
    rw [hm] at hid
    cases hid

/-- A spawn that gets no answer takes every message that comes. -/
theorem exchange_spawn_of_no_answer (peer : String) (hempty : s.spawnResult = none)
    (hkind : r.kind = .spawn node) (hsend : env.send = .ok ())
    (hno : ∀ q, decision (Acks s.nextRequestId) env.polls = some q →
      spawnAnswer ⟨s.nextRequestId,.spawn node⟩ q.2.message = none) :
    (∀ rid, (exchange spawnSlot s r peer env).2 ≠ .ok rid) ∧
      (exchange spawnSlot s r peer env).1.checkpoints =
        ((s.waiting r peer).processEvents (delivered env.polls)).checkpoints := by
  have hwaiting := spawnSlot_lawful.waits_waiting hempty r peer
  rw [hkind] at hwaiting
  have hstep (t : DistributedScheduler) (j : Incoming) :=
    spawnSlot_lawful.waits_dispatch (s := t) (i := j) (p := ⟨s.nextRequestId,.spawn node⟩)
  -- Once the wait has ended without an answer, no message can bring one.
  let K (t : DistributedScheduler) : Prop := t.pending = none ∧ spawnSlot.get t = none
  have hdead (t : DistributedScheduler) (j : Incoming) (ht : K t) : K (t.dispatchIncoming j) := by
    constructor
    · obtain hsame | hnone := pending_dispatchIncoming t j
      · rw [hsame,ht.1]
      · exact hnone
    · rw [spawnSlot_lawful.get_dispatch,ht.1,ht.2]
      rfl
  have hlost (q : List Incoming × Incoming)
      (hq : decision (Acks s.nextRequestId) env.polls = some q) :
      K ((q.1.foldl dispatchIncoming (s.waiting r peer)).dispatchIncoming q.2) := by
    obtain ⟨hpending,hnone⟩ := invariant_foldl hstep hwaiting hq
    refine ⟨pending_of_acks hpending (decides_of_decision hq),?_⟩
    rw [spawnSlot_lawful.get_dispatch,hpending,bind_some,hno q hq,hnone]
    rfl
  obtain ⟨hended,htaken⟩ := await_of_undecided (fun t => (spawnSlot.get t).isSome) hstep
    (fun _ ht => ht.not_done) hdead (fun t ht => by rw [ht.2]; rfl) hwaiting hlost
  have hget := not_isSome_iff_eq_none.mp (Bool.eq_false_iff.mp hended)
  have htaken := congrArg checkpoints htaken
  unfold exchange
  simp only [hsend]
  split
  · exact ⟨nofun,htaken⟩
  · rw [spawnSlot_lawful.get_pending,hget]
    exact ⟨nofun,htaken⟩

/-- A spawn succeeds precisely if its acknowledgement is the positive one. -/
theorem exchange_spawn_ok_iff (hempty : s.spawnResult = none) (hkind : r.kind = .spawn node)
    {rid : RemoteProcessId} :
    (exchange spawnSlot s r peer env).2 = .ok rid ↔
      ∃ q, acknowledgement s.nextRequestId env = some q ∧
        spawnAnswer ⟨s.nextRequestId,.spawn node⟩ q.2.message = some (.ok rid) := by
  constructor
  · intro hok
    by_contra hnone
    have hsend : env.send = .ok () := by
      cases hsend : env.send with
      | error e => simp [exchange,hsend] at hok
      | ok u => rfl
    refine (exchange_spawn_of_no_answer peer hempty hkind hsend fun q hq => ?_).1 rid hok
    replace hq : acknowledgement s.nextRequestId env = some q := by rw [acknowledgement,hsend,hq]
    cases hanswer : spawnAnswer ⟨s.nextRequestId,.spawn node⟩ q.2.message with
    | none => rfl
    | some v =>
      rw [← hkind] at hanswer
      rw [spawnSlot_lawful.exchange_of_answer hempty r peer hq hanswer] at hok
      rw [hkind,show v = .ok rid from hok] at hanswer
      exact absurd ⟨q,hq,hanswer⟩ hnone
  · rintro ⟨⟨before,i⟩,hack,hanswer⟩
    rw [← hkind] at hanswer
    rw [spawnSlot_lawful.exchange_of_answer hempty r peer hack hanswer]

end

def storeCheckpoint (checkpoints : Finmap fun _ : RemoteProcessId => List UInt8 × ℕ)
    (i : Incoming) : Finmap fun _ : RemoteProcessId => List UInt8 × ℕ :=
  match i.message with
  | .checkpoint _ rid state => checkpoints.insert rid (state,i.now)
  | _ => checkpoints

theorem checkpoints_dispatchIncoming (s : DistributedScheduler) :
    (s.dispatchIncoming i).checkpoints = storeCheckpoint s.checkpoints i := by
  unfold dispatchIncoming storeCheckpoint registerNode completeSpawn completeCtrl completeGetState
    logEvent post
  cases i.message with
  | _ =>
    dsimp only
    repeat' split
    all_goals rfl

theorem checkpoints_processEvents (s : DistributedScheduler) (inbox : List Incoming) :
    (s.processEvents inbox).checkpoints = inbox.foldl storeCheckpoint s.checkpoints := by
  induction inbox generalizing s with
  | nil => rfl
  | cons i inbox ih =>
    rw [foldl_cons,← checkpoints_dispatchIncoming]
    exact ih _

def noteNode (self : NodeId) (nodes : Finmap fun _ : NodeId => NodeEntry) (i : Incoming) :
    Finmap fun _ : NodeId => NodeEntry :=
  match i.message with
  | .hello info =>
    if info.id = self then nodes
    else nodes.insert info.id <| match nodes.lookup info.id with
      | some node =>
        { node with addr := info.addr, name := info.name, tier := info.tier, status := .online }
      | none => info.toNodeEntry
  | .metrics id metrics =>
    nodes.insert id <| match nodes.lookup id with
      | some node => { node with metrics := metrics }
      | none => ⟨"node-" ++ toString id,"",0,.unknown,metrics⟩
  | _ => nodes

theorem nodes_dispatchIncoming_eq :
    (s.dispatchIncoming i).nodes = noteNode s.selfInfo.id s.nodes i := by
  unfold dispatchIncoming noteNode completeSpawn completeCtrl completeGetState
  cases i.message with
  | hello info =>
    dsimp only
    split
    · rfl
    · unfold registerNode
      dsimp only
      split_ifs <;> rfl
  | metrics id metrics => rfl
  | _ =>
    dsimp only
    repeat' split
    all_goals rfl

theorem nodes_processEvents (s : DistributedScheduler) (inbox : List Incoming) :
    (s.processEvents inbox).nodes = inbox.foldl (noteNode s.selfInfo.id) s.nodes := by
  induction inbox generalizing s with
  | nil => rfl
  | cons i inbox ih =>
    rw [foldl_cons,← nodes_dispatchIncoming_eq,← (steady_dispatchIncoming s i).selfInfo]
    exact ih _

theorem nodes_mem_processEvents (s : DistributedScheduler) (inbox : List Incoming) {id : NodeId}
    (h : id ∈ s.nodes) : id ∈ (s.processEvents inbox).nodes :=
  (evolves_processEvents s fun _ hi => mem_map_of_mem hi).nodes id h

section
variable {spec : RemoteProcessSpec} {id : NodeId} {node : NodeEntry} {env : Env}
  {rid : RemoteProcessId}

theorem mem_candidates :
    (id,node) ∈ s.candidates spec ↔ s.nodes.lookup id = some node ∧ s.Eligible spec id node := by
  simp only [candidates,mem_filterMap,map_eq_some_iff,filter_eq_some_iff,
    Prod.mk.injEq,decide_eq_true_eq]
  constructor
  · rintro ⟨_,-,_,⟨hlookup,heligible⟩,rfl,rfl⟩
    exact ⟨hlookup,heligible⟩
  · rintro ⟨hlookup,heligible⟩
    exact ⟨id,mem_sortedKeys.mpr (mem_of_lookup_eq_some hlookup),node,⟨hlookup,heligible⟩,rfl,rfl⟩

theorem mem_of_minBy {α : Type} {greater : α → α → Bool} {l : List α} {x : α}
    (h : minBy greater l = some x) : x ∈ l := by
  cases l with
  | nil => cases h
  | cons y l =>
    cases h
    induction l generalizing y with
    | nil => exact mem_cons_self
    | cons z l ih =>
      rw [foldl_cons]
      split
      · exact mem_cons_of_mem _ (ih z)
      · have hmem := ih y
        rw [mem_cons] at hmem ⊢
        exact hmem.imp_right (mem_cons_of_mem _)

theorem exists_candidate_of_selectNode (h : (s.selectNode spec).2 = some id) :
    ∃ node, (id,node) ∈ s.candidates spec := by
  unfold selectNode at h
  dsimp only at h
  split at h
  · cases h
  · split at h
    all_goals
      obtain ⟨⟨_,node⟩,hmem,rfl⟩ := map_eq_some_iff.mp h
      first
        | exact ⟨node,mem_of_getElem? hmem⟩
        | exact ⟨node,mem_of_minBy hmem⟩

theorem nodes_chooseNode (s : DistributedScheduler) (spec : RemoteProcessSpec)
    (target : Option NodeId) : (s.chooseNode spec target).1.nodes = s.nodes := by
  rw [chooseNode_fst]

/-- The process of a spawn with free placement: on the picked node, with the process id of a
positive acknowledgement. -/
def answered (s : DistributedScheduler) (spec : RemoteProcessSpec) (env : Env) :
    Option RemoteProcessId :=
  (s.placed spec none env).bind fun node =>
    (acknowledgement s.nextRequestId env).bind fun q =>
      match q.2.message with
      | .spawnAck _ pid true _ => some ⟨node,pid⟩
      | _ => none

/-- The messages that the wait of a spawn takes: up to the acknowledgement, or all. -/
def awaited (id : UInt64) (env : Env) : List Incoming :=
  match env.send with
  | .error _ => []
  | .ok () =>
    match decision (Acks id) env.polls with
    | none => delivered env.polls
    | some (before,i) =>
      match i.message with
      | .spawnAck .. => before ++ [i]
      | _ => delivered env.polls

theorem checkpoints_exchange_spawn {target : NodeId} (hempty : s.spawnResult = none)
    (hkind : r.kind = .spawn target) (peer : String) (env : Env) :
    (exchange spawnSlot s r peer env).1.checkpoints =
      (awaited s.nextRequestId env).foldl storeCheckpoint s.checkpoints := by
  have hfold (inbox : List Incoming) : ((s.waiting r peer).processEvents inbox).checkpoints =
    inbox.foldl storeCheckpoint s.checkpoints := checkpoints_processEvents _ _
  unfold awaited
  cases hsend : env.send with
  | error e =>
    unfold exchange
    rw [hsend]
    rfl
  | ok u =>
    dsimp only
    have hall := exchange_spawn_of_no_answer peer hempty hkind hsend
    rw [hfold] at hall
    cases hdecision : decision (Acks s.nextRequestId) env.polls with
    | none => exact (hall (by rw [hdecision]; exact nofun)).2
    | some q =>
      obtain ⟨before,i⟩ := q
      dsimp only
      have hid := acks_iff.mp (decides_of_decision hdecision)
      split
      · next requestId pid ok error hm =>
        rw [hm] at hid
        cases hid
        have hanswer : spawnAnswer ⟨s.nextRequestId,r.kind⟩ i.message = some (if ok then
            .ok ⟨target,pid⟩ else .error (error.getD "spawn rejected by node")) := by
          rw [hm,hkind]
          exact if_pos rfl
        rw [spawnSlot_lawful.exchange_of_answer hempty r peer
          (by rw [acknowledgement,hsend,hdecision]) hanswer]
        exact hfold _
      · next hnot =>
        refine (hall fun q hq => ?_).2
        rw [hdecision] at hq
        cases hq
        unfold spawnAnswer
        split
        · next requestId pid ok error hm => exact absurd hm (hnot _ _ _ _)
        · rfl

/-- All messages that a spawn with free placement takes. -/
def met (s : DistributedScheduler) (spec : RemoteProcessSpec) (env : Env) : List Incoming :=
  env.drained ++ (s.placed spec none env).elim [] fun _ => awaited s.nextRequestId env

def handled (s : DistributedScheduler) (env : Env) : List Incoming :=
  env.drained ++ (acknowledgement s.nextRequestId env).elim [] fun q => q.1 ++ [q.2]

theorem answered_eq_some_iff :
    s.answered spec env = some rid ↔ s.placed spec none env = some rid.node ∧
      ∃ q, acknowledgement s.nextRequestId env = some q ∧
        spawnAnswer ⟨s.nextRequestId,.spawn rid.node⟩ q.2.message = some (.ok rid) := by
  unfold answered
  simp only [bind_eq_some_iff]
  constructor
  · rintro ⟨node,hplaced,q,hq,hmatch⟩
    split at hmatch
    · next hm =>
      cases hmatch
      have hacks : Acks s.nextRequestId q.2 = true := by
        unfold acknowledgement at hq
        split at hq
        · cases hq
        · exact decides_of_decision hq
      have hid := acks_iff.mp hacks
      rw [hm] at hid
      cases hid
      exact ⟨hplaced,q,hq,by rw [hm]; simp [spawnAnswer]⟩
    · cases hmatch
  · rintro ⟨hplaced,q,hq,hanswer⟩
    obtain ⟨-,error,hm⟩ := spawnAnswer_ok hanswer
    exact ⟨rid.node,hplaced,q,hq,by rw [hm]⟩

theorem answered_of_ok {state : Option (List UInt8)}
    (h : (s.spawnWithState spec none state env).2 = .ok rid) :
    s.answered spec env = some rid := by
  rw [answered_eq_some_iff]
  unfold spawnWithState at h
  dsimp only at h
  split at h
  · cases h
  · next node hnode =>
    split at h
    · cases h
    · next entry hentry =>
      split at h
      · cases h
      · next new hnew =>
        cases h
        have hkind : ((s.placing env).spawnRequest spec state node entry.addr).kind =
          .spawn node := rfl
        obtain ⟨q,hq,hanswer⟩ := (exchange_spawn_ok_iff
          (spawnResult_placed s spec none env) hkind).mp hnew
        obtain ⟨hnew,-⟩ := spawnAnswer_ok hanswer
        cases hnew
        rw [nextRequestId_placed] at hq hanswer
        exact ⟨hnode,q,hq,hanswer⟩

theorem spawnWithState_of_unanswered (state : Option (List UInt8))
    (h : s.answered spec env = none) :
    ∃ e t, s.spawnWithState spec none state env = (t,.error e) ∧ Evolves env.heard s t := by
  obtain herror | ⟨rid,t,peer,hspawn,-⟩ := spawnWithState_cases s spec none state env
  · exact herror
  · have hanswered := answered_of_ok (congrArg Prod.snd hspawn)
    rw [h] at hanswered
    cases hanswered

theorem spawnWithState_of_answered (state : Option (List UInt8))
    (h : s.answered spec env = some rid) :
    ∃ t, s.spawnWithState spec none state env = (t.track rid spec,.ok rid) ∧
      Evolves env.heard s t ∧
      t.nextRequestId = s.nextRequestId+1 ∧
      ∃ peer, (peer,.spawn s.nextRequestId s.selfInfo.addr spec state) ∈ t.sent := by
  obtain ⟨hplaced,⟨before,i⟩,hq,hanswer⟩ := answered_eq_some_iff.mp h
  obtain ⟨entry,hmem⟩ := exists_candidate_of_selectNode hplaced
  obtain ⟨hentry,-⟩ := mem_candidates.mp hmem
  have hid := nextRequestId_placed s spec none env
  have hspawn := spawnSlot_lawful.exchange_of_answer (spawnResult_placed s spec none env)
    ((s.placing env).spawnRequest spec state rid.node entry.addr) entry.addr (hid ▸ hq)
    (hid ▸ hanswer)
  have hevolves := (((evolves_placing s env).trans (evolves_chooseNode _ spec none)).trans
    (evolves_waiting _ _ _)).trans (spawnSlot_lawful.evolves_exchange _
      ((s.placing env).spawnRequest spec state rid.node entry.addr) entry.addr env)
  have hsent := spawnSlot_lawful.sent_exchange ((s.placing env).chooseNode spec none).1
    ((s.placing env).spawnRequest spec state rid.node entry.addr) entry.addr env
  rw [hspawn] at hevolves hsent
  rw [hid] at hsent
  refine ⟨_,?_,hevolves,?_,entry.addr,?_⟩
  · unfold spawnWithState
    rw [← placing]
    dsimp only
    rw [show ((s.placing env).chooseNode spec none).2 = some rid.node from hplaced]
    dsimp only
    rw [nodes_chooseNode,hentry]
    dsimp only
    rw [hspawn]
  · rw [← hid]
    exact (steady_processEvents _ (before ++ [i])).nextRequestId
  · rw [← (evolves_placing s env).selfInfo]
    exact hsent

theorem checkpoints_spawnWithState (s : DistributedScheduler) (spec : RemoteProcessSpec)
    (state : Option (List UInt8)) (env : Env) :
    (s.spawnWithState spec none state env).1.checkpoints =
      (s.met spec env).foldl storeCheckpoint s.checkpoints := by
  have hdrained : ((s.placing env).chooseNode spec none).1.checkpoints =
      env.drained.foldl storeCheckpoint s.checkpoints := by
    rw [chooseNode_fst]
    exact checkpoints_processEvents s env.drained
  rw [met,foldl_append,← hdrained]
  unfold spawnWithState
  rw [← placing]
  dsimp only
  cases hplaced : s.placed spec none env with
  | none =>
    rw [show ((s.placing env).chooseNode spec none).2 = none from hplaced]
    rfl
  | some node =>
    obtain ⟨entry,hmem⟩ := exists_candidate_of_selectNode hplaced
    rw [show ((s.placing env).chooseNode spec none).2 = some node from hplaced]
    dsimp only
    rw [nodes_chooseNode,(mem_candidates.mp hmem).1]
    have hexchange := checkpoints_exchange_spawn (spawnResult_placed s spec none env)
      (r := (s.placing env).spawnRequest spec state node entry.addr) rfl entry.addr env
    rw [nextRequestId_placed] at hexchange
    rw [elim_some,← hexchange]
    dsimp only
    split <;> rfl

end

section
variable {slot : Slot ρ} {answer : PendingRequest → ClusterMessage → Option (Except String ρ)}
  {rid : RemoteProcessId} {env : Env}

theorem Lawful.call_of_answer (hslot : Lawful slot answer) (r : String → Request)
    {kind : PendingKind} (hkind : ∀ peer, (r peer).kind = kind)
    (hknown : rid.node ∈ (s.processEvents env.drained).nodes)
    (hack : acknowledgement s.nextRequestId env = some (before,i))
    (hv : answer ⟨s.nextRequestId,kind⟩ i.message = some v) :
    ∃ t, call slot s rid r env = (t,v) ∧ Evolves env.heard s t ∧
      t.nextRequestId = s.nextRequestId+1 ∧ t.rrCursor = s.rrCursor ∧ rid.node ∈ t.nodes ∧
      t.nodes = (s.handled env).foldl (noteNode s.selfInfo.id) s.nodes := by
  let started := slot.set (s.processEvents env.drained) none
  have hsteady : Steady s started := (steady_processEvents s env.drained).trans
    (hslot.set_steady _ none)
  have hnodes : started.nodes = (s.processEvents env.drained).nodes := (hslot.set_kept _ none).1
  obtain ⟨entry,hentry⟩ := mem_iff.mp hknown
  have hexchange := hslot.exchange_of_answer (s := started) (hslot.get_set _ _) (r entry.addr)
    entry.addr (hsteady.nextRequestId ▸ hack) (by rw [hkind,hsteady.nextRequestId,hv])
  have hcall : call slot s rid r env = exchange slot started (r entry.addr) entry.addr env := by
    unfold call
    dsimp only
    rw [hnodes,hentry]
  have hevolves := hslot.evolves_call s rid r env
  rw [hcall,hexchange] at hevolves ⊢
  let waited := (started.waiting (r entry.addr) entry.addr).processEvents (before ++ [i])
  have hcleared : Steady waited { waited with pending := none } := ⟨rfl,rfl,rfl,rfl,rfl,rfl⟩
  have hended : Steady (started.waiting (r entry.addr) entry.addr)
      (slot.set { waited with pending := none } none) :=
    ((steady_processEvents _ _).trans hcleared).trans (hslot.set_steady _ none)
  refine ⟨_,rfl,hevolves,?_,?_,?_,?_⟩
  · rw [← hsteady.nextRequestId]
    exact hended.nextRequestId
  · rw [← hsteady.rrCursor]
    exact hended.rrCursor
  · rw [(hslot.set_kept _ none).1]
    exact nodes_mem_processEvents (started.waiting (r entry.addr) entry.addr) (before ++ [i])
      (hnodes ▸ hknown)
  · rw [(hslot.set_kept _ none).1,handled,hack,elim_some,foldl_append,
      ← nodes_processEvents,← hnodes,← hsteady.selfInfo]
    exact nodes_processEvents (started.waiting (r entry.addr) entry.addr) (before ++ [i])

theorem Lawful.call_of_unknown (hslot : Lawful slot answer) (r : String → Request)
    (hknown : rid.node ∉ (s.processEvents env.drained).nodes) :
    ∃ t e, call slot s rid r env = (t,.error e) := by
  unfold call
  dsimp only
  rw [(hslot.set_kept _ none).1,lookup_eq_none.mpr hknown]
  exact ⟨_,_,rfl⟩

end

/-- A cluster of two nodes, of which the first runs a process and was not heard of for longer. -/
def twoNodes : DistributedScheduler where
  selfInfo := ⟨⟨"local","10.0.0.9",1,.online,.idle⟩,9⟩
  strategy := .roundRobin
  nodes := (singleton 1 ⟨"first","10.0.0.1",1,.online,.idle⟩).insert 2
    ⟨"second","10.0.0.2",1,.online,.idle⟩
  remote := singleton ⟨1,7⟩ ⟨⟨1,7⟩,"worker","Running",64⟩
  spawnedSpecs := singleton ⟨1,7⟩ ⟨"worker",0,64,none,[],none,none⟩
  rrCursor := 0
  nextRequestId := 1
  pending := none
  spawnResult := none
  ctrlResult := none
  getStateResult := none
  failoverThreshold := 10
  lastContact := (singleton 1 0).insert 2 20
  failoverRespawn := true
  checkpoints := singleton ⟨1,7⟩ ([1,2,3],15)
  checkpointTtl := 30
  log := []
  sent := []

end DistributedScheduler
end Aios.Cluster
