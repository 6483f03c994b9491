import Aios.Cluster.Types
import Aios.Lib.Await
import Aios.Lib.SortedKeys

/-!
The distributed scheduler. A request fills the pending slot, is sent, and waits for its answer;
messages are handled before and meanwhile. Transport, clocks, executor and the order in which hash
maps are visited are inputs of each call.
-/
namespace Aios.Cluster

open Await

inductive PendingKind where
  | spawn (node : NodeId)
  | kill
  | setPriority
  | getState
  deriving DecidableEq

structure PendingRequest where
  requestId : UInt64
  kind : PendingKind
  deriving DecidableEq

structure Incoming where
  message : ClusterMessage
  now : ℕ
  executor : Option ProcessExecutor

structure DistributedScheduler where
  selfInfo : NodeInfo
  strategy : PlacementStrategy
  nodes : Finmap fun _ : NodeId => NodeEntry
  remote : Finmap fun _ : RemoteProcessId => RemoteProcessStatus
  spawnedSpecs : Finmap fun _ : RemoteProcessId => RemoteProcessSpec
  rrCursor : ℕ
  nextRequestId : UInt64
  pending : Option PendingRequest
  spawnResult : Option (Except String RemoteProcessId)
  ctrlResult : Option (Except String Unit)
  getStateResult : Option (Except String (List UInt8))
  failoverThreshold : ℕ
  lastContact : Finmap fun _ : NodeId => ℕ
  failoverRespawn : Bool
  checkpoints : Finmap fun _ : RemoteProcessId => List UInt8 × ℕ
  checkpointTtl : ℕ
  log : List String
  sent : List (String × ClusterMessage)

namespace DistributedScheduler

variable (s : DistributedScheduler) (rid : RemoteProcessId) {ρ : Type}

/-- The log keeps the last 100 events. -/
def logEvent (event : String) : DistributedScheduler :=
  let log := s.log ++ [event]
  { s with log := log.drop (log.length-100) }

def post (peer : String) (message : ClusterMessage) :
    DistributedScheduler :=
  { s with sent := s.sent ++ [(peer,message)] }

section
variable (executor : Option ProcessExecutor)

/-- The reply to a spawn request; a process whose state cannot be restored is killed again. -/
def spawnReply (requestId : UInt64) (spec : RemoteProcessSpec)
    (state : Option (List UInt8)) : ClusterMessage :=
  match executor with
  | none => .spawnAck requestId 0 false (some "node has no process executor")
  | some exec =>
    match exec.spawn spec with
    | .error e => .spawnAck requestId 0 false (some e)
    | .ok pid =>
      match state.elim (.ok ()) (exec.restoreState pid) with
      | .ok () => .spawnAck requestId pid true none
      | .error e => .spawnAck requestId 0 false (some ("state restore failed: " ++ e))

def getStateReply (requestId : UInt64) (pid : ℕ) :
    ClusterMessage :=
  match executor with
  | none => .getStateReply requestId false [] (some "node has no process executor")
  | some exec =>
    match exec.extractState pid with
    | .ok state => .getStateReply requestId true state none
    | .error e => .getStateReply requestId false [] (some e)

/-- The outcome of a kill or of a change of priority, as it is acknowledged. -/
def ctrlReply (call : ProcessExecutor → Except String Unit)
    (ack : Bool → Option String → ClusterMessage) : ClusterMessage :=
  match executor with
  | none => ack false (some "node has no process executor")
  | some exec =>
    match call exec with
    | .ok () => ack true none
    | .error e => ack false (some e)

end

section
variable (s : DistributedScheduler) (requestId : UInt64)

def completeSpawn (pid : ℕ) (ok : Bool) (error : Option String) : DistributedScheduler :=
  match s.pending with
  | none => s
  | some pending =>
    if pending.requestId = requestId then
      match pending.kind with
      | .spawn node =>
        { s with
          spawnResult := some (if ok then .ok ⟨node,pid⟩
            else .error (error.getD "spawn rejected by node"))
          pending := none }
      | _ => s
    else s

def completeCtrl (ok : Bool) (error : Option String) : DistributedScheduler :=
  match s.pending with
  | none => s
  | some pending =>
    if pending.requestId = requestId then
      { s with
        ctrlResult := some (if ok then .ok () else .error (error.getD "request rejected by node"))
        pending := none }
    else s

def completeGetState (ok : Bool)
    (state : List UInt8) (error : Option String) : DistributedScheduler :=
  match s.pending with
  | none => s
  | some pending =>
    if pending.requestId = requestId then
      { s with
        getStateResult := some (if ok then .ok state
          else .error (error.getD "state request rejected by node"))
        pending := none }
    else s

end

/-- The load of a known node is not taken from its announcement. -/
def registerNode (info : NodeInfo) (now : ℕ) (metrics : NodeMetrics) :
    DistributedScheduler :=
  let known := s.nodes.lookup info.id
  let entry := match known with
    | some node =>
      { node with addr := info.addr, name := info.name, tier := info.tier, status := .online }
    | none => info.toNodeEntry
  let joined := { s with nodes := s.nodes.insert info.id entry }
  let logged := if known.isSome then joined
    else joined.logEvent ("node " ++ toString info.id ++ " (" ++ info.name ++ ") joined")
  { logged with lastContact := logged.lastContact.insert info.id now }.post info.addr
    (.metrics s.selfInfo.id metrics)

def dispatchIncoming (i : Incoming) : DistributedScheduler :=
  match i.message with
  | .hello info =>
    if info.id = s.selfInfo.id then s
    else s.registerNode info i.now (i.executor.elim .idle ProcessExecutor.metrics)
  | .metrics id metrics =>
    let entry := match s.nodes.lookup id with
      | some node => { node with metrics := metrics }
      | none => ⟨"node-" ++ toString id,"",0,.unknown,metrics⟩
    { s with nodes := s.nodes.insert id entry, lastContact := s.lastContact.insert id i.now }
  | .spawn requestId source spec state =>
    s.post source (spawnReply i.executor requestId spec state)
  | .getState requestId source pid => s.post source (getStateReply i.executor requestId pid)
  | .getStateReply requestId ok state error => s.completeGetState requestId ok state error
  | .checkpoint _ rid state =>
    { s with checkpoints := s.checkpoints.insert rid (state,i.now) }
  | .spawnAck requestId pid ok error => s.completeSpawn requestId pid ok error
  | .kill requestId source pid =>
    s.post source (ctrlReply i.executor (fun exec => exec.kill pid) (.killAck requestId))
  | .killAck requestId ok error => s.completeCtrl requestId ok error
  | .setPriority requestId source pid priority =>
    s.post source (ctrlReply i.executor (fun exec => exec.setPriority pid priority)
      (.setPriorityAck requestId))
  | .setPriorityAck requestId ok error => s.completeCtrl requestId ok error
  | .statusRequest source =>
    s.post source (.statusReply (i.executor.elim [] ProcessExecutor.status))
  | .statusReply processes =>
    { s with remote := processes.foldl (fun remote p => remote.insert p.id p) s.remote }

def processEvents (inbox : List Incoming) : DistributedScheduler :=
  inbox.foldl dispatchIncoming s

section

/-- `min_by`: the first of the least elements. -/
def minBy {α : Type} (greater : α → α → Bool) : List α → Option α
  | [] => none
  | x::xs => some (xs.foldl (fun best y => if greater best y then y else best) x)

variable (s : DistributedScheduler) (spec : RemoteProcessSpec)

def Eligible (id : NodeId) (node : NodeEntry) : Prop :=
  id ≠ s.selfInfo.id ∧ node.status = .online ∧ (∀ m ∈ spec.minTier, m ≤ node.tier) ∧
    ∀ m ∈ spec.maxTier, node.tier ≤ m

instance (s : DistributedScheduler) (spec : RemoteProcessSpec) (id : NodeId) (node : NodeEntry) :
    Decidable (s.Eligible spec id node) := inferInstanceAs (Decidable (_ ∧ _))

/-- The nodes on which a process may be placed, by their ids. -/
def candidates : List (NodeId × NodeEntry) :=
  s.nodes.sortedKeys.filterMap fun id =>
    ((s.nodes.lookup id).filter fun node => s.Eligible spec id node).map fun node => (id,node)

def selectNode : DistributedScheduler × Option NodeId :=
  let candidates := s.candidates spec
  if candidates = [] then (s,none)
  else
    match s.strategy with
    | .roundRobin =>
      ({ s with rrCursor := (s.rrCursor+1)%candidates.length },
        (candidates[s.rrCursor%candidates.length]?).map Prod.fst)
    | .leastLoaded =>
      (s,(minBy (fun a b => b.2.metrics.loadFraction < a.2.metrics.loadFraction)
        candidates).map Prod.fst)
    | .byTier => (s,(minBy (fun a b => b.2.tier < a.2.tier) candidates).map Prod.fst)

end

/-- What a request meets: the messages handled before it, the result of sending it, and what is
received while it waits. -/
structure Env where
  drained : List Incoming
  send : Except String Unit
  polls : List (Poll Incoming)

structure Slot (ρ : Type) where
  get : DistributedScheduler → Option (Except String ρ)
  set : DistributedScheduler → Option (Except String ρ) → DistributedScheduler

def spawnSlot : Slot RemoteProcessId := ⟨spawnResult,fun s r => { s with spawnResult := r }⟩

def ctrlSlot : Slot Unit := ⟨ctrlResult,fun s r => { s with ctrlResult := r }⟩

def getStateSlot : Slot (List UInt8) := ⟨getStateResult,fun s r => { s with getStateResult := r }⟩

structure Request where
  kind : PendingKind
  message : UInt64 → ClusterMessage
  carries : ∀ id, (message id).requests = some id
  sendFailed : String → String
  timedOut : String

def waiting (r : Request) (peer : String) : DistributedScheduler :=
  { s with
    nextRequestId := s.nextRequestId+1
    pending := some ⟨s.nextRequestId,r.kind⟩ }.post peer (r.message s.nextRequestId)

/-- The second half of every request, once its slot is empty and the peer is known. -/
def exchange (slot : Slot ρ) (s : DistributedScheduler) (r : Request) (peer : String) (env : Env) :
    DistributedScheduler × Except String ρ :=
  let s := s.waiting r peer
  match env.send with
  | .error e => (s,.error (r.sendFailed e))
  | .ok () =>
    let ended := await dispatchIncoming (fun s => (slot.get s).isSome) s env.polls
    if ended.2 then (ended.1,.error "cluster transport disconnected")
    else
      let s := { ended.1 with pending := none }
      (slot.set s none,(slot.get s).getD (.error r.timedOut))

def call (slot : Slot ρ) (s : DistributedScheduler) (rid : RemoteProcessId) (r : String → Request)
    (env : Env) : DistributedScheduler × Except String ρ :=
  let s := slot.set (s.processEvents env.drained) none
  match s.nodes.lookup rid.node with
  | none => (s,.error ("unknown node " ++ toString rid.node))
  | some node => exchange slot s (r node.addr) node.addr env

def spawnRequest (spec : RemoteProcessSpec) (state : Option (List UInt8))
    (node : NodeId) (peer : String) : Request where
  kind := .spawn node
  message requestId := .spawn requestId s.selfInfo.addr spec state
  carries _ := rfl
  sendFailed e := "send spawn to " ++ peer ++ " failed: " ++ e
  timedOut := "spawn of '" ++ spec.name ++ "' timed out on node " ++ toString node

/-- The node that was asked for, or the one that is picked. -/
def chooseNode (spec : RemoteProcessSpec) (target : Option NodeId) :
    DistributedScheduler × Option NodeId :=
  match target with
  | some node => (s,some node)
  | none => s.selectNode spec

def track (spec : RemoteProcessSpec) :
    DistributedScheduler :=
  { s with
    remote := s.remote.insert rid ⟨rid,spec.name,"Running",spec.ramMb⟩
    spawnedSpecs := s.spawnedSpecs.insert rid spec }

def spawnWithState (spec : RemoteProcessSpec) (target : Option NodeId)
    (state : Option (List UInt8)) (env : Env) :
    DistributedScheduler × Except String RemoteProcessId :=
  let s := { s.processEvents env.drained with spawnResult := none }
  let chosen := s.chooseNode spec target
  match chosen.2 with
  | none => (chosen.1,.error "no online node available for placement")
  | some node =>
    match chosen.1.nodes.lookup node with
    | none => (chosen.1,.error ("unknown node " ++ toString node))
    | some entry =>
      let r :=
        exchange spawnSlot chosen.1 (s.spawnRequest spec state node entry.addr) entry.addr env
      match r.2 with
      | .error e => (r.1,.error e)
      | .ok rid => (r.1.track rid spec,.ok rid)

def spawn (spec : RemoteProcessSpec) (target : Option NodeId)
    (env : Env) : DistributedScheduler × Except String RemoteProcessId :=
  s.spawnWithState spec target none env

def untrack : DistributedScheduler :=
  { s with
    remote := s.remote.erase rid
    spawnedSpecs := s.spawnedSpecs.erase rid
    checkpoints := s.checkpoints.erase rid }

def killRequest (peer : String) : Request where
  kind := .kill
  message requestId := .kill requestId s.selfInfo.addr rid.pid
  carries _ := rfl
  sendFailed e := "send kill to " ++ peer ++ " failed: " ++ e
  timedOut := "kill on node " ++ toString rid.node ++ " timed out"

def kill (env : Env) : DistributedScheduler × Except String Unit :=
  let r := s.call ctrlSlot rid (s.killRequest rid) env
  match r.2 with
  | .error e => (r.1,.error e)
  | .ok () => (r.1.untrack rid,.ok ())

def setPriorityRequest (priority : UInt8) (peer : String) : Request where
  kind := .setPriority
  message requestId := .setPriority requestId s.selfInfo.addr rid.pid priority
  carries _ := rfl
  sendFailed e := "send priority to " ++ peer ++ " failed: " ++ e
  timedOut := "priority change on node " ++ toString rid.node ++ " timed out"

def setPriority (priority : UInt8) (env : Env) : DistributedScheduler × Except String Unit :=
  s.call ctrlSlot rid (s.setPriorityRequest rid priority) env

def getStateRequest (peer : String) : Request where
  kind := .getState
  message requestId := .getState requestId s.selfInfo.addr rid.pid
  carries _ := rfl
  sendFailed e := "send get_state to " ++ peer ++ " failed: " ++ e
  timedOut := "get_state of " ++ rid.display ++ " timed out"

def getState (env : Env) : DistributedScheduler × Except String (List UInt8) :=
  s.call getStateSlot rid (s.getStateRequest rid) env

structure MigrateEnv where
  drained : List Incoming
  getState : Env
  spawn : Env
  kill : Env

def migrate (s : DistributedScheduler) (rid : RemoteProcessId) (target : Option NodeId)
    (env : MigrateEnv) : DistributedScheduler × Except String RemoteProcessId :=
  let s := s.processEvents env.drained
  match s.spawnedSpecs.lookup rid with
  | none => (s,.error ("no tracked process " ++ rid.display ++ " to migrate"))
  | some spec =>
    if target = some rid.node then
      (s,.error ("migrate target " ++ toString rid.node ++ " is the source node of " ++
        rid.display))
    else
      let r := s.getState rid env.getState
      match r.2 with
      | .error e => (r.1,.error e)
      | .ok state =>
        let r := r.1.spawnWithState spec target (some state) env.spawn
        match r.2 with
        | .error e => (r.1,.error e)
        | .ok newRid =>
          if newRid.node = rid.node then
            let msg := "no other node available to host " ++ rid.display ++ "; relocation aborted"
            ((r.1.kill newRid env.kill).1.logEvent msg,.error msg)
          else
            let r := r.1.kill rid env.kill
            match r.2 with
            | .ok () =>
              (r.1.logEvent ("migrated " ++ rid.display ++ " to " ++ newRid.display ++
                " (state carried)"),.ok newRid)
            | .error e =>
              let msg := "spawned " ++ newRid.display ++ " but failed to kill source " ++
                rid.display ++ ": " ++ e
              (r.1.logEvent msg,.error msg)

/-- What a tick meets: the messages before it, the time, the orders of the node table and of the
tracked processes, and a request for each respawn. -/
structure TickEnv where
  drained : List Incoming
  now : ℕ
  nodeOrder : Finmap.Iteration NodeId
  processOrder : NodeId → Finmap.Iteration RemoteProcessId
  respawn : RemoteProcessId → Env

/-- Checkpoints that were not refreshed are dropped. -/
def prune (order : List RemoteProcessId) (now : ℕ) :
    DistributedScheduler :=
  { s with
    checkpoints := order.foldl (fun checkpoints rid =>
      match checkpoints.lookup rid with
      | some (_,taken) =>
        if now-taken < s.checkpointTtl then checkpoints else checkpoints.erase rid
      | none => checkpoints) s.checkpoints }

/-- A node that is online, but was not heard of for too long. -/
def Silent (now : ℕ) (id : NodeId) : Prop :=
  ∃ node ∈ s.nodes.lookup id, node.status = .online ∧
    ∃ last ∈ s.lastContact.lookup id, s.failoverThreshold < now-last

instance (s : DistributedScheduler) (now : ℕ) (id : NodeId) : Decidable (s.Silent now id) :=
  inferInstanceAs (Decidable (∃ _ ∈ _, _))

def failed (env : TickEnv) : List NodeId :=
  (s.nodes.keysIn env.nodeOrder).filter fun id => s.Silent env.now id

def setOffline (ids : List NodeId) : DistributedScheduler :=
  { s with
    nodes :=
      ids.foldl (fun nodes id => nodes.adjust id fun node => { node with status := .offline })
        s.nodes }

/-- A victim is forgotten with its checkpoint, and then spawned elsewhere. -/
def respawn (oldRid : RemoteProcessId) (spec : RemoteProcessSpec)
    (env : Env) : DistributedScheduler × Except String RemoteProcessId :=
  let state := (s.checkpoints.lookup oldRid).map Prod.fst
  (s.untrack oldRid).spawnWithState spec none state env

def respawnEvent (oldRid : RemoteProcessId) (withState : Bool) :
    Except String RemoteProcessId → String
  | .ok newRid =>
    "respawned " ++ oldRid.display ++ " as " ++ newRid.display ++ " after failover" ++
      if withState then " (state restored)" else ""
  | .error e => "failover respawn of " ++ oldRid.display ++ " failed: " ++ e

/-- The inner loop, over the processes of one failed node, with the events so far. -/
def respawnAll (env : TickEnv) :
    DistributedScheduler → List (RemoteProcessId × RemoteProcessSpec) → List String →
      DistributedScheduler × List String
  | s, [], events => (s,events)
  | s, (oldRid,spec)::victims, events =>
    let r := s.respawn oldRid spec (env.respawn oldRid)
    let event := respawnEvent oldRid (s.checkpoints.lookup oldRid).isSome r.2
    respawnAll env (r.1.logEvent event) victims (events ++ [event])

def victims (env : TickEnv) (id : NodeId) : List (RemoteProcessId × RemoteProcessSpec) :=
  (s.spawnedSpecs.keysIn (env.processOrder id)).filterMap fun rid =>
    if rid.node = id then (s.spawnedSpecs.lookup rid).map fun spec => (rid,spec) else none

/-- The outer loop, over the failed nodes. -/
def failover (env : TickEnv) :
    DistributedScheduler → List NodeId → List String → DistributedScheduler × List String
  | s, [], events => (s,events)
  | s, id::ids, events =>
    let event := "node " ++ toString id ++ " went offline"
    let s := s.logEvent event
    let events := events ++ [event]
    if s.failoverRespawn then
      let r := respawnAll env s (s.victims env id) events
      failover env r.1 ids r.2
    else failover env s ids events

/-- The scheduler when the first loops of a tick have found the failed nodes. -/
def detected (env : TickEnv) : DistributedScheduler :=
  let s := s.processEvents env.drained
  let s := s.prune s.checkpoints.sortedKeys env.now
  s.setOffline (s.failed env)

def failedNodes (env : TickEnv) : List NodeId :=
  (s.processEvents env.drained).failed env

def tick (env : TickEnv) : DistributedScheduler × List String :=
  failover env (s.detected env) (s.failedNodes env) []

end DistributedScheduler
end Aios.Cluster
