import Aios.Cluster.Answers

/-!
Migration. The process is spawned again with its state and then killed; the placement of the new one
does not know the source node.
-/
namespace Aios.Cluster

open List Finmap

namespace DistributedScheduler

variable {s t : DistributedScheduler} {spec : RemoteProcessSpec} {id : NodeId}

/-- In a list that ascends by `g`, the first of the least elements is least by `f` and then
by `g`. -/
theorem foldl_least {α κ ι : Type} [LinearOrder κ] [LinearOrder ι] (f : α → κ) (g : α → ι)
    {best : α} {l : List α} (h : (best::l).Pairwise fun a b => g a < g b) :
    let x := l.foldl (fun best y => if decide (f y < f best) then y else best) best
    ∀ y ∈ best::l, f x < f y ∨ f x = f y ∧ g x ≤ g y := by
  induction l generalizing best with
  | nil =>
    intro x y hy
    obtain rfl := mem_singleton.mp hy
    exact .inr ⟨rfl,le_refl _⟩
  | cons z l ih =>
    obtain ⟨hbest,hrest⟩ := pairwise_cons.mp h
    rw [foldl_cons]
    split
    · next hz =>
      have hz : f z < f best := by simpa using hz
      intro x y hy
      obtain rfl | hy := mem_cons.mp hy
      · obtain hlt | ⟨heq,-⟩ := ih hrest z mem_cons_self
        · exact .inl (hlt.trans hz)
        · exact .inl (heq.trans_lt hz)
      · exact ih hrest y hy
    · next hz =>
      have hz : f best ≤ f z := by simpa using hz
      have hshort : (best::l).Pairwise fun a b => g a < g b :=
        h.sublist ((sublist_cons_self z l).cons_cons best)
      intro x y hy
      obtain rfl | hy := mem_cons.mp hy
      · exact ih hshort y mem_cons_self
      · obtain rfl | hy := mem_cons.mp hy
        · have hg : g best ≤ g y := (hbest y mem_cons_self).le
          obtain hlt | ⟨heq,hle⟩ := ih hshort best mem_cons_self
          · exact .inl (hlt.trans_le hz)
          · obtain hlt | heq' := hz.lt_or_eq
            · exact .inl (heq.trans_lt hlt)
            · exact .inr ⟨heq.trans heq',hle.trans hg⟩
        · exact ih hshort y (mem_cons_of_mem _ hy)

theorem pairwise_candidates : (s.candidates spec).Pairwise fun a b => a.1 < b.1 := by
  refine s.nodes.pairwise_sortedKeys.filterMap _ ?_
  intro a a' hlt b hb b' hb'
  obtain ⟨_,-,rfl⟩ := Option.map_eq_some_iff.mp hb
  obtain ⟨_,-,rfl⟩ := Option.map_eq_some_iff.mp hb'
  exact hlt

/-- The node that is picked: the candidate under the cursor, or the one of the lowest tier and
then of the lowest id. -/
def Picks (s : DistributedScheduler) (spec : RemoteProcessSpec) (id : NodeId) : Prop :=
  let candidates := s.candidates spec
  match s.strategy with
  | .roundRobin => ∃ node, candidates[s.rrCursor%candidates.length]? = some (id,node)
  | .byTier => ∃ node, (id,node) ∈ candidates ∧
      ∀ c ∈ candidates, node.tier < c.2.tier ∨ node.tier = c.2.tier ∧ id ≤ c.1
  | .leastLoaded => (s.selectNode spec).2 = some id

theorem minBy_tier {candidates : List (NodeId × NodeEntry)} {c : NodeId × NodeEntry}
    (hsorted : candidates.Pairwise fun a b => a.1 < b.1)
    (h : minBy (fun a b => b.2.tier < a.2.tier) candidates = some c) :
    ∀ d ∈ candidates, c.2.tier < d.2.tier ∨ c.2.tier = d.2.tier ∧ c.1 ≤ d.1 := by
  cases candidates with
  | nil => cases h
  | cons a candidates =>
    cases h
    simp only [← UInt8.toNat_inj]
    exact foldl_least (fun c => c.2.tier.toNat) Prod.fst hsorted

theorem picks_iff : s.Picks spec id ↔ (s.selectNode spec).2 = some id := by
  unfold Picks selectNode
  cases s.strategy with
  | roundRobin =>
    by_cases hempty : s.candidates spec = []
    · simp [hempty]
    · simp [hempty]
  | leastLoaded => rfl
  | byTier =>
    by_cases hempty : s.candidates spec = []
    · simp [hempty]
    · rw [if_neg hempty]
      obtain ⟨c,hc⟩ : ∃ c, minBy (fun a b => b.2.tier < a.2.tier) (s.candidates spec) = some c := by
        obtain ⟨a,l,hl⟩ := exists_cons_of_ne_nil hempty
        rw [hl]
        exact ⟨_,rfl⟩
      have hleast := minBy_tier pairwise_candidates hc
      have hmem := mem_of_minBy hc
      rw [hc,Option.map_some,Option.some.injEq]
      constructor
      · rintro ⟨node,hnode,hpicked⟩
        obtain hlt | ⟨heq,hle⟩ := hleast _ hnode
        · obtain hgt | ⟨heq,-⟩ := hpicked c hmem
          · exact absurd hlt (UInt8.lt_asymm hgt)
          · exact absurd heq.symm (UInt8.ne_of_lt hlt)
        · obtain hgt | ⟨-,hge⟩ := hpicked c hmem
          · exact absurd heq.symm (UInt8.ne_of_lt hgt)
          · exact le_antisymm hle hge
      · rintro rfl
        exact ⟨c.2,hmem,hleast⟩

theorem picks_congr (hself : t.selfInfo = s.selfInfo) (hstrategy : t.strategy = s.strategy)
    (hcursor : t.rrCursor = s.rrCursor) (hnodes : t.nodes = s.nodes) :
    t.Picks spec id ↔ s.Picks spec id := by
  have heligible (id : NodeId) (node : NodeEntry) :
      decide (t.Eligible spec id node) = decide (s.Eligible spec id node) := by
    rw [decide_eq_decide,Eligible,Eligible,hself]
  have hcandidates : t.candidates spec = s.candidates spec := by
    simp only [candidates,hnodes,heligible]
  rw [picks_iff,picks_iff]
  unfold selectNode
  rw [hcandidates,hstrategy,hcursor]
  dsimp only
  repeat' split
  all_goals rfl

section

/-- All messages that are handled in the course of a migration. -/
def MigrateEnv.heard (env : MigrateEnv) : List ClusterMessage :=
  env.drained.map Incoming.message ++ env.getState.heard ++ env.spawn.heard ++ env.kill.heard

structure AllAcked (s : DistributedScheduler) (env : MigrateEnv) (state : List UInt8) (pid : ℕ) :
    Prop where
  getState : ∃ q error, acknowledgement s.nextRequestId env.getState = some q ∧
    q.2.message = .getStateReply s.nextRequestId true state error
  spawn : ∃ q error, acknowledgement (s.nextRequestId+1) env.spawn = some q ∧
    q.2.message = .spawnAck (s.nextRequestId+1) pid true error
  kill : ∃ q error, acknowledgement (s.nextRequestId+1+1) env.kill = some q ∧
    q.2.message = .killAck (s.nextRequestId+1+1) true error

variable (s)

/-- The process now runs on another node with its state; the other processes are unchanged. -/
def Relocated (rid : RemoteProcessId) (spec : RemoteProcessSpec)
    (state : List UInt8) (env : MigrateEnv) : Prop :=
  let r := s.migrate rid none env
  ∃ new, r.2 = .ok new ∧ new.node ≠ rid.node ∧
    (∃ peer, (peer,.spawn (s.nextRequestId+1) s.selfInfo.addr spec (some state)) ∈ r.1.sent) ∧
    r.1.Tracked new spec ∧ r.1.spawnedSpecs.lookup rid = none ∧ rid ∉ r.1.remote ∧
    Keeps env.heard (fun q => q = rid ∨ q = new) s r.1

/-- The cluster as it is known when the state of the process is asked for. -/
def asking (env : MigrateEnv) : DistributedScheduler :=
  (s.processEvents env.drained).processEvents env.getState.drained

/-- The cluster as it is known when the new node is picked. -/
def relocating (env : MigrateEnv) : DistributedScheduler :=
  let s := s.processEvents env.drained
  s.processEvents (s.handled env.getState ++ env.spawn.drained)

variable {s} {rid : RemoteProcessId} {state : List UInt8} {pid : ℕ} {env : MigrateEnv}

/-- The state of the process is fetched, and the placement is then left to the cluster as it is
known from the messages. -/
theorem getState_acked (hacked : s.AllAcked env state pid)
    (hknown : rid.node ∈ (s.asking env).nodes) :
    ∃ t, (s.processEvents env.drained).getState rid env.getState = (t,.ok state) ∧
      Evolves env.heard s t ∧ t.nextRequestId = s.nextRequestId+1 ∧ rid.node ∈ t.nodes ∧
      ∀ spec id, (t.placing env.spawn).Picks spec id ↔ (s.relocating env).Picks spec id := by
  obtain ⟨⟨before,i⟩,error,hack,hmessage⟩ := hacked.getState
  let s' := s.processEvents env.drained
  have hsteady : Steady s s' := steady_processEvents s env.drained
  have hid : s'.nextRequestId = s.nextRequestId := hsteady.nextRequestId
  have hanswer : getStateAnswer ⟨s'.nextRequestId,.getState⟩ i.message = some (.ok state) := by
    rw [hid,hmessage]
    simp [getStateAnswer]
  obtain ⟨t,hcall,ht,hnext,hcursor,hmem,hnodes⟩ :=
    getStateSlot_lawful.call_of_answer (s := s') (s'.getStateRequest rid) (fun _ => rfl) hknown
      (hid ▸ hack) hanswer
  have hheard : env.getState.heard ⊆ env.heard := fun m hm => by
    simp only [MigrateEnv.heard,mem_append]
    exact .inl (.inl (.inr hm))
  have hdrained : Evolves env.heard s s' := evolves_processEvents s fun i hi => by
    simp only [MigrateEnv.heard,mem_append]
    exact .inl (.inl (.inl (mem_map_of_mem hi)))
  refine ⟨t,hcall,hdrained.trans (ht.mono hheard),by rw [hnext,hid],hmem,fun spec id => ?_⟩
  have hplacing := steady_processEvents t env.spawn.drained
  have hrelocating := steady_processEvents s' (s'.handled env.getState ++ env.spawn.drained)
  apply picks_congr
  · exact (hplacing.selfInfo.trans ht.selfInfo).trans hrelocating.selfInfo.symm
  · exact (hplacing.strategy.trans ht.strategy).trans hrelocating.strategy.symm
  · exact (hplacing.rrCursor.trans hcursor).trans hrelocating.rrCursor.symm
  · show (t.processEvents env.spawn.drained).nodes = (s.relocating env).nodes
    rw [nodes_processEvents,hnodes,ht.selfInfo,← foldl_append,← nodes_processEvents]
    rfl

theorem answered_of_acked (hacked : s.AllAcked env state pid)
    (hnext : t.nextRequestId = s.nextRequestId+1) :
    t.answered spec env.spawn = (t.placed spec none env.spawn).map fun node => ⟨node,pid⟩ := by
  obtain ⟨q,error,hack,hmessage⟩ := hacked.spawn
  unfold answered
  rw [hnext,hack]
  simp only [Option.bind_some,hmessage]
  cases t.placed spec none env.spawn with
  | none => rfl
  | some node => rfl

theorem migrate_of_unknown
    (hspec : (s.processEvents env.drained).spawnedSpecs.lookup rid = some spec)
    (hknown : rid.node ∉ (s.asking env).nodes) :
    ∃ e, (s.migrate rid none env).2 = .error e := by
  obtain ⟨t,e,hcall⟩ := getStateSlot_lawful.call_of_unknown
    ((s.processEvents env.drained).getStateRequest rid) hknown
  refine ⟨e,?_⟩
  unfold migrate
  simp only [hspec,getState,hcall,reduceCtorEq,if_false]

section
variable {u v : DistributedScheduler} {new : RemoteProcessId}
  (hspec : (s.processEvents env.drained).spawnedSpecs.lookup rid = some spec)
  (hstate : (s.processEvents env.drained).getState rid env.getState = (t,.ok state))

include hspec hstate

section
variable (hspawn : t.spawnWithState spec none (some state) env.spawn = (u,.ok new))
include hspawn

theorem migrate_to_source (hnew : new.node = rid.node) :
    ∃ e, (s.migrate rid none env).2 = .error e := by
  unfold migrate
  simp only [hspec,hstate,hspawn,hnew]
  exact ⟨_,rfl⟩

theorem migrate_to_other (hnew : new.node ≠ rid.node) (hkill : u.kill rid env.kill = (v,.ok ())) :
    ∃ event, s.migrate rid none env = (v.logEvent event,.ok new) := by
  unfold migrate
  simp only [hspec,hstate,hspawn,hnew,hkill]
  exact ⟨_,rfl⟩

end
end

theorem kill_acked (hacked : s.AllAcked env state pid)
    (hnext : t.nextRequestId = s.nextRequestId+1+1) (hknown : rid.node ∈ t.nodes) :
    ∃ u, t.kill rid env.kill = (u.untrack rid,.ok ()) ∧ Evolves env.heard t u := by
  obtain ⟨⟨before,i⟩,error,hack,hmessage⟩ := hacked.kill
  have hanswer : ctrlAnswer ⟨t.nextRequestId,.kill⟩ i.message = some (.ok ()) := by
    rw [hnext,hmessage]
    simp [ctrlAnswer]
  have hdrained : rid.node ∈ (t.processEvents env.kill.drained).nodes :=
    nodes_mem_processEvents t env.kill.drained hknown
  obtain ⟨u,hcall,hu,-⟩ := ctrlSlot_lawful.call_of_answer (t.killRequest rid) (fun _ => rfl)
    hdrained (hnext ▸ hack) hanswer
  have hheard : env.kill.heard ⊆ env.heard := fun m hm => by
    simp only [MigrateEnv.heard,mem_append]
    exact .inr hm
  refine ⟨u,?_,hu.mono hheard⟩
  unfold kill
  rw [hcall]

theorem relocated_of_placed
    (hspec : (s.processEvents env.drained).spawnedSpecs.lookup rid = some spec)
    (hacked : s.AllAcked env state pid)
    (hstate : (s.processEvents env.drained).getState rid env.getState = (t,.ok state))
    (ht : Evolves env.heard s t) (hnext : t.nextRequestId = s.nextRequestId+1)
    (hknown : rid.node ∈ t.nodes) (hplaced : t.placed spec none env.spawn = some id)
    (hid : id ≠ rid.node) : s.Relocated rid spec state env := by
  let new : RemoteProcessId := ⟨id,pid⟩
  have hne : new ≠ rid := fun h => hid (congrArg RemoteProcessId.node h)
  have hanswered : t.answered spec env.spawn = some new := by
    rw [answered_of_acked hacked hnext,hplaced]
    rfl
  obtain ⟨u,hspawn,hu,hunext,peer,hsent⟩ := spawnWithState_of_answered (some state) hanswered
  have hheard : env.spawn.heard ⊆ env.heard := fun m hm => by
    simp only [MigrateEnv.heard,mem_append]
    exact .inl (.inr hm)
  obtain ⟨v,hkill,hv⟩ := kill_acked (t := u.track new spec) hacked (by rw [← hnext]; exact hunext)
    (hu.nodes _ hknown)
  obtain ⟨event,hmigrate⟩ := migrate_to_other hspec hstate hspawn hid hkill
  have htracked : v.Tracked new spec :=
    ⟨by rw [hv.spawnedSpecs]; exact lookup_insert _,hv.known new (mem_insert.mpr (.inl rfl))⟩
  have hkeeps : Keeps env.heard (fun q => q = rid ∨ q = new) s (v.untrack rid) :=
    (((ht.trans (hu.mono hheard)).keeps _).trans (keeps_track (.inr rfl))).trans
      ((hv.keeps _).trans (keeps_untrack (.inl rfl)))
  unfold Relocated
  rw [hmigrate]
  refine ⟨new,rfl,hid,⟨peer,?_⟩,⟨?_,?_⟩,lookup_erase _ _,notMem_erase_self,hkeeps⟩
  · rw [← hnext,← ht.selfInfo]
    exact hv.follows.sent_prefix.subset hsent
  · exact (lookup_erase_ne hne).trans htracked.1
  · exact mem_erase.mpr ⟨hne,htracked.2⟩

/-- A migration in which every request is acknowledged succeeds precisely if the node of the process
is known and another one is picked. -/
theorem relocated_iff (hspec : s.spawnedSpecs.lookup rid = some spec)
    (hacked : s.AllAcked env state pid) :
    s.Relocated rid spec state env ↔
      rid.node ∈ (s.asking env).nodes ∧ ∃ id, (s.relocating env).Picks spec id ∧ id ≠ rid.node := by
  have hlookup : (s.processEvents env.drained).spawnedSpecs.lookup rid = some spec := by
    rw [(steady_processEvents s env.drained).spawnedSpecs,hspec]
  by_cases hknown : rid.node ∈ (s.asking env).nodes
  · obtain ⟨t,hstate,ht,hnext,hmem,hpicks⟩ := getState_acked hacked hknown
    have hplaced (id : NodeId) : t.placed spec none env.spawn = some id ↔
        (s.relocating env).Picks spec id := picks_iff.symm.trans (hpicks spec id)
    constructor
    · rintro ⟨new,hok,hne,-⟩
      refine ⟨hknown,?_⟩
      cases hnode : t.placed spec none env.spawn with
      | none =>
        have hanswered : t.answered spec env.spawn = none := by
          rw [answered_of_acked hacked hnext,hnode]
          rfl
        obtain ⟨e,u,hspawn,-⟩ := spawnWithState_of_unanswered (some state) hanswered
        unfold migrate at hok
        simp only [hlookup,hstate,hspawn,reduceCtorEq,if_false] at hok
      | some id =>
        refine ⟨id,(hplaced id).mp hnode,fun hsource => ?_⟩
        have hanswered : t.answered spec env.spawn = some ⟨id,pid⟩ := by
          rw [answered_of_acked hacked hnext,hnode]
          rfl
        obtain ⟨u,hspawn,-⟩ := spawnWithState_of_answered (some state) hanswered
        obtain ⟨e,herror⟩ := migrate_to_source hlookup hstate hspawn hsource
        rw [herror] at hok
        cases hok
    · rintro ⟨-,id,hpicked,hid⟩
      exact relocated_of_placed hlookup hacked hstate ht hnext hmem ((hplaced id).mpr hpicked) hid
  · obtain ⟨e,herror⟩ := migrate_of_unknown hlookup hknown
    constructor
    · rintro ⟨new,hok,-⟩
      rw [herror] at hok
      cases hok
    · rintro ⟨h,-⟩
      exact absurd h hknown

def allAcks : MigrateEnv where
  drained := []
  getState := ⟨[],.ok (),[.message ⟨.getStateReply 1 true [5] none,0,none⟩]⟩
  spawn := ⟨[],.ok (),[.message ⟨.spawnAck 2 4 true none,0,none⟩]⟩
  kill := ⟨[],.ok (),[.message ⟨.killAck 3 true none,0,none⟩]⟩

theorem allAcked_allAcks (h : s.nextRequestId = 1) : s.AllAcked allAcks [5] 4 where
  getState := ⟨([],⟨.getStateReply 1 true [5] none,0,none⟩),none,by rw [h]; rfl,by rw [h]⟩
  spawn := ⟨([],⟨.spawnAck 2 4 true none,0,none⟩),none,by rw [h]; rfl,by rw [h]; rfl⟩
  kill := ⟨([],⟨.killAck 3 true none,0,none⟩),none,by rw [h]; rfl,by rw [h]; rfl⟩

theorem second_node_is_picked :
    { twoNodes with rrCursor := 1 }.Relocated ⟨1,7⟩ ⟨"worker",0,64,none,[],none,none⟩ [5]
      allAcks := by
  refine (relocated_iff (by decide +kernel) (allAcked_allAcks rfl)).mpr ⟨by decide +kernel,2,?_,
    by decide⟩
  exact ⟨⟨"second","10.0.0.2",1,.online,.idle⟩,by decide +kernel⟩

theorem source_node_is_picked : twoNodes.strategy = .roundRobin ∧
      twoNodes.spawnedSpecs.lookup ⟨1,7⟩ = some ⟨"worker",0,64,none,[],none,none⟩ ∧
      (2,⟨"second","10.0.0.2",1,.online,.idle⟩) ∈
        twoNodes.candidates ⟨"worker",0,64,none,[],none,none⟩ ∧
      twoNodes.AllAcked allAcks [5] 4 ∧
      ¬ twoNodes.Relocated ⟨1,7⟩ ⟨"worker",0,64,none,[],none,none⟩ [5] allAcks := by
  have hfails : (twoNodes.migrate ⟨1,7⟩ none allAcks).2.toOption = none := by decide +kernel
  refine ⟨rfl,by decide +kernel,by decide +kernel,allAcked_allAcks rfl,?_⟩
  rintro ⟨new,hok,-⟩
  rw [hok] at hfails
  cases hfails

end
end DistributedScheduler
end Aios.Cluster
