import Aios.Ipc.Bus

/-!
The filter of the bus agrees with its queue in every run in which a frozen bus gets its own batch
back.
-/
namespace Aios.Ipc

open Aios.Core KeyedQueue Transition List

namespace IpcBus

/-- The ids of the queued packets are distinct and are the ids that the filter knows, and
the queue is within its bound. -/
structure Consistent (b : IpcBus) : Prop where
  indexed : Indexed packetId b.queue b.seenPacketIds
  bounded : b.queue.length ≤ b.maxQueueSize

def settings (b : IpcBus) : ℕ × Bool × Bool := (b.maxQueueSize,b.frozen,b.dedupEnabled)

section
variable {b : IpcBus} {packet : IpcPacket}
  {pop : List IpcPacket → Option (IpcPacket × List IpcPacket)}
  {place : IpcPacket → List IpcPacket → List IpcPacket}

@[simp] theorem evict_settings : (b.evict pop).settings = b.settings := by
  unfold evict
  split <;> rfl

@[simp] theorem enqueue_settings : (b.enqueue place packet).settings = b.settings := rfl

@[simp] theorem evict_maxQueueSize : (b.evict pop).maxQueueSize = b.maxQueueSize :=
  congrArg Prod.fst evict_settings

theorem sendWith_settings : (sendWith pop place b packet).1.settings = b.settings := by
  unfold sendWith
  split_ifs
  · rfl
  · rfl
  · split
    · rfl
    · rw [enqueue_settings,evict_settings]
  · rfl

theorem sendWith_of_frozen (h : b.frozen = true) : (sendWith pop place b packet).1 = b := by
  rw [sendWith,if_pos h]

variable (hpop : ∀ as a rest, pop as = some (a,rest) → as.Perm (a::rest))
  (hsome : ∀ as, as ≠ [] → pop as ≠ none) (hplace : ∀ a as, (place a as).Perm (a::as))

include hpop

include hsome in
theorem evict_spec (h : Indexed packetId b.queue b.seenPacketIds) (hne : b.queue ≠ []) :
    Indexed packetId (b.evict pop).queue (b.evict pop).seenPacketIds ∧
      (b.evict pop).seenPacketIds ⊆ b.seenPacketIds ∧
      (b.evict pop).queue.length < b.queue.length := by
  unfold evict
  split
  · next hp => exact absurd hp (hsome _ hne)
  · next dropped rest hp =>
    have hlen := (hpop _ _ _ hp).length_eq
    rw [length_cons] at hlen
    exact ⟨h.erasePerm (hpop _ _ _ hp),Finset.erase_subset _ _,hlen ▸ Nat.lt_succ_self _⟩

omit hpop in
include hplace in
theorem enqueue_consistent (h : Indexed packetId b.queue b.seenPacketIds)
    (hfresh : packetId packet ∉ b.seenPacketIds) (hroom : b.queue.length < b.maxQueueSize) :
    (b.enqueue place packet).Consistent where
  indexed := (h.cons hfresh).perm (hplace packet b.queue).symm
  bounded := by
    have hlen := (hplace packet b.queue).length_eq
    rw [length_cons] at hlen
    show (place packet b.queue).length ≤ b.maxQueueSize
    omega

include hsome hplace in
theorem sendWith_consistent (h : b.Consistent) (hdedup : b.dedupEnabled = true)
    (hpos : 1 ≤ b.maxQueueSize) : (sendWith pop place b packet).1.Consistent := by
  unfold sendWith
  split_ifs with hfrozen hdup hfull
  · exact h
  · exact ⟨h.indexed,h.bounded⟩
  · split
    · exact ⟨h.indexed,h.bounded⟩
    · have hfresh : packetId packet ∉ b.seenPacketIds := by
        simpa [isDuplicate,hdedup] using hdup
      have hne : b.queue ≠ [] := by
        intro hnil
        rw [hnil,length_nil] at hfull
        omega
      obtain ⟨hindexed,hseen,hshorter⟩ := evict_spec hpop hsome h.indexed hne
      refine enqueue_consistent hplace hindexed (fun hm => hfresh (hseen hm)) ?_
      rw [evict_maxQueueSize]
      exact hshorter.trans_le h.bounded
  · have hfresh : packetId packet ∉ b.seenPacketIds := by
      simpa [isDuplicate,hdedup] using hdup
    exact enqueue_consistent hplace h.indexed hfresh (not_le.mp hfull)

end

structure Keeps (b c : IpcBus) : Prop where
  settings : c.settings = b.settings
  consistent : b.Consistent → b.dedupEnabled = true → 1 ≤ b.maxQueueSize → c.Consistent
  empty : b.frozen = true → b.queue = [] → c.queue = []

variable {b : IpcBus} {packet : IpcPacket}

theorem keeps_send : Keeps b (b.send packet).1 where
  settings := sendWith_settings
  consistent := sendWith_consistent (fun _ _ _ => popFront_perm) (fun _ => popFront_ne_none)
    (fun a as => perm_append_singleton a as)
  empty hf hq := by rw [send,sendWith_of_frozen hf,hq]

theorem keeps_sendPriority : Keeps b (b.sendPriority packet).1 where
  settings := sendWith_settings
  consistent := sendWith_consistent (fun _ _ _ => popBack_perm) (fun _ => popBack_ne_none)
    (fun a as => insertBefore_perm _ a as)
  empty hf hq := by rw [sendPriority,sendWith_of_frozen hf,hq]

theorem keeps_receive : Keeps b b.receive.1 := by
  unfold receive
  split
  · exact ⟨rfl,fun h _ _ => h,fun _ hq => hq⟩
  · next p rest hp =>
    have hperm := popFront_perm hp
    refine ⟨rfl,fun h _ _ => ⟨h.indexed.erasePerm hperm,?_⟩,fun _ hq => ?_⟩
    · have hlen := hperm.length_eq
      rw [length_cons] at hlen
      have hb := h.bounded
      show rest.length ≤ b.maxQueueSize
      omega
    · rw [hq] at hp
      cases hp

theorem keeps_flush : Keeps b b.flush where
  settings := rfl
  consistent _ _ _ := ⟨Indexed.nil,Nat.zero_le _⟩
  empty _ _ := rfl

@[simp] theorem packetId_retarget (old new : UInt32) (p : IpcPacket) :
    packetId (retarget old new p) = packetId p := by
  unfold retarget
  split <;> rfl

theorem keeps_reroute (old new : UInt32) : Keeps b (b.reroute old new).1 where
  settings := rfl
  consistent h _ _ := by
    refine ⟨h.indexed.congr ?_,(length_map _).trans_le h.bounded⟩
    show (b.queue.map (retarget old new)).map packetId = b.queue.map packetId
    rw [List.map_map]
    exact map_congr_left fun p _ => packetId_retarget old new p
  empty _ hq := map_eq_nil_iff.mpr hq

theorem freeze_consistent : b.freeze.1.Consistent := ⟨Indexed.nil,Nat.zero_le _⟩

theorem restore_settings (packets : List IpcPacket) :
    (packets.foldl restore b).settings = b.settings := by
  induction packets generalizing b with
  | nil => rfl
  | cons p packets ih => exact ih

theorem restore_queue (packets : List IpcPacket) :
    (packets.reverse.foldl restore b).queue = packets ++ b.queue := by
  induction packets with
  | nil => rfl
  | cons p packets ih =>
    rw [reverse_cons,foldl_append]
    exact congrArg (p::·) ih

theorem restore_indexed {packets : List IpcPacket} (h : Indexed packetId b.queue b.seenPacketIds)
    (hnodup : ((packets ++ b.queue).map packetId).Nodup) :
    Indexed packetId (packets.reverse.foldl restore b).queue
      (packets.reverse.foldl restore b).seenPacketIds := by
  induction packets with
  | nil => exact h
  | cons p packets ih =>
    obtain ⟨hp,hrest⟩ := nodup_cons.mp hnodup
    have hind := ih hrest
    rw [reverse_cons,foldl_append]
    refine hind.cons fun hm => hp ?_
    rwa [hind.index_eq,restore_queue,mem_toFinset] at hm

end IpcBus

inductive BusOp where
  | send (packet : IpcPacket)
  | sendPriority (packet : IpcPacket)
  | receive
  | flush
  | reroute (oldTarget newTarget : UInt32)
  | freeze
  | unfreeze

/-- The bus and the batch of the freeze that froze it. -/
structure Session where
  bus : IpcBus
  batch : List IpcPacket

namespace Session

def start (bus : IpcBus) : Session := ⟨bus,[]⟩

/-- A bus that is frozen already returns an empty batch when it is frozen again; the batch
to give back remains the first one. -/
def step (s : Session) : BusOp → Option Session
  | .send packet => some { s with bus := (s.bus.send packet).1 }
  | .sendPriority packet => some { s with bus := (s.bus.sendPriority packet).1 }
  | .receive => some { s with bus := s.bus.receive.1 }
  | .flush => some { s with bus := s.bus.flush }
  | .reroute oldTarget newTarget => some { s with bus := (s.bus.reroute oldTarget newTarget).1 }
  | .freeze =>
    some ⟨s.bus.freeze.1,if s.bus.frozen then s.batch else s.bus.freeze.2⟩
  | .unfreeze => if s.bus.frozen then some { s with bus := s.bus.unfreeze s.batch } else none

/-- The invariant of the runs: while the bus is frozen, its batch could be queued as it is. -/
structure Sound (size : ℕ) (s : Session) : Prop where
  dedup : s.bus.dedupEnabled = true
  size_eq : s.bus.maxQueueSize = size
  consistent : s.bus.Consistent
  held : s.bus.frozen = true →
    s.bus.queue = [] ∧ (s.batch.map packetId).Nodup ∧ s.batch.length ≤ size

variable {size : ℕ} {s t : Session}

theorem Sound.keeps {c : IpcBus} (h : s.Sound size) (hpos : 1 ≤ size) (hk : s.bus.Keeps c) :
    Sound size { s with bus := c } := by
  obtain ⟨hmax,hfrozen,hdedup⟩ : c.maxQueueSize = s.bus.maxQueueSize ∧
      c.frozen = s.bus.frozen ∧ c.dedupEnabled = s.bus.dedupEnabled := by
    simpa [IpcBus.settings] using hk.settings
  refine ⟨hdedup.trans h.dedup,hmax.trans h.size_eq,
    hk.consistent h.consistent h.dedup (h.size_eq ▸ hpos),fun hf => ?_⟩
  obtain ⟨hq,hbatch⟩ := h.held (hfrozen ▸ hf)
  exact ⟨hk.empty (hfrozen ▸ hf) hq,hbatch⟩

theorem Sound.unfreeze (h : s.Sound size) (hf : s.bus.frozen = true) :
    Sound size { s with bus := s.bus.unfreeze s.batch } := by
  obtain ⟨hq,hnodup,hlen⟩ := h.held hf
  obtain ⟨hmax,hfrozen,hdedup⟩ : (s.bus.unfreeze s.batch).maxQueueSize = s.bus.maxQueueSize ∧
      (s.bus.unfreeze s.batch).frozen = false ∧
      (s.bus.unfreeze s.batch).dedupEnabled = s.bus.dedupEnabled := by
    simpa [IpcBus.settings,IpcBus.unfreeze] using
      IpcBus.restore_settings (b := { s.bus with frozen := false }) s.batch.reverse
  have hqueue : (s.bus.unfreeze s.batch).queue = s.batch := by
    rw [IpcBus.unfreeze,IpcBus.restore_queue,hq,append_nil]
  refine ⟨hdedup.trans h.dedup,hmax.trans h.size_eq,⟨?_,?_⟩,fun hf' => ?_⟩
  · exact IpcBus.restore_indexed h.consistent.indexed (by simpa [hq] using hnodup)
  · rw [hqueue,hmax,h.size_eq]
    exact hlen
  · rw [hfrozen] at hf'
    cases hf'

theorem Sound.step (h : s.Sound size) (hpos : 1 ≤ size) (op : BusOp)
    (hs : s.step op = some t) : t.Sound size := by
  cases op with
  | send packet =>
    cases hs
    exact h.keeps hpos IpcBus.keeps_send
  | sendPriority packet =>
    cases hs
    exact h.keeps hpos IpcBus.keeps_sendPriority
  | receive =>
    cases hs
    exact h.keeps hpos IpcBus.keeps_receive
  | flush =>
    cases hs
    exact h.keeps hpos IpcBus.keeps_flush
  | reroute oldTarget newTarget =>
    cases hs
    exact h.keeps hpos (IpcBus.keeps_reroute oldTarget newTarget)
  | freeze =>
    cases hs
    refine ⟨h.dedup,h.size_eq,IpcBus.freeze_consistent,fun _ => ⟨rfl,?_⟩⟩
    split_ifs with hf
    · exact (h.held hf).2
    · exact ⟨h.consistent.indexed.nodup,h.size_eq ▸ h.consistent.bounded⟩
  | unfreeze =>
    unfold Session.step at hs
    split_ifs at hs with hf
    cases hs
    exact h.unfreeze hf

/-- The filter of a bus agrees with its queue, and the queue with its bound, in every state
of every run. -/
theorem filter_agrees_with_queue (size : ℕ) (policy : BackpressurePolicy) (ops : List BusOp)
    (hpos : 1 ≤ size) :
    Always step (fun s => (s.bus.queue.map packetId).Nodup ∧
        s.bus.seenPacketIds = (s.bus.queue.map packetId).toFinset ∧ s.bus.queue.length ≤ size)
      (start ((IpcBus.new size).withBackpressure policy).withDedup) ops := by
  have hstart : (start ((IpcBus.new size).withBackpressure policy).withDedup).Sound size :=
    ⟨rfl,rfl,⟨Indexed.nil,Nat.zero_le _⟩,fun hf => by cases hf⟩
  have hsound := always_of_step (fun s op t hs ht => Sound.step hs hpos op ht) hstart ops
  refine hsound.mono fun s hs => ?_
  obtain ⟨hnodup,hindex⟩ := hs.consistent.indexed
  exact ⟨hnodup,hindex,hs.size_eq ▸ hs.consistent.bounded⟩

def emptyPacket (id : UInt64) : IpcPacket where
  header := {
    packetId := id
    sourceBlock := 1
    targetBlock := 2
    commandId := CommandId.custom.toU16
    priority := 2
    payloadLen := 4
    checksum := .zeros }
  payload := .empty

/-- An eviction, a duplicate, a second freeze and the batch given back. -/
def evictingRun : List BusOp :=
  [.send (emptyPacket 1),.send (emptyPacket 2),.sendPriority (emptyPacket 2),.freeze,
    .freeze,.unfreeze]

theorem filter_agrees_in_evictingRun :
    (exec step (start ((IpcBus.new 1).withBackpressure .dropOldest).withDedup) evictingRun).map
        (fun s => (s.bus.queue.map packetId,s.bus.metrics.totalDropped)) = some ([2],1) ∧
      Always step (fun s => (s.bus.queue.map packetId).Nodup ∧
          s.bus.seenPacketIds = (s.bus.queue.map packetId).toFinset ∧ s.bus.queue.length ≤ 1)
        (start ((IpcBus.new 1).withBackpressure .dropOldest).withDedup) evictingRun :=
  ⟨by decide,filter_agrees_with_queue 1 .dropOldest evictingRun (by decide)⟩

end Session
end Aios.Ipc
