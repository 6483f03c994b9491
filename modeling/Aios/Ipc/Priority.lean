import Aios.Ipc.Bus

/-!
A bus that packets reach through `send_priority` only. The packets are numbered in the order in
which they are sent, so that the order among equal priorities can be seen.
-/
namespace Aios.Ipc

open Aios.Core KeyedQueue Transition List

namespace IpcBus

variable (b : IpcBus) (packet : IpcPacket)

abbrev Full : Prop := b.maxQueueSize ≤ b.queue.length

/-- The packet is put into the queue, if need be in place of another. -/
abbrev Accepts : Prop :=
  b.frozen = false ∧ b.isDuplicate packet = false ∧ (b.Full → b.backpressure = .dropOldest)

theorem queue_sendPriority : (b.sendPriority packet).1.queue =
      if b.Accepts packet then
        insertBefore (fun p => p.header.priority < packet.header.priority) packet
          (if b.Full then b.queue.dropLast else b.queue)
      else b.queue := by
  have hevict : (b.evict popBack).queue = b.queue.dropLast := by
    unfold evict popBack
    cases hlast : b.queue.getLast? with
    | none =>
      have hnil : b.queue = [] := getLast?_eq_none_iff.mp hlast
      simp [hnil]
    | some dropped => rfl
  unfold sendPriority sendWith
  by_cases hfrozen : b.frozen = true
  · simp [hfrozen]
  by_cases hdup : b.isDuplicate packet = true
  · simp [hfrozen,hdup]
  by_cases hfull : b.Full
  · obtain hpolicy | hpolicy : b.backpressure = .reject ∨ b.backpressure = .dropOldest := by
      cases b.backpressure <;> simp
    · simp [hfrozen,hdup,hfull,hpolicy]
    · simp [hfrozen,hdup,hfull,hpolicy,enqueue,hevict]
  · simp [hfrozen,hdup,hfull,enqueue]

/-- A packet that has to give way is no more important than any that is queued after the call. -/
def EvictsLeast : Prop :=
  b.Accepts packet → b.Full → ∀ dropped ∈ b.queue.getLast?,
    ∀ p ∈ (b.sendPriority packet).1.queue, dropped.header.priority ≤ p.header.priority

/-- A new packet is at least as important as the last one of a queue that has to make room. -/
def OutranksLast : Prop :=
  b.Accepts packet → b.Full → ∀ dropped ∈ b.queue.getLast?,
    dropped.header.priority ≤ packet.header.priority

end IpcBus

inductive PriorityOp where
  | sendPriority (packet : IpcPacket)
  | receive

/-- `P` of the bus and the packet that is sent. -/
def PriorityOp.Meets (P : IpcBus → IpcPacket → Prop) (b : IpcBus) : PriorityOp → Prop
  | .sendPriority packet => P b packet
  | .receive => True

/-- The bus, the number of packets sent so far, and its queue with their numbers. -/
structure Numbered where
  bus : IpcBus
  sent : ℕ
  queue : List (ℕ × IpcPacket)

namespace Numbered

def start (size : ℕ) (policy : BackpressurePolicy) (dedup : Bool) : Numbered where
  bus := { (IpcBus.new size).withBackpressure policy with dedupEnabled := dedup }
  sent := 0
  queue := []

def step (s : Numbered) : PriorityOp → Option Numbered
  | .sendPriority packet => some {
      bus := (s.bus.sendPriority packet).1
      sent := s.sent+1
      queue :=
        if s.bus.Accepts packet then
          insertBefore (fun p => p.2.header.priority < packet.header.priority) (s.sent,packet)
            (if s.bus.Full then s.queue.dropLast else s.queue)
        else s.queue }
  | .receive => some { s with bus := s.bus.receive.1, queue := s.queue.tail }

/-- By falling priority, and in the order of sending within a priority. -/
def Before (p q : ℕ × IpcPacket) : Prop :=
  q.2.header.priority < p.2.header.priority ∨
    q.2.header.priority = p.2.header.priority ∧ p.1 < q.1

structure Ordered (s : Numbered) : Prop where
  queue_eq : s.bus.queue = s.queue.map Prod.snd
  pairwise : s.queue.Pairwise Before

structure Sound (s : Numbered) : Prop extends Ordered s where
  numbers : ∀ p ∈ s.queue, p.1 < s.sent

variable {s t : Numbered} {packet : IpcPacket}

theorem Sound.sendPriority (h : s.Sound) (hs : s.step (.sendPriority packet) = some t) :
    t.Sound := by
  cases hs
  have hlater : ∀ p ∈ s.queue, p.1 < s.sent+1 := fun p hp => Nat.lt_succ_of_lt (h.numbers p hp)
  by_cases haccepts : s.bus.Accepts packet
  swap
  · rw [if_neg haccepts]
    refine ⟨⟨?_,h.pairwise⟩,hlater⟩
    rw [IpcBus.queue_sendPriority,if_neg haccepts,h.queue_eq]
  have hsub : (if s.bus.Full then s.queue.dropLast else s.queue) <+ s.queue := by
    split_ifs
    · exact dropLast_sublist _
    · exact Sublist.refl _
  have hmap : (if s.bus.Full then s.queue.dropLast else s.queue).map Prod.snd =
      if s.bus.Full then s.bus.queue.dropLast else s.bus.queue := by
    rw [apply_ite (List.map Prod.snd),map_dropLast,← h.queue_eq]
  rw [if_pos haccepts]
  refine ⟨⟨?_,?_⟩,fun p hp => ?_⟩
  · rw [IpcBus.queue_sendPriority,if_pos haccepts,← hmap]
    exact (map_insertBefore Prod.snd (s.sent,packet) _).symm
  · apply pairwise_insertBefore (h.pairwise.sublist hsub)
    · intro p q hpq hp
      simp only [decide_eq_true_eq] at hp ⊢
      rcases hpq with hlt | ⟨heq,-⟩
      · exact UInt8.lt_trans hlt hp
      · rwa [heq]
    · intro p hp hlow
      rw [decide_eq_false_iff_not,UInt8.not_lt] at hlow
      rcases UInt8.lt_or_eq_of_le hlow with hlt | heq
      · exact .inl hlt
      · exact .inr ⟨heq,h.numbers p (hsub.subset hp)⟩
    · intro p _ hhigh
      exact .inl (of_decide_eq_true hhigh)
  · rcases mem_cons.mp ((insertBefore_perm _ _ _).mem_iff.mp hp) with rfl | hmem
    · exact Nat.lt_succ_self _
    · exact hlater p (hsub.subset hmem)

theorem Sound.receive (h : s.Sound) (hs : s.step .receive = some t) : t.Sound := by
  cases hs
  refine ⟨⟨?_,h.pairwise.sublist (tail_sublist _)⟩,fun p hp => h.numbers p (mem_of_mem_tail hp)⟩
  have hqueue : s.bus.receive.1.queue = s.bus.queue.tail := by
    unfold IpcBus.receive
    cases hq : s.bus.queue with
    | nil => exact hq
    | cons p rest => rfl
  rw [hqueue,h.queue_eq,map_tail]

theorem Ordered.evictsLeast_iff (h : s.Ordered) :
    s.bus.EvictsLeast packet ↔ s.bus.OutranksLast packet := by
  constructor
  · intro hleast haccepts hfull dropped hdropped
    apply hleast haccepts hfull dropped hdropped
    rw [IpcBus.queue_sendPriority,if_pos haccepts]
    exact (insertBefore_perm _ _ _).mem_iff.mpr mem_cons_self
  · intro hrank haccepts hfull dropped hdropped p hp
    rw [IpcBus.queue_sendPriority,if_pos haccepts,if_pos hfull] at hp
    rcases mem_cons.mp ((insertBefore_perm _ _ _).mem_iff.mp hp) with rfl | hmem
    · exact hrank haccepts hfull dropped hdropped
    -- the packet that goes is the last one of a queue in order
    · have hsorted : s.bus.queue.Pairwise fun p q => q.header.priority ≤ p.header.priority := by
        rw [h.queue_eq,pairwise_map]
        apply h.pairwise.imp
        rintro p q (hlt | ⟨heq,-⟩)
        · exact UInt8.le_of_lt hlt
        · exact UInt8.le_of_eq heq
      rw [← dropLast_append_getLast? dropped hdropped] at hsorted
      exact (pairwise_append.mp hsorted).2.2 p hmem dropped mem_cons_self

/-- Every bus is in order in every run; it gives up its least important packets in those in which no
packet comes to a full queue that is less important than its last one. -/
theorem priority_order_iff (size : ℕ) (policy : BackpressurePolicy) (dedup : Bool)
    (ops : List PriorityOp) :
    Always step Ordered (start size policy dedup) ops ∧
        EachStep step (fun s op _ => op.Meets IpcBus.EvictsLeast s.bus)
          (start size policy dedup) ops ↔
      EachStep step (fun s op _ => op.Meets IpcBus.OutranksLast s.bus)
        (start size policy dedup) ops := by
  have hsound : Always step Sound (start size policy dedup) ops := by
    refine always_of_step (fun s op t h hs => ?_) ⟨⟨rfl,Pairwise.nil⟩,by simp [start]⟩ ops
    cases op with
    | sendPriority packet => exact h.sendPriority hs
    | receive => exact h.receive hs
  have hmeets (s : Numbered) (op : PriorityOp) (h : s.Sound) :
      op.Meets IpcBus.EvictsLeast s.bus ↔ op.Meets IpcBus.OutranksLast s.bus := by
    cases op with
    | sendPriority packet => exact h.evictsLeast_iff
    | receive => exact Iff.rfl
  constructor
  · rintro ⟨-,hleast⟩
    exact hsound.eachStep (fun s op _ h hop _ => (hmeets s op h).mp hop) hleast
  · intro hrank
    exact ⟨hsound.mono fun s h => h.toOrdered,
      hsound.eachStep (fun s op _ h hop _ => (hmeets s op h).mpr hop) hrank⟩

def ranked (priority : UInt8) : IpcPacket where
  header := {
    packetId := 1
    sourceBlock := 1
    targetBlock := 2
    commandId := CommandId.custom.toU16
    priority
    payloadLen := 4
    checksum := .zeros }
  payload := .empty

/-- A full queue gives up a packet for one that is less important. -/
theorem important_packet_gives_way :
    ¬ EachStep step (fun s op _ => op.Meets IpcBus.EvictsLeast s.bus) (start 1 .dropOldest false)
      [.sendPriority (ranked 2),.sendPriority (ranked 0)] := by
  intro h
  have hleast := ((h _ rfl).2 _ rfl).1 (by decide) (by decide) (ranked 2) rfl (ranked 0)
  exact absurd (hleast (mem_singleton_self _)) (by decide)

end Numbered
end Aios.Ipc
