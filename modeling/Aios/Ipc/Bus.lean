import Aios.Core.IpcProtocol
import Aios.Lib.KeyedQueue
import Aios.Lib.Transition

/-!
The message bus: a bounded queue of packets with an optional filter for ids already queued. Freezing
takes the queue away, unfreezing puts it back.
-/
namespace Aios.Ipc

open Aios.Core KeyedQueue Transition

inductive BackpressurePolicy where
  | reject
  | dropOldest
  deriving DecidableEq

inductive AIOSException where
  | ipcError (message : String)
  deriving DecidableEq

structure BusMetrics where
  totalSent : ℕ := 0
  totalReceived : ℕ := 0
  totalDropped : ℕ := 0
  totalDeduplicated : ℕ := 0
  peakQueueDepth : ℕ := 0
  deriving DecidableEq

structure IpcBus where
  queue : List IpcPacket
  maxQueueSize : ℕ
  frozen : Bool
  backpressure : BackpressurePolicy
  seenPacketIds : Finset UInt64
  dedupEnabled : Bool
  metrics : BusMetrics

def packetId (p : IpcPacket) : UInt64 := p.header.packetId

namespace IpcBus

def new (maxQueueSize : ℕ) : IpcBus where
  queue := []
  maxQueueSize := maxQueueSize
  frozen := false
  backpressure := .reject
  seenPacketIds := ∅
  dedupEnabled := false
  metrics := {}

variable (b : IpcBus)

def withBackpressure (policy : BackpressurePolicy) : IpcBus :=
  { b with backpressure := policy }

def withDedup : IpcBus := { b with dedupEnabled := true }

def isDuplicate (packet : IpcPacket) : Bool :=
  b.dedupEnabled && decide (packetId packet ∈ b.seenPacketIds)

/-- Removes the packet that `pop` selects, if there is one. -/
def evict (pop : List IpcPacket → Option (IpcPacket × List IpcPacket)) : IpcBus :=
  match pop b.queue with
  | none => b
  | some (dropped,rest) =>
    { b with
      queue := rest
      seenPacketIds := b.seenPacketIds.erase (packetId dropped)
      metrics.totalDropped := b.metrics.totalDropped+1 }

/-- Records the packet's id and puts it where `place` says. -/
def enqueue (place : IpcPacket → List IpcPacket → List IpcPacket) (packet : IpcPacket) : IpcBus :=
  let queue := place packet b.queue
  { b with
    queue := queue
    seenPacketIds := insert (packetId packet) b.seenPacketIds
    metrics.totalSent := b.metrics.totalSent+1
    metrics.peakQueueDepth := max b.metrics.peakQueueDepth queue.length }

/-- What both ways of sending share: they differ in the packet that a full queue gives up and
in the place of the new one. -/
def sendWith (pop : List IpcPacket → Option (IpcPacket × List IpcPacket))
    (place : IpcPacket → List IpcPacket → List IpcPacket) (b : IpcBus) (packet : IpcPacket) :
    IpcBus × Except AIOSException Unit :=
  if b.frozen then
    (b,.error (.ipcError "Bus is frozen"))
  else if b.isDuplicate packet then
    ({ b with metrics.totalDeduplicated := b.metrics.totalDeduplicated+1 },.ok ())
  else if b.maxQueueSize ≤ b.queue.length then
    match b.backpressure with
    | .reject =>
      ({ b with metrics.totalDropped := b.metrics.totalDropped+1 },
        .error (.ipcError "Message queue full"))
    | .dropOldest => ((b.evict pop).enqueue place packet,.ok ())
  else
    (b.enqueue place packet,.ok ())

def send : IpcBus → IpcPacket → IpcBus × Except AIOSException Unit :=
  sendWith popFront fun packet queue => queue ++ [packet]

/-- The queue is ordered by priority, so a full queue gives up its back. -/
def sendPriority : IpcBus → IpcPacket → IpcBus × Except AIOSException Unit :=
  sendWith popBack fun packet queue =>
    insertBefore (fun p => p.header.priority < packet.header.priority) packet queue

def receive : IpcBus × Option IpcPacket :=
  match popFront b.queue with
  | none => (b,none)
  | some (p,rest) =>
    ({ b with
       queue := rest
       seenPacketIds := b.seenPacketIds.erase (packetId p)
       metrics.totalReceived := b.metrics.totalReceived+1 },some p)

def flush : IpcBus := { b with queue := [], seenPacketIds := ∅ }

def freeze : IpcBus × List IpcPacket :=
  ({ b with frozen := true, seenPacketIds := ∅, queue := [] },b.queue)

def restore (packet : IpcPacket) : IpcBus :=
  { b with
    seenPacketIds := insert (packetId packet) b.seenPacketIds
    queue := packet::b.queue }

def unfreeze (packets : List IpcPacket) : IpcBus :=
  packets.reverse.foldl restore { b with frozen := false }

def retarget (oldTarget newTarget : UInt32) (packet : IpcPacket) : IpcPacket :=
  if packet.header.targetBlock = oldTarget then
    { packet with header.targetBlock := newTarget }
  else
    packet

def reroute (oldTarget newTarget : UInt32) : IpcBus × ℕ :=
  ({ b with queue := b.queue.map (retarget oldTarget newTarget) },
    b.queue.countP fun p => p.header.targetBlock = oldTarget)

end IpcBus
end Aios.Ipc
