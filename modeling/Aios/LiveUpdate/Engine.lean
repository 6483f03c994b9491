import Aios.Core.Error
import Aios.Ipc.Dedup
import Aios.Lib.FiniteMap
import Aios.Lib.Sha256

/-!
The live update engine: a hot swap takes the packets off the bus, checks the new binary and puts the
packets back, on every way out, whatever the flag of the bus was.
-/
namespace Aios.LiveUpdate

open Aios.Core
open Aios.Ipc (IpcBus)

structure HotSwapEntry where
  blockId : UInt32
  oldBinary : List UInt8
  oldVersion : String
  oldState : List UInt8
  timestamp : ℕ
  deriving DecidableEq

structure SwapRecord where
  blockId : UInt32
  oldVersion : String
  newVersion : String
  success : Bool
  rolledBack : Bool
  timestamp : UInt64
  deriving DecidableEq

structure Clock where
  instant : ℕ
  unixMs : UInt64

structure LiveUpdateEngine where
  rollbackEntries : Finmap fun _ : UInt32 => HotSwapEntry
  swapHistory : List SwapRecord

structure Snapshot where
  state : List UInt8
  pendingPackets : List IpcPacket

def extractState (queue : IpcBus) (state : List UInt8) : IpcBus × Snapshot :=
  let frozen := queue.freeze
  (frozen.1,⟨state,frozen.2⟩)

def restoreState (queue : IpcBus) (snapshot : Snapshot) : IpcBus :=
  queue.unfreeze snapshot.pendingPackets

structure SwapRequest where
  blockId : UInt32
  oldBinary : List UInt8
  oldVersion : String
  oldState : List UInt8
  newBinary : List UInt8
  newVersion : String
  newSha256 : Digest
  healthCheck : Option (List UInt8 → Bool)

/-- There is a health check, and the new binary does not pass it. -/
def SwapRequest.unhealthy (a : SwapRequest) : Bool :=
  a.healthCheck.elim false fun check => !check a.newBinary

def SwapRequest.entry (a : SwapRequest) (now : Clock) : HotSwapEntry :=
  ⟨a.blockId,a.oldBinary,a.oldVersion,a.oldState,now.instant⟩

def SwapRequest.record (a : SwapRequest) (now : Clock) : SwapRecord :=
  ⟨a.blockId,a.oldVersion,a.newVersion,true,false,now.unixMs⟩

namespace LiveUpdateEngine

def new : LiveUpdateEngine := ⟨∅,[]⟩

/-- `perform_swap`, with the hash of `compute_sha256_bytes`. -/
def performSwap (computeSha256Bytes : List UInt8 → Digest) (e : LiveUpdateEngine)
    (a : SwapRequest) (now : Clock) (queue : IpcBus) :
    LiveUpdateEngine × IpcBus × Except AIOSException Unit :=
  let r := extractState queue a.oldState
  if computeSha256Bytes a.newBinary ≠ a.newSha256 then
    (e,restoreState r.1 r.2,
      .error (.hotSwapFailed ("SHA-256 mismatch for block " ++ toString a.blockId)))
  else if a.unhealthy then
    (e,restoreState r.1 r.2,
      .error (.hotSwapFailed ("Health check failed for block " ++ toString a.blockId)))
  else
    ({ rollbackEntries := e.rollbackEntries.insert a.blockId (a.entry now)
       swapHistory := e.swapHistory ++ [a.record now] },
      restoreState r.1 r.2,.ok ())

/-- `rollback`; a timeout that has passed is only logged. -/
def rollback (e : LiveUpdateEngine) (blockId : UInt32) (now : Clock) (queue : IpcBus) :
    LiveUpdateEngine × IpcBus × Except AIOSException HotSwapEntry :=
  match e.rollbackEntries.lookup blockId with
  | none =>
    (e,queue,.error (.rollbackFailed ("No rollback entry for block " ++ toString blockId)))
  | some entry =>
    let r := extractState queue entry.oldState
    ({ rollbackEntries := e.rollbackEntries.erase blockId
       swapHistory := e.swapHistory ++
         [⟨blockId,entry.oldVersion,"rolled_back",true,true,now.unixMs⟩] },
      restoreState r.1 r.2,.ok entry)

end LiveUpdateEngine

/-- The same packets in the same order, and the same flag. -/
def SameBus (b b' : IpcBus) : Prop := b'.queue = b.queue ∧ b'.frozen = b.frozen

/-- The packets come back in their order, on a bus that is not frozen. -/
theorem restoreState_extractState (b : IpcBus) (state : List UInt8) :
    (restoreState (extractState b state).1 (extractState b state).2).queue = b.queue ∧
      (restoreState (extractState b state).1 (extractState b state).2).frozen = false := by
  constructor
  · have hqueue := IpcBus.restore_queue (b := { b.freeze.1 with frozen := false }) b.queue
    rwa [show ({ b.freeze.1 with frozen := false } : IpcBus).queue = [] from rfl,
      List.append_nil] at hqueue
  · have hsettings :=
      IpcBus.restore_settings (b := { b.freeze.1 with frozen := false }) b.queue.reverse
    simp only [IpcBus.settings,Prod.mk.injEq] at hsettings
    exact hsettings.2.1

theorem sameBus_restoreState (b : IpcBus) (state : List UInt8) :
    SameBus b (restoreState (extractState b state).1 (extractState b state).2) ↔
      b.frozen = false := by
  obtain ⟨hqueue,hfrozen⟩ := restoreState_extractState b state
  rw [SameBus,hqueue,hfrozen]
  exact ⟨fun h => h.2.symm,fun h => ⟨rfl,h.symm⟩⟩

namespace LiveUpdateEngine

variable (computeSha256Bytes : List UInt8 → Digest) (e : LiveUpdateEngine) (a : SwapRequest)
  (now : Clock) (b : IpcBus)

theorem performSwap_bus : (e.performSwap computeSha256Bytes a now b).2.1 =
      restoreState (extractState b a.oldState).1 (extractState b a.oldState).2 := by
  unfold performSwap
  split_ifs <;> rfl

structure SwapLeaves : Prop where
  bus : SameBus b (e.performSwap computeSha256Bytes a now b).2.1
  onError : ∀ err, (e.performSwap computeSha256Bytes a now b).2.2 = .error err →
    (e.performSwap computeSha256Bytes a now b).1 = e
  onOk : (e.performSwap computeSha256Bytes a now b).2.2 = .ok () →
    (e.performSwap computeSha256Bytes a now b).1 =
      ⟨e.rollbackEntries.insert a.blockId (a.entry now),e.swapHistory ++ [a.record now]⟩

theorem swapLeaves_iff : SwapLeaves computeSha256Bytes e a now b ↔ b.frozen = false := by
  have hbus := sameBus_restoreState b a.oldState
  rw [← performSwap_bus computeSha256Bytes e a now] at hbus
  refine ⟨fun h => hbus.mp h.bus,fun h => ⟨hbus.mpr h,?_,?_⟩⟩
  all_goals
    unfold performSwap
    split_ifs <;> simp

theorem sameBus_rollback_iff (blockId : UInt32) : SameBus b (e.rollback blockId now b).2.1 ↔
      b.frozen = false ∨ e.rollbackEntries.lookup blockId = none := by
  unfold rollback
  cases h : e.rollbackEntries.lookup blockId with
  | none => simp [SameBus]
  | some entry => simpa using sameBus_restoreState b entry.oldState

/-- Swaps and rollbacks leave the bus as they found it exactly if it was not frozen, or if
there was nothing to roll back. -/
theorem bus_as_found_iff_not_frozen (blockId : UInt32) :
    (SwapLeaves computeSha256Bytes e a now b ↔ b.frozen = false) ∧
      (SameBus b (e.rollback blockId now b).2.1 ↔
        b.frozen = false ∨ e.rollbackEntries.lookup blockId = none) :=
  ⟨swapLeaves_iff computeSha256Bytes e a now b,sameBus_rollback_iff e now b blockId⟩

end LiveUpdateEngine

def emptyModule : List UInt8 := [0x00,0x61,0x73,0x6d,0x01,0x00,0x00,0x00]

/-- A module with nothing but a memory. -/
def memoryModule (pages : UInt8) : List UInt8 := emptyModule ++ [0x05,0x03,0x01,0x00,pages]

def sampleSwap : SwapRequest :=
  ⟨1,emptyModule,"0.1.0",[],memoryModule 1,"0.2.0",Sha256.sha256 (memoryModule 1),none⟩

/-- A bus that an outer operation has frozen is open again after the swap. -/
theorem swap_opens_frozen_bus : ((IpcBus.new 10).freeze.1).frozen = true ∧
      (LiveUpdateEngine.new.performSwap Sha256.sha256 sampleSwap ⟨0,0⟩
        (IpcBus.new 10).freeze.1).2.1.frozen = false ∧
      ¬ LiveUpdateEngine.SwapLeaves Sha256.sha256 .new sampleSwap ⟨0,0⟩
        (IpcBus.new 10).freeze.1 :=
  ⟨rfl,by decide +kernel,fun h => absurd h.bus.2 (by decide +kernel)⟩

end Aios.LiveUpdate
