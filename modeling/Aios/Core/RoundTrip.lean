import Aios.Core.IpcProtocol
import Aios.Lib.Sha256

/-!
Reading packets back. Every payload but one kind is read as it was written; the JSON value of an
intent is never read.
-/
namespace Aios.Core

open Bincode Decodes

theorem digest_decodes (c : Digest) : Decodes digest c.1 c := by
  refine (takeExact_decodes c.2).finish ?_
  rw [dif_pos c.2]
  exact pure c

theorem FaultKind.decode_decodes (k : FaultKind) :
    Decodes FaultKind.decode (leBytes 4 k.index) k := by
  cases k with
  | panic | hang | taskFault => exact (fixed_decodes (by decide)).finish (pure _)

theorem RecoveryAction.decode_decodes (a : RecoveryAction) :
    Decodes RecoveryAction.decode (leBytes 4 a.index) a := by
  cases a with
  | rollback | terminate | resume => exact (fixed_decodes (by decide)).finish (pure _)

theorem FaultInfo.decode_decodes (f : FaultInfo) : Decodes FaultInfo.decode f.encode f :=
  (u64_decodes f.pid).bind <| (str_decodes f.name).bind <| f.kind.decode_decodes.bind <|
    (str_decodes f.message).bind <| (u64_decodes f.timestampMs).finish <| pure f

theorem ClusterProcessInfo.decode_decodes (c : ClusterProcessInfo) :
    Decodes ClusterProcessInfo.decode c.encode c :=
  (u64_decodes c.node).bind <| (u64_decodes c.pid).bind <| (str_decodes c.name).bind <|
    (str_decodes c.state).bind <| (u64_decodes c.ramMb).finish <| pure c

theorem Header.decode_decodes (h : Header) : Decodes Header.decode h.encode h :=
  (u64_decodes h.packetId).bind <| (u32_decodes h.sourceBlock).bind <|
    (u32_decodes h.targetBlock).bind <| (u16_decodes h.commandId).bind <|
    (u8_decodes h.priority).bind <| (u32_decodes h.payloadLen).bind <|
    (digest_decodes h.checksum).finish <| pure h

namespace Payload

def isIntentCommand : Payload → Bool
  | .intentCommand _ _ => true
  | _ => false

theorem index_lt (p : Payload) : p.index < 256^4 := by
  unfold index
  split <;> omega

theorem decode_decodes (p : Payload) (h : p.isIntentCommand = false) :
    Decodes Payload.decode p.toBytes p := by
  have hpure (q : Payload) : Decodes (Pure.pure q) [] q := pure q
  have hbytes := vec_decodes u8_decodes
  refine (fixed_decodes p.index_lt).bind ?_
  cases p with
  | empty | getTopology | healthCheck | extractState | clusterStatus => exact hpure _
  | binary bytes => exact (hbytes bytes).finish (hpure _)
  | restoreState state => exact (hbytes state).finish (hpure _)
  | text s => exact (str_decodes s).finish (hpure _)
  | registerBlock name version bin =>
    exact (str_decodes name).bind ((str_decodes version).bind ((hbytes bin).finish (hpure _)))
  | unloadBlock blockId => exact (u32_decodes blockId).finish (hpure _)
  | rollback blockId => exact (u32_decodes blockId).finish (hpure _)
  | spawnProcess name priority ramMb =>
    exact (str_decodes name).bind
      ((u8_decodes priority).bind ((u64_decodes ramMb).finish (hpure _)))
  | killProcess pid => exact (u64_decodes pid).finish (hpure _)
  | adjustPriority pid newPriority =>
    exact (u64_decodes pid).bind ((u8_decodes newPriority).finish (hpure _))
  | hotSwap blockId newBinary newVersion =>
    exact (u32_decodes blockId).bind ((hbytes newBinary).bind
      ((str_decodes newVersion).finish (hpure _)))
  | intentCommand intent context => cases h
  | clusterSpawn name priority ramMb targetNode =>
    exact (str_decodes name).bind ((u8_decodes priority).bind ((u64_decodes ramMb).bind
      ((option_decodes u64_decodes targetNode).finish (hpure _))))
  | clusterKill node pid => exact (u64_decodes node).bind ((u64_decodes pid).finish (hpure _))
  | clusterStatusReply processes =>
    exact (vec_decodes ClusterProcessInfo.decode_decodes processes).finish (hpure _)
  | faultReport fault => exact fault.decode_decodes.finish (hpure _)
  | recoveryDecision pid action =>
    exact (u64_decodes pid).bind (action.decode_decodes.finish (hpure _))
  | custom tag data => exact (str_decodes tag).bind ((hbytes data).finish (hpure _))

theorem decode_rejects (p : Payload) (h : p.isIntentCommand = true) :
    Rejects Payload.decode p.toBytes := by
  refine Rejects.bind (fixed_decodes p.index_lt) ?_
  cases p with
  | intentCommand intent context => exact Rejects.bind (str_decodes intent) fun _ => rfl
  | _ => cases h

end Payload

namespace IpcPacket

/-- The packet comes from one of the constructors that fill in the checksum. -/
def Built (sha256 : List UInt8 → Digest) (p : IpcPacket) : Prop :=
  (∃ counter source target command payload,
      p = (new sha256 counter source target command payload).1) ∨
    (∃ source target inReplyTo payload, p = responseOk sha256 source target inReplyTo payload) ∨
    ∃ source target inReplyTo msg, p = responseErr sha256 source target inReplyTo msg

/-- The packet is read back as it was written, with a valid checksum if it was built with
one. -/
def RoundTrips (sha256 : List UInt8 → Digest) (p : IpcPacket) : Prop :=
  ∃ q, deserialize p.serialize = some q ∧ q = p ∧ (p.Built sha256 → q.verifyChecksum sha256 = true)

variable {sha256 : List UInt8 → Digest} {p : IpcPacket}

theorem Built.verifyChecksum (h : p.Built sha256) : p.verifyChecksum sha256 = true := by
  rcases h with ⟨_,_,_,_,_,rfl⟩ | ⟨_,_,_,_,rfl⟩ | ⟨_,_,_,_,rfl⟩ <;> exact decide_eq_true rfl

theorem decode_decodes (h : p.payload.isIntentCommand = false) :
    Decodes IpcPacket.decode p.serialize p :=
  p.header.decode_decodes.bind ((p.payload.decode_decodes h).finish (pure p))

theorem deserialize_serialize (h : p.payload.isIntentCommand = false) :
    deserialize p.serialize = some p := by
  have hall := decode_decodes h []
  rw [List.append_nil] at hall
  rw [deserialize,hall]
  rfl

theorem deserialize_serialize_intent (h : p.payload.isIntentCommand = true) :
    deserialize p.serialize = none := by
  have hrejects : Rejects IpcPacket.decode p.serialize :=
    Rejects.bind p.header.decode_decodes ((p.payload.decode_rejects h).bind_left _)
  have hall := hrejects []
  rw [List.append_nil] at hall
  rw [deserialize,hall]
  rfl

variable (sha256)

/-- Exactly the packets without an intent survive the round trip. -/
theorem roundTrips_iff_not_intent (p : IpcPacket) :
    p.RoundTrips sha256 ↔ p.payload.isIntentCommand = false := by
  constructor
  · rintro ⟨q,hq,-⟩
    by_contra hintent
    rw [deserialize_serialize_intent (by simpa using hintent)] at hq
    cases hq
  · intro h
    exact ⟨p,deserialize_serialize h,rfl,Built.verifyChecksum⟩

def emptyIntent : IpcPacket :=
  (new sha256 1 0 1 .intentCommand (.intentCommand ⟨"",by decide⟩ .null)).1

variable {sha256}

theorem intent_is_not_read_back : (emptyIntent Sha256.sha256).Built Sha256.sha256 ∧
      deserialize (emptyIntent Sha256.sha256).serialize = none ∧
      ¬ (emptyIntent Sha256.sha256).RoundTrips Sha256.sha256 := by
  have hnone : deserialize (emptyIntent Sha256.sha256).serialize = none :=
    deserialize_serialize_intent rfl
  refine ⟨.inl ⟨_,_,_,_,_,rfl⟩,hnone,?_⟩
  rintro ⟨q,hq,-⟩
  cases hq

end IpcPacket
end Aios.Core
