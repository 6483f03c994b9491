import Aios.Lib.Bincode

/-!
Packets of the kernel bus and their encoding: fields in order, variants numbered in the order of
their declaration.
-/
namespace Aios.Core

open Bincode

/-- `[u8; 32]`. -/
abbrev Digest := { bytes : List UInt8 // bytes.length = 32 }

def Digest.zeros : Digest := ⟨List.replicate 32 0,rfl⟩

structure Header where
  packetId : UInt64
  sourceBlock : UInt32
  targetBlock : UInt32
  commandId : UInt16
  priority : UInt8
  payloadLen : UInt32
  checksum : Digest
  deriving DecidableEq

/-- `serde_json::Value`; a number is stored in one of three ways, a float by its bits. -/
inductive Json where
  | null
  | bool (b : Bool)
  | posInt (n : UInt64)
  | negInt (n : Int64)
  | float (bits : UInt64)
  | string (s : Text)
  | array (items : List Json)
  | object (fields : List (Text × Json))

inductive FaultKind where
  | panic | hang | taskFault
  deriving DecidableEq

inductive RecoveryAction where
  | rollback | terminate | resume
  deriving DecidableEq

structure FaultInfo where
  pid : UInt64
  name : Text
  kind : FaultKind
  message : Text
  timestampMs : UInt64

structure ClusterProcessInfo where
  node : UInt64
  pid : UInt64
  name : Text
  state : Text
  ramMb : UInt64

inductive Payload where
  | empty
  | binary (bytes : Vec UInt8)
  | text (s : Text)
  | registerBlock (name version : Text) (binary : Vec UInt8)
  | unloadBlock (blockId : UInt32)
  | getTopology
  | spawnProcess (name : Text) (priority : UInt8) (ramMb : UInt64)
  | killProcess (pid : UInt64)
  | adjustPriority (pid : UInt64) (newPriority : UInt8)
  | healthCheck
  | extractState
  | restoreState (state : Vec UInt8)
  | hotSwap (blockId : UInt32) (newBinary : Vec UInt8) (newVersion : Text)
  | rollback (blockId : UInt32)
  | intentCommand (intent : Text) (context : Json)
  | clusterSpawn (name : Text) (priority : UInt8) (ramMb : UInt64) (targetNode : Option UInt64)
  | clusterKill (node pid : UInt64)
  | clusterStatus
  | clusterStatusReply (processes : Vec ClusterProcessInfo)
  | faultReport (fault : FaultInfo)
  | recoveryDecision (pid : UInt64) (action : RecoveryAction)
  | custom (tag : Text) (data : Vec UInt8)

structure IpcPacket where
  header : Header
  payload : Payload

inductive CommandId where
  | registerBlock | unloadBlock | getTopology | spawnProcess | killProcess | adjustPriority
  | healthCheck | extractState | restoreState | hotSwap | rollback | intentCommand
  | clusterSpawn | clusterKill | clusterStatus | faultReport | recoveryDecision | custom
  deriving DecidableEq

def CommandId.toU16 : CommandId → UInt16
  | .registerBlock => 0x0001
  | .unloadBlock => 0x0002
  | .getTopology => 0x0003
  | .spawnProcess => 0x0010
  | .killProcess => 0x0011
  | .adjustPriority => 0x0012
  | .healthCheck => 0x0020
  | .extractState => 0x0030
  | .restoreState => 0x0031
  | .hotSwap => 0x0040
  | .rollback => 0x0041
  | .intentCommand => 0x0050
  | .clusterSpawn => 0x0060
  | .clusterKill => 0x0061
  | .clusterStatus => 0x0062
  | .faultReport => 0x0070
  | .recoveryDecision => 0x0071
  | .custom => 0x00FF

-- JSON values are written without a word about their kind.
mutual

def Json.encode : Json → List UInt8
  | .null => []
  | .bool b => [if b then 1 else 0]
  | .posInt n => encodeU64 n
  | .negInt n => encodeU64 n.toUInt64
  | .float bits => encodeU64 bits
  | .string s => encodeText s
  | .array items => leBytes 8 items.length ++ Json.encodeItems items
  | .object fields => leBytes 8 fields.length ++ Json.encodeFields fields

def Json.encodeItems : List Json → List UInt8
  | [] => []
  | j::js => j.encode ++ Json.encodeItems js

def Json.encodeFields : List (Text × Json) → List UInt8
  | [] => []
  | (key,value)::fields => encodeText key ++ value.encode ++ Json.encodeFields fields

end

def FaultKind.index : FaultKind → ℕ
  | .panic => 0
  | .hang => 1
  | .taskFault => 2

def RecoveryAction.index : RecoveryAction → ℕ
  | .rollback => 0
  | .terminate => 1
  | .resume => 2

def FaultInfo.encode (f : FaultInfo) : List UInt8 :=
  encodeU64 f.pid ++ (encodeText f.name ++ (leBytes 4 f.kind.index ++
    (encodeText f.message ++ encodeU64 f.timestampMs)))

def ClusterProcessInfo.encode (c : ClusterProcessInfo) : List UInt8 :=
  encodeU64 c.node ++ (encodeU64 c.pid ++ (encodeText c.name ++
    (encodeText c.state ++ encodeU64 c.ramMb)))

def Payload.index : Payload → ℕ
  | .empty => 0
  | .binary _ => 1
  | .text _ => 2
  | .registerBlock _ _ _ => 3
  | .unloadBlock _ => 4
  | .getTopology => 5
  | .spawnProcess _ _ _ => 6
  | .killProcess _ => 7
  | .adjustPriority _ _ => 8
  | .healthCheck => 9
  | .extractState => 10
  | .restoreState _ => 11
  | .hotSwap _ _ _ => 12
  | .rollback _ => 13
  | .intentCommand _ _ => 14
  | .clusterSpawn _ _ _ _ => 15
  | .clusterKill _ _ => 16
  | .clusterStatus => 17
  | .clusterStatusReply _ => 18
  | .faultReport _ => 19
  | .recoveryDecision _ _ => 20
  | .custom _ _ => 21

/-- The fields of a payload, in their order. -/
def Payload.encodeFields : Payload → List UInt8
  | .empty | .getTopology | .healthCheck | .extractState | .clusterStatus => []
  | .binary bytes => encodeVec encodeU8 bytes
  | .text s => encodeText s
  | .registerBlock name version bin =>
    encodeText name ++ (encodeText version ++ encodeVec encodeU8 bin)
  | .unloadBlock blockId => encodeU32 blockId
  | .spawnProcess name priority ramMb => encodeText name ++ (encodeU8 priority ++ encodeU64 ramMb)
  | .killProcess pid => encodeU64 pid
  | .adjustPriority pid newPriority => encodeU64 pid ++ encodeU8 newPriority
  | .restoreState state => encodeVec encodeU8 state
  | .hotSwap blockId newBinary newVersion =>
    encodeU32 blockId ++ (encodeVec encodeU8 newBinary ++ encodeText newVersion)
  | .rollback blockId => encodeU32 blockId
  | .intentCommand intent context => encodeText intent ++ context.encode
  | .clusterSpawn name priority ramMb targetNode =>
    encodeText name ++ (encodeU8 priority ++ (encodeU64 ramMb ++ encodeOption encodeU64 targetNode))
  | .clusterKill node pid => encodeU64 node ++ encodeU64 pid
  | .clusterStatusReply processes => encodeVec ClusterProcessInfo.encode processes
  | .faultReport fault => fault.encode
  | .recoveryDecision pid action => encodeU64 pid ++ leBytes 4 action.index
  | .custom tag data => encodeText tag ++ encodeVec encodeU8 data

/-- `Payload::to_bytes`; writing to a vector does not fail. -/
def Payload.toBytes (p : Payload) : List UInt8 := leBytes 4 p.index ++ p.encodeFields

def Header.encode (h : Header) : List UInt8 :=
  encodeU64 h.packetId ++ (encodeU32 h.sourceBlock ++ (encodeU32 h.targetBlock ++
    (encodeU16 h.commandId ++ (encodeU8 h.priority ++ (encodeU32 h.payloadLen ++ h.checksum.1)))))

def IpcPacket.serialize (p : IpcPacket) : List UInt8 := p.header.encode ++ p.payload.toBytes

def digest : Decoder Digest := do
  let bytes ← takeExact 32
  if h : bytes.length = 32 then return ⟨bytes,h⟩ else failure

def FaultKind.decode : Decoder FaultKind := do
  match ← fixed 4 with
  | 0 => return .panic
  | 1 => return .hang
  | 2 => return .taskFault
  | _ => failure

def RecoveryAction.decode : Decoder RecoveryAction := do
  match ← fixed 4 with
  | 0 => return .rollback
  | 1 => return .terminate
  | 2 => return .resume
  | _ => failure

def FaultInfo.decode : Decoder FaultInfo := do
  return ⟨← u64,← str,← FaultKind.decode,← str,← u64⟩

def ClusterProcessInfo.decode : Decoder ClusterProcessInfo := do
  return ⟨← u64,← u64,← str,← str,← u64⟩

/-- A `serde_json::Value` wants to be told its kind by the format (`deserialize_any`), which
this format refuses. -/
def Json.decode : Decoder Json := failure

def Payload.decode : Decoder Payload := do
  match ← fixed 4 with
  | 0 => return .empty
  | 1 => return .binary (← vec u8)
  | 2 => return .text (← str)
  | 3 => return .registerBlock (← str) (← str) (← vec u8)
  | 4 => return .unloadBlock (← u32)
  | 5 => return .getTopology
  | 6 => return .spawnProcess (← str) (← u8) (← u64)
  | 7 => return .killProcess (← u64)
  | 8 => return .adjustPriority (← u64) (← u8)
  | 9 => return .healthCheck
  | 10 => return .extractState
  | 11 => return .restoreState (← vec u8)
  | 12 => return .hotSwap (← u32) (← vec u8) (← str)
  | 13 => return .rollback (← u32)
  | 14 => return .intentCommand (← str) (← Json.decode)
  | 15 => return .clusterSpawn (← str) (← u8) (← u64) (← option u64)
  | 16 => return .clusterKill (← u64) (← u64)
  | 17 => return .clusterStatus
  | 18 => return .clusterStatusReply (← vec ClusterProcessInfo.decode)
  | 19 => return .faultReport (← FaultInfo.decode)
  | 20 => return .recoveryDecision (← u64) (← RecoveryAction.decode)
  | 21 => return .custom (← str) (← vec u8)
  | _ => failure

def Header.decode : Decoder Header := do
  return ⟨← u64,← u32,← u32,← u16,← u8,← u32,← digest⟩

def IpcPacket.decode : Decoder IpcPacket := do
  return ⟨← Header.decode,← Payload.decode⟩

/-- Bytes behind the packet are ignored. -/
def IpcPacket.deserialize (data : List UInt8) : Option IpcPacket :=
  (IpcPacket.decode data).map Prod.fst

namespace IpcPacket

variable (sha256 : List UInt8 → Digest)

def new (counter : UInt64) (sourceBlock targetBlock : UInt32) (command : CommandId)
    (payload : Payload) : IpcPacket × UInt64 :=
  ({ header := {
      packetId := counter
      sourceBlock := sourceBlock
      targetBlock := targetBlock
      commandId := command.toU16
      priority := 2
      payloadLen := UInt32.ofNat payload.toBytes.length
      checksum := sha256 payload.toBytes }
     payload := payload },counter+1)

def responseOk (source target : UInt32) (inReplyTo : UInt64) (payload : Payload) : IpcPacket where
  header := {
    packetId := inReplyTo+1000000
    sourceBlock := source
    targetBlock := target
    commandId := CommandId.custom.toU16
    priority := 2
    payloadLen := UInt32.ofNat payload.toBytes.length
    checksum := sha256 payload.toBytes }
  payload := payload

def responseErr (source target : UInt32) (inReplyTo : UInt64) (msg : Text) : IpcPacket where
  header := {
    packetId := inReplyTo+2000000
    sourceBlock := source
    targetBlock := target
    commandId := CommandId.custom.toU16
    priority := 0
    payloadLen := UInt32.ofNat (Payload.text msg).toBytes.length
    checksum := sha256 (Payload.text msg).toBytes }
  payload := .text msg

def verifyChecksum (p : IpcPacket) : Bool := p.header.checksum = sha256 p.payload.toBytes

end IpcPacket
end Aios.Core
