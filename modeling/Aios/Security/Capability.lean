import Aios.Core.IpcProtocol
import Aios.Lib.Sha256
import Aios.Lib.Splits

/-!
Capabilities and the signed tokens that grant them to a block. The hash is a parameter: the code
takes it from a library.
-/
namespace Aios.Security

open Aios.Core Bincode

inductive Capability where
  | netBind
  | netConnect
  | netListen
  | fsRead
  | fsWrite
  | fsDelete
  | hwAccess
  | memAlloc
  | memShare
  | schedModify
  | blockLoad
  | blockUnload
  | processSpawn
  | processKill
  | systemConfig
  | all
  deriving DecidableEq

def Capability.name : Capability → String
  | .netBind => "CAP_NET_BIND"
  | .netConnect => "CAP_NET_CONNECT"
  | .netListen => "CAP_NET_LISTEN"
  | .fsRead => "CAP_FS_READ"
  | .fsWrite => "CAP_FS_WRITE"
  | .fsDelete => "CAP_FS_DELETE"
  | .hwAccess => "CAP_HW_ACCESS"
  | .memAlloc => "CAP_MEM_ALLOC"
  | .memShare => "CAP_MEM_SHARE"
  | .schedModify => "CAP_SCHED_MODIFY"
  | .blockLoad => "CAP_BLOCK_LOAD"
  | .blockUnload => "CAP_BLOCK_UNLOAD"
  | .processSpawn => "CAP_PROCESS_SPAWN"
  | .processKill => "CAP_PROCESS_KILL"
  | .systemConfig => "CAP_SYSTEM_CONFIG"
  | .all => "CAP_ALL"

/-- `all_variants`; the capability that grants everything is not among them. -/
def Capability.allVariants : List Capability :=
  [.netBind,.netConnect,.netListen,.fsRead,.fsWrite,.fsDelete,.hwAccess,.memAlloc,
    .memShare,.schedModify,.blockLoad,.blockUnload,.processSpawn,.processKill,.systemConfig]

structure CapabilityToken where
  blockId : UInt32
  capabilities : List Capability
  issuedAtMs : UInt64
  expiresAtMs : UInt64
  issuerSignature : Digest
  deriving DecidableEq

namespace CapabilityToken

/-- The bytes that `compute_signature` feeds to the hasher, one update after the other. -/
def signedBytes (blockId : UInt32) (capabilities : List Capability)
    (issuedAtMs expiresAtMs : UInt64) (secret : List UInt8) : List UInt8 :=
  secret ++ (encodeU32 blockId ++ (capabilities.flatMap (fun cap => Utf8.bytes cap.name) ++
    (encodeU64 issuedAtMs ++ encodeU64 expiresAtMs)))

variable (sha256 : List UInt8 → Digest)

def computeSignature (blockId : UInt32) (capabilities : List Capability)
    (issuedAtMs expiresAtMs : UInt64) (secret : List UInt8) : Digest :=
  sha256 (signedBytes blockId capabilities issuedAtMs expiresAtMs secret)

/-- `new`, with the reading of the clock; the sum wraps around in a release build. -/
def new (now : UInt64) (blockId : UInt32) (capabilities : List Capability) (ttlMs : UInt64)
    (issuerSecret : List UInt8) : CapabilityToken :=
  let issuedAtMs := now
  let expiresAtMs := issuedAtMs+ttlMs
  { blockId, capabilities, issuedAtMs, expiresAtMs
    issuerSignature :=
      computeSignature sha256 blockId capabilities issuedAtMs expiresAtMs issuerSecret }

variable (token : CapabilityToken)

def hasCapability (cap : Capability) : Bool :=
  token.capabilities.contains cap || token.capabilities.contains .all

def isExpired (now : UInt64) : Bool := now > token.expiresAtMs

def verify (issuerSecret : List UInt8) : Bool :=
  token.issuerSignature == computeSignature sha256 token.blockId token.capabilities
    token.issuedAtMs token.expiresAtMs issuerSecret

/-- What a token says, its signature aside. -/
def fields : UInt32 × List Capability × UInt64 × UInt64 :=
  (token.blockId,token.capabilities,token.issuedAtMs,token.expiresAtMs)

def signed (secret : List UInt8) : List UInt8 :=
  signedBytes token.blockId token.capabilities token.issuedAtMs token.expiresAtMs secret

end CapabilityToken

theorem Capability.mem_allVariants (cap : Capability) : cap ∈ .all::allVariants := by
  cases cap <;> decide

/-- No name is the start of another, which is what stands in for separators between them. -/
theorem Capability.name_prefixFree (cap other : Capability) :
    Utf8.bytes cap.name <+: Utf8.bytes other.name → cap = other := by
  have hall : ∀ c ∈ .all::allVariants, ∀ d ∈ .all::allVariants,
      Utf8.bytes c.name <+: Utf8.bytes d.name → c = d := by
    decide +kernel
  exact hall cap cap.mem_allVariants other other.mem_allVariants

theorem Capability.name_ne_nil (cap : Capability) : Utf8.bytes cap.name ≠ [] := by
  have hall : ∀ c ∈ .all::allVariants, Utf8.bytes c.name ≠ [] := by decide +kernel
  exact hall cap cap.mem_allVariants

namespace CapabilityToken

variable {secret : List UInt8}

theorem signedBytes_injective {blockId blockId' : UInt32} {caps caps' : List Capability}
    {issued issued' expires expires' : UInt64} (h : signedBytes blockId caps issued expires secret =
      signedBytes blockId' caps' issued' expires' secret) :
    blockId = blockId' ∧ caps = caps' ∧ issued = issued' ∧ expires = expires' := by
  have hrest := List.append_cancel_left h
  obtain ⟨hid,hrest⟩ := (u32_decodes blockId).unique (u32_decodes blockId') hrest
  -- The times take sixteen bytes in both, so that the names end at the same place.
  have hwidth : (encodeU64 issued ++ encodeU64 expires).length =
      (encodeU64 issued' ++ encodeU64 expires').length := by
    simp [encodeU64]
  obtain ⟨hnames,htimes⟩ := List.append_inj' hrest hwidth
  have hcaps := Splits.flatMap_injective Capability.name_ne_nil Capability.name_prefixFree hnames
  obtain ⟨hissued,hexpires⟩ := (u64_decodes issued).unique (u64_decodes issued') htimes
  have hends : encodeU64 expires ++ [] = encodeU64 expires' ++ [] := by rw [hexpires]
  exact ⟨hid,hcaps,hissued,((u64_decodes expires).unique (u64_decodes expires') hends).1⟩

theorem signed_ne_of_fields_ne {token other : CapabilityToken} (h : token.fields ≠ other.fields)
    (secret : List UInt8) : token.signed secret ≠ other.signed secret := by
  intro hsame
  obtain ⟨hid,hcaps,hissued,hexpires⟩ := signedBytes_injective hsame
  apply h
  unfold fields
  rw [hid,hcaps,hissued,hexpires]

theorem verify_iff {sha256 : List UInt8 → Digest} {token : CapabilityToken} :
    token.verify sha256 secret = true ↔ token.issuerSignature = sha256 (token.signed secret) :=
  beq_iff_eq

/-- Tokens with other fields are signed over other bytes, under every secret. A hash without a
collision between the two gives signatures that differ, so that `verify` accepts no signature on
both. -/
theorem signature_binds_fields (token other : CapabilityToken) (secret : List UInt8)
    (hother : token.fields ≠ other.fields) :
    token.signed secret ≠ other.signed secret ∧
      ∀ sha256 : List UInt8 → Digest,
        (sha256 (token.signed secret) = sha256 (other.signed secret) →
          token.signed secret = other.signed secret) →
        other.issuerSignature = token.issuerSignature →
        token.verify sha256 secret = true → other.verify sha256 secret = false := by
  have hbytes := signed_ne_of_fields_ne hother secret
  refine ⟨hbytes,fun sha256 hfree hsig hverify => ?_⟩
  rw [Bool.eq_false_iff]
  intro haccepted
  apply hbytes
  apply hfree
  rw [← verify_iff.mp hverify,← verify_iff.mp haccepted,hsig]

theorem signature_binds_fields_sample :
    ({ new Sha256.sha256 5 1 [.fsRead,.fsWrite] 60 [7] with capabilities := [.fsRead] }).verify
      Sha256.sha256 [7] = false := by
  have hother : (new Sha256.sha256 5 1 [.fsRead,.fsWrite] 60 [7]).fields ≠
      ({ new Sha256.sha256 5 1 [.fsRead,.fsWrite] 60 [7] with
        capabilities := [.fsRead] }).fields := by
    decide +kernel
  refine (signature_binds_fields _ _ [7] hother).2 Sha256.sha256 ?_ rfl ?_
  · intro hsame
    exact absurd hsame (by decide +kernel)
  · decide +kernel

end CapabilityToken
end Aios.Security
