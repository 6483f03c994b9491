import Aios.Core.Error
import Aios.Lib.FiniteMap
import Aios.Security.Capability

/-!
The layer that issues tokens to blocks, and what a history of issues and revocations allows a
block to do. Expiry is a sum of machine words, which wraps around.
-/
namespace Aios.Security

open Aios.Core

/-- The layer without its list of violations, which no decision reads. -/
structure AccessControlLayer where
  tokens : Finmap fun _ : UInt32 => CapabilityToken
  issuerSecret : List UInt8
  defaultTtlMs : UInt64

namespace AccessControlLayer

section
variable (sha256 : List UInt8 → Digest)

def new (issuerSecret : List UInt8) (defaultTtlMs : UInt64) : AccessControlLayer :=
  { tokens := ∅, issuerSecret, defaultTtlMs }

def issueTokenWithTtl (layer : AccessControlLayer) (now : UInt64) (blockId : UInt32)
    (capabilities : List Capability) (ttlMs : UInt64) : AccessControlLayer × CapabilityToken :=
  let token := CapabilityToken.new sha256 now blockId capabilities ttlMs layer.issuerSecret
  ({ layer with tokens := layer.tokens.insert blockId token },token)

def issueToken (layer : AccessControlLayer) (now : UInt64) (blockId : UInt32)
    (capabilities : List Capability) : AccessControlLayer × CapabilityToken :=
  layer.issueTokenWithTtl sha256 now blockId capabilities layer.defaultTtlMs

def revokeToken (layer : AccessControlLayer) (blockId : UInt32) : AccessControlLayer × Bool :=
  ({ layer with tokens := layer.tokens.erase blockId },(layer.tokens.lookup blockId).isSome)

def checkPermission (layer : AccessControlLayer) (now : UInt64) (blockId : UInt32)
    (required : Capability) : Except AIOSException Unit :=
  match layer.tokens.lookup blockId with
  | none => .error (.permissionDenied ("No token issued for block " ++ toString blockId))
  | some token =>
    if token.isExpired now then
      .error (.permissionDenied ("Token for block " ++ toString blockId ++ " has expired"))
    else if !token.hasCapability required then
      .error (.permissionDenied
        ("Block " ++ toString blockId ++ " lacks capability " ++ required.name))
    else .ok ()

/-- `clean_expired`; the clock is read again for every token, so that it may move on while the
tokens are looked at. -/
def cleanExpired (layer : AccessControlLayer) (now : UInt32 → UInt64) : AccessControlLayer × ℕ :=
  let tokens := layer.tokens.retain fun blockId token => !token.isExpired (now blockId)
  ({ layer with tokens },layer.tokens.keys.card-tokens.keys.card)

end

inductive Op where
  | issueToken (now : UInt64) (blockId : UInt32) (capabilities : List Capability)
  | issueTokenWithTtl (now : UInt64) (blockId : UInt32) (capabilities : List Capability)
      (ttlMs : UInt64)
  | revokeToken (blockId : UInt32)
  | cleanExpired (now : UInt32 → UInt64)

def apply (sha256 : List UInt8 → Digest) (layer : AccessControlLayer) : Op → AccessControlLayer
  | .issueToken now blockId capabilities => (layer.issueToken sha256 now blockId capabilities).1
  | .issueTokenWithTtl now blockId capabilities ttlMs =>
    (layer.issueTokenWithTtl sha256 now blockId capabilities ttlMs).1
  | .revokeToken blockId => (layer.revokeToken blockId).1
  | .cleanExpired now => (layer.cleanExpired now).1

def run (sha256 : List UInt8 → Digest) (layer : AccessControlLayer) (ops : List Op) :
    AccessControlLayer :=
  ops.foldl (apply sha256) layer

/-- The clock shows at most `t` while the operation runs, as a clock that never goes back does
before `t`. -/
def Op.Until (t : UInt64) : Op → Prop
  | .issueToken now _ _ => now ≤ t
  | .issueTokenWithTtl now _ _ _ => now ≤ t
  | .revokeToken _ => True
  | .cleanExpired now => ∀ blockId, now blockId ≤ t

end AccessControlLayer

structure Grant where
  issuedAtMs : UInt64
  ttlMs : UInt64
  capabilities : List Capability
  deriving DecidableEq

variable {secret : List UInt8} {blockId : UInt32} {grant : Grant} {t now : UInt64}
  {cap : Capability} {held : Option Grant} {ops : List Op}

namespace Grant

def Covers (grant : Grant) (cap : Capability) : Prop :=
  cap ∈ grant.capabilities ∨ .all ∈ grant.capabilities

instance (grant : Grant) (cap : Capability) : Decidable (grant.Covers cap) :=
  inferInstanceAs (Decidable (_ ∨ _))

def endsAt (grant : Grant) : ℕ := grant.issuedAtMs.toNat+grant.ttlMs.toNat

def Allows (grant : Grant) (cap : Capability) (t : UInt64) : Prop :=
  t.toNat ≤ grant.endsAt ∧ grant.Covers cap

instance (grant : Grant) (cap : Capability) (t : UInt64) : Decidable (grant.Allows cap t) :=
  inferInstanceAs (Decidable (_ ∧ _))

def token (sha256 : List UInt8 → Digest) (secret : List UInt8) (blockId : UInt32) (grant : Grant) :
    CapabilityToken :=
  CapabilityToken.new sha256 grant.issuedAtMs blockId grant.capabilities grant.ttlMs secret

/-- What a block holds after one more operation: the last grant that was not revoked since. -/
def after (defaultTtlMs : UInt64) (blockId : UInt32) (held : Option Grant) :
    AccessControlLayer.Op → Option Grant
  | .issueToken now id capabilities =>
    if id = blockId then some ⟨now,defaultTtlMs,capabilities⟩ else held
  | .issueTokenWithTtl now id capabilities ttlMs =>
    if id = blockId then some ⟨now,ttlMs,capabilities⟩ else held
  | .revokeToken id => if id = blockId then none else held
  | .cleanExpired _ => held

def outstanding (defaultTtlMs : UInt64) (blockId : UInt32) (ops : List AccessControlLayer.Op) :
    Option Grant :=
  ops.foldl (after defaultTtlMs blockId) none

theorem covers_iff_hasCapability {sha256 : List UInt8 → Digest} :
    (grant.token sha256 secret blockId).hasCapability cap = true ↔ grant.Covers cap := by
  simp [token,CapabilityToken.new,CapabilityToken.hasCapability,Covers]

/-- The code's comparison: a sum that wraps around lies before the time of issue, so that the token
has expired from the start. -/
theorem le_wrapped_iff (h : grant.issuedAtMs ≤ t) :
    t ≤ grant.issuedAtMs+grant.ttlMs ↔ t.toNat ≤ grant.endsAt ∧ grant.endsAt < 2^64 := by
  have httl := grant.ttlMs.toNat_lt
  rw [UInt64.le_iff_toNat_le] at h ⊢
  rw [UInt64.toNat_add,endsAt]
  omega

end Grant

open Grant

namespace AccessControlLayer

variable {sha256 : List UInt8 → Digest} {layer : AccessControlLayer} {op : Op}

theorem checkPermission_ok_iff : layer.checkPermission now blockId cap = .ok () ↔
      ∃ token, layer.tokens.lookup blockId = some token ∧ now ≤ token.expiresAtMs ∧
        token.hasCapability cap = true := by
  unfold checkPermission
  cases hfound : layer.tokens.lookup blockId with
  | none => simp
  | some token =>
    by_cases hexpired : token.expiresAtMs < now
    · simp [CapabilityToken.isExpired,hexpired]
    · have hvalid : now ≤ token.expiresAtMs := UInt64.not_lt.mp hexpired
      cases hcap : token.hasCapability cap with
      | true => simp [CapabilityToken.isExpired,hexpired,hvalid]
      | false => simp [CapabilityToken.isExpired,hexpired,hcap]

/-- What the table says of a block at a time `t` that is not yet past: the token of the grant it
holds, or nothing once that has expired. -/
def Reflects (sha256 : List UInt8 → Digest) (secret : List UInt8) (t : UInt64) (blockId : UInt32)
    (found : Option CapabilityToken) : Option Grant → Prop
  | none => found = none
  | some grant => grant.issuedAtMs ≤ t ∧
      (found = some (grant.token sha256 secret blockId) ∨
        found = none ∧ grant.issuedAtMs+grant.ttlMs < t)

@[simp] theorem apply_issuerSecret : (layer.apply sha256 op).issuerSecret = layer.issuerSecret := by
  cases op <;> rfl

@[simp] theorem apply_defaultTtlMs : (layer.apply sha256 op).defaultTtlMs = layer.defaultTtlMs := by
  cases op <;> rfl

theorem Reflects.issue {ttlMs : UInt64} {id : UInt32} {caps : List Capability} (hnow : now ≤ t)
    (h : Reflects sha256 layer.issuerSecret t blockId (layer.tokens.lookup blockId) held) :
    Reflects sha256 layer.issuerSecret t blockId
      ((layer.issueTokenWithTtl sha256 now id caps ttlMs).1.tokens.lookup blockId)
      (if id = blockId then some ⟨now,ttlMs,caps⟩ else held) := by
  unfold issueTokenWithTtl
  rw [Finmap.lookup_insert_if]
  by_cases hid : id = blockId
  · subst hid
    rw [if_pos rfl,if_pos rfl]
    exact ⟨hnow,.inl rfl⟩
  · rw [if_neg hid,if_neg (Ne.symm hid)]
    exact h

theorem Reflects.clean {now : UInt32 → UInt64} (hnow : now blockId ≤ t)
    (h : Reflects sha256 layer.issuerSecret t blockId (layer.tokens.lookup blockId) held) :
    Reflects sha256 layer.issuerSecret t blockId
      ((layer.cleanExpired now).1.tokens.lookup blockId) held := by
  unfold cleanExpired
  rw [Finmap.lookup_retain]
  cases held with
  | none =>
    have hnone : layer.tokens.lookup blockId = none := h
    rw [hnone]
    rfl
  | some grant =>
    obtain ⟨hissued,hfound | ⟨hnone,hpast⟩⟩ := h
    · refine ⟨hissued,?_⟩
      rw [hfound]
      by_cases hexpired : grant.issuedAtMs+grant.ttlMs < now blockId
      · right
        refine ⟨?_,UInt64.lt_of_lt_of_le hexpired hnow⟩
        simpa [CapabilityToken.isExpired,token,CapabilityToken.new] using hexpired
      · left
        simpa [CapabilityToken.isExpired,token,CapabilityToken.new] using hexpired
    · rw [hnone]
      exact ⟨hissued,.inr ⟨rfl,hpast⟩⟩

theorem Reflects.apply (hop : op.Until t)
    (h : Reflects sha256 layer.issuerSecret t blockId (layer.tokens.lookup blockId) held) :
    Reflects sha256 layer.issuerSecret t blockId ((layer.apply sha256 op).tokens.lookup blockId)
      (after layer.defaultTtlMs blockId held op) := by
  cases op with
  | issueToken | issueTokenWithTtl => exact h.issue hop
  | revokeToken id =>
    show Reflects _ _ _ _ ((layer.tokens.erase id).lookup blockId)
      (if id = blockId then none else held)
    rw [Finmap.lookup_erase_if]
    by_cases hid : id = blockId
    · rw [if_pos hid,if_pos hid.symm]
      rfl
    · rw [if_neg hid,if_neg (Ne.symm hid)]
      exact h
  | cleanExpired now => exact h.clean (hop blockId)

theorem Reflects.run (hops : ∀ op ∈ ops, op.Until t)
    (h : Reflects sha256 layer.issuerSecret t blockId (layer.tokens.lookup blockId) held) :
    Reflects sha256 layer.issuerSecret t blockId ((layer.run sha256 ops).tokens.lookup blockId)
      (ops.foldl (after layer.defaultTtlMs blockId) held) := by
  induction ops generalizing layer held with
  | nil => exact h
  | cons op ops ih =>
    obtain ⟨hop,hops⟩ := List.forall_mem_cons.mp hops
    have hstep := h.apply hop
    rw [← apply_issuerSecret] at hstep
    have hrun := ih hops hstep
    rw [apply_issuerSecret,apply_defaultTtlMs] at hrun
    exact hrun

/-- A grant whose end is no machine word is refused from the start. -/
theorem Reflects.check_iff
    (h : Reflects sha256 secret t blockId (layer.tokens.lookup blockId) (some grant)) :
    layer.checkPermission t blockId cap = .ok () ↔ grant.Allows cap t ∧ grant.endsAt < 2^64 := by
  obtain ⟨hissued,hfound⟩ := h
  have hword := le_wrapped_iff hissued
  rw [checkPermission_ok_iff]
  obtain hfound | ⟨hnone,hpast⟩ := hfound
  · have hgranted : (∃ token, layer.tokens.lookup blockId = some token ∧ t ≤ token.expiresAtMs ∧
        token.hasCapability cap = true) ↔
        t ≤ grant.issuedAtMs+grant.ttlMs ∧ grant.Covers cap := by
      rw [hfound]
      constructor
      · rintro ⟨token,htoken,ht,hcap⟩
        cases htoken
        exact ⟨ht,covers_iff_hasCapability.mp hcap⟩
      · rintro ⟨ht,hcap⟩
        exact ⟨_,rfl,ht,covers_iff_hasCapability.mpr hcap⟩
    rw [hgranted,hword,Allows]
    tauto
  · have hlate : ¬(t.toNat ≤ grant.endsAt ∧ grant.endsAt < 2^64) := by
      rw [← hword]
      exact UInt64.not_le.mpr hpast
    rw [hnone]
    constructor
    · rintro ⟨token,htoken,-⟩
      cases htoken
    · rintro ⟨⟨ht,-⟩,hend⟩
      exact absurd ⟨ht,hend⟩ hlate

/-- A check agrees with the history exactly when the grant that the block holds, if it covers the
capability, ends at a machine word. -/
theorem checkPermission_follows_history_iff (secret : List UInt8) (defaultTtlMs : UInt64)
    (ops : List Op) (t : UInt64) (blockId : UInt32) (cap : Capability)
    (hclock : ∀ op ∈ ops, op.Until t) :
    (((new secret defaultTtlMs).run sha256 ops).checkPermission t blockId cap = .ok () ↔
        ∃ grant ∈ outstanding defaultTtlMs blockId ops, grant.Allows cap t) ↔
      ∀ grant ∈ outstanding defaultTtlMs blockId ops, grant.Covers cap → grant.endsAt < 2^64 := by
  have hstart : Reflects sha256 (new secret defaultTtlMs).issuerSecret t blockId
      ((new secret defaultTtlMs).tokens.lookup blockId) none := Finmap.lookup_empty blockId
  have hrun : Reflects sha256 secret t blockId
      (((new secret defaultTtlMs).run sha256 ops).tokens.lookup blockId)
      (outstanding defaultTtlMs blockId ops) := hstart.run hclock
  cases hheld : outstanding defaultTtlMs blockId ops with
  | none =>
    rw [hheld] at hrun
    have hnone : ((new secret defaultTtlMs).run sha256 ops).tokens.lookup blockId = none := hrun
    rw [checkPermission_ok_iff,hnone]
    simp
  | some grant =>
    rw [hheld] at hrun
    rw [hrun.check_iff]
    have ht := t.toNat_lt
    simp only [Option.mem_def,Option.some.injEq,forall_eq',exists_eq_left']
    constructor
    · intro hagree hcap
      by_contra hend
      exact hend (hagree.mpr ⟨by omega,hcap⟩).2
    · intro hend
      constructor
      · exact fun h => h.1
      · exact fun h => ⟨h,hend h.2⟩

/-- A time to live that a manifest may ask for; the sum with the time of issue wraps around. -/
theorem longest_ttl_is_refused : ((new [7] 3600000).run Sha256.sha256
        [.issueTokenWithTtl 1 1 [.fsRead] 18446744073709551615]).checkPermission 1 1 .fsRead =
      .error (.permissionDenied "Token for block 1 has expired") ∧
    outstanding 3600000 1 [.issueTokenWithTtl 1 1 [.fsRead] 18446744073709551615] =
      some ⟨1,18446744073709551615,[.fsRead]⟩ ∧
    Allows ⟨1,18446744073709551615,[.fsRead]⟩ .fsRead 1 := by
  refine ⟨?_,?_,?_⟩
  · rfl
  · rfl
  · decide +kernel

theorem checkPermission_follows_history_sample : ((new [7] 3600000).run Sha256.sha256
        [.issueToken 5 1 [.fsRead],.cleanExpired fun _ => 6]).checkPermission 7 1 .fsRead =
      .ok () := by
  have hclock : ∀ op ∈ [Op.issueToken 5 1 [.fsRead],Op.cleanExpired fun _ => 6], op.Until 7 := by
    simp [Op.Until]
  refine ((checkPermission_follows_history_iff [7] 3600000 _ 7 1 .fsRead hclock).mpr ?_).mpr ?_
  · intro grant hgrant _
    cases hgrant
    decide
  · exact ⟨⟨5,3600000,[.fsRead]⟩,rfl,by decide⟩

end AccessControlLayer
end Aios.Security
