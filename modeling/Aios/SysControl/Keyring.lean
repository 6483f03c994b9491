import Aios.Core.Error
import Aios.Core.IpcProtocol
import Aios.Lib.Fallible
import Aios.Lib.Sha256
import Aios.Lib.Tables
import Aios.Lib.TextCodec
import Aios.Lib.Transition
import Mathlib.Data.String.Basic

/-!
The vault for secrets: values sealed under one master key in a database of two tables, a canary that
checks the key, and the change of the master password. A read transaction does not find a table that
no write transaction has opened; other calls to the database succeed.
-/
namespace Aios.SysControl

open Aios.Core TextCodec Tables List Transition

abbrev utf8 (s : String) : List UInt8 := Utf8.bytes s

inductive TableName where
  | secretsTable
  | metaTable
  deriving DecidableEq

/-- The name under which the database knows the table. -/
def TableName.text : TableName → String
  | .secretsTable => "secrets"
  | .metaTable => "meta"

abbrev Db := Database TableName String (List UInt8)

def canaryKey : String := "__canary__"
def kdfRounds : ℕ := 120000
def keyringDomain : List UInt8 := utf8 "aios-keyring-v1"

abbrev Nonce := { bytes : List UInt8 // bytes.length = 12 }
abbrev Salt := { bytes : List UInt8 // bytes.length = 16 }

abbrev Rows := Table String (List UInt8)

structure Draws where
  salt : Salt
  nonce : ℕ → Nonce

inductive UnlockPolicy where
  | masterPassword (pw : String)
  | teePlatform (platformId : UInt64)
  deriving DecidableEq

def UnlockPolicy.tag : UnlockPolicy → String
  | .masterPassword _ => "pw"
  | .teePlatform platformId => "tee:" ++ toString platformId

structure Crypto (κ : Type) where
  pbkdf2Hmac : List UInt8 → List UInt8 → ℕ → κ
  sha256 : List UInt8 → Digest
  keyOfDigest : Digest → κ
  encrypt : κ → List UInt8 → List UInt8 → Option (List UInt8)
  decrypt : κ → List UInt8 → List UInt8 → Option (List UInt8)

/-- Ideal primitives: passwords give different keys, every plaintext can be sealed, and what is
sealed opens under its key only. -/
structure Crypto.Ideal {κ : Type} (c : Crypto κ) : Prop where
  -- PBKDF2 itself has collisions, which are only hard to find
  pbkdf2Hmac_injective : ∀ salt rounds, Function.Injective fun pw => c.pbkdf2Hmac pw salt rounds
  encrypt_opens : ∀ key nonce plain, ∃ ct, c.encrypt key nonce plain = some ct ∧ ct ≠ [] ∧
    c.decrypt key nonce ct = some plain ∧ ∀ other ≠ key, c.decrypt other nonce ct = none

/-! ### Text of the salt -/

def hexEncode (data : List UInt8) : List UInt8 := encodeHex data

/-- A character of the text starts at this byte. -/
def isCharBoundary (b : UInt8) : Bool := b < 0x80 || 0xC0 ≤ b

/-- The pairs that `s.get(i * 2..i * 2 + 2)` finds: a slice that would cut a character is left out,
as is a single last byte. -/
def hexPairs : List UInt8 → List (UInt8 × UInt8)
  | hi::lo::rest =>
    if isCharBoundary hi && rest.head?.all isCharBoundary then (hi,lo)::hexPairs rest
    else hexPairs rest
  | _ => []

/-- `u8::from_str_radix(pair, 16)`, which takes a plus sign in front. -/
def parsePair (pair : UInt8 × UInt8) : Option UInt8 :=
  if pair.1 = 0x2B then (hexValue pair.2).map UInt8.ofNat
  else do
    let hi ← hexValue pair.1
    let lo ← hexValue pair.2
    return UInt8.ofNat (hi*16+lo)

def hexDecode (s : List UInt8) : Option (List UInt8) :=
  ((hexPairs s).mapM parsePair).filter fun v => !v.isEmpty

theorem isCharBoundary_hexDigit {n : ℕ} (h : n < 16) : isCharBoundary (hexDigit n) = true := by
  have hall : ∀ n < 16, isCharBoundary (hexDigit n) = true := by decide
  exact hall n h

theorem hexPairs_hexEncode (data : List UInt8) : hexPairs (hexEncode data) =
      data.map fun b => (hexDigit (b.toNat/16),hexDigit (b.toNat%16)) := by
  induction data with
  | nil => rfl
  | cons b data ih =>
    have hlt := b.toNat_lt
    have hnext : (hexEncode data).head?.all isCharBoundary = true := by
      cases data with
      | nil => rfl
      | cons d data =>
        have hd := d.toNat_lt
        exact isCharBoundary_hexDigit (by omega)
    have hsplit : hexEncode (b::data) =
        hexDigit (b.toNat/16)::hexDigit (b.toNat%16)::hexEncode data := rfl
    rw [hsplit,hexPairs,isCharBoundary_hexDigit (by omega),hnext,ih]
    rfl

theorem parsePair_hexDigits (b : UInt8) :
    parsePair (hexDigit (b.toNat/16),hexDigit (b.toNat%16)) = some b := by
  have hlt := b.toNat_lt
  have hplus : ∀ n < 16, hexDigit n ≠ 0x2B := by decide
  have hbyte : b.toNat/16*16+b.toNat%16 = b.toNat := by omega
  rw [parsePair,if_neg (hplus _ (by omega)),hexValue_hexDigit (by omega),
    hexValue_hexDigit (by omega)]
  show some (UInt8.ofNat (b.toNat/16*16+b.toNat%16)) = _
  rw [hbyte,UInt8.ofNat_toNat]

theorem hexDecode_hexEncode {data : List UInt8} (h : data ≠ []) :
    hexDecode (hexEncode data) = some data := by
  have hmap : (hexPairs (hexEncode data)).mapM parsePair = some data := by
    rw [hexPairs_hexEncode]
    clear h
    induction data with
    | nil => rfl
    | cons b data ih => simp [parsePair_hexDigits,ih]
  rw [hexDecode,hmap]
  simp [h]

/-! ### The vault -/

variable {salt canary row : List UInt8} {table : Rows} {policy : UnlockPolicy} {k : String}

section
variable {κ : Type} (c : Crypto κ)

/-- `SealingKey::derive(..).key_material()`; the platform id is kept beside the key material
and does not enter it. -/
def sealingKeyMaterial (secret : List UInt8) : Digest :=
  c.sha256 (utf8 "AIOS-TEE-SEAL-V1" ++ secret)

def deriveKey (policy : UnlockPolicy) (salt : List UInt8) : κ :=
  match policy with
  | .masterPassword pw => c.pbkdf2Hmac (utf8 pw) salt kdfRounds
  | .teePlatform _ => c.keyOfDigest (c.sha256 ((sealingKeyMaterial c keyringDomain).1 ++ salt))

/-- `seal`; the cipher is made from a key of the right length, so only the encryption can fail. -/
def sealBlob (key : κ) (nonce : Nonce) (plaintext : List UInt8) :
    Except AIOSException (List UInt8) :=
  match c.encrypt key nonce.1 plaintext with
  | some ct => .ok (nonce.1 ++ ct)
  | none => .error (.invalidPayload "aes-gcm seal failed")

def unsealBlob (key : κ) (blob : List UInt8) : Except AIOSException (List UInt8) :=
  if blob.length < 13 then .error (.invalidPayload "ciphertext too short")
  else
    match c.decrypt key (blob.take 12) (blob.drop 12) with
    | some plain => .ok plain
    | none => .error (.permissionDenied "decryption failed (wrong key or corrupted data)")

/-- `db_err` of a table that a read transaction does not find. -/
def tableMissing (t : TableName) : AIOSException :=
  .configurationError ("keyring db: Table '" ++ t.text ++ "' does not exist")

def readTable (db : Db) (t : TableName) : Except AIOSException (Rows) :=
  (openTable db t).elim (.error (tableMissing t)) .ok

structure KeyringVault (κ : Type) where
  db : Db
  key : κ

namespace KeyringVault

/-- The three rows of metadata, written by one transaction. -/
def metaRows (salt : List UInt8) (policy : UnlockPolicy) (canary : List UInt8)
    (table : Rows) : Rows :=
  ((table.insert "salt" (hexEncode salt)).insert "policy" (utf8 policy.tag)).insert canaryKey canary

def initMeta (db : Db) (salt : List UInt8) (policy : UnlockPolicy) (key : κ) (nonce : Nonce) :
    Except AIOSException Db := do
  let canary ← sealBlob c key nonce keyringDomain
  return commit db .metaTable (metaRows salt policy canary (opened db .metaTable))

def verifyExisting (db : Db) (key : κ) (policy : UnlockPolicy) : Except AIOSException Unit := do
  let table ← readTable db .metaTable
  let storedTag := (table.lookup "policy").bind fun v => String.fromUTF8? v.toByteArray
  if storedTag ≠ some policy.tag then
    .error (.permissionDenied ("vault was created with unlock policy '" ++
      storedTag.getD "<none>" ++ "', requested '" ++ policy.tag ++ "'"))
  else
    match table.lookup canaryKey with
    | some blob => do
      let plain ← unsealBlob c key blob
      if plain ≠ keyringDomain then .error (.permissionDenied "canary mismatch") else .ok ()
    | none => .error (.configurationError "vault canary missing")

def existingSalt (db : Db) : Option (List UInt8) := do
  let table ← openTable db .metaTable
  let raw ← table.lookup "salt"
  let s ← String.fromUTF8? raw.toByteArray
  hexDecode (utf8 s)

/-- `open`, on the database that the file holds; a failed call leaves the file as it is. -/
def openVault (db : Db) (policy : UnlockPolicy) (draws : Draws) :
    Except AIOSException (KeyringVault κ) :=
  match existingSalt db with
  | some salt => do
    let key := deriveKey c policy salt
    verifyExisting c db key policy
    return { db, key }
  | none => do
    let key := deriveKey c policy draws.salt.1
    let db ← initMeta c db draws.salt.1 policy key (draws.nonce 0)
    return { db, key }

variable (v : KeyringVault κ)

def setSecret (key secret : String) (draws : Draws) : Except AIOSException (KeyringVault κ) := do
  let blob ← sealBlob c v.key (draws.nonce 0) (utf8 secret)
  return { v with db := commit v.db .secretsTable ((opened v.db .secretsTable).insert key blob) }

def getSecret (key : String) : Except AIOSException (Option String) :=
  match openTable v.db .secretsTable with
  | none => .ok none
  | some table =>
    match table.lookup key with
    | some row => do
      let plain ← unsealBlob c v.key row
      match String.fromUTF8? plain.toByteArray with
      | some s => .ok (some s)
      | none => .error (.invalidPayload "secret is not valid utf-8")
    | none => .ok none

def containsKey (key : String) : Bool :=
  match openTable v.db .secretsTable with
  | none => false
  | some table => (table.lookup key).isSome

/-- The vault after `delete_secret`, and whether the secret existed. -/
def deleteSecret (key : String) : KeyringVault κ × Bool :=
  ({ v with db := commit v.db .secretsTable ((opened v.db .secretsTable).erase key) },
    v.containsKey key)

/-- The loop that opens every row under the old key. -/
def unsealAll (key : κ) (rows : List (String × List UInt8)) :
    Except AIOSException (List (String × List UInt8)) :=
  rows.mapM fun row => do
    let plain ← unsealBlob c key row.2
    return (row.1,plain)

/-- The loop that seals the entries under the new key; the `i`th takes the nonce after those of the
canary and the entries before. -/
def sealAll (key : κ) (nonce : ℕ → Nonce) : ℕ → List (String × List UInt8) →
    Rows → Except AIOSException (Rows)
  | _, [], table => .ok table
  | i, (k,plain)::entries, table => do
    let blob ← sealBlob c key (nonce i) plain
    sealAll key nonce (i+1) entries (table.insert k blob)

def changeMasterPassword (newPassword : String) (draws : Draws) :
    Except AIOSException (KeyringVault κ) := do
  let table ← readTable v.db .secretsTable
  let entries ← unsealAll c v.key (rows table)
  let newPolicy := UnlockPolicy.masterPassword newPassword
  let newKey := deriveKey c newPolicy draws.salt.1
  let canary ← sealBlob c newKey (draws.nonce 0) keyringDomain
  let sealed ← sealAll c newKey draws.nonce 1 entries (opened v.db .secretsTable)
  let db := commit v.db .metaTable (metaRows draws.salt.1 newPolicy canary (opened v.db .metaTable))
  return { db := commit db .secretsTable sealed, key := newKey }

/-! ### What a vault holds -/

/-- The blob opens under the key to this plaintext, and under no other key. -/
def Opens (key : κ) (blob plain : List UInt8) : Prop :=
  unsealBlob c key blob = .ok plain ∧ ∀ other ≠ key, ∃ e, unsealBlob c other blob = .error e

/-- The database is locked with the password: the metadata lead to the key, and the canary and every
row of the secrets open under it. -/
structure Locked (db : Db) (pw : String) (key : κ) : Prop where
  metadata : ∃ table salt canary, openTable db .metaTable = some table ∧ salt ≠ [] ∧
    table.lookup "salt" = some (hexEncode salt) ∧ table.lookup "policy" = some (utf8 "pw") ∧
    table.lookup canaryKey = some canary ∧ Opens c key canary keyringDomain ∧
    key = deriveKey c (.masterPassword pw) salt
  secrets : ∀ table k row, openTable db .secretsTable = some table → table.lookup k = some row →
    ∃ text, Opens c key row (utf8 text)

section
variable {c}

theorem exists_sealBlob (hc : c.Ideal) (key : κ) (nonce : Nonce) (plain : List UInt8) :
    ∃ blob, sealBlob c key nonce plain = .ok blob ∧ Opens c key blob plain := by
  obtain ⟨ct,hct,hne,hopen,hother⟩ := hc.encrypt_opens key nonce.1 plain
  have hlen : ¬ (nonce.1 ++ ct).length < 13 := by
    have := length_pos_iff.mpr hne
    rw [length_append,nonce.2]
    omega
  have hunseal (k : κ) : unsealBlob c k (nonce.1 ++ ct) = match c.decrypt k nonce.1 ct with
      | some plain => .ok plain
      | none => .error (.permissionDenied "decryption failed (wrong key or corrupted data)") := by
    rw [unsealBlob,if_neg hlen,take_left' nonce.2,drop_left' nonce.2]
  refine ⟨nonce.1 ++ ct,by simp [sealBlob,hct],?_,fun other h => ?_⟩
  · rw [hunseal,hopen]
  · rw [hunseal,hother other h]
    exact ⟨_,rfl⟩

end

section
variable {c} {db : Db} {pw : String} {key : κ}

theorem existingSalt_of_lookup (htable : openTable db .metaTable = some table) (hne : salt ≠ [])
    (hsalt : table.lookup "salt" = some (hexEncode salt)) : existingSalt db = some salt := by
  have hprint : ∀ b ∈ hexEncode salt, Printable b := printable_encodeHex salt
  have hutf8 : utf8 (String.ofList (chars (hexEncode salt))) = hexEncode salt := by
    rw [utf8,Utf8.bytes,String.toUTF8_eq_toByteArray,String.toByteArray_ofList,
      utf8Encode_chars hprint,data_toByteArray]
  have hread : String.fromUTF8? (hexEncode salt).toByteArray =
      some (String.ofList (chars (hexEncode salt))) := fromUTF8?_printable hprint
  simp [existingSalt,htable,hsalt,hread,hutf8,hexDecode_hexEncode hne]

theorem verifyExisting_eq (htable : openTable db .metaTable = some table)
    (hpolicy : table.lookup "policy" = some (utf8 policy.tag))
    (hcanary : table.lookup canaryKey = some canary) :
    verifyExisting c db key policy = (unsealBlob c key canary >>= fun plain =>
      if plain ≠ keyringDomain then .error (.permissionDenied "canary mismatch") else .ok ()) := by
  have htag : String.fromUTF8? (utf8 policy.tag).toByteArray = some policy.tag :=
    Utf8.fromUTF8?_bytes policy.tag
  simp [verifyExisting,readTable,htable,hpolicy,hcanary,htag]

theorem Locked.openVault_eq (h : Locked c db pw key) (draws : Draws) :
    openVault c db (.masterPassword pw) draws = .ok ⟨db,key⟩ := by
  obtain ⟨table,salt,canary,htable,hne,hsalt,hpolicy,hcanary,⟨hopen,-⟩,hkey⟩ := h.metadata
  have htag : table.lookup "policy" = some (utf8 (UnlockPolicy.masterPassword pw).tag) := hpolicy
  have hverify : verifyExisting c db key (.masterPassword pw) = .ok () := by
    rw [verifyExisting_eq htable htag hcanary,hopen]
    simp
  rw [openVault,existingSalt_of_lookup htable hne hsalt]
  simp [← hkey,hverify]

theorem tag_teePlatform_ne (platformId : UInt64) :
    (UnlockPolicy.teePlatform platformId).tag ≠ "pw" := by
  intro h
  have hlist := congrArg String.toList h
  simp [UnlockPolicy.tag] at hlist

/-- Any other policy is refused: another kind by its tag, another password by the canary. -/
theorem Locked.openVault_other (hc : c.Ideal) (h : Locked c db pw key)
    (hother : policy ≠ .masterPassword pw) (draws : Draws) :
    ∃ e, openVault c db policy draws = .error e := by
  obtain ⟨table,salt,canary,htable,hne,hsalt,hpolicy,hcanary,⟨-,hwrong⟩,hkey⟩ := h.metadata
  rw [openVault,existingSalt_of_lookup htable hne hsalt]
  cases policy with
  | masterPassword pw' =>
    have hkeys : deriveKey c (.masterPassword pw') salt ≠ key := by
      rw [hkey]
      intro heq
      exact hother (by rw [Utf8.bytes_injective (hc.pbkdf2Hmac_injective salt kdfRounds heq)])
    obtain ⟨e,he⟩ := hwrong _ hkeys
    have htag : table.lookup "policy" = some (utf8 (UnlockPolicy.masterPassword pw').tag) := hpolicy
    have hverify : verifyExisting c db (deriveKey c (.masterPassword pw') salt)
        (.masterPassword pw') = .error e := by
      rw [verifyExisting_eq htable htag hcanary,he,Fallible.error_bind]
    exact ⟨e,by simp [hverify]⟩
  | teePlatform platformId =>
    have htag := tag_teePlatform_ne platformId
    have hread : String.fromUTF8? (utf8 "pw").toByteArray = some "pw" := Utf8.fromUTF8?_bytes "pw"
    simp [verifyExisting,readTable,htable,hpolicy,hread,htag.symm]

theorem locked_of_metaRows {salt : Salt}
    (htable : openTable db .metaTable = some (metaRows salt.1 (.masterPassword pw) canary table))
    (hkey : key = deriveKey c (.masterPassword pw) salt.1)
    (hcanary : Opens c key canary keyringDomain)
    (hsecrets : ∀ table k row, openTable db .secretsTable = some table →
      table.lookup k = some row → ∃ text, Opens c key row (utf8 text)) : Locked c db pw key := by
  have hne : salt.1 ≠ [] := by
    intro h
    have := salt.2
    simp [h] at this
  refine ⟨⟨_,salt.1,canary,htable,hne,?_,?_,?_,hcanary,hkey⟩,hsecrets⟩ <;>
    simp [metaRows,canaryKey,UnlockPolicy.tag]

theorem openVault_empty (hc : c.Ideal) (pw : String) (draws : Draws) :
    ∃ v, openVault c ∅ (.masterPassword pw) draws = .ok v ∧ Locked c v.db pw v.key ∧
      openTable v.db .secretsTable = none := by
  obtain ⟨canary,hseal,hopens⟩ := exists_sealBlob hc
    (deriveKey c (.masterPassword pw) draws.salt.1) (draws.nonce 0) keyringDomain
  refine ⟨⟨commit ∅ TableName.metaTable (metaRows draws.salt.1 (.masterPassword pw) canary
    (opened ∅ TableName.metaTable)),deriveKey c (.masterPassword pw) draws.salt.1⟩,?_,
    locked_of_metaRows (openTable_commit _ _ _) rfl hopens ?_,?_⟩
  · simp [openVault,existingSalt,initMeta,hseal]
  · simp
  · simp

theorem Locked.commit_secrets (h : Locked c db pw key)
    (hrows : ∀ k row, table.lookup k = some row → ∃ text, Opens c key row (utf8 text)) :
    Locked c (commit db .secretsTable table) pw key := by
  refine ⟨?_,fun table' k row htable hrow => ?_⟩
  · rw [openTable_commit_of_ne (by decide)]
    exact h.metadata
  · obtain rfl : table = table' := by simpa using htable
    exact hrows k row hrow

theorem Locked.opened_secrets (h : Locked c db pw key)
    (hrow : (opened db .secretsTable).lookup k = some row) :
    ∃ text, Opens c key row (utf8 text) := by
  cases htable : openTable db .secretsTable with
  | none => simp [opened,htable] at hrow
  | some table =>
    rw [opened_of_openTable htable] at hrow
    exact h.secrets table k row htable hrow

theorem Locked.setSecret (hc : c.Ideal) (h : Locked c db pw key) (k secret : String)
    (draws : Draws) : ∃ table, setSecret c ⟨db,key⟩ k secret draws =
        .ok ⟨commit db .secretsTable table,key⟩ ∧
      Locked c (commit db .secretsTable table) pw key := by
  obtain ⟨blob,hseal,hopens⟩ := exists_sealBlob hc key (draws.nonce 0) (utf8 secret)
  refine ⟨(opened db .secretsTable).insert k blob,?_,h.commit_secrets fun j row hrow => ?_⟩
  · simp [KeyringVault.setSecret,hseal]
  · rw [Finmap.lookup_insert_if] at hrow
    split_ifs at hrow with hj
    · obtain rfl : blob = row := by simpa using hrow
      exact ⟨secret,hopens⟩
    · exact h.opened_secrets hrow

theorem Locked.deleteSecret (h : Locked c db pw key) (k : String) :
    Locked c (commit db .secretsTable ((opened db .secretsTable).erase k)) pw key := by
  refine h.commit_secrets fun j row hrow => ?_
  rw [Finmap.lookup_erase_if] at hrow
  split_ifs at hrow
  exact h.opened_secrets hrow

theorem getSecret_of_opens {text : String} (htable : openTable db .secretsTable = some table)
    (hrow : table.lookup k = some row) (hopens : Opens c key row (utf8 text)) :
    getSecret c ⟨db,key⟩ k = .ok (some text) := by
  have hread : String.fromUTF8? (utf8 text).toByteArray = some text := Utf8.fromUTF8?_bytes text
  simp [getSecret,htable,hrow,hopens.1,hread]

end

/-! ### The change of the master password -/

section
variable {c} {db : Db} {pw : String} {key : κ}

theorem unsealAll_eq {rows : List (String × List UInt8)}
    (h : ∀ row ∈ rows, ∃ plain, unsealBlob c key row.2 = .ok plain) :
    ∃ entries, unsealAll c key rows = .ok entries ∧
      entries.map Prod.fst = rows.map Prod.fst ∧
      ∀ k row plain, (k,row) ∈ rows → unsealBlob c key row = .ok plain → (k,plain) ∈ entries := by
  induction rows with
  | nil => exact ⟨[],rfl,rfl,by simp⟩
  | cons row rows ih =>
    obtain ⟨⟨plain,hplain⟩,hrows⟩ := forall_mem_cons.mp h
    obtain ⟨entries,hentries,hkeys,hmem⟩ := ih hrows
    refine ⟨(row.1,plain)::entries,?_,by simp [hkeys],fun k blob p hk hp => ?_⟩
    · simp only [unsealAll,mapM_cons,hplain,Fallible.ok_bind,Fallible.pure_eq_ok] at hentries ⊢
      rw [hentries,Fallible.ok_bind]
    · rcases mem_cons.mp hk with rfl | hk
      · obtain rfl : p = plain := by simpa [hp] using hplain
        exact mem_cons_self
      · exact mem_cons_of_mem _ (hmem k blob p hk hp)

theorem exists_sealAll (hc : c.Ideal) (key : κ) (nonce : ℕ → Nonce)
    {entries : List (String × List UInt8)} (hnodup : (entries.map Prod.fst).Nodup) (i : ℕ)
    (table : Rows) :
    ∃ sealed, sealAll c key nonce i entries table = .ok sealed ∧
      (∀ k plain, (k,plain) ∈ entries →
        ∃ blob, sealed.lookup k = some blob ∧ Opens c key blob plain) ∧
      ∀ k, k ∉ entries.map Prod.fst → sealed.lookup k = table.lookup k := by
  induction entries generalizing i table with
  | nil => exact ⟨table,rfl,by simp,by simp⟩
  | cons entry entries ih =>
    obtain ⟨k,plain⟩ := entry
    obtain ⟨hk,hnodup⟩ := nodup_cons.mp hnodup
    obtain ⟨blob,hseal,hopens⟩ := exists_sealBlob hc key (nonce i) plain
    obtain ⟨sealed,hsealed,hin,hout⟩ := ih hnodup (i+1) (table.insert k blob)
    refine ⟨sealed,by simp [sealAll,hseal,hsealed],fun j p hj => ?_,fun j hj => ?_⟩
    · rcases mem_cons.mp hj with hj | hj
      · obtain ⟨rfl,rfl⟩ := Prod.mk.inj hj
        exact ⟨blob,by rw [hout j hk,Finmap.lookup_insert],hopens⟩
      · exact hin j p hj
    · obtain ⟨hne,hj⟩ : j ≠ k ∧ j ∉ entries.map Prod.fst := by simpa using hj
      rw [hout j hj,Finmap.lookup_insert_of_ne _ hne]

/-- The new rows open under the new key to what the old ones held. -/
theorem Locked.changeMasterPassword (hc : c.Ideal) (h : Locked c db pw key)
    (htable : openTable db .secretsTable = some table) (new : String) (draws : Draws) :
    ∃ v, changeMasterPassword c ⟨db,key⟩ new draws = .ok v ∧ Locked c v.db new v.key ∧
      ∀ k, getSecret c v k = getSecret c ⟨db,key⟩ k := by
  have hrows : ∀ row ∈ rows table, ∃ plain, unsealBlob c key row.2 = .ok plain := by
    rintro ⟨k,row⟩ hrow
    obtain ⟨text,hopens⟩ := h.secrets table k row htable (mem_rows.mp hrow)
    exact ⟨utf8 text,hopens.1⟩
  let newKey := deriveKey c (.masterPassword new) draws.salt.1
  obtain ⟨entries,hentries,hkeys,hplain⟩ := unsealAll_eq hrows
  obtain ⟨canary,hcanary,hcopens⟩ := exists_sealBlob hc newKey (draws.nonce 0) keyringDomain
  obtain ⟨sealed,hsealed,hin,hout⟩ :=
    exists_sealAll hc newKey draws.nonce (hkeys ▸ nodup_rows table) 1 table
  -- the keys are the same, and the row of each holds the same text
  have hnew (k : String) : table.lookup k = none ∧ sealed.lookup k = none ∨
      ∃ row blob text, table.lookup k = some row ∧ Opens c key row (utf8 text) ∧
        sealed.lookup k = some blob ∧ Opens c newKey blob (utf8 text) := by
    cases hk : table.lookup k with
    | none =>
      have hout' : k ∉ entries.map Prod.fst := by
        rw [hkeys]
        intro hmem
        obtain ⟨⟨j,row⟩,hrow,rfl⟩ := mem_map.mp hmem
        simp [mem_rows.mp hrow] at hk
      exact .inl ⟨rfl,(hout k hout').trans hk⟩
    | some row =>
      obtain ⟨text,hopens⟩ := h.secrets table k row htable hk
      obtain ⟨blob,hblob,hblobOpens⟩ :=
        hin k (utf8 text) (hplain k row _ (mem_rows.mpr hk) hopens.1)
      exact .inr ⟨row,blob,text,rfl,hopens,hblob,hblobOpens⟩
  refine ⟨⟨commit (commit db .metaTable (metaRows draws.salt.1 (.masterPassword new) canary
    (opened db .metaTable))) .secretsTable sealed,newKey⟩,?_,?_,fun k => ?_⟩
  · simp [KeyringVault.changeMasterPassword,readTable,htable,hentries,hcanary,hsealed,
      opened_of_openTable htable,newKey]
  · refine locked_of_metaRows (by rw [openTable_commit_of_ne (by decide),openTable_commit]) rfl
      hcopens fun table' k row htable' hrow => ?_
    obtain rfl : sealed = table' := by simpa using htable'
    obtain ⟨-,hnone⟩ | ⟨-,blob,text,-,-,hblob,hopens⟩ := hnew k
    · simp [hnone] at hrow
    · obtain rfl : blob = row := by simpa [hblob] using hrow
      exact ⟨text,hopens⟩
  · obtain ⟨hold,hnone⟩ | ⟨row,blob,text,hrow,hopens,hblob,hblobOpens⟩ := hnew k
    · simp [getSecret,htable,hold,hnone]
    · rw [getSecret_of_opens htable hrow hopens,
        getSecret_of_opens (openTable_commit _ _ _) hblob hblobOpens]

end
end KeyringVault

open KeyringVault

/-! ### Histories of a vault -/

inductive Op where
  | setSecret (key secret : String) (draws : Draws)
  | deleteSecret (key : String)
  | reopen (policy : UnlockPolicy) (draws : Draws)

def Op.writesSecrets : Op → Bool
  | .setSecret .. => true
  | .deleteSecret _ => true
  | .reopen .. => false

structure Session (κ : Type) where
  db : Db
  handle : Option κ

namespace Session

def ofVault (v : KeyringVault κ) : Session κ := ⟨v.db,some v.key⟩

/-- Secrets are set and deleted through a handle; opening again gives up the handle, and a
failed attempt leaves none. -/
def step (s : Session κ) : Op → Option (Session κ)
  | .setSecret k secret draws => s.handle.map fun key =>
    match setSecret c ⟨s.db,key⟩ k secret draws with
    | .ok v => ofVault v
    | .error _ => s
  | .deleteSecret k => s.handle.map fun key =>
    ofVault (deleteSecret ⟨s.db,key⟩ k).1
  | .reopen policy draws =>
    match openVault c s.db policy draws with
    | .ok v => some (ofVault v)
    | .error _ => some { s with handle := none }

/-- The file is locked with the password, and an open handle has its key. -/
def Guarded (pw : String) (key : κ) (s : Session κ) : Prop :=
  Locked c s.db pw key ∧ ∀ k, s.handle = some k → k = key

variable {c} {pw : String} {key : κ} {s t : Session κ}

theorem Guarded.step (hc : c.Ideal) (h : Guarded c pw key s) {op : Op}
    (hstep : step c s op = some t) : Guarded c pw key t ∧
      ((openTable t.db .secretsTable).isSome ↔
        (openTable s.db .secretsTable).isSome ∨ op.writesSecrets = true) := by
  obtain ⟨hlocked,hhandle⟩ := h
  cases op with
  | setSecret k secret draws =>
    obtain ⟨key',hkey',heq⟩ := Option.map_eq_some_iff.mp hstep
    obtain rfl := hhandle key' hkey'
    obtain ⟨table,hset,hlocked'⟩ := hlocked.setSecret hc k secret draws
    rw [hset] at heq
    subst heq
    exact ⟨⟨hlocked',by simp [ofVault]⟩,by simp [ofVault,Op.writesSecrets]⟩
  | deleteSecret k =>
    obtain ⟨key',hkey',heq⟩ := Option.map_eq_some_iff.mp hstep
    obtain rfl := hhandle key' hkey'
    subst heq
    refine ⟨⟨hlocked.deleteSecret k,by simp [ofVault,deleteSecret]⟩,?_⟩
    simp [ofVault,deleteSecret,Op.writesSecrets]
  | reopen policy draws =>
    by_cases hpolicy : policy = .masterPassword pw
    · subst hpolicy
      obtain rfl : ofVault ⟨s.db,key⟩ = t := by
        simpa [Session.step,hlocked.openVault_eq draws] using hstep
      exact ⟨⟨hlocked,by simp [ofVault]⟩,by simp [ofVault,Op.writesSecrets]⟩
    · obtain ⟨e,he⟩ := hlocked.openVault_other hc hpolicy draws
      obtain rfl : { s with handle := none } = t := by simpa [Session.step,he] using hstep
      exact ⟨⟨hlocked,by simp⟩,by simp [Op.writesSecrets]⟩

theorem Guarded.run (hc : c.Ideal) (h : Guarded c pw key s) {history : List Op}
    (hrun : exec (Session.step c) s history = some t) : Guarded c pw key t ∧
      ((openTable t.db .secretsTable).isSome ↔
        (openTable s.db .secretsTable).isSome ∨ ∃ op ∈ history, op.writesSecrets = true) := by
  induction history generalizing s with
  | nil =>
    obtain rfl : s = t := by simpa [exec] using hrun
    simpa using h
  | cons op history ih =>
    obtain ⟨u,hu,hrest⟩ := Option.bind_eq_some_iff.mp hrun
    obtain ⟨hguarded,hiff⟩ := h.step hc hu
    obtain ⟨hguarded',hiff'⟩ := ih hguarded hrest
    refine ⟨hguarded',?_⟩
    rw [hiff',hiff]
    simp [or_assoc]

end Session

/-- The change of the password succeeds, keeps every secret for this handle and for a fresh one with
the new password, and locks out a different old password. -/
def Rekeys (v : KeyringVault κ) (old new : String) (draws : Draws) : Prop :=
  ∃ v', changeMasterPassword c v new draws = .ok v' ∧
    (∀ k, getSecret c v' k = getSecret c v k) ∧
    (∀ draws', ∃ fresh, openVault c v'.db (.masterPassword new) draws' = .ok fresh ∧
      ∀ k, getSecret c fresh k = getSecret c v k) ∧
    (old ≠ new → ∀ draws', ∃ e, openVault c v'.db (.masterPassword old) draws' = .error e)

/-- A vault created with a password can be re-keyed after exactly those histories in which a secret
was set or deleted. -/
theorem rekeys_iff_secrets_written (hc : c.Ideal) (old new : String) (draws₀ draws : Draws)
    (history : List Op) (v₀ v : KeyringVault κ)
    (hcreate : openVault c ∅ (.masterPassword old) draws₀ = .ok v₀)
    (hrun : exec (Session.step c) (.ofVault v₀) history = some (.ofVault v)) :
    Rekeys c v old new draws ↔ ∃ op ∈ history, op.writesSecrets = true := by
  obtain ⟨w,hw,hlocked,hnone⟩ := openVault_empty hc old draws₀
  obtain rfl : w = v₀ := by simpa [hw] using hcreate
  have hguarded : Session.Guarded c old w.key (.ofVault w) := ⟨hlocked,by simp [Session.ofVault]⟩
  obtain ⟨⟨hlocked',hhandle⟩,hiff⟩ := hguarded.run hc hrun
  have hkey : v.key = w.key := hhandle v.key rfl
  have htable : (openTable v.db .secretsTable).isSome ↔
      ∃ op ∈ history, op.writesSecrets = true := by
    simpa [Session.ofVault,hnone] using hiff
  rw [← htable]
  constructor
  · rintro ⟨v',hchange,-⟩
    by_contra hmissing
    rw [Option.not_isSome_iff_eq_none] at hmissing
    simp [changeMasterPassword,readTable,hmissing] at hchange
  · intro hsome
    obtain ⟨table,htable'⟩ := Option.isSome_iff_exists.mp hsome
    have hv : Locked c v.db old v.key := by rw [hkey]; exact hlocked'
    obtain ⟨v',hchange,hnew,hget⟩ := hv.changeMasterPassword hc htable' new draws
    refine ⟨v',hchange,hget,fun draws' => ⟨v',hnew.openVault_eq draws',hget⟩,
      fun hne draws' => hnew.openVault_other hc ?_ draws'⟩
    simpa using hne

end

open KeyringVault

/-! ### A vault that holds no secret yet -/

def spelling : List UInt8 → List UInt8
  | [] => [0]
  | b::key => 1::b::spelling key

theorem spelling_injective {key other plain : List UInt8}
    (h : spelling other <+: spelling key ++ plain) : other = key := by
  induction other generalizing key with
  | nil =>
    cases key with
    | nil => rfl
    | cons b key => simp [spelling] at h
  | cons a other ih =>
    cases key with
    | nil => simp [spelling] at h
    | cons b key =>
      obtain ⟨rfl,hrest⟩ : a = b ∧ spelling other <+: spelling key ++ plain := by
        simpa [spelling] using h
      rw [ih hrest]

/-- Primitives that meet the ideal laws: the key is the password, a ciphertext the plaintext behind
a spelling of the key. -/
def spelled : Crypto (List UInt8) where
  pbkdf2Hmac pw _ _ := pw
  sha256 := Sha256.sha256
  keyOfDigest d := d.1
  encrypt key _ plain := some (spelling key ++ plain)
  decrypt key _ ct := if spelling key <+: ct then some (ct.drop (spelling key).length) else none

theorem spelled_ideal : spelled.Ideal where
  pbkdf2Hmac_injective _ _ _ _ h := h
  encrypt_opens key nonce plain := by
    refine ⟨spelling key ++ plain,rfl,?_,by simp [spelled],fun other hne => ?_⟩
    · cases key <;> simp [spelling]
    · have hnot : ¬ spelling other <+: spelling key ++ plain := fun h =>
        hne (spelling_injective h)
      simp [spelled,hnot]

def zeroDraws : Draws where
  salt := ⟨replicate 16 0,by simp⟩
  nonce _ := ⟨replicate 12 0,by simp⟩

theorem rekeys_after_setSecret : ∃ v₀ v,
    openVault spelled ∅ (.masterPassword "old") zeroDraws = .ok v₀ ∧
      exec (Session.step spelled) (.ofVault v₀) [.setSecret "k1" "value-one" zeroDraws] =
        some (.ofVault v) ∧
      Rekeys spelled v "old" "brand-new-pass" zeroDraws := by
  obtain ⟨v₀,hcreate,hlocked,-⟩ := openVault_empty spelled_ideal "old" zeroDraws
  obtain ⟨table,hset,-⟩ := hlocked.setSecret spelled_ideal "k1" "value-one" zeroDraws
  have hrun : exec (Session.step spelled) (.ofVault v₀) [.setSecret "k1" "value-one" zeroDraws] =
        some (.ofVault ⟨commit v₀.db .secretsTable table,v₀.key⟩) := by
    simp [exec,Session.step,Session.ofVault,hset]
  refine ⟨v₀,_,hcreate,hrun,?_⟩
  apply (rekeys_iff_secrets_written spelled spelled_ideal "old" "brand-new-pass" zeroDraws
    zeroDraws _ v₀ _ hcreate hrun).mpr
  exact ⟨_,mem_singleton_self _,rfl⟩

/-- The password of a vault in which no secret was ever set or deleted cannot be changed: the table
of the secrets does not exist. -/
theorem fresh_vault_not_rekeyed : ∃ v,
    openVault spelled ∅ (.masterPassword "old") zeroDraws = .ok v ∧
      changeMasterPassword spelled v "brand-new-pass" zeroDraws =
        .error (.configurationError "keyring db: Table 'secrets' does not exist") ∧
      ¬ Rekeys spelled v "old" "brand-new-pass" zeroDraws := by
  obtain ⟨v,hcreate,-,hnone⟩ := openVault_empty spelled_ideal "old" zeroDraws
  have hchange : changeMasterPassword spelled v "brand-new-pass" zeroDraws =
      .error (.configurationError "keyring db: Table 'secrets' does not exist") := by
    have htext : tableMissing .secretsTable =
        .configurationError "keyring db: Table 'secrets' does not exist" := by decide +kernel
    simp [changeMasterPassword,readTable,hnone,htext]
  refine ⟨v,hcreate,hchange,?_⟩
  rintro ⟨v',hok,-⟩
  simp [hchange] at hok

end Aios.SysControl
