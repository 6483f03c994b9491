import Aios.Core.IpcProtocol
import Aios.Lib.Fallible
import Aios.Lib.Splits
import Aios.Lib.TextCodec
import Mathlib.Data.Finset.Sort
import Mathlib.Data.String.Basic

/-!
The manifests of the block store: the bytes that a signature covers, and its verification.
-/
namespace Aios.Store

open Aios.Core TextCodec List Fallible Utf8

abbrev Text := List Char

structure SignatureInfo where
  algorithm : Text
  publicKey : Text
  signatureHex : Text
  signedHash : Text
  deriving DecidableEq

structure ManifestInfo where
  name : Text
  version : Text
  description : Text
  author : Text
  capabilities : Finset Text
  wasmSizeBytes : UInt64
  wasmSha256 : Text
  signature : Option SignatureInfo
  storeUrl : Option Text
  deriving DecidableEq

/-- Lower-case hexadecimal as a text. -/
def hexText (data : List UInt8) : Text := chars (encodeHex data)

def sizeText (n : UInt64) : Text := chars (printDecimal n.toNat)

namespace ManifestInfo

def capsText (caps : Finset Text) : Text := [','].intercalate (caps.sort (· ≤ ·))

def canonicalText (m : ManifestInfo) : Text :=
  ['\n'].intercalate ["aios-manifest-v1".toList,m.name,m.version,m.description,m.author,
    capsText m.capabilities,sizeText m.wasmSizeBytes,m.wasmSha256]

def canonicalBytes (m : ManifestInfo) : List UInt8 := encode m.canonicalText

end ManifestInfo

/-- The signature scheme over signing keys of type `κ`, and the texts of the errors that it and
the hexadecimal decoder give. -/
structure Ed25519 (κ : Type) where
  verifyingKey : κ → List UInt8
  sign : κ → List UInt8 → List UInt8
  fromBytes : List UInt8 → Except String Unit
  verifyStrict : List UInt8 → List UInt8 → List UInt8 → Bool
  hexError : Text → String

section
variable {κ : Type} (ed : Ed25519 κ)

def signManifest (m : ManifestInfo) (key : κ) : SignatureInfo where
  algorithm := "Ed25519".toList
  publicKey := hexText (ed.verifyingKey key)
  signatureHex := hexText (ed.sign key m.canonicalBytes)
  signedHash := m.wasmSha256

def decodePublicKey (hexStr : Text) : Except String (List UInt8) :=
  match decodeHex (encode hexStr) with
  | none => .error ("Invalid public key hex: " ++ ed.hexError hexStr)
  | some bytes =>
    if bytes.length ≠ 32 then .error "Public key must be 32 bytes"
    else
      match ed.fromBytes bytes with
      | .error e => .error ("Invalid public key: " ++ e)
      | .ok () => .ok bytes

def decodeSignature (hexStr : Text) : Except String (List UInt8) :=
  match decodeHex (encode hexStr) with
  | none => .error ("Invalid signature hex: " ++ ed.hexError hexStr)
  | some bytes => if bytes.length ≠ 64 then .error "Signature must be 64 bytes" else .ok bytes

/-- The checks that both verifications make first. -/
def checkedSignature (m : ManifestInfo) : Except String SignatureInfo :=
  match m.signature with
  | none => .error "No signature"
  | some sig =>
    if sig.algorithm ≠ "Ed25519".toList then
      .error ("Unsupported algorithm: " ++ String.ofList sig.algorithm)
    else if sig.signedHash ≠ m.wasmSha256 then .error "Signature hash mismatch"
    else .ok sig

def verifySignature (m : ManifestInfo) : Except String Bool := do
  let sig ← checkedSignature m
  let publicKey ← decodePublicKey ed sig.publicKey
  let signature ← decodeSignature ed sig.signatureHex
  return ed.verifyStrict publicKey m.canonicalBytes signature

def tryKeys (sig : SignatureInfo) (msg signature : List UInt8) : List Text → Except String Bool
  | [] => .ok false
  | key::keys =>
    if sig.publicKey ≠ key then tryKeys sig msg signature keys
    else do
      let publicKey ← decodePublicKey ed key
      if ed.verifyStrict publicKey msg signature then .ok true
      else tryKeys sig msg signature keys

def verifySignatureWithKeys (m : ManifestInfo) (trustedKeys : List Text) : Except String Bool := do
  let sig ← checkedSignature m
  let signature ← decodeSignature ed sig.signatureHex
  tryKeys ed sig m.canonicalBytes signature trustedKeys

end

/-! ### What a signature binds -/

variable {caps : Finset Text} {signature msg : List UInt8} {sig : SignatureInfo}

namespace ManifestInfo

/-- The fields that a signature is meant to cover. -/
def covered (m : ManifestInfo) : Text × Text × Text × Text × Finset Text × UInt64 × Text :=
  (m.name,m.version,m.description,m.author,m.capabilities,m.wasmSizeBytes,m.wasmSha256)

/-- The bytes of the manifest are read in one way only: no line break stands in a field but the
last, the one capability is not empty and does not look like a list, and no line of the hash but the
last could be the size. -/
structure Unambiguous (m : ManifestInfo) : Prop where
  name : '\n' ∉ m.name
  version : '\n' ∉ m.version
  description : '\n' ∉ m.description
  author : '\n' ∉ m.author
  capabilities : ∃ c, m.capabilities = {c} ∧ c ≠ [] ∧ '\n' ∉ c ∧
    ∀ x y, c = x ++ ','::y → ¬ x < y
  wasmSha256 : ∀ before n after,
    m.wasmSha256.splitOn '\n' = before ++ sizeText n::after → after = []

/-- No other manifest has the same text. -/
def TextUnique (m : ManifestInfo) : Prop :=
  ∀ m' : ManifestInfo, m'.covered ≠ m.covered → m'.canonicalText ≠ m.canonicalText

@[simp] theorem capsText_empty : capsText ∅ = [] := by simp [capsText]

@[simp] theorem capsText_singleton (c : Text) : capsText {c} = c := by simp [capsText]

theorem capsText_pair {x y : Text} (h : x < y) : capsText {x, y} = x ++ ','::y := by
  have hsort : ({x, y} : Finset Text).sort (· ≤ ·) = [x,y] := by
    rw [Finset.sort_insert (r := (· ≤ ·)) (by simpa using h.le) (by simpa using h.ne),
      Finset.sort_singleton]
  simp [capsText,hsort]

/-- A text that is not empty and does not look like a list stands for one set. -/
theorem caps_eq_singleton {c : Text} (h : capsText caps = c) (hne : c ≠ [])
    (hlist : ∀ x y, c = x ++ ','::y → ¬ x < y) : caps = {c} := by
  have hset := Finset.sort_toFinset caps (· ≤ ·)
  have hsorted := Finset.sortedLT_sort caps
  unfold capsText at h
  generalize caps.sort (· ≤ ·) = names at h hset hsorted
  match names with
  | [] => exact absurd h.symm hne
  | [a] =>
    obtain rfl : a = c := by simpa using h
    simpa using hset.symm
  | a::b::rest =>
    have hlt : a < [','].intercalate (b::rest) := by
      have hab : a < b := by
        have := hsorted.pairwise
        simp only [pairwise_cons] at this
        exact this.1 b (by simp)
      refine lt_of_lt_of_le hab ?_
      cases rest with
      | nil => simp
      | cons d rest =>
        exact not_lt.mp (@le_append_left Char _ _ b _)
    exact absurd hlt (hlist a _ (by simpa using h.symm))

theorem canonicalText_caps (m : ManifestInfo) (h : capsText caps = capsText m.capabilities) :
    canonicalText { m with capabilities := caps } = m.canonicalText := by
  unfold canonicalText
  rw [h]

theorem newline_notMem_sizeText (n : UInt64) : '\n' ∉ sizeText n := by
  intro h
  obtain ⟨b,hb,hchar⟩ := mem_map.mp h
  obtain ⟨d,hd,rfl⟩ := mem_map.mp hb
  have hdigits : ∀ d < 10, Char.ofNat (UInt8.ofNat (48+d)).toNat ≠ '\n' := by decide
  exact hdigits d (digits_lt d hd) hchar

theorem sizeText_injective : Function.Injective sizeText := by
  intro n n' h
  have hn := parseU64_printDecimal n
  rw [show chars (printDecimal n.toNat) = chars (printDecimal n'.toNat) from h,
    parseU64_printDecimal] at hn
  exact (Option.some.inj hn).symm

theorem lines_canonicalText (m : ManifestInfo) : m.canonicalText.splitOn '\n' =
    "aios-manifest-v1".toList::([m.name.splitOn '\n',m.version.splitOn '\n',
      m.description.splitOn '\n',m.author.splitOn '\n',
      (capsText m.capabilities).splitOn '\n'].flatten ++
        sizeText m.wasmSizeBytes::m.wasmSha256.splitOn '\n') := by
  have hheader : '\n' ∉ "aios-manifest-v1".toList := by decide
  have hsize := splitOn_eq_singleton (newline_notMem_sizeText m.wasmSizeBytes)
  simp only [canonicalText,intercalate_cons_cons,intercalate_singleton,
    append_assoc,singleton_append,splitOn_append_cons_self,
    splitOn_eq_singleton hheader,hsize]
  simp

theorem eq_of_splitOn_eq {x : Char} {s t : Text} (h : s.splitOn x = t.splitOn x) : s = t := by
  have hs : [x].intercalate (s.splitOn x) = s := intercalate_splitOn x
  rw [← hs,h,intercalate_splitOn]

/-- The text of an unambiguous manifest gives its fields back. -/
theorem Unambiguous.textUnique {m : ManifestInfo} (h : m.Unambiguous) : m.TextUnique := by
  intro m' hcovered htext
  apply hcovered
  obtain ⟨c,hcaps,hne,hline,hlist⟩ := h.capabilities
  have hlines := congrArg (splitOn '\n') htext.symm
  rw [lines_canonicalText,lines_canonicalText,hcaps,capsText_singleton,
    splitOn_eq_singleton h.name,splitOn_eq_singleton h.version,
    splitOn_eq_singleton h.description,splitOn_eq_singleton h.author,
    splitOn_eq_singleton hline] at hlines
  have hfields : [m.name,m.version,m.description,m.author,c] ++
      sizeText m.wasmSizeBytes::m.wasmSha256.splitOn '\n' = _ := (cons.inj hlines).2
  obtain ⟨hgroups,hsize,hsha⟩ | ⟨between,hbetween⟩ :=
    Splits.groups_before (by simp) (by simp) hfields
  · have hone {s t : Text} (hs : s.splitOn '\n' = [t]) : s = t := by
      have hjoin : ['\n'].intercalate (s.splitOn '\n') = s := intercalate_splitOn '\n'
      simpa [hs] using hjoin.symm
    obtain ⟨hname,hversion,hdescription,hauthor,hcapsText⟩ :
        m'.name.splitOn '\n' = [m.name] ∧ m'.version.splitOn '\n' = [m.version] ∧
          m'.description.splitOn '\n' = [m.description] ∧ m'.author.splitOn '\n' = [m.author] ∧
          (capsText m'.capabilities).splitOn '\n' = [c] := by
      simpa using hgroups
    have hcaps' := caps_eq_singleton (hone hcapsText) hne hlist
    simp only [covered,hone hname,hone hversion,hone hdescription,hone hauthor,hcaps,hcaps',
      sizeText_injective hsize,eq_of_splitOn_eq hsha]
  · have := h.wasmSha256 between _ _ hbetween
    simp at this

section
variable {m : ManifestInfo}

theorem TextUnique.covered_eq (h : m.TextUnique) (m' : ManifestInfo)
    (htext : m'.canonicalText = m.canonicalText) : m'.covered = m.covered := by
  by_contra hne
  exact h m' hne htext

/-- A line break in a field can be taken for the end of the field. -/
theorem TextUnique.unambiguous (h : m.TextUnique) : m.Unambiguous := by
  have hfree (field : _ → Text) (alter : ∀ x y, field m.covered = x ++ '\n'::y →
      ∃ m' : ManifestInfo, m'.canonicalText = m.canonicalText ∧ field m'.covered = x) :
      '\n' ∉ field m.covered := by
    intro hn
    obtain ⟨x,y,hxy⟩ := append_of_mem hn
    obtain ⟨m',htext,hx⟩ := alter x y hxy
    rw [h.covered_eq m' htext,hxy] at hx
    simp at hx
  refine ⟨hfree (·.1) ?_,hfree (·.2.1) ?_,hfree (·.2.2.1) ?_,hfree (·.2.2.2.1) ?_,?_,
    fun before n after hsha => ?_⟩
  · exact fun x y (hxy : m.name = _) =>
      ⟨{ m with name := x, version := y ++ '\n'::m.version },by simp [canonicalText,hxy],rfl⟩
  · exact fun x y (hxy : m.version = _) => ⟨{ m with
      version := x, description := y ++ '\n'::m.description },by simp [canonicalText,hxy],rfl⟩
  · exact fun x y (hxy : m.description = _) =>
      ⟨{ m with description := x, author := y ++ '\n'::m.author },by simp [canonicalText,hxy],rfl⟩
  · exact fun x y (hxy : m.author = _) => ⟨{ m with
      author := x, capabilities := {y ++ '\n'::capsText m.capabilities} },
      by simp [canonicalText,hxy],rfl⟩
  · -- the set of the one text of all capabilities has the same text
    have hsingle : m.capabilities = {capsText m.capabilities} := by
      have heq := h.covered_eq { m with capabilities := {capsText m.capabilities} }
        (m.canonicalText_caps (capsText_singleton _))
      simpa [covered] using heq.symm
    refine ⟨capsText m.capabilities,hsingle,fun hempty => ?_,fun hline => ?_,fun x y hxy hlt => ?_⟩
    · have heq := h.covered_eq { m with capabilities := ∅ }
        (m.canonicalText_caps (capsText_empty.trans hempty.symm))
      rw [hempty] at hsingle
      simp [covered,hsingle] at heq
    · obtain ⟨x,y,hxy⟩ := append_of_mem hline
      have heq := h.covered_eq { m with author := m.author ++ '\n'::x, capabilities := {y} }
        (by simp [canonicalText,hxy])
      simp [covered] at heq
    · have heq := h.covered_eq { m with capabilities := {x, y} }
        (m.canonicalText_caps ((capsText_pair hlt).trans hxy.symm))
      have hcaps : ({x, y} : Finset Text) = m.capabilities := by simpa [covered] using heq
      have hcard := congrArg Finset.card hcaps
      rw [hsingle,Finset.card_singleton,Finset.card_pair hlt.ne] at hcard
      cases hcard
  · -- the size moves to a line of the hash, the lines before it to the capabilities
    by_contra hafter
    have hjoin : ['\n'].intercalate (m.wasmSha256.splitOn '\n') = m.wasmSha256 :=
      intercalate_splitOn '\n'
    have hlines : ∀ line ∈ after, '\n' ∉ line := fun line hline =>
      Splits.notMem_of_mem_splitOn (hsha ▸ mem_append_right _ (mem_cons_of_mem _ hline))
    let texts := [capsText m.capabilities,sizeText m.wasmSizeBytes] ++ before
    have hmoved : ['\n'].intercalate texts ++ '\n'::(sizeText n ++ '\n'::['\n'].intercalate after) =
        capsText m.capabilities ++ '\n'::(sizeText m.wasmSizeBytes ++ '\n'::m.wasmSha256) := by
      have hsize := Splits.intercalate_append '\n' (cons_ne_nil (sizeText n) []) hafter
      have hfront := Splits.intercalate_append '\n' (cons_ne_nil (capsText m.capabilities)
        (sizeText m.wasmSizeBytes::before)) (cons_ne_nil (sizeText n) after)
      have hback := Splits.intercalate_append '\n' (cons_ne_nil (capsText m.capabilities)
        [sizeText m.wasmSizeBytes]) (splitOn_ne_nil '\n' m.wasmSha256)
      rw [hjoin,hsha] at hback
      simp only [singleton_append,intercalate_singleton] at hsize
      rw [hsize] at hfront
      simp only [texts,cons_append,nil_append] at hfront hback ⊢
      rw [← hfront,hback]
      simp
    have heq := h.covered_eq
      { m with
        capabilities := {['\n'].intercalate texts}
        wasmSizeBytes := n
        wasmSha256 := ['\n'].intercalate after } (by simp [canonicalText,hmoved])
    have hsame : ['\n'].intercalate after = m.wasmSha256 := congrArg (fun t => t.2.2.2.2.2.2) heq
    have hlength := congrArg length (hsame ▸ splitOn_intercalate '\n' hlines hafter)
    rw [hsha] at hlength
    simp at hlength
    omega

end
end ManifestInfo

section
variable {κ : Type} (ed : Ed25519 κ) {m : ManifestInfo}

/-- A signature that was made for the message verifies for no other message. -/
def Unforgeable (key : κ) (msg : List UInt8) : Prop :=
  ∀ msg', ed.verifyStrict (ed.verifyingKey key) msg' (ed.sign key msg) = true → msg' = msg

/-- The signature is the one that the key makes for the manifest; the fields beside it are free. -/
def MadeFor (sig : SignatureInfo) (key : κ) (m : ManifestInfo) : Prop :=
  sig.publicKey = hexText (ed.verifyingKey key) ∧
    sig.signatureHex = hexText (ed.sign key m.canonicalBytes)

/-- A manifest with another value in a covered field has other bytes, and does not verify with a
signature of this manifest. -/
def SignatureBinds (m : ManifestInfo) : Prop :=
  ∀ m' : ManifestInfo, m'.covered ≠ m.covered →
    m'.canonicalBytes ≠ m.canonicalBytes ∧
      ∀ key, Unforgeable ed key m.canonicalBytes → ∀ sig, MadeFor ed sig key m →
        verifySignature ed { m' with signature := some sig } ≠ .ok true ∧
          ∀ trustedKeys,
            verifySignatureWithKeys ed { m' with signature := some sig } trustedKeys ≠ .ok true

variable {ed} {bytes : List UInt8}

theorem decodeHex_hexText (data : List UInt8) : decodeHex (encode (hexText data)) = some data := by
  have hbytes : encode (hexText data) = encodeHex data := by
    rw [encode,bytes,String.toUTF8_eq_toByteArray,hexText,String.toByteArray_ofList,
      utf8Encode_chars (printable_encodeHex data),data_toByteArray]
  rw [hbytes,decodeHex_encodeHex]

theorem decodePublicKey_hexText {key : List UInt8}
    (h : decodePublicKey ed (hexText key) = .ok bytes) : bytes = key := by
  rw [decodePublicKey,decodeHex_hexText] at h
  dsimp only at h
  split_ifs at h
  split at h
  · cases h
  · simpa using h.symm

theorem decodeSignature_hexText (h : decodeSignature ed (hexText signature) = .ok bytes) :
    bytes = signature := by
  rw [decodeSignature,decodeHex_hexText] at h
  dsimp only at h
  split_ifs at h
  simpa using h.symm

theorem checkedSignature_ok (h : checkedSignature m = .ok sig) :
    m.signature = some sig ∧ sig.signedHash = m.wasmSha256 := by
  unfold checkedSignature at h
  split at h
  · cases h
  next sig' hsig =>
    split_ifs at h with halgorithm hhash
    obtain rfl : sig' = sig := by simpa using h
    exact ⟨hsig,not_not.mp hhash⟩

theorem verifySignature_ok (h : verifySignature ed m = .ok true) :
    ∃ sig publicKey signature, m.signature = some sig ∧ sig.signedHash = m.wasmSha256 ∧
      decodePublicKey ed sig.publicKey = .ok publicKey ∧
      decodeSignature ed sig.signatureHex = .ok signature ∧
      ed.verifyStrict publicKey m.canonicalBytes signature = true := by
  obtain ⟨sig,hsig,h⟩ := bind_eq_ok.mp h
  obtain ⟨publicKey,hpublic,h⟩ := bind_eq_ok.mp h
  obtain ⟨signature,hsignature,h⟩ := bind_eq_ok.mp h
  obtain ⟨hm,hhash⟩ := checkedSignature_ok hsig
  exact ⟨sig,publicKey,signature,hm,hhash,hpublic,hsignature,by simpa using h⟩

theorem tryKeys_ok {keys : List Text} (h : tryKeys ed sig msg signature keys = .ok true) :
    ∃ publicKey, sig.publicKey ∈ keys ∧ decodePublicKey ed sig.publicKey = .ok publicKey ∧
      ed.verifyStrict publicKey msg signature = true := by
  induction keys with
  | nil => simp [tryKeys] at h
  | cons key keys ih =>
    have hlater (h : tryKeys ed sig msg signature keys = .ok true) :
        ∃ publicKey, sig.publicKey ∈ key::keys ∧
          decodePublicKey ed sig.publicKey = .ok publicKey ∧
          ed.verifyStrict publicKey msg signature = true := by
      obtain ⟨publicKey,hmem,hkey⟩ := ih h
      exact ⟨publicKey,mem_cons_of_mem _ hmem,hkey⟩
    unfold tryKeys at h
    split_ifs at h with hkey
    · exact hlater h
    · obtain rfl := not_not.mp hkey
      obtain ⟨publicKey,hpublic,hnext⟩ := bind_eq_ok.mp h
      split_ifs at hnext with hverify
      · exact ⟨publicKey,mem_cons_self,hpublic,hverify⟩
      · exact hlater hnext

theorem verifySignatureWithKeys_ok {trustedKeys : List Text}
    (h : verifySignatureWithKeys ed m trustedKeys = .ok true) :
    ∃ sig publicKey signature, m.signature = some sig ∧ sig.signedHash = m.wasmSha256 ∧
      sig.publicKey ∈ trustedKeys ∧ decodePublicKey ed sig.publicKey = .ok publicKey ∧
      decodeSignature ed sig.signatureHex = .ok signature ∧
      ed.verifyStrict publicKey m.canonicalBytes signature = true := by
  obtain ⟨sig,hsig,h⟩ := bind_eq_ok.mp h
  obtain ⟨signature,hsignature,h⟩ := bind_eq_ok.mp h
  obtain ⟨publicKey,hmem,hpublic,hverify⟩ := tryKeys_ok h
  obtain ⟨hm,hhash⟩ := checkedSignature_ok hsig
  exact ⟨sig,publicKey,signature,hm,hhash,hmem,hpublic,hsignature,hverify⟩

/-- A signature of one text says nothing about another one. -/
theorem MadeFor.bytes_eq {key : κ} {publicKey : List UInt8} (h : MadeFor ed sig key m)
    (hkey : Unforgeable ed key m.canonicalBytes)
    (hpublic : decodePublicKey ed sig.publicKey = .ok publicKey)
    (hsignature : decodeSignature ed sig.signatureHex = .ok signature)
    (hverify : ed.verifyStrict publicKey msg signature = true) : msg = m.canonicalBytes := by
  rw [h.1] at hpublic
  rw [h.2] at hsignature
  rw [decodePublicKey_hexText hpublic,decodeSignature_hexText hsignature] at hverify
  exact hkey msg hverify

/-- The signature of a manifest binds every covered field exactly when its text is unambiguous. -/
theorem signatureBinds_iff_unambiguous (ed : Ed25519 κ) (m : ManifestInfo) :
    SignatureBinds ed m ↔ m.Unambiguous := by
  constructor
  · intro h
    apply ManifestInfo.TextUnique.unambiguous
    intro m' hcovered htext
    exact (h m' hcovered).1 (congrArg encode htext)
  · intro h m' hcovered
    have hbytes : m'.canonicalBytes ≠ m.canonicalBytes := fun heq =>
      h.textUnique m' hcovered (encode_injective heq)
    refine ⟨hbytes,fun key hkey sig hmade => ⟨fun hok => ?_,fun trustedKeys hok => ?_⟩⟩
    · obtain ⟨sig',_,_,hsig,-,hpublic,hsignature,hverify⟩ := verifySignature_ok hok
      obtain rfl : sig = sig' := by simpa using hsig
      exact hbytes (hmade.bytes_eq hkey hpublic hsignature hverify)
    · obtain ⟨sig',_,_,hsig,-,-,hpublic,hsignature,hverify⟩ := verifySignatureWithKeys_ok hok
      obtain rfl : sig = sig' := by simpa using hsig
      exact hbytes (hmade.bytes_eq hkey hpublic hsignature hverify)

end

section
variable {κ : Type} {ed : Ed25519 κ}

/-- Keys and signatures have the lengths that the scheme gives them, and a signature verifies
under its key. -/
structure Ed25519.Correct (ed : Ed25519 κ) : Prop where
  key_length : ∀ key, (ed.verifyingKey key).length = 32
  signature_length : ∀ key msg, (ed.sign key msg).length = 64
  fromBytes_ok : ∀ key, ed.fromBytes (ed.verifyingKey key) = .ok ()
  verify_sign : ∀ key msg, ed.verifyStrict (ed.verifyingKey key) msg (ed.sign key msg) = true

theorem verifySignatureWithKeys_signManifest (hed : ed.Correct) (m : ManifestInfo) (key : κ) :
    verifySignatureWithKeys ed { m with signature := some (signManifest ed m key) }
      [hexText (ed.verifyingKey key)] = .ok true := by
  have hpublic : decodePublicKey ed (hexText (ed.verifyingKey key)) =
      .ok (ed.verifyingKey key) := by
    simp [decodePublicKey,decodeHex_hexText,hed.key_length,hed.fromBytes_ok]
  have hsignature : decodeSignature ed (hexText (ed.sign key m.canonicalBytes)) =
      .ok (ed.sign key m.canonicalBytes) := by
    simp [decodeSignature,decodeHex_hexText,hed.signature_length]
  have halgorithm : (signManifest ed m key).algorithm = "Ed25519".toList := rfl
  have hhash : (signManifest ed m key).signedHash = m.wasmSha256 := rfl
  have hkey : (signManifest ed m key).publicKey = hexText (ed.verifyingKey key) := rfl
  have hchecked : checkedSignature { m with signature := some (signManifest ed m key) } =
      .ok (signManifest ed m key) := by
    simp only [checkedSignature,halgorithm,hhash,ne_eq,not_true_eq_false,if_false]
  rw [verifySignatureWithKeys,hchecked,ok_bind]
  show (decodeSignature ed (hexText (ed.sign key m.canonicalBytes)) >>= fun signature =>
    tryKeys ed (signManifest ed m key) m.canonicalBytes signature
      [hexText (ed.verifyingKey key)]) = _
  rw [hsignature,ok_bind,tryKeys,if_neg (not_not.mpr hkey),hpublic,
    ok_bind,if_pos (hed.verify_sign key m.canonicalBytes)]

end

/-- A manifest that describes a block with two capabilities. -/
def networkBlock : ManifestInfo where
  name := "net".toList
  version := "1.0.0".toList
  description := "Network stack".toList
  author := "aios".toList
  capabilities := {"CAP_NET_BIND".toList, "CAP_NET_CONNECT".toList}
  wasmSizeBytes := 100
  wasmSha256 := "ab".toList
  signature := none
  storeUrl := none

/-- One capability whose name is the list of the two gives the same bytes. -/
theorem networkBlock_bytes_shared :
    let joined := { networkBlock with capabilities := {"CAP_NET_BIND,CAP_NET_CONNECT".toList} }
    joined.covered ≠ networkBlock.covered ∧
      joined.canonicalBytes = networkBlock.canonicalBytes ∧
      ∀ ed : Ed25519 Unit, ¬ SignatureBinds ed networkBlock := by
  intro joined
  have hcovered : joined.covered ≠ networkBlock.covered := fun h =>
    absurd (congrArg (fun t => t.2.2.2.2.1) h) (by decide)
  have hbytes : joined.canonicalBytes = networkBlock.canonicalBytes := by
    have hpair : ManifestInfo.capsText networkBlock.capabilities =
        "CAP_NET_BIND,CAP_NET_CONNECT".toList := ManifestInfo.capsText_pair (by decide)
    exact congrArg encode (ManifestInfo.canonicalText_caps networkBlock
      ((ManifestInfo.capsText_singleton _).trans hpair.symm))
  exact ⟨hcovered,hbytes,fun ed h => (h joined hcovered).1 hbytes⟩

end Aios.Store
