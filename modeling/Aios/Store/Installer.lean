import Aios.Lib.Sha256
import Aios.Lib.SortedKeys
import Aios.Store.Sidecar
import Mathlib.Data.List.DropRight

/-!
The directory of installed blocks: a binary `<name>_<version>.wasm` with a `.json` sidecar each,
listed newest version first, backed up to `.bak` files and rolled back from them.
-/
namespace Aios.Store

open Aios.Core TextCodec Fallible

/-! ### Versions -/

/-- The runs of digits of a version, as numbers. -/
def components (v : Text) : List ℕ :=
  ((v.splitOnP fun c => !c.isDigit).filter (· ≠ [])).map fun s =>
    ((parseU64 s).map UInt64.toNat).getD 0

def cmpComponents : List ℕ → List ℕ → Ordering
  | x::xs, y::ys => if x ≠ y then compare x y else cmpComponents xs ys
  | xs, ys => compare xs.length ys.length

def cmpVersion (a b : Text) : Ordering := cmpComponents (components a) (components b)

/-! ### File names -/

def isSafe (c : Char) : Bool := c.isAlphanum || c == '.' || c == '-'

def sanitizeComponent (input : Text) : Text :=
  (input.map fun c => if isSafe c then c else '_').rdropWhile (· == '.')

/-- The file name without its extension, and the extension, split at the last dot unless nothing
stands before it. -/
def splitExtension (name : Text) : Text × Option Text :=
  let after := name.rtakeWhile (· ≠ '.')
  let before := (name.rdropWhile (· ≠ '.')).dropLast
  if before = [] then (name,none) else (before,some after)

def fileStem (name : Text) : Option Text :=
  if name ∈ ["".toList,".".toList,"..".toList] then none else some (splitExtension name).1

def extension (name : Text) : Option Text :=
  if name ∈ ["".toList,".".toList,"..".toList] then none else (splitExtension name).2

def withExtension (name ext : Text) : Text :=
  match fileStem name with
  | some stem => stem ++ '.'::ext
  | none => name

def splitOnce (x : Char) (s : Text) : Option (Text × Text) :=
  match s.dropWhile (· ≠ x) with
  | [] => none
  | _::rest => some (s.takeWhile (· ≠ x),rest)

/-- The name and the version that a file name of the form `<name>_<version>.wasm` tells. -/
def parseNameVersion (path : Text) : Text × Text :=
  let stem := (fileStem path).getD "block".toList
  match splitOnce '_' stem with
  | some (name,version) => if version ≠ [] then (name,version) else (stem,"0.0.0".toList)
  | none => (stem,"0.0.0".toList)

def fileStemOf (name version : Text) : Text :=
  sanitizeComponent name ++ '_'::sanitizeComponent version

def wasm : Text := ".wasm".toList
def json : Text := ".json".toList
def bak : Text := ".bak".toList

/-! ### The installer -/

/-- The files below the blocks directory, by their path from there. -/
abbrev Blocks := Finmap fun _ : Text => List UInt8

/-- What comes from other crates: the hash, the JSON of a sidecar (with the time of installation)
and its parser, and how a path is printed. -/
structure Host where
  sha256 : List UInt8 → Digest
  sidecarJson : ManifestInfo → UInt64 → List UInt8
  manifestFromJson : List UInt8 → Option ManifestInfo
  debugPath : Text → String

def Host.Lawful (host : Host) : Prop :=
  ∀ m now, host.manifestFromJson (host.sidecarJson m now) = some m

structure Io where
  createDir : Option String
  binary : WriteOutcome (List UInt8)
  sidecar : WriteOutcome (List UInt8)
  now : UInt64

def Io.succeeds (now : UInt64) : Io := ⟨none,.done,.done,now⟩

structure InstalledBlock where
  manifest : ManifestInfo
  path : Text
  deriving DecidableEq

structure BlockInstaller where
  blocksDir : Text
  trustedKeys : List Text

def writeFile (dir : Blocks) (path : Text) (data : List UInt8)
    (outcome : WriteOutcome (List UInt8)) :
    Blocks × Except String Unit :=
  match outcome with
  | .done => (dir.insert path data,.ok ())
  | .failed e left => (left.elim dir fun data => dir.insert path data,.error e)

namespace BlockInstaller

section
variable {κ : Type} (ed : Ed25519 κ) (host : Host) (inst : BlockInstaller)

def shaText (binary : List UInt8) : Text := hexText (host.sha256 binary).1

def writeError (path : Text) (e : String) : String :=
  "Failed to write " ++ host.debugPath (inst.blocksDir ++ '/'::path) ++ ": " ++ e

def verifyManifest (m : ManifestInfo) : Except String Unit :=
  match m.signature with
  | some _ =>
    if inst.trustedKeys.isEmpty then
      match verifySignature ed m with
      | .error e => .error ("Signature verification failed: " ++ e)
      | .ok true => .ok ()
      | .ok false => .error ("Manifest '" ++ String.ofList m.name ++ "' has an invalid signature")
    else
      match verifySignatureWithKeys ed m inst.trustedKeys with
      | .error e => .error ("Signature verification failed: " ++ e)
      | .ok true => .ok ()
      | .ok false =>
        .error ("Manifest '" ++ String.ofList m.name ++ "' is not signed by a trusted key")
  | none =>
    if !inst.trustedKeys.isEmpty then
      .error ("Manifest '" ++ String.ofList m.name ++
        "' is not signed, but trusted keys are configured")
    else .ok ()

def writeSidecar (dir : Blocks) (m : ManifestInfo) (io : Io) : Blocks × Except String Unit :=
  let path := fileStemOf m.name m.version ++ json
  let r := writeFile dir path (host.sidecarJson m io.now) io.sidecar
  (r.1,r.2.mapError (inst.writeError host path))

/-- The files after `install_verified`, and its result. -/
def installVerified (dir : Blocks) (m : ManifestInfo) (binary : List UInt8) (io : Io) :
    Blocks × Except String InstalledBlock :=
  match io.createDir with
  | some e => (dir,.error ("Failed to create " ++ host.debugPath inst.blocksDir ++ ": " ++ e))
  | none =>
    if sanitizeComponent m.name = [] ∨ sanitizeComponent m.version = [] then
      (dir,.error "Block name and version must not be empty")
    else if m.wasmSha256 ≠ [] ∧ shaText host binary ≠ m.wasmSha256 then
      (dir,.error ("SHA-256 mismatch for '" ++ String.ofList m.name ++ "': expected " ++
        String.ofList m.wasmSha256 ++ ", got " ++ String.ofList (shaText host binary)))
    else
      let path := fileStemOf m.name m.version ++ wasm
      match writeFile dir path binary io.binary with
      | (dir,.error e) => (dir,.error (inst.writeError host path e))
      | (dir,.ok ()) =>
        let r := inst.writeSidecar host dir m io
        (r.1,r.2.map fun _ => { manifest := m, path })

def installFromBytes (dir : Blocks) (m : ManifestInfo) (binary : List UInt8) (io : Io) :
    Blocks × Except String InstalledBlock :=
  match inst.verifyManifest ed m with
  | .error e => (dir,.error e)
  | .ok () => inst.installVerified host dir m binary io

end

section
variable (host : Host) (dir : Blocks)

def isDirectChild (path : Text) : Bool := !path.contains '/'

def defaultManifest (name version : Text) (size : ℕ) (wasmSha256 : Text) : ManifestInfo where
  name
  version
  description := []
  author := "local".toList
  capabilities := ∅
  wasmSizeBytes := UInt64.ofNat size
  wasmSha256
  signature := none
  storeUrl := none

/-- The manifest with which a binary is listed: that of the sidecar, if it can be read, with the
hash of the binary in place of an empty one. -/
def listedManifest (path : Text) : ManifestInfo :=
  let binary := (dir.lookup path).getD []
  let m := ((dir.lookup (withExtension path "json".toList)).bind host.manifestFromJson).getD
    (defaultManifest (parseNameVersion path).1 (parseNameVersion path).2 binary.length [])
  if m.wasmSha256 = [] then { m with wasmSha256 := shaText host binary } else m

def binaries : List Text :=
  (dir.sortedKeys.filter isDirectChild).filter fun path =>
    extension path = some "wasm".toList ∨ extension path = some "bin".toList

/-- The newer version comes first; `sort_by` is stable. -/
def notOlder (a b : InstalledBlock) : Prop := cmpVersion b.manifest.version a.manifest.version ≠ .gt

instance : DecidableRel notOlder := fun _ _ => inferInstanceAs (Decidable (_ ≠ _))

def listInstalled : List InstalledBlock :=
  ((binaries dir).map fun path => { manifest := listedManifest host dir path, path }).insertionSort
    notOlder

def findInstalled (name : Text) : Option InstalledBlock :=
  (listInstalled host dir).find? fun b => b.manifest.name = name

end

/-! ### Trusted code only -/

section
variable {κ : Type} {ed : Ed25519 κ} {host : Host} {inst : BlockInstaller} {dir : Blocks}
  {m : ManifestInfo} {binary : List UInt8} {io : Io}

/-- The manifest carries a signature of its canonical bytes that one of the keys verifies. -/
def SignedBy (ed : Ed25519 κ) (keys : List Text) (m : ManifestInfo) : Prop :=
  ∃ sig publicKey signature, m.signature = some sig ∧ sig.publicKey ∈ keys ∧
    decodePublicKey ed sig.publicKey = .ok publicKey ∧
    decodeSignature ed sig.signatureHex = .ok signature ∧
    ed.verifyStrict publicKey m.canonicalBytes signature = true

/-- The manifest names a hash, and it is not that of the binary. -/
def HashMismatch (host : Host) (m : ManifestInfo) (binary : List UInt8) : Prop :=
  m.wasmSha256 ≠ [] ∧ shaText host binary ≠ m.wasmSha256

theorem signedBy_of_verifyManifest (hkeys : inst.trustedKeys ≠ [])
    (h : inst.verifyManifest ed m = .ok ()) : SignedBy ed inst.trustedKeys m := by
  have hnonempty : inst.trustedKeys.isEmpty = false := by simpa using hkeys
  unfold verifyManifest at h
  split at h
  · rw [hnonempty,if_neg (by simp)] at h
    split at h
    · cases h
    next hok =>
      obtain ⟨sig,publicKey,signature,hsig,-,hmem,hpublic,hsignature,hverify⟩ :=
        verifySignatureWithKeys_ok hok
      exact ⟨sig,publicKey,signature,hsig,hmem,hpublic,hsignature,hverify⟩
    · cases h
  · simp [hnonempty] at h

theorem not_hashMismatch_of_ok {block : InstalledBlock}
    (h : (inst.installVerified host dir m binary io).2 = .ok block) :
    ¬ HashMismatch host m binary := by
  intro hmismatch
  unfold installVerified at h
  split at h
  · cases h
  · split_ifs at h with hname hhash
    exact hhash hmismatch

theorem installVerified_of_hashMismatch (hmismatch : HashMismatch host m binary) :
    ∃ e, inst.installVerified host dir m binary io = (dir,.error e) := by
  unfold installVerified
  split
  · exact ⟨_,rfl⟩
  · split_ifs with hname hhash
    · exact ⟨_,rfl⟩
    · exact ⟨_,rfl⟩
    · exact absurd hmismatch hhash

/-- The manifest names a block: nothing of its name or version is lost entirely. -/
def Named (m : ManifestInfo) : Prop :=
  sanitizeComponent m.name ≠ [] ∧ sanitizeComponent m.version ≠ []

instance (m : ManifestInfo) : Decidable (Named m) := inferInstanceAs (Decidable (_ ∧ _))

def withBlock (host : Host) (dir : Blocks) (m : ManifestInfo) (binary : List UInt8) (now : UInt64) :
    Blocks :=
  (dir.insert (fileStemOf m.name m.version ++ wasm) binary).insert
    (fileStemOf m.name m.version ++ json) (host.sidecarJson m now)

theorem installVerified_succeeds (hname : Named m) (hhash : ¬ HashMismatch host m binary)
    (now : UInt64) : inst.installVerified host dir m binary (.succeeds now) =
      (withBlock host dir m binary now,.ok ⟨m,fileStemOf m.name m.version ++ wasm⟩) := by
  have hname' : ¬ (sanitizeComponent m.name = [] ∨ sanitizeComponent m.version = []) :=
    not_or.mpr hname
  rw [HashMismatch] at hhash
  unfold installVerified Io.succeeds
  rw [if_neg hname',if_neg hhash]
  rfl

/-- With trusted keys configured, what is installed is signed by one of them, over the hash of the
binary unless the manifest leaves it empty. A manifest that fails either check changes no file. -/
theorem install_trusted (ed : Ed25519 κ) (host : Host) (inst : BlockInstaller)
    (hkeys : inst.trustedKeys ≠ []) (dir : Blocks) (m : ManifestInfo) (binary : List UInt8)
    (io : Io) :
    (∀ block, (inst.installFromBytes ed host dir m binary io).2 = .ok block →
      SignedBy ed inst.trustedKeys m ∧
        (m.wasmSha256 = shaText host binary ∨ m.wasmSha256 = [])) ∧
    ((∃ e, inst.verifyManifest ed m = .error e) ∨ HashMismatch host m binary →
      ∃ e, inst.installFromBytes ed host dir m binary io = (dir,.error e)) := by
  unfold installFromBytes
  cases hverify : inst.verifyManifest ed m with
  | error e => exact ⟨by simp,fun _ => ⟨e,rfl⟩⟩
  | ok _ =>
    refine ⟨fun block hok => ⟨signedBy_of_verifyManifest hkeys hverify,?_⟩,fun h => ?_⟩
    · have hhash := not_hashMismatch_of_ok hok
      rw [HashMismatch,not_and_or,not_not,not_not] at hhash
      exact hhash.symm.imp_left Eq.symm
    · rcases h with ⟨e,he⟩ | hmismatch
      · cases he
      · exact installVerified_of_hashMismatch hmismatch

end

/-- A manifest of the smallest module, with a hash. -/
def sampleManifest (hash : String) : ManifestInfo :=
  { networkBlock with wasmSizeBytes := 8, wasmSha256 := hash.toList }

/-- The SHA-256 of the smallest module. -/
def sampleHash : String := "93a44bbb96c751218e4c00d479e4c14358122a389acca16205b1e4d0dc5f9476"

def sampleKey : String := "ea4a6c63e29c520abef5507b132ec5f9954776aebebe7b92421eea691446d22c"

def hexBytes (s : String) : List UInt8 := (decodeHex (Utf8.bytes s)).getD []

/-- The Ed25519 signatures of two manifests under the key with the seed `[7; 32]`, and a stand-in
for every other message. -/
def sampleSignature (msg : List UInt8) : List UInt8 :=
  if msg = (sampleManifest sampleHash).canonicalBytes then
    hexBytes ("2691a88545dbdf181fe49cf55b3416e32201add72dfbcc71d49c66e98fd5c11a" ++
      "ca9804ee9b3d5e64b5e470f20ff2c029f38b90582e98cd1988d2fcbd24c61206")
  else if msg = (sampleManifest "").canonicalBytes then
    hexBytes ("ccfad127b852b13e3aae36a4c1698c3fadef18bff95e493812a6fdd82bfb775d" ++
      "ef07912d492d9fd589b16a413da7e74b05438131ce0e1484e19fddc1a6a4b10a")
  else (msg ++ List.replicate 64 0).take 64

def sampleEd : Ed25519 Unit where
  verifyingKey _ := hexBytes sampleKey
  sign _ := sampleSignature
  fromBytes key := if key = hexBytes sampleKey then .ok () else .error "signature error"
  verifyStrict key msg signature := key = hexBytes sampleKey ∧ signature = sampleSignature msg
  hexError _ := "Odd number of digits"

theorem sampleEd_correct : sampleEd.Correct where
  key_length _ := by
    show (hexBytes sampleKey).length = 32
    decide +kernel
  signature_length _ msg := by
    show (sampleSignature msg).length = 64
    unfold sampleSignature
    split_ifs
    · decide +kernel
    · decide +kernel
    · simp
  fromBytes_ok _ := by simp [sampleEd]
  verify_sign _ msg := by simp [sampleEd]

def serdeHost : Host where
  sha256 := Sha256.sha256
  sidecarJson := ManifestInfo.sidecarJson
  manifestFromJson data := (sidecar data).bind fun r => if r.2 = [] then some r.1 else none
  debugPath path := "\"" ++ String.ofList path ++ "\""

theorem serdeHost_lawful : serdeHost.Lawful := by
  intro m now
  have hread := decodes_sidecar m now []
  rw [List.append_nil] at hread
  show (sidecar (m.sidecarJson now)).bind _ = _
  rw [hread]
  rfl

def sampleInstaller : BlockInstaller where
  blocksDir := "blocks".toList
  trustedKeys := [hexText (sampleEd.verifyingKey ())]

/-- The manifest with a signature of the trusted key. -/
def signedBySample (m : ManifestInfo) : ManifestInfo :=
  { m with signature := some (signManifest sampleEd m ()) }

theorem sampleInstaller_installs {m : ManifestInfo} {binary : List UInt8} (hname : Named m)
    (hhash : ¬ HashMismatch serdeHost m binary) :
    ∃ block, (sampleInstaller.installFromBytes sampleEd serdeHost ∅ (signedBySample m) binary
      (.succeeds 0)).2 = .ok block := by
  have hverify : sampleInstaller.verifyManifest sampleEd (signedBySample m) = .ok () := by
    have hkeys := verifySignatureWithKeys_signManifest sampleEd_correct m ()
    have htrusted : sampleInstaller.trustedKeys.isEmpty = false := rfl
    have hsig : (signedBySample m).signature = some (signManifest sampleEd m ()) := rfl
    unfold verifyManifest
    rw [hsig,htrusted]
    simp only [Bool.false_eq_true,if_false]
    rw [show verifySignatureWithKeys sampleEd (signedBySample m) sampleInstaller.trustedKeys =
      .ok true from hkeys]
  have hsigned : Named (signedBySample m) ∧ ¬ HashMismatch serdeHost (signedBySample m) binary :=
    ⟨hname,hhash⟩
  rw [installFromBytes,hverify]
  exact ⟨_,congrArg Prod.snd (installVerified_succeeds hsigned.1 hsigned.2 0)⟩

theorem install_trusted_networkBlock :
    let m := sampleManifest sampleHash
    let binary := [0x00,0x61,0x73,0x6d,0x01,0x00,0x00,0x00]
    (∃ block, (sampleInstaller.installFromBytes sampleEd serdeHost ∅ (signedBySample m) binary
      (.succeeds 0)).2 = .ok block) ∧
      SignedBy sampleEd sampleInstaller.trustedKeys (signedBySample m) := by
  intro m binary
  have hhash : ¬ HashMismatch serdeHost m binary := fun h => h.2 (by decide +kernel)
  obtain ⟨block,hok⟩ := sampleInstaller_installs (m := m) (by decide) hhash
  exact ⟨⟨block,hok⟩,((install_trusted sampleEd serdeHost sampleInstaller (by decide) ∅
    (signedBySample m) binary (.succeeds 0)).1 block hok).1⟩

/-- A signed manifest whose hash is empty vouches for any binary. -/
theorem unhashed_installs_any_binary : sampleInstaller.trustedKeys ≠ [] ∧
      let m := signedBySample (sampleManifest "")
      ∀ binary, (∃ block, (sampleInstaller.installFromBytes sampleEd serdeHost ∅ m binary
          (.succeeds 0)).2 = .ok block) ∧ m.wasmSha256 ≠ shaText serdeHost binary := by
  refine ⟨by decide,fun binary => ⟨?_,?_⟩⟩
  · exact sampleInstaller_installs (m := sampleManifest "") (by decide) fun h => h.1 rfl
  · intro hempty
    have hlength : (shaText serdeHost binary).length = 0 := by
      rw [← hempty]
      rfl
    simp [shaText,hexText,chars,encodeHex,(serdeHost.sha256 binary).2] at hlength

end BlockInstaller
end Aios.Store
