import Aios.Lib.JsonText
import Aios.Store.Manifest

/-!
The text of a manifest's sidecar file: an object with the manifest's fields and the time of the
installation, in alphabetical order, one field a line.
-/
namespace Aios.Store

open Bincode JsonText List Utf8

def SignatureInfo.json (s : SignatureInfo) : List UInt8 :=
  bytes "\x7b\n    \"algorithm\": " ++ (quote s.algorithm ++
  (bytes ",\n    \"public_key\": " ++ (quote s.publicKey ++
  (bytes ",\n    \"signature_hex\": " ++ (quote s.signatureHex ++
  (bytes ",\n    \"signed_hash\": " ++ (quote s.signedHash ++ bytes "\n  \x7d")))))))

def signatureInfo : Decoder SignatureInfo := do
  literal "\x7b\n    \"algorithm\": "
  let algorithm ← string
  literal ",\n    \"public_key\": "
  let publicKey ← string
  literal ",\n    \"signature_hex\": "
  let signatureHex ← string
  literal ",\n    \"signed_hash\": "
  let signedHash ← string
  literal "\n  \x7d"
  return ⟨algorithm,publicKey,signatureHex,signedHash⟩

theorem decodes_signatureInfo (s : SignatureInfo) : Decodes signatureInfo s.json s :=
  (decodes_literal _).bind <| (decodes_string _).bind <| (decodes_literal _).bind <|
  (decodes_string _).bind <| (decodes_literal _).bind <| (decodes_string _).bind <|
  (decodes_literal _).bind <| (decodes_string _).bind <| (decodes_literal _).finish (.pure s)

/-- The sidecar of a manifest; the set's order is the one in which its texts are sorted. -/
def ManifestInfo.sidecarJson (m : ManifestInfo) (now : UInt64) : List UInt8 :=
  bytes "\x7b\n  \"author\": " ++ (quote m.author ++
  (bytes ",\n  \"capabilities\": " ++ (strings (inOrder m.capabilities) ++
  (bytes ",\n  \"description\": " ++ (quote m.description ++
  (bytes ",\n  \"installed_at\": " ++ (number now 0x2c ++
  (bytes "\n  \"name\": " ++ (quote m.name ++
  (bytes ",\n  \"signature\": " ++ (orNull SignatureInfo.json m.signature ++
  (bytes ",\n  \"store_url\": " ++ (orNull quote m.storeUrl ++
  (bytes ",\n  \"version\": " ++ (quote m.version ++
  (bytes ",\n  \"wasm_sha256\": " ++ (quote m.wasmSha256 ++
  (bytes ",\n  \"wasm_size_bytes\": " ++ (number m.wasmSizeBytes 0x0a ++
    bytes "\x7d")))))))))))))))))))

/-- A sidecar in the layout in which it is written. -/
def sidecar : Decoder ManifestInfo := do
  literal "\x7b\n  \"author\": "
  let author ← string
  literal ",\n  \"capabilities\": "
  let capabilities ← readStrings
  literal ",\n  \"description\": "
  let description ← string
  literal ",\n  \"installed_at\": "
  let _ ← numberThen 0x2c
  literal "\n  \"name\": "
  let name ← string
  literal ",\n  \"signature\": "
  let signature ← nullable signatureInfo
  literal ",\n  \"store_url\": "
  let storeUrl ← nullable string
  literal ",\n  \"version\": "
  let version ← string
  literal ",\n  \"wasm_sha256\": "
  let wasmSha256 ← string
  literal ",\n  \"wasm_size_bytes\": "
  let wasmSizeBytes ← numberThen 0x0a
  literal "\x7d"
  return ⟨name,version,description,author,capabilities.toFinset,wasmSizeBytes,wasmSha256,
    signature,storeUrl⟩

theorem decodes_sidecar (m : ManifestInfo) (now : UInt64) :
    Decodes sidecar (m.sidecarJson now) m := by
  have hsignature := decodes_nullable decodes_signatureInfo (fun _ => ⟨_,_,rfl,by decide⟩)
  have hurl := decodes_nullable decodes_string (fun _ => ⟨_,_,rfl,by decide⟩)
  refine (decodes_literal _).bind <| (decodes_string _).bind <| (decodes_literal _).bind <|
    (decodes_strings _).bind <| (decodes_literal _).bind <| (decodes_string _).bind <|
    (decodes_literal _).bind <| (decodes_number now (by decide)).bind <|
    (decodes_literal _).bind <| (decodes_string _).bind <| (decodes_literal _).bind <|
    (hsignature _).bind <| (decodes_literal _).bind <| (hurl _).bind <|
    (decodes_literal _).bind <| (decodes_string _).bind <| (decodes_literal _).bind <|
    (decodes_string _).bind <| (decodes_literal _).bind <|
    (decodes_number m.wasmSizeBytes (by decide)).bind <| (decodes_literal _).finish ?_
  rw [toFinset_inOrder]
  exact .pure m

end Aios.Store
