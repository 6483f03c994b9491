import Aios.Core.IpcProtocol
import Aios.Lib.Base64
import Aios.Lib.Fallible
import Aios.Lib.FiniteMap
import Aios.Lib.JsonText
import Aios.Lib.Sha256
import Aios.Lib.Splits
import Aios.Lib.TextCodec

/-!
The users of the bridge and their session tokens: three dotted parts, the last a keyed hash of the
others. The server may be restarted at any time, and a request brings any text.
-/
namespace Aios.Bridge

open Aios.Core TextCodec List Bincode Fallible

def asBytes (s : List Char) : List UInt8 := Utf8.encode s

inductive BridgeError where
  | intentParseFailed (msg : String)
  | capabilityDenied (msg : String)
  | systemCallFailed (msg : String)
  | serializationFailed (msg : String)
  | serverError (msg : String)
  | invalidRequest (msg : String)
  | webSocketError (msg : String)
  deriving DecidableEq

def stretchIterations : ℕ := 10000
def tokenTtlSecs : UInt64 := 12*60*60

/-- `password_hash` is a text of hexadecimal digits, kept here as its bytes. -/
structure UserRecord where
  username : List Char
  salt : List Char
  passwordHash : List UInt8
  createdAt : UInt64

abbrev Users := Finmap fun _ : List Char => UserRecord

structure TokenPayload where
  sub : List Char
  exp : UInt64
  iat : UInt64
  deriving DecidableEq

/-- What comes from other crates: the hash, the case mapping, base64url without padding, and
JSON. -/
structure Codec where
  sha256 : List UInt8 → Digest
  toLowercase : List Char → List Char
  debugPath : List Char → String
  encode : List UInt8 → List Char
  decode : List Char → Option (List UInt8)
  payloadToVec : TokenPayload → List UInt8
  payloadFromSlice : List UInt8 → Option TokenPayload
  usersToJson : Users → Except String (List Char)
  usersFromJson : List Char → Option Users

/-- Decoding inverts encoding, the alphabet of base64url has no dot, and JSON round-trips a
payload. -/
structure Codec.Lawful (c : Codec) : Prop where
  decode_encode : ∀ data, c.decode (c.encode data) = some data
  dot_notMem_encode : ∀ data, '.' ∉ c.encode data
  payload_roundTrip : ∀ payload, c.payloadFromSlice (c.payloadToVec payload) = some payload

variable (c : Codec) {s : AuthStore} {now : UInt64} {payload : TokenPayload}
  {username password : List Char} {s' : Server}

def stretchHash (salt password : List Char) : List UInt8 :=
  (fun hash => encodeHex (c.sha256 hash).1)^[stretchIterations] (asBytes (salt ++ ':'::password))

def b64Decode (s : List Char) : Except BridgeError (List UInt8) :=
  (c.decode s).elim (.error (.invalidRequest "Malformed token")) .ok

def normalise (username : List Char) : List Char := c.toLowercase (trim username)

structure AuthStore where
  users : Users
  secret : List Char
  path : List Char

namespace AuthStore

/-- `AuthStore::new`, over the content of the users file and the errors of making the directory and
reading the file. -/
def new (dataDir : List Char) (env : Option (List Char)) (dirError readError : Option String)
    (file : Option (List Char)) : Except BridgeError AuthStore :=
  match dirError with
  | some e => .error (.serverError ("Cannot create data dir " ++ c.debugPath dataDir ++ ": " ++ e))
  | none =>
    let path := dataDir ++ "/users.json".toList
    let secret := env.getD ("aios-bridge-".toList ++ dataDir)
    match file, readError with
    | none, _ => .ok { users := ∅, secret, path }
    | some _, some e => .error (.serverError ("Cannot read auth store: " ++ e))
    | some raw, none => .ok { users := (c.usersFromJson raw).getD ∅, secret, path }

def persist (s : AuthStore) (file : Option (List Char)) (write : WriteOutcome (List Char)) :
    Option (List Char) × Except BridgeError Unit :=
  match c.usersToJson s.users with
  | .error e => (file,.error (.serializationFailed ("Users serialization failed: " ++ e)))
  | .ok json =>
    match write with
    | .done => (some json,.ok ())
    | .failed e left => (left,.error (.serverError ("Cannot write auth store: " ++ e)))

/-- HMAC-SHA256 under the secret of the store. -/
def hmacSha256 (secret : List Char) (data : List UInt8) : List UInt8 :=
  let key := asBytes secret
  let key := if 64 < key.length then (c.sha256 key).1 else key
  let keyPadded := key ++ replicate (64-key.length) 0
  let ipad := keyPadded.map (· ^^^ 0x36)
  let opad := keyPadded.map (· ^^^ 0x5c)
  (c.sha256 (opad ++ (c.sha256 (ipad ++ data)).1)).1

def jwtHeader : List Char := c.encode (Utf8.bytes "\x7b\"alg\":\"HS256\",\"typ\":\"JWT\"\x7d")

def signingInput (payload : TokenPayload) : List Char :=
  jwtHeader c ++ '.'::c.encode (c.payloadToVec payload)

def signed (secret message : List Char) : List Char :=
  message ++ '.'::c.encode (hmacSha256 c secret (asBytes message))

def signToken (s : AuthStore) (payload : TokenPayload) : List Char :=
  signed c s.secret (signingInput c payload)

def verifyToken (s : AuthStore) (token : List Char) (now : UInt64) :
    Except BridgeError TokenPayload :=
  match token.splitOn '.' with
  | [header,body,signature] => do
    let expected := hmacSha256 c s.secret (asBytes (header ++ '.'::body))
    let given ← b64Decode c signature
    if expected.length ≠ given.length ∨ (expected.zip given).any fun p => p.1 ≠ p.2 then
      .error (.invalidRequest "Invalid token signature")
    else do
      let bytes ← b64Decode c body
      match c.payloadFromSlice bytes with
      | none => .error (.invalidRequest "Invalid token payload")
      | some payload =>
        if payload.exp ≤ now then .error (.invalidRequest "Token expired") else .ok payload
  | _ => .error (.invalidRequest "Malformed token")

def payloadFor (username : List Char) (now : UInt64) : TokenPayload :=
  { sub := username, iat := now, exp := now+tokenTtlSecs }

def issueToken (s : AuthStore) (username : List Char) (now : UInt64) : List Char :=
  signToken c s (payloadFor username now)

/-- The store and the users file after `register`, and its result. The new user stays in memory even
if the write fails. -/
def register (s : AuthStore) (file : Option (List Char)) (username password salt : List Char)
    (createdAt now : UInt64) (write : WriteOutcome (List Char)) :
    AuthStore × Option (List Char) × Except BridgeError (List Char) :=
  let username := normalise c username
  if username.isEmpty ∨ password.isEmpty then
    (s,file,.error (.invalidRequest "Username and password are required"))
  else if (asBytes username).length < 3 then
    (s,file,.error (.invalidRequest "Username must be at least 3 characters"))
  else if (asBytes password).length < 6 then
    (s,file,.error (.invalidRequest "Password must be at least 6 characters"))
  else if (s.users.lookup username).isSome then
    (s,file,.error (.invalidRequest "Username already exists"))
  else
    let record :=
      { username, salt, passwordHash := stretchHash c salt password, createdAt : UserRecord }
    let s := { s with users := s.users.insert username record }
    let (file,written) := persist c s file write
    (s,file,written.map fun _ => issueToken c s username now)

def login (s : AuthStore) (username password : List Char) (now : UInt64) :
    Except BridgeError (List Char) :=
  let username := normalise c username
  match s.users.lookup username with
  | none => .error (.invalidRequest "Invalid credentials")
  | some record =>
    if stretchHash c record.salt password ≠ record.passwordHash then
      .error (.invalidRequest "Invalid credentials")
    else .ok (issueToken c s username now)

def bearerToken (header : List Char) : Option (List Char) :=
  if "Bearer ".toList <+: header then some (trim (header.drop "Bearer ".toList.length)) else none

def bearerUser (s : AuthStore) (header : List Char) (now : UInt64) :
    Except BridgeError (List Char) :=
  match bearerToken header with
  | none => .error (.invalidRequest "Bearer token required")
  | some token => do
    let payload ← verifyToken c s token now
    if (s.users.lookup payload.sub).isSome then .ok payload.sub
    else .error (.invalidRequest "Unknown user")

end AuthStore

/-! ### Runs of the server -/

open AuthStore

/-- The server: its data directory and users file, the store while it is up, and the texts signed so
far with the secret at the time. -/
structure Server where
  dataDir : List Char
  file : Option (List Char)
  store : Option AuthStore
  signedTexts : List (List Char × List Char)

inductive Event where
  | restart (env : Option (List Char)) (dirError readError : Option String)
  | register (username password salt : List Char) (createdAt now : UInt64)
      (write : WriteOutcome (List Char))
  | login (username password : List Char) (now : UInt64)

/-- The user name of a request for a token, and the time at which the token is issued. -/
def Event.request : Event → Option (List Char × UInt64)
  | .restart .. => none
  | .register username _ _ _ now _ => some (username,now)
  | .login username _ now => some (username,now)

inductive Answer where
  | restarted (result : Except BridgeError Unit)
  | token (result : Except BridgeError (List Char))

namespace Server

/-- Every token is signed by `issue_token`; its signing input is added to the signed texts. -/
def note (s : Server) (store : AuthStore) (username : List Char) (now : UInt64)
    (result : Except BridgeError (List Char)) : List (List Char × List Char) :=
  match result with
  | .ok _ =>
    s.signedTexts ++ [(store.secret,signingInput c (payloadFor (normalise c username) now))]
  | .error _ => s.signedTexts

def step (s : Server) : Event → Option (Server × Answer)
  | .restart env dirError readError =>
    match new c s.dataDir env dirError readError s.file with
    | .ok store => some ({ s with store := some store },.restarted (.ok ()))
    | .error e => some ({ s with store := none },.restarted (.error e))
  | .register username password salt createdAt now write => s.store.map fun store =>
    let r := store.register c s.file username password salt createdAt now write
    ({ s with
        store := some r.1
        file := r.2.1
        signedTexts := s.note c r.1 username now r.2.2 },.token r.2.2)
  | .login username password now => s.store.map fun store =>
    let result := store.login c username password now
    ({ s with signedTexts := s.note c store username now result },.token result)

def run : Server → List Event → Option (Server × List (Event × Answer))
  | s, [] => some (s,[])
  | s, e::events => do
    let (s,a) ← step c s e
    let (s,answers) ← run s events
    return (s,(e,a)::answers)

/-- A server that is not up yet, over any users file. -/
def down (dataDir : List Char) (file : Option (List Char)) : Server :=
  { dataDir, file, store := none, signedTexts := [] }

end Server

/-! ### Soundness of the tokens -/

section
variable {c} {token : List Char}

theorem eq_of_zip {as bs : List UInt8}
    (h : ¬ (as.length ≠ bs.length ∨ (as.zip bs).any (fun p => p.1 ≠ p.2) = true)) : as = bs := by
  obtain ⟨hlen,hall⟩ : as.length = bs.length ∧ ∀ p ∈ as.zip bs, p.1 = p.2 := by simpa using h
  calc as = (as.zip bs).map Prod.fst := (map_fst_zip hlen.le).symm
    _ = (as.zip bs).map Prod.snd := map_congr_left hall
    _ = bs := map_snd_zip hlen.ge

theorem b64Decode_eq_ok {s : List Char} {data : List UInt8} :
    b64Decode c s = .ok data ↔ c.decode s = some data := by
  cases h : c.decode s <;> simp [b64Decode,h]

theorem verifyToken_ok (h : s.verifyToken c token now = .ok payload) :
    ∃ header body signature bytes, token = (header ++ '.'::body) ++ '.'::signature ∧
      '.' ∉ header ∧ '.' ∉ body ∧ '.' ∉ signature ∧
      c.decode signature = some (hmacSha256 c s.secret (asBytes (header ++ '.'::body))) ∧
      c.decode body = some bytes ∧ c.payloadFromSlice bytes = some payload ∧ now < payload.exp := by
  unfold verifyToken at h
  split at h
  next header body signature hsplit =>
    have hjoin : ['.'].intercalate (token.splitOn '.') = token := intercalate_splitOn '.'
    have hpart (part : List Char) (hp : part ∈ token.splitOn '.') : '.' ∉ part :=
      Splits.notMem_of_mem_splitOn hp
    rw [hsplit] at hjoin hpart
    obtain ⟨given,hgiven,h⟩ := Fallible.bind_eq_ok.mp h
    split_ifs at h with hcompare
    obtain ⟨bytes,hbytes,h⟩ := Fallible.bind_eq_ok.mp h
    split at h
    · cases h
    next p hp =>
      split_ifs at h with hexp
      obtain rfl : p = payload := by simpa using h
      refine ⟨header,body,signature,bytes,?_,hpart header (by simp),hpart body (by simp),
        hpart signature (by simp),?_,b64Decode_eq_ok.mp hbytes,hp,UInt64.not_le.mp hexp⟩
      · rw [← hjoin]
        simp [intercalate]
      · rw [b64Decode_eq_ok.mp hgiven,eq_of_zip hcompare]
  next => cases h

/-- A token is accepted by the store that signed it until it expires. -/
theorem verifyToken_signToken (hc : c.Lawful) (s : AuthStore) (h : now < payload.exp) :
    s.verifyToken c (s.signToken c payload) now = .ok payload := by
  have hsplit : (s.signToken c payload).splitOn '.' =
      [jwtHeader c,c.encode (c.payloadToVec payload),
      c.encode (hmacSha256 c s.secret (asBytes (signingInput c payload)))] := by
    have hjoin : s.signToken c payload = ['.'].intercalate [jwtHeader c,
        c.encode (c.payloadToVec payload),
        c.encode (hmacSha256 c s.secret (asBytes (signingInput c payload)))] := by
      simp [signToken,signed,signingInput]
    rw [hjoin,splitOn_intercalate '.' _ (by simp)]
    simpa using ⟨hc.dot_notMem_encode _,hc.dot_notMem_encode _,hc.dot_notMem_encode _⟩
  have hsig : b64Decode c (c.encode (hmacSha256 c s.secret (asBytes (signingInput c payload)))) =
      .ok (hmacSha256 c s.secret (asBytes (signingInput c payload))) :=
    b64Decode_eq_ok.mpr (hc.decode_encode _)
  have hbody : b64Decode c (c.encode (c.payloadToVec payload)) = .ok (c.payloadToVec payload) :=
    b64Decode_eq_ok.mpr (hc.decode_encode _)
  have hsame (bytes : List UInt8) : ¬ (bytes.zip bytes).any (fun p => p.1 ≠ p.2) = true := by
    induction bytes with
    | nil => simp
    | cons b bytes ih => simpa using ih
  have hinput : jwtHeader c ++ '.'::c.encode (c.payloadToVec payload) = signingInput c payload :=
    rfl
  have hexp : ¬ payload.exp ≤ now := UInt64.not_le.mpr h
  rw [verifyToken,hsplit]
  simp only [hinput,hsig,hbody,ok_bind,hc.payload_roundTrip,if_neg hexp]
  simpa using hsame _

/-- The token is the issued one, up to the way in which its signature is spelled. -/
def SameToken (c : Codec) (given issued : List Char) : Prop :=
  ∃ message signature signature' tag, given = message ++ '.'::signature ∧
    issued = message ++ '.'::signature' ∧ c.decode signature = some tag ∧
    c.decode signature' = some tag

/-- Nobody but the store can give a keyed hash: a text that the token offers with its hash was
signed under that secret. -/
def Unforgeable (c : Codec) (server : Server) (token : List Char) : Prop :=
  ∀ store message signature, server.store = some store → token = message ++ '.'::signature →
    '.' ∉ signature → c.decode signature = some (hmacSha256 c store.secret (asBytes message)) →
    (store.secret,message) ∈ server.signedTexts

/-- Every signed text belongs to a token that was handed out. -/
def Accounted (c : Codec) (signedTexts : List (List Char × List Char))
    (answers : List (Event × Answer)) :
    Prop :=
  ∀ secret message, (secret,message) ∈ signedTexts → ∃ e username now,
    (e,.token (.ok (signed c secret message))) ∈ answers ∧ e.request = some (username,now) ∧
      message = signingInput c (payloadFor (normalise c username) now)

theorem login_ok (h : s.login c username password now = .ok token) :
    token = s.issueToken c (normalise c username) now := by
  unfold login at h
  dsimp only at h
  split at h
  · cases h
  · split_ifs at h
    simpa using h.symm

theorem register_ok {file : Option (List Char)} {salt : List Char} {createdAt : UInt64}
    {write : WriteOutcome (List Char)}
    (h : (s.register c file username password salt createdAt now write).2.2 = .ok token) :
    token = (s.register c file username password salt createdAt now write).1.issueToken c
      (normalise c username) now := by
  unfold register at h ⊢
  dsimp only at h ⊢
  split_ifs at h ⊢
  generalize persist c _ file write = written at h
  cases hwritten : written.2 with
  | error e => simp [hwritten,Except.map] at h
  | ok _ => simpa [hwritten,Except.map] using h.symm

/-- A step signs nothing, or it answers a request with the token of the text that it signs. -/
theorem step_signs {s : Server} {e : Event} {a : Answer} (h : s.step c e = some (s',a)) :
    s'.signedTexts = s.signedTexts ∨ ∃ username now secret, e.request = some (username,now) ∧
      a = .token (.ok (signed c secret (signingInput c (payloadFor (normalise c username) now)))) ∧
      s'.signedTexts =
        s.signedTexts ++ [(secret,signingInput c (payloadFor (normalise c username) now))] := by
  cases e with
  | restart env dirError readError =>
    left
    simp only [Server.step] at h
    split at h <;> cases h <;> rfl
  | register username password salt createdAt now write =>
    simp only [Server.step,Option.map_eq_some_iff] at h
    obtain ⟨store,-,rfl,rfl⟩ := h
    cases hresult : (store.register c s.file username password salt createdAt now write).2.2 with
    | error e => exact .inl rfl
    | ok token =>
      refine .inr ⟨username,now,_,rfl,?_,rfl⟩
      rw [register_ok hresult]
      rfl
  | login username password now =>
    simp only [Server.step,Option.map_eq_some_iff] at h
    obtain ⟨store,-,rfl,rfl⟩ := h
    cases hresult : store.login c username password now with
    | error e => exact .inl rfl
    | ok token =>
      refine .inr ⟨username,now,store.secret,rfl,?_,rfl⟩
      rw [login_ok hresult]
      rfl

theorem Accounted.run {s : Server} {events : List Event} {before answers : List (Event × Answer)}
    (h : Accounted c s.signedTexts before) (hrun : s.run c events = some (s',answers)) :
    Accounted c s'.signedTexts (before ++ answers) := by
  induction events generalizing s before answers with
  | nil =>
    obtain ⟨rfl,rfl⟩ : s = s' ∧ [] = answers := by simpa [Server.run] using hrun
    simpa using h
  | cons e events ih =>
    obtain ⟨⟨t,a⟩,hstep,hrest⟩ := Option.bind_eq_some_iff.mp hrun
    obtain ⟨⟨u,later⟩,hlater,heq⟩ := Option.bind_eq_some_iff.mp hrest
    obtain ⟨rfl,rfl⟩ : u = s' ∧ (e,a)::later = answers := by simpa using heq
    have hnext : Accounted c t.signedTexts (before ++ [(e,a)]) := by
      intro secret message hmem
      obtain hsame | ⟨username,now,secret',hrequest,ha,hsigned⟩ := step_signs hstep
      · obtain ⟨e',username,now,hin,hrest⟩ := h secret message (hsame ▸ hmem)
        exact ⟨e',username,now,mem_append_left _ hin,hrest⟩
      · rw [hsigned] at hmem
        rcases mem_append.mp hmem with hmem | hmem
        · obtain ⟨e',username,now,hin,hrest⟩ := h secret message hmem
          exact ⟨e',username,now,mem_append_left _ hin,hrest⟩
        · obtain ⟨rfl,rfl⟩ : secret = secret' ∧ message = _ := by simpa using hmem
          exact ⟨e,username,now,by simp [ha],hrequest,rfl⟩
    simpa using ih hnext hlater

/-- Whatever the header says, the user it is accepted for got its token from a registration or login
less than the lifetime of a token ago. -/
theorem bearerUser_sound (hc : c.Lawful) (dataDir : List Char) (file : Option (List Char))
    (events : List Event) (server : Server) (answers : List (Event × Answer)) (store : AuthStore)
    (header token u : List Char) (now : UInt64)
    (hrun : (Server.down dataDir file).run c events = some (server,answers))
    (hstore : server.store = some store) (htoken : bearerToken header = some token)
    (hhmac : Unforgeable c server token)
    (h : store.bearerUser c header now = .ok u) :
    ∃ e issued username i, (e,.token (.ok issued)) ∈ answers ∧ e.request = some (username,i) ∧
      normalise c username = u ∧ now.toNat < i.toNat+tokenTtlSecs.toNat ∧
      SameToken c token issued := by
  have haccounted : Accounted c server.signedTexts answers := by
    have hempty : Accounted c (Server.down dataDir file).signedTexts [] := by
      intro secret message hmem
      cases hmem
    simpa using hempty.run hrun
  rw [bearerUser,htoken] at h
  obtain ⟨payload,hverify,h⟩ := Fallible.bind_eq_ok.mp h
  split_ifs at h with huser
  obtain rfl : payload.sub = u := by simpa using h
  obtain ⟨hd,body,signature,bytes,rfl,hhd,hbody,hsig,hdecode,hbytes,hpayload,hexp⟩ :=
    verifyToken_ok hverify
  have hsigned := hhmac store (hd ++ '.'::body) signature hstore rfl hsig hdecode
  obtain ⟨e,username,i,hanswer,hrequest,hmessage⟩ := haccounted _ _ hsigned
  -- the part before the only dot of the signed text is the header, so the payload is the issued one
  obtain ⟨-,rfl⟩ := Splits.first_unique hmessage hhd (hc.dot_notMem_encode _)
  obtain rfl : c.payloadToVec (payloadFor (normalise c username) i) = bytes := by
    simpa [hc.decode_encode] using hbytes
  obtain rfl : payloadFor (normalise c username) i = payload := by
    simpa [hc.payload_roundTrip] using hpayload
  refine ⟨e,_,username,i,hanswer,hrequest,rfl,?_,?_⟩
  · have hlt : now.toNat < (i+tokenTtlSecs).toNat := UInt64.lt_iff_toNat_lt.mp hexp
    exact hlt.trans_le (Nat.mod_le _ _)
  · exact ⟨_,signature,_,_,rfl,rfl,hdecode,hc.decode_encode _⟩

end

/-! ### A first session -/

def payloadJson (p : TokenPayload) : List UInt8 :=
  Utf8.bytes "\x7b\"sub\":" ++ (JsonText.quote p.sub ++ (Utf8.bytes ",\"exp\":" ++
    (JsonText.number p.exp 0x2c ++ (Utf8.bytes "\"iat\":" ++ JsonText.number p.iat 0x7d))))

def tokenPayload : Decoder TokenPayload := do
  JsonText.literal "\x7b\"sub\":"
  let sub ← JsonText.string
  JsonText.literal ",\"exp\":"
  let exp ← JsonText.numberThen 0x2c
  JsonText.literal "\"iat\":"
  let iat ← JsonText.numberThen 0x7d
  return { sub, exp, iat }

theorem decodes_tokenPayload (p : TokenPayload) : Decodes tokenPayload (payloadJson p) p :=
  (JsonText.decodes_literal _).bind <| (JsonText.decodes_string _).bind <|
  (JsonText.decodes_literal _).bind <| (JsonText.decodes_number p.exp (by decide)).bind <|
  (JsonText.decodes_literal _).bind <|
  (JsonText.decodes_number p.iat (by decide)).finish (.pure p)

/-- A user as a field of the users file. -/
def UserRecord.json (r : UserRecord) : List UInt8 :=
  Utf8.bytes "  " ++ JsonText.quote r.username ++
  Utf8.bytes ": \x7b\n    \"username\": " ++ JsonText.quote r.username ++
  Utf8.bytes ",\n    \"salt\": " ++ JsonText.quote r.salt ++
  Utf8.bytes ",\n    \"password_hash\": \"" ++ r.passwordHash ++
  Utf8.bytes "\",\n    \"created_at\": " ++ JsonText.number r.createdAt 0x0a ++
  Utf8.bytes "  \x7d"

/-- The users file, the users in the order of their names. -/
def usersJson (users : Users) : List Char :=
  let fields := (JsonText.inOrder users.keys).filterMap fun k =>
    (users.lookup k).map UserRecord.json
  let text := Utf8.bytes "\x7b\n" ++ (Utf8.bytes ",\n").intercalate fields ++ Utf8.bytes "\n\x7d"
  ((String.fromUTF8? text.toByteArray).getD "").toList

/-- SHA-256, base64url and JSON; of the case mapping the part for ASCII. -/
def bridgeCodec : Codec where
  sha256 := Sha256.sha256
  toLowercase := map Char.toLower
  debugPath path := "\"" ++ String.ofList path ++ "\""
  encode := Base64.encode
  decode := Base64.decode
  payloadToVec := payloadJson
  payloadFromSlice bytes := (tokenPayload bytes).bind fun r => if r.2 = [] then some r.1 else none
  usersToJson users := .ok (usersJson users)
  usersFromJson _ := none

theorem bridgeCodec_lawful : bridgeCodec.Lawful where
  decode_encode := Base64.decode_encode
  dot_notMem_encode := Base64.dot_notMem_encode
  payload_roundTrip p := by
    have hread := decodes_tokenPayload p []
    rw [append_nil] at hread
    show (tokenPayload (payloadJson p)).bind _ = _
    rw [hread]
    rfl

/-- Alice registers on a fresh server, and her token is accepted a second later. -/
theorem bearerUser_sound_alice : ∃ server answers store token,
    (Server.down ['d'] none).run bridgeCodec [.restart none none none,
        .register "Alice".toList "secret123".toList ['s'] 1 1 .done] = some (server,answers) ∧
      server.store = some store ∧ bearerToken ("Bearer ".toList ++ token) = some token ∧
      Unforgeable bridgeCodec server token ∧
      store.bearerUser bridgeCodec ("Bearer ".toList ++ token) 2 = .ok "alice".toList ∧
      ∃ e issued username i, (e,.token (.ok issued)) ∈ answers ∧
        e.request = some (username,i) ∧ normalise bridgeCodec username = "alice".toList ∧
        (2 : UInt64).toNat < i.toNat+tokenTtlSecs.toNat ∧ SameToken bridgeCodec token issued := by
  let store : AuthStore :=
    { users := ∅, secret := "aios-bridge-d".toList, path := "d/users.json".toList }
  let record : UserRecord :=
    { username := "alice".toList, salt := ['s'], createdAt := 1
      passwordHash := stretchHash bridgeCodec ['s'] "secret123".toList }
  let store' := { store with users := store.users.insert "alice".toList record }
  let token := store'.issueToken bridgeCodec "alice".toList 1
  let server : Server := ⟨['d'],some (usersJson store'.users),some store',
    [(store'.secret,signingInput bridgeCodec (payloadFor "alice".toList 1))]⟩
  let event : Event := .register "Alice".toList "secret123".toList ['s'] 1 1 .done
  have hrun : (Server.down ['d'] none).run bridgeCodec [.restart none none none,event] =
      some (server,[(.restart none none none,.restarted (.ok ())),(event,.token (.ok token))]) := by
    rfl
  have htoken : bearerToken ("Bearer ".toList ++ token) = some token := by decide +kernel
  have hhmac : Unforgeable bridgeCodec server token := by
    intro s message signature hs hsplit hdot _
    obtain rfl : store' = s := by simpa [server] using hs
    -- the signature has no dot, so the message is what stands before the last dot of the token
    have hrev := congrArg reverse hsplit
    simp only [token,issueToken,signToken,signed,reverse_append,reverse_cons,
      append_assoc,singleton_append] at hrev
    have hlast : '.' ∉ (bridgeCodec.encode (hmacSha256 bridgeCodec store'.secret
        (asBytes (signingInput bridgeCodec (payloadFor "alice".toList 1))))).reverse := by
      simpa using bridgeCodec_lawful.dot_notMem_encode _
    obtain ⟨-,hmessage⟩ := Splits.first_unique hrev hlast (by simpa using hdot)
    rw [← reverse_injective hmessage]
    exact mem_singleton_self _
  have huser : store'.bearerUser bridgeCodec ("Bearer ".toList ++ token) 2 =
      .ok "alice".toList := by
    have hverify : store'.verifyToken bridgeCodec token 2 = .ok (payloadFor "alice".toList 1) :=
      verifyToken_signToken bridgeCodec_lawful store' (by decide)
    have hknown : (store'.users.lookup "alice".toList).isSome = true := by simp [store']
    rw [bearerUser,htoken]
    dsimp only
    rw [hverify,ok_bind]
    exact if_pos hknown
  exact ⟨server,_,store',token,hrun,rfl,htoken,hhmac,huser,
    bearerUser_sound bridgeCodec_lawful ['d'] none _ server _ store' _ token _ 2 hrun rfl htoken
      hhmac huser⟩

end Aios.Bridge
