import Mathlib.Data.List.Basic

/-!
The hash function SHA-256 on bytes.
-/
namespace Sha256

def roundConstants : List UInt32 :=
  [0x428a2f98,0x71374491,0xb5c0fbcf,0xe9b5dba5,0x3956c25b,0x59f111f1,0x923f82a4,0xab1c5ed5,
   0xd807aa98,0x12835b01,0x243185be,0x550c7dc3,0x72be5d74,0x80deb1fe,0x9bdc06a7,0xc19bf174,
   0xe49b69c1,0xefbe4786,0x0fc19dc6,0x240ca1cc,0x2de92c6f,0x4a7484aa,0x5cb0a9dc,0x76f988da,
   0x983e5152,0xa831c66d,0xb00327c8,0xbf597fc7,0xc6e00bf3,0xd5a79147,0x06ca6351,0x14292967,
   0x27b70a85,0x2e1b2138,0x4d2c6dfc,0x53380d13,0x650a7354,0x766a0abb,0x81c2c92e,0x92722c85,
   0xa2bfe8a1,0xa81a664b,0xc24b8b70,0xc76c51a3,0xd192e819,0xd6990624,0xf40e3585,0x106aa070,
   0x19a4c116,0x1e376c08,0x2748774c,0x34b0bcb5,0x391c0cb3,0x4ed8aa4a,0x5b9cca4f,0x682e6ff3,
   0x748f82ee,0x78a5636f,0x84c87814,0x8cc70208,0x90befffa,0xa4506ceb,0xbef9a3f7,0xc67178f2]

def rotateRight (x n : UInt32) : UInt32 := x >>> n ||| x <<< (32-n)

/-- The eight words of the state. -/
structure State where
  a : UInt32
  b : UInt32
  c : UInt32
  d : UInt32
  e : UInt32
  f : UInt32
  g : UInt32
  h : UInt32

def State.init : State :=
  ⟨0x6a09e667,0xbb67ae85,0x3c6ef372,0xa54ff53a,
   0x510e527f,0x9b05688c,0x1f83d9ab,0x5be0cd19⟩

def State.round (s : State) (k w : UInt32) : State :=
  let t := s.h+(rotateRight s.e 6 ^^^ rotateRight s.e 11 ^^^ rotateRight s.e 25)+
    (s.e &&& s.f ^^^ ~~~s.e &&& s.g)+k+w
  let u := (rotateRight s.a 2 ^^^ rotateRight s.a 13 ^^^ rotateRight s.a 22)+
    (s.a &&& s.b ^^^ s.a &&& s.c ^^^ s.b &&& s.c)
  ⟨t+u,s.a,s.b,s.c,s.d+t,s.e,s.f,s.g⟩

def State.add (s t : State) : State :=
  ⟨s.a+t.a,s.b+t.b,s.c+t.c,s.d+t.d,s.e+t.e,s.f+t.f,s.g+t.g,s.h+t.h⟩

/-- The rounds; of the message schedule the sixteen words that come next are kept. -/
def rounds : List UInt32 → List UInt32 → State → State
  | k::ks, w::ws, s =>
    let small x p q n := rotateRight x p ^^^ rotateRight x q ^^^ x >>> n
    let next := w+small (ws.getD 0 0) 7 18 3+ws.getD 8 0+small (ws.getD 13 0) 17 19 10
    rounds ks (ws ++ [next]) (s.round k w)
  | _, _, s => s

def word (bytes : List UInt8) : UInt32 := bytes.foldl (fun w b => w <<< 8 ||| b.toUInt32) 0

def words : ℕ → List UInt8 → List UInt32
  | 0, _ => []
  | n+1, bytes => word (bytes.take 4)::words n (bytes.drop 4)

def blocks : ℕ → List UInt8 → State → State
  | 0, _, s => s
  | n+1, bytes, s =>
    blocks n (bytes.drop 64) (s.add (rounds roundConstants (words 16 (bytes.take 64)) s))

def bigEndian (n : ℕ) (x : ℕ) : List UInt8 :=
  (List.range n).reverse.map fun i => UInt8.ofNat (x >>> (8*i))

def padded (msg : List UInt8) : List UInt8 :=
  msg ++ 0x80::List.replicate ((119-msg.length%64)%64) 0 ++ bigEndian 8 (8*msg.length)

def State.digest (s : State) : List UInt8 :=
  [s.a,s.b,s.c,s.d,s.e,s.f,s.g,s.h].flatMap fun w => bigEndian 4 w.toNat

theorem State.length_digest (s : State) : s.digest.length = 32 := rfl

def sha256 (msg : List UInt8) : { bytes : List UInt8 // bytes.length = 32 } :=
  let bytes := padded msg
  ⟨(blocks (bytes.length/64) bytes .init).digest,State.length_digest _⟩

end Sha256
