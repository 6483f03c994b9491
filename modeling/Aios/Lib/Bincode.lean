import Aios.Lib.Utf8
import Mathlib.Tactic.Ring

/-!
A binary encoding with little-endian integers of fixed width, lengths in front of sequences and
numbers in front of variants. What a decoder accepts is stated in front of any rest, so that
encodings compose.
-/
namespace Bincode

open List Option

abbrev Decoder (α : Type) := StateT (List UInt8) Option α

/-- Values that fit into memory: a length is below `isize::MAX + 1`. -/
def maxLen : ℕ := 2^63

abbrev Vec (α : Type) := { as : List α // as.length < maxLen }

abbrev Text := { s : String // s.toUTF8.data.toList.length < maxLen }

variable {rest : List UInt8} {w n : ℕ}

section
variable {α β : Type} {d : Decoder α} {f : α → Decoder β} {bytes more : List UInt8} {a : α} {b : β}

/-- The decoder reads exactly `bytes`, whatever follows them. -/
def Decodes (d : Decoder α) (bytes : List UInt8) (a : α) : Prop :=
  ∀ rest, d (bytes ++ rest) = some (a,rest)

/-- The decoder fails on everything that starts with `bytes`. -/
def Rejects (d : Decoder α) (bytes : List UInt8) : Prop := ∀ rest, d (bytes ++ rest) = none

theorem Decodes.pure (a : α) : Decodes (Pure.pure a) [] a := fun _ => rfl

section
variable (h : Decodes d bytes a)
include h

theorem Decodes.bind (k : Decodes (f a) more b) : Decodes (d >>= f) (bytes ++ more) b := by
  intro rest
  show (d (bytes ++ more ++ rest)).bind (fun r => f r.1 r.2) = _
  rw [append_assoc,h (more ++ rest),bind_some,k rest]

theorem Decodes.finish (k : Decodes (f a) [] b) : Decodes (d >>= f) bytes b := by
  have hboth := h.bind k
  rwa [append_nil] at hboth

/-- What is read from the front of some bytes is told apart from what is read from others. -/
theorem Decodes.unique {a' : α} {rest' : List UInt8} (k : Decodes d more a')
    (heq : bytes ++ rest = more ++ rest') : a = a' ∧ rest = rest' := by
  have hread := h rest
  rw [heq,k rest'] at hread
  cases hread
  exact ⟨rfl,rfl⟩

theorem Decodes.map (g : α → β) : Decodes (g <$> d) bytes (g a) := by
  intro rest
  show (d (bytes ++ rest)).bind (fun r => some (g r.1,r.2)) = _
  rw [h rest,bind_some]

theorem Rejects.bind (k : Rejects (f a) more) : Rejects (d >>= f) (bytes ++ more) := by
  intro rest
  show (d (bytes ++ more ++ rest)).bind (fun r => f r.1 r.2) = _
  rw [append_assoc,h (more ++ rest),bind_some,k rest]

end

theorem Rejects.bind_left (h : Rejects d bytes) (f : α → Decoder β) : Rejects (d >>= f) bytes := by
  intro rest
  show (d (bytes ++ rest)).bind (fun r => f r.1 r.2) = _
  rw [h rest,bind_none]

/-- The alternative is tried from where the first reader began. -/
theorem Decodes.orElse_left {e : Decoder α} (h : Decodes d bytes a) :
    Decodes (d <|> e) bytes a := by
  intro rest
  show (d (bytes ++ rest) <|> e (bytes ++ rest)) = _
  rw [h rest]
  rfl

theorem Decodes.orElse_right {e : Decoder α} (h : Rejects d bytes) (k : Decodes e bytes a) :
    Decodes (d <|> e) bytes a := by
  intro rest
  show (d (bytes ++ rest) <|> e (bytes ++ rest)) = _
  rw [h rest,k rest]
  rfl

/-- What the decoder leaves is the end of what it was given. -/
def LeavesSuffix (d : Decoder α) : Prop := ∀ bytes a rest, d bytes = some (a,rest) → rest <:+ bytes

theorem LeavesSuffix.bind (h : LeavesSuffix d) (k : ∀ a, LeavesSuffix (f a)) :
    LeavesSuffix (d >>= f) := by
  intro bytes b rest hread
  obtain ⟨⟨a,more⟩,ha,hb⟩ := bind_eq_some_iff.mp hread
  exact (k a _ _ _ hb).trans (h _ _ _ ha)

theorem LeavesSuffix.map (h : LeavesSuffix d) (g : α → β) : LeavesSuffix (g <$> d) := by
  intro bytes b rest hread
  obtain ⟨⟨a,more⟩,ha,hb⟩ := bind_eq_some_iff.mp hread
  cases hb
  exact h _ _ _ ha

theorem LeavesSuffix.pure (a : α) : LeavesSuffix (Pure.pure a : Decoder α) := by
  intro bytes b rest hread
  cases hread
  exact suffix_rfl

theorem LeavesSuffix.failure : LeavesSuffix (failure : Decoder α) := by
  intro bytes b rest hread
  cases hread

end

section

def leBytes : ℕ → ℕ → List UInt8
  | 0, _ => []
  | w+1, n => UInt8.ofNat n::leBytes w (n/256)

def leValue : List UInt8 → ℕ
  | [] => 0
  | b::bs => b.toNat+256*leValue bs

@[simp] theorem length_leBytes (w n : ℕ) : (leBytes w n).length = w := by
  induction w generalizing n with
  | zero => rfl
  | succ w ih => rw [leBytes,length_cons,ih]

theorem leValue_leBytes (h : n < 256^w) : leValue (leBytes w n) = n := by
  induction w generalizing n with
  | zero =>
    show 0 = n
    omega
  | succ w ih =>
    have hdiv : n/256 < 256^w := by omega
    have hlow : (UInt8.ofNat n).toNat = n%256 := UInt8.toNat_ofNat
    rw [leBytes,leValue,ih hdiv,hlow]
    omega

def takeExact (n : ℕ) : Decoder (List UInt8) := fun bytes =>
  if n ≤ bytes.length then some (bytes.take n,bytes.drop n) else none

def fixed (w : ℕ) : Decoder ℕ := leValue <$> takeExact w

def u8 : Decoder UInt8 := UInt8.ofNat <$> fixed 1
def u16 : Decoder UInt16 := UInt16.ofNat <$> fixed 2
def u32 : Decoder UInt32 := UInt32.ofNat <$> fixed 4
def u64 : Decoder UInt64 := UInt64.ofNat <$> fixed 8

def encodeU8 (x : UInt8) : List UInt8 := leBytes 1 x.toNat
def encodeU16 (x : UInt16) : List UInt8 := leBytes 2 x.toNat
def encodeU32 (x : UInt32) : List UInt8 := leBytes 4 x.toNat
def encodeU64 (x : UInt64) : List UInt8 := leBytes 8 x.toNat

variable {bytes : List UInt8}

theorem takeExact_decodes (h : bytes.length = n) : Decodes (takeExact n) bytes bytes := by
  intro rest
  have hle : n ≤ (bytes ++ rest).length := by
    rw [length_append]
    omega
  rw [takeExact,if_pos hle,take_left' h,drop_left' h]

theorem fixed_decodes (h : n < 256^w) : Decodes (fixed w) (leBytes w n) n := by
  have hread := (takeExact_decodes (length_leBytes w n)).map leValue
  rwa [leValue_leBytes h] at hread

theorem u8_decodes (x : UInt8) : Decodes u8 (encodeU8 x) x := by
  have h := (fixed_decodes (w := 1) x.toNat_lt).map UInt8.ofNat
  rwa [UInt8.ofNat_toNat] at h

theorem u16_decodes (x : UInt16) : Decodes u16 (encodeU16 x) x := by
  have h := (fixed_decodes (w := 2) x.toNat_lt).map UInt16.ofNat
  rwa [UInt16.ofNat_toNat] at h

theorem u32_decodes (x : UInt32) : Decodes u32 (encodeU32 x) x := by
  have h := (fixed_decodes (w := 4) x.toNat_lt).map UInt32.ofNat
  rwa [UInt32.ofNat_toNat] at h

theorem u64_decodes (x : UInt64) : Decodes u64 (encodeU64 x) x := by
  have h := (fixed_decodes (w := 8) x.toNat_lt).map UInt64.ofNat
  rwa [UInt64.ofNat_toNat] at h

theorem takeExact_leavesSuffix : LeavesSuffix (takeExact n) := by
  intro bytes a rest hread
  unfold takeExact at hread
  split at hread
  · cases hread
    exact drop_suffix n bytes
  · cases hread

theorem fixed_leavesSuffix : LeavesSuffix (fixed w) :=
  takeExact_leavesSuffix.map leValue

theorem u64_leavesSuffix : LeavesSuffix u64 := fixed_leavesSuffix.map UInt64.ofNat

theorem u8_eq_some {x : UInt8} (h : u8 bytes = some (x,rest)) : bytes = x::rest := by
  obtain ⟨⟨n,more⟩,hn,hx⟩ := bind_eq_some_iff.mp h
  obtain ⟨⟨taken,more'⟩,htaken,hvalue⟩ := bind_eq_some_iff.mp hn
  cases hx
  cases hvalue
  unfold takeExact at htaken
  split at htaken
  · cases htaken
    obtain _ | ⟨b,bytes⟩ := bytes
    · simp at *
    · simp [leValue]
  · cases htaken

end

section
variable {α : Type} (enc : α → List UInt8) (d : Decoder α)

def times : ℕ → Decoder (List α)
  | 0 => Pure.pure []
  | n+1 => do
    let a ← d
    let as ← times n
    return a::as

def encodeSeq (as : List α) : List UInt8 := leBytes 8 as.length ++ as.flatMap enc

def encodeVec (as : Vec α) : List UInt8 := encodeSeq enc as.1

def vec : Decoder (Vec α) := do
  let n ← fixed 8
  let as ← times d n
  if h : as.length < maxLen then return ⟨as,h⟩ else failure

def encodeText (s : Text) : List UInt8 := encodeSeq (fun b => [b]) s.1.toUTF8.data.toList

/-- A length and as many bytes of UTF-8. -/
def str : Decoder Text := do
  let n ← fixed 8
  let bytes ← takeExact n
  match String.fromUTF8? bytes.toByteArray with
  | some s => if h : s.toUTF8.data.toList.length < maxLen then return ⟨s,h⟩ else failure
  | none => failure

def encodeOption : Option α → List UInt8
  | none => [0]
  | some a => 1::enc a

def option : Decoder (Option α) := do
  match ← u8 with
  | 0 => return none
  | 1 => some <$> d
  | _ => failure

variable {enc d}

theorem times_decodes (as : List α) (h : ∀ a ∈ as, Decodes d (enc a) a) :
    Decodes (times d as.length) (as.flatMap enc) as := by
  induction as with
  | nil => exact Decodes.pure []
  | cons a as ih =>
    have hfirst := h a mem_cons_self
    have hrest := ih fun b hb => h b (mem_cons_of_mem a hb)
    exact hfirst.bind (hrest.finish (Decodes.pure (a::as)))

theorem length_lt_fixed (h : n < maxLen) : n < 256^8 := h.trans (by decide)

theorem vec_decodes (h : ∀ a, Decodes d (enc a) a) (as : Vec α) :
    Decodes (vec d) (encodeVec enc as) as := by
  refine (fixed_decodes (length_lt_fixed as.2)).bind ?_
  refine (times_decodes as.1 fun a _ => h a).finish ?_
  rw [dif_pos as.2]
  exact Decodes.pure as

theorem str_decodes (s : Text) : Decodes str (encodeText s) s := by
  have hflat : s.1.toUTF8.data.toList.flatMap (fun b => [b]) = s.1.toUTF8.data.toList := by simp
  unfold encodeText encodeSeq
  rw [hflat]
  refine (fixed_decodes (length_lt_fixed s.2)).bind ?_
  refine (takeExact_decodes rfl).finish ?_
  rw [Utf8.fromUTF8?_bytes]
  dsimp only
  rw [dif_pos s.2]
  exact Decodes.pure s

theorem option_decodes (h : ∀ a, Decodes d (enc a) a) (o : Option α) :
    Decodes (option d) (encodeOption enc o) o := by
  cases o with
  | none => exact (u8_decodes 0).finish (Decodes.pure none)
  | some a => exact (u8_decodes 1).bind ((h a).map some)

theorem str_leavesSuffix : LeavesSuffix str := by
  refine fixed_leavesSuffix.bind fun n => takeExact_leavesSuffix.bind fun bytes => ?_
  split
  · split
    · exact LeavesSuffix.pure _
    · exact LeavesSuffix.failure
  · exact LeavesSuffix.failure

theorem option_eq_some {bytes : List UInt8} {o : Option α} (h : option d bytes = some (o,rest)) :
    ∃ b ∈ bytes, b = 0 ∨ b = 1 := by
  obtain ⟨⟨tag,more⟩,htag,ho⟩ := bind_eq_some_iff.mp h
  have hmem : tag ∈ bytes := by simp [u8_eq_some htag]
  refine ⟨tag,hmem,?_⟩
  dsimp only at ho
  split at ho
  · exact .inl rfl
  · exact .inr rfl
  · cases ho

end
end Bincode
