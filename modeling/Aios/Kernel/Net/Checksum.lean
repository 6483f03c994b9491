import Aios.Kernel.Sock.Socket

/-!
The Internet checksum. The code adds the words of the text up in 32 bits and folds the carries in at
the end; the sum it is checked by carries after every addition.
-/
namespace Aios.Kernel.Net

open List Sock

/-- An addition of 32 bits; it panics on overflow. -/
def addU32 (a b : ℕ) : Option ℕ := if a+b < 2^32 then some (a+b) else none

/-- The 16-bit words of a text in network order. The last byte of an odd text is padded. -/
def words : List UInt8 → List ℕ
  | a::b::rest => (256*a.toNat+b.toNat)::words rest
  | [a] => [256*a.toNat]
  | [] => []

def csumAdd (acc : ℕ) (bytes : List UInt8) : Option ℕ := (words bytes).foldlM addU32 acc

/-- The loop of `csum_finish`. -/
def foldCarries (acc : ℕ) : ℕ :=
  if acc/2^16 ≠ 0 then foldCarries (acc%2^16+acc/2^16) else acc
termination_by acc

def csumFinish (acc : ℕ) : ℕ := 0xFFFF-foldCarries acc

def octets (ip : Ip) : List UInt8 := [ip.a,ip.b,ip.c,ip.d]

def l4Checksum (src dst : Ip) (proto : UInt8) (data : List UInt8) : Option ℕ := do
  let sum ← csumAdd 0 (octets src)
  let sum ← csumAdd sum (octets dst)
  let kind ← addU32 proto.toNat (data.length%2^32)
  let sum ← addU32 sum kind
  let sum ← csumAdd sum data
  return csumFinish sum

/-- Addition in ones' complement: a carry comes back at the other end. -/
def onesAdd (a b : ℕ) : ℕ := if 2^16 ≤ a+b then a+b-0xFFFF else a+b

def onesSum (ws : List ℕ) : ℕ := ws.foldl onesAdd 0

def pseudoHeader (src dst : Ip) (proto : UInt8) (length : ℕ) : List ℕ :=
  words (octets src) ++ words (octets dst) ++ [proto.toNat,length]

/-- A sum folded to 16 bits. It is zero only if the sum is. -/
structure Folded (sum r : ℕ) : Prop where
  le : r ≤ 0xFFFF
  mod : r%0xFFFF = sum%0xFFFF
  zero : r = 0 ↔ sum = 0

theorem folded_foldCarries (acc : ℕ) : Folded acc (foldCarries acc) := by
  induction acc using Nat.strong_induction_on with
  | _ acc ih =>
    unfold foldCarries
    split
    next hcarry =>
      obtain ⟨hle,hmod,hzero⟩ := ih (acc%2^16+acc/2^16) (by omega)
      exact ⟨hle,by omega,by omega⟩
    next => exact ⟨by omega,rfl,Iff.rfl⟩

theorem folded_onesAdd {sum r w : ℕ} (h : Folded sum r) (hw : w ≤ 0xFFFF) :
    Folded (sum+w) (onesAdd r w) := by
  obtain ⟨hle,hmod,hzero⟩ := h
  unfold onesAdd
  split <;> exact ⟨by omega,by omega,by omega⟩

theorem folded_foldl {sum r : ℕ} (h : Folded sum r) (ws : List ℕ) (hws : ∀ w ∈ ws, w ≤ 0xFFFF) :
    Folded (sum+ws.sum) (ws.foldl onesAdd r) := by
  induction ws generalizing sum r with
  | nil => exact h
  | cons w ws ih =>
    rw [forall_mem_cons] at hws
    rw [sum_cons,← Nat.add_assoc]
    exact ih (folded_onesAdd h hws.1) hws.2

theorem words_spec (bytes : List UInt8) :
    (∀ w ∈ words bytes, w ≤ 0xFFFF) ∧ (words bytes).sum ≤ 0x8000*(bytes.length+1) := by
  fun_induction words bytes with
  | case1 a b rest ih =>
    have ha := a.toNat_lt
    have hb := b.toNat_lt
    simp only [forall_mem_cons,sum_cons,length_cons]
    exact ⟨⟨by omega,ih.1⟩,by omega⟩
  | case2 a =>
    have ha := a.toNat_lt
    simp only [forall_mem_singleton,sum_cons,sum_nil,length_singleton]
    omega
  | case3 => simp

theorem words_append {before : List UInt8} (h : before.length%2 = 0) (after : List UInt8) :
    words (before ++ after) = words before ++ words after := by
  fun_induction words before with
  | case1 a b rest ih =>
    rw [length_cons,length_cons] at h
    simp [words,ih (by omega)]
  | case2 a => simp at h
  | case3 => rfl

theorem csumAdd_eq {acc : ℕ} {bytes : List UInt8} (h : acc+(words bytes).sum < 2^32) :
    csumAdd acc bytes = some (acc+(words bytes).sum) := by
  unfold csumAdd
  generalize words bytes = ws at h
  induction ws generalizing acc with
  | nil => rfl
  | cons w ws ih =>
    rw [sum_cons] at h
    rw [foldlM_cons,addU32,if_pos (by omega)]
    exact (ih (by omega)).trans (by rw [sum_cons,Nat.add_assoc])

section
variable (src dst : Ip) (proto : UInt8)

theorem l4Checksum_eq {data : List UInt8} (h : data.length < 2^16) : l4Checksum src dst proto data =
      some (csumFinish (pseudoHeader src dst proto data.length ++ words data).sum) := by
  have hsrc := (words_spec (octets src)).2
  have hdst := (words_spec (octets dst)).2
  have hdata := (words_spec data).2
  have hproto := proto.toNat_lt
  simp only [octets,length_cons,length_nil] at hsrc hdst
  unfold l4Checksum pseudoHeader
  simp only [octets,Option.bind_eq_bind]
  rw [csumAdd_eq (by omega),Option.bind_some,csumAdd_eq (by omega),Option.bind_some,addU32,
    if_pos (by omega),Option.bind_some,addU32,if_pos (by omega),Option.bind_some,
    csumAdd_eq (by omega),Option.bind_some]
  simp only [sum_append,sum_cons,sum_nil,Nat.mod_eq_of_lt (show data.length < 2^32 by omega)]
  congr 2
  omega

theorem pseudoHeader_le {n : ℕ} (hn : n ≤ 0xFFFF) :
    ∀ w ∈ pseudoHeader src dst proto n, w ≤ 0xFFFF := by
  have hproto := proto.toNat_lt
  simp only [pseudoHeader,forall_mem_append,forall_mem_cons]
  exact ⟨⟨(words_spec _).1,(words_spec _).1⟩,by omega,hn,by simp⟩

/-- The checksum is what the sum lacks to `0xFFFF`. -/
theorem l4Checksum_verifies (before after : List UInt8) (heven : before.length%2 = 0)
    (hlength : (before ++ 0::0::after).length < 2^16) :
    ∃ c, l4Checksum src dst proto (before ++ 0::0::after) = some c ∧ c < 2^16 ∧
      onesSum (pseudoHeader src dst proto (before ++ 0::0::after).length ++
        words (before ++ UInt8.ofNat (c/256)::UInt8.ofNat (c%256)::after)) = 0xFFFF := by
  have hheader := pseudoHeader_le src dst proto (Nat.le_of_lt_succ hlength)
  refine ⟨_,l4Checksum_eq src dst proto hlength,?_⟩
  generalize pseudoHeader src dst proto _ = header at hheader
  rw [words_append heven,words_append heven]
  simp only [words,csumFinish,sum_append,sum_cons]
  generalize hsum : header.sum+((words before).sum+_) = sum
  obtain ⟨hle,hmod,hzero⟩ := folded_foldCarries sum
  generalize hc : 0xFFFF-foldCarries sum = c
  have hhigh : (UInt8.ofNat (c/256)).toNat = c/256 := by rw [UInt8.toNat_ofNat']; omega
  have hlow : (UInt8.ofNat (c%256)).toNat = c%256 := by rw [UInt8.toNat_ofNat']; omega
  refine ⟨by omega,?_⟩
  have hwords : ∀ w ∈ header ++ (words before ++
      (256*(UInt8.ofNat (c/256)).toNat+(UInt8.ofNat (c%256)).toNat)::words after), w ≤ 0xFFFF := by
    simp only [forall_mem_append,forall_mem_cons]
    exact ⟨hheader,(words_spec _).1,by omega,(words_spec _).1⟩
  have hnone : Folded 0 0 := ⟨by decide,rfl,Iff.rfl⟩
  obtain ⟨hle',hmod',hzero'⟩ := folded_foldl hnone _ hwords
  simp only [sum_append,sum_cons,hhigh,hlow] at hmod' hzero' hle' ⊢
  simp only [UInt8.toNat_zero] at hsum
  unfold onesSum
  omega

end

/-- A UDP datagram of eleven bytes. -/
theorem odd_datagram_verifies :
    let src := ⟨10,0,2,15⟩
    let dst := ⟨10,0,2,2⟩
    let ports := [0x00,0x44,0x00,0x43,0x00,0x0b]
    let data := [0x61,0x62,0x63]
    ∃ c, l4Checksum src dst 17 (ports ++ 0::0::data) = some c ∧ c < 2^16 ∧
      onesSum (pseudoHeader src dst 17 11 ++
        words (ports ++ UInt8.ofNat (c/256)::UInt8.ofNat (c%256)::data)) = 0xFFFF :=
  l4Checksum_verifies ⟨10,0,2,15⟩ ⟨10,0,2,2⟩ 17 [0x00,0x44,0x00,0x43,0x00,0x0b] [0x61,0x62,0x63]
    (by decide) (by decide)

end Aios.Kernel.Net
