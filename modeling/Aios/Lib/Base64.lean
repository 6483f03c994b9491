import Mathlib.Data.List.Basic

/-!
Base64 over the alphabet for URLs, without padding.
-/
namespace Base64

open List

def alphabet : List Char :=
  "ABCDEFGHIJKLMNOPQRSTUVWXYZabcdefghijklmnopqrstuvwxyz0123456789-_".toList

def digit (n : ℕ) : Char := alphabet.getD (n%64) 'A'

def value (c : Char) : Option ℕ := alphabet.findIdx? (· = c)

theorem value_digit (n : ℕ) : value (digit n) = some (n%64) := by
  have hall : ∀ n < 64, value (alphabet.getD n 'A') = some n := by decide +kernel
  exact hall (n%64) (Nat.mod_lt n (by decide))

theorem digit_ne_dot (n : ℕ) : digit n ≠ '.' := by
  have hall : ∀ n < 64, alphabet.getD n 'A' ≠ '.' := by decide +kernel
  exact hall (n%64) (Nat.mod_lt n (by decide))

/-- Three bytes as four digits; of a rest, as many digits as its bits take. -/
def encode : List UInt8 → List Char
  | a::b::c::rest =>
    let n := (a.toNat*256+b.toNat)*256+c.toNat
    digit (n/64/64/64)::digit (n/64/64)::digit (n/64)::digit n::encode rest
  | [a,b] =>
    let n := (a.toNat*256+b.toNat)*4
    [digit (n/64/64),digit (n/64),digit n]
  | [a] => [digit (a.toNat*16/64),digit (a.toNat*16)]
  | [] => []

/-- The bits left over at the end have to be zero. -/
def decode : List Char → Option (List UInt8)
  | w::x::y::z::rest => do
    let n := (((← value w)*64+(← value x))*64+(← value y))*64+(← value z)
    let bytes ← decode rest
    return UInt8.ofNat (n/256/256)::UInt8.ofNat (n/256)::UInt8.ofNat n::bytes
  | [w,x,y] => do
    let n := ((← value w)*64+(← value x))*64+(← value y)
    if n%4 = 0 then return [UInt8.ofNat (n/4/256),UInt8.ofNat (n/4)] else none
  | [w,x] => do
    let n := (← value w)*64+(← value x)
    if n%16 = 0 then return [UInt8.ofNat (n/16)] else none
  | [_] => none
  | [] => some []

theorem decode_encode (data : List UInt8) : decode (encode data) = some data := by
  have hbyte (a : UInt8) {m : ℕ} (h : m%256 = a.toNat) : UInt8.ofNat m = a := by
    apply UInt8.toNat_inj.mp
    rw [UInt8.toNat_ofNat',h]
  fun_induction encode data with
  | case1 a b c rest n ih =>
    have ha := a.toNat_lt
    have hb := b.toNat_lt
    have hc := c.toNat_lt
    have hn : ((n/64/64/64%64*64+n/64/64%64)*64+n/64%64)*64+n%64 = n := by omega
    simp only [decode,value_digit,Option.bind_eq_bind,Option.bind_some,ih,hn]
    rw [hbyte a (by omega),hbyte b (by omega),hbyte c (by omega)]
    rfl
  | case2 a b n =>
    have ha := a.toNat_lt
    have hb := b.toNat_lt
    have hn : (n/64/64%64*64+n/64%64)*64+n%64 = n := by omega
    simp only [decode,value_digit,Option.bind_eq_bind,Option.bind_some,hn]
    rw [if_pos (by omega),hbyte a (by omega),hbyte b (by omega)]
    rfl
  | case3 a =>
    have ha := a.toNat_lt
    simp only [decode,value_digit,Option.bind_eq_bind,Option.bind_some]
    rw [if_pos (by omega),hbyte a (by omega)]
    rfl
  | case4 => rfl

theorem dot_notMem_encode (data : List UInt8) : '.' ∉ encode data := by
  fun_induction encode data with
  | case1 a b c rest n ih => simp [ih,(digit_ne_dot _).symm]
  | case2 a b n => simp [(digit_ne_dot _).symm]
  | case3 a => simp [(digit_ne_dot _).symm]
  | case4 => exact not_mem_nil

end Base64
