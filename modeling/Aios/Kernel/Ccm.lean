import Mathlib.Data.List.Basic

/-!
The encryption of wireless frames: counter mode and a chained tag. What the cipher makes of a block
does not matter.
-/
namespace Aios.Kernel

open List

structure Ccm where
  /-- `aes128_enc` with the round keys of the key. -/
  enc : (Fin 16 → UInt8) → Fin 16 → UInt8
  nonce : Fin 13 → UInt8
  aad : List UInt8
  /-- `ccm_tag` panics on more. -/
  aad_le : aad.length ≤ 38

namespace Ccm

def block (bytes : List UInt8) (j : Fin 16) : UInt8 := bytes.getD j 0

def toBeBytes (n : UInt16) : List UInt8 := [(n >>> 8).toUInt8,n.toUInt8]

variable (c : Ccm)

def ctrBlock (counter : UInt16) : List UInt8 :=
  ofFn (c.enc (block (1::ofFn c.nonce ++ toBeBytes counter)))

def feed (y : Fin 16 → UInt8) : List UInt8 → Fin 16 → UInt8
  | [] => y
  | b::bs => feed (c.enc fun j => block ((b::bs).take 16) j ^^^ y j) ((b::bs).drop 16)
termination_by data => data.length
decreasing_by simp only [length_drop,length_cons]; omega

def tag (pt : List UInt8) : List UInt8 :=
  let y := c.enc (block (0x59::ofFn c.nonce ++ toBeBytes (.ofNat pt.length)))
  let y := c.feed y (toBeBytes (.ofNat c.aad.length) ++ c.aad)
  (zipWith (· ^^^ ·) (ofFn (c.feed y pt)) (c.ctrBlock 0)).take 8

def xor (counter : UInt16) : List UInt8 → List UInt8
  | [] => []
  | b::bs => zipWith (· ^^^ ·) ((b::bs).take 16) (c.ctrBlock counter) ++
      xor (counter+1) ((b::bs).drop 16)
termination_by data => data.length
decreasing_by simp only [length_drop,length_cons]; omega

def encrypt (pt : List UInt8) : List UInt8 := c.xor 1 pt ++ c.tag pt

/-- The frame, decrypted in place, and whether its tag is right. -/
def decrypt (frame : List UInt8) : List UInt8 × Option Unit :=
  if frame.length < 8 then (frame,none)
  else
    let body := c.xor 1 (frame.take (frame.length-8))
    let expected := frame.drop (frame.length-8)
    (body ++ expected,if c.tag body = expected then some () else none)

variable {c} {counter : UInt16}

theorem length_tag (pt : List UInt8) : (c.tag pt).length = 8 := by simp [tag,ctrBlock]

theorem length_xor (data : List UInt8) : (c.xor counter data).length = data.length := by
  fun_induction xor c counter data with
  | case1 => rfl
  | case2 counter b bs ih =>
    rw [length_append,ih,length_zipWith,ctrBlock,length_ofFn,length_take,length_drop]
    omega

/-- A chunk that is not whole is the last. -/
theorem xor_append {chunk rest : List UInt8} (htake : (chunk ++ rest).take 16 = chunk) :
    c.xor counter (chunk ++ rest) =
      zipWith (· ^^^ ·) chunk (c.ctrBlock counter) ++ c.xor (counter+1) rest := by
  have hdrop := take_append_drop 16 (chunk ++ rest)
  rw [htake,append_cancel_left_eq] at hdrop
  cases h : chunk ++ rest with
  | nil =>
    obtain ⟨rfl,rfl⟩ := append_eq_nil_iff.mp h
    simp [xor]
  | cons b bs => rw [xor,← h,htake,hdrop]

theorem xor_xor (data : List UInt8) : c.xor counter (c.xor counter data) = data := by
  fun_induction xor c counter data with
  | case1 => simp [xor]
  | case2 counter b bs ih =>
    have hblock : (c.ctrBlock counter).length = 16 := length_ofFn
    rw [xor_append,ih]
    · refine (congrArg (· ++ _) ?_).trans (take_append_drop 16 (b::bs))
      refine ext_getElem (by rw [length_zipWith,length_zipWith,hblock]; grind) fun i _ _ => ?_
      simp [UInt8.xor_assoc]
    · rw [take_append,take_of_length_le (by rw [length_zipWith]; omega),append_right_eq_self,
        ← length_eq_zero_iff,length_take,length_xor,length_zipWith,hblock,length_take,length_drop]
      omega

/-- A frame decrypts to a text exactly if it is the encrypted text. -/
theorem decrypt_iff_encrypted (c : Ccm) (frame pt : List UInt8) :
    (∃ tag, tag.length = 8 ∧ c.decrypt frame = (pt ++ tag,some ())) ↔ frame = c.encrypt pt := by
  constructor
  · rintro ⟨tag,htag,h⟩
    unfold decrypt at h
    split_ifs at h with hshort
    · cases h
    · obtain ⟨hbytes,hsome⟩ := Prod.mk.inj h
      obtain ⟨rfl,-⟩ := append_inj' hbytes (by rw [htag,length_drop]; omega)
      obtain ⟨hright,-⟩ := Option.ite_none_right_eq_some.mp hsome
      rw [encrypt,xor_xor,hright,take_append_drop]
  · rintro rfl
    have hlength : (c.encrypt pt).length = (c.xor 1 pt).length+8 := by
      rw [encrypt,length_append,length_tag]
    refine ⟨c.tag pt,length_tag pt,?_⟩
    rw [decrypt,if_neg (by omega),hlength,Nat.add_sub_cancel,encrypt,take_left,drop_left,
      xor_xor]
    simp

end Ccm
end Aios.Kernel
