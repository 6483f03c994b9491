import Mathlib.Data.Nat.Bitwise

/-! Masks and fields of 64-bit words, and their values. -/
namespace Bits

theorem or_and (a b mask : UInt64) : (a ||| b) &&& mask = (a &&& mask) ||| (b &&& mask) :=
  UInt64.toBitVec_inj.mp BitVec.and_or_distrib_right

variable {a mask b : UInt64} {k : ℕ}

/-- A word that lies within one mask has nothing in a disjoint one. -/
theorem and_eq_zero {other : UInt64} (h : a &&& mask = a) (hdisjoint : mask &&& other = 0) :
    a &&& other = 0 := by
  rw [← h,UInt64.and_assoc,hdisjoint,UInt64.and_zero]

/-- Bits that a mask drops do not matter to it. -/
theorem or_and_eq (a : UInt64) (h : b &&& mask = 0) : (a ||| b) &&& mask = a &&& mask := by
  rw [or_and,h,UInt64.or_zero]

theorem and_or_and_not (a mask : UInt64) : (a &&& mask) ||| (a &&& ~~~mask) = a := by
  have hor : (a &&& mask) ||| (a &&& ~~~mask) = a &&& (mask ||| ~~~mask) :=
    (UInt64.toBitVec_inj.mp BitVec.and_or_distrib_left).symm
  rw [hor,UInt64.or_not_self,UInt64.and_neg_one]

theorem and_not_eq (h : a &&& mask = 0) : a &&& ~~~mask = a := by
  simpa [h] using and_or_and_not a mask

theorem toNat_and_mask (h : mask.toNat = 2^k-1) (a : UInt64) :
    (a &&& mask).toNat = a.toNat%2^k := by
  rw [UInt64.toNat_and,h,Nat.and_two_pow_sub_one_eq_mod]

theorem and_mask_eq (h : mask.toNat = 2^k-1) (ha : a.toNat < 2^k) : a &&& mask = a := by
  apply UInt64.toNat_inj.mp
  rw [toNat_and_mask h,Nat.mod_eq_of_lt ha]

/-- The field of `k` bits above bit `s`. -/
theorem toNat_field {s : UInt64} (h : mask.toNat = 2^k-1) (hs : s.toNat < 64) (a : UInt64) :
    ((a >>> s) &&& mask).toNat = a.toNat/2^s.toNat%2^k := by
  rw [toNat_and_mask h,UInt64.toNat_shiftRight,Nat.mod_eq_of_lt hs,Nat.shiftRight_eq_div_pow]

/-- Disjoint words are joined by addition. -/
theorem toNat_or_eq (ha : a.toNat%2^k = 0) (hb : b.toNat < 2^k) :
    (a ||| b).toNat = a.toNat+b.toNat := by
  obtain ⟨c,hc⟩ := Nat.dvd_of_mod_eq_zero ha
  rw [UInt64.toNat_or,hc,Nat.two_pow_add_eq_or_of_lt hb]

theorem or_eq_add (ha : a.toNat%2^k = 0) (hb : b.toNat < 2^k) : a ||| b = a+b := by
  have hsum := toNat_or_eq ha hb
  apply UInt64.toNat_inj.mp
  rw [hsum,UInt64.toNat_add,Nat.mod_eq_of_lt (hsum ▸ UInt64.toNat_lt _)]

/-- Clearing the lowest bits of a word rounds it down. -/
theorem toNat_and_not (h : mask.toNat = 2^k-1) (a : UInt64) :
    (a &&& ~~~mask).toNat = a.toNat-a.toNat%2^k := by
  have hclear : (a &&& ~~~mask).toNat%2^k = 0 := by
    rw [← toNat_and_mask h,UInt64.and_assoc,UInt64.not_and_self,UInt64.and_zero]
    rfl
  have hlow := toNat_and_mask h a
  have hsum := toNat_or_eq hclear (hlow ▸ Nat.mod_lt _ (Nat.two_pow_pos k))
  rw [UInt64.or_comm,and_or_and_not] at hsum
  omega

/-- Rounding up adds the mask first. -/
theorem toNat_alignUp (hk : b.toNat = 2^k) (hab : a.toNat+2^k ≤ 2^64) :
    ((a+b-1) &&& ~~~(b-1)).toNat = (a.toNat+2^k-1)-(a.toNat+2^k-1)%2^k := by
  have hb : 0 < 2^k := Nat.two_pow_pos k
  have hmask : (b-1).toNat = 2^k-1 := by
    rw [UInt64.toNat_sub]
    simp
    omega
  have hsum : (a+b-1).toNat = a.toNat+2^k-1 := by
    rw [UInt64.sub_eq_add_neg,UInt64.add_assoc,← UInt64.sub_eq_add_neg,UInt64.toNat_add,hmask]
    omega
  rw [toNat_and_not hmask,hsum]

end Bits
