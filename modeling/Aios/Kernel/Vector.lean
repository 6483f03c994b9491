import Mathlib.Data.Nat.Sqrt
import Mathlib.Tactic.Linarith
import Mathlib.Tactic.Ring

/-!
Integer square roots by Newton's iteration, and the coverage of pixels by rounded rectangles.
Coordinates wrap around, as in a build without overflow checks.
-/
namespace Aios.Kernel.Vector

/-- The loop of `isqrt` and `isqrt64`; `none` where a division, or an addition of `bits` bits, would
panic. -/
def newton (bits v x y : ℕ) : Option ℕ :=
  if y < x then if y = 0 ∨ 2^bits ≤ y+v/y then none else newton bits v y ((y+v/y)/2)
  else some x
termination_by x

def squareRoot (bits v : ℕ) : Option ℕ := if v = 0 then some 0 else newton bits v v ((v+1)/2)

def isqrt (v : UInt32) : Option ℕ := squareRoot 32 v.toNat
def isqrt64 (v : UInt64) : Option ℕ := squareRoot 64 v.toNat

/-- The root of `v`, rounded down. -/
def IsRoot (v s : ℕ) : Prop := s*s ≤ v ∧ v < (s+1)*(s+1)

variable {bits v x y : ℕ}

/-- The arithmetic mean of `x` and `v/x` is not below their geometric mean. -/
theorem lt_next (hx : 0 < x) : v < ((x+v/x)/2+1)*((x+v/x)/2+1) := by
  have hdiv : v < x*(v/x+1) := Nat.lt_mul_div_succ v hx
  have hmean := four_mul_le_sq_add x (v/x+1)
  have hhalf : (x+(v/x+1))^2 ≤ (2*((x+v/x)/2+1))^2 := Nat.pow_le_pow_left (by omega) 2
  nlinarith

theorem newton_isRoot (hbits : 2 < bits) (hv : v < 2^bits) (hpos : 0 < v) (hx : 0 < x)
    (hlow : v < (x+1)*(x+1)) (hy : y = (x+v/x)/2) (hsmall : 2*y ≤ v+1) :
    ∃ s, newton bits v x y = some s ∧ IsRoot v s := by
  induction x using Nat.strong_induction_on generalizing y with
  | _ x ih =>
    unfold newton
    split
    next hlt =>
      have hnext : v < (y+1)*(y+1) := hy ▸ lt_next hx
      have hy0 : 0 < y := by
        rw [Nat.pos_iff_ne_zero]
        rintro rfl
        omega
      have hsum : y+v/y < 2^bits ∧ y+v/y ≤ v+1 := by
        have hfour : 2^3 ≤ 2^bits := Nat.pow_le_pow_right (by omega) hbits
        obtain hone | htwo : y = 1 ∨ 2 ≤ y := by omega
        · subst hone
          omega
        · have hquot : v/y ≤ v/2 := Nat.div_le_div_left htwo (by omega)
          omega
      rw [if_neg (by omega)]
      exact ih y hlt hy0 hnext rfl (by omega)
    next hge =>
      refine ⟨x,rfl,?_,hlow⟩
      have hquot : x ≤ v/x := by omega
      exact (Nat.le_div_iff_mul_le hx).mp hquot

theorem squareRoot_isRoot (hbits : 2 < bits) (hv : v < 2^bits) :
    ∃ s, squareRoot bits v = some s ∧ IsRoot v s := by
  unfold squareRoot
  split
  next hzero => exact ⟨0,rfl,by simp [IsRoot,hzero]⟩
  next hpos =>
    have hv0 : 0 < v := Nat.pos_of_ne_zero hpos
    exact newton_isRoot hbits hv hv0 hv0 (by nlinarith) (by rw [Nat.div_self hv0]) (by omega)

theorem isqrt_isRoot (v : UInt32) (w : UInt64) :
    (∃ s, isqrt v = some s ∧ IsRoot v.toNat s) ∧ ∃ s, isqrt64 w = some s ∧ IsRoot w.toNat s :=
  ⟨squareRoot_isRoot (by decide) v.toNat_lt,squareRoot_isRoot (by decide) w.toNat_lt⟩

/-- `ALL`: the bits of `TL`, `TR`, `BR` and `BL`. -/
def allCorners : UInt8 := 1 ||| 2 ||| 4 ||| 8

def circleCov (px py cx cy r : Int32) : Option UInt8 :=
  let dx := 2*px+1-2*cx
  let dy := 2*py+1-2*cy
  let d2 := dx*dx+dy*dy
  let r2 := 2*r
  if d2 ≤ (r2-1)*(r2-1) then some 255
  else if (r2+1)*(r2+1) ≤ d2 then some 0
  else (isqrt d2.toUInt32).map fun d =>
    UInt8.ofNat (max 0 (min ((r2+1-Int32.ofNat d)*255/2) 255)).toInt.toNat

def rectCov (px py x y w h r : Int32) (corners : UInt8) : Option UInt8 :=
  if px < x ∨ x+w ≤ px ∨ py < y ∨ y+h ≤ py then some 0
  else if r ≤ 0 then some 255
  else if py < y+r ∧ px < x+r ∧ corners &&& 1 ≠ 0 then circleCov px py (x+r) (y+r) r
  else if py < y+r ∧ x+w-r ≤ px ∧ corners &&& 2 ≠ 0 then circleCov px py (x+w-1-r) (y+r) r
  else if y+h-r ≤ py ∧ px < x+r ∧ corners &&& 8 ≠ 0 then circleCov px py (x+r) (y+h-1-r) r
  else if y+h-r ≤ py ∧ x+w-r ≤ px ∧ corners &&& 4 ≠ 0 then
    circleCov px py (x+w-1-r) (y+h-1-r) r
  else some 255

/-- The mirror images of a pixel are covered like the pixel. -/
def Symmetric (x y w h r : Int32) : Prop :=
  ∀ px py, rectCov (2*x+w-1-px) py x y w h r allCorners = rectCov px py x y w h r allCorners ∧
    rectCov px (2*y+h-1-py) x y w h r allCorners = rectCov px py x y w h r allCorners

section
variable {a b : Int32}

theorem toInt_add_of_lt (h : -2^31 ≤ a.toInt+b.toInt) (h' : a.toInt+b.toInt < 2^31) :
    (a+b).toInt = a.toInt+b.toInt := by
  rw [Int32.toInt_add]
  exact Int.bmod_eq_of_le (by norm_num; omega) (by norm_num; omega)

theorem toInt_sub_of_lt (h : -2^31 ≤ a.toInt-b.toInt) (h' : a.toInt-b.toInt < 2^31) :
    (a-b).toInt = a.toInt-b.toInt := by
  rw [Int32.toInt_sub]
  exact Int.bmod_eq_of_le (by norm_num; omega) (by norm_num; omega)

theorem ofNat_le_ofNat {m n : ℕ} (hm : m < 2^31) (hn : n < 2^31) :
    Int32.ofNat m ≤ Int32.ofNat n ↔ m ≤ n := by
  rw [Int32.le_iff_toInt_le,Int32.toInt_ofNat_of_lt hm,Int32.toInt_ofNat_of_lt hn,Nat.cast_le]

theorem eq_ofNat_succ {r : Int32} (hr : 1 ≤ r.toInt) :
    ∃ k : ℕ, r.toInt = k+1 ∧ r = Int32.ofNat k+1 := by
  refine ⟨(r.toInt-1).toNat,by omega,?_⟩
  have hlt := r.toInt_lt
  have hofNat := Int32.toInt_ofNat_of_lt (n := (r.toInt-1).toNat+1) (by omega)
  rw [Int32.ofNat_add] at hofNat
  exact Int32.toInt_inj.mp (by rw [show (1 : Int32) = Int32.ofNat 1 from rfl,hofNat]; omega)

end

section
variable {cx cy x y w h r : Int32}

theorem circleCov_comm (px py : Int32) : circleCov px py cx cy r = circleCov py px cy cx r := by
  unfold circleCov
  simp only [Int32.add_comm]

theorem ofNat_square (k c : ℕ) : Int32.ofNat ((2*k+c)*(2*k+c)) =
    (2*Int32.ofNat k+Int32.ofNat c)*(2*Int32.ofNat k+Int32.ofNat c) := by
  rw [Int32.ofNat_mul,Int32.ofNat_add,Int32.ofNat_mul]
  rfl

/-- The squares with which the distance is compared, for the radius `k+1`. -/
theorem ring_squares (k : ℕ) :
    (2*(Int32.ofNat k+1)-1)*(2*(Int32.ofNat k+1)-1) = Int32.ofNat ((2*k+1)*(2*k+1)) ∧
      (2*(Int32.ofNat k+1)+1)*(2*(Int32.ofNat k+1)+1) = Int32.ofNat ((2*k+3)*(2*k+3)) := by
  rw [ofNat_square,ofNat_square]
  constructor <;> grind

/-- The centre is `r` to the right and half a pixel below: the pixel is on the edge. -/
theorem circleCov_near (px py : Int32) (hr : 1 ≤ r.toInt) (hmax : r.toInt ≤ 2048) :
    circleCov px py (px+r) (py+1) r = some 255 := by
  obtain ⟨k,hk,rfl⟩ := eq_ofNat_succ hr
  have hbound : (2*k+3)*(2*k+3) < 2^31 := by nlinarith
  have hd : (2*px+1-2*(px+(Int32.ofNat k+1)))*(2*px+1-2*(px+(Int32.ofNat k+1)))+
      (2*py+1-2*(py+1))*(2*py+1-2*(py+1)) = Int32.ofNat ((2*k+1)*(2*k+1)+1) := by
    rw [Int32.ofNat_add,ofNat_square]
    grind
  obtain ⟨s,hs,hroot⟩ := squareRoot_isRoot (by decide)
    (show (2*k+1)*(2*k+1)+1 < 2^32 by nlinarith)
  have hroot : s = 2*k+1 := (Nat.eq_sqrt.mpr hroot).trans (Nat.sqrt_add_eq _ (by omega))
  have hsqrt : isqrt (Int32.ofNat ((2*k+1)*(2*k+1)+1)).toUInt32 = some (2*k+1) := by
    rw [Int32.toUInt32_ofNat',isqrt,UInt32.toNat_ofNat_of_lt' (by nlinarith),hs,hroot]
  have hvalue : 2*(Int32.ofNat k+1)+1-Int32.ofNat (2*k+1) = 2 := by
    rw [Int32.ofNat_add,Int32.ofNat_mul]
    grind
  have hinner := ofNat_le_ofNat (m := (2*k+1)*(2*k+1)+1) (n := (2*k+1)*(2*k+1)) (by nlinarith)
    (by nlinarith)
  have houter := ofNat_le_ofNat (n := (2*k+1)*(2*k+1)+1) hbound (by nlinarith)
  unfold circleCov
  dsimp only
  rw [hd,(ring_squares k).1,(ring_squares k).2,if_neg (mt hinner.mp (by omega)),
    if_neg (mt houter.mp (by nlinarith)),hsqrt,Option.map_some,hvalue]
  decide

/-- The centre on the other side is taken one pixel too far away. -/
theorem circleCov_far (px py : Int32) (hr : 1 ≤ r.toInt) (hmax : r.toInt ≤ 2048) :
    circleCov px py (px-r) (py+1) r = some 0 := by
  obtain ⟨k,hk,rfl⟩ := eq_ofNat_succ hr
  have hbound : (2*k+3)*(2*k+3)+1 < 2^31 := by nlinarith
  have hd : (2*px+1-2*(px-(Int32.ofNat k+1)))*(2*px+1-2*(px-(Int32.ofNat k+1)))+
      (2*py+1-2*(py+1))*(2*py+1-2*(py+1)) = Int32.ofNat ((2*k+3)*(2*k+3)+1) := by
    rw [Int32.ofNat_add,ofNat_square]
    grind
  have hinner := ofNat_le_ofNat (n := (2*k+1)*(2*k+1)) hbound (by nlinarith)
  have houter := ofNat_le_ofNat (m := (2*k+3)*(2*k+3)) (by omega) hbound
  unfold circleCov
  dsimp only
  rw [hd,(ring_squares k).1,(ring_squares k).2,if_neg (mt hinner.mp (by nlinarith)),
    if_pos (houter.mpr (by omega))]

/-- The sums along one side, none of which wraps around. -/
structure Fits (x w r : Int32) : Prop where
  radius : 1 ≤ r.toInt ∧ r.toInt ≤ 2048 ∧ r.toInt ≤ (w.toInt+1)/2
  stop : (x+w).toInt = x.toInt+w.toInt
  left : (x+r).toInt = x.toInt+r.toInt
  right : (x+w-r).toInt = x.toInt+w.toInt-r.toInt
  edge : (x+r-1).toInt = x.toInt+r.toInt-1
  last : (x+w-1).toInt = x.toInt+w.toInt-1

theorem fits_of_lt (hr : 1 ≤ r.toInt) (hrw : r.toInt ≤ (w.toInt+1)/2) (hw : w.toInt ≤ 4096)
    (hx : x.toInt+w.toInt < 2^31) : Fits x w r := by
  have hlow := x.le_toInt
  have hone : (1 : Int32).toInt = 1 := rfl
  have hstop := toInt_add_of_lt (a := x) (b := w) (by omega) hx
  have hleft := toInt_add_of_lt (a := x) (b := r) (by omega) (by omega)
  refine ⟨⟨hr,by omega,hrw⟩,hstop,hleft,?_,?_,?_⟩
  · rw [toInt_sub_of_lt (by omega) (by omega),hstop]
  · rw [toInt_sub_of_lt (by omega) (by omega),hleft,hone]
  · rw [toInt_sub_of_lt (by omega) (by omega),hstop,hone]

/-- The shape is the same with the axes exchanged. -/
theorem rectCov_comm (px py : Int32) :
    rectCov px py x y w h r allCorners = rectCov py px y x h w r allCorners := by
  have hcorners : allCorners &&& 1 ≠ 0 ∧ allCorners &&& 2 ≠ 0 ∧ allCorners &&& 4 ≠ 0 ∧
    allCorners &&& 8 ≠ 0 := by decide
  unfold rectCov
  grind [circleCov_comm]

section
variable (hx : Fits x w r) (hy : Fits y h r)
include hx hy

theorem rectCov_topLeft : rectCov x (y+r-1) x y w h r allCorners = some 255 := by
  obtain ⟨⟨hr,hmax,hrw⟩,hxw,hxr,hxwr,hxe,hxl⟩ := hx
  obtain ⟨⟨-,-,hrh⟩,hyh,hyr,hyhr,hye,hyl⟩ := hy
  have hzero : (0 : Int32).toInt = 0 := rfl
  have hnear := circleCov_near x (y+r-1) hr hmax
  rw [show y+r-1+1 = y+r by grind] at hnear
  unfold rectCov
  simp only [Int32.lt_iff_toInt_lt,Int32.le_iff_toInt_le,hxw,hxr,hxwr,hyh,hyr,hyhr,hye,hzero]
  rw [if_neg (by omega),if_neg (by omega),if_pos ⟨by omega,by omega,by decide⟩]
  exact hnear

theorem rectCov_topRight (hw : w ≠ 1) : rectCov (x+w-1) (y+r-1) x y w h r allCorners = some 0 := by
  obtain ⟨⟨hr,hmax,hrw⟩,hxw,hxr,hxwr,hxe,hxl⟩ := hx
  obtain ⟨⟨-,-,hrh⟩,hyh,hyr,hyhr,hye,hyl⟩ := hy
  have hzero : (0 : Int32).toInt = 0 := rfl
  have hw : w.toInt ≠ 1 := fun h => hw (Int32.toInt_inj.mp h)
  have hfar := circleCov_far (x+w-1) (y+r-1) hr hmax
  rw [show y+r-1+1 = y+r by grind] at hfar
  unfold rectCov
  simp only [Int32.lt_iff_toInt_lt,Int32.le_iff_toInt_le,hxw,hxr,hxwr,hxl,hyh,hyr,hyhr,hye,hzero]
  rw [if_neg (by omega),if_neg (by omega),if_neg (by omega),
    if_pos ⟨by omega,by omega,by decide⟩]
  exact hfar

end

/-- Where an end of the rectangle wraps around, no pixel lies inside. -/
theorem rectCov_of_overflow (hw : w.toInt ≤ 4096) (hh : h.toInt ≤ 4096)
    (hover : 2^31 ≤ x.toInt+w.toInt ∨ 2^31 ≤ y.toInt+h.toInt) (px py : Int32) (corners : UInt8) :
    rectCov px py x y w h r corners = some 0 := by
  have hwrap {a b : Int32} (hb : b.toInt ≤ 4096) (hab : 2^31 ≤ a.toInt+b.toInt) (p : Int32) :
      p < a ∨ a+b ≤ p := by
    have ha := a.toInt_lt
    rw [Int32.lt_iff_toInt_lt,Int32.le_iff_toInt_le,Int32.toInt_add]
    have hmod : (a.toInt+b.toInt).bmod (2^32) = a.toInt+b.toInt-2^32 := by
      rw [← Int.sub_mul_bmod_self_right (a.toInt+b.toInt) 1,one_mul]
      exact Int.bmod_eq_of_le (by norm_num; omega) (by norm_num; omega)
    have hp := p.le_toInt
    omega
  refine if_pos ?_
  rcases hover with hover | hover
  · rcases hwrap hw hover px with h | h <;> simp [h]
  · rcases hwrap hh hover py with h | h <;> simp [h]

theorem rectCov_single (hx : Fits x 1 r) (hy : Fits y 1 r) {px py : Int32}
    (hout : px ≠ x ∨ py ≠ y) : rectCov px py x y 1 1 r allCorners = some 0 := by
  have hone : (1 : Int32).toInt = 1 := rfl
  refine if_pos ?_
  rw [← Int32.toInt_inj.ne,← Int32.toInt_inj.ne] at hout
  simp only [Int32.lt_iff_toInt_lt,Int32.le_iff_toInt_le,hx.stop,hy.stop,hone]
  omega

/-- A rectangle with rounded corners is symmetric only if it is a single pixel, or if it reaches
over the end of the coordinates and has no pixels at all. -/
theorem rectCov_symmetric_iff (hr : 1 ≤ r.toInt) (hrw : r.toInt ≤ (w.toInt+1)/2)
    (hrh : r.toInt ≤ (h.toInt+1)/2) (hw : w.toInt ≤ 4096) (hh : h.toInt ≤ 4096) :
    Symmetric x y w h r ↔
      w = 1 ∧ h = 1 ∨ 2^31 ≤ x.toInt+w.toInt ∨ 2^31 ≤ y.toInt+h.toInt := by
  by_cases hover : 2^31 ≤ x.toInt+w.toInt ∨ 2^31 ≤ y.toInt+h.toInt
  · refine iff_of_true (fun px py => ?_) (.inr hover)
    simp only [rectCov_of_overflow hw hh hover,and_self]
  rw [or_iff_left hover]
  have hx : Fits x w r := fits_of_lt hr hrw hw (by omega)
  have hy : Fits y h r := fits_of_lt hr hrh hh (by omega)
  constructor
  · intro hsym
    constructor
    · by_contra hne
      have hmirror := (hsym x (y+r-1)).1
      rw [show 2*x+w-1-x = x+w-1 by grind,rectCov_topRight hx hy hne,
        rectCov_topLeft hx hy] at hmirror
      cases hmirror
    · by_contra hne
      have hmirror := (hsym (x+r-1) y).2
      rw [show 2*y+h-1-y = y+h-1 by grind,rectCov_comm,rectCov_topRight hy hx hne,rectCov_comm,
        rectCov_topLeft hy hx] at hmirror
      cases hmirror
  · rintro ⟨rfl,rfl⟩ px py
    by_cases hin : px = x ∧ py = y
    · obtain ⟨rfl,rfl⟩ := hin
      constructor <;> congr 1 <;> grind
    · have hout := not_and_or.mp hin
      rw [rectCov_single hx hy hout,rectCov_single hx hy (by grind),
        rectCov_single hx hy (by grind)]
      exact ⟨rfl,rfl⟩

end

theorem single_pixel_is_symmetric : Symmetric 0 0 1 1 1 :=
  (rectCov_symmetric_iff (by decide) (by decide) (by decide) (by decide) (by decide)).mpr
    (.inl ⟨rfl,rfl⟩)

/-- Of the four pixels of a small square one is covered, and its mirror images are not. -/
theorem square_is_lopsided : ¬ Symmetric 0 0 2 2 1 := by
  intro hsym
  have hfits : Fits 0 2 1 := fits_of_lt (by decide) (by decide) (by decide) (by decide)
  have hleft := rectCov_topLeft hfits hfits
  have hright := rectCov_topRight hfits hfits (by decide)
  cases hright.symm.trans ((hsym 0 0).1.trans hleft)

end Aios.Kernel.Vector
