import Aios.Kernel.Paging

/-!
The laws of mapping and unmapping for whole pages, in every state that a run can reach from a tree
without shared tables.
-/
namespace Aios.Kernel

open StoredTree Transition

/-- Bits 12 to 47 of an address: the page that the walk looks up. -/
def pageOf (addr : UInt64) : UInt64 := (addr >>> 12) &&& 0xfffffffff

variable {a b : UInt64} {user : Bool}

section
variable {virt phys o : UInt64}

theorem pageOf_toNat (addr : UInt64) : (pageOf addr).toNat = addr.toNat/2^12%2^36 :=
  Bits.toNat_field rfl (by decide) addr

theorem indexAt_inj {s : UInt64} (hs : s.toNat < 64) :
    indexAt a s = indexAt b s ↔ a.toNat/2^s.toNat%2^9 = b.toNat/2^s.toNat%2^9 := by
  rw [← Subtype.coe_inj,← UInt64.toNat_inj]
  show ((a >>> s) &&& indexMask).toNat = ((b >>> s) &&& indexMask).toNat ↔ _
  rw [Bits.toNat_field (k := 9) rfl hs,Bits.toNat_field (k := 9) rfl hs]

/-- The four indices together are the page. -/
theorem path_eq_iff : path a = path b ↔ pageOf a = pageOf b := by
  rw [← UInt64.toNat_inj,pageOf_toNat,pageOf_toNat]
  simp only [path,List.cons.injEq,and_true]
  rw [indexAt_inj (by decide),indexAt_inj (by decide),indexAt_inj (by decide),
    indexAt_inj (by decide)]
  show a.toNat/2^39%2^9 = b.toNat/2^39%2^9 ∧
    a.toNat/2^30%2^9 = b.toNat/2^30%2^9 ∧
    a.toNat/2^21%2^9 = b.toNat/2^21%2^9 ∧
    a.toNat/2^12%2^9 = b.toNat/2^12%2^9 ↔ _
  omega

theorem isPageAligned_iff : isPageAligned virt = true ↔ virt.toNat%2^12 = 0 := by
  unfold isPageAligned
  rw [beq_iff_eq,← UInt64.toNat_inj,Bits.toNat_and_mask (k := 12) rfl]
  rfl

theorem toNat_add_offset (hv : isPageAligned virt = true) (ho : o.toNat < 4096) :
    (virt+o).toNat = virt.toNat+o.toNat := by
  have hv' := isPageAligned_iff.mp hv
  have hlt := virt.toNat_lt
  rw [UInt64.toNat_add]
  omega

theorem pageOf_add_offset (hv : isPageAligned virt = true) (ho : o.toNat < 4096) :
    pageOf (virt+o) = pageOf virt := by
  have hv' := isPageAligned_iff.mp hv
  rw [← UInt64.toNat_inj,pageOf_toNat,pageOf_toNat,toNat_add_offset hv ho]
  omega

theorem frame_mask (hp : isPageAligned phys = true) (hlt : phys.toNat < 2^52) :
    phys &&& pteFrame = phys := by
  have hlow : phys &&& 0xfff = 0 := by simpa [isPageAligned,pageSize] using hp
  have hhigh : phys &&& 0xfffffffffffff = phys := Bits.and_mask_eq (k := 52) rfl hlt
  calc
    phys &&& pteFrame = (phys &&& 0xfffffffffffff) &&& ~~~0xfff := by
      rw [UInt64.and_assoc]
      rfl
    _ = phys := by rw [hhigh,Bits.and_not_eq hlow]

theorem located_page (hv : isPageAligned virt = true)
    (hp : isPageAligned phys = true) (hlt : phys.toNat < 2^52) (ho : o.toNat < 4096) :
    located (virt+o) (some (3,phys ||| pageFlags user)) = some (phys+o) := by
  have hv' := isPageAligned_iff.mp hv
  have hp' := isPageAligned_iff.mp hp
  have hoffset : (virt+o) &&& 0xfff = o := by
    apply UInt64.toNat_inj.mp
    rw [Bits.toNat_and_mask (k := 12) rfl,toNat_add_offset hv ho]
    omega
  have hframe : (phys ||| pageFlags user) &&& pteFrame = phys := by
    rw [Bits.or_and_eq _ (pageFlags_frame user),frame_mask hp hlt]
  refine (if_neg (or_pageFlags_present user phys)).trans ?_
  show some (((phys ||| pageFlags user) &&& pteFrame) ||| ((virt+o) &&& 0xfff)) = _
  rw [hframe,hoffset,Bits.or_eq_add hp' ho]

end

inductive PagingOp where
  | mapPage (virt phys : UInt64) (user : Bool)
  | unmapPage (virt : UInt64)
  | allocFrame
  deriving DecidableEq

namespace Memory

variable {m t : Memory} {virt phys : UInt64}

def step (m : Memory) : PagingOp → Option Memory
  | .mapPage virt phys user => some (m.mapPage virt phys user).1
  | .unmapPage virt => some (m.unmapPage virt)
  | .allocFrame => some m.allocFrame.1

/-- The assumption on `alloc_frame` for one operation. -/
def OpFresh (m : Memory) : PagingOp → Prop
  | .mapPage virt _ user => m.MapsFresh virt user
  | .unmapPage _ | .allocFrame => True

section
variable (hm : m.Unshared)
include hm

theorem mapPage_unshared (hfresh : m.MapsFresh virt user) :
    (m.mapPage virt phys user).1.Unshared := by
  rcases mapPage_cases hm hfresh phys with ⟨err,-,hext⟩ | ⟨u,pt,hext,htable,heq⟩
  · exact hext.unshared
  · rw [heq]
    exact writeLeaf_unshared hext.unshared htable rfl

theorem unmapPage_unshared (virt : UInt64) : (m.unmapPage virt).Unshared := by
  rcases m.unmapPage_cases virt with ⟨heq,-⟩ | ⟨pt,htable,heq⟩
  · rwa [heq]
  · rw [heq]
    exact writeLeaf_unshared hm htable rfl

theorem step_unshared {op : PagingOp} (hfresh : m.OpFresh op) (hs : m.step op = some t) :
    t.Unshared := by
  cases op with
  | mapPage virt phys user =>
    cases hs
    exact mapPage_unshared hm hfresh
  | unmapPage virt =>
    cases hs
    exact unmapPage_unshared hm virt
  | allocFrame =>
    cases hs
    exact hm

theorem mapPage_ok (hfresh : m.MapsFresh virt user) (hv : isPageAligned virt = true)
    (hp : isPageAligned phys = true) (hlt : phys.toNat < 2^52)
    (hok : m.mapPage virt phys user = (t,.ok ())) :
    (∀ o : UInt64, o.toNat < 4096 → t.translate (virt+o) = some (phys+o)) ∧
      ∀ addr, pageOf addr ≠ pageOf virt → t.translate addr = m.translate addr := by
  rcases mapPage_cases hm hfresh phys with ⟨err,herr,-⟩ | ⟨u,pt,hext,htable,heq⟩
  · rw [hok] at herr
    cases herr
  · rw [hok] at heq
    cases heq
    constructor
    · intro o ho
      have hpath : path (virt+o) = path virt := path_eq_iff.mpr (pageOf_add_offset hv ho)
      rw [translate_writeLeaf hext.unshared htable rfl hpath,located_page hv hp hlt ho]
    · intro addr haddr
      have hpath : path addr ≠ path virt := fun h => haddr (path_eq_iff.mp h)
      rw [translate_writeLeaf_of_ne hext.unshared htable rfl hpath,hext.translate]

theorem unmapPage_spec (hv : isPageAligned virt = true) (hhuge : ¬ m.HugePageCovers virt) :
    (∀ o : UInt64, o.toNat < 4096 → (m.unmapPage virt).translate (virt+o) = none) ∧
      ∀ addr, pageOf addr ≠ pageOf virt → (m.unmapPage virt).translate addr = m.translate addr := by
  have hpath (o : UInt64) (ho : o.toNat < 4096) : path (virt+o) = path virt :=
    path_eq_iff.mpr (pageOf_add_offset hv ho)
  rcases m.unmapPage_cases virt with ⟨heq,hleaf⟩ | ⟨pt,htable,heq⟩
  · rw [heq]
    refine ⟨fun o ho => ?_,fun _ _ => rfl⟩
    obtain ⟨d,e,he,habsent⟩ := (hleaf hv).resolve_left hhuge
    have hsame : m.leafOf (virt+o) = m.leafOf virt := by rw [leafOf,hpath o ho,leafOf]
    rw [translate_eq,hsame,he,located_of_absent _ habsent]
  · rw [heq]
    refine ⟨fun o ho => ?_,fun addr haddr => ?_⟩
    · rw [translate_writeLeaf hm htable rfl (hpath o ho),located_of_absent _ rfl]
    · have hne : path addr ≠ path virt := fun h => haddr (path_eq_iff.mp h)
      exact translate_writeLeaf_of_ne hm htable rfl hne

end

structure PagingLaw (m : Memory) : Prop where
  map : ∀ virt phys user t, isPageAligned virt = true → isPageAligned phys = true →
    phys.toNat < 2^52 → m.MapsFresh virt user → m.mapPage virt phys user = (t,.ok ()) →
    (∀ o : UInt64, o.toNat < 4096 → t.translate (virt+o) = some (phys+o)) ∧
      ∀ addr, pageOf addr ≠ pageOf virt → t.translate addr = m.translate addr
  unmap : ∀ virt, isPageAligned virt = true → ¬ m.HugePageCovers virt →
    (∀ o : UInt64, o.toNat < 4096 → (m.unmapPage virt).translate (virt+o) = none) ∧
      ∀ addr, pageOf addr ≠ pageOf virt → (m.unmapPage virt).translate addr = m.translate addr

theorem Unshared.pagingLaw (hm : m.Unshared) : m.PagingLaw where
  map _ _ _ _ hv hp hlt hfresh hok := mapPage_ok hm hfresh hv hp hlt hok
  unmap _ hv hhuge := unmapPage_spec hm hv hhuge

end Memory
end Aios.Kernel
