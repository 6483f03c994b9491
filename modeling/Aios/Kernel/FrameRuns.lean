import Aios.Kernel.FramePool
import Mathlib.Data.List.Nodup
import Mathlib.Data.List.ReduceOption

/-!
The frame allocator over any number of calls after `init`: they return the whole pages of the
regions that it has taken over, one after another.
-/
namespace Aios.Kernel

open List

namespace MemRegion

variable {r : MemRegion} {page : UInt64}

/-- The page lies wholly inside the region. -/
def Holds (r : MemRegion) (page : UInt64) : Prop :=
  page.toNat%4096 = 0 ∧ r.start.toNat ≤ page.toNat ∧ page.toNat+4096 ≤ r.stop.toNat

def HasPage (r : MemRegion) : Prop := ∃ page, r.Holds page

theorem hasPage_iff : r.HasPage ↔ (r.start.toNat+4095)/4096*4096+4096 ≤ r.stop.toNat := by
  constructor
  · rintro ⟨page,halign,hstart,hstop⟩
    omega
  · intro h
    have hlt := r.stop.toNat_lt
    refine ⟨.ofNat ((r.start.toNat+4095)/4096*4096),?_⟩
    unfold Holds
    rw [UInt64.toNat_ofNat_of_lt' (show _ < 2^64 by omega)]
    omega

instance : DecidablePred HasPage := fun _ => decidable_of_iff _ hasPage_iff.symm

/-- No byte is in both regions. -/
def Apart (r s : MemRegion) : Prop :=
  ∀ addr : ℕ, ¬ (r.start.toNat ≤ addr ∧ addr < r.stop.toNat ∧
    s.start.toNat ≤ addr ∧ addr < s.stop.toNat)

theorem Apart.not_both {s : MemRegion} (h : r.Apart s) (hr : r.Holds page) : ¬ s.Holds page := by
  rintro ⟨-,hstart,hstop⟩
  obtain ⟨-,hstart',hstop'⟩ := hr
  exact h page.toNat (by omega)

def rounded (r : MemRegion) : MemRegion := ⟨alignUp r.start pageSize,alignDown r.stop pageSize⟩

section
variable (h : r.start.toNat < 2^63)
include h

theorem toNat_rounded : r.rounded.start.toNat = (r.start.toNat+4095)/4096*4096 ∧
      r.rounded.stop.toNat = r.stop.toNat/4096*4096 := by
  have hup := Bits.toNat_alignUp (a := r.start) (b := pageSize) (k := 12) (by decide)
    (by omega)
  have hdown := Bits.toNat_and_not (show (pageSize-1).toNat = 2^12-1 by decide) r.stop
  exact ⟨hup.trans (by omega),hdown.trans (by omega)⟩

theorem holds_rounded : r.rounded.Holds page ↔ r.Holds page := by
  obtain ⟨hstart,hstop⟩ := toNat_rounded h
  unfold Holds
  omega

theorem wholePages_eq :
    FrameAllocator.wholePages r = if r.HasPage then some r.rounded else none := by
  obtain ⟨hstart,hstop⟩ := toNat_rounded h
  have hlt : r.rounded.start < r.rounded.stop ↔ r.HasPage := by
    rw [UInt64.lt_iff_toNat_lt,hasPage_iff]
    omega
  exact if_congr hlt rfl rfl

end
end MemRegion

namespace FrameAllocator

section
variable {next stop : UInt64} (hn : isPageAligned next = true) (hs : isPageAligned stop = true)
include hn hs

theorem pagesFrom_spec : (pagesFrom next stop).Nodup ∧
    ∀ f, f ∈ pagesFrom next stop ↔ (⟨next,stop⟩ : MemRegion).Holds f := by
  have hn' := isPageAligned_iff.mp hn
  have hs' := isPageAligned_iff.mp hs
  unfold MemRegion.Holds
  induction hk : (stop.toNat-next.toNat)/4096 generalizing next with
  | zero =>
    have hle : stop ≤ next := by
      rw [UInt64.le_iff_toNat_le]
      omega
    rw [pagesFrom_of_le hle]
    refine ⟨nodup_nil,fun f => iff_of_false not_mem_nil ?_⟩
    dsimp only
    omega
  | succ k ih =>
    have hlt : next < stop := by
      rw [UInt64.lt_iff_toNat_lt]
      omega
    obtain ⟨halign,hpages⟩ := pagesFrom_of_lt hn hs hlt
    have hsum : (next+pageSize).toNat = next.toNat+4096 := by
      have := stop.toNat_lt
      show (next.toNat+4096)%2^64 = _
      omega
    obtain ⟨hnodup,hrest⟩ := ih halign (isPageAligned_iff.mp halign) (by omega)
    rw [hpages,nodup_cons,hrest]
    refine ⟨⟨fun hfirst => ?_,hnodup⟩,fun f => ?_⟩
    · have hle := hfirst.2.1
      dsimp only at hle
      omega
    · rw [mem_cons,← UInt64.toNat_inj]
      refine (or_congr_right (hrest f)).trans ?_
      dsimp only
      omega

end

/-- What the next calls return. -/
def calls : ℕ → FrameAllocator → List (Option UInt64)
  | 0, _ => []
  | n+1, a => a.allocFrame.2::calls n a.allocFrame.1

/-- The calls go through the pool. -/
theorem calls_eq {a : FrameAllocator} (ha : a.Aligned) (n : ℕ) :
    a.calls n = (range n).map (a.pool[·]?) := by
  induction n generalizing a with
  | zero => rfl
  | succ n ih =>
    obtain ⟨haligned,hhead,htail⟩ := allocFrom_spec a.framesAlloc a.next a.regions ha
    have hpool : a.allocFrame.1.pool = a.pool.tail := htail
    have hfirst : a.allocFrame.2 = a.pool.head? := hhead
    have hrest : a.allocFrame.1.calls n = (range n).map (a.allocFrame.1.pool[·]?) := ih haligned
    rw [calls,hrest,hpool,hfirst,range_succ_eq_map,map_cons,map_map,head?_eq_getElem?]
    congr 1
    refine map_congr_left fun k _ => ?_
    rw [Function.comp_apply,getElem?_tail]

theorem reduceOption_range (pool : List UInt64) (n : ℕ) :
    ((range n).map (pool[·]?)).reduceOption = pool.take n := by
  induction n generalizing pool with
  | zero => rfl
  | succ n ih =>
    rw [range_succ_eq_map,map_cons,map_map]
    cases pool with
    | nil => exact (reduceOption_cons_of_none _).trans ((ih []).trans take_nil)
    | cons f pool => exact congrArg (f::·) (ih pool)

variable {usable : List MemRegion}

/-- The regions that `init` takes over. -/
def taken (usable : List MemRegion) : List MemRegion :=
  (usable.filter MemRegion.HasPage).take maxFrameRegions

section
variable (hbelow : ∀ r ∈ usable, r.start.toNat < 2^63)
include hbelow

theorem filterMap_wholePages :
    usable.filterMap wholePages = (usable.filter MemRegion.HasPage).map MemRegion.rounded := by
  induction usable with
  | nil => rfl
  | cons r usable ih =>
    obtain ⟨hr,hrest⟩ := forall_mem_cons.mp hbelow
    rw [filterMap_cons,MemRegion.wholePages_eq hr]
    by_cases hpage : r.HasPage
    · rw [if_pos hpage,filter_cons_of_pos (by simpa using hpage),map_cons,ih hrest]
    · rw [if_neg hpage,filter_cons_of_neg (by simpa using hpage),ih hrest]

theorem regions_init : (init usable).regions = (taken usable).map MemRegion.rounded := by
  show (usable.filterMap wholePages).take maxFrameRegions = _
  rw [filterMap_wholePages hbelow,← map_take]
  rfl

omit hbelow in
theorem taken_sublist : (taken usable).Sublist usable :=
  (take_sublist _ _).trans filter_sublist

theorem aligned_rounded {r : MemRegion} (hr : r ∈ (taken usable).map MemRegion.rounded) :
    isPageAligned r.start = true ∧ isPageAligned r.stop = true := by
  obtain ⟨s,hs,rfl⟩ := mem_map.mp hr
  obtain ⟨hstart,hstop⟩ := MemRegion.toNat_rounded (hbelow s (taken_sublist.subset hs))
  exact ⟨isPageAligned_iff.mpr (by omega),isPageAligned_iff.mpr (by omega)⟩

theorem init_aligned : (init usable).Aligned := by
  have hregions := regions_init hbelow
  refine ⟨?_,fun r hr => ?_,fun r hr => ?_⟩
  · show isPageAligned (((init usable).regions.head?.map MemRegion.start).getD 0) = true
    rw [hregions]
    cases hhead : ((taken usable).map MemRegion.rounded).head? with
    | none => decide
    | some r => exact (aligned_rounded hbelow (mem_of_mem_head? hhead)).1
  · exact (aligned_rounded hbelow (hregions ▸ hr)).1
  · exact (aligned_rounded hbelow (hregions ▸ hr)).2

theorem pool_init : (init usable).pool =
    ((taken usable).map MemRegion.rounded).flatMap fun r => pagesFrom r.start r.stop := by
  show poolFrom (((init usable).regions.head?.map MemRegion.start).getD 0) _ = _
  rw [regions_init hbelow]
  cases (taken usable).map MemRegion.rounded with
  | nil => rfl
  | cons r regions => rw [flatMap_cons]; rfl

theorem mem_pool_init {f : UInt64} : f ∈ (init usable).pool ↔ ∃ r ∈ taken usable, r.Holds f := by
  simp only [pool_init hbelow,mem_flatMap,mem_map,exists_exists_and_eq_and]
  refine exists_congr fun r => and_congr_right fun hr => ?_
  obtain ⟨hstart,hstop⟩ := aligned_rounded hbelow (mem_map_of_mem hr)
  rw [(pagesFrom_spec hstart hstop).2]
  exact MemRegion.holds_rounded (hbelow r (taken_sublist.subset hr))

theorem nodup_pool_init (hapart : usable.Pairwise MemRegion.Apart) :
    (init usable).pool.Nodup := by
  rw [pool_init hbelow,nodup_flatMap]
  refine ⟨fun r hr => ?_,?_⟩
  · obtain ⟨hstart,hstop⟩ := aligned_rounded hbelow hr
    exact (pagesFrom_spec hstart hstop).1
  · rw [pairwise_map]
    refine (hapart.sublist taken_sublist).imp_of_mem fun {r s} hr hs h => ?_
    have hholds {q : MemRegion} {f : UInt64} (hq : q ∈ taken usable)
        (hf : f ∈ pagesFrom q.rounded.start q.rounded.stop) : q.Holds f := by
      obtain ⟨hstart,hstop⟩ := aligned_rounded hbelow (mem_map_of_mem hq)
      rw [(pagesFrom_spec hstart hstop).2] at hf
      exact (MemRegion.holds_rounded (hbelow q (taken_sublist.subset hq))).mp hf
    exact fun f hf hf' => h.not_both (hholds hr hf) (hholds hs hf')

end

/-- The frames returned are pages wholly inside the regions, no two are the same, and nothing is
returned only when every page of the regions that count has been returned, once. -/
structure HandsOut (usable : List MemRegion) (results : List (Option UInt64)) : Prop where
  inside : ∀ f, some f ∈ results → ∃ r ∈ usable, r.Holds f
  distinct : results.reduceOption.Nodup
  complete : ∀ k, results[k]? = some none →
    ∀ r ∈ (usable.filter MemRegion.HasPage).take maxFrameRegions, ∀ f, r.Holds f →
      (results.take k).reduceOption.count f = 1

theorem calls_handsOut (usable : List MemRegion)
    (hbelow : ∀ r ∈ usable, r.start.toNat < 2^63 ∧ r.stop.toNat < 2^63)
    (hapart : usable.Pairwise MemRegion.Apart) (n : ℕ) :
    HandsOut usable ((init usable).calls n) := by
  have hstart : ∀ r ∈ usable, r.start.toNat < 2^63 := fun r hr => (hbelow r hr).1
  have hnodup := nodup_pool_init hstart hapart
  have hmem {f : UInt64} := mem_pool_init (f := f) hstart
  rw [calls_eq (init_aligned hstart)]
  generalize (init usable).pool = pool at hnodup hmem
  refine ⟨fun f hf => ?_,?_,fun k hk r hr f hf => ?_⟩
  · obtain ⟨k,-,hk⟩ := mem_map.mp hf
    obtain ⟨r,hr,hholds⟩ := hmem.mp (mem_of_getElem? hk)
    exact ⟨r,taken_sublist.subset hr,hholds⟩
  · rw [reduceOption_range]
    exact hnodup.sublist (take_sublist n pool)
  · have hkn : k < n := by
      by_contra hle
      rw [getElem?_eq_none (by simpa using hle)] at hk
      cases hk
    have hlength : pool.length ≤ k := by
      rw [getElem?_map,getElem?_range hkn] at hk
      simpa using hk
    rw [← map_take,take_range,min_eq_left hkn.le,reduceOption_range,take_of_length_le hlength]
    exact count_eq_one_of_mem hnodup (hmem.mpr ⟨r,hr,hf⟩)

/-- Two pages of an unaligned region, none of a small one, and one of the last. -/
theorem unaligned_regions_handed_out :
    let usable : List MemRegion := [⟨0x9fc00,0xa2400⟩,⟨0xa3000,0xa3800⟩,⟨0x100000,0x101000⟩]
    (init usable).calls 4 = [some 0xa0000,some 0xa1000,some 0x100000,none] ∧
      HandsOut usable ((init usable).calls 4) := by
  have hordered : ([⟨0x9fc00,0xa2400⟩,⟨0xa3000,0xa3800⟩,⟨0x100000,0x101000⟩] :
      List MemRegion).Pairwise fun r s => r.stop.toNat ≤ s.start.toNat := by decide
  refine ⟨by decide,calls_handsOut _ (by decide) (hordered.imp fun h addr haddr => ?_) 4⟩
  omega

end FrameAllocator
end Aios.Kernel
