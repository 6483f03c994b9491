import Aios.Kernel.HeapArena

/-!
Runs of the kernel heap: in every reachable state, with clients writing to their memory in between,
the headers describe a tiling of the heap, and every call returns.
-/
namespace Aios.Kernel.Heap.State

open Arena LinkedList Transition FreeListAllocator Finmap

/-- The addresses of the headers of the live blocks. -/
def LiveBlock (s : State) (a : ℕ) : Prop := ∃ p ∈ s.live, a = p-headerSize

structure WellFormed (s : State) (free : List ℕ) : Prop where
  list : Path s.heap.next s.heap.freeHead free none
  increasing : free.Pairwise (· < ·)
  sizes : ∀ a, a ∈ free ∨ s.LiveBlock a → 16 ∣ s.heap.size a ∧ 32 ≤ s.heap.size a
  separate : ∀ a ∈ free, ¬ s.LiveBlock a
  disjoint : ∀ a b, a ∈ free ∨ s.LiveBlock a → b ∈ free ∨ s.LiveBlock b → a ≠ b →
    a+s.heap.size a ≤ b ∨ b+s.heap.size b ≤ a
  cover : ∀ x, heapStart ≤ x ∧ x < heapStart+heapSize ↔
    ∃ a, (a ∈ free ∨ s.LiveBlock a) ∧ a ≤ x ∧ x < a+s.heap.size a
  coalesced : ∀ a ∈ free, ∀ b ∈ free, a+s.heap.size a ≠ b

/-- A call that the rules of the allocator allow. -/
def Allowed (s : State) : Op → Prop
  | .alloc _ => True
  | .dealloc p => p ∈ s.live
  | .store p _ => p ∈ s.live

/-- The arena behind a state: its used blocks are those of the live pointers, and each has
room for what was asked. -/
structure Models (s : State) (A : HeapArena) : Prop where
  heap : Represents s.heap A
  used : ∀ b ∈ A.blocks, b.free = false → b.start+headerSize ∈ s.live
  live : ∀ p layout, s.live.lookup p = some layout → ∃ b ∈ A.blocks, b.free = false ∧
    p = b.start+headerSize ∧ layout.needed ≤ b.size

variable {s t : State} {A : HeapArena} {mem : ℕ → BlockHeader} {n : ℕ}

theorem init_models : Models (init mem) (whole heapStart heapSize ⟨by decide,by decide⟩) := by
  have hmem : (init mem).heap.mem heapStart = ⟨heapSize,none⟩ := by
    simp only [init,initHeap,Function.update_self]
  refine ⟨⟨fun b hb => ?_,rfl,?_⟩,fun b hb hused => ?_,fun p layout hl => nomatch hl⟩
  · rw [List.mem_singleton.mp hb,size,hmem]
  · rfl
  · rw [List.mem_singleton.mp hb] at hused
    exact absurd hused.symm Bool.false_ne_true

theorem Models.alloc (hm : Models s A) (layout : Layout) :
    ∃ t A', s.step (.alloc layout) = some t ∧ Models t A' := by
  rcases hm.heap.alloc layout with ⟨hnull,-⟩ | ⟨pre,b,post,hc,-,t,halloc,hr⟩
  · exact ⟨s,A,by rw [step,hnull],hm⟩
  · obtain ⟨n,hn,hmem⟩ := mem_carved_of_used hc
    refine ⟨⟨t,s.live.insert (b.start+headerSize) layout⟩,_,by rw [step,halloc],hr,
      fun d hd hused => ?_,fun p l hl => ?_⟩
    · rw [mem_insert]
      rcases (hmem d hused).mp hd with rfl | hold
      · exact .inl rfl
      · exact .inr (hm.used d hold hused)
    · rw [lookup_insert_if] at hl
      split at hl
      next hp =>
        cases hl
        exact ⟨⟨b.start,n,false⟩,(hmem _ rfl).mpr (.inl rfl),rfl,hp,hn⟩
      next =>
        obtain ⟨d,hd,hused,hp,hroom⟩ := hm.live p l hl
        exact ⟨d,(hmem d hused).mpr (.inr hd),hused,hp,hroom⟩

/-- A pointer that is handed out belongs to no live block. -/
theorem Models.alloc_fresh (hm : Models s A) {layout : Layout} {h : FreeListAllocator} {p : ℕ}
    (halloc : s.heap.alloc layout = some (h,some p)) : p ∉ s.live := by
  rcases hm.heap.alloc layout with ⟨hnull,-⟩ | ⟨pre,b,post,hc,-,t,hsome,-⟩
  · rw [hnull] at halloc
    cases halloc
  · rw [hsome] at halloc
    cases halloc
    intro hp
    obtain ⟨old,hold⟩ := mem_iff.mp hp
    obtain ⟨d,hd,hused,hstart,-⟩ := hm.live _ old hold
    have hb : b ∈ A.blocks := by rw [hc.blocks]; simp
    rw [← A.tiles.eq_of_start A.pos hb hd (Nat.add_right_cancel hstart),hc.free] at hused
    cases hused

theorem Models.dealloc (hm : Models s A) {p : ℕ} (hp : p ∈ s.live) :
    ∃ t A', s.step (.dealloc p) = some t ∧ Models t A' := by
  obtain ⟨layout,hl⟩ := mem_iff.mp hp
  obtain ⟨b,hb,hbused,rfl,-⟩ := hm.live p layout hl
  obtain ⟨t,hfree,hr⟩ := hm.heap.dealloc hb hbused
  refine ⟨⟨t,s.live.erase (b.start+headerSize)⟩,_,?_,hr,fun d hd hused => ?_,fun q l hl => ?_⟩
  · rw [step,if_pos hp,hfree,Option.map_some]
  · obtain ⟨hold,hne⟩ := (mem_release_of_used hused).mp hd
    rw [mem_erase]
    exact ⟨fun he => hne (Nat.add_right_cancel he),hm.used d hold hused⟩
  · rw [lookup_erase_if] at hl
    split at hl
    · cases hl
    next hq =>
      obtain ⟨d,hd,hused,rfl,hroom⟩ := hm.live q l hl
      exact ⟨d,(mem_release_of_used hused).mpr ⟨hd,fun he => hq (by rw [he])⟩,hused,rfl,hroom⟩

/-- A client that keeps to its memory touches no header. -/
theorem Models.store (hm : Models s A) {p : ℕ} (hp : p ∈ s.live) (contents : ℕ → BlockHeader) :
    ∃ t, s.step (.store p contents) = some t ∧ Models t A := by
  obtain ⟨layout,hl⟩ := mem_iff.mp hp
  obtain ⟨b,hb,hbused,rfl,hroom⟩ := hm.live p layout hl
  have hsize := layout.size_le_needed
  have hkeep (c : Block) (hc : c ∈ A.blocks) :
      (s.heap.overwrite (b.start+headerSize) layout.size.toNat contents).mem c.start =
        s.heap.mem c.start := by
    refine if_pos ?_
    by_cases hcb : b = c
    · exact .inl (by rw [hcb])
    · have hdisj := A.tiles.disjoint hb hc hcb
      simp only [Block.stop] at hdisj
      omega
  refine ⟨⟨s.heap.overwrite (b.start+headerSize) layout.size.toNat contents,s.live⟩,
    by rw [step,hl,Option.map_some],⟨fun c hc => ?_,?_⟩,hm.used,hm.live⟩
  · rw [size,hkeep c hc]
    exact hm.heap.sizes c hc
  · refine hm.heap.list.congr fun a ha => ?_
    obtain ⟨c,hc,-,rfl⟩ := mem_freeStarts.mp ha
    rw [next,hkeep c hc]
    rfl

/-- Every allowed call returns, to a state that an arena models again. -/
theorem Models.step (hm : Models s A) {op : Op} (hop : s.Allowed op) :
    ∃ t A', s.step op = some t ∧ Models t A' := by
  cases op with
  | alloc layout => exact hm.alloc layout
  | dealloc p => exact hm.dealloc hop
  | store p contents =>
    obtain ⟨t,hst,ht⟩ := hm.store hop contents
    exact ⟨t,A,hst,ht⟩

theorem allowed_of_step {op : Op} (hst : s.step op = some t) : s.Allowed op := by
  cases op with
  | alloc layout => trivial
  | dealloc p =>
    simp only [State.step] at hst
    split at hst
    next hp => exact hp
    next => cases hst
  | store p contents =>
    obtain ⟨layout,hl,-⟩ := Option.map_eq_some_iff.mp hst
    exact mem_of_lookup_eq_some hl

theorem Models.isBlock_iff (hm : Models s A) (a : ℕ) :
    a ∈ freeStarts A.blocks ∨ s.LiveBlock a ↔ ∃ b ∈ A.blocks, b.start = a := by
  constructor
  · rintro (hfree | ⟨p,hp,rfl⟩)
    · obtain ⟨b,hb,-,rfl⟩ := mem_freeStarts.mp hfree
      exact ⟨b,hb,rfl⟩
    · obtain ⟨layout,hl⟩ := mem_iff.mp hp
      obtain ⟨b,hb,-,rfl,-⟩ := hm.live p layout hl
      exact ⟨b,hb,(Nat.add_sub_cancel ..).symm⟩
  · rintro ⟨b,hb,rfl⟩
    cases hfree : b.free with
    | true => exact .inl (mem_freeStarts.mpr ⟨b,hb,hfree,rfl⟩)
    | false => exact .inr ⟨_,hm.used b hb hfree,(Nat.add_sub_cancel ..).symm⟩

theorem Models.wellFormed (hm : Models s A) : WellFormed s (freeStarts A.blocks) := by
  have hsize (b : Block) (hb : b ∈ A.blocks) : s.heap.size b.start = b.size := hm.heap.sizes b hb
  refine ⟨hm.heap.list,A.tiles.freeStarts_increase A.pos,fun a ha => ?_,fun a ha hlive => ?_,
    fun a c ha hc hne => ?_,fun x => ?_,fun a ha c hc => ?_⟩
  · obtain ⟨b,hb,rfl⟩ := (hm.isBlock_iff a).mp ha
    rw [hsize b hb]
    exact A.sized b hb
  · obtain ⟨b,hb,hfree,rfl⟩ := mem_freeStarts.mp ha
    obtain ⟨p,hp,he⟩ := hlive
    obtain ⟨layout,hl⟩ := mem_iff.mp hp
    obtain ⟨d,hd,hused,rfl,-⟩ := hm.live p layout hl
    rw [A.tiles.eq_of_start A.pos hb hd he,hused] at hfree
    exact Bool.false_ne_true hfree
  · obtain ⟨b,hb,rfl⟩ := (hm.isBlock_iff a).mp ha
    obtain ⟨d,hd,rfl⟩ := (hm.isBlock_iff c).mp hc
    rw [hsize b hb,hsize d hd]
    exact A.tiles.disjoint hb hd fun he => hne (by rw [he])
  · rw [A.tiles.covers x]
    constructor
    · rintro ⟨b,hb,hle,hlt⟩
      refine ⟨b.start,(hm.isBlock_iff _).mpr ⟨b,hb,rfl⟩,hle,?_⟩
      rw [hsize b hb]
      exact hlt
    · rintro ⟨a,ha,hle,hlt⟩
      obtain ⟨b,hb,rfl⟩ := (hm.isBlock_iff a).mp ha
      rw [hsize b hb] at hlt
      exact ⟨b,hb,hle,hlt⟩
  · obtain ⟨b,hb,hbf,rfl⟩ := mem_freeStarts.mp ha
    obtain ⟨d,hd,hdf,rfl⟩ := mem_freeStarts.mp hc
    rw [hsize b hb]
    exact A.tiles.not_adjacent A.pos A.apart hb hd hbf hdf

theorem models_always (ops : List Op) :
    Always State.step (fun s => ∃ A, Models s A) (init mem) ops := by
  refine always_of_step (fun s op t hs hst => ?_) ⟨_,init_models⟩ ops
  obtain ⟨A,hm⟩ := hs
  obtain ⟨t',A',hst',ht'⟩ := hm.step (allowed_of_step hst)
  rw [hst,Option.some.injEq] at hst'
  exact ⟨A',hst' ▸ ht'⟩

/-- Every run from the heap of `init_heap` keeps the heap well formed, every allowed call returns,
and no pointer is handed out that is still live. -/
theorem heap_stays_wellFormed (mem : ℕ → BlockHeader) (ops : List Op) : Always State.step
      (fun s => (∃ free, WellFormed s free) ∧ (∀ op, s.Allowed op → ∃ t, s.step op = some t) ∧
        ∀ layout h p, s.heap.alloc layout = some (h,some p) → p ∉ s.live)
      (init mem) ops := by
  refine (models_always ops).mono fun s hs => ?_
  obtain ⟨A,hm⟩ := hs
  refine ⟨⟨_,hm.wellFormed⟩,fun op hop => ?_,fun layout h p => hm.alloc_fresh⟩
  obtain ⟨t,-,hst,-⟩ := hm.step hop
  exact ⟨t,hst⟩

/-- `n` bytes of the heap at `x` of which none belongs to a live block. -/
structure FreeRun (s : State) (x n : ℕ) : Prop where
  low : heapStart ≤ x
  high : x+n ≤ heapStart+heapSize
  free : ∀ y, x ≤ y → y < x+n → ∀ a, s.LiveBlock a → ¬ (a ≤ y ∧ y < a+s.heap.size a)

/-- A byte outside of the live blocks lies in a free block. -/
theorem FreeRun.block {x : ℕ} (h : FreeRun s x n) (hm : Models s A) {y : ℕ} (hx : x ≤ y)
    (hy : y < x+n) : ∃ b ∈ A.blocks, b.free = true ∧ b.start ≤ y ∧ y < b.stop := by
  have hheap := h.high
  obtain ⟨b,hb,hle,hlt⟩ := (A.tiles.covers y).mp ⟨h.low.trans hx,by omega⟩
  refine ⟨b,hb,?_,hle,hlt⟩
  by_contra hused
  refine h.free y hx hy b.start ⟨_,hm.used b hb (Bool.eq_false_of_not_eq_true hused),?_⟩ ?_
  · exact (Nat.add_sub_cancel ..).symm
  · rw [hm.heap.sizes b hb]
    exact ⟨hle,hlt⟩

/-- A free run lies in one free block, since free blocks do not touch. -/
theorem FreeRun.fits {x : ℕ} (h : FreeRun s x n) (hm : Models s A) (hn : 0 < n) :
    ∃ b ∈ A.blocks, b.free = true ∧ n ≤ b.size := by
  obtain ⟨b,hb,hfree,hle,hlt⟩ := h.block hm le_rfl (Nat.lt_add_of_pos_right hn)
  refine ⟨b,hb,hfree,?_⟩
  by_contra hshort
  unfold Block.stop at hlt
  obtain ⟨c,hc,hcfree,hcle,hclt⟩ := h.block hm (y := b.stop) (by unfold Block.stop; omega)
    (by unfold Block.stop; omega)
  have htouch := A.tiles.not_adjacent A.pos A.apart hb hc hfree hcfree
  rcases A.tiles.disjoint hb hc (by rintro rfl; omega) with hbefore | hafter
  · omega
  · unfold Block.stop at *
    omega

theorem Models.freeRun (hm : Models s A) {b : Block} (hb : b ∈ A.blocks) (hfree : b.free = true)
    (hn : n ≤ b.size) : FreeRun s b.start n := by
  obtain ⟨hlow,hhigh⟩ := A.tiles.bounds hb
  unfold Block.stop at hhigh
  refine ⟨hlow,by omega,?_⟩
  rintro y hle hlt a ⟨p,hp,rfl⟩ ⟨hale,halt⟩
  obtain ⟨layout,hl⟩ := mem_iff.mp hp
  obtain ⟨c,hc,hused,rfl,-⟩ := hm.live p layout hl
  rw [Nat.add_sub_cancel] at hale halt
  rw [hm.heap.sizes c hc] at halt
  have hdisj := A.tiles.disjoint hb hc (by rintro rfl; rw [hfree] at hused; cases hused)
  unfold Block.stop at hdisj
  omega

theorem Models.alloc_iff (hm : Models s A) (layout : Layout) (halign : layout.align ≤ blockAlign) :
    ∃ t p, s.heap.alloc layout = some (t,p) ∧ (p = none ↔ ∀ x, ¬ FreeRun s x layout.needed) := by
  rcases hm.heap.alloc layout with ⟨hnull,hsmall⟩ | ⟨pre,b,post,hc,-,t,halloc,-⟩
  · refine ⟨_,_,hnull,iff_of_true rfl fun x hrun => ?_⟩
    obtain ⟨b,hb,hfree,hfits⟩ := hrun.fits hm layout.needed_blockSize.pos
    rcases hsmall with hlarge | hsmall
    · exact absurd hlarge (UInt64.not_lt.mpr halign)
    · exact absurd (hsmall b hb hfree) hfits.not_gt
  · refine ⟨_,_,halloc,iff_of_false (Option.some_ne_none _) fun hnone => ?_⟩
    exact hnone b.start (hm.freeRun (by rw [hc.blocks]; simp) hc.free hc.fits)

/-- A request fails exactly when no run of bytes outside of the live blocks has room for it. An
empty heap has room for all that fit into it. -/
theorem alloc_is_complete (mem : ℕ → BlockHeader) (ops : List Op) : Always State.step
      (fun s => ∀ layout : Layout, layout.align ≤ blockAlign →
        ∃ t p, s.heap.alloc layout = some (t,p) ∧
          (p = none ↔ ∀ x, ¬ FreeRun s x (max ((layout.size.toNat+15)/16*16) 16+16)) ∧
          (s.live = ∅ → layout.size.toNat ≤ heapSize-headerSize → p ≠ none)) (init mem) ops := by
  refine (models_always ops).mono fun s hs layout halign => ?_
  obtain ⟨A,hm⟩ := hs
  obtain ⟨t,p,halloc,hiff⟩ := hm.alloc_iff layout halign
  rw [layout.needed_eq] at hiff
  refine ⟨t,p,halloc,hiff,fun hempty hsize hnull => ?_⟩
  refine hiff.mp hnull heapStart ⟨le_rfl,?_,?_⟩
  · have hheap : heapSize = 4194304 := rfl
    have hheader : headerSize = 16 := rfl
    omega
  · rintro y - - a ⟨p,hp,-⟩
    rw [hempty] at hp
    cases hp

end Aios.Kernel.Heap.State
