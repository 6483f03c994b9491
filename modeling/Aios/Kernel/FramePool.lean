import Aios.Kernel.PagingLaws

/-!
The frame allocator hands out the whole pages of its regions in turn. Where these are distinct and
no tables at the start, it never returns a frame that is in use as a table.
-/
namespace Aios.Kernel

open StoredTree Transition List

def pagesUp : ℕ → UInt64 → List UInt64
  | 0, _ => []
  | k+1, next => next::pagesUp k (next+pageSize)

def pagesFrom (next stop : UInt64) : List UInt64 := pagesUp ((stop.toNat-next.toNat)/4096) next

variable {next stop : UInt64} {r : Except String UInt64}

namespace FrameAllocator

def poolFrom (next : UInt64) : List MemRegion → List UInt64
  | [] => []
  | current::later =>
    pagesFrom next current.stop ++ later.flatMap fun r => pagesFrom r.start r.stop

/-- The frames that are still to be returned, in their order. -/
def pool (a : FrameAllocator) : List UInt64 := poolFrom a.next a.regions

structure Aligned (a : FrameAllocator) : Prop where
  next : isPageAligned a.next = true
  start : ∀ r ∈ a.regions, isPageAligned r.start = true
  stop : ∀ r ∈ a.regions, isPageAligned r.stop = true

theorem pagesFrom_of_le (h : stop ≤ next) : pagesFrom next stop = [] := by
  have hle : stop.toNat ≤ next.toNat := h
  unfold pagesFrom
  rw [Nat.sub_eq_zero_of_le hle]
  rfl

theorem pagesFrom_of_lt (hn : isPageAligned next = true) (hs : isPageAligned stop = true)
    (h : next < stop) :
    isPageAligned (next+pageSize) = true ∧
      pagesFrom next stop = next::pagesFrom (next+pageSize) stop := by
  have hn' := isPageAligned_iff.mp hn
  have hs' := isPageAligned_iff.mp hs
  have hlt : next.toNat < stop.toNat := h
  have hbound := stop.toNat_lt
  have hsum : (next+pageSize).toNat = next.toNat+4096 := by
    show (next.toNat+4096)%2^64 = _
    omega
  have hcount : (stop.toNat-next.toNat)/4096 = (stop.toNat-(next+pageSize).toNat)/4096+1 := by
    omega
  refine ⟨isPageAligned_iff.mpr (by omega),?_⟩
  unfold pagesFrom
  rw [hcount]
  rfl

theorem allocFrom_spec (framesAlloc next : UInt64) (regions : List MemRegion)
    (ha : Aligned ⟨regions,next,framesAlloc⟩) :
    (allocFrom framesAlloc next regions).1.Aligned ∧
      (allocFrom framesAlloc next regions).2 = (poolFrom next regions).head? ∧
      (allocFrom framesAlloc next regions).1.pool = (poolFrom next regions).tail := by
  induction regions generalizing next with
  | nil => exact ⟨ha,rfl,rfl⟩
  | cons current later ih =>
    unfold allocFrom
    split_ifs with hfull
    · have hnone := pagesFrom_of_le hfull
      cases later with
      | nil =>
        have hpool : poolFrom next [current] = [] := by rw [poolFrom,hnone,nil_append,flatMap_nil]
        refine ⟨ha,by rw [hpool]; rfl,?_⟩
        show poolFrom next [current] = _
        rw [hpool]
        rfl
      | cons following rest =>
        have hpool : poolFrom next (current::following::rest) =
            poolFrom following.start (following::rest) := by
          rw [poolFrom,hnone,nil_append,flatMap_cons,poolFrom]
        rw [hpool]
        refine ih following.start ⟨ha.start _ ?_,fun r hr => ha.start r ?_,fun r hr => ha.stop r ?_⟩
        · exact mem_cons_of_mem _ mem_cons_self
        · exact mem_cons_of_mem _ hr
        · exact mem_cons_of_mem _ hr
    · have hstop := ha.stop current mem_cons_self
      obtain ⟨halign,hpages⟩ := pagesFrom_of_lt ha.next hstop (UInt64.not_le.mp hfull)
      have hpool : poolFrom next (current::later) =
          next::poolFrom (next+pageSize) (current::later) := by
        rw [poolFrom,hpages,cons_append,poolFrom]
      rw [hpool]
      exact ⟨⟨halign,ha.start,ha.stop⟩,rfl,rfl⟩

end FrameAllocator

namespace Memory

variable {m t : Memory} {q : List Index} {n : Frame} {i : Index} {user : Bool}

/-- The frames still to be handed out are distinct page frames, and none is a table. -/
structure Supplied (m : Memory) : Prop where
  aligned : m.frames.Aligned
  nodup : m.frames.pool.Nodup
  frame : ∀ f ∈ m.frames.pool, f &&& pteFrame = f
  fresh : ∀ f ∈ m.frames.pool, ¬ m.IsTable f

theorem Supplied.freshAt (h : m.Supplied) (parent index : UInt64) : m.FreshAt parent index := by
  intro _ frame hframe
  have hhead := (FrameAllocator.allocFrom_spec _ _ _ h.aligned).2.1
  have hmem : frame ∈ m.frames.pool := mem_of_mem_head? (hhead ▸ hframe)
  exact ⟨h.frame frame hmem,h.fresh frame hmem⟩

theorem Supplied.alloc (h : m.Supplied) (hframes : t.frames = m.frames.allocFrame.1)
    (htables : ∀ g, t.IsTable g → m.IsTable g ∨ m.allocFrame.2 = some g) : t.Supplied := by
  obtain ⟨haligned,hhead,htail⟩ := FrameAllocator.allocFrom_spec _ _ _ h.aligned
  have hpool : t.frames.pool = m.frames.pool.tail := by
    rw [hframes]
    exact htail
  have hmem (f : UInt64) (hf : f ∈ t.frames.pool) : f ∈ m.frames.pool :=
    mem_of_mem_tail (hpool ▸ hf)
  refine ⟨hframes ▸ haligned,hpool ▸ h.nodup.tail,fun f hf => h.frame f (hmem f hf),
    fun f hf hg => ?_⟩
  rcases htables f hg with hold | hnew
  · exact h.fresh f (hmem f hf) hold
  · obtain ⟨rest,hcons⟩ := head?_eq_some_iff.mp (hhead.symm.trans hnew)
    have hnodup := h.nodup
    change m.frames.pool = f::rest at hcons
    rw [hpool,hcons] at hf
    rw [hcons] at hnodup
    exact (nodup_cons.mp hnodup).1 hf

theorem Supplied.congr (h : m.Supplied) (hframes : t.frames = m.frames)
    (htables : ∀ p, t.tableAt p = m.tableAt p) : t.Supplied := by
  refine ⟨hframes ▸ h.aligned,hframes ▸ h.nodup,hframes ▸ h.frame,fun f hf hg => ?_⟩
  obtain ⟨p,x,hp,hx⟩ := hg
  exact h.fresh f (hframes ▸ hf) ⟨p,x,htables p ▸ hp,hx⟩

theorem writeEntry_frames (a b v : UInt64) : (m.writeEntry a b v).frames = m.frames := rfl

section
variable (hm : m.Unshared) (hq : m.tableAt q = some n) (hlen : q.length ≤ 2) (hs : m.Supplied)

include hm hq hlen hs

theorem ensureTable_supplied (user : Bool) (h : m.ensureTable n.1 i.1 (pageFlags user) = (t,r)) :
    t.Supplied := by
  rcases m.ensureTable_cases n.1 i.1 (pageFlags user) with ⟨-,heq⟩ |
    ⟨habsent,⟨-,err,heq⟩ | ⟨frame,hframe,heq⟩⟩ <;> cases heq.symm.trans h
  · exact hs
  · exact hs.alloc rfl fun g hg => .inl hg
  · obtain ⟨hmask,hfresh⟩ := hs.freshAt n.1 i.1 habsent frame hframe
    have hframes : ((m.allocFrame.1.clearTable frame).writeEntry n.1 i.1
        (frame ||| pageFlags user)).frames = m.frames.allocFrame.1 := by
      rw [writeEntry_frames,clearTable_frames]
      rfl
    refine hs.alloc hframes fun g hg => ?_
    rcases isTable_link (m := m.allocFrame.1) (f := ⟨frame,hmask⟩) hm hq hlen hfresh hg with
      hold | hnew
    · exact .inl hold
    · exact .inr (hframe.trans (congrArg some hnew.symm))

theorem enterTable_supplied (h : m.enterTable n.1 i.1 (pageFlags user) user = (t,r)) :
    t.Supplied := by
  rcases enterTable_cases h with hensure | ⟨u,e,hensure,rfl,rfl⟩
  · exact ensureTable_supplied hm hq hlen hs user hensure
  · obtain ⟨hext,hok⟩ := ensureTable_spec hm hq hlen (hs.freshAt n.1 i.1) user hensure
    have htables := tableAt_setUser (i := i) hext.unshared (hok e rfl).table
    rw [(hok e rfl).entry] at htables
    exact (ensureTable_supplied hm hq hlen hs user hensure).congr rfl htables

end

section
variable (hm : m.Unshared)
include hm

theorem Supplied.enters (hs : m.Supplied) {virt : UInt64} {k : ℕ} (h : Enters m virt user k t n) :
    t.Supplied ∧ t.Unshared ∧ t.tableAt ((path virt).take k) = some n := by
  induction h with
  | top => exact ⟨hs,hm,rfl⟩
  | @deeper k t u n e h hk henter hhuge ih =>
    obtain ⟨hsup,hunshared,htable⟩ := ih
    obtain ⟨hnext,hok⟩ := enterTable_on_path hunshared htable hk (hsup.freshAt _ _) henter
    exact ⟨enterTable_supplied hunshared htable (path_take_length hk) hsup henter,
      hnext.unshared,hok e rfl hhuge⟩

theorem Supplied.mapsFresh (hs : m.Supplied) (virt : UInt64) : m.MapsFresh virt user :=
  fun _ _ _ h _ => (hs.enters hm h).1.freshAt _ _

theorem writeLeaf_supplied {v : UInt64} (hq : m.tableAt q = some n) (hlen : q.length = 3)
    (hs : m.Supplied) : (m.writeEntry n.1 i.1 v).Supplied := by
  refine hs.congr rfl fun p => ?_
  unfold tableAt
  rw [entry_writeEntry]
  refine walk_write_of_child hm hq ?_ p
  rw [hlen]
  rfl

theorem step_supplied (hs : m.Supplied) {op : PagingOp} (hstep : m.step op = some t) :
    t.Supplied := by
  cases op with
  | mapPage virt phys user =>
    cases hstep
    rcases m.mapPage_inv virt phys user with ⟨hsame,-⟩ |
      ⟨k,u,n,r,err,henters,hk,henter,-⟩ | ⟨u,n,henters,heq⟩
    · rwa [hsame]
    · obtain ⟨hsup,hunshared,htable⟩ := hs.enters hm henters
      exact enterTable_supplied hunshared htable (path_take_length hk) hsup henter
    · obtain ⟨hsup,hunshared,htable⟩ := hs.enters hm henters
      rw [heq]
      exact writeLeaf_supplied hunshared htable rfl hsup
  | unmapPage virt =>
    cases hstep
    rcases m.unmapPage_cases virt with ⟨heq,-⟩ | ⟨pt,htable,heq⟩
    · rwa [heq]
    · rw [heq]
      exact writeLeaf_supplied hm htable rfl hs
  | allocFrame =>
    cases hstep
    exact hs.alloc rfl fun g hg => .inl hg

/-- The allocator of the kernel meets the assumption in every run. -/
theorem Supplied.opFresh (hs : m.Supplied) (ops : List PagingOp) :
    EachStep step (fun m op _ => m.OpFresh op) m ops := by
  have hop (m : Memory) (h : m.Unshared ∧ m.Supplied) (op : PagingOp) : m.OpFresh op := by
    cases op with
    | mapPage virt phys user => exact h.2.mapsFresh h.1 virt
    | unmapPage virt => trivial
    | allocFrame => trivial
  refine eachStep_of_step (J := fun m => m.Unshared ∧ m.Supplied) (fun m op t h ht => ?_)
    ⟨hm,hs⟩ ops
  exact ⟨⟨step_unshared h.1 (hop m h op) ht,step_supplied h.1 h.2 ht⟩,hop m h op⟩

end
end Memory
end Aios.Kernel
