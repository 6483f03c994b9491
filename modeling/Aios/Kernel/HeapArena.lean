import Aios.Kernel.Heap
import Aios.Lib.Bits
import Aios.Lib.Arena

/-!
The heap refines an arena: the headers hold the sizes, and the free list runs through the free
blocks in the order of their addresses.
-/
namespace Aios.Kernel.Heap

open Arena LinkedList List

/-- Block sizes are multiples of the alignment and leave room for a payload. -/
def BlockSize (n : ℕ) : Prop := 16 ∣ n ∧ minBlockSize ≤ n

abbrev HeapArena : Type := Arena heapStart (heapStart+heapSize) BlockSize

theorem BlockSize.pos {n : ℕ} (h : BlockSize n) : 0 < n := Nat.lt_of_lt_of_le (by decide) h.2

theorem BlockSize.add (m n : ℕ) (hm : BlockSize m) (hn : BlockSize n) : BlockSize (m+n) :=
  ⟨Nat.dvd_add hm.1 hn.1,hm.2.trans (Nat.le_add_right m n)⟩

theorem BlockSize.sub {needed : ℕ} (hneeded : BlockSize needed) (n : ℕ) (hn : BlockSize n)
    (hrest : minBlockSize ≤ n-needed) : BlockSize (n-needed) :=
  ⟨Nat.dvd_sub hn.1 hneeded.1,hrest⟩

theorem HeapArena.pos (A : HeapArena) : ∀ b ∈ A.blocks, 0 < b.size := fun b hb => (A.sized b hb).pos

theorem alignUp_toNat {n : UInt64} (hn : n.toNat ≤ 2^63) :
    (alignUp n blockAlign).toNat = (n.toNat+15)/16*16 := by
  rw [alignUp,Bits.toNat_alignUp (k := 4) rfl (by omega)]
  omega

theorem Layout.needed_eq (layout : Layout) :
    layout.needed = max ((layout.size.toNat+15)/16*16) 16+16 := by
  have hle : layout.size.toNat ≤ 2^63 := (Nat.le_add_right _ _).trans layout.bounded
  rw [Layout.needed,UInt64.toNat_max,alignUp_toNat hle]
  rfl

theorem Layout.needed_blockSize (layout : Layout) : BlockSize layout.needed := by
  rw [layout.needed_eq]
  constructor
  · refine Nat.dvd_add ?_ (Nat.dvd_refl 16)
    rcases max_choice ((layout.size.toNat+15)/16*16) 16 with h | h
    · rw [h]
      exact Nat.dvd_mul_left 16 _
    · rw [h]
  · have hmin : minBlockSize = 32 := rfl
    omega

theorem Layout.size_le_needed (layout : Layout) : headerSize+layout.size.toNat ≤ layout.needed := by
  rw [layout.needed_eq]
  have hheader : headerSize = 16 := rfl
  omega

variable {q : Option ℕ}

namespace FreeListAllocator

section
variable (h : FreeListAllocator) (a x : ℕ)

@[simp] theorem size_setSize (n : ℕ) : (h.setSize a n).size x = if x = a then n else h.size x := by
  simp only [size,setSize,Function.update_apply]
  split <;> rfl

@[simp] theorem next_setSize (n : ℕ) : (h.setSize a n).next x = h.next x := by
  simp only [next,setSize,Function.update_apply]
  split
  next hx => rw [hx]
  next => rfl

@[simp] theorem size_setNext (p : Option ℕ) : (h.setNext a p).size x = h.size x := by
  simp only [size,setNext,Function.update_apply]
  split
  next hx => rw [hx]
  next => rfl

@[simp] theorem next_setNext (p : Option ℕ) :
    (h.setNext a p).next x = if x = a then p else h.next x := by
  simp only [next,setNext,Function.update_apply]
  split <;> rfl

@[simp] theorem size_link (prev p : Option ℕ) : (h.link prev p).size x = h.size x := by
  cases prev with
  | none => rfl
  | some a => exact size_setNext h a x p

end

variable {h t : FreeListAllocator} {lo hi needed : ℕ} {pre post bs cs : List Block} {b : Block}

/-- `link` behind the last cell of a path moves its end and touches no other cell. -/
theorem path_link {ks : List ℕ} (hp : Path h.next h.freeHead ks q) (hnd : ks.Nodup) (p : Option ℕ) :
    Path (h.link ks.getLast? p).next (h.link ks.getLast? p).freeHead ks p ∧
      ∀ x, x ∉ ks → (h.link ks.getLast? p).next x = h.next x := by
  rcases eq_nil_or_concat' ks with rfl | ⟨ks,k,rfl⟩
  · exact ⟨rfl,fun _ _ => rfl⟩
  · obtain ⟨-,-,hdisj⟩ := nodup_append.mp hnd
    rw [getLast?_concat]
    refine ⟨hp.redirect (fun j hj => ?_) ?_,fun x hx => ?_⟩
    · rw [link,next_setNext,if_neg (hdisj j hj k (mem_singleton_self k))]
    · rw [link,next_setNext,if_pos rfl]
    · rw [link,next_setNext,if_neg]
      rintro rfl
      exact hx (by simp)

/-- The headers hold the sizes of the blocks, and the free list visits the free ones. -/
structure Holds (h : FreeListAllocator) (bs : List Block) : Prop where
  sizes : ∀ b ∈ bs, h.size b.start = b.size
  list : Path h.next h.freeHead (freeStarts bs) none

theorem Holds.split_at (hh : Holds h (pre ++ b::post)) (hb : b.free = true) :
    Path h.next h.freeHead (freeStarts pre) (some b.start) ∧
      Path h.next (h.next b.start) (freeStarts post) none := by
  have hlist := hh.list
  rw [freeStarts_append,freeStarts_cons_of_free hb,path_append] at hlist
  obtain ⟨m,hpre,rfl,hpost⟩ := hlist
  exact ⟨hpre,hpost⟩

/-- Replace what the free list holds behind `pre`, by linking in a new rest. -/
theorem Holds.relink {p : Option ℕ} (hpre : Path h.next h.freeHead (freeStarts pre) q)
    (hnd : (freeStarts pre).Nodup) (hrest : Path h.next p (freeStarts cs) none)
    (hdisj : ∀ a ∈ freeStarts cs, a ∉ freeStarts pre)
    (hsizes : ∀ c ∈ pre ++ cs, h.size c.start = c.size) :
    Holds (h.link (freeStarts pre).getLast? p) (pre ++ cs) := by
  obtain ⟨hnew,hframe⟩ := path_link hpre hnd p
  refine ⟨fun c hc => (size_link h c.start _ p).trans (hsizes c hc),?_⟩
  rw [freeStarts_append]
  exact hnew.append (hrest.congr fun a ha => hframe a (hdisj a ha))

section
variable (ht : Tiles lo (pre ++ b::post) hi) (hpos : ∀ c ∈ pre ++ b::post, 0 < c.size)

include ht hpos

/-- Addresses inside a block are no starts of other blocks. -/
theorem start_ne_of_tiles {x : ℕ} (hx : b.start ≤ x ∧ x < b.stop) :
    ∀ c ∈ pre ++ post, c.start ≠ x := by
  obtain ⟨hpre,hpost⟩ := ht.around
  intro c hc
  rcases mem_append.mp hc with hin | hin
  · have hle := hpre c hin
    have hcpos := hpos c (mem_append_left _ hin)
    unfold Block.stop at hle
    omega
  · have hle := hpost c hin
    omega

theorem start_ne_start : ∀ c ∈ pre ++ post, c.start ≠ b.start :=
  start_ne_of_tiles ht hpos ⟨le_rfl,Nat.lt_add_of_pos_right (hpos b (by simp))⟩

theorem freeStarts_pre_nodup : (freeStarts pre).Nodup := by
  have hinc := ht.freeStarts_increase hpos
  rw [freeStarts_append,pairwise_append] at hinc
  exact hinc.1.imp fun hlt => hlt.ne

theorem freeStarts_disjoint : ∀ a ∈ freeStarts post, a ∉ freeStarts pre := by
  intro a hpost hpre
  obtain ⟨c,hc,-,rfl⟩ := mem_freeStarts.mp hpost
  obtain ⟨d,hd,-,hdc⟩ := mem_freeStarts.mp hpre
  obtain ⟨hbefore,hafter⟩ := ht.around
  have h₁ := hbefore d hd
  have h₂ := hafter c hc
  have h₃ := hpos d (mem_append_left _ hd)
  simp only [Block.stop] at h₁ h₂
  omega

/-- Taking a block out of the free list is first fit on the arena. -/
theorem Holds.takeBlock (hh : Holds h (pre ++ b::post)) (hb : b.free = true)
    (hneeded : 0 < needed) (hfit : needed ≤ b.size) :
    Holds (h.takeBlock needed (freeStarts pre).getLast? b.start)
      (pre ++ split needed minBlockSize b ++ post) := by
  obtain ⟨hpre,hpost⟩ := hh.split_at hb
  have hsize : h.size b.start = b.size := hh.sizes b (by simp)
  have hother (c : Block) (hc : c ∈ pre ++ post) : h.size c.start = c.size :=
    hh.sizes c (by simp only [mem_append] at hc ⊢; tauto)
  have hnd := freeStarts_pre_nodup ht hpos
  have hdisj := freeStarts_disjoint ht hpos
  have hstart := start_ne_start ht hpos
  rw [append_assoc]
  unfold FreeListAllocator.takeBlock split
  dsimp only
  rw [hsize]
  split
  next hrest =>
    -- the rest of the block becomes a free block of its own, with its header inside the old one
    have hrem : needed < b.size := by
      have hmin : minBlockSize = 32 := rfl
      omega
    have hleft := start_ne_of_tiles ht hpos
      ⟨Nat.le_add_right b.start needed,Nat.add_lt_add_left hrem b.start⟩
    have hfree (a : ℕ) (ha : a ∈ freeStarts (pre ++ post)) : a ≠ b.start+needed := by
      obtain ⟨c,hc,-,rfl⟩ := mem_freeStarts.mp ha
      exact hleft c hc
    rw [freeStarts_append] at hfree
    refine Holds.relink (q := some b.start) (hpre.congr fun a ha => ?_) hnd ⟨rfl,?_⟩
      (fun a ha => ?_) fun c hc => ?_
    · simp [hfree a (mem_append_left _ ha)]
    · rw [next_setNext,if_pos rfl]
      refine hpost.congr fun a ha => ?_
      simp [hfree a (mem_append_right _ ha)]
    · simp only [cons_append,freeStarts_cons_of_used,freeStarts_cons_of_free,mem_cons] at ha
      rcases ha with rfl | ha
      · exact fun hin => hfree _ (mem_append_left _ hin) rfl
      · exact hdisj a ha
    · have hcases : c = ⟨b.start,needed,false⟩ ∨
          c = ⟨b.start+needed,b.size-needed,true⟩ ∨ c ∈ pre ++ post := by
        simp only [mem_append,mem_cons] at hc ⊢
        tauto
      rcases hcases with rfl | rfl | hc
      · simp [hneeded.ne']
      · simp
      · simp [hleft c hc,hstart c hc,hother c hc]
  next =>
    refine Holds.relink hpre hnd hpost hdisj fun c hc => ?_
    have hcases : c = { b with free := false } ∨ c ∈ pre ++ post := by
      simp only [mem_append,mem_cons] at hc ⊢
      tauto
    rcases hcases with rfl | hc
    · exact hsize
    · exact hother c hc

end

/-- Absorbing the next block leaves a free block in its place, with the rest of the free list behind
it. Nothing but the header of the block changes. -/
structure Joined (h t : FreeListAllocator) (block : ℕ) (f : Block) (cs : List Block) : Prop where
  start : f.start = block
  free : f.free = true
  size : t.size block = f.size
  rest : Path t.next (t.next block) (freeStarts cs) none
  sizes : ∀ x, x ≠ block → t.size x = h.size x
  nexts : ∀ x, x ≠ block → t.next x = h.next x
  head : t.freeHead = h.freeHead

theorem absorbNext_joined (ht : Tiles b.stop post hi) (hpos : ∀ c ∈ post, 0 < c.size)
    (hb : h.size b.start = b.size) (hbpos : 0 < b.size)
    (hsizes : ∀ c ∈ post, h.size c.start = c.size)
    (hlist : Path h.next (freeStarts post).head? (freeStarts post) none) :
    ∃ f cs, glue { b with free := true } post = f::cs ∧ cs ⊆ post ∧
      Joined h (h.absorbNext b.start (freeStarts post).head?) b.start f cs := by
  have hafter (c : Block) (hc : c ∈ post) : b.stop ≤ c.start := (ht.bounds hc).1
  have hne (a : ℕ) (ha : a ∈ freeStarts post) : a ≠ b.start := by
    obtain ⟨c,hc,-,rfl⟩ := mem_freeStarts.mp ha
    have hle := hafter c hc
    unfold Block.stop at hle
    omega
  -- without an adjacent free block the new one is linked in front of the rest
  have hlinked : Joined h (h.setNext b.start (freeStarts post).head?) b.start
      { b with free := true } post := by
    refine ⟨rfl,rfl,by simp [hb],?_,fun x _ => by simp,fun x hx => by simp [hx],rfl⟩
    rw [next_setNext,if_pos rfl]
    exact hlist.congr fun a ha => by simp [hne a ha]
  cases post with
  | nil => exact ⟨_,[],rfl,nil_subset _,hlinked⟩
  | cons c post =>
    by_cases hc : c.free = true
    · have hcsize := hsizes c mem_cons_self
      rw [freeStarts_cons_of_free hc] at hlist hne ⊢
      refine ⟨⟨b.start,b.size+c.size,true⟩,post,by simp [glue,hc],by simp,?_⟩
      have hadj : b.start+h.size b.start = c.start := by rw [hb]; exact ht.1.symm
      rw [head?_cons,absorbNext,if_pos hadj]
      refine ⟨rfl,rfl,by simp [hb,hcsize],?_,fun x hx => by simp [hx],fun x hx => by simp [hx],rfl⟩
      rw [next_setNext,if_pos rfl]
      exact hlist.2.congr fun a ha => by simp [hne a (mem_cons_of_mem _ ha)]
    · rw [Bool.not_eq_true] at hc
      refine ⟨{ b with free := true },c::post,by simp [glue,hc],List.Subset.refl _,?_⟩
      have hsame : h.absorbNext b.start (freeStarts (c::post)).head? =
          h.setNext b.start (freeStarts (c::post)).head? := by
        cases hhead : (freeStarts (c::post)).head? with
        | none => rfl
        | some n =>
          -- the next free block lies behind the used block that follows
          have hn : n ∈ freeStarts post := by
            rw [freeStarts_cons_of_used hc] at hhead
            exact mem_of_mem_head? hhead
          obtain ⟨d,hd,-,rfl⟩ := mem_freeStarts.mp hn
          have hle := (ht.2.bounds hd).1
          have hcpos := hpos c mem_cons_self
          have hcs := ht.1
          rw [absorbNext,if_neg]
          simp only [Block.stop] at hle hcs
          omega
      rw [hsame]
      exact hlinked

section
variable {f : Block} {q : Option ℕ} (ht : Tiles lo (pre ++ b::post) hi)
  (hpos : ∀ c ∈ pre ++ b::post, 0 < c.size) (hj : Joined h t b.start f cs) (hcs : cs ⊆ post)

include ht hpos hj

theorem Joined.size_of_mem (hsizes : ∀ c ∈ pre ++ post, h.size c.start = c.size) :
    ∀ c ∈ pre ++ post, t.size c.start = c.size := by
  intro c hc
  rw [hj.sizes c.start (start_ne_start ht hpos c hc),hsizes c hc]

theorem Joined.path_pre (hpath : Path h.next h.freeHead (freeStarts pre) q) :
    Path t.next t.freeHead (freeStarts pre) q := by
  rw [hj.head]
  refine hpath.congr fun a ha => hj.nexts a ?_
  obtain ⟨c,hc,-,rfl⟩ := mem_freeStarts.mp ha
  exact start_ne_start ht hpos c (mem_append_left _ hc)

include hcs

/-- Behind a used block, or at the front, the new block is only linked. -/
theorem Joined.linked (hpath : Path h.next h.freeHead (freeStarts pre) q)
    (hsizes : ∀ c ∈ pre ++ post, h.size c.start = c.size)
    (hlast : ∀ p ∈ pre.getLast?, p.free = false) :
    Holds (t.absorbIntoPrev (freeStarts pre).getLast? b.start) (pre ++ f::cs) := by
  have hsize := hj.size_of_mem ht hpos hsizes
  have hlink : t.absorbIntoPrev (freeStarts pre).getLast? b.start =
      t.link (freeStarts pre).getLast? (some b.start) := by
    cases hprev : (freeStarts pre).getLast? with
    | none => rfl
    | some a =>
      obtain ⟨d,hd,hdf,rfl⟩ := mem_freeStarts.mp (mem_of_mem_getLast? hprev)
      rw [absorbIntoPrev,if_neg,link]
      rw [hsize d (mem_append_left _ hd)]
      rcases eq_nil_or_concat' pre with rfl | ⟨init,p,rfl⟩
      · exact absurd hd not_mem_nil
      · -- the used block in between keeps them from touching
        have hp := hlast p (by simp)
        have hin : d ∈ init := by
          rcases mem_append.mp hd with hin | hin
          · exact hin
          · rw [mem_singleton.mp hin,hp] at hdf
            exact absurd hdf Bool.false_ne_true
        have hppos := hpos p (by simp)
        have hb := ht.around.1 p (by simp)
        have ht' := ht
        rw [append_assoc] at ht'
        have hd' := ht'.around.1 d hin
        simp only [Block.stop] at hb hd'
        omega
  have hmem (c : Block) (hc : c ∈ pre ++ cs) : c ∈ pre ++ post := by
    rcases mem_append.mp hc with hin | hin
    · exact mem_append_left _ hin
    · exact mem_append_right _ (hcs hin)
  rw [hlink]
  refine Holds.relink (hj.path_pre ht hpos hpath) (freeStarts_pre_nodup ht hpos) ?_ ?_ ?_
  · rw [freeStarts_cons_of_free hj.free,hj.start]
    exact ⟨rfl,hj.rest⟩
  · intro a ha hpre
    obtain ⟨c,hc,-,rfl⟩ := mem_freeStarts.mp hpre
    have hne := start_ne_start ht hpos c (mem_append_left _ hc)
    rw [freeStarts_cons_of_free hj.free,hj.start] at ha
    rcases mem_cons.mp ha with he | ha
    · exact hne he
    · obtain ⟨d,hd,hdf,he⟩ := mem_freeStarts.mp ha
      exact freeStarts_disjoint ht hpos c.start (mem_freeStarts.mpr ⟨d,hcs hd,hdf,he⟩) hpre
  · intro c hc
    rcases mem_append.mp hc with hin | hin
    · exact hsize c (mem_append_left _ hin)
    · rcases mem_cons.mp hin with rfl | hin
      · rw [hj.start]
        exact hj.size
      · exact hsize c (hmem c (mem_append_right _ hin))

end

/-- Behind a free block the two become one, and the free list runs through the first. -/
theorem Joined.merged {p f : Block} (ht : Tiles lo ((pre ++ [p]) ++ b::post) hi)
    (hpos : ∀ c ∈ (pre ++ [p]) ++ b::post, 0 < c.size) (hj : Joined h t b.start f cs)
    (hcs : cs ⊆ post) (hp : p.free = true)
    (hpath : Path h.next h.freeHead (freeStarts (pre ++ [p])) q)
    (hsizes : ∀ c ∈ (pre ++ [p]) ++ post, h.size c.start = c.size) :
    Holds (t.absorbIntoPrev (freeStarts (pre ++ [p])).getLast? b.start)
      (pre ++ ⟨p.start,p.size+f.size,true⟩::cs) := by
  have hsize := hj.size_of_mem ht hpos hsizes
  have hpsize := hsize p (by simp)
  have hpath' := hj.path_pre ht hpos hpath
  have hfree : freeStarts (pre ++ [p]) = freeStarts pre ++ [p.start] := by
    rw [freeStarts_append,freeStarts_cons_of_free hp,freeStarts_nil]
  have hadj : p.start+t.size p.start = b.start := by
    obtain ⟨mid,htpre,htb,-⟩ := tiles_append.mp ht
    obtain ⟨mid',-,-,hstop⟩ := tiles_append.mp htpre
    rw [hpsize,htb]
    exact hstop
  have hother (c : Block) (hc : c ∈ pre ++ cs) : c.start ≠ p.start := by
    have ht' := ht
    have hpos' := hpos
    rw [append_assoc] at ht' hpos'
    refine start_ne_start ht' hpos' c ?_
    rcases mem_append.mp hc with hin | hin
    · exact mem_append_left _ hin
    · exact mem_append_right _ (mem_cons_of_mem b (hcs hin))
  rw [hfree,path_append] at hpath'
  obtain ⟨m,hpre,rfl,-⟩ := hpath'
  rw [hfree,getLast?_concat,absorbIntoPrev,if_pos hadj]
  refine ⟨fun c hc => ?_,?_⟩
  · rcases mem_append.mp hc with hin | hin
    · have hne := hother c (mem_append_left _ hin)
      simp [hne,hsize c (by simp [hin])]
    · rcases mem_cons.mp hin with rfl | hin
      · simp [hpsize,hj.size]
      · have hne := hother c (mem_append_right _ hin)
        simp [hne,hsize c (mem_append_right _ (hcs hin))]
  · rw [freeStarts_append,freeStarts_cons_of_free rfl,path_append]
    have hframe (a : ℕ) (ha : a ∈ freeStarts (pre ++ cs)) :
        ((t.setSize p.start (t.size p.start+t.size b.start)).setNext p.start
          (t.next b.start)).next a = t.next a := by
      obtain ⟨c,hc,-,rfl⟩ := mem_freeStarts.mp ha
      simp [hother c hc]
    rw [freeStarts_append] at hframe
    refine ⟨some p.start,hpre.congr fun a ha => hframe a (mem_append_left _ ha),rfl,?_⟩
    rw [next_setNext,if_pos rfl]
    exact hj.rest.congr fun a ha => hframe a (mem_append_right _ ha)

/-- Linking a block back in is the release of the arena. -/
theorem Holds.release (ht : Tiles lo (pre ++ b::post) hi)
    (hpos : ∀ c ∈ pre ++ b::post, 0 < c.size) (ha : Apart (pre ++ b::post))
    (hh : Holds h (pre ++ b::post)) (hb : b.free = false) :
    Holds ((h.absorbNext b.start (freeStarts post).head?).absorbIntoPrev
      (freeStarts pre).getLast? b.start) (release b.start (pre ++ b::post)) := by
  obtain ⟨mid,-,hmid,htpost⟩ := tiles_append.mp ht
  have hsizes (c : Block) (hc : c ∈ pre ++ post) : h.size c.start = c.size :=
    hh.sizes c (by simp only [mem_append] at hc ⊢; tauto)
  have hlist := hh.list
  rw [freeStarts_append,freeStarts_cons_of_used hb,path_append] at hlist
  obtain ⟨q,hpre,hpost⟩ := hlist
  have hq := hpost.head
  rw [hq] at hpre hpost
  obtain ⟨f,cs,hglue,hcs,hj⟩ := absorbNext_joined htpost
    (fun c hc => hpos c (by simp [hc])) (hh.sizes b (by simp)) (hpos b (by simp))
    (fun c hc => hsizes c (mem_append_right _ hc)) hpost
  rw [release_split ht hpos ha,hglue]
  have hapart : Apart pre := (isChain_append.mp ha).1
  by_cases hlast : ∃ p ∈ pre.getLast?, p.free = true
  · obtain ⟨p,hp,hpf⟩ := hlast
    obtain ⟨init,rfl⟩ := getLast?_eq_some_iff.mp hp
    rw [foldr_glue_of_free hpf hj.free hapart]
    exact hj.merged ht hpos hcs hpf hpre hsizes
  · have hused : ∀ p ∈ pre.getLast?, p.free = false := fun p hp =>
      Bool.eq_false_of_not_eq_true fun hpf => hlast ⟨p,hp,hpf⟩
    rw [foldr_glue_of_apart]
    · exact hj.linked ht hpos hcs hpre hsizes hused
    · refine isChain_append.mpr ⟨hapart,isChain_singleton f,fun p hp _ _ hboth => ?_⟩
      rw [hused p hp] at hboth
      exact Bool.false_ne_true hboth.1

/-- The heap in memory is the arena `A`. -/
def Represents (h : FreeListAllocator) (A : HeapArena) : Prop := Holds h A.blocks

section
variable {A : HeapArena}

/-- There are never more free blocks than the loops can visit. -/
theorem length_freeStarts_lt (A : HeapArena) (ks : List ℕ) (h : ks <+: freeStarts A.blocks) :
    ks.length < maxBlocks+1 := by
  have hlen : ks.length ≤ A.blocks.length := by
    refine h.length_le.trans ?_
    rw [freeStarts,length_map]
    exact length_filter_le _ _
  have hfit := A.tiles.length_le fun b hb => (A.sized b hb).2
  have hmin : minBlockSize = 32 := rfl
  have hmax : maxBlocks = heapSize/32 := rfl
  rw [hmin] at hfit
  omega

section
variable (hr : Represents h A)
include hr

/-- First fit on the free list finds the block that first fit on the arena carves. -/
theorem Represents.firstFit_some (hc : Carved needed minBlockSize A.blocks pre b post) :
    h.firstFit needed = some ((freeStarts pre).getLast?,some b.start) := by
  have hlist := hr.list
  have hsplit : freeStarts A.blocks = freeStarts pre ++ b.start::freeStarts post := by
    rw [hc.blocks,freeStarts_append,freeStarts_cons_of_free hc.free]
  have hsize (c : Block) (hmem : c ∈ A.blocks) : h.size c.start = c.size := hr.sizes c hmem
  have hfuel := length_freeStarts_lt A (freeStarts pre) (by rw [hsplit]; simp)
  rw [hsplit] at hlist
  unfold firstFit
  rw [hlist.walk (fun a ha => ?_) (fun a ha => ?_) hfuel none,Option.or_none]
  · rfl
  · obtain ⟨c,hmem,hf,rfl⟩ := mem_freeStarts.mp ha
    rw [hsize c (by rw [hc.blocks]; simp [hmem])]
    simpa using hc.small c hmem hf
  · cases ha
    rw [hsize b (by rw [hc.blocks]; simp)]
    simpa using hc.fits

theorem Represents.firstFit_none (hsmall : ∀ c ∈ A.blocks, c.free = true → c.size < needed) :
    ∃ prev, h.firstFit needed = some (prev,none) := by
  have hlist := hr.list
  have hfuel := length_freeStarts_lt A _ prefix_rfl
  rw [← append_nil (freeStarts A.blocks)] at hlist
  refine ⟨_,hlist.walk (fun a ha => ?_) (fun a ha => nomatch ha) hfuel none⟩
  obtain ⟨c,hmem,hf,rfl⟩ := mem_freeStarts.mp ha
  rw [hr.sizes c hmem]
  simpa using hsmall c hmem hf

theorem Represents.neighbours (hsplit : A.blocks = pre ++ b::post) (hb : b.free = false) :
    h.neighbours b.start = some ((freeStarts pre).getLast?,(freeStarts post).head?) := by
  have hlist := hr.list
  have hstarts : freeStarts A.blocks = freeStarts pre ++ freeStarts post := by
    rw [hsplit,freeStarts_append,freeStarts_cons_of_used hb]
  have hfuel := length_freeStarts_lt A (freeStarts pre) (by rw [hstarts]; simp)
  have ht := A.tiles
  have hpos := A.pos
  rw [hsplit] at ht hpos
  obtain ⟨hbefore,hafter⟩ := ht.around
  rw [hstarts] at hlist
  unfold FreeListAllocator.neighbours
  rw [hlist.walk (fun a ha => ?_) (fun a ha => ?_) hfuel none,Option.or_none]
  · obtain ⟨c,hmem,-,rfl⟩ := mem_freeStarts.mp ha
    have hle := hbefore c hmem
    have hcpos := hpos c (by simp [hmem])
    simp only [Block.stop] at hle
    simp only [not_lt,decide_eq_false_iff_not,not_le]
    omega
  · obtain ⟨c,hmem,-,rfl⟩ := mem_freeStarts.mp (mem_of_mem_head? ha)
    have hle := hafter c hmem
    simp only [Block.stop] at hle
    simp only [not_lt,decide_eq_true_eq]
    omega

/-- `alloc` carves the first block that fits, or changes nothing: a too large alignment, or no block
that is large enough. -/
theorem Represents.alloc (layout : Layout) :
    (h.alloc layout = some (h,none) ∧ (blockAlign < layout.align ∨
      ∀ c ∈ A.blocks, c.free = true → c.size < layout.needed)) ∨
    ∃ pre b post, ∃ hc : Carved layout.needed minBlockSize A.blocks pre b post,
      ¬ blockAlign < layout.align ∧ ∃ t,
        h.alloc layout = some (t,some (b.start+headerSize)) ∧
        Represents t (A.carved layout.needed_blockSize layout.needed_blockSize.sub hc) := by
  unfold FreeListAllocator.alloc
  by_cases halign : blockAlign < layout.align
  · exact .inl ⟨if_pos halign,.inl halign⟩
  · rw [if_neg halign]
    rcases carve_cases layout.needed minBlockSize A.blocks with ⟨pre,b,post,hc⟩ | ⟨-,hsmall⟩
    · refine .inr ⟨pre,b,post,hc,halign,_,by rw [hr.firstFit_some hc],?_⟩
      have ht := A.tiles
      have hpos := A.pos
      have hh : Holds h A.blocks := hr
      rw [hc.blocks] at ht hpos hh
      exact Holds.takeBlock ht hpos hh hc.free layout.needed_blockSize.pos hc.fits
    · obtain ⟨prev,hprev⟩ := hr.firstFit_none hsmall
      exact .inl ⟨by rw [hprev],.inr hsmall⟩

/-- `dealloc` of a used block returns, and is the release of that block. -/
theorem Represents.dealloc (hmem : b ∈ A.blocks) (hb : b.free = false) :
    ∃ t, h.dealloc (b.start+headerSize) = some t ∧
      Represents t (A.released BlockSize.add b.start) := by
  obtain ⟨pre,post,hsplit⟩ := append_of_mem hmem
  refine ⟨(h.absorbNext b.start (freeStarts post).head?).absorbIntoPrev
    (freeStarts pre).getLast? b.start,?_,?_⟩
  · unfold FreeListAllocator.dealloc
    dsimp only
    rw [Nat.add_sub_cancel,hr.neighbours hsplit hb]
    rfl
  · have ht := A.tiles
    have hpos := A.pos
    have ha := A.apart
    have hh : Holds h A.blocks := hr
    rw [hsplit] at ht hpos ha hh
    have hrel := Holds.release ht hpos ha hh hb
    rw [← hsplit] at hrel
    exact hrel

end
end
end FreeListAllocator
end Aios.Kernel.Heap
