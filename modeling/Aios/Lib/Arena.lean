import Mathlib.Data.List.Chain

/-!
Memory arenas: an interval of addresses tiled by free and used blocks, no two free ones next to each
other. First fit carves a used block out of a free one; a release joins free neighbours.
-/
open List

namespace Arena

structure Block where
  start : ℕ
  size : ℕ
  free : Bool
  deriving DecidableEq

def Block.stop (b : Block) : ℕ := b.start+b.size

/-- The blocks lie side by side and fill `[lo, hi)`. -/
def Tiles : ℕ → List Block → ℕ → Prop
  | lo, [], hi => lo = hi
  | lo, b::bs, hi => b.start = lo ∧ Tiles b.stop bs hi

def Apart (bs : List Block) : Prop := bs.IsChain fun a b => ¬ (a.free = true ∧ b.free = true)

variable {lo hi start : ℕ} {b c d : Block} {bs cs pre post : List Block} {P : ℕ → Prop}

@[simp] theorem tiles_nil : Tiles lo [] hi ↔ lo = hi := Iff.rfl

@[simp] theorem tiles_cons : Tiles lo (b::bs) hi ↔ b.start = lo ∧ Tiles b.stop bs hi := Iff.rfl

theorem tiles_append : Tiles lo (bs ++ cs) hi ↔ ∃ mid, Tiles lo bs mid ∧ Tiles mid cs hi := by
  induction bs generalizing lo with
  | nil => simp
  | cons b bs ih =>
    simp only [cons_append,tiles_cons,ih]
    constructor
    · rintro ⟨hb,mid,hbs,hcs⟩
      exact ⟨mid,⟨hb,hbs⟩,hcs⟩
    · rintro ⟨mid,⟨hb,hbs⟩,hcs⟩
      exact ⟨hb,mid,hbs,hcs⟩

theorem Tiles.le (h : Tiles lo bs hi) : lo ≤ hi := by
  induction bs generalizing lo with
  | nil => exact h.le
  | cons b bs ih =>
    obtain ⟨rfl,hbs⟩ := h
    exact (Nat.le_add_right _ _).trans (ih hbs)

theorem Tiles.bounds (h : Tiles lo bs hi) (hb : b ∈ bs) : lo ≤ b.start ∧ b.stop ≤ hi := by
  obtain ⟨pre,post,rfl⟩ := append_of_mem hb
  obtain ⟨mid,hpre,rfl,hpost⟩ := tiles_append.mp h
  exact ⟨hpre.le,hpost.le⟩

theorem Tiles.pairwise (h : Tiles lo bs hi) : bs.Pairwise fun a b => a.stop ≤ b.start := by
  induction bs generalizing lo with
  | nil => exact List.Pairwise.nil
  | cons b bs ih =>
    refine pairwise_cons.mpr ⟨fun c hc => ?_,ih h.2⟩
    exact (h.2.bounds hc).1

theorem Tiles.around (h : Tiles lo (pre ++ b::post) hi) :
    (∀ c ∈ pre, c.stop ≤ b.start) ∧ ∀ c ∈ post, b.stop ≤ c.start := by
  have hpair := h.pairwise
  rw [pairwise_append,pairwise_cons] at hpair
  exact ⟨fun c hc => hpair.2.2 c hc b mem_cons_self,hpair.2.1.1⟩

section
variable (h : Tiles lo bs hi)
include h

theorem Tiles.length_le {least : ℕ} (hleast : ∀ b ∈ bs, least ≤ b.size) :
    lo+least*bs.length ≤ hi := by
  induction bs generalizing lo with
  | nil => simpa using h.le
  | cons b bs ih =>
    obtain ⟨hb,htail⟩ := forall_mem_cons.mp hleast
    have hrest := ih h.2 htail
    have hlo := h.1
    simp only [Block.stop] at hrest
    rw [length_cons,Nat.mul_succ]
    omega

theorem Tiles.covers (x : ℕ) : lo ≤ x ∧ x < hi ↔ ∃ b ∈ bs, b.start ≤ x ∧ x < b.stop := by
  induction bs generalizing lo with
  | nil =>
    have heq : lo = hi := h
    simp only [not_mem_nil,false_and,exists_false,iff_false]
    omega
  | cons b bs ih =>
    obtain ⟨rfl,hbs⟩ := h
    have hle := hbs.le
    have hstop : b.start ≤ b.stop := Nat.le_add_right _ _
    rw [exists_mem_cons_iff,← ih hbs]
    omega

theorem Tiles.disjoint (hb : b ∈ bs) (hc : c ∈ bs) (hne : b ≠ c) :
    b.stop ≤ c.start ∨ c.stop ≤ b.start := by
  obtain ⟨pre,post,rfl⟩ := append_of_mem hb
  obtain ⟨hpre,hpost⟩ := h.around
  rcases mem_append.mp hc with hin | htail
  · exact .inr (hpre c hin)
  · rcases mem_cons.mp htail with rfl | hin
    · exact absurd rfl hne
    · exact .inl (hpost c hin)

theorem Tiles.eq_of_start (hpos : ∀ b ∈ bs, 0 < b.size) (hb : b ∈ bs) (hc : c ∈ bs)
    (he : b.start = c.start) : b = c := by
  by_contra hne
  have hbpos := hpos b hb
  have hcpos := hpos c hc
  have hdisj := h.disjoint hb hc hne
  unfold Block.stop at hdisj
  omega

theorem Tiles.not_adjacent (hpos : ∀ b ∈ bs, 0 < b.size) (ha : Apart bs) (hb : b ∈ bs) (hc : c ∈ bs)
    (hbf : b.free = true) (hcf : c.free = true) : b.stop ≠ c.start := by
  intro htouch
  have hcpos := hpos c hc
  obtain ⟨pre,post,rfl⟩ := append_of_mem hb
  obtain ⟨mid,hpre,hbs,hpost⟩ := tiles_append.mp h
  have hcpost : c ∈ post := by
    rcases mem_append.mp hc with hin | htail
    · have hle := (hpre.bounds hin).2
      simp only [Block.stop] at htouch hle
      omega
    · rcases mem_cons.mp htail with rfl | hin
      · simp only [Block.stop] at htouch
        omega
      · exact hin
  cases post with
  | nil => exact absurd hcpost not_mem_nil
  | cons d post =>
    have hd : d = c := hpost.eq_of_start
      (fun e he => hpos e (mem_append_right _ (mem_cons_of_mem b he)))
      mem_cons_self hcpost (hpost.1.trans htouch)
    have hbd := (isChain_cons.mp (isChain_append.mp ha).2.1).1 d rfl
    exact hbd ⟨hbf,hd ▸ hcf⟩

theorem Tiles.starts_increase (hpos : ∀ b ∈ bs, 0 < b.size) :
    (bs.map Block.start).Pairwise (· < ·) := by
  rw [pairwise_map]
  refine h.pairwise.imp_of_mem fun {a b} ha _ hle => ?_
  have hapos := hpos a ha
  unfold Block.stop at hle
  omega

end

def freeStarts (bs : List Block) : List ℕ := (bs.filter Block.free).map Block.start

@[simp] theorem freeStarts_nil : freeStarts [] = [] := rfl

theorem freeStarts_cons_of_free (hb : b.free = true) :
    freeStarts (b::bs) = b.start::freeStarts bs := by simp [freeStarts,hb]

theorem freeStarts_cons_of_used (hb : b.free = false) : freeStarts (b::bs) = freeStarts bs := by
  simp [freeStarts,hb]

@[simp] theorem freeStarts_append : freeStarts (bs ++ cs) = freeStarts bs ++ freeStarts cs := by
  simp [freeStarts]

theorem mem_freeStarts {a : ℕ} : a ∈ freeStarts bs ↔ ∃ b ∈ bs, b.free = true ∧ b.start = a := by
  simp [freeStarts,and_assoc]

theorem Tiles.freeStarts_increase (h : Tiles lo bs hi) (hpos : ∀ b ∈ bs, 0 < b.size) :
    (freeStarts bs).Pairwise (· < ·) :=
  (h.starts_increase hpos).sublist (filter_sublist.map _)

/-- Put a block in front, joined with the first one if both are free. -/
def glue (b : Block) : List Block → List Block
  | [] => [b]
  | c::cs => if b.free && c.free then ⟨b.start,b.size+c.size,true⟩::cs else b::c::cs

def coalesce (bs : List Block) : List Block := bs.foldr glue []

theorem glue_tiles (h : Tiles lo (b::cs) hi) : Tiles lo (glue b cs) hi := by
  cases cs with
  | nil => exact h
  | cons c cs =>
    rw [glue]
    split
    · obtain ⟨hb,hc,hcs⟩ := h
      refine ⟨hb,?_⟩
      have hstop : (⟨b.start,b.size+c.size,true⟩ : Block).stop = c.stop := by
        simp only [Block.stop] at hc ⊢
        omega
      rw [hstop]
      exact hcs
    · exact h

theorem glue_apart (h : Apart cs) : Apart (glue b cs) := by
  cases cs with
  | nil => exact isChain_singleton b
  | cons c cs =>
    rw [glue]
    split
    next hfree =>
      have hc := (Bool.and_eq_true_iff.mp hfree).2
      refine isChain_cons.mpr ⟨fun d hd => ?_,(isChain_cons.mp h).2⟩
      have hcd := (isChain_cons.mp h).1 d hd
      rwa [hc] at hcd
    next hfree =>
      refine isChain_cons_cons.mpr ⟨fun hboth => hfree ?_,h⟩
      rw [hboth.1,hboth.2]
      rfl

theorem forall_mem_glue (hadd : ∀ m n, P m → P n → P (m+n)) (hb : P b.size)
    (hcs : ∀ c ∈ cs, P c.size) : ∀ d ∈ glue b cs, P d.size := by
  cases cs with
  | nil => exact forall_mem_singleton.mpr hb
  | cons c cs =>
    obtain ⟨hc,htail⟩ := forall_mem_cons.mp hcs
    rw [glue]
    split
    · exact forall_mem_cons.mpr ⟨hadd _ _ hb hc,htail⟩
    · exact forall_mem_cons.mpr ⟨hb,hcs⟩

theorem coalesce_tiles (h : Tiles lo bs hi) : Tiles lo (coalesce bs) hi := by
  induction bs generalizing lo with
  | nil => exact h
  | cons b bs ih => exact glue_tiles ⟨h.1,ih h.2⟩

theorem coalesce_apart : Apart (coalesce bs) := by
  induction bs with
  | nil => exact isChain_nil
  | cons b bs ih => exact glue_apart ih

theorem forall_mem_coalesce (hadd : ∀ m n, P m → P n → P (m+n)) (h : ∀ b ∈ bs, P b.size) :
    ∀ d ∈ coalesce bs, P d.size := by
  induction bs with
  | nil => exact h
  | cons b bs ih =>
    obtain ⟨hb,htail⟩ := forall_mem_cons.mp h
    exact forall_mem_glue hadd hb (ih htail)

theorem foldr_glue_of_apart (h : Apart (pre ++ [b])) : pre.foldr glue (b::cs) = pre ++ b::cs := by
  induction pre with
  | nil => rfl
  | cons c pre ih =>
    obtain ⟨hhead,htail⟩ := isChain_cons.mp h
    rw [foldr_cons,ih htail]
    cases pre with
    | nil =>
      have hcb := hhead b rfl
      simp only [nil_append,glue,Bool.and_eq_true,if_neg hcb,cons_append]
    | cons d pre =>
      have hcd := hhead d rfl
      simp only [cons_append,glue,Bool.and_eq_true,if_neg hcd]

theorem coalesce_of_apart (h : Apart bs) : coalesce bs = bs := by
  induction bs with
  | nil => rfl
  | cons b bs ih =>
    obtain ⟨hhead,htail⟩ := isChain_cons.mp h
    rw [coalesce,foldr_cons,← coalesce,ih htail]
    cases bs with
    | nil => rfl
    | cons c bs => simp only [glue,Bool.and_eq_true,if_neg (hhead c rfl)]

theorem mem_glue_of_used (hd : d.free = false) : d ∈ glue b cs ↔ d = b ∨ d ∈ cs := by
  cases cs with
  | nil => simp [glue]
  | cons c cs =>
    rw [glue]
    split
    next hfree =>
      obtain ⟨hb,hc⟩ := Bool.and_eq_true_iff.mp hfree
      have hne (e : Block) (he : e.free = true) : d ≠ e := by
        rintro rfl
        rw [hd] at he
        exact Bool.false_ne_true he
      simp [hne b hb,hne c hc,hne ⟨b.start,b.size+c.size,true⟩ rfl]
    next => exact mem_cons

theorem mem_coalesce_of_used (hd : d.free = false) : d ∈ coalesce bs ↔ d ∈ bs := by
  induction bs with
  | nil => exact Iff.rfl
  | cons b bs ih =>
    rw [coalesce,foldr_cons,← coalesce,mem_glue_of_used hd,ih,mem_cons]

def freeAt (start : ℕ) (b : Block) : Block := if b.start = start then { b with free := true } else b

def release (start : ℕ) (bs : List Block) : List Block := coalesce (bs.map (freeAt start))

theorem freeAt_start : (freeAt start b).start = b.start := by
  unfold freeAt
  split <;> rfl

theorem freeAt_size : (freeAt start b).size = b.size := by
  unfold freeAt
  split <;> rfl

theorem map_freeAt_tiles (h : Tiles lo bs hi) : Tiles lo (bs.map (freeAt start)) hi := by
  induction bs generalizing lo with
  | nil => exact h
  | cons b bs ih =>
    refine ⟨freeAt_start.trans h.1,?_⟩
    rw [Block.stop,freeAt_start,freeAt_size]
    exact ih h.2

/-- A release takes exactly the block at `start` from the used ones. -/
theorem mem_release_of_used (hd : d.free = false) :
    d ∈ release start bs ↔ d ∈ bs ∧ d.start ≠ start := by
  rw [release,mem_coalesce_of_used hd,mem_map]
  constructor
  · rintro ⟨c,hc,rfl⟩
    unfold freeAt at hd ⊢
    split at hd
    · exact absurd hd.symm Bool.false_ne_true
    next hne =>
      rw [if_neg hne]
      exact ⟨hc,hne⟩
  · rintro ⟨hmem,hne⟩
    exact ⟨d,hmem,if_neg hne⟩

section
variable (h : Tiles lo (pre ++ b::post) hi) (hpos : ∀ c ∈ pre ++ b::post, 0 < c.size)
include h hpos

theorem map_freeAt_split :
    (pre ++ b::post).map (freeAt b.start) = pre ++ { b with free := true }::post := by
  have hbpos := hpos b (by simp)
  obtain ⟨hpre,hpost⟩ := h.around
  have hother (cs : List Block) (hne : ∀ c ∈ cs, c.start ≠ b.start) :
      cs.map (freeAt b.start) = cs :=
    (map_congr_left fun c hc => if_neg (hne c hc)).trans (map_id' cs)
  rw [map_append,map_cons,hother pre,hother post,freeAt,if_pos rfl]
  · intro c hc
    have hle := hpost c hc
    unfold Block.stop at hle
    omega
  · intro c hc
    have hle := hpre c hc
    have hcpos := hpos c (mem_append_left _ hc)
    unfold Block.stop at hle
    omega

/-- A release only concerns the block and its two neighbours: first what follows it. -/
theorem release_split (ha : Apart (pre ++ b::post)) :
    release b.start (pre ++ b::post) = pre.foldr glue (glue { b with free := true } post) := by
  have hpost : Apart post := (isChain_cons.mp (isChain_append.mp ha).2.1).2
  rw [release,map_freeAt_split h hpos,coalesce,foldr_append,foldr_cons,← coalesce,
    coalesce_of_apart hpost]

end

/-- Then the block before it, if that one is free. -/
theorem foldr_glue_of_free {p f : Block} (hp : p.free = true) (hf : f.free = true)
    (h : Apart (pre ++ [p])) (cs : List Block) :
    (pre ++ [p]).foldr glue (f::cs) = pre ++ ⟨p.start,p.size+f.size,true⟩::cs := by
  have hjoin : glue p (f::cs) = ⟨p.start,p.size+f.size,true⟩::cs := by
    rw [glue,hp,hf]
    rfl
  rw [foldr_append,foldr_cons,foldr_nil,hjoin]
  refine foldr_glue_of_apart ?_
  rw [Apart,isChain_append] at h ⊢
  refine ⟨h.1,isChain_singleton _,fun c hc d hd => ?_⟩
  have hcp := h.2.2 c hc p rfl
  cases hd
  rwa [hp] at hcp

section

/-- The used block at the front of a free one, with the rest if it is large enough. -/
def split (needed least : ℕ) (b : Block) : List Block :=
  if least ≤ b.size-needed then
    [⟨b.start,needed,false⟩,⟨b.start+needed,b.size-needed,true⟩]
  else [{ b with free := false }]

def carve (needed least : ℕ) : List Block → Option (ℕ × List Block)
  | [] => none
  | b::bs =>
    if b.free = true ∧ needed ≤ b.size then some (b.start,split needed least b ++ bs)
    else (carve needed least bs).map fun r => (r.1,b::r.2)

structure Carved (needed least : ℕ) (bs : List Block) (pre : List Block) (b : Block)
    (post : List Block) : Prop where
  blocks : bs = pre ++ b::post
  free : b.free = true
  fits : needed ≤ b.size
  small : ∀ c ∈ pre, c.free = true → c.size < needed
  result : carve needed least bs = some (b.start,pre ++ split needed least b ++ post)

variable {needed least : ℕ}

theorem carve_cases (needed least : ℕ) (bs : List Block) :
    (∃ pre b post, Carved needed least bs pre b post) ∨
      carve needed least bs = none ∧ ∀ c ∈ bs, c.free = true → c.size < needed := by
  induction bs with
  | nil => exact .inr ⟨rfl,fun c hc => absurd hc not_mem_nil⟩
  | cons b bs ih =>
    by_cases hfit : b.free = true ∧ needed ≤ b.size
    · refine .inl ⟨[],b,bs,rfl,hfit.1,hfit.2,fun c hc => absurd hc not_mem_nil,?_⟩
      rw [carve,if_pos hfit]
      rfl
    · have hb : b.free = true → b.size < needed := fun hf => by
        by_contra hle
        exact hfit ⟨hf,Nat.le_of_not_lt hle⟩
      rcases ih with ⟨pre,c,post,hc⟩ | ⟨hnone,hsmall⟩
      · refine .inl ⟨b::pre,c,post,by rw [hc.blocks]; rfl,hc.free,hc.fits,
          forall_mem_cons.mpr ⟨hb,hc.small⟩,?_⟩
        rw [carve,if_neg hfit,hc.result]
        rfl
      · refine .inr ⟨?_,forall_mem_cons.mpr ⟨hb,hsmall⟩⟩
        rw [carve,if_neg hfit,hnone]
        rfl

theorem split_tiles (hfit : needed ≤ b.size) (h : Tiles lo (b::bs) hi) :
    Tiles lo (split needed least b ++ bs) hi := by
  unfold split
  split
  · obtain ⟨hb,hbs⟩ := h
    refine ⟨hb,rfl,?_⟩
    have hstop : (⟨b.start+needed,b.size-needed,true⟩ : Block).stop = b.stop := by
      simp only [Block.stop]
      omega
    rw [hstop]
    exact hbs
  · exact h

/-- A used block keeps its neighbours apart, whatever they are. -/
theorem split_apart (hfree : b.free = true) (h : Apart (pre ++ b::post)) :
    Apart (pre ++ split needed least b ++ post) := by
  obtain ⟨hpre,hbpost,-⟩ := isChain_append.mp h
  obtain ⟨hhead,hpost⟩ := isChain_cons.mp hbpost
  have hlive (n : ℕ) (cs : List Block) (hcs : Apart cs) : Apart (pre ++ ⟨b.start,n,false⟩::cs) := by
    refine isChain_append.mpr ⟨hpre,?_,fun c _ d hd => ?_⟩
    · exact isChain_cons.mpr ⟨fun d _ hd => Bool.false_ne_true hd.1,hcs⟩
    · cases hd
      exact fun hboth => Bool.false_ne_true hboth.2
  rw [append_assoc]
  unfold split
  split
  · refine hlive needed _ (isChain_cons.mpr ⟨fun d hd => ?_,hpost⟩)
    have hbd := hhead d hd
    rwa [hfree] at hbd
  · exact hlive b.size post hpost

theorem mem_split_of_used (least : ℕ) (hfit : needed ≤ b.size) :
    ∃ n, needed ≤ n ∧ ∀ d : Block, d.free = false →
      (d ∈ split needed least b ↔ d = ⟨b.start,n,false⟩) := by
  unfold split
  split
  · refine ⟨needed,le_rfl,fun d hd => ?_⟩
    have hne : d ≠ ⟨b.start+needed,b.size-needed,true⟩ := by
      rintro rfl
      exact Bool.false_ne_true hd.symm
    simp [hne]
  · exact ⟨b.size,hfit,fun d _ => mem_singleton⟩

theorem forall_mem_split (hneeded : P needed) (hb : P b.size)
    (hrest : least ≤ b.size-needed → P (b.size-needed)) :
    ∀ c ∈ split needed least b, P c.size := by
  unfold split
  split
  next hle => exact forall_mem_cons.mpr ⟨hneeded,forall_mem_singleton.mpr (hrest hle)⟩
  next => exact forall_mem_singleton.mpr hb

end
end Arena

/-- A tiled interval whose block sizes are all `ok` and whose free blocks are apart. -/
structure Arena (lo hi : ℕ) (ok : ℕ → Prop) where
  blocks : List Arena.Block
  tiles : Arena.Tiles lo blocks hi
  sized : ∀ b ∈ blocks, ok b.size
  apart : Arena.Apart blocks

namespace Arena

variable {lo hi : ℕ} {ok : ℕ → Prop}

def whole (lo n : ℕ) (hok : ok n) : Arena lo (lo+n) ok where
  blocks := [⟨lo,n,true⟩]
  tiles := ⟨rfl,rfl⟩
  sized := forall_mem_singleton.mpr hok
  apart := isChain_singleton _

def released (A : Arena lo hi ok) (hadd : ∀ m n, ok m → ok n → ok (m+n)) (start : ℕ) :
    Arena lo hi ok where
  blocks := release start A.blocks
  tiles := coalesce_tiles (map_freeAt_tiles A.tiles)
  sized := forall_mem_coalesce hadd fun b hb => by
    obtain ⟨c,hc,rfl⟩ := mem_map.mp hb
    rw [freeAt_size]
    exact A.sized c hc
  apart := coalesce_apart

def carved (A : Arena lo hi ok) {needed least : ℕ} (hneeded : ok needed)
    (hrest : ∀ n, ok n → least ≤ n-needed → ok (n-needed)) {pre post : List Block} {b : Block}
    (h : Carved needed least A.blocks pre b post) : Arena lo hi ok where
  blocks := pre ++ split needed least b ++ post
  tiles := by
    have ht := A.tiles
    rw [h.blocks,tiles_append] at ht
    obtain ⟨mid,hpre,hpost⟩ := ht
    rw [append_assoc,tiles_append]
    exact ⟨mid,hpre,split_tiles h.fits hpost⟩
  sized := by
    have hs := A.sized
    rw [h.blocks,forall_mem_append,forall_mem_cons] at hs
    obtain ⟨hpre,hb,hpost⟩ := hs
    rw [forall_mem_append,forall_mem_append]
    exact ⟨⟨hpre,forall_mem_split hneeded hb (hrest b.size hb)⟩,hpost⟩
  apart := split_apart h.free (h.blocks ▸ A.apart)

/-- First fit adds one used block, large enough, at the front of the carved one. -/
theorem mem_carved_of_used {needed least : ℕ} {A : Arena lo hi ok} {hneeded : ok needed}
    {hrest : ∀ n, ok n → least ≤ n-needed → ok (n-needed)} {pre post : List Block}
    {b : Block} (h : Carved needed least A.blocks pre b post) :
    ∃ n, needed ≤ n ∧ ∀ d : Block, d.free = false →
      (d ∈ (A.carved hneeded hrest h).blocks ↔ d = ⟨b.start,n,false⟩ ∨ d ∈ A.blocks) := by
  obtain ⟨n,hn,hsplit⟩ := mem_split_of_used least h.fits
  refine ⟨n,hn,fun d hd => ?_⟩
  have hne : d ≠ b := by
    rintro rfl
    rw [h.free] at hd
    exact Bool.false_ne_true hd.symm
  rw [carved,h.blocks]
  simp only [mem_append,mem_cons,hsplit d hd]
  tauto

end Arena
