import Mathlib.Data.List.Infix

/-!
Trees whose nodes are arrays in a store: whether an entry refers to a child depends on its depth. As
long as no node is shared, a write to an entry is seen only by the paths through it.
-/
namespace StoredTree

open List Option
variable {N I E : Type*} (child : ℕ → E → Option N)

def walk (m : N → I → E) : ℕ → N → List I → Option N
  | _, n, [] => some n
  | d, n, i::path => (child d (m n i)).bind fun c => walk m (d+1) c path

/-- The first entry on the path that has no child, with its depth. -/
def leaf (m : N → I → E) : ℕ → N → List I → Option (ℕ × E)
  | _, _, [] => none
  | d, n, i::path =>
    match child d (m n i) with
    | none => some (d,m n i)
    | some c => leaf m (d+1) c path

/-- No node is reached on two paths. -/
def Unshared (m : N → I → E) (root : N) : Prop :=
  ∀ p q n, walk child m 0 root p = some n → walk child m 0 root q = some n → p = q

def Reachable (m : N → I → E) (root n : N) : Prop := ∃ p, walk child m 0 root p = some n

def write [DecidableEq N] [DecidableEq I] (m : N → I → E) (n : N) (i : I) (e : E) : N → I → E :=
  fun n' i' => if n' = n ∧ i' = i then e else m n' i'

variable {child} {m m' : N → I → E} {root n c x : N} {d : ℕ} {i : I} {e : E} {p : List I}

theorem leaf_cons_none (h : child d (m n i) = none) : leaf child m d n (i::p) = some (d,m n i) := by
  rw [leaf,h]

theorem leaf_cons_some (h : child d (m n i) = some c) :
    leaf child m d n (i::p) = leaf child m (d+1) c p := by
  rw [leaf,h]

theorem walk_append (p q : List I) : walk child m d n (p ++ q) =
      (walk child m d n p).bind fun c => walk child m (d+p.length) c q := by
  induction p generalizing d n with
  | nil => rfl
  | cons i p ih =>
    simp only [cons_append,walk,bind_assoc,length_cons]
    refine congrArg _ (funext fun c => ?_)
    rw [ih,Nat.add_right_comm,Nat.add_assoc]

theorem walk_concat (p : List I) (i : I) : walk child m 0 root (p ++ [i]) =
      (walk child m 0 root p).bind fun n => child p.length (m n i) := by
  rw [walk_append]
  refine congrArg _ (funext fun n => ?_)
  rw [Nat.zero_add,walk]
  exact bind_fun_some _

theorem leaf_append (h : walk child m d n p = some c) (q : List I) :
    leaf child m d n (p ++ q) = leaf child m (d+p.length) c q := by
  induction p generalizing d n with
  | nil =>
    cases h
    rfl
  | cons i p ih =>
    obtain ⟨x,hx,hwalk⟩ := bind_eq_some_iff.mp h
    rw [cons_append,leaf_cons_some hx,ih hwalk,length_cons,Nat.add_right_comm,Nat.add_assoc]

theorem walk_congr
    (h : ∀ p n, walk child m 0 root p = some n →
      ∀ i, child p.length (m' n i) = child p.length (m n i)) (p : List I) :
    walk child m' 0 root p = walk child m 0 root p := by
  induction p using reverseRecOn with
  | nil => rfl
  | append_singleton p i ih =>
    rw [walk_concat,walk_concat,ih]
    exact bind_congr fun n hn => h p n hn i

theorem leaf_congr
    (h : ∀ p c, walk child m d n p = some c → ∀ i, m' c i = m c i ∨
      (child (d+p.length) (m c i)).isSome ∧
        child (d+p.length) (m' c i) = child (d+p.length) (m c i)) (p : List I) :
    leaf child m' d n p = leaf child m d n p := by
  induction p generalizing d n with
  | nil => rfl
  | cons i p ih =>
    have hrest (c : N) (hc : child d (m n i) = some c) :
        leaf child m' (d+1) c p = leaf child m (d+1) c p := by
      refine ih fun q x hx j => ?_
      have hj := h (i::q) x (by rw [walk,hc,bind_some,hx]) j
      rwa [length_cons,← Nat.add_assoc,Nat.add_right_comm] at hj
    rcases h [] n rfl i with heq | ⟨hsome,hchild⟩
    · rw [leaf,leaf,heq]
      split
      · rfl
      · next c hc => exact hrest c hc
    · rw [length_nil,Nat.add_zero] at hsome hchild
      obtain ⟨c,hc⟩ := isSome_iff_exists.mp hsome
      rw [leaf,leaf,hchild,hc]
      exact hrest c hc

theorem Unshared.congr (h : Unshared child m root)
    (hw : ∀ p, walk child m' 0 root p = walk child m 0 root p) : Unshared child m' root := by
  intro p q n hp hq
  rw [hw] at hp hq
  exact h p q n hp hq

theorem concat_not_prefix_self (q : List I) (i : I) : ¬ q ++ [i] <+: q := by
  intro h
  have hlen := h.length_le
  rw [length_append,length_singleton] at hlen
  omega

section
variable [DecidableEq N] [DecidableEq I]

@[simp] theorem write_same : write m n i e n i = e := if_pos ⟨rfl,rfl⟩

theorem write_of_ne {n' : N} {i' : I} (h : ¬(n' = n ∧ i' = i)) : write m n i e n' i' = m n' i' :=
  if_neg h

variable {q : List I} (hm : Unshared child m root) (hq : walk child m 0 root q = some n)

include hm hq

omit [DecidableEq N] [DecidableEq I] in
/-- In an unshared tree a step uses the entry `n`, `i` only at the end of `q`. -/
theorem eq_of_uses_entry {j : I} (hp : walk child m 0 root p = some c) (h : c = n ∧ j = i) :
    p ++ [j] = q ++ [i] := by
  obtain ⟨rfl,rfl⟩ := h
  rw [hm p q c hp hq]

theorem walk_write_of_child (he : child q.length e = child q.length (m n i)) (p : List I) :
    walk child (write m n i e) 0 root p = walk child m 0 root p := by
  refine walk_congr (fun p c hp j => ?_) p
  by_cases h : c = n ∧ j = i
  · obtain ⟨rfl,rfl⟩ := h
    rw [write_same,hm p q c hp hq,he]
  · rw [write_of_ne h]

theorem walk_write_elsewhere (hp : ¬ q ++ [i] <+: p) :
    walk child (write m n i e) 0 root p = walk child m 0 root p := by
  induction p using reverseRecOn with
  | nil => rfl
  | append_singleton p j ih =>
    rw [walk_concat,walk_concat,ih fun h => hp (h.trans (prefix_append p [j]))]
    refine bind_congr fun c hc => ?_
    rw [write_of_ne fun h => hp ?_]
    rw [eq_of_uses_entry hm hq hc h]

theorem leaf_write_elsewhere (hp : ¬ q ++ [i] <+: p) :
    leaf child (write m n i e) 0 root p = leaf child m 0 root p := by
  suffices hsuffix : ∀ r s c, walk child m 0 root r = some c → ¬ q ++ [i] <+: r ++ s →
      leaf child (write m n i e) r.length c s = leaf child m r.length c s from
    hsuffix [] p root rfl hp
  intro r s
  induction s generalizing r with
  | nil =>
    intro c _ _
    rfl
  | cons j s ih =>
    intro c hc hpre
    have hsplit : r ++ j::s = (r ++ [j]) ++ s := by rw [append_assoc,singleton_append]
    have hentry : write m n i e c j = m c j :=
      write_of_ne fun h => hpre (by
        rw [hsplit,eq_of_uses_entry hm hq hc h]
        exact prefix_append _ _)
    rw [leaf,leaf,hentry]
    split
    · rfl
    · next x hx =>
      have hwalk : walk child m 0 root (r ++ [j]) = some x := by rw [walk_concat,hc,bind_some,hx]
      have hih := ih (r ++ [j]) x hwalk (by rwa [← hsplit])
      rwa [length_append,length_singleton] at hih

theorem leaf_write_of_child (hx : child q.length (m n i) = some x) (he : child q.length e = some x)
    (p : List I) :
    leaf child (write m n i e) 0 root p = leaf child m 0 root p := by
  refine leaf_congr (fun p c hp j => ?_) p
  by_cases h : c = n ∧ j = i
  · obtain ⟨rfl,rfl⟩ := h
    right
    rw [write_same,Nat.zero_add,hm p q c hp hq,he,hx]
    exact ⟨rfl,rfl⟩
  · exact .inl (write_of_ne h)

theorem leaf_write_through (r : List I) : leaf child (write m n i e) 0 root (q ++ i::r) =
      leaf child (write m n i e) q.length n (i::r) := by
  rw [leaf_append ((walk_write_elsewhere hm hq (concat_not_prefix_self q i)).trans hq),Nat.zero_add]

end

section
variable [DecidableEq N] [DecidableEq I] {q : List I} {f : N} (hm : Unshared child m root)
  (hq : walk child m 0 root q = some n) (hfresh : ¬ Reachable child m root f)
  (he : child q.length e = some f) (hempty : ∀ j, child (q.length+1) (m f j) = none)

include hm hq hfresh he hempty

/-- Linking a fresh empty node adds exactly one path. -/
theorem walk_link (h : walk child (write m n i e) 0 root p = some x) :
    p = q ++ [i] ∧ x = f ∨ walk child m 0 root p = some x := by
  by_cases hp : q ++ [i] <+: p
  · left
    obtain ⟨r,rfl⟩ := hp
    have hfn : f ≠ n := fun heq => hfresh ⟨q,heq ▸ hq⟩
    have hlinked : walk child (write m n i e) 0 root (q ++ [i]) = some f := by
      rw [walk_concat,walk_write_elsewhere hm hq (concat_not_prefix_self q i),hq,
        bind_some,write_same,he]
    rw [walk_append,hlinked,bind_some] at h
    cases r with
    | nil =>
      cases h
      exact ⟨append_nil _,rfl⟩
    | cons j r =>
      rw [walk,write_of_ne fun hh => hfn hh.1] at h
      rw [length_append,length_singleton,Nat.zero_add,hempty] at h
      cases h
  · right
    rwa [walk_write_elsewhere hm hq hp] at h

theorem Unshared.link : Unshared child (write m n i e) root := by
  intro p p' x hp hp'
  rcases walk_link hm hq hfresh he hempty hp with ⟨rfl,rfl⟩ | hold
  · rcases walk_link hm hq hfresh he hempty hp' with ⟨rfl,-⟩ | hold'
    · rfl
    · exact absurd ⟨p',hold'⟩ hfresh
  · rcases walk_link hm hq hfresh he hempty hp' with ⟨rfl,rfl⟩ | hold'
    · exact absurd ⟨p,hold⟩ hfresh
    · exact hm p p' x hold hold'

/-- Behind the new link lies an entry of the fresh node. -/
theorem leaf_link (j : I) (r : List I) :
    leaf child (write m n i e) 0 root (q ++ i::j::r) = some (q.length+1,m f j) := by
  have hfn : f ≠ n := fun heq => hfresh ⟨q,heq ▸ hq⟩
  have hentry : write m n i e f j = m f j := write_of_ne fun hh => hfn hh.1
  have hlinked : child q.length (write m n i e n i) = some f := by rw [write_same,he]
  have hlast : child (q.length+1) (write m n i e f j) = none := by rw [hentry,hempty]
  rw [leaf_write_through hm hq,leaf_cons_some hlinked,leaf_cons_none hlast,hentry]

end
end StoredTree
