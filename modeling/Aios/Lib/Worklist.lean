import Aios.Lib.CheckedLoop
import Aios.Lib.Digraph
import Aios.Lib.FiniteMap
import Mathlib.Order.WellFoundedSet

/-!
Topological sorting with a worklist. Every node has a count of its successors that are not in the
result yet; a node with count zero waits in the queue.
-/
namespace Digraph

open CheckedLoop List
variable {α : Type*} [DecidableEq α] {x : α} {l : List α} {next : α → List α}

def Ordered (next : α → List α) (l : List α) : Prop :=
  ∀ x ∈ l, ∀ y ∈ next x, l.idxOf y < l.idxOf x

theorem Ordered.mem (h : Ordered next l) {x y : α} (hx : x ∈ l) (hy : y ∈ next x) : y ∈ l :=
  idxOf_lt_length_iff.mp ((h x hx y hy).trans (idxOf_lt_length_iff.mpr hx))

theorem Ordered.append {x : α} (h : Ordered next l)
    (hx : x ∉ l) (hnext : ∀ y ∈ next x, y ∈ l) : Ordered next (l ++ [x]) := by
  intro z hz y hy
  rw [mem_append,mem_singleton] at hz
  obtain hz | rfl := hz
  · rw [idxOf_append_of_mem (h.mem hz hy),idxOf_append_of_mem hz]
    exact h z hz y hy
  · rw [idxOf_append_of_mem (hnext y hy),idxOf_append_of_notMem hx]
    have hlt := idxOf_lt_length_iff.mpr (hnext y hy)
    omega

structure Worklist (α : Type*) [DecidableEq α] where
  counts : Finmap fun _ : α => ℕ
  queue : List α
  result : List α

namespace Worklist

/-- One more successor of `x` is in the result. -/
def release (w : Worklist α) (x : α) : Worklist α :=
  match w.counts.lookup x with
  | none => w
  | some count =>
    { w with
      counts := w.counts.insert x (count-1)
      queue := if count-1 = 0 then w.queue ++ [x] else w.queue }

/-- One round: the front of the queue goes to the result, and its dependents are released. -/
def round (dependents : Finmap fun _ : α => List α) (w : Worklist α) : Option (Worklist α) :=
  match w.queue with
  | [] => none
  | x::rest =>
    some (((dependents.lookup x).getD []).foldl release
      { w with queue := rest, result := w.result ++ [x] })

theorem round_eq_none (dependents : Finmap fun _ : α => List α) {w : Worklist α} :
    w.round dependents = none ↔ w.queue = [] := by
  unfold round
  split <;> simp [*]

theorem release_lookup (w : Worklist α) (y : α) : (w.release x).counts.lookup y =
      if y = x then (w.counts.lookup y).map (·-1) else w.counts.lookup y := by
  fun_cases release w x with
  | case1 h =>
    split
    · next hy => rw [hy,h]; rfl
    · rfl
  | case2 count h =>
    rw [Finmap.lookup_insert_if]
    split
    · next hy => rw [hy,h]; rfl
    · rfl

@[simp] theorem release_result (w : Worklist α) : (w.release x).result = w.result := by
  unfold release
  split <;> rfl

/-- The node has at most one successor outside the result. -/
def last (w : Worklist α) (x : α) : Bool := (w.counts.lookup x).any (· ≤ 1)

theorem release_queue (w : Worklist α) :
    (w.release x).queue = if w.last x then w.queue ++ [x] else w.queue := by
  unfold release last
  split
  · next h => simp [h]
  · next count h => simp [h,Nat.sub_eq_zero_iff_le]

theorem releaseAll_result (w : Worklist α) (xs : List α) :
    (xs.foldl release w).result = w.result := by
  induction xs generalizing w with
  | nil => rfl
  | cons x xs ih => rw [foldl_cons,ih,release_result]

variable {xs : List α} {x : α}

theorem releaseAll_lookup (hxs : xs.Nodup) (w : Worklist α) (y : α) :
    (xs.foldl release w).counts.lookup y =
      if y ∈ xs then (w.counts.lookup y).map (·-1) else w.counts.lookup y := by
  induction xs generalizing w with
  | nil => simp
  | cons x xs ih =>
    obtain ⟨hx,hxs⟩ := nodup_cons.mp hxs
    rw [foldl_cons,ih hxs,release_lookup]
    by_cases hyx : y = x
    · subst hyx
      simp [hx]
    · simp [hyx]

theorem releaseAll_queue (hxs : xs.Nodup) (w : Worklist α) :
    (xs.foldl release w).queue = w.queue ++ xs.filter w.last := by
  induction xs generalizing w with
  | nil => simp
  | cons x xs ih =>
    obtain ⟨hx,hxs⟩ := nodup_cons.mp hxs
    -- Releasing `x` does not change the counts of the others.
    have hlast : xs.filter (w.release x).last = xs.filter w.last := by
      refine filter_congr fun y hy => ?_
      have hne : y ≠ x := fun h => hx (h ▸ hy)
      rw [last,release_lookup,if_neg hne,last]
    rw [foldl_cons,ih hxs,hlast,release_queue,filter_cons]
    split <;> simp

variable (next : α → List α) (nodes : Finset α)

/-- The counts are those of the successors outside the result, the nodes without such are in the
result or in the queue, and the result is ordered. -/
structure Consistent (w : Worklist α) : Prop where
  counts : ∀ x, w.counts.lookup x =
    if x ∈ nodes then some ((next x).filter (· ∉ w.result)).length else none
  nodup : (w.result ++ w.queue).Nodup
  ready : ∀ x, x ∈ w.result ++ w.queue ↔ x ∈ nodes ∧ ∀ y ∈ next x, y ∈ w.result
  ordered : Ordered next w.result

/-- The dependents of every node are listed, each once. -/
def Reverses (dependents : Finmap fun _ : α => List α) : Prop :=
  ∀ x, ((dependents.lookup x).getD []).Nodup ∧
    ∀ y, y ∈ (dependents.lookup x).getD [] ↔ y ∈ nodes ∧ x ∈ next y

variable {next nodes} {dependents : Finmap fun _ : α => List α} {w : Worklist α}

theorem Consistent.last_iff (h : w.Consistent next nodes) :
    w.last x = true ↔ x ∈ nodes ∧ ((next x).filter (· ∉ w.result)).length ≤ 1 := by
  rw [last,h.counts]
  split <;> simp [*]

omit [DecidableEq α] in
private theorem length_le_one_iff (hx : x ∈ l) : l.length ≤ 1 ↔ l = [x] := by
  constructor
  · intro h
    obtain ⟨y,rfl⟩ := length_eq_one_iff.mp (le_antisymm h (length_pos_of_mem hx))
    rw [mem_singleton.mp hx]
  · rintro rfl
    exact le_rfl

/-- A dependent of `x` has its last open successor in `x` precisely if all others are in the
result. -/
theorem Consistent.last_dependent_iff (h : w.Consistent next nodes) (hnext : ∀ x, (next x).Nodup)
    {y : α} (hx : x ∉ w.result) (hy : y ∈ nodes) (hxy : x ∈ next y) :
    w.last y = true ↔ ∀ z ∈ next y, z ∈ w.result ++ [x] := by
  have hopen : x ∈ (next y).filter (· ∉ w.result) := by simp [hxy,hx]
  rw [h.last_iff,length_le_one_iff hopen]
  constructor
  · rintro ⟨-,hsingle⟩ z hz
    by_cases hres : z ∈ w.result
    · exact mem_append_left _ hres
    · have hmem : z ∈ (next y).filter (· ∉ w.result) := by simp [hz,hres]
      rw [hsingle] at hmem
      exact mem_append_right _ hmem
  · intro hall
    refine ⟨hy,perm_singleton.mp ?_⟩
    refine (perm_ext_iff_of_nodup ((hnext y).filter _) (nodup_singleton x)).mpr ?_
    intro z
    rw [mem_filter,mem_singleton]
    constructor
    · rintro ⟨hz,hres⟩
      have := hall z hz
      simp_all
    · rintro rfl
      simp [hxy,hx]

theorem length_filter_append (hnext : ∀ x, (next x).Nodup) (hx : x ∉ w.result) (y : α) :
    ((next y).filter (· ∉ w.result ++ [x])).length =
      if x ∈ next y then ((next y).filter (· ∉ w.result)).length-1
      else ((next y).filter (· ∉ w.result)).length := by
  have hsplit : (next y).filter (· ∉ w.result ++ [x]) =
      ((next y).filter (· ∉ w.result)).erase x := by
    rw [((hnext y).filter _).erase_eq_filter,filter_filter]
    refine filter_congr fun z _ => ?_
    by_cases hz : z = x <;> simp [hz]
  rw [hsplit,length_erase]
  simp [hx]

section
variable (h : w.Consistent next nodes)
include h

theorem Consistent.round (hnext : ∀ x, (next x).Nodup) (hrev : Reverses next nodes dependents)
    {w' : Worklist α} (hround : w.round dependents = some w') :
    w'.Consistent next nodes ∧ w'.result.length = w.result.length+1 := by
  unfold Worklist.round at hround
  split at hround
  · cases hround
  next x rest hqueue =>
  obtain ⟨hdep,hmem⟩ := hrev x
  generalize (dependents.lookup x).getD [] = xs at *
  cases hround
  have hsplit : w.result ++ w.queue = (w.result ++ [x]) ++ rest := by simp [hqueue]
  have hnodup : ((w.result ++ [x]) ++ rest).Nodup := hsplit ▸ h.nodup
  have hx : x ∉ w.result := fun hx =>
    (nodup_append.mp (nodup_append.mp hnodup).1).2.2 x hx x (by simp) rfl
  obtain ⟨-,hxnext⟩ := (h.ready x).mp (by simp [hqueue])
  -- The state between taking `x` off the queue and releasing its dependents.
  have hqueue' := releaseAll_queue hdep { w with queue := rest, result := w.result ++ [x] }
  have hresult' := releaseAll_result { w with queue := rest, result := w.result ++ [x] } xs
  have hnew : ∀ y ∈ xs.filter w.last, y ∉ w.result ++ w.queue := by
    intro y hy hold
    rw [mem_filter,hmem] at hy
    exact hx (((h.ready y).mp hold).2 x hy.1.2)
  refine ⟨⟨fun y => ?_,?_,fun y => ?_,?_⟩,?_⟩
  · rw [releaseAll_lookup hdep,hresult']
    simp only [h.counts,length_filter_append hnext hx,hmem]
    by_cases hy : y ∈ nodes <;> by_cases hxy : x ∈ next y <;> simp [hy,hxy]
  · rw [hqueue',hresult',← append_assoc,← hsplit]
    refine nodup_append.mpr ⟨h.nodup,hdep.filter _,?_⟩
    rintro y hy _ hz rfl
    exact hnew y hz hy
  · rw [hqueue',hresult',← append_assoc,← hsplit,mem_append,h.ready,mem_filter,hmem]
    constructor
    · rintro (⟨hy,hall⟩ | ⟨⟨hy,hxy⟩,hlast⟩)
      · exact ⟨hy,fun z hz => mem_append_left _ (hall z hz)⟩
      · exact ⟨hy,(h.last_dependent_iff hnext hx hy hxy).mp hlast⟩
    · rintro ⟨hy,hall⟩
      by_cases hxy : x ∈ next y
      · exact .inr ⟨⟨hy,hxy⟩,(h.last_dependent_iff hnext hx hy hxy).mpr hall⟩
      · refine .inl ⟨hy,fun z hz => ?_⟩
        have hne : z ≠ x := fun hzx => hxy (hzx ▸ hz)
        simpa [hne] using hall z hz
  · rw [hresult']
    exact h.ordered.append hx hxnext
  · rw [hresult']
    simp

theorem Consistent.length_le : w.result.length ≤ nodes.card := by
  have hsub : w.result.toFinset ⊆ nodes := by
    intro x hx
    exact ((h.ready x).mp (mem_append_left _ (mem_toFinset.mp hx))).1
  rw [← toFinset_card_of_nodup (nodup_append.mp h.nodup).1]
  exact Finset.card_le_card hsub

/-- The loop ends after at most as many rounds as there are nodes. -/
theorem Consistent.settled (hnext : ∀ x, (next x).Nodup) (hrev : Reverses next nodes dependents) :
    (settle (Worklist.round dependents) nodes.card w).Consistent next nodes ∧
      (settle (Worklist.round dependents) nodes.card w).queue = [] := by
  rw [← round_eq_none dependents]
  refine settle_of_invariant (m := fun w => nodes.card-w.result.length)
    (fun s t hs ht => ?_) h (Nat.sub_le _ _)
  obtain ⟨hcons,hlen⟩ := hs.round hnext hrev ht
  have hle := hcons.length_le
  exact ⟨hcons,by omega⟩

/-- In an acyclic graph that contains the successors of its nodes, the nodes left out of the
result are without a last one. -/
theorem Consistent.mem_result_iff (hqueue : w.queue = []) (hacyclic : Acyclic next)
    (hclosed : ∀ x ∈ nodes, ∀ y ∈ next x, y ∈ nodes) : x ∈ w.result ↔ x ∈ nodes := by
  have hready : ∀ x, x ∈ w.result ↔ x ∈ nodes ∧ ∀ y ∈ next x, y ∈ w.result := by
    simpa [hqueue] using h.ready
  refine ⟨fun hx => ((hready x).mp hx).1,fun hx => ?_⟩
  have : IsStrictOrder α fun y x => Relation.TransGen (Edge next) x y :=
    { irrefl := hacyclic, trans := fun _ _ _ hab hbc => hbc.trans hab }
  refine (nodes.wellFoundedOn (r := fun y x => Relation.TransGen (Edge next) x y)).induction
    (P := (· ∈ w.result)) hx fun x hx ih => ?_
  exact (hready x).mpr ⟨hx,fun y hy => ih y (hclosed x hx y hy) (.single hy)⟩

end
end Worklist
end Digraph
