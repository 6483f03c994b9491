import Mathlib.Data.List.Sort

/-!
Insertion sort by a total preorder is stable: entries that it does not tell apart keep their order.
A search from the front then finds the first one in both orders.
-/
namespace StableSort

open List
variable {α : Type*} {r s : α → α → Prop} [DecidableRel r]

/-- Before in the sorted list: by the preorder, and by the old order within a tie. -/
def Before (r s : α → α → Prop) (a b : α) : Prop := r a b ∧ (r b a → s a b)

section
variable (htotal : ∀ a b, r a b ∨ r b a) (htrans : ∀ a b c, r a b → r b c → r a c) {l : List α}
include htotal htrans

theorem pairwise_orderedInsert {x : α} (h : l.Pairwise (Before r s)) (hx : ∀ y ∈ l, s x y) :
    (l.orderedInsert r x).Pairwise (Before r s) := by
  induction l with
  | nil => simp
  | cons y ys ih =>
    obtain ⟨hy,hys⟩ := pairwise_cons.mp h
    obtain ⟨hxy,hxys⟩ := forall_mem_cons.mp hx
    by_cases hr : r x y
    · rw [orderedInsert_cons_of_le r ys hr]
      refine pairwise_cons.mpr ⟨fun z hz => ⟨?_,fun _ => hx z hz⟩,h⟩
      rcases mem_cons.mp hz with rfl | hz
      · exact hr
      · exact htrans x y z hr (hy z hz).1
    · rw [orderedInsert_of_not_le r ys hr]
      refine pairwise_cons.mpr ⟨fun z hz => ?_,ih hys hxys⟩
      rcases (mem_orderedInsert r).mp hz with rfl | hz
      · exact ⟨(htotal z y).resolve_left hr,fun hzy => absurd hzy hr⟩
      · exact hy z hz

theorem pairwise_insertionSort (h : l.Pairwise s) : (l.insertionSort r).Pairwise (Before r s) := by
  induction l with
  | nil => simp
  | cons x xs ih =>
    obtain ⟨hx,hxs⟩ := pairwise_cons.mp h
    apply pairwise_orderedInsert htotal htrans (ih hxs)
    intro y hy
    exact hx y ((mem_insertionSort r).mp hy)

end

omit [DecidableRel r] in
/-- What a search finds comes before everything else that it could find. -/
theorem before_of_find? {p : α → Bool} {l : List α} {a b : α} (h : l.Pairwise (Before r s))
    (hfind : l.find? p = some a) (hb : b ∈ l) (hp : p b = true) : b = a ∨ Before r s a b := by
  induction l with
  | nil => cases hb
  | cons x xs ih =>
    obtain ⟨hx,hxs⟩ := pairwise_cons.mp h
    cases hpx : p x with
    | true =>
      obtain rfl : x = a := by simpa [hpx] using hfind
      rcases mem_cons.mp hb with rfl | hb
      · exact .inl rfl
      · exact .inr (hx b hb)
    | false =>
      rw [List.find?_cons_of_neg (by simp [hpx])] at hfind
      rcases mem_cons.mp hb with rfl | hb
      · simp [hpx] at hp
      · exact ih hxs hfind hb

end StableSort
