import Aios.Lib.FiniteMap
import Mathlib.Data.List.Sort

/-!
The keys of a finite map as a list: in ascending order, or in any order that an iteration may
have.
-/
namespace Finmap

open List

variable {κ ν : Type*} [LinearOrder κ]

variable (m : Finmap fun _ : κ => ν)

def sortedKeys : List κ :=
  Quotient.liftOn m.keys.val (fun l => l.insertionSort (· ≤ ·)) fun l l' h =>
    List.Perm.eq_of_pairwise (fun _ _ _ _ hab hba => le_antisymm hab hba)
      (pairwise_insertionSort _ l) (pairwise_insertionSort _ l')
      ((perm_insertionSort _ l).trans (h.trans (perm_insertionSort _ l').symm))

theorem coe_sortedKeys : (m.sortedKeys : Multiset κ) = m.keys.val := by
  unfold sortedKeys
  generalize m.keys.val = s
  induction s using Quotient.inductionOn with
  | h l => exact Multiset.coe_eq_coe.mpr (perm_insertionSort _ l)

theorem mem_sortedKeys {m : Finmap fun _ : κ => ν} {k : κ} : k ∈ m.sortedKeys ↔ k ∈ m := by
  rw [← Multiset.mem_coe,coe_sortedKeys,Finset.mem_val,mem_keys]

theorem nodup_sortedKeys : m.sortedKeys.Nodup := by
  rw [← Multiset.coe_nodup,coe_sortedKeys]
  exact m.keys.nodup

theorem pairwise_sortedKeys : m.sortedKeys.Pairwise (· < ·) := by
  have hle : m.sortedKeys.Pairwise (· ≤ ·) := by
    unfold sortedKeys
    generalize m.keys.val = s
    induction s using Quotient.inductionOn with
    | h l => exact pairwise_insertionSort _ l
  exact (hle.and m.nodup_sortedKeys).imp fun h => lt_of_le_of_ne h.1 h.2

theorem getLast?_eq_some_iff_of_ascending {l : List κ} {k : κ}
    (h : l.Pairwise (· < ·)) : l.getLast? = some k ↔ k ∈ l ∧ ∀ j ∈ l, j ≤ k := by
  rcases l.eq_nil_or_concat' with rfl | ⟨init,last,rfl⟩
  · simp
  · obtain ⟨-,-,hlast⟩ := pairwise_append.mp h
    have hgreatest : ∀ j ∈ init ++ [last], j ≤ last := by
      intro j hj
      rcases mem_append.mp hj with hj | hj
      · exact (hlast j hj last (mem_singleton_self last)).le
      · exact (List.mem_singleton.mp hj).le
    rw [getLast?_concat,Option.some_inj]
    constructor
    · rintro rfl
      exact ⟨by simp,hgreatest⟩
    · rintro ⟨hmem,hk⟩
      exact le_antisymm (hk last (by simp)) (hgreatest k hmem)

structure Iteration (κ : Type*) where
  order : List κ → List κ
  perm : ∀ keys, (order keys).Perm keys

def Iteration.ascending : Iteration κ := ⟨id,fun _ => .refl _⟩

def keysIn (i : Iteration κ) : List κ := i.order m.sortedKeys

end Finmap
