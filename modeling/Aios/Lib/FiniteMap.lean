import Mathlib.Data.Finmap
import Mathlib.Algebra.BigOperators.Group.Finset.Basic

/-!
Finite maps with a value type that does not depend on the key: updates in place, lookup equations
and weighted sums. Code that iterates takes an enumeration of the keys.
-/
namespace Finmap

open Multiset

variable {κ ν : Type*} [DecidableEq κ]

variable (m : Finmap fun _ : κ => ν) (k j : κ)

theorem lookup_insert_if (v : ν) :
    (m.insert k v).lookup j = if j = k then some v else m.lookup j := by
  split
  next h =>
    subst h
    exact lookup_insert m
  next h => exact lookup_insert_of_ne m h

theorem lookup_erase_if : (m.erase k).lookup j = if j = k then none else m.lookup j := by
  split
  next h =>
    subst h
    exact lookup_erase j m
  next h => exact lookup_erase_ne h

/-- Replace the value at `k`, when there is one. -/
def adjust (k : κ) (f : ν → ν) (m : Finmap fun _ : κ => ν) : Finmap fun _ : κ => ν :=
  match m.lookup k with
  | none => m
  | some v => m.insert k (f v)

theorem lookup_adjust (f : ν → ν) :
    (m.adjust k f).lookup j = if j = k then (m.lookup j).map f else m.lookup j := by
  unfold adjust
  by_cases hj : j = k
  · subst hj
    cases h : m.lookup j with
    | none => simp [h]
    | some v => simp
  · cases m.lookup k with
    | none => simp [hj]
    | some v => simp [hj]

section

variable {m : Finmap fun _ : κ => ν}

theorem adjust_eq_insert_erase {k : κ} {v : ν} (f : ν → ν) (h : m.lookup k = some v) :
    m.adjust k f = (m.erase k).insert k (f v) := by
  apply ext_lookup
  intro j
  rw [lookup_adjust,lookup_insert_if,lookup_erase_if]
  split
  next hj => rw [hj,h]; rfl
  next => rfl

theorem mem_iff_lookup_ne_none {k : κ} : k ∈ m ↔ m.lookup k ≠ none := by
  rw [Ne,lookup_eq_none,not_not]

theorem mem_adjust {k j : κ} {f : ν → ν} : j ∈ m.adjust k f ↔ j ∈ m := by
  rw [mem_iff_lookup_ne_none,mem_iff_lookup_ne_none,lookup_adjust]
  split <;> simp

/-- A change of one value is not seen through a function that it preserves. -/
theorem map_lookup_adjust {α : Type*} {k : κ} {f : ν → ν} {w : ν → α} (hf : ∀ v, w (f v) = w v)
    (j : κ) : ((m.adjust k f).lookup j).map w = (m.lookup j).map w := by
  rw [lookup_adjust]
  split
  · simp only [Option.map_map,Function.comp_def,hf]
  · rfl

end

/-- Store `v` at `k` unless there is a value already. -/
def orInsert (k : κ) (v : ν) (m : Finmap fun _ : κ => ν) : Finmap fun _ : κ => ν :=
  m.insert k ((m.lookup k).getD v)

theorem lookup_orInsert (v : ν) :
    (m.orInsert k v).lookup j = if j = k then some ((m.lookup j).getD v) else m.lookup j := by
  rw [orInsert,lookup_insert_if]
  split
  next h => rw [h]
  next => rfl

theorem mem_orInsert {m : Finmap fun _ : κ => ν} {k j : κ} {v : ν} :
    j ∈ m.orInsert k v ↔ j = k ∨ j ∈ m := mem_insert

/-- Append `v` to the list at `k`, which is empty as long as nothing is stored there. -/
def push (k : κ) (v : ν) (m : Finmap fun _ : κ => List ν) : Finmap fun _ : κ => List ν :=
  m.insert k ((m.lookup k).getD [] ++ [v])

theorem getD_lookup_push (m : Finmap fun _ : κ => List ν) (k j : κ) (v : ν) :
    ((m.push k v).lookup j).getD [] =
      if j = k then (m.lookup j).getD [] ++ [v] else (m.lookup j).getD [] := by
  rw [push,lookup_insert_if]
  split
  next h => rw [h]; rfl
  next => rfl

def mapValues (f : ν → ν) (m : Finmap fun _ : κ => ν) : Finmap fun _ : κ => ν :=
  m.liftOn (fun l => (⟨l.entries.map (.map id fun _ => f),l.nodupKeys.map₂ _⟩ : AList _).toFinmap)
    fun _ _ h => AList.toFinmap_eq.mpr (h.map _)

theorem lookup_mapValues (k : κ) (f : ν → ν) : (m.mapValues f).lookup k = (m.lookup k).map f := by
  induction m using Finmap.induction_on with
  | H l => exact List.dlookup_map₂ k

theorem mem_mapValues {m : Finmap fun _ : κ => ν} {k : κ} {f : ν → ν} :
    k ∈ m.mapValues f ↔ k ∈ m := by
  rw [mem_iff_lookup_ne_none,mem_iff_lookup_ne_none,lookup_mapValues]
  simp

def retain (p : κ → ν → Bool) (m : Finmap fun _ : κ => ν) : Finmap fun _ : κ => ν where
  entries := m.entries.filter fun entry => p entry.1 entry.2
  nodupKeys := nodup_keys.mp (nodup_of_le
    (map_le_map (filter_le _ _)) (nodup_keys.mpr m.nodupKeys))

theorem lookup_retain (p : κ → ν → Bool) (k : κ) :
    (m.retain p).lookup k = (m.lookup k).filter (p k) := by
  apply Option.ext
  intro v
  have hretain : v ∈ (m.retain p).lookup k ↔ v ∈ m.lookup k ∧ p k v = true := by
    rw [mem_lookup_iff,mem_lookup_iff]
    exact mem_filter
  rw [← Option.mem_def,← Option.mem_def,hretain,Option.mem_filter_iff]

def total (w : ν → ℕ) (m : Finmap fun _ : κ => ν) : ℕ :=
  ∑ k ∈ m.keys, ((m.lookup k).map w).getD 0

/-- The total only depends on the weight found at each key. -/
theorem total_congr {m m' : Finmap fun _ : κ => ν} {w : ν → ℕ}
    (h : ∀ k, (m'.lookup k).map w = (m.lookup k).map w) : total w m' = total w m := by
  have hkeys : m'.keys = m.keys := by
    ext k
    have hk := congrArg Option.isSome (h k)
    simp only [Option.isSome_map] at hk
    rw [mem_keys,mem_keys,← lookup_isSome,← lookup_isSome,hk]
  unfold total
  rw [hkeys]
  exact Finset.sum_congr rfl fun k _ => by rw [h k]

section

variable {m : Finmap fun _ : κ => ν} {k : κ}

theorem total_insert (v : ν) (w : ν → ℕ) (h : k ∉ m) : total w (m.insert k v) = w v+total w m := by
  have hkeys : (m.insert k v).keys = Insert.insert k m.keys := by
    ext j
    rw [mem_keys,mem_insert,Finset.mem_insert,mem_keys]
  unfold total
  rw [hkeys,Finset.sum_insert (by rwa [mem_keys]),lookup_insert]
  congr 1
  apply Finset.sum_congr rfl
  intro j hj
  have hne : j ≠ k := by
    rintro rfl
    exact h (mem_keys.mp hj)
  rw [lookup_insert_of_ne _ hne]

theorem insert_erase_self {v : ν} (h : m.lookup k = some v) : (m.erase k).insert k v = m := by
  apply ext_lookup
  intro j
  rw [lookup_insert_if,lookup_erase_if]
  split
  next hj => rw [hj,h]
  next => rfl

theorem erase_of_lookup_eq_none (h : m.lookup k = none) : m.erase k = m := by
  apply ext_lookup
  intro j
  rw [lookup_erase_if]
  split
  next hj => rw [hj,h]
  next => rfl

theorem total_erase {v : ν} (w : ν → ℕ) (h : m.lookup k = some v) :
    w v+total w (m.erase k) = total w m := by
  rw [← total_insert v w notMem_erase_self,insert_erase_self h]

end

/-- `order` visits every key of the map exactly once: one possible iteration order. -/
def Enumerates (order : List κ) (m : Finmap fun _ : κ => ν) : Prop :=
  order.Nodup ∧ ∀ k, k ∈ order ↔ k ∈ m

instance (order : List κ) (m : Finmap fun _ : κ => ν) : Decidable (Enumerates order m) :=
  decidable_of_iff (order.Nodup ∧ order.toFinset = m.keys) (by
    simp [Enumerates,Finset.ext_iff,mem_keys])

omit [DecidableEq κ] in
theorem exists_enumerates : ∃ order, Enumerates order m :=
  ⟨m.keys.toList,m.keys.nodup_toList,fun k => by rw [Finset.mem_toList,mem_keys]⟩

end Finmap
