import Mathlib.Data.List.Basic

/-!
Lists of entries with a key each. Where no key occurs twice, such a list is the partial function
from keys to entries.
-/
namespace Keyed

open List
variable {α κ : Type*} {key : α → κ} {l : List α} {a : α} {k k' : κ} {f : α → α} {p : α → Bool}

/-- The first entry that passes is changed. -/
def updateFirst (p : α → Bool) (f : α → α) : List α → List α
  | [] => []
  | a::as => if p a then f a::as else a::updateFirst p f as

theorem map_key_updateFirst (hf : ∀ a, key (f a) = key a) :
    (updateFirst p f l).map key = l.map key := by
  induction l with
  | nil => rfl
  | cons a l ih =>
    rw [updateFirst]
    split <;> simp [hf,ih]

theorem updateFirst_eq_self (h : l.find? p = none) : updateFirst p f l = l := by
  induction l with
  | nil => rfl
  | cons a l ih =>
    obtain ⟨ha,hl⟩ : p a = false ∧ l.find? p = none := by simpa using h
    simp [updateFirst,ha,ih hl]

variable [DecidableEq κ]

def entry (key : α → κ) (k : κ) (l : List α) : Option α := l.find? fun a => key a = k

@[simp] theorem entry_cons {as : List α} :
    entry key k (a::as) = if key a = k then some a else entry key k as := by
  by_cases h : key a = k <;> simp [entry,h]

theorem mem_of_entry (h : entry key k l = some a) : a ∈ l ∧ key a = k :=
  ⟨mem_of_find?_eq_some h,by simpa using find?_some h⟩

theorem entry_eq_none : entry key k l = none ↔ k ∉ l.map key := by simp [entry]

theorem entry_eq_some (hl : (l.map key).Nodup) : entry key k l = some a ↔ a ∈ l ∧ key a = k := by
  refine ⟨mem_of_entry,?_⟩
  rintro ⟨ha,rfl⟩
  induction l with
  | nil => cases ha
  | cons b l ih =>
    obtain ⟨hb,hl⟩ := nodup_cons.mp hl
    rcases mem_cons.mp ha with rfl | ha
    · simp
    · have hne : key b ≠ key a := fun h => hb (h ▸ mem_map_of_mem ha)
      simp [hne,ih hl ha]

/-- Where no key occurs twice, an entry that is found otherwise is found by its key. -/
theorem updateFirst_eq_update (hl : (l.map key).Nodup) (h : l.find? p = some a) :
    updateFirst p f l = updateFirst (fun b => key b = key a) f l := by
  induction l with
  | nil => rfl
  | cons b l ih =>
    obtain ⟨hb,hl⟩ := nodup_cons.mp hl
    rw [find?_cons] at h
    cases hp : p b with
    | true =>
      simp only [hp,Option.some.injEq] at h
      simp [updateFirst,hp,← h]
    | false =>
      simp only [hp] at h
      have hne : key b ≠ key a := fun he => hb (he ▸ mem_map_of_mem (mem_of_find?_eq_some h))
      simp [updateFirst,hp,hne,ih hl h]

theorem entry_update (hf : ∀ a, key (f a) = key a) :
    entry key k' (updateFirst (fun a => key a = k) f l) =
      if k' = k then (entry key k l).map f else entry key k' l := by
  induction l with
  | nil => simp [updateFirst,entry]
  | cons a l ih =>
    by_cases ha : key a = k
    · simp only [updateFirst,ha,decide_true,if_true,entry_cons,hf]
      grind
    · simp only [updateFirst,ha,decide_false,Bool.false_eq_true,if_false,entry_cons,ih]
      grind

theorem entry_map (hf : ∀ a, key (f a) = key a) :
    entry key k (l.map f) = (entry key k l).map f := by
  induction l with
  | nil => rfl
  | cons a l ih =>
    rw [map_cons,entry_cons,entry_cons,hf,ih]
    split <;> rfl

theorem entry_append_singleton (h : entry key k' l = none) (ha : key a = k') :
    entry key k (l ++ [a]) = if k = k' then some a else entry key k l := by
  by_cases hk : k = k'
  · subst hk
    simp [entry,show l.find? _ = none from h,ha]
  · simp [entry,hk,ha,Ne.symm hk]

end Keyed
