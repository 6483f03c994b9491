import Mathlib.Data.Finset.Basic

/-!
A queue of items with distinct keys and a set that indexes them. To the index every change of the
queue is a permutation of a change at the head.
-/
namespace KeyedQueue

open List
variable {α κ : Type*} {as rest : List α}

def popFront : List α → Option (α × List α)
  | [] => none
  | a::as => some (a,as)

def popBack (as : List α) : Option (α × List α) := as.getLast?.map fun a => (a,as.dropLast)

/-- The item goes in front of the first one that satisfies `p`, and to the end if none
does. -/
def insertBefore (p : α → Bool) (a : α) (as : List α) : List α :=
  as.insertIdx ((as.findIdx? p).getD as.length) a

theorem popFront_perm {a : α} (h : popFront as = some (a,rest)) : as.Perm (a::rest) := by
  cases as with
  | nil => cases h
  | cons b bs =>
    cases h
    exact List.Perm.refl _

theorem popBack_perm {a : α} (h : popBack as = some (a,rest)) : as.Perm (a::rest) := by
  obtain ⟨b,hb,hpair⟩ := Option.map_eq_some_iff.mp h
  cases hpair
  have hsplit : as.dropLast ++ [a] = as := dropLast_append_getLast? a hb
  conv_lhs => rw [← hsplit]
  exact perm_append_singleton a as.dropLast

theorem popFront_ne_none (h : as ≠ []) : popFront as ≠ none := by
  cases as with
  | nil => exact absurd rfl h
  | cons a as => exact Option.some_ne_none _

theorem popBack_ne_none (h : as ≠ []) : popBack as ≠ none := by
  rw [popBack,Ne,Option.map_eq_none_iff,List.getLast?_eq_none_iff]
  exact h

theorem insertBefore_perm (p : α → Bool) (a : α) (as : List α) :
    (insertBefore p a as).Perm (a::as) := by
  refine perm_insertIdx a as ?_
  cases h : as.findIdx? p with
  | none => exact le_rfl
  | some i => exact (List.findIdx?_eq_some_iff_findIdx_eq.mp h).1.le

section
variable {p : α → Bool} {a b : α}

theorem insertBefore_cons :
    insertBefore p a (b::as) = if p b then a::b::as else b::insertBefore p a as := by
  unfold insertBefore
  rw [findIdx?_cons]
  split
  · rfl
  · cases as.findIdx? p <;> rfl

theorem map_insertBefore {β : Type*} (f : β → α) (c : β) (cs : List β) :
    (insertBefore (fun x => p (f x)) c cs).map f = insertBefore p (f c) (cs.map f) := by
  induction cs with
  | nil => rfl
  | cons x cs ih =>
    rw [map_cons,insertBefore_cons,insertBefore_cons]
    split
    · rfl
    · rw [map_cons,ih]

/-- Where `p` holds of a whole end of the list, the item goes between that end and the rest. -/
theorem pairwise_insertBefore {R : α → α → Prop} (h : as.Pairwise R)
    (hmono : ∀ b c, R b c → p b = true → p c = true) (hfront : ∀ b ∈ as, p b = false → R b a)
    (hback : ∀ b ∈ as, p b = true → R a b) : (insertBefore p a as).Pairwise R := by
  induction as with
  | nil => exact pairwise_singleton R a
  | cons b as ih =>
    obtain ⟨hb,has⟩ := pairwise_cons.mp h
    rw [insertBefore_cons]
    split
    · next hp =>
      refine pairwise_cons.mpr ⟨fun c hc => ?_,h⟩
      rcases mem_cons.mp hc with rfl | hmem
      · exact hback c hc hp
      · exact hback c hc (hmono b c (hb c hmem) hp)
    · next hp =>
      refine pairwise_cons.mpr ⟨fun c hc => ?_,?_⟩
      · rcases mem_cons.mp ((insertBefore_perm p a as).mem_iff.mp hc) with rfl | hmem
        · exact hfront b mem_cons_self (Bool.eq_false_iff.mpr hp)
        · exact hb c hmem
      · apply ih has
        · exact fun c hc => hfront c (mem_cons_of_mem b hc)
        · exact fun c hc => hback c (mem_cons_of_mem b hc)

end

section
variable [DecidableEq κ] {key : α → κ} {bs : List α} {a : α} {index : Finset κ}

structure Indexed (key : α → κ) (as : List α) (index : Finset κ) : Prop where
  nodup : (as.map key).Nodup
  index_eq : index = (as.map key).toFinset

theorem Indexed.nil : Indexed key [] ∅ := ⟨nodup_nil,rfl⟩

theorem Indexed.perm (h : Indexed key as index) (hp : as.Perm bs) : Indexed key bs index where
  nodup := (hp.map key).nodup_iff.mp h.nodup
  index_eq := h.index_eq.trans (toFinset_eq_of_perm _ _ (hp.map key))

theorem Indexed.congr (h : Indexed key as index) (hk : bs.map key = as.map key) :
    Indexed key bs index where
  nodup := hk ▸ h.nodup
  index_eq := hk ▸ h.index_eq

theorem Indexed.cons (h : Indexed key as index) (ha : key a ∉ index) :
    Indexed key (a::as) (insert (key a) index) where
  nodup := by
    rw [h.index_eq,mem_toFinset] at ha
    exact nodup_cons.mpr ⟨ha,h.nodup⟩
  index_eq := by rw [map_cons,toFinset_cons,h.index_eq]

theorem Indexed.tail (h : Indexed key (a::as) index) : Indexed key as (index.erase (key a)) where
  nodup := (nodup_cons.mp h.nodup).2
  index_eq := by
    have ha : key a ∉ (as.map key).toFinset :=
      fun hm => (nodup_cons.mp h.nodup).1 (mem_toFinset.mp hm)
    rw [h.index_eq,map_cons,toFinset_cons,Finset.erase_insert ha]

theorem Indexed.erasePerm (h : Indexed key as index) (hp : as.Perm (a::bs)) :
    Indexed key bs (index.erase (key a)) :=
  (h.perm hp).tail

end
end KeyedQueue
