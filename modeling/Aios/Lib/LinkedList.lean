import Mathlib.Data.List.Basic

/-!
Singly linked lists in a memory, known by the `next` field: a path, its ends, and the loop that
walks along it with a trailing pointer.
-/
namespace LinkedList

open List
variable {κ : Type*} {next next' : κ → Option κ} {p q r : Option κ} {ks ls : List κ}

/-- Following `next` from `p` visits the cells `ks` and arrives at `q`. -/
def Path (next : κ → Option κ) : Option κ → List κ → Option κ → Prop
  | p, [], q => p = q
  | p, k::ks, q => p = some k ∧ Path next (next k) ks q

@[simp] theorem path_nil : Path next p [] q ↔ p = q := Iff.rfl

@[simp] theorem path_cons {k : κ} :
    Path next p (k::ks) q ↔ p = some k ∧ Path next (next k) ks q := Iff.rfl

theorem path_append : Path next p (ks ++ ls) q ↔ ∃ m, Path next p ks m ∧ Path next m ls q := by
  induction ks generalizing p with
  | nil => simp
  | cons k ks ih =>
    simp only [cons_append,path_cons,ih]
    constructor
    · rintro ⟨hp,m,hks,hls⟩
      exact ⟨m,⟨hp,hks⟩,hls⟩
    · rintro ⟨m,⟨hp,hks⟩,hls⟩
      exact ⟨hp,m,hks,hls⟩

theorem Path.append (h : Path next p ks q) (k : Path next q ls r) : Path next p (ks ++ ls) r :=
  path_append.mpr ⟨q,h,k⟩

theorem Path.congr (h : Path next p ks q) (hc : ∀ k ∈ ks, next' k = next k) :
    Path next' p ks q := by
  induction ks generalizing p with
  | nil => exact h
  | cons k ks ih =>
    refine ⟨h.1,?_⟩
    rw [hc k mem_cons_self]
    exact ih h.2 fun j hj => hc j (mem_cons_of_mem k hj)

theorem Path.head (h : Path next p ks none) : p = ks.head? := by
  cases ks with
  | nil => exact h
  | cons k ks => exact h.1

theorem Path.redirect {k : κ} (h : Path next p (ks ++ [k]) q) (hc : ∀ j ∈ ks, next' j = next j)
    (hk : next' k = r) : Path next' p (ks ++ [k]) r := by
  obtain ⟨m,hks,hm,-⟩ := path_append.mp h
  exact (hks.congr hc).append ⟨hm,hk⟩

/-- A loop along a list, with the cell before the current one, up to the first cell that meets
`stop` or behind the last one. A list that does not end uses up `fuel`. -/
def walk (next : κ → Option κ) (stop : κ → Bool) :
    ℕ → Option κ → Option κ → Option (Option κ × Option κ)
  | _, prev, none => some (prev,none)
  | 0, _, some _ => none
  | fuel+1, prev, some k =>
    if stop k then some (prev,some k) else walk next stop fuel (some k) (next k)

/-- Along a path the loop ends where the cells that do not meet `stop` end. -/
theorem Path.walk {stop : κ → Bool} (h : Path next p (ks ++ ls) none)
    (hks : ∀ k ∈ ks, stop k = false) (hls : ∀ k ∈ ls.head?, stop k = true) {fuel : ℕ}
    (hfuel : ks.length < fuel) (prev : Option κ) :
    LinkedList.walk next stop fuel prev p = some (ks.getLast?.or prev,ls.head?) := by
  induction ks generalizing p prev fuel with
  | nil =>
    rw [h.head]
    cases fuel with
    | zero => exact absurd hfuel (Nat.not_lt_zero _)
    | succ fuel =>
      cases ls with
      | nil => rfl
      | cons k ls => simp [LinkedList.walk,hls k rfl]
  | cons k ks ih =>
    obtain ⟨rfl,hrest⟩ := h
    cases fuel with
    | zero => exact absurd hfuel (Nat.not_lt_zero _)
    | succ fuel =>
      rw [LinkedList.walk,hks k mem_cons_self,if_neg Bool.false_ne_true,
        ih hrest (fun j hj => hks j (mem_cons_of_mem k hj)) (Nat.lt_of_succ_lt_succ hfuel)]
      cases ks with
      | nil => rfl
      | cons j ks => simp [List.getLast?_cons]

end LinkedList
