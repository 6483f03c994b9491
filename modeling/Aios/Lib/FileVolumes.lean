import Aios.Lib.FileCalls
import Mathlib.Data.List.Dedup

/-!
Trees with finitely many objects, so that directories can be listed and removed once they are empty.
-/
namespace FileTree

open List
variable {ν : Type*} [DecidableEq ν]

/-- A tree with a list of locations, among them all at which there is something. -/
structure Volume (ν : Type*) where
  disk : Disk ν
  locs : List (List ν)
  covers : ∀ loc, disk.node loc ≠ none → loc ∈ locs

section
variable {t : Disk ν} {links : ℕ} {p loc : List ν} {node : Node ν}

/-- The tree is as before at every location that was not touched. -/
def Effect.Frames (t : Disk ν) (e : Effect ν) : Prop :=
  ∀ loc ∉ e.touched, e.tree.node loc = t.node loc

omit [DecidableEq ν] in
theorem Effect.frames_refl (ok : Bool) : Effect.Frames t ⟨t,[],ok⟩ := fun _ _ => rfl

theorem unlink_frames : (unlink t links p).Frames t := by
  unfold unlink
  split
  · exact Effect.frames_refl false
  · split
    · exact Effect.frames_refl false
    · exact fun loc hloc => if_neg (by simpa using hloc)

theorem entry_object (h : entry t links p = some loc) (hnode : t.node p = some node) : loc = p := by
  have hne : p ≠ [] := by
    rintro rfl
    cases h
  exact Option.some.inj (h.symm.trans (entry_real hnode hne))

theorem unlink_node (h : (unlink t links p).ok = true) (hnode : t.node p = some node) (l : List ν) :
    (unlink t links p).tree.node l = if l = p then none else t.node l := by
  unfold unlink at h ⊢
  split at h
  · cases h
  · next loc hentry =>
    obtain rfl := entry_object hentry hnode
    split at h
    · cases h
    · next hleaf =>
      rw [dif_neg hleaf]
      rfl

end

namespace Volume

variable {loc d : List ν}

section
variable (v : Volume ν) (links : ℕ) (p : List ν)

def bare : Volume ν where
  disk := Disk.bare
  locs := [[]]
  covers loc h := by
    by_contra hne
    exact h (if_neg (by simpa using hne))

/-- The names in a directory, in some order. -/
def names (d : List ν) : List ν :=
  ((v.locs.filter fun loc => (v.disk.node loc).isSome).filterMap fun loc =>
    if loc.dropLast = d then loc.getLast? else none).dedup

def after (e : Effect ν) (h : e.Frames v.disk) : Volume ν where
  disk := e.tree
  locs := v.locs ++ e.touched
  covers loc hloc := by
    by_cases htouched : loc ∈ e.touched
    · exact mem_append_right _ htouched
    · rw [h loc htouched] at hloc
      exact mem_append_left _ (v.covers loc hloc)

def put (d : List ν) (n : ν) (node : Node ν) (hd : v.disk.node d = some .dir)
    (hleaf : v.disk.node (d ++ [n]) ≠ some .dir) : Volume ν :=
  v.after ⟨v.disk.put d n node hd hleaf,[d ++ [n]],true⟩ fun _ hloc =>
    if_neg (by simpa using hloc)

def unlink : Volume ν := v.after (FileTree.unlink v.disk links p) unlink_frames

theorem mem_names {n : ν} : n ∈ v.names d ↔ v.disk.node (d ++ [n]) ≠ none := by
  unfold names
  simp only [mem_dedup,mem_filterMap,mem_filter,Option.isSome_iff_ne_none]
  constructor
  · rintro ⟨loc,⟨-,hloc⟩,hlast⟩
    split_ifs at hlast with hd
    cases loc using reverseRecOn with
    | nil => simp at hlast
    | append_singleton loc m =>
      rw [dropLast_concat] at hd
      rw [getLast?_concat,Option.some_inj] at hlast
      rwa [← hd,← hlast]
  · intro h
    exact ⟨d ++ [n],⟨v.covers _ h,h⟩,by simp⟩

theorem empty_of_names (h : v.names d = []) (n : ν) : v.disk.node (d ++ [n]) = none := by
  by_contra hn
  have hmem := v.mem_names.mpr hn
  rw [h] at hmem
  cases hmem

def removeDir (loc : List ν) (hne : loc ≠ []) (hempty : v.names loc = []) : Volume ν where
  disk :=
    { node := fun l => if l = loc then none else v.disk.node l
      root := by
        rw [if_neg (Ne.symm hne)]
        exact v.disk.root
      parent := fun l m h => by
        split at h
        · exact absurd rfl h
        · have hl := v.disk.parent l m h
          have hother : l ≠ loc := by
            rintro rfl
            exact h (v.empty_of_names hempty m)
          rw [if_neg hother]
          exact hl }
  locs := v.locs
  covers l h := v.covers l fun hnone => h (by dsimp only; split <;> [rfl; exact hnone])

/-- `rmdir`: there is none where the path is no empty directory. -/
def rmdir : Option (Volume ν) :=
  match entry v.disk links p with
  | none => none
  | some loc =>
    if h : loc ≠ [] ∧ v.disk.node loc = some .dir ∧ v.names loc = [] then
      some (v.removeDir loc h.1 h.2.2)
    else none

theorem rmdir_node {v' : Volume ν} {node : Node ν} (h : v.rmdir links p = some v')
    (hnode : v.disk.node p = some node) (l : List ν) :
    v'.disk.node l = if l = p then none else v.disk.node l := by
  unfold rmdir at h
  split at h
  · cases h
  · next loc hentry =>
    obtain rfl := entry_object hentry hnode
    obtain ⟨_,heq⟩ := Option.dite_none_right_eq_some.mp h
    cases heq
    rfl

end
end Volume
end FileTree
