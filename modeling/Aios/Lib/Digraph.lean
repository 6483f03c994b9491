import Mathlib.Data.Finset.Card

/-!
Directed graphs by lists of successors: reachability, a depth-first search that carries the visited
nodes, and acyclicity under the addition and removal of edges.
-/
namespace Digraph

open Finset
variable {α : Type*} {found : Bool} {fuel : ℕ} {x : α}

def Edge (next : α → List α) (x y : α) : Prop := y ∈ next x

def Reaches (next : α → List α) : α → α → Prop := Relation.ReflTransGen (Edge next)

def Acyclic (next : α → List α) : Prop := ∀ x, ¬ Relation.TransGen (Edge next) x x

section
variable {next next' : α → List α} {b d : α}

theorem Acyclic.mono (h : Acyclic next) (hsub : ∀ x y, Edge next' x y → Edge next x y) :
    Acyclic next' :=
  fun x hx => h x (Relation.TransGen.mono hsub x x hx)

theorem acyclic_of_noEdge (h : ∀ x, next x = []) : Acyclic next := by
  intro x hx
  cases hx with
  | single hedge | tail _ hedge => simp [Edge,h] at hedge

/-- A path with the new edge either does without it, or goes to its source and comes from
its target. -/
theorem transGen_addEdge (hback : ¬ Reaches next d b)
    (hsub : ∀ x y, Edge next' x y → Edge next x y ∨ x = b ∧ y = d) {y : α}
    (h : Relation.TransGen (Edge next') x y) :
    Relation.TransGen (Edge next) x y ∨ Reaches next x b ∧ Reaches next d y := by
  induction h with
  | single hxy =>
    obtain hold | ⟨rfl,rfl⟩ := hsub _ _ hxy
    · exact .inl (.single hold)
    · exact .inr ⟨.refl,.refl⟩
  | tail _ hyz ih =>
    obtain hold | ⟨rfl,rfl⟩ := hsub _ _ hyz
    · obtain hpath | ⟨hto,hfrom⟩ := ih
      · exact .inl (hpath.tail hold)
      · exact .inr ⟨hto,hfrom.tail hold⟩
    · obtain hpath | ⟨-,hfrom⟩ := ih
      · exact .inr ⟨hpath.to_reflTransGen,.refl⟩
      · exact absurd hfrom hback

theorem Acyclic.addEdge (h : Acyclic next) (hback : ¬ Reaches next d b)
    (hsub : ∀ x y, Edge next' x y → Edge next x y ∨ x = b ∧ y = d) : Acyclic next' := by
  intro x hx
  obtain hpath | ⟨hto,hfrom⟩ := transGen_addEdge hback hsub hx
  · exact h x hpath
  · exact hback (hfrom.trans hto)

end

section
variable [DecidableEq α] (next : α → List α) (goal : α)

/-- The nodes of a list that were not yet visited, one after the other, until `visit` finds
the goal from one of them. -/
def scan (visit : α → Finset α → Option (Bool × Finset α)) :
    List α → Finset α → Option (Bool × Finset α)
  | [], visited => some (false,visited)
  | x::xs, visited =>
    if x ∈ visited then scan visit xs visited
    else
      match visit x (insert x visited) with
      | none => none
      | some (true,visited) => some (true,visited)
      | some (false,visited) => scan visit xs visited

/-- The search for `goal` from a visited node: whether it was found, and the nodes visited then;
`none` if the recursion exceeds `fuel`. -/
def search : ℕ → α → Finset α → Option (Bool × Finset α)
  | 0, _, _ => none
  | fuel+1, x, visited =>
    if goal = x then some (true,visited)
    else scan (search fuel) (next x) visited

variable {next goal} {visited : Finset α} {visit : α → Finset α → Option (Bool × Finset α)}
  {xs : List α}

/-- The search visited only nodes from which the goal is not an edge away, and everything an
edge away from them. -/
structure Explored (next : α → List α) (goal : α) (visited visited' : Finset α) : Prop where
  subset : visited ⊆ visited'
  ne_goal : ∀ y ∈ visited', y ∉ visited → y ≠ goal
  closed : ∀ y ∈ visited', y ∉ visited → ∀ z ∈ next y, z ∈ visited'

omit [DecidableEq α] in
theorem Explored.refl (visited : Finset α) : Explored next goal visited visited :=
  ⟨Finset.Subset.refl _,fun _ hy hn => absurd hy hn,fun _ hy hn => absurd hy hn⟩

theorem Explored.trans {u v w : Finset α} (h : Explored next goal u v)
    (k : Explored next goal v w) : Explored next goal u w := by
  refine ⟨h.subset.trans k.subset,fun y hy hn => ?_,fun y hy hn z hz => ?_⟩
  · by_cases hv : y ∈ v
    · exact h.ne_goal y hv hn
    · exact k.ne_goal y hy hv
  · by_cases hv : y ∈ v
    · exact k.subset (h.closed y hv hn z hz)
    · exact k.closed y hy hv z hz

theorem Explored.insert {u v : Finset α} (hx : x ≠ goal)
    (h : Explored next goal (Insert.insert x u) v) (hclosed : ∀ z ∈ next x, z ∈ v) :
    Explored next goal u v := by
  refine ⟨(subset_insert x u).trans h.subset,fun y hy hn => ?_,fun y hy hn => ?_⟩
  · by_cases hyx : y = x
    · exact hyx ▸ hx
    · exact h.ne_goal y hy (by simp [hyx,hn])
  · by_cases hyx : y = x
    · exact hyx ▸ hclosed
    · exact h.closed y hy (by simp [hyx,hn])

/-- One call of the search establishes a path if it found the goal, and otherwise a node that is not
the goal, with all successors visited. -/
def Answer (next : α → List α) (goal x : α) (visited : Finset α) : Bool × Finset α → Prop
  | (true,_) => Reaches next x goal
  | (false,visited') =>
    x ≠ goal ∧ Explored next goal visited visited' ∧ ∀ y ∈ next x, y ∈ visited'

theorem scan_answer
    (hvisit : ∀ x visited r, visit x visited = some r → Answer next goal x visited r)
    {visited' : Finset α} (h : scan visit xs visited = some (found,visited')) :
    (found = true ∧ ∃ x ∈ xs, Reaches next x goal) ∨
      (found = false ∧ Explored next goal visited visited' ∧ ∀ x ∈ xs, x ∈ visited') := by
  induction xs generalizing visited with
  | nil =>
    cases h
    exact .inr ⟨rfl,.refl _,by simp⟩
  | cons x xs ih =>
    unfold scan at h
    split at h
    · next hx =>
      obtain ⟨hf,y,hy,hpath⟩ | ⟨hf,hexp,hall⟩ := ih h
      · exact .inl ⟨hf,y,List.mem_cons_of_mem x hy,hpath⟩
      · exact .inr ⟨hf,hexp,by simpa using ⟨hexp.subset hx,hall⟩⟩
    · split at h
      · cases h
      · next v hv =>
        cases h
        exact .inl ⟨rfl,x,List.mem_cons_self,hvisit _ _ _ hv⟩
      · next v hv =>
        obtain ⟨hne,hexp,hsucc⟩ := hvisit _ _ _ hv
        have hfirst : Explored next goal visited v := hexp.insert hne hsucc
        obtain ⟨hf,y,hy,hpath⟩ | ⟨hf,hrest,hall⟩ := ih h
        · exact .inl ⟨hf,y,List.mem_cons_of_mem x hy,hpath⟩
        · have hx : x ∈ visited' := hrest.subset (hexp.subset (mem_insert_self x visited))
          exact .inr ⟨hf,hfirst.trans hrest,by simpa using ⟨hx,hall⟩⟩

theorem search_answer {r : Bool × Finset α}
    (h : search next goal fuel x visited = some r) : Answer next goal x visited r := by
  induction fuel generalizing x visited r with
  | zero => cases h
  | succ fuel ih =>
    obtain ⟨found,visited'⟩ := r
    unfold search at h
    split at h
    · next hgoal =>
      cases h
      exact hgoal ▸ .refl
    · next hgoal =>
      obtain ⟨rfl,y,hy,hpath⟩ | ⟨rfl,hexp,hall⟩ := scan_answer (fun _ _ _ => ih) h
      · exact .head hy hpath
      · exact ⟨Ne.symm hgoal,hexp,hall⟩

omit [DecidableEq α] in
/-- Nothing leads out of a set that contains the successors of its nodes. -/
theorem Reaches.mem_of_closed {y : α}
    (hclosed : ∀ y ∈ visited, ∀ z ∈ next y, z ∈ visited) (hx : x ∈ visited)
    (h : Reaches next x y) : y ∈ visited := by
  induction h with
  | refl => exact hx
  | tail _ hyz ih => exact hclosed _ ih _ hyz

/-- The search that starts with one visited node decides reachability. -/
theorem search_found_iff (h : search next goal fuel x {x} = some (found,visited)) :
    found = true ↔ Reaches next x goal := by
  have hanswer := search_answer h
  cases found with
  | true => exact ⟨fun _ => hanswer,fun _ => rfl⟩
  | false =>
    obtain ⟨hne,hexp,hsucc⟩ := hanswer
    have hclosed : ∀ y ∈ visited, ∀ z ∈ next y, z ∈ visited := by
      intro y hy
      by_cases hyx : y = x
      · exact hyx ▸ hsucc
      · exact hexp.closed y hy (by simpa using hyx)
    refine ⟨fun hf => (Bool.false_ne_true hf).elim,fun hpath => ?_⟩
    have hgoal : goal ∈ visited := hpath.mem_of_closed hclosed (hexp.subset (mem_singleton_self x))
    by_cases hgx : goal = x
    · exact absurd hgx.symm hne
    · exact absurd rfl (hexp.ne_goal goal hgoal (by simpa using hgx))

section
variable {nodes visited : Finset α}

/-- The loop ends within the fuel that its calls need, and never forgets a visited node. -/
theorem scan_isSome (hvisit : ∀ x ∈ nodes, ∀ visited ⊆ nodes, (nodes \ visited).card < fuel →
      ∃ r, visit x visited = some r ∧ visited ⊆ r.2 ∧ r.2 ⊆ nodes)
    (hxs : ∀ x ∈ xs, x ∈ nodes) (hv : visited ⊆ nodes) (hfuel : (nodes \ visited).card ≤ fuel) :
    ∃ r, scan visit xs visited = some r ∧ visited ⊆ r.2 ∧ r.2 ⊆ nodes := by
  induction xs generalizing visited with
  | nil => exact ⟨_,rfl,Finset.Subset.refl _,hv⟩
  | cons x xs ih =>
    have hx : x ∈ nodes := hxs x List.mem_cons_self
    have hrest : ∀ y ∈ xs, y ∈ nodes := fun y hy => hxs y (List.mem_cons_of_mem x hy)
    unfold scan
    split
    · exact ih hrest hv hfuel
    · next hnew =>
      have hless : (nodes \ insert x visited).card < fuel := by
        refine lt_of_lt_of_le (card_lt_card ?_) hfuel
        rw [ssubset_iff_of_subset (by grind)]
        exact ⟨x,by simp [hx,hnew],by simp⟩
      obtain ⟨⟨found,v⟩,hcall,hsub,hnodes⟩ :=
        hvisit x hx (insert x visited) (insert_subset hx hv) hless
      have hsub' : visited ⊆ v := (subset_insert x visited).trans hsub
      rw [hcall]
      cases found with
      | true => exact ⟨_,rfl,hsub',hnodes⟩
      | false =>
        have hmono : (nodes \ v).card ≤ (nodes \ visited).card :=
          card_le_card (sdiff_subset_sdiff (Finset.Subset.refl _) hsub')
        obtain ⟨r,hr,hrsub,hrnodes⟩ := ih hrest hnodes (hmono.trans hfuel)
        exact ⟨r,hr,hsub'.trans hrsub,hrnodes⟩

/-- The depth of the recursion is at most one more than the number of nodes that were not
visited. -/
theorem search_isSome (goal : α) (hclosed : ∀ x ∈ nodes, ∀ y ∈ next x, y ∈ nodes) (hx : x ∈ nodes)
    (hv : visited ⊆ nodes) (hfuel : (nodes \ visited).card < fuel) :
    ∃ r, search next goal fuel x visited = some r ∧ visited ⊆ r.2 ∧ r.2 ⊆ nodes := by
  induction fuel generalizing x visited with
  | zero => omega
  | succ fuel ih =>
    unfold search
    split
    · exact ⟨_,rfl,Finset.Subset.refl _,hv⟩
    · exact scan_isSome (fun x hx visited hv hlt => ih hx hv hlt) (hclosed x hx) hv (by omega)

end
end
end Digraph
