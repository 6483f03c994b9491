import Aios.BlockMgr.Dependency
import Aios.Lib.Worklist

/-!
The order in which the blocks are loaded, and its reverse. It depends on how the hash maps are
iterated; its existence and its respect for the dependencies do not.
-/
namespace Aios.BlockMgr

open CheckedLoop Digraph List

namespace DependencyGraph

/-- The number of dependencies of every block, collected in the order `order`. -/
def depCount (g : DependencyGraph) (order : List String) : Finmap fun _ : String => ℕ :=
  order.foldl (fun counts block => counts.insert block (g.dependenciesOf block).length) ∅

/-- The dependents of every block, collected in the same order. -/
def reverse (g : DependencyGraph) (order : List String) : Finmap fun _ : String => List String :=
  let reverse := order.foldl (fun reverse block =>
    (g.dependenciesOf block).foldl (fun reverse dep => reverse.push dep block) reverse) ∅
  order.foldl (fun reverse name => reverse.orInsert name []) reverse

/-- The variables before the `while` loop; `countOrder` iterates over `dep_count`. -/
def loadStart (g : DependencyGraph) (order countOrder : List String) : Worklist String where
  counts := g.depCount order
  queue := countOrder.filter fun name => (g.depCount order).lookup name = some 0
  result := []

/-- The variables after the `while` loop. -/
def loadEnd (g : DependencyGraph) (order countOrder : List String) : Worklist String :=
  settle (Worklist.round (g.reverse order)) g.edges.keys.card (g.loadStart order countOrder)

def loadOrder (g : DependencyGraph) (order countOrder : List String) :
    Except DependencyError (List String) :=
  let result := (g.loadEnd order countOrder).result
  if result.length ≠ g.edges.keys.card then
    .error (.circularDependency (order.filter (· ∉ result)))
  else
    .ok result

def unloadOrder (g : DependencyGraph) (order countOrder : List String) :
    Except DependencyError (List String) :=
  (g.loadOrder order countOrder).map List.reverse

variable {g : DependencyGraph} {order countOrder : List String} {x : String}

theorem depCount_lookup : (g.depCount order).lookup x =
      if x ∈ order then some (g.dependenciesOf x).length else none := by
  unfold depCount
  induction order using reverseRecOn with
  | nil => simp
  | append_singleton order block ih =>
    rw [foldl_append,foldl_cons,foldl_nil,Finmap.lookup_insert_if,ih]
    by_cases hx : x = block <;> simp [hx]

private theorem getD_foldl_push (block : String) {deps : List String} (hdeps : deps.Nodup)
    (reverse : Finmap fun _ : String => List String) :
    ((deps.foldl (fun reverse dep => reverse.push dep block) reverse).lookup x).getD [] =
      (reverse.lookup x).getD [] ++ if x ∈ deps then [block] else [] := by
  induction deps generalizing reverse with
  | nil => simp
  | cons dep deps ih =>
    obtain ⟨hdep,hdeps⟩ := nodup_cons.mp hdeps
    rw [foldl_cons,ih hdeps,Finmap.getD_lookup_push]
    by_cases hx : x = dep
    · subst hx
      simp [hdep]
    · simp [hx]

private theorem getD_foldl_orInsert (reverse : Finmap fun _ : String => List String) :
    ((order.foldl (fun reverse name => reverse.orInsert name []) reverse).lookup x).getD [] =
      (reverse.lookup x).getD [] := by
  induction order generalizing reverse with
  | nil => rfl
  | cons name order ih =>
    rw [foldl_cons,ih,Finmap.lookup_orInsert]
    split <;> simp

theorem getD_reverse_lookup (h : g.WellFormed) (x : String) :
    ((g.reverse order).lookup x).getD [] = g.dependentsOf order x := by
  unfold reverse dependentsOf
  rw [getD_foldl_orInsert]
  induction order using reverseRecOn with
  | nil => simp
  | append_singleton order block ih =>
    rw [foldl_append,foldl_cons,foldl_nil,getD_foldl_push block (h.nodup block),ih,filter_append]
    by_cases hx : x ∈ g.dependenciesOf block <;> simp [hx]

section
variable (h : g.WellFormed) (horder : Finmap.Enumerates order g.edges)
  (hcount : Finmap.Enumerates countOrder (g.depCount order))

include h horder

theorem reverses : Worklist.Reverses g.dependenciesOf g.edges.keys (g.reverse order) := by
  intro x
  rw [getD_reverse_lookup h]
  refine ⟨horder.1.filter _,fun y => ?_⟩
  simp [dependentsOf,horder.2,Finmap.mem_keys]

include hcount

omit h in
theorem loadStart_consistent :
    (g.loadStart order countOrder).Consistent g.dependenciesOf g.edges.keys := by
  have hlookup : ∀ x, (g.depCount order).lookup x =
      if x ∈ g.edges.keys then some (g.dependenciesOf x).length else none := fun x => by
    rw [depCount_lookup]
    simp [horder.2,Finmap.mem_keys]
  refine ⟨fun x => by simp [loadStart,hlookup],hcount.1.filter _,fun x => ?_,?_⟩
  · have hmem : x ∈ countOrder ↔ x ∈ g.edges.keys := by
      rw [hcount.2,Finmap.mem_iff_lookup_ne_none,hlookup]
      simp
    simp only [loadStart,nil_append,mem_filter,hmem,hlookup,not_mem_nil,
      imp_false,← eq_nil_iff_forall_not_mem]
    refine and_congr_right fun hx => ?_
    simp [hx]
  · intro x hx
    cases hx

theorem loadEnd_consistent : (g.loadEnd order countOrder).Consistent g.dependenciesOf g.edges.keys ∧
      (g.loadEnd order countOrder).queue = [] :=
  (loadStart_consistent horder hcount).settled h.nodup (reverses h horder)

/-- The loop ends with all blocks in the result, whatever the iteration orders are. -/
theorem loadOrder_eq :
    ∃ l, g.loadOrder order countOrder = .ok l ∧ l.Nodup ∧ (∀ x, x ∈ l ↔ x ∈ g.edges) ∧
      Ordered g.dependenciesOf l := by
  obtain ⟨hend,hqueue⟩ := loadEnd_consistent h horder hcount
  have hmem := fun x => hend.mem_result_iff hqueue h.acyclic h.nodes_closed (x := x)
  have hnodup : (g.loadEnd order countOrder).result.Nodup := (nodup_append.mp hend.nodup).1
  have hlength : (g.loadEnd order countOrder).result.length = g.edges.keys.card := by
    rw [← toFinset_card_of_nodup hnodup]
    congr 1
    ext x
    rw [mem_toFinset,hmem]
  refine ⟨_,?_,hnodup,fun x => ?_,hend.ordered⟩
  · simp [loadOrder,hlength]
  · rw [hmem,Finmap.mem_keys]

end

structure Correct (g : DependencyGraph) : Prop extends g.WellFormed where
  /-- The recursive search of `add_dependency` ends. -/
  search_ends : ∀ b d, (((g.addBlock b).addBlock d).cycleSearch b d {d}).isSome
  rejects : ∀ b d, (∃ e, (g.addDependency b d).2 = .error e) ↔ b = d ∨ Reaches g.dependenciesOf d b
  rejected : ∀ b d, (∃ e, (g.addDependency b d).2 = .error e) →
    (g.addDependency b d).1.dependenciesOf = g.dependenciesOf
  accepted : ∀ b d, (g.addDependency b d).2 = .ok () → ∀ x y,
    y ∈ (g.addDependency b d).1.dependenciesOf x ↔ y ∈ g.dependenciesOf x ∨ x = b ∧ y = d
  /-- Both names become blocks, whether or not the dependency is accepted. -/
  blocks : ∀ b d x, x ∈ (g.addDependency b d).1.edges ↔ x = b ∨ x = d ∨ x ∈ g.edges
  added : ∀ n, (g.addBlock n).dependenciesOf = g.dependenciesOf ∧
    ∀ x, x ∈ (g.addBlock n).edges ↔ x = n ∨ x ∈ g.edges
  /-- A block goes with the edges from it and to it. -/
  removed : ∀ n, (∀ x, x ∈ (g.removeBlock n).edges ↔ x ≠ n ∧ x ∈ g.edges) ∧ ∀ x y,
    y ∈ (g.removeBlock n).dependenciesOf x ↔ x ≠ n ∧ y ≠ n ∧ y ∈ g.dependenciesOf x
  load : ∀ order countOrder, Finmap.Enumerates order g.edges →
    Finmap.Enumerates countOrder (g.depCount order) →
    (g.loadEnd order countOrder).queue = [] ∧
    ∃ l, g.loadOrder order countOrder = .ok l ∧ g.unloadOrder order countOrder = .ok l.reverse ∧
      l.Nodup ∧ (∀ x, x ∈ l ↔ x ∈ g.edges) ∧ Ordered g.dependenciesOf l

theorem WellFormed.correct (h : g.WellFormed) : g.Correct where
  toWellFormed := h
  search_ends b d := ((h.addBlock b).addBlock d).cycleSearch_isSome b (by simp)
  rejects b d := by
    have hself : b = d ∨ Reaches g.dependenciesOf d b ↔ Reaches g.dependenciesOf d b :=
      or_iff_right_of_imp fun hbd => hbd ▸ .refl
    rw [hself]
    obtain ⟨hreach,-,herr⟩ | ⟨hreach,-,hok⟩ := h.addDependency_cases b d
    · exact iff_of_true herr hreach
    · exact iff_of_false (by simp [hok]) hreach
  rejected b d herr := by
    obtain ⟨-,hg,-⟩ | ⟨-,-,hok⟩ := h.addDependency_cases b d
    · simp [hg]
    · simp [hok] at herr
  accepted b d hok x y := by
    obtain ⟨-,-,_,herr⟩ | ⟨hreach,-,-⟩ := h.addDependency_cases b d
    · cases herr.symm.trans hok
    · refine (h.edge_addDependency_iff b d x y).trans ?_
      simp only [Edge,hreach,not_false_eq_true,true_and]
  blocks := h.mem_addDependency
  added n := ⟨addBlock_dependenciesOf,fun _ => mem_addBlock⟩
  removed n := ⟨fun _ => mem_removeBlock,fun _ _ => mem_removeBlock_dependenciesOf⟩
  load order countOrder horder hcount := by
    obtain ⟨l,hl,hnodup,hmem,hordered⟩ := loadOrder_eq h horder hcount
    refine ⟨(loadEnd_consistent h horder hcount).2,l,hl,?_,hnodup,hmem,hordered⟩
    rw [unloadOrder,hl]
    rfl

end DependencyGraph

inductive GraphOp where
  | addBlock (name : String)
  | addDependency (block dependsOn : String)
  | removeBlock (name : String)

namespace DependencyGraph

def apply (g : DependencyGraph) : GraphOp → DependencyGraph
  | .addBlock name => g.addBlock name
  | .addDependency block dependsOn => (g.addDependency block dependsOn).1
  | .removeBlock name => g.removeBlock name

variable {g : DependencyGraph}

theorem WellFormed.apply (h : g.WellFormed) (op : GraphOp) : (g.apply op).WellFormed := by
  cases op with
  | addBlock name => exact h.addBlock name
  | addDependency block dependsOn => exact h.addDependency block dependsOn
  | removeBlock name => exact h.removeBlock name

theorem WellFormed.run (h : g.WellFormed) (ops : List GraphOp) :
    (ops.foldl DependencyGraph.apply g).WellFormed := by
  induction ops generalizing g with
  | nil => exact h
  | cons op ops ih => exact ih (h.apply op)

/-- Every graph that the operations build from the empty one answers correctly. -/
theorem built_graph_correct (ops : List GraphOp) : (ops.foldl apply new).Correct :=
  (new_wellFormed.run ops).correct

end DependencyGraph
end Aios.BlockMgr
