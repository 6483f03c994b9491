import Aios.Lib.Digraph
import Aios.Lib.FiniteMap

/-!
The dependency graph of the blocks. A dependency that would close a cycle is refused, so the graph
stays acyclic.
-/
namespace Aios.BlockMgr

open Digraph Finmap

inductive DependencyError where
  | circularDependency (chain : List String)
  | notFound (name : String)
  deriving DecidableEq

structure DependencyGraph where
  edges : Finmap fun _ : String => List String
  deriving DecidableEq

namespace DependencyGraph

def new : DependencyGraph := ⟨∅⟩

def addBlock (g : DependencyGraph) (name : String) : DependencyGraph :=
  ⟨g.edges.orInsert name []⟩

def dependenciesOf (g : DependencyGraph) (block : String) : List String :=
  (g.edges.lookup block).getD []

/-- The recursion of `would_create_cycle` searches the dependencies of `toBlock` for `fromBlock`;
the visited blocks, an argument by reference in the source, are returned too. -/
def cycleSearch (g : DependencyGraph) (fromBlock toBlock : String) (visited : Finset String) :
    Option (Bool × Finset String) :=
  search g.dependenciesOf fromBlock (g.edges.keys.card+1) toBlock visited

def wouldCreateCycle (g : DependencyGraph) (fromBlock toBlock : String)
    (visited : Finset String) : Bool :=
  (g.cycleSearch fromBlock toBlock visited).any Prod.fst

/-- `deps.push(depends_on)` on the dependencies of `block`, unless it is there already. -/
def pushDependency (g : DependencyGraph) (block dependsOn : String) : DependencyGraph :=
  ⟨g.edges.adjust block fun deps => if dependsOn ∈ deps then deps else deps ++ [dependsOn]⟩

def addDependency (g : DependencyGraph) (block dependsOn : String) :
    DependencyGraph × Except DependencyError Unit :=
  -- Both names become blocks, also when the dependency is refused below.
  let g := (g.addBlock block).addBlock dependsOn
  if block = dependsOn then
    (g,.error (.circularDependency [block]))
  else if g.wouldCreateCycle block dependsOn {dependsOn} then
    (g,.error (.circularDependency [dependsOn,block]))
  else
    (g.pushDependency block dependsOn,.ok ())

def removeBlock (g : DependencyGraph) (name : String) : DependencyGraph :=
  ⟨(g.edges.erase name).mapValues fun deps => deps.filter (· ≠ name)⟩

def dependentsOf (g : DependencyGraph) (order : List String) (block : String) : List String :=
  order.filter fun name => block ∈ g.dependenciesOf name

variable {g : DependencyGraph} {block dependsOn name x y : String}

@[simp] theorem addBlock_dependenciesOf : (g.addBlock name).dependenciesOf = g.dependenciesOf := by
  funext x
  unfold addBlock dependenciesOf
  rw [lookup_orInsert]
  split <;> simp

@[simp] theorem mem_addBlock : x ∈ (g.addBlock name).edges ↔ x = name ∨ x ∈ g.edges := mem_orInsert

theorem mem_of_mem_dependenciesOf (h : y ∈ g.dependenciesOf x) : x ∈ g.edges := by
  unfold dependenciesOf at h
  rw [mem_iff_lookup_ne_none]
  intro hnone
  simp [hnone] at h

theorem pushDependency_dependenciesOf (hblock : block ∈ g.edges) :
    (g.pushDependency block dependsOn).dependenciesOf x =
      if x = block ∧ dependsOn ∉ g.dependenciesOf x then g.dependenciesOf x ++ [dependsOn]
      else g.dependenciesOf x := by
  unfold pushDependency dependenciesOf
  rw [lookup_adjust]
  by_cases hx : x = block
  · subst hx
    obtain ⟨deps,hdeps⟩ := mem_iff.mp hblock
    simp only [hdeps,if_true,Option.map_some]
    split <;> simp [*]
  · simp [hx]

theorem mem_pushDependency_iff (hblock : block ∈ g.edges) (dependsOn x y : String) :
    y ∈ (g.pushDependency block dependsOn).dependenciesOf x ↔
      y ∈ g.dependenciesOf x ∨ x = block ∧ y = dependsOn := by
  rw [pushDependency_dependenciesOf hblock]
  split
  · next hx => simp [hx.1]
  · next hx =>
    refine ⟨.inl,?_⟩
    rintro (hy | ⟨rfl,rfl⟩)
    · exact hy
    · simpa using hx

@[simp] theorem mem_pushDependency :
    x ∈ (g.pushDependency block dependsOn).edges ↔ x ∈ g.edges := mem_adjust

theorem removeBlock_dependenciesOf : (g.removeBlock name).dependenciesOf x =
      if x = name then [] else (g.dependenciesOf x).filter (· ≠ name) := by
  unfold removeBlock dependenciesOf
  rw [lookup_mapValues,lookup_erase_if]
  split
  · rfl
  · cases g.edges.lookup x <;> simp

theorem mem_removeBlock_dependenciesOf : y ∈ (g.removeBlock name).dependenciesOf x ↔
      x ≠ name ∧ y ≠ name ∧ y ∈ g.dependenciesOf x := by
  rw [removeBlock_dependenciesOf]
  split
  · next hx => simp [hx]
  · next hx => simp [hx,and_comm]

@[simp] theorem mem_removeBlock : x ∈ (g.removeBlock name).edges ↔ x ≠ name ∧ x ∈ g.edges := by
  rw [removeBlock,mem_mapValues,mem_erase]

/-- The edges are acyclic and free of duplicates, and lead to blocks of the graph. -/
structure WellFormed (g : DependencyGraph) : Prop where
  acyclic : Acyclic g.dependenciesOf
  nodup : ∀ x, (g.dependenciesOf x).Nodup
  closed : ∀ x, ∀ y ∈ g.dependenciesOf x, y ∈ g.edges

theorem WellFormed.nodes_closed (h : g.WellFormed) :
    ∀ x ∈ g.edges.keys, ∀ y ∈ g.dependenciesOf x, y ∈ g.edges.keys :=
  fun x _ y hy => mem_keys.mpr (h.closed x y hy)

theorem new_wellFormed : new.WellFormed := by
  have hempty : ∀ x, new.dependenciesOf x = [] := fun x => by simp [new,dependenciesOf]
  exact ⟨acyclic_of_noEdge hempty,fun x => by simp [hempty],fun x y hy => by simp [hempty] at hy⟩

section
variable (h : g.WellFormed)
include h

theorem WellFormed.addBlock (name : String) : (g.addBlock name).WellFormed := by
  refine ⟨?_,?_,fun x y hy => ?_⟩
  · simpa using h.acyclic
  · simpa using h.nodup
  · rw [addBlock_dependenciesOf] at hy
    exact mem_addBlock.mpr (.inr (h.closed x y hy))

theorem WellFormed.removeBlock (name : String) : (g.removeBlock name).WellFormed := by
  have hsub := fun x y (hy : y ∈ (g.removeBlock name).dependenciesOf x) =>
    mem_removeBlock_dependenciesOf.mp hy
  refine ⟨h.acyclic.mono fun x y hy => (hsub x y hy).2.2,fun x => ?_,fun x y hy => ?_⟩
  · rw [removeBlock_dependenciesOf]
    split
    · exact List.nodup_nil
    · exact (h.nodup x).filter _
  · obtain ⟨-,hne,hdep⟩ := hsub x y hy
    exact mem_removeBlock.mpr ⟨hne,h.closed x y hdep⟩

/-- The recursion never goes deeper than the number of blocks. -/
theorem WellFormed.cycleSearch_isSome (block : String) (hdep : dependsOn ∈ g.edges) :
    (g.cycleSearch block dependsOn {dependsOn}).isSome := by
  have hmem : dependsOn ∈ g.edges.keys := mem_keys.mpr hdep
  obtain ⟨r,hr,-⟩ := search_isSome block h.nodes_closed hmem (Finset.singleton_subset_iff.mpr hmem)
    (Nat.lt_succ_of_le (Finset.card_le_card Finset.sdiff_subset))
  rw [cycleSearch,hr]
  rfl

theorem WellFormed.wouldCreateCycle_iff (block : String) (hdep : dependsOn ∈ g.edges) :
    g.wouldCreateCycle block dependsOn {dependsOn} = true ↔
      Reaches g.dependenciesOf dependsOn block := by
  obtain ⟨⟨found,visited⟩,hr⟩ := Option.isSome_iff_exists.mp (h.cycleSearch_isSome block hdep)
  rw [wouldCreateCycle,hr,← search_found_iff hr]
  rfl

theorem WellFormed.pushDependency (hblock : block ∈ g.edges) (hdep : dependsOn ∈ g.edges)
    (hback : ¬ Reaches g.dependenciesOf dependsOn block) :
    (g.pushDependency block dependsOn).WellFormed := by
  have hedge := fun x y => mem_pushDependency_iff hblock dependsOn x y
  refine ⟨h.acyclic.addEdge hback fun x y => (hedge x y).mp,fun x => ?_,fun x y hy => ?_⟩
  · rw [pushDependency_dependenciesOf hblock]
    split
    · next hx => exact (h.nodup x).append (List.nodup_singleton _) (by simpa using hx.2)
    · exact h.nodup x
  · rw [mem_pushDependency]
    obtain hold | ⟨-,rfl⟩ := (hedge x y).mp hy
    · exact h.closed x y hold
    · exact hdep

theorem WellFormed.addDependency_cases (block dependsOn : String) :
    (Reaches g.dependenciesOf dependsOn block ∧
      (g.addDependency block dependsOn).1 = (g.addBlock block).addBlock dependsOn ∧
      ∃ e, (g.addDependency block dependsOn).2 = .error e) ∨
    (¬ Reaches g.dependenciesOf dependsOn block ∧
      (g.addDependency block dependsOn).1 =
        ((g.addBlock block).addBlock dependsOn).pushDependency block dependsOn ∧
      (g.addDependency block dependsOn).2 = .ok ()) := by
  have hreach := ((h.addBlock block).addBlock dependsOn).wouldCreateCycle_iff block
    (mem_addBlock.mpr (.inl rfl))
  simp only [addBlock_dependenciesOf] at hreach
  unfold addDependency
  by_cases hself : block = dependsOn
  · subst hself
    exact .inl ⟨.refl,by simp,_,by simp; rfl⟩
  · by_cases hcycle : Reaches g.dependenciesOf dependsOn block
    · exact .inl ⟨hcycle,by simp [hself,hreach.mpr hcycle],_,by simp [hself,hreach.mpr hcycle]; rfl⟩
    · have hfalse := mt hreach.mp hcycle
      exact .inr ⟨hcycle,by simp [hself,hfalse],by simp [hself,hfalse]⟩

theorem WellFormed.addDependency (block dependsOn : String) :
    (g.addDependency block dependsOn).1.WellFormed := by
  have hblocks := (h.addBlock block).addBlock dependsOn
  obtain ⟨-,hg,-⟩ | ⟨hback,hg,-⟩ := h.addDependency_cases block dependsOn
  · rw [hg]
    exact hblocks
  · rw [hg]
    exact hblocks.pushDependency (by simp) (by simp) (by simpa using hback)

theorem WellFormed.edge_addDependency_iff (block dependsOn x y : String) :
    Edge (g.addDependency block dependsOn).1.dependenciesOf x y ↔
      Edge g.dependenciesOf x y ∨
        ¬ Reaches g.dependenciesOf dependsOn block ∧ x = block ∧ y = dependsOn := by
  unfold Edge
  obtain ⟨hreach,hg,-⟩ | ⟨hreach,hg,-⟩ := h.addDependency_cases block dependsOn
  · simp [hg,hreach]
  · rw [hg,mem_pushDependency_iff (by simp)]
    simp [hreach]

/-- Both names are blocks afterwards, also when the dependency is refused. -/
theorem WellFormed.mem_addDependency (block dependsOn x : String) :
    x ∈ (g.addDependency block dependsOn).1.edges ↔ x = block ∨ x = dependsOn ∨ x ∈ g.edges := by
  obtain ⟨-,hg,-⟩ | ⟨-,hg,-⟩ := h.addDependency_cases block dependsOn
  all_goals
    rw [hg]
    simp only [mem_pushDependency,mem_addBlock]
    tauto

end
end DependencyGraph
end Aios.BlockMgr
