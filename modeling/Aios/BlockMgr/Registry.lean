import Aios.BlockMgr.LoadOrder
import Aios.Core.Error
import Aios.Core.IpcProtocol
import Aios.Lib.Sha256

/-!
The registry of blocks and the graph of their declared dependencies. An error of `add_dependency` is
discarded, so the graph of a declared cycle lacks an edge and has a load order all the same.
-/
namespace Aios.BlockMgr

open Aios.Core Digraph List

abbrev BlockId := UInt32

inductive BlockState where
  | unloaded | loaded | active | frozen | error
  deriving DecidableEq

structure BlockManifest where
  id : BlockId
  name : String
  version : String
  sha256 : Digest
  deriving DecidableEq

structure BlockEntry where
  manifest : BlockManifest
  state : BlockState
  binary : List UInt8
  deriving DecidableEq

structure BlockRegistry where
  blocks : Finmap fun _ : BlockId => BlockEntry
  nextId : UInt32
  dependencies : Finmap fun _ : String => List String

variable {dep : String} {deps : List String} {i : Iteration}

namespace BlockRegistry

def new : BlockRegistry := ⟨∅,1,∅⟩

/-- The hash is that of `compute_sha256_bytes`. -/
def registerBlock (computeSha256Bytes : List UInt8 → Digest) (r : BlockRegistry)
    (name version : String) (binary : List UInt8) : BlockRegistry × BlockId :=
  let id := r.nextId
  let manifest := ⟨id,name,version,computeSha256Bytes binary⟩
  ({ r with nextId := r.nextId+1, blocks := r.blocks.insert id ⟨manifest,.loaded,binary⟩ },id)

/-- The text of an id, `BlockId`'s `Display`. -/
def displayId (id : BlockId) : String := "block_" ++ toString id

def get (r : BlockRegistry) (id : BlockId) : Except AIOSException BlockEntry :=
  match r.blocks.lookup id with
  | none => .error (.blockNotFound (displayId id))
  | some entry => .ok entry

def activateBlock (r : BlockRegistry) (id : BlockId) : Except AIOSException BlockRegistry :=
  match r.blocks.lookup id with
  | none => .error (.blockNotFound (displayId id))
  | some entry => .ok { r with blocks := r.blocks.insert id { entry with state := .active } }

/-- The registry without the block, and the entry that was removed. -/
def unloadBlock (r : BlockRegistry) (id : BlockId) :
    BlockRegistry × Except AIOSException BlockEntry :=
  match r.blocks.lookup id with
  | none => (r,.error (.blockNotFound (displayId id)))
  | some entry => ({ r with blocks := r.blocks.erase id },.ok entry)

def setBlockDependencies (r : BlockRegistry) (name : String) (deps : List String) :
    BlockRegistry :=
  { r with dependencies := r.dependencies.insert name deps }

def declared (r : BlockRegistry) (name : String) : List String :=
  (r.dependencies.lookup name).getD []

def Registered (r : BlockRegistry) (name : String) : Prop :=
  ∃ id entry, r.blocks.lookup id = some entry ∧ entry.manifest.name = name

/-- The graph with a vertex for every registered block, iterated in the order `ids`. -/
def blockGraph (r : BlockRegistry) (ids : List BlockId) : DependencyGraph :=
  (ids.filterMap fun id => r.blocks.lookup id).foldl
    (fun graph entry => graph.addBlock entry.manifest.name) .new

/-- The inner loop: `let _ = graph.add_dependency(name, dep)` for every `dep`. -/
def declareAll (graph : DependencyGraph) (name : String) (deps : List String) : DependencyGraph :=
  deps.foldl (fun graph dep => (graph.addDependency name dep).1) graph

def dependencyGraph (r : BlockRegistry) (ids : List BlockId) (names : List String) :
    DependencyGraph :=
  names.foldl (fun graph name => declareAll graph name (r.declared name)) (r.blockGraph ids)

/-- The orders in which the four hash maps are iterated. -/
structure Iteration where
  ids : List BlockId
  names : List String
  order : List String
  countOrder : List String

def graphOf (r : BlockRegistry) (i : Iteration) : DependencyGraph :=
  r.dependencyGraph i.ids i.names

def loadOrder (r : BlockRegistry) (i : Iteration) : Except DependencyError (List String) :=
  (r.graphOf i).loadOrder i.order i.countOrder

structure Iterates (r : BlockRegistry) (i : Iteration) : Prop where
  ids : Finmap.Enumerates i.ids r.blocks
  names : Finmap.Enumerates i.names r.dependencies
  order : Finmap.Enumerates i.order (r.graphOf i).edges
  countOrder : Finmap.Enumerates i.countOrder ((r.graphOf i).depCount i.order)

theorem exists_iterates (r : BlockRegistry) : ∃ i, r.Iterates i := by
  obtain ⟨ids,hids⟩ := Finmap.exists_enumerates r.blocks
  obtain ⟨names,hnames⟩ := Finmap.exists_enumerates r.dependencies
  obtain ⟨order,horder⟩ := Finmap.exists_enumerates (r.dependencyGraph ids names).edges
  obtain ⟨countOrder,hcount⟩ :=
    Finmap.exists_enumerates ((r.dependencyGraph ids names).depCount order)
  exact ⟨⟨ids,names,order,countOrder⟩,hids,hnames,horder,hcount⟩

variable {r : BlockRegistry} {ids : List BlockId}

theorem blockGraph_wellFormed : (r.blockGraph ids).WellFormed := by
  unfold blockGraph
  generalize ids.filterMap _ = entries
  induction entries using reverseRecOn with
  | nil => exact DependencyGraph.new_wellFormed
  | append_singleton entries entry ih =>
    rw [foldl_append,foldl_cons,foldl_nil]
    exact ih.addBlock _

theorem blockGraph_dependenciesOf (x : String) : (r.blockGraph ids).dependenciesOf x = [] := by
  unfold blockGraph
  generalize ids.filterMap _ = entries
  induction entries using reverseRecOn with
  | nil => simp [DependencyGraph.new,DependencyGraph.dependenciesOf]
  | append_singleton entries entry ih => simpa using ih

structure Within (edges : String → List String) (g : DependencyGraph) : Prop where
  wellFormed : g.WellFormed
  subset : ∀ x y, Edge g.dependenciesOf x y → Edge edges x y

section
variable {edges : String → List String} {g : DependencyGraph} {name : String}

theorem Within.addDependency (h : Within edges g) (hedge : Edge edges name dep) :
    Within edges (g.addDependency name dep).1 := by
  refine ⟨h.wellFormed.addDependency name dep,fun x y hxy => ?_⟩
  obtain hold | ⟨-,rfl,rfl⟩ := (h.wellFormed.edge_addDependency_iff name dep x y).mp hxy
  · exact h.subset x y hold
  · exact hedge

theorem Within.declareAll (h : Within edges g) (hdeps : ∀ dep ∈ deps, Edge edges name dep) :
    Within edges (declareAll g name deps) := by
  induction deps generalizing g with
  | nil => exact h
  | cons dep deps ih =>
    obtain ⟨hdep,hdeps⟩ := forall_mem_cons.mp hdeps
    exact ih (h.addDependency hdep) hdeps

/-- An edge of an acyclic graph closes no cycle with some of its other edges. -/
theorem Within.not_reaches (h : Within edges g) (hacyclic : Acyclic edges)
    (hedge : Edge edges name dep) : ¬ Reaches g.dependenciesOf dep name := fun hpath =>
  hacyclic name (.head' hedge (Relation.ReflTransGen.mono h.subset _ _ hpath))

theorem Within.edge_declareAll_iff (h : Within edges g) (hacyclic : Acyclic edges)
    (hdeps : ∀ dep ∈ deps, Edge edges name dep) (x y : String) :
    Edge (BlockRegistry.declareAll g name deps).dependenciesOf x y ↔
      Edge g.dependenciesOf x y ∨ x = name ∧ y ∈ deps := by
  induction deps generalizing g with
  | nil => simp [BlockRegistry.declareAll]
  | cons dep deps ih =>
    obtain ⟨hdep,hdeps⟩ := forall_mem_cons.mp hdeps
    have hnew := h.wellFormed.edge_addDependency_iff name dep x y
    simp only [h.not_reaches hacyclic hdep,not_false_eq_true,true_and] at hnew
    have hrest := ih (h.addDependency hdep) hdeps
    refine hrest.trans ?_
    rw [hnew,mem_cons,or_assoc,and_or_left]

end

theorem dependencyGraph_within (ids : List BlockId) (names : List String) :
    Within r.declared (r.dependencyGraph ids names) := by
  unfold dependencyGraph
  induction names using reverseRecOn with
  | nil =>
    refine ⟨blockGraph_wellFormed,fun x y hxy => ?_⟩
    simp [Edge,blockGraph_dependenciesOf] at hxy
  | append_singleton names name ih =>
    rw [foldl_append,foldl_cons,foldl_nil]
    exact ih.declareAll fun dep hdep => hdep

theorem edge_dependencyGraph_iff (hacyclic : Acyclic r.declared) (names : List String)
    {x y : String} :
    Edge (r.dependencyGraph ids names).dependenciesOf x y ↔ x ∈ names ∧ Edge r.declared x y := by
  induction names using reverseRecOn with
  | nil => simp [dependencyGraph,Edge,blockGraph_dependenciesOf]
  | append_singleton names name ih =>
    have hwithin := dependencyGraph_within (r := r) ids names
    have hlast := hwithin.edge_declareAll_iff hacyclic
      (fun dep (hdep : dep ∈ r.declared name) => hdep) x y
    have hsplit : r.dependencyGraph ids (names ++ [name]) =
        declareAll (r.dependencyGraph ids names) name (r.declared name) := by
      simp [dependencyGraph]
    rw [hsplit,hlast,ih,mem_append,mem_singleton]
    constructor
    · rintro (⟨hx,hedge⟩ | ⟨rfl,hedge⟩)
      · exact ⟨.inl hx,hedge⟩
      · exact ⟨.inr rfl,hedge⟩
    · rintro ⟨hx | rfl,hedge⟩
      · exact .inl ⟨hx,hedge⟩
      · exact .inr ⟨rfl,hedge⟩

/-- The load order never fails, not even when a cycle was declared. -/
theorem loadOrder_ok (h : r.Iterates i) :
    ∃ l, r.loadOrder i = .ok l ∧ (∀ x, x ∈ l ↔ x ∈ (r.graphOf i).edges) ∧
      Ordered (r.graphOf i).dependenciesOf l := by
  obtain ⟨l,hl,-,hmem,hordered⟩ := DependencyGraph.loadOrder_eq
    (dependencyGraph_within i.ids i.names).wellFormed h.order h.countOrder
  exact ⟨l,hl,hmem,hordered⟩

theorem loadOrder_ne_error (h : r.Iterates i) (e : DependencyError) : r.loadOrder i ≠ .error e := by
  obtain ⟨l,hl,-⟩ := loadOrder_ok h
  simp [hl]

/-- No declared dependency is dropped silently, whatever the iteration orders are. -/
structure Faithful (r : BlockRegistry) : Prop where
  ordered : ∀ i, r.Iterates i → ∀ l, r.loadOrder i = .ok l → ∀ name dep, r.Registered name →
    r.Registered dep → dep ∈ r.declared name → name ∈ l ∧ l.idxOf dep < l.idxOf name
  cycle : ¬ Acyclic r.declared → ∀ i, r.Iterates i → ∃ e, r.loadOrder i = .error e
  -- the outcome does not depend on the orders
  same : ∀ i j, r.Iterates i → r.Iterates j → (r.loadOrder i).isOk = (r.loadOrder j).isOk

theorem faithful_of_acyclic (hacyclic : Acyclic r.declared) : r.Faithful where
  ordered i hi l hl name dep _ _ hdep := by
    obtain ⟨l',hl',hmem,hordered⟩ := loadOrder_ok hi
    obtain rfl : l = l' := Except.ok.inj (hl.symm.trans hl')
    have hname : name ∈ i.names := by
      rw [hi.names.2,Finmap.mem_iff_lookup_ne_none]
      intro hnone
      simp [declared,hnone] at hdep
    have hedge : Edge (r.graphOf i).dependenciesOf name dep :=
      (edge_dependencyGraph_iff hacyclic i.names).mpr ⟨hname,hdep⟩
    have hmem_name : name ∈ l := (hmem name).mpr (DependencyGraph.mem_of_mem_dependenciesOf hedge)
    exact ⟨hmem_name,hordered name hmem_name dep hedge⟩
  cycle h := absurd hacyclic h
  same i j hi hj := by
    obtain ⟨l,hl,-⟩ := loadOrder_ok hi
    obtain ⟨l',hl',-⟩ := loadOrder_ok hj
    rw [hl,hl']
    rfl

/-- Declared dependencies survive precisely if no cycle was declared. -/
theorem faithful_iff_acyclic (r : BlockRegistry) : r.Faithful ↔ Acyclic r.declared := by
  refine ⟨fun h => ?_,faithful_of_acyclic⟩
  by_contra hcyclic
  obtain ⟨i,hi⟩ := r.exists_iterates
  obtain ⟨e,he⟩ := h.cycle hcyclic i hi
  exact loadOrder_ne_error hi e he

/-- Two blocks that were declared to depend on each other. -/
def mutualBlocks : BlockRegistry :=
  let r := (new.registerBlock Sha256.sha256 "a" "1.0" []).1
  let r := (r.registerBlock Sha256.sha256 "b" "1.0" []).1
  (r.setBlockDependencies "a" ["b"]).setBlockDependencies "b" ["a"]

theorem mutual_blocks_are_ordered :
    let i : Iteration := ⟨[1,2],["a","b"],["a","b"],["a","b"]⟩
    mutualBlocks.Iterates i ∧ mutualBlocks.loadOrder i = .ok ["b","a"] ∧
      "a" ∈ mutualBlocks.declared "b" ∧ ¬ mutualBlocks.Faithful := by
  have hi : mutualBlocks.Iterates ⟨[1,2],["a","b"],["a","b"],["a","b"]⟩ :=
    ⟨by decide,by decide,by decide,by decide⟩
  refine ⟨hi,by decide,by decide,fun h => ?_⟩
  have hcycle : ¬ Acyclic mutualBlocks.declared := fun hacyclic =>
    hacyclic "a" (.tail (.single (show "b" ∈ mutualBlocks.declared "a" by decide))
      (show "a" ∈ mutualBlocks.declared "b" by decide))
  obtain ⟨e,he⟩ := h.cycle hcycle _ hi
  exact loadOrder_ne_error hi e he

end BlockRegistry
end Aios.BlockMgr
