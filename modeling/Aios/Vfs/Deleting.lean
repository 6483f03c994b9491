import Aios.Lib.Actions
import Aios.Lib.FileVolumes
import Aios.Lib.SortedKeys
import Aios.Vfs.Sandbox

/-!
Recursive deletion in the sandbox. Every call resolves its path again on the disk as it is by then,
so what is removed is where links lead. Any call may fail, and the deletion may be cancelled
wherever it asks.

The recursion is compared with a list of things to do: a path to visit puts the entries of a
directory before the removal of the directory itself.
-/
namespace Aios.Vfs

open Aios.Core FileTree Actions List

/-- How a directory is listed: the order of `read_dir`, the names as they are shown, and the lower
case by which they are sorted. -/
structure Listing where
  order : Finmap.Iteration String
  toStringLossy : String → String
  toLowercase : String → String

/-- What the outside decides; calls and questions are numbered. The number of a fault says which of
its steps a call fails in. -/
structure Env where
  cancelled : ℕ → Bool
  fault : ℕ → Option ℕ
  error : ℕ → String

/-- Nothing fails, and nobody cancels. -/
def Env.calm : Env := ⟨fun _ => false,fun _ => none,fun _ => ""⟩

structure World where
  volume : Volume String
  clock : ℕ
  done : UInt64

abbrev Io := Act World AIOSException

def tick : Io ℕ := fun w => (.ok w.clock,{ w with clock := w.clock+1 })

def setVolume (v : Volume String) : Io Unit := .modify fun w => { w with volume := v }

def addDone (n : UInt64) : Io Unit := .modify fun w => { w with done := w.done+n }

def cancelledError : AIOSException := .generic "operation cancelled by user"

structure VfsMetadata where
  isDir : Bool
  size : UInt64

def metadataFromStd : Node String → VfsMetadata
  | .file content => ⟨false,.ofNat content.length⟩
  | node => ⟨node = .dir,0⟩

structure VfsEntry where
  name : String
  isDir : Bool

section
variable (ls : Listing)

def VfsEntry.Le (a b : VfsEntry) : Prop :=
  if a.isDir = b.isDir then ls.toLowercase a.name ≤ ls.toLowercase b.name else a.isDir = true

instance (a b : VfsEntry) : Decidable (VfsEntry.Le ls a b) :=
  inferInstanceAs (Decidable (if a.isDir = b.isDir then
    ls.toLowercase a.name ≤ ls.toLowercase b.name else a.isDir = true))

def sortEntries (entries : List VfsEntry) : List VfsEntry := entries.insertionSort (VfsEntry.Le ls)

/-- The entries of a directory; the kind of a link is not that of its target. -/
def readDir (v : Volume String) (loc : PathBuf) : List VfsEntry :=
  (ls.order.order (v.names loc)).map fun name =>
    ⟨ls.toStringLossy name,v.disk.node (loc ++ [name]) = some .dir⟩

end

def objectAt (links : ℕ) (t : Disk String) (full : PathBuf) : Option (PathBuf × Node String) :=
  match find t links full with
  | .found loc _ => (t.node loc).map fun node => (loc,node)
  | _ => none

/-- `remove_dir` or `remove_file`; there is none where the call fails. -/
def removal (links : ℕ) (v : Volume String) (full : PathBuf) : Node String → Option (Volume String)
  | .dir => v.rmdir links full
  | _ => if (unlink v.disk links full).ok then some (v.unlink links full) else none

def checkCancelled (env : Env) : Io Unit := do
  let k ← tick
  if env.cancelled k then .fail cancelledError

/-- The file system of the AIOS scheme: its root, and how many links the system follows. -/
structure Sandbox where
  links : ℕ
  root : PathBuf

namespace Sandbox

variable (fs : Sandbox) (path : VfsPath)

section
variable (env : Env) (ls : Listing)

def requireAiosPath : Io PathBuf := do
  let w ← .get
  .lift (requireInside w.volume.disk fs.links fs.root path)

def metadata : Io VfsMetadata := do
  let full ← fs.requireAiosPath path
  let k ← tick
  let w ← .get
  match env.fault k, objectAt fs.links w.volume.disk full with
  | none, some (_,node) => pure (metadataFromStd node)
  | _, _ => .fail (.generic ("metadata '" ++ display full ++ "' failed: " ++ env.error k))

def listDir : Io (List VfsEntry) := do
  let full ← fs.requireAiosPath path
  let k ← tick
  let w ← .get
  match env.fault k, objectAt fs.links w.volume.disk full with
  | none, some (loc,.dir) => pure (sortEntries ls (readDir ls w.volume loc))
  | some 1, _ => .fail (.generic ("read_dir entry failed: " ++ env.error k))
  | some 2, _ => .fail (.generic ("file_type failed: " ++ env.error k))
  | some 3, _ => .fail (.generic ("metadata failed: " ++ env.error k))
  | _, _ => .fail (.generic ("read_dir '" ++ display full ++ "' failed: " ++ env.error k))

/-- One object is removed; what is removed is the target of a link, not the link. -/
def deleteItem : Io Unit := do
  let full ← fs.requireAiosPath path
  let k ← tick
  let w ← .get
  match env.fault k, objectAt fs.links w.volume.disk full with
  | some 0, _ | _, none => .fail (.generic ("metadata failed: " ++ env.error k))
  | fault, some (_,node) =>
    match fault, removal fs.links w.volume full node with
    | none, some v => setVolume v
    | _, _ =>
      .fail (.generic ((if node = .dir then "remove_dir '" else "remove_file '") ++ display full ++
        "' failed: " ++ env.error k))

end

/-- The object to which the path leads. -/
def leads (v : Volume String) : Option (PathBuf × Node String) :=
  match requireInside v.disk fs.links fs.root path with
  | .ok full => objectAt fs.links v.disk full
  | .error _ => none

/-- The disk without that object, if it can be removed. -/
def removed (v : Volume String) : Option (Volume String) :=
  match fs.leads path v with
  | some (loc,node) => removal fs.links v loc node
  | none => none

/-- Where the text of the path puts it. -/
def place : Option PathBuf :=
  if path.scheme = .aios then
    (lexical [] (components (segments path.path))).map (fs.root ++ ·)
  else none

end Sandbox

structure DeleteStats where
  files : UInt64
  dirs : UInt64
  bytes : UInt64

def DeleteStats.add (a b : DeleteStats) : DeleteStats :=
  ⟨a.files+b.files,a.dirs+b.dirs,a.bytes+b.bytes⟩

/-- The fuel bounds the depth of the recursion. -/
def deleteItem (env : Env) (ls : Listing) (fs : Sandbox) : ℕ → VfsPath → Io DeleteStats
  | 0, _ => .outOfFuel
  | fuel+1, path => do
    checkCancelled env
    let md ← fs.metadata path env
    if md.isDir then
      let entries ← fs.listDir path env ls
      let stats ← entries.foldlM (fun (stats : DeleteStats) entry => do
        checkCancelled env
        let sub ← deleteItem env ls fs fuel (path.join entry.name)
        pure (stats.add sub)) ⟨0,0,0⟩
      fs.deleteItem path env
      pure { stats with dirs := stats.dirs+1 }
    else
      fs.deleteItem path env
      addDone md.size
      pure ⟨1,0,md.size⟩

inductive Task where
  | visit (path : VfsPath)
  | remove (path : VfsPath)

def visits (path : VfsPath) (entries : List VfsEntry) : List Task :=
  entries.map fun entry => .visit (path.join entry.name)

/-- A disk, and what is to be done on it. -/
abbrev Todo := Volume String × List Task

section
variable (ls : Listing) (fs : Sandbox)

/-- There is no next step where a path leads to nothing, or its object cannot be removed. -/
def step : Todo → Option Todo
  | (_,[]) => none
  | (v,.visit path::todo) =>
    match fs.leads path v with
    | some (loc,.dir) =>
      some (v,visits path (sortEntries ls (readDir ls v loc)) ++ .remove path::todo)
    | some _ => some (v,.remove path::todo)
    | none => none
  | (v,.remove path::todo) => (fs.removed path v).map fun v' => (v',todo)

def Reaches : ℕ → Todo → Todo → Prop
  | 0, c, c' => c = c'
  | n+1, c, c' => ∃ d, step ls fs c = some d ∧ Reaches n d c'

end

section
variable {env : Env} {ls : Listing} {fs : Sandbox} {path : VfsPath} {loc full : PathBuf}
  {node : Node String} {v v' : Volume String} {t : Disk String}

theorem requireInside_canonical {links left : ℕ} {root : PathBuf}
    (h : requireInside t links root path = .ok full)
    (hfound : find t links full = .found loc left) :
    loc = full := by
  unfold requireInside canonicalizeInside at h
  split_ifs at h
  split at h
  · cases h
  · split at h
    · next canon k hcanon =>
      split_ifs at h
      cases h
      obtain ⟨node,hnode,hreal⟩ := real_of_find hcanon
      cases (find_real hnode hreal).symm.trans hfound
      rfl
    · next hnone =>
      cases h
      exact absurd hfound (hnone loc left)

theorem objectAt_eq_some {links : ℕ} : objectAt links t full = some (loc,node) ↔
      ∃ left, find t links full = .found loc left ∧ t.node loc = some node := by
  unfold objectAt
  cases find t links full with
  | found loc' left =>
    simp only [Option.map_eq_some_iff,Prod.mk.injEq,Outcome.found.injEq]
    constructor
    · rintro ⟨_,hnode,rfl,rfl⟩
      exact ⟨left,⟨rfl,rfl⟩,hnode⟩
    · rintro ⟨_,⟨rfl,-⟩,hnode⟩
      exact ⟨node,hnode,rfl,rfl⟩
  | missing | notDir | loop => simp

/-- A path leads to an object precisely if that is what the calls find. -/
theorem Sandbox.leads_eq_some : fs.leads path v = some (loc,node) ↔
      requireInside v.disk fs.links fs.root path = .ok loc ∧
        objectAt fs.links v.disk loc = some (loc,node) := by
  unfold leads
  split
  · next full hrequire =>
    constructor
    · intro hobject
      obtain ⟨left,hfound,-⟩ := objectAt_eq_some.mp hobject
      obtain rfl := requireInside_canonical hrequire hfound
      exact ⟨hrequire,hobject⟩
    · rintro ⟨heq,hobject⟩
      cases hrequire.symm.trans heq
      exact hobject
  · next e hrequire =>
    refine iff_of_false nofun ?_
    rintro ⟨heq,-⟩
    cases hrequire.symm.trans heq

theorem Sandbox.node_of_leads (h : fs.leads path v = some (loc,node)) :
    v.disk.node loc = some node := by
  obtain ⟨-,hobject⟩ := leads_eq_some.mp h
  obtain ⟨left,-,hnode⟩ := objectAt_eq_some.mp hobject
  exact hnode

theorem Sandbox.removed_eq_some : fs.removed path v = some v' ↔
      ∃ loc node, fs.leads path v = some (loc,node) ∧ removal fs.links v loc node = some v' := by
  unfold removed
  cases fs.leads path v with
  | none => simp
  | some object =>
    exact ⟨fun h => ⟨object.1,object.2,rfl,h⟩,fun ⟨_,_,heq,h⟩ => by cases heq; exact h⟩

/-- Precisely the object to which the path leads is gone. -/
theorem Sandbox.removed_node (hleads : fs.leads path v = some (loc,node))
    (h : fs.removed path v = some v') (l : PathBuf) :
    v'.disk.node l = if l = loc then none else v.disk.node l := by
  obtain ⟨_,_,heq,hremoval⟩ := removed_eq_some.mp h
  cases hleads.symm.trans heq
  have hnode := node_of_leads hleads
  unfold removal at hremoval
  split at hremoval
  · exact v.rmdir_node fs.links loc hremoval hnode l
  · obtain ⟨hok,hv⟩ := Option.ite_none_right_eq_some.mp hremoval
    cases hv
    exact unlink_node hok hnode l

theorem Sandbox.removed_gone (h : fs.removed path v = some v') {l : PathBuf}
    (hl : v.disk.node l = none) : v'.disk.node l = none := by
  obtain ⟨loc,node,hleads,-⟩ := removed_eq_some.mp h
  rw [removed_node hleads h,hl,ite_self]

end

section
variable {env : Env} {ls : Listing} {fs : Sandbox} {path : VfsPath} {α : Type}
  {P Q E : Volume String → Prop} {F : Prop}

def On (P : Volume String → Prop) (w : World) : Prop := P w.volume

theorem checkCancelled_spec (hE : ∀ v, P v → E v) :
    Spec (On P) (checkCancelled env) (fun _ => On P) (On E) F := by
  refine .bind (Q := fun _ => On P) (fun _ h => h) fun k => ?_
  split
  · exact .fail fun w hw => hE _ hw
  · exact .pure fun _ hw => hw

namespace Sandbox

/-- The common beginning of all calls: the path, and then what the call does. -/
theorem call_spec (hE : ∀ v, P v → E v) {body : PathBuf → ℕ → World → Io α}
    {Q : α → World → Prop}
    (hbody : ∀ full k w, P w.volume →
      requireInside w.volume.disk fs.links fs.root path = .ok full →
      Spec (· = w) (body full k w) Q (On E) F) :
    Spec (On P) (do
      let full ← fs.requireAiosPath path
      let k ← tick
      let w ← .get
      body full k w) Q (On E) F := by
  intro w hw
  have hresolved : fs.requireAiosPath path w =
      (Act.lift (requireInside w.volume.disk fs.links fs.root path) : Io PathBuf) w := rfl
  show Ends Q (On E) F (Act.bind (fs.requireAiosPath path) _ w)
  unfold Act.bind
  rw [hresolved]
  cases hrequire : requireInside w.volume.disk fs.links fs.root path with
  | error e => exact hE _ hw
  | ok full => exact hbody full w.clock { w with clock := w.clock+1 } hw hrequire _ rfl

theorem leads_of_call {v : Volume String} {full loc : PathBuf} {node : Node String}
    (hrequire : requireInside v.disk fs.links fs.root path = .ok full)
    (hobject : objectAt fs.links v.disk full = some (loc,node)) :
    loc = full ∧ fs.leads path v = some (loc,node) := by
  obtain ⟨left,hfound,-⟩ := objectAt_eq_some.mp hobject
  obtain rfl := requireInside_canonical hrequire hfound
  exact ⟨rfl,leads_eq_some.mpr ⟨hrequire,hobject⟩⟩

theorem metadata_spec (hE : ∀ v, P v → E v) :
    Spec (On P) (fs.metadata path env) (fun md => On fun v => P v ∧
      ∃ loc node, fs.leads path v = some (loc,node) ∧ md = metadataFromStd node) (On E) F := by
  refine call_spec hE fun full k w hw hrequire => ?_
  split
  · next loc node hfault hobject =>
    obtain ⟨-,hleads⟩ := leads_of_call hrequire hobject
    exact .pure fun _ heq => heq ▸ ⟨hw,loc,node,hleads,rfl⟩
  · exact .fail fun _ heq => heq ▸ hE _ hw

theorem listDir_spec (hE : ∀ v, P v → E v) :
    Spec (On P) (fs.listDir path env ls) (fun listed => On fun v => P v ∧
      ∃ loc, fs.leads path v = some (loc,.dir) ∧ listed = sortEntries ls (readDir ls v loc))
      (On E) F := by
  refine call_spec hE fun full k w hw hrequire => ?_
  split
  · next loc hfault hobject =>
    obtain ⟨-,hleads⟩ := leads_of_call hrequire hobject
    rintro _ rfl
    exact ⟨hw,loc,hleads,rfl⟩
  all_goals exact .fail fun _ heq => heq ▸ hE _ hw

theorem deleteItem_spec (hE : ∀ v, P v → E v)
    (hok : ∀ v v', P v → fs.removed path v = some v' → Q v') :
    Spec (On P) (fs.deleteItem path env) (fun _ => On Q) (On E) F := by
  refine call_spec hE fun full k w hw hrequire => ?_
  split
  · exact .fail fun _ heq => heq ▸ hE _ hw
  · exact .fail fun _ heq => heq ▸ hE _ hw
  · next loc node hobject hfault =>
    obtain ⟨rfl,hleads⟩ := leads_of_call hrequire hobject
    split
    · next v' hfault hremoval =>
      exact .modify fun _ _ => hok w.volume v' hw (removed_eq_some.mpr ⟨loc,node,hleads,hremoval⟩)
    · exact .fail fun _ heq => heq ▸ hE _ hw

end Sandbox
end

section
variable {env : Env} {ls : Listing} {fs : Sandbox} {path : VfsPath} {todo : List Task}

theorem step_visit_dir {v : Volume String} {loc : PathBuf}
    (h : fs.leads path v = some (loc,.dir)) :
    step ls fs (v,.visit path::todo) =
      some (v,visits path (sortEntries ls (readDir ls v loc)) ++ .remove path::todo) := by
  simp [step,h]

theorem step_visit_leaf {v : Volume String} {loc : PathBuf} {node : Node String}
    (h : fs.leads path v = some (loc,node)) (hleaf : node ≠ .dir) :
    step ls fs (v,.visit path::todo) = some (v,.remove path::todo) := by
  cases node <;> simp_all [step]

@[simp]
theorem metadataFromStd_isDir {node : Node String} :
    (metadataFromStd node).isDir = true ↔ node = .dir := by
  cases node <;> simp [metadataFromStd]

/-- The recursion does what the list says: what every step keeps holds of the disk with what is left
to do. -/
theorem deleteItem_spec {J : List Task → Volume String → Prop} {E : Volume String → Prop}
    (hJ : ∀ v todo v' todo', J todo v → step ls fs (v,todo) = some (v',todo') → J todo' v')
    (hE : ∀ todo v, J todo v → E v) (fuel : ℕ) (path : VfsPath) (todo : List Task) :
    Spec (On (J (.visit path::todo))) (deleteItem env ls fs fuel path) (fun _ => On (J todo))
      (On E) True := by
  induction fuel generalizing path todo with
  | zero => exact fun w hw => ⟨trivial,hE _ _ hw⟩
  | succ fuel ih =>
    have hremove : Spec (On (J (.remove path::todo))) (fs.deleteItem path env)
        (fun _ => On (J todo)) (On E) True := by
      refine Sandbox.deleteItem_spec (hE _) fun v v' hv hremoved => hJ v _ v' todo hv ?_
      rw [step,hremoved]
      rfl
    refine .bind (checkCancelled_spec (hE _)) fun _ => ?_
    refine .bind (Sandbox.metadata_spec (hE _)) fun md => ?_
    split
    · refine .bind (.mono (Sandbox.listDir_spec (hE _)) (fun _ hw => hw.1) fun _ _ h => h)
        fun listed => ?_
      rintro w ⟨hw,loc,hleads,rfl⟩
      have hfirst := hJ _ _ _ _ hw (step_visit_dir hleads)
      refine Spec.bind (Spec.foldlM
        (I := fun rest => On (J (visits path rest ++ .remove path::todo)))
        (fun entry rest stats => ?_) _ _) (fun stats => ?_) w hfirst
      · refine .bind (checkCancelled_spec (hE _)) fun _ => ?_
        exact .bind (ih _ _) fun sub => .pure fun _ h => h
      · exact .bind hremove fun _ => .pure fun _ h => h
    · next hfile =>
      refine .bind (.mono hremove ?_ fun _ _ h => h) fun _ => ?_
      · rintro w ⟨hw,loc,node,hleads,rfl⟩
        exact hJ _ _ _ _ hw (step_visit_leaf hleads fun hdir => hfile (by simp [hdir]))
      · exact .bind (.modify fun _ h => h) fun _ => .pure fun _ h => h

end

section
variable {env : Env} {ls : Listing} {fs : Sandbox} {path : VfsPath} {todo todo' : List Task}
  {v v' : Volume String} {l : PathBuf} {n : ℕ} {c c' d : Todo}

theorem Reaches.tail (h : Reaches ls fs n c c') (hstep : step ls fs c' = some d) :
    Reaches ls fs (n+1) c d := by
  induction n generalizing c with
  | zero =>
    cases h
    exact ⟨d,hstep,rfl⟩
  | succ n ih =>
    obtain ⟨e,he,hrest⟩ := h
    exact ⟨e,he,ih hrest⟩

/-- A step leaves the disk as it is, or it removes an object. -/
theorem step_cases (h : step ls fs (v,todo) = some (v',todo')) :
    v' = v ∨ ∃ path, todo = .remove path::todo' ∧ fs.removed path v = some v' := by
  match todo with
  | [] => cases h
  | .visit path::_ =>
    unfold step at h
    dsimp only at h
    split at h <;> cases h <;> exact .inl rfl
  | .remove path::_ =>
    obtain ⟨v',hremoved,heq⟩ := Option.map_eq_some_iff.mp h
    cases heq
    exact .inr ⟨path,rfl,hremoved⟩

theorem step_gone (h : step ls fs (v,todo) = some (v',todo')) (hl : v.disk.node l = none) :
    v'.disk.node l = none := by
  obtain rfl | ⟨path,-,hremoved⟩ := step_cases h
  · exact hl
  · exact Sandbox.removed_gone hremoved hl

theorem Reaches.gone (h : Reaches ls fs n c c') (hl : c.1.disk.node l = none) :
    c'.1.disk.node l = none := by
  induction n generalizing c with
  | zero =>
    cases h
    exact hl
  | succ n ih =>
    obtain ⟨d,hd,hrest⟩ := h
    exact ih hrest (step_gone hd hl)

def Gone (l : PathBuf) (v : Volume String) : Prop := v.disk.node l = none

theorem deleteItem_gone (fuel : ℕ) (path : VfsPath) : Spec (On (Gone l))
    (deleteItem env ls fs fuel path) (fun _ => On (Gone l)) (On (Gone l)) True :=
  deleteItem_spec (J := fun _ => Gone l) (fun _ _ _ _ hv hstep => step_gone hstep hv)
    (fun _ _ hv => hv) fuel path []

variable {α β : Type}

/-- The computation comes past a point of the list's run: it ends with a part of the list left from
which that point is still to come, or it has removed all that is removed there. -/
def Passes (ls : Listing) (fs : Sandbox) (x : Io α) (todo : List Task) (n : ℕ) (c : Todo)
    (w : World) : Prop :=
  (∃ a w' m, x w = (.ok a,w') ∧ m ≤ n ∧ Reaches ls fs m (w'.volume,todo) c) ∨
    ∀ l, Gone l c.1 → On (Gone l) (x w).2

theorem Passes.mono {x : Io α} {w : World} {m : ℕ} (hm : m ≤ n) (h : Passes ls fs x todo m c w) :
    Passes ls fs x todo n c w := by
  obtain ⟨a,w',k,hrun,hk,hreaches⟩ | h := h
  · exact .inl ⟨a,w',k,hrun,hk.trans hm,hreaches⟩
  · exact .inr h

theorem Passes.after {x : Io α} {f : α → Io β} {a : α} {v w : World} (hx : x w = (.ok a,v))
    (h : Passes ls fs (f a) todo n c v) : Passes ls fs (x >>= f) todo n c w := by
  unfold Passes
  rw [Act.bind_of_ok hx]
  exact h

theorem Passes.bind {x : Io α} {f : α → Io β} {w : World}
    (hx : Passes ls fs x todo n c w)
    (hf : ∀ a w' m, m ≤ n → Reaches ls fs m (w'.volume,todo) c →
      Passes ls fs (f a) todo' m c w')
    (hgone : ∀ a l, Spec (On (Gone l)) (f a) (fun _ => On (Gone l)) (On (Gone l)) True) :
    Passes ls fs (x >>= f) todo' n c w := by
  obtain ⟨a,w',m,hrun,hm,hreaches⟩ | hx := hx
  · obtain ⟨b,w'',k,hrun',hk,hreaches'⟩ | hf := hf a w' m hm hreaches
    · exact .inl ⟨b,w'',k,(Act.bind_of_ok hrun).trans hrun',hk.trans hm,hreaches'⟩
    · refine .inr fun l hl => ?_
      rw [Act.bind_of_ok hrun]
      exact hf l hl
  · refine .inr fun l hl => ?_
    have hrest : Spec (· = w) (x >>= f) (fun _ => On (Gone l)) (On (Gone l)) True := by
      refine .bind (Q := fun _ => On (Gone l)) ?_ fun a => hgone a l
      rintro _ rfl
      exact .of_state (hx l hl)
    exact (hrest w rfl).state

end

def World.later (w : World) : World := { w with clock := w.clock+1 }

namespace Sandbox

variable {ls : Listing} {fs : Sandbox} {path : VfsPath} {w : World} {loc : PathBuf}
  {node : Node String}

theorem call_calm (h : fs.leads path w.volume = some (loc,node)) {α : Type}
    {body : PathBuf → ℕ → World → Io α} :
    (do
      let full ← fs.requireAiosPath path
      let k ← tick
      let w ← .get
      body full k w : Io α) w = body loc w.clock w.later w.later := by
  have hrequire : fs.requireAiosPath path w = (.ok loc,w) := by
    show (Act.lift (requireInside w.volume.disk fs.links fs.root path) : Io PathBuf) w = _
    rw [(leads_eq_some.mp h).1]
    rfl
  rw [Act.bind_of_ok hrequire]
  rfl

theorem objectAt_later (h : fs.leads path w.volume = some (loc,node)) :
    objectAt fs.links w.later.volume.disk loc = some (loc,node) := (leads_eq_some.mp h).2

theorem metadata_calm (h : fs.leads path w.volume = some (loc,node)) :
    fs.metadata path .calm w = (.ok (metadataFromStd node),w.later) := by
  refine (call_calm h).trans ?_
  rw [objectAt_later h]
  rfl

theorem listDir_calm (h : fs.leads path w.volume = some (loc,.dir)) :
    fs.listDir path .calm ls w = (.ok (sortEntries ls (readDir ls w.volume loc)),w.later) := by
  refine (call_calm h).trans ?_
  rw [objectAt_later h]
  rfl

theorem deleteItem_calm {v : Volume String} (h : fs.removed path w.volume = some v) :
    fs.deleteItem path .calm w = (.ok (),{ w.later with volume := v }) := by
  obtain ⟨loc,node,hleads,hremoval⟩ := removed_eq_some.mp h
  refine (call_calm hleads).trans ?_
  rw [objectAt_later hleads]
  dsimp only [Env.calm]
  rw [show removal fs.links w.later.volume loc node = _ from hremoval]
  rfl

theorem deleteItem_gone {env : Env} (l : PathBuf) : Spec (On (Gone l)) (fs.deleteItem path env)
    (fun _ => On (Gone l)) (On (Gone l)) True :=
  deleteItem_spec (fun _ h => h) fun _ _ hv hremoved => removed_gone hremoved hv

end Sandbox

section
variable {ls : Listing} {fs : Sandbox} {path : VfsPath} {todo : List Task} {n : ℕ} {c : Todo}
  {w : World}

theorem passes_remove (h : Reaches ls fs n (w.volume,.remove path::todo) c) :
    Passes ls fs (fs.deleteItem path .calm) todo n c w := by
  match n with
  | 0 =>
    cases h
    exact .inr fun l hl => (Sandbox.deleteItem_gone l w hl).state
  | n+1 =>
    obtain ⟨d,hd,hrest⟩ := h
    obtain ⟨v,hremoved,rfl⟩ := Option.map_eq_some_iff.mp hd
    exact .inl ⟨(),_,n,Sandbox.deleteItem_calm hremoved,n.le_succ,hrest⟩

theorem passes_of_ok {α : Type} {x : Io α} {a : α} {w' : World} (hx : x w = (.ok a,w'))
    (h : Reaches ls fs n (w'.volume,todo) c) : Passes ls fs x todo n c w :=
  .inl ⟨a,w',n,hx,le_rfl,h⟩

theorem passes_entries {g : DeleteStats → VfsEntry → Io DeleteStats} {bound : ℕ}
    (hg : ∀ stats entry todo n w, n < bound →
      Reaches ls fs n (w.volume,.visit (path.join entry.name)::todo) c →
      Passes ls fs (g stats entry) todo n c w)
    (hgone : ∀ stats entry l,
      Spec (On (Gone l)) (g stats entry) (fun _ => On (Gone l)) (On (Gone l)) True)
    (entries : List VfsEntry) (stats : DeleteStats) (hn : n < bound)
    (h : Reaches ls fs n (w.volume,visits path entries ++ todo) c) :
    Passes ls fs (entries.foldlM g stats) todo n c w := by
  induction entries generalizing n stats w with
  | nil => exact passes_of_ok rfl h
  | cons entry entries ih =>
    refine (hg stats entry _ n w hn h).bind (fun stats w' m hm h => ih stats (hm.trans_lt hn) h)
      fun stats l => ?_
    exact Spec.foldlM (fun _ => On (Gone l)) (fun entry _ stats => hgone stats entry l) entries
      stats

/-- With more fuel than the list takes steps, the recursion comes past every point of its run. -/
theorem passes_deleteItem (fuel : ℕ) (hfuel : n < fuel)
    (h : Reaches ls fs n (w.volume,.visit path::todo) c) :
    Passes ls fs (deleteItem .calm ls fs fuel path) todo n c w := by
  induction fuel generalizing n path todo w with
  | zero => cases hfuel
  | succ fuel ih =>
    match n with
    | 0 =>
      cases h
      exact .inr fun l hl => (deleteItem_gone _ path w hl).state
    | n+1 =>
      obtain ⟨d,hd,hrest⟩ := h
      cases hleads : fs.leads path w.volume with
      | none => simp [step,hleads] at hd
      | some object =>
        obtain ⟨loc,node⟩ := object
        refine Passes.mono n.le_succ ?_
        refine .after (x := checkCancelled .calm) (v := w.later) rfl ?_
        refine .after (v := w.later.later) (Sandbox.metadata_calm hleads) ?_
        by_cases hdir : node = .dir
        · subst hdir
          cases (step_visit_dir hleads).symm.trans hd
          rw [if_pos (metadataFromStd_isDir.mpr rfl)]
          refine .after (v := w.later.later.later) (Sandbox.listDir_calm hleads) ?_
          refine .bind (passes_entries (w := w.later.later.later)
            (fun stats entry todo n w hn h => ?_) (fun stats entry l => ?_) _ _
            (Nat.lt_of_succ_lt_succ hfuel) hrest) (fun stats w' m hm h => ?_) fun stats l => ?_
          · refine .after (x := checkCancelled .calm) (v := w.later) rfl ?_
            refine .bind (ih (w := w.later) hn h) (fun sub w' m _ h => ?_) fun sub l => ?_
            · exact passes_of_ok rfl h
            · exact .pure fun _ h => h
          · refine .bind (checkCancelled_spec fun _ h => h) fun _ => ?_
            exact .bind (deleteItem_gone fuel _) fun sub => .pure fun _ h => h
          · refine .bind (passes_remove h) (fun _ w' m _ h => ?_) fun _ l => ?_
            · exact passes_of_ok rfl h
            · exact .pure fun _ h => h
          · exact .bind (Sandbox.deleteItem_gone l) fun _ => .pure fun _ h => h
        · cases (step_visit_leaf hleads hdir).symm.trans hd
          rw [if_neg (mt metadataFromStd_isDir.mp hdir)]
          refine .bind (passes_remove (w := w.later.later) hrest) (fun _ w' m _ h => ?_)
            fun _ l => ?_
          · exact passes_of_ok rfl h
          · exact .bind (.modify fun _ h => h) fun _ => .pure fun _ h => h

end

section
variable (ls : Listing) (fs : Sandbox) (path : VfsPath) (w : World)

/-- Whatever fails and wherever the deletion is cancelled, nothing has changed but at or below the
place of the path. -/
def RemovesOnlyBelow : Prop :=
  ∀ env fuel loc, (∀ top ∈ fs.place path, ¬ top <+: loc) →
    (deleteItem env ls fs fuel path w).2.volume.disk.node loc = w.volume.disk.node loc

/-- Where the next thing to do is a removal that succeeds, the object lies at or below the place of
the path. -/
def NextBelow : Todo → Prop
  | (v,.remove next::_) => ∀ loc node, fs.leads next v = some (loc,node) →
    fs.removed next v ≠ none → ∃ top ∈ fs.place path, top <+: loc
  | _ => True

/-- This holds of every point to which the list of things to do comes. -/
def ReachesOnlyBelow : Prop :=
  ∀ n c, Reaches ls fs n (w.volume,[.visit path]) c → NextBelow fs path c

variable {ls fs path w}

theorem kept_of_step {v v' : Volume String} {todo todo' : List Task} {loc : PathBuf}
    (hbelow : NextBelow fs path (v,todo)) (h : step ls fs (v,todo) = some (v',todo'))
    (houtside : ∀ top ∈ fs.place path, ¬ top <+: loc) : v'.disk.node loc = v.disk.node loc := by
  obtain rfl | ⟨next,rfl,hremoved⟩ := step_cases h
  · rfl
  · obtain ⟨gone,node,hleads,-⟩ := Sandbox.removed_eq_some.mp hremoved
    obtain ⟨top,hplace,htop⟩ := hbelow gone node hleads (by simp [hremoved])
    have hne : loc ≠ gone := by
      rintro rfl
      exact houtside top hplace htop
    rw [Sandbox.removed_node hleads hremoved,if_neg hne]

end

def linkedBox (target : Target String) : Volume String :=
  let box := Volume.bare.put [] "box" .dir (by decide) (by decide)
  let kept := box.put ["box"] "kept" (.file [1]) (by decide) (by decide)
  let old := kept.put ["box"] "old" .dir (by decide) (by decide)
  let file := old.put ["box","old"] "file" (.file [2]) (by decide) (by decide)
  file.put ["box","old"] "link" (.link target) (by decide) (by decide)

def plainListing : Listing := ⟨.ascending,id,id⟩

end Aios.Vfs
