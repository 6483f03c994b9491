import Mathlib.Data.List.Infix

/-!
A tree of directories, files and symbolic links, and the walk along a path. It follows a bounded
number of links to an object, or to the directory in which the next name is missing.
-/
namespace FileTree

open List
variable {ν : Type*} {loc : List ν}

inductive Component (ν : Type*) where
  | up
  | name (n : ν)
  deriving DecidableEq

/-- What a link stands for: a path from the root, or from the directory of the link. -/
structure Target (ν : Type*) where
  absolute : Bool
  components : List (Component ν)
  deriving DecidableEq

inductive Node (ν : Type*) where
  | dir
  | file (content : List UInt8)
  | link (target : Target ν)
  deriving DecidableEq

/-- The objects by their locations, the names from the root; every object is in a directory. -/
structure Disk (ν : Type*) where
  node : List ν → Option (Node ν)
  root : node [] = some .dir
  parent : ∀ loc n, node (loc ++ [n]) ≠ none → node loc = some .dir

/-- The directory from which the target of a link is walked. -/
def Target.base (target : Target ν) (cur : List ν) : List ν := if target.absolute then [] else cur

def Node.Real (node : Node ν) : Prop := ∀ target, node ≠ .link target

theorem Node.dir_real : (Node.dir : Node ν).Real := fun _ h => nomatch h

theorem Disk.dir_dropLast (t : Disk ν) (h : t.node loc = some .dir) :
    t.node loc.dropLast = some .dir := by
  cases loc using List.reverseRecOn with
  | nil => exact h
  | append_singleton loc n =>
    rw [dropLast_concat]
    exact t.parent loc n (by rw [h]; simp)

theorem Disk.none_below (t : Disk ν) (h : t.node loc = none) (n : ν) :
    t.node (loc ++ [n]) = none := by
  by_contra hsome
  rw [t.parent loc n hsome] at h
  cases h

theorem Target.dir_base (t : Disk ν) (target : Target ν) {cur : List ν}
    (h : t.node cur = some .dir) :
    t.node (target.base cur) = some .dir := by
  unfold Target.base
  split
  · exact t.root
  · exact h

/-- Two objects of the same kind; files may differ in content, links not in target. -/
inductive Node.Alike : Node ν → Node ν → Prop
  | dir : Alike .dir .dir
  | file (content content' : List UInt8) : Alike (.file content) (.file content')
  | link (target : Target ν) : Alike (.link target) (.link target)

/-- All objects of the one tree are in the other. -/
def Disk.Within (t t' : Disk ν) : Prop :=
  ∀ loc node, t.node loc = some node → ∃ node', t'.node loc = some node' ∧ node.Alike node'

theorem Disk.Within.refl (t : Disk ν) : t.Within t := by
  intro loc node h
  refine ⟨node,h,?_⟩
  cases node with
  | dir => exact .dir
  | file content => exact .file _ _
  | link target => exact .link _

theorem Disk.Within.dir {t t' : Disk ν} (h : t.Within t') (hloc : t.node loc = some .dir) :
    t'.node loc = some .dir := by
  obtain ⟨node',hnode',halike⟩ := h loc _ hloc
  cases halike
  exact hnode'

variable [DecidableEq ν] {node : Node ν}

inductive Outcome (ν : Type*) where
  | found (loc : List ν) (left : ℕ)
  | missing (dir : List ν) (name : ν) (rest : List (Component ν))
  | notDir
  | loop
  deriving DecidableEq

section
variable (t : Disk ν)

/-- A walk, given how links are followed. -/
def walkWith (follow : List ν → Target ν → List (Component ν) → Outcome ν) (left : ℕ) :
    List ν → List (Component ν) → Outcome ν
  | cur, [] => .found cur left
  | cur, .up::todo =>
    if t.node cur = some .dir then walkWith follow left cur.dropLast todo else .notDir
  | cur, .name n::todo =>
    if t.node cur = some .dir then
      match t.node (cur ++ [n]) with
      | none => .missing cur n todo
      | some (.link target) => follow cur target todo
      | some _ => walkWith follow left (cur ++ [n]) todo
    else .notDir

/-- The walk that follows at most the given number of links. -/
def walk : ℕ → List ν → List (Component ν) → Outcome ν
  | 0 => walkWith t (fun _ _ _ => .loop) 0
  | n+1 => walkWith t (fun cur target todo =>
      walk n (target.base cur) (target.components ++ todo)) (n+1)

variable {t} {n : ℕ} {cur : List ν} {todo : List (Component ν)} {m : ν}
  {P : ℕ → List ν → List (Component ν) → Prop}

theorem walk_nil : walk t n cur [] = .found cur n := by cases n <;> rfl

theorem walk_up (h : t.node cur = some .dir) :
    walk t n cur (.up::todo) = walk t n cur.dropLast todo := by
  cases n <;> exact if_pos h

theorem walk_notDir (h : t.node cur ≠ some .dir) (c : Component ν) :
    walk t n cur (c::todo) = .notDir := by
  cases n <;> cases c <;> exact if_neg h

theorem walk_missing (h : t.node cur = some .dir) (hm : t.node (cur ++ [m]) = none) :
    walk t n cur (.name m::todo) = .missing cur m todo := by
  cases n <;> simp [walk,walkWith,h,hm]

theorem walk_real (h : t.node cur = some .dir) (hm : t.node (cur ++ [m]) = some node)
    (hreal : node.Real) :
    walk t n cur (.name m::todo) = walk t n (cur ++ [m]) todo := by
  cases node with
  | link target => exact absurd rfl (hreal target)
  | dir | file => cases n <;> simp [walk,walkWith,h,hm]

section
variable (h : t.node cur = some .dir) {target : Target ν}
  (hm : t.node (cur ++ [m]) = some (.link target))
include h hm

theorem walk_loop : walk t 0 cur (.name m::todo) = .loop := by simp [walk,walkWith,h,hm]

theorem walk_link : walk t (n+1) cur (.name m::todo) =
      walk t n (target.base cur) (target.components ++ todo) := by
  rw [walk,walkWith,if_pos h,hm]

end

/-- The cases of a walk up to the next link, by induction on the components. -/
theorem walk_induction_links {Q : List ν → List (Component ν) → Prop} (nil : ∀ cur, Q cur [])
    (up : ∀ cur todo, t.node cur = some .dir → Q cur.dropLast todo → Q cur (.up::todo))
    (notDir : ∀ cur c todo, t.node cur ≠ some .dir → Q cur (c::todo))
    (missing : ∀ cur m todo, t.node cur = some .dir → t.node (cur ++ [m]) = none →
      Q cur (.name m::todo))
    (real : ∀ cur m todo node, t.node cur = some .dir → t.node (cur ++ [m]) = some node →
      node.Real → Q (cur ++ [m]) todo → Q cur (.name m::todo))
    (link : ∀ cur m todo target, t.node cur = some .dir →
      t.node (cur ++ [m]) = some (.link target) → Q cur (.name m::todo))
    (cur : List ν) (todo : List (Component ν)) : Q cur todo := by
  induction todo generalizing cur with
  | nil => exact nil cur
  | cons c todo ih =>
    by_cases hcur : t.node cur = some .dir
    · cases c with
      | up => exact up cur todo hcur (ih _)
      | name m =>
        rcases hm : t.node (cur ++ [m]) with _ | (_ | content | target)
        · exact missing cur m todo hcur hm
        · exact real cur m todo _ hcur hm (fun _ h => nomatch h) (ih _)
        · exact real cur m todo _ hcur hm (fun _ h => nomatch h) (ih _)
        · exact link cur m todo target hcur hm
    · exact notDir cur c todo hcur

/-- The cases of a walk, one for each thing that its next component can meet. -/
theorem walk_induction (nil : ∀ n cur, P n cur [])
    (up : ∀ n cur todo, t.node cur = some .dir → P n cur.dropLast todo → P n cur (.up::todo))
    (notDir : ∀ n cur c todo, t.node cur ≠ some .dir → P n cur (c::todo))
    (missing : ∀ n cur m todo, t.node cur = some .dir → t.node (cur ++ [m]) = none →
      P n cur (.name m::todo))
    (real : ∀ n cur m todo node, t.node cur = some .dir → t.node (cur ++ [m]) = some node →
      node.Real → P n (cur ++ [m]) todo → P n cur (.name m::todo))
    (loop : ∀ cur m todo target, t.node cur = some .dir →
      t.node (cur ++ [m]) = some (.link target) → P 0 cur (.name m::todo))
    (link : ∀ n cur m todo target, t.node cur = some .dir →
      t.node (cur ++ [m]) = some (.link target) →
      P n (target.base cur) (target.components ++ todo) → P (n+1) cur (.name m::todo))
    (n : ℕ) (cur : List ν) (todo : List (Component ν)) : P n cur todo := by
  induction n generalizing cur todo with
  | zero => exact walk_induction_links (nil 0) (up 0) (notDir 0) (missing 0) (real 0) loop cur todo
  | succ n ih =>
    refine walk_induction_links (nil _) (up _) (notDir _) (missing _) (real _) ?_ cur todo
    intro cur m todo target hcur hm
    exact link n cur m todo target hcur hm (ih _ _)

/-- A walk that goes on from where another has ended. -/
def Outcome.andThen (o : Outcome ν) (todo : List (Component ν))
    (next : ℕ → List ν → Outcome ν) : Outcome ν :=
  match o with
  | .found loc left => next left loc
  | .missing dir m rest => .missing dir m (rest ++ todo)
  | .notDir => .notDir
  | .loop => .loop

theorem walk_append (t : Disk ν) (n : ℕ) (cur : List ν) (xs ys : List (Component ν)) :
    walk t n cur (xs ++ ys) = (walk t n cur xs).andThen ys fun left loc => walk t left loc ys := by
  induction n, cur, xs using walk_induction (t := t) with
  | nil n cur => rw [walk_nil,nil_append,Outcome.andThen]
  | up n cur todo hcur ih => rw [cons_append,walk_up hcur,walk_up hcur,ih]
  | notDir n cur c todo hcur =>
    rw [cons_append,walk_notDir hcur,walk_notDir hcur,Outcome.andThen]
  | missing n cur m todo hcur hm =>
    rw [cons_append,walk_missing hcur hm,walk_missing hcur hm,Outcome.andThen]
  | real n cur m todo node hcur hm hreal ih =>
    rw [cons_append,walk_real hcur hm hreal,walk_real hcur hm hreal,ih]
  | loop cur m todo target hcur hm =>
    rw [cons_append,walk_loop hcur hm,walk_loop hcur hm,Outcome.andThen]
  | link n cur m todo target hcur hm ih =>
    rw [cons_append,walk_link hcur hm,walk_link hcur hm,← append_assoc,ih]

/-- The cases of a walk that comes to an object, or to where it is missing. -/
theorem walk_ends {o : Outcome ν} (h : walk t n cur todo = o) (hdir : o ≠ .notDir)
    (hloop : o ≠ .loop)
    (nil : ∀ n cur, o = .found cur n → P n cur [])
    (missing : ∀ n cur m todo, t.node cur = some .dir → t.node (cur ++ [m]) = none →
      o = .missing cur m todo → P n cur (.name m::todo))
    (up : ∀ n cur todo, t.node cur = some .dir → P n cur.dropLast todo → P n cur (.up::todo))
    (real : ∀ n cur m todo node, t.node cur = some .dir → t.node (cur ++ [m]) = some node →
      node.Real → P n (cur ++ [m]) todo → P n cur (.name m::todo))
    (link : ∀ n cur m todo target, t.node cur = some .dir →
      t.node (cur ++ [m]) = some (.link target) →
      P n (target.base cur) (target.components ++ todo) → P (n+1) cur (.name m::todo)) :
    P n cur todo := by
  induction n, cur, todo using walk_induction (t := t) with
  | nil n cur => exact nil n cur (h.symm.trans walk_nil)
  | up n cur todo hcur ih => exact up n cur todo hcur (ih ((walk_up hcur).symm.trans h))
  | notDir n cur c todo hcur => exact absurd (h.symm.trans (walk_notDir hcur c)) hdir
  | missing n cur m todo hcur hm =>
    exact missing n cur m todo hcur hm (h.symm.trans (walk_missing hcur hm))
  | real n cur m todo node hcur hm hreal ih =>
    exact real n cur m todo node hcur hm hreal (ih ((walk_real hcur hm hreal).symm.trans h))
  | loop cur m todo target hcur hm => exact absurd (h.symm.trans (walk_loop hcur hm)) hloop
  | link n cur m todo target hcur hm ih =>
    exact link n cur m todo target hcur hm (ih ((walk_link hcur hm).symm.trans h))

theorem real_of_found (h : ∃ node, t.node cur = some node ∧ node.Real) {left : ℕ}
    (hfound : walk t n cur todo = .found loc left) :
    ∃ node, t.node loc = some node ∧ node.Real := by
  revert h
  refine walk_ends (P := fun _ cur _ => (∃ node, t.node cur = some node ∧ node.Real) → _) hfound
    nofun nofun (fun n cur he h => ?_) nofun (fun n cur todo hcur ih _ => ?_)
    (fun n cur m todo node _ hm hreal ih _ => ih ⟨node,hm,hreal⟩)
    (fun n cur m todo target hcur _ ih _ => ?_)
  · cases he
    exact h
  · exact ih ⟨_,t.dir_dropLast hcur,Node.dir_real⟩
  · exact ih ⟨_,target.dir_base t hcur,Node.dir_real⟩

theorem dir_of_missing {dir : List ν} {name : ν} {rest : List (Component ν)}
    (h : walk t n cur todo = .missing dir name rest) :
    t.node dir = some .dir ∧ t.node (dir ++ [name]) = none := by
  refine walk_ends (P := fun _ _ _ => _) h nofun nofun nofun (fun n cur m todo hcur hm he => ?_)
    (fun _ _ _ _ ih => ih) (fun _ _ _ _ _ _ _ _ ih => ih) (fun _ _ _ _ _ _ _ ih => ih)
  cases he
  exact ⟨hcur,hm⟩

end

section
variable {t t' : Disk ν} {n : ℕ} {cur : List ν} {todo : List (Component ν)}

omit [DecidableEq ν] in
theorem Disk.Within.real (h : t.Within t') (hnode : t.node cur = some node)
    (hreal : node.Real) : ∃ node', t'.node cur = some node' ∧ node'.Real := by
  obtain ⟨node',hnode',halike⟩ := h cur node hnode
  refine ⟨node',hnode',?_⟩
  rintro target rfl
  cases halike
  exact hreal target rfl

omit [DecidableEq ν] in
theorem Disk.Within.link (h : t.Within t') {target : Target ν}
    (hlink : t.node cur = some (.link target)) : t'.node cur = some (.link target) := by
  obtain ⟨node',hnode',halike⟩ := h cur _ hlink
  cases halike
  exact hnode'

theorem Disk.Within.found (h : t.Within t') {left : ℕ}
    (hfound : walk t n cur todo = .found loc left) : walk t' n cur todo = .found loc left := by
  refine walk_ends (P := fun n cur todo => walk t' n cur todo = _) hfound nofun nofun
    (fun n cur he => walk_nil.trans he.symm) nofun
    (fun n cur todo hcur ih => (walk_up (h.dir hcur)).trans ih)
    (fun n cur m todo node hcur hm hreal ih => ?_)
    (fun n cur m todo target hcur hm ih => (walk_link (h.dir hcur) (h.link hm)).trans ih)
  obtain ⟨node',hm',hreal'⟩ := h.real hm hreal
  exact (walk_real (h.dir hcur) hm' hreal').trans ih

end
end FileTree
