import Aios.Lib.FileTree

/-!
The calls of the operating system on a tree with links, with the locations that they touch. A call
on a content follows links to the end; one on an entry does not follow the entry itself.
-/
namespace FileTree

open List
variable {ν : Type*} [DecidableEq ν]

def Disk.bare : Disk ν where
  node loc := if loc = [] then some .dir else none
  root := rfl
  parent loc n h := by simp at h

section
variable (t : Disk ν) {loc : List ν}

def Disk.put (d : List ν) (n : ν) (node : Node ν) (hd : t.node d = some .dir)
    (hleaf : t.node (d ++ [n]) ≠ some .dir) : Disk ν where
  node loc := if loc = d ++ [n] then some node else t.node loc
  root := by
    rw [if_neg (by simp)]
    exact t.root
  parent loc m h := by
    split at h
    · next heq =>
      obtain ⟨rfl,-⟩ := append_inj' heq rfl
      rw [if_neg (by simp)]
      exact hd
    · have hloc := t.parent loc m h
      have hne : loc ≠ d ++ [n] := by
        rintro rfl
        exact hleaf hloc
      rw [if_neg hne]
      exact hloc

def Disk.remove (loc : List ν) (hleaf : t.node loc ≠ some .dir) : Disk ν where
  node l := if l = loc then none else t.node l
  root := by
    have hne : [] ≠ loc := by
      rintro rfl
      exact hleaf t.root
    rw [if_neg hne]
    exact t.root
  parent l m h := by
    split at h
    · exact absurd rfl h
    · have hl := t.parent l m h
      have hne : l ≠ loc := by
        rintro rfl
        exact hleaf hl
      rw [if_neg hne]
      exact hl

def Disk.rewrite (loc : List ν) (data : List UInt8)
    (hfile : ∃ content, t.node loc = some (.file content)) : Disk ν where
  node l := if l = loc then some (.file data) else t.node l
  root := by
    obtain ⟨content,hcontent⟩ := hfile
    have hne : [] ≠ loc := by
      rintro rfl
      rw [t.root] at hcontent
      cases hcontent
    rw [if_neg hne]
    exact t.root
  parent l m h := by
    obtain ⟨content,hcontent⟩ := hfile
    have hl : t.node l = some .dir := by
      split at h
      · next heq => exact t.parent l m (by rw [heq,hcontent]; simp)
      · exact t.parent l m h
    have hne : l ≠ loc := by
      rintro rfl
      rw [hl] at hcontent
      cases hcontent
    rw [if_neg hne]
    exact hl

variable {t}

theorem Disk.within_put {d : List ν} {n : ν} {node : Node ν} {hd : t.node d = some .dir}
    {hleaf : t.node (d ++ [n]) ≠ some .dir} (h : t.node (d ++ [n]) = none) :
    t.Within (t.put d n node hd hleaf) := by
  intro loc old hold
  have hne : loc ≠ d ++ [n] := by
    rintro rfl
    rw [h] at hold
    cases hold
  obtain ⟨node',hnode',halike⟩ := Disk.Within.refl t loc old hold
  exact ⟨node',(if_neg hne).trans hnode',halike⟩

theorem Disk.within_of_remove (hleaf : t.node loc ≠ some .dir) : (t.remove loc hleaf).Within t := by
  intro l node h
  obtain ⟨-,hnode⟩ := Option.ite_none_left_eq_some.mp h
  exact Disk.Within.refl t l node hnode

theorem Disk.within_rewrite {data : List UInt8}
    {hfile : ∃ content, t.node loc = some (.file content)} :
    t.Within (t.rewrite loc data hfile) := by
  intro l node h
  by_cases hl : l = loc
  · subst hl
    obtain ⟨content,hcontent⟩ := hfile
    rw [hcontent] at h
    cases h
    exact ⟨.file data,if_pos rfl,.file _ _⟩
  · obtain ⟨node',hnode',halike⟩ := Disk.Within.refl t l node h
    exact ⟨node',(if_neg hl).trans hnode',halike⟩

end

section
variable (t : Disk ν) (links : ℕ)

def find (p : List ν) : Outcome ν := walk t links [] (p.map .name)

/-- The location of the last name of a path, if its directory is there. -/
def entry (p : List ν) : Option (List ν) :=
  match p.getLast?, find t links p.dropLast with
  | some c, .found d _ => if t.node d = some .dir then some (d ++ [c]) else none
  | _, _ => none

def isDir (p : List ν) : Bool :=
  match find t links p with
  | .found loc _ => t.node loc = some .dir
  | _ => false

inductive Made (ν : Type*) where
  | ok (t : Disk ν) (loc : List ν)
  | notFound
  | failed

def mkdir (p : List ν) : Made ν :=
  match p.getLast?, find t links p.dropLast with
  | some c, .found d _ =>
    if h : t.node d = some .dir ∧ t.node (d ++ [c]) = none then
      .ok (t.put d c .dir h.1 (by simp [h.2])) (d ++ [c])
    else .failed
  | some _, .missing _ _ _ => .notFound
  | _, _ => .failed

structure Effect (ν : Type*) where
  tree : Disk ν
  touched : List (List ν)
  ok : Bool

/-- Missing directories are created from the outermost to the innermost; the path is given from
its end. -/
def createUp : List ν → Effect ν
  | [] => ⟨t,[],true⟩
  | c::up =>
    let p := (c::up).reverse
    match mkdir t links p with
    | .ok t' loc => ⟨t',[loc],true⟩
    | .failed => ⟨t,[],isDir t links p⟩
    | .notFound =>
      let r := createUp up
      if r.ok then
        match mkdir r.tree links p with
        | .ok t' loc => ⟨t',r.touched ++ [loc],true⟩
        | _ => ⟨r.tree,r.touched,isDir r.tree links p⟩
      else r

def createDirAll (p : List ν) : Effect ν := createUp t links p.reverse

def write (p : List ν) (data : List UInt8) : Effect ν :=
  match find t links p with
  | .found loc _ =>
    match h : t.node loc with
    | some (.file content) => ⟨t.rewrite loc data ⟨content,h⟩,[loc],true⟩
    | _ => ⟨t,[],false⟩
  | .missing d m [] =>
    if h : t.node d = some .dir ∧ t.node (d ++ [m]) = none then
      ⟨t.put d m (.file data) h.1 (by simp [h.2]),[d ++ [m]],true⟩
    else ⟨t,[],false⟩
  | _ => ⟨t,[],false⟩

def unlink (p : List ν) : Effect ν :=
  match entry t links p with
  | none => ⟨t,[],false⟩
  | some loc =>
    if h : t.node loc = none ∨ t.node loc = some .dir then ⟨t,[],false⟩
    else ⟨t.remove loc fun hdir => h (.inr hdir),[loc],true⟩

/-- A directory replaces only directories, and is replaced by none but directories. -/
def Node.Replaces (node : Node ν) : Option (Node ν) → Prop
  | none => True
  | some other => node = .dir ↔ other = .dir

instance (node : Node ν) : (other : Option (Node ν)) → Decidable (node.Replaces other)
  | none => .isTrue trivial
  | some other => inferInstanceAs (Decidable (node = .dir ↔ other = .dir))

/-- One entry can be moved to another. A directory may here be moved below itself and onto one with
entries, which an operating system refuses. -/
def Movable (a b : List ν) : Prop := a ≠ b ∧ ∃ node ∈ t.node a, node.Replaces (t.node b)

instance (a b : List ν) : Decidable (Movable t a b) :=
  inferInstanceAs (Decidable (a ≠ b ∧ ∃ node ∈ t.node a, node.Replaces (t.node b)))

/-- The entries that are touched when one path is renamed to another. -/
def renamed (p q : List ν) : List (List ν) :=
  match entry t links p, entry t links q with
  | some a, some b => if Movable t a b then [a,b] else []
  | _, _ => []

end

section
variable {t : Disk ν} {links left : ℕ} {p q d loc : List ν} {c : ν} {node : Node ν}

theorem find_append (t : Disk ν) (links : ℕ) (p q : List ν) :
    find t links (p ++ q) = (find t links p).andThen (q.map .name)
      fun left loc => walk t left loc (q.map .name) := by
  unfold find
  rw [map_append,walk_append]

theorem find_concat_real (hq : find t links q = .found d left) (hd : t.node d = some .dir)
    (h : t.node (d ++ [c]) = some node) (hreal : node.Real) :
    find t links (q ++ [c]) = .found (d ++ [c]) left := by
  rw [find_append,hq]
  exact (walk_real hd h hreal).trans walk_nil

theorem find_append_missing (hq : find t links q = .found d left) (hd : t.node d = some .dir)
    (hc : t.node (d ++ [c]) = none) (rest : List ν) :
    find t links (q ++ c::rest) = .missing d c (rest.map .name) := by
  rw [find_append,hq]
  exact walk_missing hd hc

theorem find_real (h : t.node loc = some node) (hreal : node.Real) :
    find t links loc = .found loc links := by
  induction loc using reverseRecOn generalizing node with
  | nil => exact walk_nil
  | append_singleton loc n ih =>
    have hdir : t.node loc = some .dir := t.parent loc n (by rw [h]; simp)
    exact find_concat_real (ih hdir Node.dir_real) hdir h hreal

theorem real_of_find (h : find t links p = .found loc left) :
    ∃ node, t.node loc = some node ∧ node.Real :=
  real_of_found ⟨_,t.root,Node.dir_real⟩ h

theorem entry_concat : entry t links (q ++ [c]) = some loc ↔
    ∃ d left, find t links q = .found d left ∧ t.node d = some .dir ∧ loc = d ++ [c] := by
  unfold entry
  rw [getLast?_concat,dropLast_concat]
  cases find t links q with
  | found d left => simp [eq_comm]
  | missing | notDir | loop => simp

/-- The entry of an object that is reached without links is the object. -/
theorem entry_real (h : t.node loc = some node) (hne : loc ≠ []) :
    entry t links loc = some loc := by
  cases loc using reverseRecOn with
  | nil => exact absurd rfl hne
  | append_singleton loc n =>
    have hdir : t.node loc = some .dir := t.parent loc n (by rw [h]; simp)
    exact entry_concat.mpr ⟨loc,links,find_real hdir Node.dir_real,hdir,rfl⟩

/-- Every directory on the way to an object is found. -/
theorem find_of_concat_found (h : find t links (q ++ [c]) = .found loc left) :
    ∃ d k, find t links q = .found d k ∧ t.node d = some .dir ∧ t.node (d ++ [c]) ≠ none := by
  rw [find_append] at h
  cases hq : find t links q with
  | found d k =>
    rw [hq] at h
    refine ⟨d,k,rfl,?_⟩
    by_cases hdir : t.node d = some .dir
    · refine ⟨hdir,fun hnone => ?_⟩
      have hmissing : walk t k d [.name c] = .missing d c [] := walk_missing hdir hnone
      exact nomatch hmissing.symm.trans h
    · have hnot : walk t k d [.name c] = .notDir := walk_notDir hdir _
      exact nomatch hnot.symm.trans h
  | missing | notDir | loop =>
    rw [hq] at h
    cases h

end

section
variable {t : Disk ν} {links left : ℕ} {p q d loc rest : List ν} {c : ν}

/-- The path leads to a directory in which its next name is missing; `rest` are the names after that
one. -/
def Absent (t : Disk ν) (links : ℕ) (p d : List ν) (c : ν) (rest : List ν) : Prop :=
  ∃ q left, p = q ++ c::rest ∧ find t links q = .found d left ∧ t.node d = some .dir ∧
    t.node (d ++ [c]) = none

theorem createDirAll_concat : createDirAll t links (q ++ [c]) =
      match mkdir t links (q ++ [c]) with
      | .ok t' loc => ⟨t',[loc],true⟩
      | .failed => ⟨t,[],isDir t links (q ++ [c])⟩
      | .notFound =>
        let r := createDirAll t links q
        if r.ok then
          match mkdir r.tree links (q ++ [c]) with
          | .ok t' loc => ⟨t',r.touched ++ [loc],true⟩
          | _ => ⟨r.tree,r.touched,isDir r.tree links (q ++ [c])⟩
        else r := by
  unfold createDirAll
  rw [reverse_concat,createUp,reverse_cons,reverse_reverse]

theorem mkdir_absent (hq : find t links q = .found d left) (hd : t.node d = some .dir)
    (hc : t.node (d ++ [c]) = none) :
    mkdir t links (q ++ [c]) = .ok (t.put d c .dir hd (by simp [hc])) (d ++ [c]) := by
  unfold mkdir
  rw [getLast?_concat,dropLast_concat,hq]
  exact dif_pos ⟨hd,hc⟩

theorem mkdir_missing {m : ν} {more : List (Component ν)}
    (hq : find t links q = .missing d m more) :
    mkdir t links (q ++ [c]) = .notFound := by
  unfold mkdir
  rw [getLast?_concat,dropLast_concat,hq]

theorem find_put (hq : find t links q = .found d left) (hd : t.node d = some .dir)
    (hc : t.node (d ++ [c]) = none) :
    find (t.put d c .dir hd (by simp [hc])) links (q ++ [c]) = .found (d ++ [c]) left := by
  have hwithin : t.Within (t.put d c .dir hd (by simp [hc])) := Disk.within_put hc
  have hmade : (t.put d c .dir hd (by simp [hc])).node (d ++ [c]) = some .dir := if_pos rfl
  exact find_concat_real (hwithin.found hq) (hwithin.dir hd) hmade Node.dir_real

section
variable (h : Absent t links p d c rest)
include h

theorem createDirAll_absent : ∃ t' touched left, createDirAll t links p = ⟨t',touched,true⟩ ∧
      d ++ [c] ∈ touched ∧ (∀ loc ∈ touched, d ++ [c] <+: loc ∧ loc <+: d ++ c::rest) ∧
      find t' links p = .found (d ++ c::rest) left ∧
      t'.node (d ++ c::rest) = some .dir ∧ ∀ n, t'.node (d ++ c::rest ++ [n]) = none := by
  obtain ⟨q,left,rfl,hq,hd,hc⟩ := h
  induction rest using reverseRecOn with
  | nil =>
    refine ⟨t.put d c .dir hd (by simp [hc]),[d ++ [c]],left,?_,mem_singleton.mpr rfl,?_,
      find_put hq hd hc,if_pos rfl,fun n => ?_⟩
    · rw [createDirAll_concat,mkdir_absent hq hd hc]
    · intro loc hloc
      rw [mem_singleton.mp hloc]
      exact ⟨prefix_refl _,prefix_refl _⟩
    · have hne : d ++ [c] ++ [n] ≠ d ++ [c] := by simp
      exact (if_neg hne).trans (t.none_below hc n)
  | append_singleton rest x ih =>
    obtain ⟨t₁,touched,k,hcreate,hmem,hbelow,hfind,hdir,hempty⟩ := ih
    have hpath : q ++ c::(rest ++ [x]) = (q ++ c::rest) ++ [x] := by simp
    have hloc : d ++ c::(rest ++ [x]) = (d ++ c::rest) ++ [x] := by simp
    rw [hpath,hloc]
    refine ⟨t₁.put (d ++ c::rest) x .dir hdir (by rw [hempty x]; simp),
      touched ++ [d ++ c::rest ++ [x]],k,?_,mem_append_left _ hmem,?_,
      find_put hfind hdir (hempty x),if_pos rfl,fun n => ?_⟩
    · rw [createDirAll_concat,mkdir_missing (find_append_missing hq hd hc rest),hcreate]
      rw [if_pos rfl,mkdir_absent hfind hdir (hempty x)]
    · intro loc hloc
      obtain hloc | hloc := mem_append.mp hloc
      · obtain ⟨hlow,hhigh⟩ := hbelow loc hloc
        exact ⟨hlow,hhigh.trans (prefix_append _ _)⟩
      · rw [mem_singleton.mp hloc]
        exact ⟨⟨rest ++ [x],by simp⟩,prefix_refl _⟩
    · have hne : d ++ c::rest ++ [x] ++ [n] ≠ d ++ c::rest ++ [x] := by simp
      exact (if_neg hne).trans (t₁.none_below (hempty x) n)

theorem Absent.find_append (more : List ν) :
    find t links (p ++ more) = .missing d c ((rest ++ more).map .name) := by
  obtain ⟨q,left,rfl,hq,hd,hc⟩ := h
  rw [append_assoc,cons_append,find_append_missing hq hd hc]

theorem Absent.not_found : find t links p ≠ .found loc left := by
  have hmissing := h.find_append []
  rw [append_nil] at hmissing
  rw [hmissing]
  exact fun hfound => nomatch hfound

end

theorem createDirAll_found (h : find t links p = .found loc left) :
    createDirAll t links p = ⟨t,[],t.node loc = some .dir⟩ := by
  have hisDir : isDir t links p = decide (t.node loc = some .dir) := by rw [isDir,h]
  cases p using reverseRecOn with
  | nil =>
    cases walk_nil.symm.trans h
    simp [createDirAll,createUp,t.root]
  | append_singleton q c =>
    obtain ⟨d,k,hq,hd,hc⟩ := find_of_concat_found h
    have hmkdir : mkdir t links (q ++ [c]) = .failed := by
      unfold mkdir
      rw [getLast?_concat,dropLast_concat,hq]
      exact dif_neg fun hboth => hc hboth.2
    rw [createDirAll_concat,hmkdir,hisDir]

theorem createDirAll_broken (hfound : ∀ loc left, find t links p ≠ .found loc left)
    (habsent : ∀ d c rest, ¬ Absent t links p d c rest) :
    createDirAll t links p = ⟨t,[],false⟩ := by
  have hisDir : isDir t links p = false := by
    unfold isDir
    split
    · next loc left h => exact absurd h (hfound loc left)
    · rfl
  induction p using reverseRecOn with
  | nil => exact absurd walk_nil (hfound [] links)
  | append_singleton q c ih =>
    rw [createDirAll_concat]
    cases hq : find t links q with
    | found d k =>
      have hmkdir : mkdir t links (q ++ [c]) = .failed := by
        unfold mkdir
        rw [getLast?_concat,dropLast_concat,hq]
        exact dif_neg fun hboth => habsent d c [] ⟨q,k,rfl,hq,hboth⟩
      rw [hmkdir,hisDir]
    | missing d m more =>
      have hqfound (loc : List ν) (left : ℕ) : find t links q ≠ .found loc left := by
        rw [hq]
        exact fun h => nomatch h
      have hqabsent (d : List ν) (c' : ν) (rest : List ν) : ¬ Absent t links q d c' rest := by
        rintro ⟨q',k,rfl,hq'⟩
        exact habsent d c' (rest ++ [c]) ⟨q',k,by simp,hq'⟩
      have hqdir : isDir t links q = false := by rw [isDir,hq]
      rw [mkdir_missing hq,ih hqfound hqabsent hqdir]
      rfl
    | notDir | loop =>
      have hmkdir : mkdir t links (q ++ [c]) = .failed := by
        unfold mkdir
        rw [getLast?_concat,dropLast_concat,hq]
      rw [hmkdir,hisDir]

theorem createDirAll_cases (t : Disk ν) (links : ℕ) (p : List ν) :
    (∃ d left, find t links p = .found d left ∧ t.node d = some .dir ∧
        createDirAll t links p = ⟨t,[],true⟩) ∨
      (∃ d c rest, Absent t links p d c rest) ∨
      ((∀ d left, find t links p = .found d left → t.node d ≠ some .dir) ∧
        (∀ d c rest, ¬ Absent t links p d c rest) ∧ createDirAll t links p = ⟨t,[],false⟩) := by
  by_cases hfound : ∃ d left, find t links p = .found d left
  · obtain ⟨d,left,hfind⟩ := hfound
    have hcreate := createDirAll_found hfind
    by_cases hd : t.node d = some .dir
    · rw [decide_eq_true hd] at hcreate
      exact .inl ⟨d,left,hfind,hd,hcreate⟩
    · rw [decide_eq_false hd] at hcreate
      refine .inr (.inr ⟨fun d' left' h' => ?_,fun d' c rest h => h.not_found hfind,hcreate⟩)
      cases hfind.symm.trans h'
      exact hd
  · by_cases habsent : ∃ d c rest, Absent t links p d c rest
    · exact .inr (.inl habsent)
    · have hfound' (d : List ν) (left : ℕ) : find t links p ≠ .found d left :=
        fun h => hfound ⟨d,left,h⟩
      have habsent' (d : List ν) (c : ν) (rest : List ν) : ¬ Absent t links p d c rest :=
        fun h => habsent ⟨d,c,rest,h⟩
      exact .inr (.inr ⟨fun d left h => absurd h (hfound' d left),habsent',
        createDirAll_broken hfound' habsent'⟩)

end

section
variable {t : Disk ν} {links left : ℕ} {p q d w loc : List ν} {c x : ν} {data : List UInt8}

/-- A write to the path goes to this location: a file, or a name that is missing at the end. -/
def Opens (t : Disk ν) (links : ℕ) (p w : List ν) : Prop :=
  (∃ left content, find t links p = .found w left ∧ t.node w = some (.file content)) ∨
    ∃ d m, find t links p = .missing d m [] ∧ w = d ++ [m]

theorem write_opens (h : Opens t links p w) (data : List UInt8) :
    ∃ t', write t links p data = ⟨t',[w],true⟩ ∧ t.Within t' ∧
      (∀ loc, t'.node loc = some .dir → t.node loc = some .dir) ∧
      t'.node w = some (.file data) := by
  obtain ⟨left,content,hfound,hfile⟩ | ⟨d,m,hmissing,rfl⟩ := h
  · refine ⟨t.rewrite w data ⟨content,hfile⟩,?_,Disk.within_rewrite,fun loc hloc => ?_,if_pos rfl⟩
    · unfold write
      rw [hfound]
      dsimp only
      split
      · rfl
      · next hother => exact absurd hfile (hother content)
    · by_cases heq : loc = w
      · exact nomatch (if_pos heq).symm.trans hloc
      · exact (if_neg heq).symm.trans hloc
  · obtain ⟨hd,hm⟩ := dir_of_missing hmissing
    refine ⟨t.put d m (.file data) hd (by simp [hm]),?_,Disk.within_put hm,fun loc hloc => ?_,
      if_pos rfl⟩
    · unfold write
      rw [hmissing]
      exact dif_pos ⟨hd,hm⟩
    · by_cases heq : loc = d ++ [m]
      · exact nomatch (if_pos heq).symm.trans hloc
      · exact (if_neg heq).symm.trans hloc

theorem write_broken (h : ∀ w, ¬ Opens t links p w) (data : List UInt8) :
    write t links p data = ⟨t,[],false⟩ := by
  unfold write
  split
  · next loc left hfound =>
    split
    · next content hfile => exact absurd (.inl ⟨left,content,hfound,hfile⟩) (h loc)
    · rfl
  · next d m hmissing => exact absurd (.inr ⟨d,m,hmissing,rfl⟩) (h (d ++ [m]))
  · rfl

theorem Opens.unique {w' : List ν} (h : Opens t links p w) (h' : Opens t links p w') : w = w' := by
  obtain ⟨_,_,hfound,-⟩ | ⟨_,_,hmissing,rfl⟩ := h
  · obtain ⟨_,_,hfound',-⟩ | ⟨_,_,hmissing',-⟩ := h'
    · cases hfound.symm.trans hfound'
      rfl
    · cases hfound.symm.trans hmissing'
  · obtain ⟨_,_,hfound',-⟩ | ⟨_,_,hmissing',rfl⟩ := h'
    · cases hmissing.symm.trans hfound'
    · cases hmissing.symm.trans hmissing'
      rfl

theorem opens_missing (hq : find t links q = .found d left) (hd : t.node d = some .dir)
    (hc : t.node (d ++ [c]) = none) : Opens t links (q ++ [c]) (d ++ [c]) :=
  .inr ⟨d,c,find_append_missing hq hd hc [],rfl⟩

theorem dir_of_opens (h : Opens t links (q ++ [c]) w) :
    ∃ d left, find t links q = .found d left ∧ t.node d = some .dir := by
  obtain ⟨left,content,hfound,-⟩ | ⟨d,m,hmissing,-⟩ := h
  · obtain ⟨d,k,hq,hd,-⟩ := find_of_concat_found hfound
    exact ⟨d,k,hq,hd⟩
  · rw [find_append] at hmissing
    cases hq : find t links q with
    | found d' k =>
      refine ⟨d',k,rfl,?_⟩
      by_contra hd
      rw [hq] at hmissing
      have hnot : walk t k d' [.name c] = .notDir := walk_notDir hd _
      exact nomatch hnot.symm.trans hmissing
    | missing d' m' rest =>
      rw [hq] at hmissing
      simp [Outcome.andThen] at hmissing
    | notDir | loop =>
      rw [hq] at hmissing
      cases hmissing

theorem entry_of_opens (hq : find t links q = .found d left) (hd : t.node d = some .dir)
    (h : Opens t links (q ++ [x]) w) :
    t.node (d ++ [x]) ≠ some .dir ∧ (t.node (d ++ [x]) = none → w = d ++ [x]) := by
  constructor
  · intro hdir
    have hfound := find_concat_real hq hd hdir Node.dir_real
    obtain ⟨k,content,hopened,hfile⟩ | ⟨d',m,hmissing,-⟩ := h
    · cases hfound.symm.trans hopened
      cases hdir.symm.trans hfile
    · cases hfound.symm.trans hmissing
  · intro hnone
    have hmissing := find_append_missing hq hd hnone []
    obtain ⟨k,content,hopened,-⟩ | ⟨d',m,hmissing',rfl⟩ := h
    · cases hmissing.symm.trans hopened
    · cases hmissing.symm.trans hmissing'
      rfl

end

section
variable {t : Disk ν} {links : ℕ} {p q loc : List ν}

theorem unlink_leaf (h : entry t links p = some loc) (hnone : t.node loc ≠ none)
    (hdir : t.node loc ≠ some .dir) : unlink t links p = ⟨t.remove loc hdir,[loc],true⟩ := by
  unfold unlink
  rw [h]
  exact dif_neg fun hor => hor.elim hnone hdir

theorem unlink_refused (h : entry t links p = some loc)
    (hor : t.node loc = none ∨ t.node loc = some .dir) : unlink t links p = ⟨t,[],false⟩ := by
  unfold unlink
  rw [h]
  exact dif_pos hor

theorem mem_renamed : loc ∈ renamed t links p q ↔
    ∃ a b, entry t links p = some a ∧ entry t links q = some b ∧ Movable t a b ∧
      (loc = a ∨ loc = b) := by
  unfold renamed
  cases entry t links p with
  | none => simp
  | some a =>
    cases entry t links q with
    | none => simp
    | some b => by_cases hmove : Movable t a b <;> simp [hmove]

end
end FileTree
