import Aios.Lib.FileCalls
import Aios.Vfs.AtomicWrite
import Aios.Vfs.Paths

/-!
The sandbox of the virtual file system. A path of the AIOS scheme is normalised by its text and put
below the root; if it exists, links are resolved and the result checked again. The operations act on
the path that was returned.
-/
namespace Aios.Vfs

open Aios.Core FileTree List

/-- The file system of the AIOS scheme. Its root was canonicalised: it is a directory, and its names
stand for no other directories. -/
structure AiosVfs (t : Disk String) where
  root : PathBuf
  isDir : t.node root = some .dir
  plain : ∀ n ∈ root, n ≠ "." ∧ n ≠ ".."

section

def display (path : List String) : String := "/" ++ "/".intercalate path

/-- `Path::components`, which passes over `.`. -/
def components (path : List String) : List (Component String) :=
  path.filterMap fun seg =>
    if seg = "." then none else if seg = ".." then some .up else some (.name seg)

/-- The stack of names; there is none if `..` climbs above its bottom. -/
def lexical : List String → List (Component String) → Option (List String)
  | stack, [] => some stack
  | stack, .up::rel => if stack = [] then none else lexical stack.dropLast rel
  | stack, .name seg::rel => lexical (stack ++ [seg]) rel

variable (t : Disk String) (links : ℕ)

def canonicalizeInside (root : PathBuf) (candidate : List String) : Except AIOSException PathBuf :=
  -- `strip_prefix`
  if root.map .name <+: components candidate then
    match lexical [] ((components candidate).drop root.length) with
    | none => .error (.permissionDenied
        ("path '" ++ display candidate ++ "' escapes the root '" ++ display root ++ "'"))
    | some stack =>
      match find t links (root ++ stack) with
      | .found canon _ =>
        if root <+: canon then .ok canon
        else .error (.permissionDenied
          ("symlink at '" ++ display (root ++ stack) ++ "' escapes the root '" ++
            display root ++ "'"))
      -- what does not exist is not looked at any further
      | _ => .ok (root ++ stack)
  else .error (.permissionDenied
    ("path '" ++ display candidate ++ "' is outside the root '" ++ display root ++ "'"))

/-- The check with a root that the file system was given on an earlier disk. -/
def requireInside (root : PathBuf) (path : VfsPath) : Except AIOSException PathBuf :=
  if path.scheme ≠ .aios then
    .error (.invalidPayload ("path '" ++ path.toUri ++ "' does not belong to the AIOS scheme"))
  else canonicalizeInside t links root (root ++ segments path.path)

variable {t}

def AiosVfs.requireAiosPath (vfs : AiosVfs t) (path : VfsPath) : Except AIOSException PathBuf :=
  requireInside t links vfs.root path

end

section
variable (t : Disk String) (links : ℕ)

def reached (full : PathBuf) : List PathBuf :=
  match find t links full with
  | .found loc _ => [loc]
  | _ => []

/-- The directory of a file is created, and then something done in it. -/
def inParent (full : PathBuf) (act : Disk String → List PathBuf) : List PathBuf :=
  let made := createDirAll t links full.dropLast
  if made.ok then made.touched ++ act made.tree else made.touched

def written (full : PathBuf) (data : List UInt8) : List PathBuf :=
  inParent t links full fun t => (write t links full data).touched

/-- The calls of the atomic write once the directory is there. -/
def replaced (full : PathBuf) (data : List UInt8) : List PathBuf :=
  let tmp := write t links (tmpPath full) data
  if tmp.ok then
    let removed := unlink tmp.tree links full
    tmp.touched ++ removed.touched ++ renamed removed.tree links (tmpPath full) full
  else tmp.touched

def atomicWritten (full : PathBuf) (data : List UInt8) : List PathBuf :=
  inParent t links full fun t => replaced t links full data

/-- `metadata` first, then the removal of the entry. -/
def deleted (full : PathBuf) : List PathBuf :=
  match find t links full with
  | .found _ _ => (entry t links full).toList
  | _ => []

end

inductive Op where
  | listDir (dir : VfsPath)
  | metadata (path : VfsPath)
  | readFile (path : VfsPath)
  | writeFile (path : VfsPath) (data : List UInt8)
  | atomicWrite (path : VfsPath) (data : List UInt8)
  | createDir (path : VfsPath)
  | deleteItem (path : VfsPath)
  | rename (src dst : VfsPath)
  | pathExists (path : VfsPath)
  | openRead (path : VfsPath)
  | openWrite (path : VfsPath)
  | openSeek (path : VfsPath)
  | resolve (path : VfsPath)

section
variable {t : Disk String} (links : ℕ) (vfs : AiosVfs t)

/-- What is touched on a path, which is nothing if the path is refused. -/
def AiosVfs.onPath (path : VfsPath) (act : PathBuf → List PathBuf) : List PathBuf :=
  match vfs.requireAiosPath links path with
  | .ok full => act full
  | .error _ => []

/-- The objects that an operation reads, writes, creates or deletes. -/
def AiosVfs.touched : Op → List PathBuf
  | .listDir dir => vfs.onPath links dir (reached t links)
  | .metadata path => vfs.onPath links path (reached t links)
  | .readFile path => vfs.onPath links path (reached t links)
  | .writeFile path data => vfs.onPath links path (written t links · data)
  | .atomicWrite path data => vfs.onPath links path (atomicWritten t links · data)
  | .createDir path => vfs.onPath links path fun full => (createDirAll t links full).touched
  | .deleteItem path => vfs.onPath links path (deleted t links)
  | .rename src dst =>
    vfs.onPath links src fun srcFull => vfs.onPath links dst fun dstFull =>
      renamed t links srcFull dstFull
  | .pathExists path => vfs.onPath links path (reached t links)
  | .openRead path => vfs.onPath links path (reached t links)
  | .openWrite path => vfs.onPath links path (written t links · [])
  | .openSeek path => vfs.onPath links path (reached t links)
  | .resolve _ => []

end

variable {names : List String} {a : PathBuf} {t' : Disk String}

section
variable {t : Disk String} {links : ℕ} {vfs : AiosVfs t} {path : VfsPath} {full : PathBuf}

/-- The path stands for an object inside the root, or for one that does not exist yet. -/
def AiosVfs.Stands (links : ℕ) (vfs : AiosVfs t) (path : VfsPath) (full : PathBuf) : Prop :=
  path.scheme = .aios ∧ ∃ stack, lexical [] (components (segments path.path)) = some stack ∧
    ((∃ left, find t links (vfs.root ++ stack) = .found full left) ∧ vfs.root <+: full ∨
      (∀ loc left, find t links (vfs.root ++ stack) ≠ .found loc left) ∧
        full = vfs.root ++ stack)

theorem components_append {root : PathBuf} (h : ∀ n ∈ root, n ≠ "." ∧ n ≠ "..")
    (segs : List String) : components (root ++ segs) = root.map .name ++ components segs := by
  have hroot : components root = root.map .name := by
    rw [← filterMap_eq_map]
    refine filterMap_congr fun n hn => ?_
    obtain ⟨hdot,hup⟩ := h n hn
    rw [if_neg hdot,if_neg hup]
    rfl
  unfold components at hroot ⊢
  rw [filterMap_append,hroot]

theorem AiosVfs.requireAiosPath_eq_ok :
    vfs.requireAiosPath links path = .ok full ↔ vfs.Stands links path full := by
  have hdrop : (vfs.root.map Component.name ++ components (segments path.path)).drop
      vfs.root.length = components (segments path.path) :=
    drop_left' (length_map Component.name)
  unfold requireAiosPath requireInside canonicalizeInside Stands
  rw [components_append vfs.plain,if_pos (prefix_append _ _),hdrop]
  by_cases hscheme : path.scheme = .aios
  · rw [if_neg (not_not.mpr hscheme)]
    cases lexical [] (components (segments path.path)) with
    | none => simp
    | some stack =>
      simp only [hscheme,true_and,Option.some.injEq,exists_eq_left']
      cases hfind : find t links (vfs.root ++ stack) with
      | found loc left =>
        by_cases hinside : vfs.root <+: loc
        · constructor
          · intro h
            cases (if_pos hinside).symm.trans h
            exact .inl ⟨⟨left,rfl⟩,hinside⟩
          · rintro (⟨⟨k,hk⟩,-⟩ | ⟨hnone,-⟩)
            · cases hk
              exact if_pos hinside
            · exact absurd rfl (hnone loc left)
        · constructor
          · intro h
            cases (if_neg hinside).symm.trans h
          · rintro (⟨⟨k,hk⟩,hfull⟩ | ⟨hnone,-⟩)
            · cases hk
              exact absurd hfull hinside
            · exact absurd rfl (hnone loc left)
      | missing | notDir | loop => simp [eq_comm]
  · simp [hscheme]

theorem lexical_plain (h : ∀ n ∈ names, Plain n) (stack : List String) :
    lexical stack (components names) = some (stack ++ names) := by
  induction names generalizing stack with
  | nil => rw [append_nil]; rfl
  | cons n names ih =>
    obtain ⟨-,hdot,hup,-⟩ := h n mem_cons_self
    have hcons : components (n::names) = .name n::components names := by
      simp [components,hdot,hup]
    rw [hcons,lexical,ih fun m hm => h m (mem_cons_of_mem _ hm),append_assoc,singleton_append]

/-- A path in normal form is refused only for a link that leads out of the root. -/
theorem AiosVfs.refused_iff_of_normalized (h : ∀ n ∈ names, Plain n) :
    (∀ full, vfs.requireAiosPath links ⟨.aios,render names⟩ ≠ .ok full) ↔
      ∃ canon left, find t links (vfs.root ++ names) = .found canon left ∧
        ¬ vfs.root <+: canon := by
  have hstands (full : PathBuf) : vfs.Stands links ⟨.aios,render names⟩ full ↔
      (∃ left, find t links (vfs.root ++ names) = .found full left) ∧ vfs.root <+: full ∨
        (∀ loc left, find t links (vfs.root ++ names) ≠ .found loc left) ∧
          full = vfs.root ++ names := by
    unfold Stands
    rw [segments_render h,lexical_plain h]
    simp
  simp only [ne_eq,requireAiosPath_eq_ok,hstands]
  constructor
  · intro hrefused
    by_contra hno
    by_cases hfound : ∃ canon left, find t links (vfs.root ++ names) = .found canon left
    · obtain ⟨canon,left,hfind⟩ := hfound
      refine hrefused canon (.inl ⟨⟨left,hfind⟩,?_⟩)
      by_contra hout
      exact hno ⟨canon,left,hfind,hout⟩
    · exact hrefused _ (.inr ⟨fun loc left hfind => hfound ⟨loc,left,hfind⟩,rfl⟩)
  · rintro ⟨canon,left,hfind,hout⟩ full (⟨⟨k,hk⟩,hin⟩ | ⟨hnone,-⟩)
    · cases hfind.symm.trans hk
      exact hout hin
    · exact hnone canon left hfind

/-- A path below the root, which leads to no other object than the one it names. -/
structure Inside (t : Disk String) (links : ℕ) (root p : PathBuf) : Prop where
  isDir : t.node root = some .dir
  below : root <+: p
  canonical : ∀ loc left, find t links p = .found loc left → loc = p

theorem AiosVfs.Stands.inside (h : vfs.Stands links path full) : Inside t links vfs.root full := by
  obtain ⟨-,stack,-,⟨⟨k,hk⟩,hinside⟩ | ⟨hnone,rfl⟩⟩ := h
  · refine ⟨vfs.isDir,hinside,fun loc left hfound => ?_⟩
    obtain ⟨node,hnode,hreal⟩ := real_of_find hk
    cases (find_real hnode hreal).symm.trans hfound
    rfl
  · exact ⟨vfs.isDir,prefix_append _ _,fun loc left h => absurd h (hnone loc left)⟩

theorem AiosVfs.forall_mem_onPath {act : PathBuf → List PathBuf} {P : PathBuf → Prop} :
    (∀ loc ∈ vfs.onPath links path act, P loc) ↔
      ∀ full, vfs.Stands links path full → ∀ loc ∈ act full, P loc := by
  unfold onPath
  cases hpath : vfs.requireAiosPath links path with
  | ok full =>
    constructor
    · intro h full' hstands
      cases hpath.symm.trans (requireAiosPath_eq_ok.mpr hstands)
      exact h
    · intro h
      exact h full (requireAiosPath_eq_ok.mp hpath)
  | error e =>
    constructor
    · intro _ full hstands
      cases hpath.symm.trans (requireAiosPath_eq_ok.mpr hstands)
    · exact fun _ loc hloc => nomatch hloc

end

section
variable {t : Disk String} {links left : ℕ} {root p q d w : PathBuf} {c x : String}
  {data : List UInt8}

/-- What is missing of a directory would be made inside the root. -/
def MadeInside (t : Disk String) (links : ℕ) (root p : PathBuf) : Prop :=
  ∀ d c rest, Absent t links p d c rest → root <+: d

/-- The path exists, or its directory lies inside the root. -/
def EntryInside (t : Disk String) (links : ℕ) (root p : PathBuf) : Prop :=
  (∃ loc left, find t links p = .found loc left) ∨
    ∀ d left, find t links p.dropLast = .found d left → root <+: d

theorem prefix_of_concat (hroot : t.node root = some .dir) (hleaf : t.node (d ++ [c]) ≠ some .dir)
    (h : root <+: d ++ [c]) : root <+: d := by
  obtain rfl | hd := prefix_concat_iff.mp h
  · exact absurd hroot hleaf
  · exact hd

theorem reached_inside (hp : Inside t links root p) : ∀ loc ∈ reached t links p, root <+: loc := by
  intro loc hloc
  unfold reached at hloc
  split at hloc
  · next loc' left hfound =>
    rw [mem_singleton.mp hloc,hp.canonical loc' left hfound]
    exact hp.below
  · cases hloc

theorem entry_canonical (hp : Inside t links root p)
    (hfound : ∃ loc left, find t links p = .found loc left) (ha : entry t links p = some a) :
    a = p := by
  obtain ⟨loc,left,hfind⟩ := hfound
  obtain rfl := hp.canonical loc left hfind
  obtain ⟨node,hnode,-⟩ := real_of_find hfind
  have hne : loc ≠ [] := by
    rintro rfl
    cases ha
  exact Option.some.inj (ha.symm.trans (entry_real hnode hne))

theorem deleted_inside (hp : Inside t links root p) : ∀ loc ∈ deleted t links p, root <+: loc := by
  intro loc hloc
  unfold deleted at hloc
  split at hloc
  · next loc' left hfound =>
    rw [entry_canonical hp ⟨loc',left,hfound⟩ (Option.mem_toList.mp hloc)]
    exact hp.below
  · cases hloc

theorem createDirAll_inside_iff (hroot : t.node root = some .dir) :
    (∀ loc ∈ (createDirAll t links p).touched, root <+: loc) ↔ MadeInside t links root p := by
  constructor
  · intro h d c rest habsent
    obtain ⟨t',touched,left,hcreate,hmem,-⟩ := createDirAll_absent habsent
    obtain ⟨-,-,-,-,-,hc⟩ := habsent
    rw [hcreate] at h
    exact prefix_of_concat hroot (by simp [hc]) (h _ hmem)
  · intro h loc hloc
    obtain ⟨-,-,-,-,hcreate⟩ | ⟨d,c,rest,habsent⟩ | ⟨-,-,hcreate⟩ := createDirAll_cases t links p
    · rw [hcreate] at hloc
      cases hloc
    · obtain ⟨t',touched,left,hcreate,-,hbelow,-⟩ := createDirAll_absent habsent
      rw [hcreate] at hloc
      exact (h d c rest habsent).trans ((prefix_append _ _).trans (hbelow loc hloc).1)
    · rw [hcreate] at hloc
      cases hloc

/-- The entry of a path lies inside the root if the path exists or its directory does. -/
theorem entry_inside_iff (hp : Inside t links root p) (ha : entry t links p = some a) :
    root <+: a ↔ EntryInside t links root p := by
  by_cases hfound : ∃ loc left, find t links p = .found loc left
  · rw [entry_canonical hp hfound ha]
    exact iff_of_true hp.below (.inl hfound)
  · cases p using reverseRecOn with
    | nil => cases ha
    | append_singleton q c =>
      obtain ⟨d,left,hq,hd,rfl⟩ := entry_concat.mp ha
      unfold EntryInside
      rw [dropLast_concat,hq]
      constructor
      · intro h
        refine .inr fun d' left' heq => ?_
        cases heq
        refine prefix_of_concat hp.isDir (fun hdir => hfound ?_) h
        exact ⟨_,_,find_concat_real hq hd hdir Node.dir_real⟩
      · rintro (h | h)
        · exact absurd h hfound
        · exact (h d left rfl).trans (prefix_append _ _)

theorem renamed_inside_iff (hp : Inside t links root p) (hq : Inside t links root q) :
    (∀ loc ∈ renamed t links p q, root <+: loc) ↔
      ∀ a b, entry t links p = some a → entry t links q = some b → Movable t a b →
        EntryInside t links root p ∧ EntryInside t links root q := by
  constructor
  · intro h a b ha hb hmove
    rw [← entry_inside_iff hp ha,← entry_inside_iff hq hb]
    exact ⟨h a (mem_renamed.mpr ⟨a,b,ha,hb,hmove,.inl rfl⟩),
      h b (mem_renamed.mpr ⟨a,b,ha,hb,hmove,.inr rfl⟩)⟩
  · intro h loc hloc
    obtain ⟨a,b,ha,hb,hmove,hor⟩ := mem_renamed.mp hloc
    obtain ⟨hpin,hqin⟩ := h a b ha hb hmove
    obtain rfl | rfl := hor
    · exact (entry_inside_iff hp ha).mpr hpin
    · exact (entry_inside_iff hq hb).mpr hqin

theorem inParent_inside_iff {act : Disk String → List PathBuf} {Q : Prop}
    (hroot : t.node root = some .dir)
    (hthere : ∀ d left, find t links q = .found d left → t.node d = some .dir →
      ((∀ loc ∈ act t, root <+: loc) ↔ Q))
    (hmade : ∀ t' d left, find t' links q = .found d left → t'.node d = some .dir →
      (∀ n, t'.node (d ++ [n]) = none) → ∀ loc ∈ act t', d <+: loc)
    (hnone : (∀ d left, find t links q = .found d left → t.node d ≠ some .dir) → Q) :
    (∀ loc ∈ inParent t links (q ++ [c]) act, root <+: loc) ↔ MadeInside t links root q ∧ Q := by
  rw [← createDirAll_inside_iff hroot]
  unfold inParent
  rw [dropLast_concat]
  obtain ⟨d,left,hq,hd,hcreate⟩ | ⟨d,c',rest,habsent⟩ | ⟨hbroken,-,hcreate⟩ :=
    createDirAll_cases t links q
  · rw [hcreate,← hthere d left hq hd]
    simp
  · have hQ : Q := hnone fun d left h => absurd h habsent.not_found
    obtain ⟨t',touched,left,hcreate,hmem,-,hfind,hdir,hempty⟩ := createDirAll_absent habsent
    have hact := hmade t' _ left hfind hdir hempty
    have hbelow : d ++ [c'] <+: d ++ c'::rest := ⟨rest,by simp⟩
    rw [hcreate,and_iff_left hQ]
    rw [if_pos rfl,forall_mem_append,and_iff_left_iff_imp]
    intro h loc hloc
    exact (h _ hmem).trans (hbelow.trans (hact loc hloc))
  · rw [hcreate,and_iff_left (hnone hbroken)]
    simp

theorem write_inside_iff (hp : Inside t links root p) :
    (∀ loc ∈ (write t links p data).touched, root <+: loc) ↔
      ∀ d m, find t links p = .missing d m [] → root <+: d := by
  by_cases hopens : ∃ w, Opens t links p w
  · obtain ⟨w,hw⟩ := hopens
    obtain ⟨t',hwrite,-⟩ := write_opens hw data
    rw [hwrite,forall_mem_singleton]
    obtain ⟨k,content,hfound,-⟩ | ⟨d,m,hmissing,rfl⟩ := hw
    · rw [hp.canonical _ _ hfound,hfound]
      exact iff_of_true hp.below fun _ _ h => nomatch h
    · obtain ⟨-,hm⟩ := dir_of_missing hmissing
      constructor
      · intro h d' m' heq
        cases hmissing.symm.trans heq
        exact prefix_of_concat hp.isDir (by simp [hm]) h
      · intro h
        exact (h d m hmissing).trans (prefix_append _ _)
  · rw [write_broken (fun w hw => hopens ⟨w,hw⟩)]
    refine iff_of_true (fun _ h => nomatch h) fun d m hmissing => ?_
    exact absurd ⟨_,.inr ⟨d,m,hmissing,rfl⟩⟩ hopens

theorem written_inside_iff (hp : Inside t links root p) :
    (∀ loc ∈ written t links p data, root <+: loc) ↔
      MadeInside t links root p.dropLast ∧
        ∀ d m, find t links p = .missing d m [] → root <+: d := by
  cases p using reverseRecOn with
  | nil =>
    obtain rfl := prefix_nil.mp hp.below
    exact iff_of_true (fun _ _ => nil_prefix) ⟨fun _ _ _ _ => nil_prefix,fun _ _ _ => nil_prefix⟩
  | append_singleton q c =>
    rw [dropLast_concat]
    refine inParent_inside_iff hp.isDir (fun _ _ _ _ => write_inside_iff hp) ?_ ?_
    · intro t' d left hq hd hempty loc hloc
      obtain ⟨t'',hwrite,-⟩ := write_opens (opens_missing hq hd (hempty c)) data
      rw [hwrite] at hloc
      rw [mem_singleton.mp hloc]
      exact prefix_append _ _
    · intro hbroken d m hmissing
      obtain ⟨d',left,hq,hd⟩ := dir_of_opens (.inr ⟨d,m,hmissing,rfl⟩)
      exact absurd hd (hbroken d' left hq)

theorem tmpPath_concat : tmpPath (q ++ [c]) = q ++ [c ++ ".tmp"] := by
  rw [tmpPath,dropLast_concat,getLast?_concat,Option.getD_some]

/-- A directory is not replaced: only the sibling is written. -/
theorem replaced_dir (hq : find t links q = .found d left) (hd : t.node d = some .dir)
    (hw : Opens t links (tmpPath (q ++ [c])) w) (hdir : t.node (d ++ [c]) = some .dir) :
    replaced t links (q ++ [c]) data = [w] := by
  obtain ⟨t',hwrite,hwithin,hdirs,-⟩ := write_opens hw data
  have hq' : find t' links q = .found d left := hwithin.found hq
  have hentry : entry t' links (q ++ [c]) = some (d ++ [c]) :=
    entry_concat.mpr ⟨d,left,hq',hwithin.dir hd,rfl⟩
  have hdir' := hwithin.dir hdir
  rw [tmpPath_concat] at hw
  obtain ⟨hleaf,-⟩ := entry_of_opens hq hd hw
  have hrenamed : renamed t' links (tmpPath (q ++ [c])) (q ++ [c]) = [] := by
    refine eq_nil_iff_forall_not_mem.mpr fun loc hloc => ?_
    obtain ⟨a,b,ha,hb,⟨-,node,hnode,hreplaces⟩,-⟩ := mem_renamed.mp hloc
    cases hentry.symm.trans hb
    rw [tmpPath_concat] at ha
    obtain ⟨d',left',hq'',-,rfl⟩ := entry_concat.mp ha
    cases hq'.symm.trans hq''
    rw [hdir'] at hreplaces
    obtain rfl : node = .dir := hreplaces.mpr rfl
    exact hleaf (hdirs _ hnode)
  unfold replaced
  rw [hwrite]
  dsimp only
  rw [if_pos rfl,unlink_refused hentry (.inr hdir'),hrenamed]
  rfl

/-- In a tree that is not larger, a path can only lead to the same directory. -/
theorem prefix_of_mem_renamed (hwithin : t'.Within t) (hq : find t links q = .found d left) :
    ∀ loc ∈ renamed t' links (q ++ [x]) (q ++ [c]), d <+: loc := by
  intro loc hloc
  obtain ⟨a,b,ha,hb,-,hor⟩ := mem_renamed.mp hloc
  obtain ⟨da,ka,hqa,-,rfl⟩ := entry_concat.mp ha
  obtain ⟨db,kb,hqb,-,rfl⟩ := entry_concat.mp hb
  cases hq.symm.trans (hwithin.found hqa)
  cases hq.symm.trans (hwithin.found hqb)
  obtain rfl | rfl := hor <;> exact prefix_append _ _

theorem sibling_written (hwithin : t.Within t') (hq : find t links q = .found d left)
    (hd : t.node d = some .dir) (hw : Opens t links (q ++ [x]) w)
    (hfile : t'.node w = some (.file data)) : ∃ node, t'.node (d ++ [x]) = some node := by
  obtain ⟨-,hwhere⟩ := entry_of_opens hq hd hw
  cases hold : t.node (d ++ [x]) with
  | none => exact ⟨_,hwhere hold ▸ hfile⟩
  | some node =>
    obtain ⟨node',hnode',-⟩ := hwithin _ _ hold
    exact ⟨node',hnode'⟩

/-- Otherwise the entry of the file is touched, and beyond the object to which the sibling leads
nothing but its directory. -/
theorem replaced_leaf (data : List UInt8) (hq : find t links q = .found d left)
    (hd : t.node d = some .dir) (hw : Opens t links (tmpPath (q ++ [c])) w)
    (hleaf : t.node (d ++ [c]) ≠ some .dir) :
    w ∈ replaced t links (q ++ [c]) data ∧ d ++ [c] ∈ replaced t links (q ++ [c]) data ∧
      ∀ loc ∈ replaced t links (q ++ [c]) data, loc = w ∨ d <+: loc := by
  obtain ⟨t',hwrite,hwithin,hdirs,hfile⟩ := write_opens hw data
  have hq' : find t' links q = .found d left := hwithin.found hq
  have hentry (n : String) : entry t' links (q ++ [n]) = some (d ++ [n]) :=
    entry_concat.mpr ⟨d,left,hq',hwithin.dir hd,rfl⟩
  have hleaf' : t'.node (d ++ [c]) ≠ some .dir := fun h => hleaf (hdirs _ h)
  have hne : tmpPath (q ++ [c]) ≠ q ++ [c] := tmpPath_ne _
  unfold replaced
  rw [hwrite]
  rw [if_pos rfl]
  rw [tmpPath_concat] at hw hne ⊢
  refine ⟨by simp,?_⟩
  by_cases hnone : t'.node (d ++ [c]) = none
  · -- nothing is removed, and the sibling moves to the place of the file
    obtain ⟨node,hnode⟩ := sibling_written hwithin hq hd hw hfile
    have hmove : Movable t' (d ++ [c ++ ".tmp"]) (d ++ [c]) := by
      refine ⟨fun heq => hne ?_,node,hnode,?_⟩
      · rw [append_cancel_left heq]
      · rw [hnone]
        trivial
    rw [unlink_refused (hentry c) (.inl hnone)]
    constructor
    · exact mem_append_right _ (mem_renamed.mpr ⟨_,_,hentry _,hentry c,hmove,.inr rfl⟩)
    · intro loc hloc
      obtain hloc | hloc := mem_append.mp hloc
      · exact .inl (mem_singleton.mp (by simpa using hloc))
      · exact .inr (prefix_of_mem_renamed (Disk.Within.refl t') hq' loc hloc)
  · rw [unlink_leaf (hentry c) hnone hleaf']
    constructor
    · simp
    · intro loc hloc
      obtain hloc | hloc := mem_append.mp hloc
      · obtain rfl | rfl : loc = w ∨ loc = d ++ [c] := by simpa using hloc
        · exact .inl rfl
        · exact .inr (prefix_append _ _)
      · exact .inr (prefix_of_mem_renamed (Disk.within_of_remove hleaf') hq' loc hloc)

theorem replaced_inside_iff (hp : Inside t links root (q ++ [c]))
    (hq : find t links q = .found d left) (hd : t.node d = some .dir) :
    (∀ loc ∈ replaced t links (q ++ [c]) data, root <+: loc) ↔
      ∀ w, Opens t links (tmpPath (q ++ [c])) w →
        root <+: w ∧ EntryInside t links root (q ++ [c]) := by
  by_cases hopens : ∃ w, Opens t links (tmpPath (q ++ [c])) w
  · obtain ⟨w,hw⟩ := hopens
    have hone : (∀ w, Opens t links (tmpPath (q ++ [c])) w →
        root <+: w ∧ EntryInside t links root (q ++ [c])) ↔
        root <+: w ∧ EntryInside t links root (q ++ [c]) :=
      ⟨fun h => h w hw,fun h w' hw' => hw.unique hw' ▸ h⟩
    rw [hone]
    by_cases hdir : t.node (d ++ [c]) = some .dir
    · have hfound := find_concat_real hq hd hdir Node.dir_real
      rw [replaced_dir hq hd hw hdir,forall_mem_singleton,
        and_iff_left (show EntryInside t links root (q ++ [c]) from .inl ⟨_,_,hfound⟩)]
    · obtain ⟨hmem,hentry,hbelow⟩ := replaced_leaf data hq hd hw hdir
      have hiff := entry_inside_iff hp (entry_concat.mpr ⟨d,left,hq,hd,rfl⟩)
      constructor
      · intro h
        exact ⟨h w hmem,hiff.mp (h _ hentry)⟩
      · rintro ⟨hin,hinside⟩ loc hloc
        obtain rfl | hloc := hbelow loc hloc
        · exact hin
        · exact (prefix_of_concat hp.isDir hdir (hiff.mpr hinside)).trans hloc
  · rw [replaced,write_broken fun w hw => hopens ⟨w,hw⟩]
    exact iff_of_true (fun _ h => nomatch h) fun w hw => absurd ⟨w,hw⟩ hopens

theorem atomicWritten_inside_iff (hp : Inside t links root p) :
    (∀ loc ∈ atomicWritten t links p data, root <+: loc) ↔
      MadeInside t links root p.dropLast ∧
        ∀ w, Opens t links (tmpPath p) w → root <+: w ∧ EntryInside t links root p := by
  cases p using reverseRecOn with
  | nil =>
    obtain rfl := prefix_nil.mp hp.below
    exact iff_of_true (fun _ _ => nil_prefix) ⟨fun _ _ _ _ => nil_prefix,
      fun _ _ => ⟨ nil_prefix,.inr fun _ _ _ => nil_prefix⟩⟩
  | append_singleton q c =>
    rw [dropLast_concat]
    refine inParent_inside_iff hp.isDir (fun _ _ hq hd => replaced_inside_iff hp hq hd) ?_ ?_
    · intro t' d left hq hd hempty loc hloc
      have hw : Opens t' links (tmpPath (q ++ [c])) (d ++ [c ++ ".tmp"]) := by
        rw [tmpPath_concat]
        exact opens_missing hq hd (hempty _)
      obtain ⟨-,-,hbelow⟩ := replaced_leaf data hq hd hw (by simp [hempty c])
      obtain rfl | hloc := hbelow loc hloc
      · exact prefix_append _ _
      · exact hloc
    · intro hbroken w hw
      rw [tmpPath_concat] at hw
      obtain ⟨d,left,hq,hd⟩ := dir_of_opens hw
      exact absurd hd (hbroken d left hq)

end

section
variable {t : Disk String}

/-- The directories in which an operation creates, replaces or moves something lie inside the root,
and so does the file to which the sibling of an atomic write leads. Reading and deleting act only on
what exists, and that was checked. -/
def AiosVfs.Safe (links : ℕ) (vfs : AiosVfs t) : Op → Prop
  | .writeFile path _ | .openWrite path => ∀ full, vfs.Stands links path full →
    MadeInside t links vfs.root full.dropLast ∧
      ∀ d m, find t links full = .missing d m [] → vfs.root <+: d
  | .atomicWrite path _ => ∀ full, vfs.Stands links path full →
    MadeInside t links vfs.root full.dropLast ∧
      ∀ w, Opens t links (tmpPath full) w → vfs.root <+: w ∧ EntryInside t links vfs.root full
  | .createDir path => ∀ full, vfs.Stands links path full → MadeInside t links vfs.root full
  | .rename src dst => ∀ p, vfs.Stands links src p → ∀ q, vfs.Stands links dst q →
    ∀ a b, entry t links p = some a → entry t links q = some b → Movable t a b →
      EntryInside t links vfs.root p ∧ EntryInside t links vfs.root q
  | _ => True

/-- An operation stays inside the root precisely if it is safe. -/
theorem AiosVfs.confined_iff_safe (links : ℕ) (vfs : AiosVfs t) (op : Op) :
    (∀ loc ∈ vfs.touched links op, vfs.root <+: loc) ↔ vfs.Safe links op := by
  have hreached (path : VfsPath) : (∀ loc ∈ vfs.onPath links path (reached t links),
      vfs.root <+: loc) ↔ True :=
    iff_true_intro (forall_mem_onPath.mpr fun _ h => reached_inside h.inside)
  have hwritten (path : VfsPath) (data : List UInt8) :
      (∀ loc ∈ vfs.onPath links path (written t links · data), vfs.root <+: loc) ↔
        vfs.Safe links (.openWrite path) :=
    forall_mem_onPath.trans (forall₂_congr fun _ h => written_inside_iff h.inside)
  cases op with
  | listDir dir => exact hreached dir
  | metadata path | readFile path | pathExists path | openRead path | openSeek path =>
    exact hreached path
  | writeFile path data => exact hwritten path data
  | atomicWrite path data =>
    exact forall_mem_onPath.trans (forall₂_congr fun _ h => atomicWritten_inside_iff h.inside)
  | createDir path =>
    exact forall_mem_onPath.trans (forall₂_congr fun _ _ => createDirAll_inside_iff vfs.isDir)
  | deleteItem path =>
    exact iff_true_intro (forall_mem_onPath.mpr fun _ h => deleted_inside h.inside)
  | rename src dst =>
    exact forall_mem_onPath.trans (forall₂_congr fun _ hp => forall_mem_onPath.trans
      (forall₂_congr fun _ hq => renamed_inside_iff hp.inside hq.inside))
  | openWrite path => exact hwritten path []
  | resolve path => exact iff_true_intro fun _ h => nomatch h

def linkedDisk : Disk String :=
  let outside := Disk.bare.put [] "outside" .dir (by decide) (by decide)
  let srv := outside.put [] "srv" .dir (by decide) (by decide)
  let box := srv.put ["srv"] "box" .dir (by decide) (by decide)
  box.put ["srv","box"] "link" (.link ⟨true,[.name "outside"]⟩) (by decide) (by decide)

def linkedVfs : AiosVfs linkedDisk where
  root := ["srv","box"]
  isDir := by decide
  plain := by decide

/-- A file that does not exist yet is created through the link. -/
theorem write_leaves_root : linkedVfs.requireAiosPath 40 ⟨.aios,"/link/evil.txt"⟩ =
        .ok ["srv","box","link","evil.txt"] ∧
      linkedVfs.touched 40 (.writeFile ⟨.aios,"/link/evil.txt"⟩ [1]) =
        [["outside","evil.txt"]] ∧
      ¬ linkedVfs.root <+: ["outside","evil.txt"] := by
  decide +kernel

theorem link_refused :
    ¬ ∃ full, linkedVfs.requireAiosPath 40 ⟨.aios,render ["link"]⟩ = .ok full :=
  not_exists.mpr ((AiosVfs.refused_iff_of_normalized (forall_mem_singleton.mpr ⟨by decide,by decide,
    by decide,by simp [isSeparator]⟩)).mpr ⟨["outside"],39,by decide,by decide⟩)

end
end Aios.Vfs
