import Aios.Core.Error
import Aios.Lib.Splits
import Aios.Lib.TextCodec

/-!
The paths of the virtual file system, normalised by their text: empty segments and `.` are dropped,
and `..` removes the segment before it, if any.
-/
namespace Aios.Vfs

open Aios.Core Splits List

inductive VfsScheme where
  | aios
  | host
  deriving DecidableEq

def VfsScheme.asUri : VfsScheme → String
  | .aios => "AIOS://"
  | .host => "HOST://"

structure VfsPath where
  scheme : VfsScheme
  path : String
  deriving DecidableEq

def isSeparator (c : Char) : Bool := c = '/' || c = '\\'

/-- The next segment: empty ones and `.` are dropped, `..` removes the last one kept. -/
def clamp (out : List String) (seg : String) : List String :=
  if seg = "" ∨ seg = "." then out else if seg = ".." then out.dropLast else out ++ [seg]

def render (out : List String) : String :=
  if out = [] then "/" else "/" ++ "/".intercalate out

def normalizeVirtualPath (raw : String) : String :=
  render (((raw.toList.splitOnP isSeparator).map String.ofList).foldl clamp [])

/-- `split('/')`, without the empty segments. -/
def segments (path : String) : List String :=
  ((path.toList.splitOn '/').map String.ofList).filter (· ≠ "")

def pathFileName (virtualPath : String) : Option String :=
  (((normalizeVirtualPath virtualPath).toList.splitOn '/').map String.ofList).getLast?.filter
    (· ≠ "")

def pathParent (virtualPath : String) : String :=
  let norm := normalizeVirtualPath virtualPath
  if norm = "/" then "/" else render (segments norm).dropLast

namespace VfsPath

def trim (uri : String) : String := String.ofList (TextCodec.trim uri.toList)

def stripScheme (uri scheme : String) : Option String :=
  (uri.toList.dropPrefix? scheme.toList).map fun rest => String.ofList rest

/-- Only the two spellings of a scheme, in capitals and in small letters, are accepted. -/
def parse (raw : String) : Except AIOSException VfsPath :=
  let uri := trim raw
  match (stripScheme uri "AIOS://").or (stripScheme uri "aios://") with
  | some rest => .ok ⟨.aios,normalizeVirtualPath rest⟩
  | none =>
    match (stripScheme uri "HOST://").or (stripScheme uri "host://") with
    | some rest => .ok ⟨.host,normalizeVirtualPath rest⟩
    | none => .error (.invalidPayload
        ("invalid VFS URI '" ++ uri ++ "' — expected AIOS:// or HOST://"))

variable (p : VfsPath)

def toUri : String := p.scheme.asUri ++ p.path

def join (name : String) : VfsPath := ⟨p.scheme,normalizeVirtualPath (p.path ++ "/" ++ name)⟩

def parent : VfsPath := ⟨p.scheme,pathParent p.path⟩

def fileName : Option String := pathFileName p.path

end VfsPath

section

structure Plain (seg : String) : Prop where
  ne_empty : seg ≠ ""
  ne_dot : seg ≠ "."
  ne_up : seg ≠ ".."
  whole : ∀ c ∈ seg.toList, isSeparator c = false

/-- The path is what normalisation gives: its segments are all kept. -/
def Normalized (path : String) : Prop := ∃ names, (∀ n ∈ names, Plain n) ∧ path = render names

variable {out names : List String} {seg : String}

theorem plain_clamp (hseg : ∀ c ∈ seg.toList, isSeparator c = false) (h : ∀ n ∈ out, Plain n) :
    ∀ n ∈ clamp out seg, Plain n := by
  unfold clamp
  split_ifs with hnothing hup
  · exact h
  · exact fun n hn => h n (dropLast_subset _ hn)
  · obtain ⟨hempty,hdot⟩ := not_or.mp hnothing
    intro n hn
    obtain hn | hn := mem_append.mp hn
    · exact h n hn
    · rw [mem_singleton.mp hn]
      exact ⟨hempty,hdot,hup,hseg⟩

theorem plain_foldl_clamp {segs : List String}
    (hsegs : ∀ seg ∈ segs, ∀ c ∈ seg.toList, isSeparator c = false) (h : ∀ n ∈ out, Plain n) :
    ∀ n ∈ segs.foldl clamp out, Plain n := by
  induction segs generalizing out with
  | nil => exact h
  | cons seg segs ih =>
    exact ih (fun s hs => hsegs s (mem_cons_of_mem _ hs)) (plain_clamp (hsegs seg mem_cons_self) h)

/-- Whatever text is normalised, the result is in normal form. -/
theorem normalized_normalizeVirtualPath (raw : String) : Normalized (normalizeVirtualPath raw) := by
  refine ⟨_,plain_foldl_clamp (fun seg hseg => ?_) (by simp),rfl⟩
  obtain ⟨chars,hchars,rfl⟩ := mem_map.mp hseg
  rw [String.toList_ofList]
  exact whole_of_mem_splitOnP hchars

theorem foldl_clamp_plain (h : ∀ n ∈ names, Plain n) : names.foldl clamp out = out ++ names := by
  induction names generalizing out with
  | nil => rw [foldl_nil,append_nil]
  | cons n names ih =>
    obtain ⟨hempty,hdot,hup,-⟩ := h n mem_cons_self
    have hclamp : clamp out n = out ++ [n] := by simp [clamp,hempty,hdot,hup]
    rw [foldl_cons,hclamp,ih fun m hm => h m (mem_cons_of_mem _ hm),append_assoc,singleton_append]

/-- The segments of a path in normal form, after the empty one before the first separator. -/
theorem splitOnP_render {p : Char → Bool} (hslash : p '/' = true)
    (h : ∀ n ∈ names, ∀ c ∈ n.toList, p c = false) (hne : names ≠ []) :
    (((render names).toList.splitOnP p).map String.ofList) = "" :: names := by
  have hchars : ∀ seg ∈ names.map String.toList, ∀ c ∈ seg, p c = false := by
    intro seg hseg
    obtain ⟨n,hn,rfl⟩ := mem_map.mp hseg
    exact h n hn
  have hlist : (render names).toList = '/'::['/'].intercalate (names.map String.toList) := by
    simp [render,hne]
  rw [hlist,splitOnP_cons_eq_if_modifyHead,if_pos hslash,
    splitOnP_intercalate hslash hchars (by simpa using hne)]
  simp [Function.comp_def]

theorem segments_render (h : ∀ n ∈ names, Plain n) : segments (render names) = names := by
  by_cases hne : names = []
  · subst hne
    rfl
  · have hslash : ∀ n ∈ names, ∀ c ∈ n.toList, (c == '/') = false := by
      intro n hn c hc
      have hsep := (h n hn).whole c hc
      simp [isSeparator] at hsep
      simpa using hsep.1
    unfold segments
    rw [splitOn_eq_splitOnP,splitOnP_render rfl hslash hne]
    simpa using fun n hn => (h n hn).ne_empty

theorem normalizeVirtualPath_of_normalized {path : String} (h : Normalized path) :
    normalizeVirtualPath path = path := by
  obtain ⟨names,hnames,rfl⟩ := h
  by_cases hne : names = []
  · subst hne
    rfl
  · unfold normalizeVirtualPath
    rw [splitOnP_render rfl (fun n hn => (hnames n hn).whole) hne,foldl_cons,
      foldl_clamp_plain hnames]
    rfl

example : ["/sandbox/..","/../../etc","/a//b/./c","","foo\\bar"].map normalizeVirtualPath =
    ["/","/etc","/a/b/c","/","/foo/bar"] := by
  decide +kernel

theorem normalized_pathParent (virtualPath : String) : Normalized (pathParent virtualPath) := by
  obtain ⟨names,hnames,hnorm⟩ := normalized_normalizeVirtualPath virtualPath
  unfold pathParent
  dsimp only
  rw [hnorm,segments_render hnames]
  split
  · exact ⟨[],by simp,rfl⟩
  · exact ⟨names.dropLast,fun n hn => hnames n (dropLast_subset _ hn),rfl⟩

theorem render_concat (names : List String) (n : String) :
    render names ++ "/" ++ n = if names = [] then "/" ++ render [n] else render (names ++ [n]) := by
  apply String.toList_injective
  split_ifs with hne
  · simp [hne,render]
  · have hchars : ['/'].intercalate (names.map String.toList ++ [n.toList]) =
        ['/'].intercalate (names.map String.toList) ++ '/'::n.toList := by
      rw [intercalate_append _ (by simpa using hne) (cons_ne_nil _ _),intercalate_singleton]
    simp [render,hne,hchars]

theorem normalizeVirtualPath_slash (raw : String) :
    normalizeVirtualPath ("/" ++ raw) = normalizeVirtualPath raw := by
  have hlist : ("/" ++ raw).toList = '/'::raw.toList := by simp
  unfold normalizeVirtualPath
  have hslash : isSeparator '/' = true := rfl
  rw [hlist,splitOnP_cons_eq_if_modifyHead,if_pos hslash]
  rfl

end

/-- Paths in normal form are all that parsing, joining and taking the parent give. -/
theorem VfsPath.normalized_parse {raw : String} {p : VfsPath} (h : VfsPath.parse raw = .ok p) :
    Normalized p.path := by
  unfold VfsPath.parse at h
  dsimp only at h
  split at h
  · cases h
    exact normalized_normalizeVirtualPath _
  · split at h
    · cases h
      exact normalized_normalizeVirtualPath _
    · cases h

theorem VfsPath.normalized_join (p : VfsPath) (name : String) : Normalized (p.join name).path :=
  normalized_normalizeVirtualPath _

theorem VfsPath.normalized_parent (p : VfsPath) : Normalized p.parent.path :=
  normalized_pathParent _

theorem VfsPath.join_render {names : List String} {n : String} (h : ∀ m ∈ names, Plain m)
    (hn : Plain n) (scheme : VfsScheme) :
    VfsPath.join ⟨scheme,render names⟩ n = ⟨scheme,render (names ++ [n])⟩ := by
  have hnorm : normalizeVirtualPath (render (names ++ [n])) = render (names ++ [n]) :=
    normalizeVirtualPath_of_normalized ⟨names ++ [n],by simpa [or_imp,forall_and] using ⟨h,hn⟩,rfl⟩
  unfold VfsPath.join
  rw [render_concat]
  split_ifs with hne
  · subst hne
    rw [normalizeVirtualPath_slash]
    exact congrArg (VfsPath.mk scheme) hnorm
  · rw [hnorm]

end Aios.Vfs
