import Aios.Vfs.Paths
import Mathlib.Data.List.DropRight

/-!
The algebra of the paths: a path read back from its URI, and the parent and the name of what is
joined to it. A text is split at two separators, and a URI is trimmed before it is read.
-/
namespace Aios.Vfs

open Splits List
variable {p : VfsPath} {names : List String} {n m : String}

inductive VfsPath.Obtained : VfsPath → Prop
  | parse {raw : String} {p : VfsPath} (h : VfsPath.parse raw = .ok p) : Obtained p
  | join {p : VfsPath} (h : Obtained p) (name : String) : Obtained (p.join name)
  | parent {p : VfsPath} (h : Obtained p) : Obtained p.parent

theorem VfsPath.Obtained.normalized (h : p.Obtained) : Normalized p.path := by
  cases h with
  | parse h => exact normalized_parse h
  | join h name => exact normalized_join _ name
  | parent h => exact normalized_parent _

/-- A name that a directory listing of a Unix system can return. -/
structure UnixName (n : String) : Prop where
  ne_empty : n ≠ ""
  ne_dot : n ≠ "."
  ne_up : n ≠ ".."
  no_slash : '/' ∉ n.toList

theorem UnixName.plain_iff (h : UnixName n) : Plain n ↔ '\\' ∉ n.toList := by
  constructor
  · intro hplain hmem
    exact absurd (hplain.whole _ hmem) (by decide)
  · intro hback
    refine ⟨h.ne_empty,h.ne_dot,h.ne_up,fun c hc => ?_⟩
    have hslash : c ≠ '/' := fun heq => h.no_slash (heq ▸ hc)
    have hother : c ≠ '\\' := fun heq => hback (heq ▸ hc)
    simp [isSeparator,hslash,hother]

/-- What holds of a path, and of two names joined to it. -/
structure VfsPath.Algebra (p : VfsPath) (n m : String) : Prop where
  roundTrip : VfsPath.parse p.toUri = .ok p
  normal : normalizeVirtualPath p.path = p.path
  parent : ∀ x ∈ [n,m], (p.join x).parent = p
  fileName : ∀ x ∈ [n,m], (p.join x).fileName = some x
  distinct : n ≠ m → p.join n ≠ p.join m

theorem render_inj {names' : List String} (h : ∀ n ∈ names, Plain n) (h' : ∀ n ∈ names', Plain n)
    (heq : render names = render names') : names = names' := by
  rw [← segments_render h,heq,segments_render h']

theorem pathFileName_render (h : ∀ n ∈ names, Plain n) :
    pathFileName (render names) = names.getLast? := by
  unfold pathFileName
  rw [normalizeVirtualPath_of_normalized ⟨names,h,rfl⟩]
  rcases eq_nil_or_concat' names with rfl | ⟨init,n,rfl⟩
  · decide +kernel
  · have hslash : ∀ m ∈ init ++ [n], ∀ c ∈ m.toList, (c == '/') = false := by
      intro m hm c hc
      have hsep := (h m hm).whole c hc
      simp only [isSeparator,Bool.or_eq_false_iff,decide_eq_false_iff_not] at hsep
      simpa using hsep.1
    rw [splitOn_eq_splitOnP,splitOnP_render rfl hslash (by simp),← cons_append,getLast?_concat,
      getLast?_concat]
    have hne := (h n (by simp)).ne_empty
    simp [hne]

theorem pathParent_render (h : ∀ m ∈ names, Plain m) (hn : Plain n) :
    pathParent (render (names ++ [n])) = render names := by
  have hall : ∀ m ∈ names ++ [n], Plain m := by simpa [or_imp,forall_and] using ⟨h,hn⟩
  unfold pathParent
  rw [normalizeVirtualPath_of_normalized ⟨_,hall,rfl⟩]
  dsimp only
  rw [segments_render hall,dropLast_concat]
  refine if_neg fun hroot => ?_
  have hnil : names ++ [n] = [] := render_inj hall (by simp) hroot
  simp at hnil

/-- The name of what is joined is never split, so that it is given back only if it has no
separator. -/
theorem fileName_join_iff (hp : Normalized p.path) (hn : UnixName n) :
    (p.join n).fileName = some n ↔ '\\' ∉ n.toList := by
  obtain ⟨scheme,path⟩ := p
  obtain ⟨names,hnames,rfl⟩ := hp
  rw [← hn.plain_iff]
  constructor
  · intro h
    obtain ⟨all,hall,hjoin⟩ := VfsPath.normalized_join ⟨scheme,render names⟩ n
    rw [VfsPath.fileName,hjoin,pathFileName_render hall] at h
    exact hall n (mem_of_getLast? h)
  · intro hplain
    rw [VfsPath.join_render hnames hplain,VfsPath.fileName,pathFileName_render,getLast?_concat]
    simpa [or_imp,forall_and] using ⟨hnames,hplain⟩

theorem parent_join (hp : Normalized p.path) (hn : Plain n) : (p.join n).parent = p := by
  obtain ⟨scheme,path⟩ := p
  obtain ⟨names,hnames,rfl⟩ := hp
  rw [VfsPath.join_render hnames hn,VfsPath.parent,pathParent_render hnames hn]

/-- Where the last name may be any text without a separator. -/
theorem normalizeVirtualPath_render (h : ∀ m ∈ names, Plain m)
    (hn : ∀ c ∈ n.toList, isSeparator c = false) :
    normalizeVirtualPath (render (names ++ [n])) = render (clamp names n) := by
  have hwhole : ∀ m ∈ names ++ [n], ∀ c ∈ m.toList, isSeparator c = false := by
    intro m hm
    obtain hm | hm := mem_append.mp hm
    · exact (h m hm).whole
    · rwa [mem_singleton.mp hm]
  unfold normalizeVirtualPath
  rw [splitOnP_render rfl hwhole (by simp),foldl_cons,foldl_append,foldl_clamp_plain h]
  rfl

theorem clamp_eq_concat_iff (hm : Plain m) : clamp names n = names ++ [m] ↔ n = m := by
  unfold clamp
  split_ifs with hnothing hup
  · refine iff_of_false (fun h => by simpa using congrArg length h) ?_
    rintro rfl
    exact hnothing.elim hm.ne_empty hm.ne_dot
  · refine iff_of_false (fun h => ?_) (fun heq => hm.ne_up (heq ▸ hup))
    have hlen := congrArg length h
    rw [length_dropLast,length_append,length_singleton] at hlen
    omega
  · simp

theorem toList_render_concat (names : List String) : ∃ before : List Char,
    ∀ k : String, (render (names ++ [k])).toList = before ++ '/'::k.toList := by
  by_cases hne : names = []
  · exact ⟨[],fun k => by simp [hne,render]⟩
  · refine ⟨(render names).toList,fun k => ?_⟩
    have h := render_concat names k
    rw [if_neg hne] at h
    simp [← h]

theorem rdropWhile_after_slash (before name : List Char) :
    (before ++ '/'::name).rdropWhile TextCodec.isWhitespace =
      before ++ '/'::name.rdropWhile TextCodec.isWhitespace := by
  simp only [rdropWhile,reverse_append,reverse_cons,append_assoc,dropWhile_append]
  have hslash : TextCodec.isWhitespace '/' = false := by decide
  split
  next h => simp [hslash,isEmpty_iff.mp h]
  next => simp

theorem trim_toUri (scheme : VfsScheme) (before name : List Char) :
    VfsPath.trim (scheme.asUri ++ String.ofList (before ++ '/'::name)) =
      scheme.asUri ++ String.ofList (before ++ '/'::name.rdropWhile TextCodec.isWhitespace) := by
  have hfirst : ∀ rest, (scheme.asUri.toList ++ rest).dropWhile TextCodec.isWhitespace =
      scheme.asUri.toList ++ rest := by
    intro rest
    cases scheme <;> rfl
  apply String.toList_injective
  unfold VfsPath.trim TextCodec.trim
  rw [String.toList_append,hfirst,String.toList_ofList,String.toList_append,
    String.toList_ofList,String.toList_ofList,← append_assoc,← append_assoc,
    ← rdropWhile_after_slash]
  rfl

theorem parse_of_trim {raw text : String} {scheme : VfsScheme}
    (h : VfsPath.trim raw = scheme.asUri ++ text) :
    VfsPath.parse raw = .ok ⟨scheme,normalizeVirtualPath text⟩ := by
  unfold VfsPath.parse
  rw [h]
  cases scheme <;> simp [VfsPath.stripScheme,VfsScheme.asUri,dropPrefix?]

/-- A URI is trimmed at its end too. -/
theorem parse_toUri_iff (hp : Normalized p.path) : VfsPath.parse p.toUri = .ok p ↔
    ∀ c ∈ p.path.toList.getLast?, TextCodec.isWhitespace c = false := by
  obtain ⟨scheme,path⟩ := p
  obtain ⟨names,hnames,rfl⟩ := hp
  rcases eq_nil_or_concat' names with rfl | ⟨init,n,rfl⟩
  · exact iff_of_true (parse_of_trim (trim_toUri scheme [] [])) (by simp [render]; decide)
  · obtain ⟨hinit,hn⟩ : (∀ m ∈ init, Plain m) ∧ Plain n := by
      simpa [or_imp,forall_and] using hnames
    obtain ⟨before,hchars⟩ := toList_render_concat init
    have htext (k : String) : render (init ++ [k]) = String.ofList (before ++ '/'::k.toList) := by
      rw [← hchars,String.ofList_toList]
    have htrim := trim_toUri scheme before n.toList
    generalize hk : n.toList.rdropWhile TextCodec.isWhitespace = kept at htrim
    have hsub : ∀ c ∈ (String.ofList kept).toList, isSeparator c = false := by
      intro c hc
      rw [String.toList_ofList,← hk] at hc
      have hkept := rdropWhile_prefix TextCodec.isWhitespace n.toList
      exact hn.whole c (hkept.subset hc)
    have hparse : VfsPath.parse (VfsPath.toUri ⟨scheme,render (init ++ [n])⟩) =
        .ok ⟨scheme,render (clamp init (String.ofList kept))⟩ := by
      rw [← normalizeVirtualPath_render hinit hsub]
      apply parse_of_trim
      rw [htext (String.ofList kept),String.toList_ofList,← htrim,← htext]
      rfl
    rw [hparse,Except.ok.injEq,VfsPath.mk.injEq,and_iff_right rfl]
    have hinj : render (clamp init (String.ofList kept)) = render (init ++ [n]) ↔
        clamp init (String.ofList kept) = init ++ [n] :=
      ⟨render_inj (plain_clamp hsub hinit) hnames,congrArg render⟩
    have hne : n.toList ≠ [] := by simpa using hn.ne_empty
    have hlast : (before ++ '/'::n.toList).getLast? = some (n.toList.getLast hne) := by
      rw [append_cons,getLast?_append_of_ne_nil _ hne,getLast?_eq_some_getLast hne]
    rw [hinj,clamp_eq_concat_iff hn,hchars,hlast,← String.toList_inj,String.toList_ofList,← hk,
      rdropWhile_eq_self_iff]
    simp [hne]

/-- A path is read back from its URI exactly if it does not end in white space, and names are told
apart and given back exactly if they have no backslash. -/
theorem algebra_iff (hp : p.Obtained) (hn : UnixName n) (hm : UnixName m) :
    p.Algebra n m ↔ (∀ c ∈ p.path.toList.getLast?, TextCodec.isWhitespace c = false) ∧
      '\\' ∉ n.toList ∧ '\\' ∉ m.toList := by
  have hnorm := hp.normalized
  rw [← parse_toUri_iff hnorm,← fileName_join_iff hnorm hn,← fileName_join_iff hnorm hm]
  constructor
  · intro h
    exact ⟨h.roundTrip,h.fileName n (by simp),h.fileName m (by simp)⟩
  · rintro ⟨hround,hname,hname'⟩
    have hplain := hn.plain_iff.mpr ((fileName_join_iff hnorm hn).mp hname)
    have hplain' := hm.plain_iff.mpr ((fileName_join_iff hnorm hm).mp hname')
    refine ⟨hround,normalizeVirtualPath_of_normalized hnorm,?_,?_,fun hne heq => hne ?_⟩
    · simpa using ⟨parent_join hnorm hplain,parent_join hnorm hplain'⟩
    · simpa using ⟨hname,hname'⟩
    · rw [heq,hname'] at hname
      exact (Option.some.inj hname).symm

def sandbox : VfsPath := ⟨.aios,"/sandbox"⟩

theorem sandbox_obtained : sandbox.Obtained :=
  .parse (show VfsPath.parse "AIOS:///sandbox" = .ok sandbox by decide +kernel)

theorem algebra_of_sandbox : sandbox.Algebra "a" "b" :=
  (algebra_iff sandbox_obtained ⟨by decide,by decide,by decide,by decide⟩
    ⟨by decide,by decide,by decide,by decide⟩).mpr
    ⟨by simp [sandbox,TextCodec.isWhitespace],by decide,by decide⟩

/-- The file `a\b` is taken for a file `b` in a directory `a`, and a path that ends in a blank is
read back without it. -/
theorem unusual_names_are_lost : UnixName "a\\b" ∧ UnixName "a " ∧
    (sandbox.join "a\\b").parent ≠ sandbox ∧ (sandbox.join "a ").Obtained ∧
      VfsPath.parse (sandbox.join "a ").toUri ≠ .ok (sandbox.join "a ") :=
  ⟨⟨by decide,by decide,by decide,by decide⟩,⟨by decide,by decide,by decide,by decide⟩,
    by decide +kernel,sandbox_obtained.join "a ",by decide +kernel⟩

end Aios.Vfs
