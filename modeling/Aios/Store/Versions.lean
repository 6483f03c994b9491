import Aios.Lib.StableSort
import Aios.Store.Shelf

/-!
The order of versions, and which installed version of a block is found: the newest, and of those
that compare equal the first by its path.
-/
namespace Aios.Store

open Aios.Core TextCodec List

section
variable {a b v : Text}

theorem cmpComponents_eq_gt_iff (xs ys : List ℕ) : cmpComponents xs ys = .gt ↔ ys < xs := by
  induction xs generalizing ys with
  | nil =>
    cases ys with
    | nil => simp [cmpComponents]
    | cons y ys => simp [cmpComponents,Nat.compare_eq_gt]
  | cons x xs ih =>
    cases ys with
    | nil => simp [cmpComponents,Nat.compare_eq_gt]
    | cons y ys =>
      rw [cmpComponents,cons_lt_cons_iff]
      split_ifs with hne
      · rw [Nat.compare_eq_gt]
        omega
      · obtain rfl := not_not.mp hne
        simp [ih]

theorem cmpVersion_eq_gt_iff : cmpVersion a b = .gt ↔ components b < components a :=
  cmpComponents_eq_gt_iff _ _

theorem components_dot : components (v ++ ['.']) = components v := by
  rw [components,components,splitOnP_append_cons v [] (by decide)]
  simp

theorem components_sanitizeComponent : components (sanitizeComponent v) = components v := by
  have hmap : components (v.map fun c => if isSafe c then c else '_') = components v := by
    unfold components
    rw [Splits.splitOnP_map]
    · intro c hc
      split_ifs
      · exact hc
      · decide
    · intro c hc
      have hdigit : c.isDigit = true := by simpa using hc
      simp [isSafe,Char.isAlphanum,hdigit]
  rw [sanitizeComponent,← hmap]
  generalize (v.map fun c => if isSafe c then c else '_') = l
  induction l using reverseRecOn with
  | nil => rfl
  | append_singleton l c ih =>
    rw [rdropWhile_concat]
    split_ifs with hdot
    · rw [ih,eq_of_beq hdot,components_dot]
    · rfl

theorem components_eq_of_stem {name : Text} (h : fileStemOf name a = fileStemOf name b) :
    components a = components b := by
  have hsanitized : sanitizeComponent a = sanitizeComponent b :=
    cons_injective (append_cancel_left h)
  rw [← components_sanitizeComponent,hsanitized,components_sanitizeComponent]

end

variable {m m' : ManifestInfo}

namespace BlockInstaller

variable {host : Host} {dir : Blocks} {a b c : InstalledBlock} {name : Text}

theorem notOlder_iff :
    notOlder a b ↔ components b.manifest.version ≤ components a.manifest.version := by
  rw [notOlder,Ne,cmpVersion_eq_gt_iff,not_lt]

def RanksBefore : InstalledBlock → InstalledBlock → Prop :=
  StableSort.Before notOlder fun a b => a.path < b.path

theorem ranksBefore_iff : RanksBefore a b ↔
    components b.manifest.version < components a.manifest.version ∨
      components b.manifest.version = components a.manifest.version ∧ a.path < b.path := by
  rw [RanksBefore,StableSort.Before,notOlder_iff,notOlder_iff,le_iff_lt_or_eq]
  constructor
  · rintro ⟨hlt | heq,htie⟩
    · exact .inl hlt
    · exact .inr ⟨heq,htie heq.ge⟩
  · rintro (hlt | ⟨heq,hpath⟩)
    · exact ⟨.inl hlt,fun hle => absurd hle (not_le.mpr hlt)⟩
    · exact ⟨.inr heq,fun _ => hpath⟩

theorem RanksBefore.asymm (h : RanksBefore a b) : ¬ RanksBefore b a := by
  rw [ranksBefore_iff] at h ⊢
  rcases h with hlt | ⟨heq,hpath⟩
  · rintro (hlt' | ⟨heq',-⟩)
    · exact lt_asymm hlt hlt'
    · exact hlt.ne' heq'
  · rintro (hlt' | ⟨-,hpath'⟩)
    · exact hlt'.ne' heq
    · exact lt_asymm hpath hpath'

theorem pairwise_listInstalled : (listInstalled host dir).Pairwise RanksBefore := by
  apply StableSort.pairwise_insertionSort
  · intro a b
    rw [notOlder_iff,notOlder_iff]
    exact le_total _ _
  · intro a b c
    rw [notOlder_iff,notOlder_iff,notOlder_iff]
    exact fun hab hbc => hbc.trans hab
  · rw [pairwise_map]
    exact (dir.pairwise_sortedKeys.filter _).filter _

theorem findInstalled_eq_some_iff : findInstalled host dir name = some b ↔
    b ∈ listInstalled host dir ∧ b.manifest.name = name ∧
      ∀ c ∈ listInstalled host dir, c.manifest.name = name → c = b ∨ RanksBefore b c := by
  have hbefore (b' : InstalledBlock) (hfind : findInstalled host dir name = some b') :
      ∀ c ∈ listInstalled host dir, c.manifest.name = name → c = b' ∨ RanksBefore b' c := by
    intro c hc hname
    exact StableSort.before_of_find? pairwise_listInstalled hfind hc (by simpa using hname)
  constructor
  · intro hfind
    have hname := find?_some hfind
    exact ⟨mem_of_find?_eq_some hfind,by simpa using hname,hbefore b hfind⟩
  · rintro ⟨hmem,hname,hfirst⟩
    cases hfind : findInstalled host dir name with
    | none => exact absurd hname (by simpa using find?_eq_none.mp hfind b hmem)
    | some b' =>
      have hname' := find?_some hfind
      rcases hbefore b' hfind b hmem hname with rfl | hrank
      · rfl
      · rcases hfirst b' (mem_of_find?_eq_some hfind) (by simpa using hname') with rfl | hrank'
        · rfl
        · exact absurd hrank hrank'.asymm

def entry (host : Host) (m : ManifestInfo) (binary : List UInt8) : InstalledBlock :=
  ⟨shown host m binary,filePath m.stem .binary⟩

/-- The first of two blocks is found before the second. -/
def Precedes (m m' : ManifestInfo) : Prop :=
  components m'.version < components m.version ∨
    components m'.version = components m.version ∧
      filePath m.stem .binary < filePath m'.stem .binary

theorem ranksBefore_entry {binary binary' : List UInt8} :
    RanksBefore (entry host m binary) (entry host m' binary') ↔ Precedes m m' := by
  rw [ranksBefore_iff,entry,entry,shown_version,shown_version]
  rfl

theorem Precedes.trans {m'' : ManifestInfo} (h : Precedes m m') (h' : Precedes m' m'') :
    Precedes m m'' := by
  rcases h with hlt | ⟨heq,hpath⟩
  · rcases h' with hlt' | ⟨heq',-⟩
    · exact .inl (hlt'.trans hlt)
    · exact .inl (heq'.trans_lt hlt)
  · rcases h' with hlt' | ⟨heq',hpath'⟩
    · exact .inl (hlt'.trans_eq heq)
    · exact .inr ⟨heq'.trans heq,hpath.trans hpath'⟩

theorem precedes_total (h : m.stem ≠ m'.stem) : Precedes m m' ∨ Precedes m' m := by
  have hpath : filePath m.stem .binary ≠ filePath m'.stem .binary := by
    rw [Ne,filePath_inj]
    simp [h]
  rcases lt_trichotomy (components m.version) (components m'.version) with hlt | heq | hlt
  · exact .inr (.inl hlt)
  · exact (lt_or_gt_of_ne hpath).imp (fun hlt => .inr ⟨heq.symm,hlt⟩) fun hlt => .inr ⟨heq,hlt⟩
  · exact .inl (.inl hlt)

theorem Shelf.findInstalled_iff (hlaw : host.Lawful) (h : Shelf host dir) :
    findInstalled host dir name = some b ↔ ∃ m binary, Holds host dir m binary ∧ m.name = name ∧
      b = entry host m binary ∧
      ∀ m' binary', Holds host dir m' binary' → m'.name = name → m' = m ∨ Precedes m m' := by
  rw [findInstalled_eq_some_iff,h.mem_listInstalled hlaw]
  constructor
  · rintro ⟨⟨m,binary,hholds,rfl⟩,hname,hfirst⟩
    rw [shown_name] at hname
    refine ⟨m,binary,hholds,hname,rfl,fun m' binary' hholds' hname' => ?_⟩
    have hlisted := (h.mem_listInstalled hlaw).mpr ⟨m',binary',hholds',rfl⟩
    rcases hfirst _ hlisted (by rwa [shown_name]) with heq | hrank
    · have hstem := (filePath_inj.mp (congrArg InstalledBlock.path heq)).1
      exact .inl (hholds'.unique hlaw hholds hstem).1
    · exact .inr (ranksBefore_entry.mp hrank)
  · rintro ⟨m,binary,hholds,hname,rfl,hfirst⟩
    refine ⟨⟨m,binary,hholds,rfl⟩,by rwa [entry,shown_name],fun c hc hname' => ?_⟩
    obtain ⟨m',binary',hholds',rfl⟩ := (h.mem_listInstalled hlaw).mp hc
    rw [shown_name] at hname'
    rcases hfirst m' binary' hholds' hname' with rfl | hrank
    · obtain ⟨-,rfl⟩ := hholds.unique hlaw hholds' rfl
      exact .inl rfl
    · exact .inr (ranksBefore_entry.mpr hrank)

end BlockInstaller
end Aios.Store
