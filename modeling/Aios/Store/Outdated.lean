import Aios.Store.Versions

/-!
The updates that a catalog offers. Each installed file is compared with the catalog, so a block of
which several versions are kept is offered more than once, or although its newest version is up to
date.
-/
namespace Aios.Store.BlockInstaller

open Aios.Core TextCodec List

structure UpdateInfo where
  installed : ManifestInfo
  available : ManifestInfo

/-- `max_by`: of several greatest versions the last one. -/
def newest : List ManifestInfo → Option ManifestInfo
  | [] => none
  | m::ms =>
    some (ms.foldl (fun a b => if cmpVersion a.version b.version = .gt then a else b) m)

variable (host : Host) (dir : Blocks) (catalog : List ManifestInfo)

def checkUpdate (block : InstalledBlock) : Option UpdateInfo :=
  (newest (catalog.filter fun m => m.name = block.manifest.name)).bind fun cat =>
    if cmpVersion cat.version block.manifest.version = .gt then
      some { installed := block.manifest, available := cat }
    else none

def checkUpdates : List UpdateInfo :=
  (listInstalled host dir).filterMap (checkUpdate catalog)

/-- The catalog has a greater version of the block. -/
abbrev Outdated (block : InstalledBlock) : Prop :=
  ∃ m ∈ catalog, m.name = block.manifest.name ∧
    cmpVersion m.version block.manifest.version = .gt

/-- The block is installed, and its greatest version in the catalog is greater than all those. -/
def Due (name : Text) : Prop :=
  (∃ b ∈ listInstalled host dir, b.manifest.name = name) ∧
    ∃ m ∈ catalog, m.name = name ∧ ∀ b ∈ listInstalled host dir, b.manifest.name = name →
      cmpVersion m.version b.manifest.version = .gt

def updateNames : List Text := (checkUpdates host dir catalog).map fun u => u.installed.name

variable {host dir catalog}

theorem newest_gt_iff (l : List ManifestInfo) (v : Text) :
    (∃ m, newest l = some m ∧ cmpVersion m.version v = .gt) ↔
      ∃ m ∈ l, cmpVersion m.version v = .gt := by
  cases l with
  | nil => simp [newest]
  | cons a l =>
    simp only [newest,cmpVersion_eq_gt_iff]
    induction l generalizing a with
    | nil => simp
    | cons b l ih =>
      rw [foldl_cons,ih]
      simp only [mem_cons,exists_eq_or_imp]
      split_ifs with hgt
      · have hba (h : components v < components b.version) : components v < components a.version :=
          h.trans hgt
        tauto
      · have hab (h : components v < components a.version) : components v < components b.version :=
          h.trans_le (not_lt.mp hgt)
        tauto

theorem checkUpdate_name (block : InstalledBlock) :
    (checkUpdate catalog block).map (fun u => u.installed.name) =
      if Outdated catalog block then some block.manifest.name else none := by
  have hiff := newest_gt_iff (catalog.filter fun m => m.name = block.manifest.name)
    block.manifest.version
  simp only [mem_filter,decide_eq_true_eq,and_assoc] at hiff
  unfold checkUpdate
  rw [← if_congr hiff rfl rfl]
  cases newest (catalog.filter fun m => m.name = block.manifest.name) with
  | none => simp
  | some cat =>
    simp only [Option.bind_some,Option.some.injEq,exists_eq_left']
    split_ifs <;> rfl

theorem updateNames_eq : updateNames host dir catalog =
    ((listInstalled host dir).filter (Outdated catalog)).map fun b => b.manifest.name := by
  unfold updateNames checkUpdates
  rw [map_filterMap,funext checkUpdate_name]
  induction listInstalled host dir with
  | nil => rfl
  | cons b bs ih =>
    by_cases hout : Outdated catalog b
    · simp only [filterMap_cons,filter_cons,if_pos hout,decide_eq_true hout,if_true,map_cons,ih]
    · simp only [filterMap_cons,filter_cons,if_neg hout,decide_eq_false hout,
        Bool.false_eq_true,if_false,ih]

theorem mem_updateNames {name : Text} : name ∈ updateNames host dir catalog ↔
    ∃ b ∈ listInstalled host dir, Outdated catalog b ∧ b.manifest.name = name := by
  rw [updateNames_eq]
  simp [and_assoc]

theorem count_updateNames (name : Text) : (updateNames host dir catalog).count name =
    (listInstalled host dir).countP fun b => b.manifest.name = name ∧ Outdated catalog b := by
  rw [updateNames_eq,List.count,countP_map,countP_filter]
  apply countP_congr
  simp

/-- Every block is offered once, and exactly when its newest version is behind the catalog, if the
installed files that are behind it are the only ones of their blocks. -/
theorem checkUpdates_offers_iff (host : Host) (dir : Blocks) (catalog : List ManifestInfo) :
    ((updateNames host dir catalog).Nodup ∧
        ∀ name, name ∈ updateNames host dir catalog ↔ Due host dir catalog name) ↔
      ∀ b ∈ listInstalled host dir, Outdated catalog b →
        (listInstalled host dir).countP (fun c => c.manifest.name = b.manifest.name) = 1 := by
  constructor
  · rintro ⟨hnodup,hdue⟩ b hb hout
    obtain ⟨-,m,hm,hname,hall⟩ := (hdue _).mp (mem_updateNames.mpr ⟨b,hb,hout,rfl⟩)
    -- every file of the block is behind, and each gives an entry
    have hcount := nodup_iff_count_le_one.mp hnodup b.manifest.name
    rw [count_updateNames] at hcount
    have hsame : (listInstalled host dir).countP (fun c => c.manifest.name = b.manifest.name) =
        (listInstalled host dir).countP
          fun c => c.manifest.name = b.manifest.name ∧ Outdated catalog c := by
      refine countP_congr fun c hc => ?_
      have hbehind (hc' : c.manifest.name = b.manifest.name) : Outdated catalog c :=
        ⟨m,hm,hname.trans hc'.symm,hall c hc hc'⟩
      simpa using hbehind
    have hpos : 0 < (listInstalled host dir).countP (fun c => c.manifest.name = b.manifest.name) :=
      countP_pos_iff.mpr ⟨b,hb,by simp⟩
    omega
  · intro hone
    refine ⟨nodup_iff_count_le_one.mpr fun name => ?_,fun name => ?_⟩
    · by_cases hmem : name ∈ updateNames host dir catalog
      · obtain ⟨b,hb,hout,rfl⟩ := mem_updateNames.mp hmem
        rw [count_updateNames,← hone b hb hout]
        exact countP_mono_left fun c _ => by simp +contextual
      · rw [count_eq_zero.mpr hmem]
        exact Nat.zero_le 1
    · rw [mem_updateNames]
      constructor
      · rintro ⟨b,hb,⟨m,hm,hname,hgt⟩,rfl⟩
        refine ⟨⟨b,hb,rfl⟩,m,hm,hname,fun c hc hc' => ?_⟩
        have hlength := hone b hb ⟨m,hm,hname,hgt⟩
        rw [countP_eq_length_filter,length_eq_one_iff] at hlength
        obtain ⟨x,hx⟩ := hlength
        have honly (y : InstalledBlock) (hy : y ∈ listInstalled host dir)
            (hy' : y.manifest.name = b.manifest.name) : y = x := by
          rw [← mem_singleton,← hx,mem_filter]
          exact ⟨hy,by simpa using hy'⟩
        rwa [honly c hc hc',← honly b hb rfl]
      · rintro ⟨⟨b,hb,rfl⟩,m,hm,hname,hall⟩
        exact ⟨b,hb,⟨m,hm,hname,hall b hb rfl⟩,rfl⟩

def twoVersions : Blocks :=
  ((∅ : Blocks).insert "net_1.wasm".toList []).insert "net_2.wasm".toList []

/-- A block with two old versions is offered twice. -/
theorem kept_versions_offered_twice : ¬ (updateNames serdeHost twoVersions
      [defaultManifest "net".toList "3".toList 0 []]).Nodup := by
  intro h
  rw [updateNames_eq] at h
  have hlisted (path : Text) (hpath : path ∈ ["net_1.wasm".toList,"net_2.wasm".toList]) :
      (⟨listedManifest serdeHost twoVersions path,path⟩ : InstalledBlock) ∈
        (listInstalled serdeHost twoVersions).filter
          (Outdated [defaultManifest "net".toList "3".toList 0 []]) := by
    rw [mem_filter,mem_listInstalled,binaries,mem_filter,mem_filter,Finmap.mem_sortedKeys]
    simp only [mem_cons,not_mem_nil,or_false] at hpath
    rcases hpath with rfl | rfl
    · exact ⟨⟨⟨⟨by decide,by decide⟩,by decide⟩,rfl⟩,by decide +kernel⟩
    · exact ⟨⟨⟨⟨by decide,by decide⟩,by decide⟩,rfl⟩,by decide +kernel⟩
  have hsame := inj_on_of_nodup_map h (hlisted "net_1.wasm".toList (by decide))
    (hlisted "net_2.wasm".toList (by decide)) (by decide +kernel)
  exact absurd (congrArg InstalledBlock.path hsame) (by decide)

end Aios.Store.BlockInstaller
