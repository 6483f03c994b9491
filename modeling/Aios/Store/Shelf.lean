import Aios.Store.Installer

/-!
The files of the blocks directory sorted out: each belongs to a block by its name and is its binary,
its sidecar or a backup of these. From this the listing and the effect of an installation are read
off.
-/
namespace Aios.Store

open Aios.Core TextCodec List Option Finmap

/-! ### File names -/

inductive FileKind where
  | binary
  | sidecar
  | binaryBackup
  | sidecarBackup
  deriving DecidableEq

def FileKind.suffix : FileKind → Text
  | .binary => wasm
  | .sidecar => json
  | .binaryBackup => wasm ++ bak
  | .sidecarBackup => json ++ bak

def FileKind.live : FileKind → Bool
  | .binary | .sidecar => true
  | .binaryBackup | .sidecarBackup => false

def filePath (stem : Text) (kind : FileKind) : Text := stem ++ kind.suffix

def ManifestInfo.stem (m : ManifestInfo) : Text := fileStemOf m.name m.version

section
variable {stem stem' ext : Text} {kind kind' : FileKind}

section
variable (hstem : stem ≠ [])
include hstem

theorem splitExtension_dot (hext : '.' ∉ ext) :
    splitExtension (stem ++ '.'::ext) = (stem,some ext) := by
  have hplain : ∀ c ∈ ext.reverse, decide (c ≠ '.') = true := by
    intro c hc
    have hmem := mem_reverse.mp hc
    simp only [decide_eq_true_eq]
    rintro rfl
    exact hext hmem
  have hreverse : (stem ++ '.'::ext).reverse = ext.reverse ++ '.'::stem.reverse := by simp
  have htake : (stem ++ '.'::ext).rtakeWhile (· ≠ '.') = ext := by
    rw [rtakeWhile,hreverse,takeWhile_append_of_pos hplain]
    simp
  have hdrop : (stem ++ '.'::ext).rdropWhile (· ≠ '.') = stem ++ ['.'] := by
    rw [rdropWhile,hreverse,dropWhile_append_of_pos hplain]
    simp
  rw [splitExtension,htake,hdrop]
  simp [hstem]

theorem names_file (hext : ext ≠ []) : stem ++ '.'::ext ∉ ["".toList,".".toList,"..".toList] := by
  have hlen : 3 ≤ (stem ++ '.'::ext).length := by
    have h₁ := length_pos_iff.mpr hstem
    have h₂ := length_pos_iff.mpr hext
    simp only [length_append,length_cons]
    omega
  intro h
  simp only [mem_cons,not_mem_nil,or_false] at h
  rcases h with h | h | h <;> rw [h] at hlen <;> simp at hlen

theorem fileStem_dot (hdot : '.' ∉ ext) (hext : ext ≠ []) :
    fileStem (stem ++ '.'::ext) = some stem := by
  rw [fileStem,if_neg (names_file hstem hext),splitExtension_dot hstem hdot]

theorem extension_dot (hdot : '.' ∉ ext) (hext : ext ≠ []) :
    extension (stem ++ '.'::ext) = some ext := by
  rw [extension,if_neg (names_file hstem hext),splitExtension_dot hstem hdot]

theorem extension_filePath : extension (filePath stem kind) = some (match kind with
      | .binary => "wasm".toList
      | .sidecar => "json".toList
      | .binaryBackup | .sidecarBackup => "bak".toList) := by
  cases kind with
  | binary | sidecar => exact extension_dot hstem (by decide) (by decide)
  | binaryBackup | sidecarBackup =>
    rw [filePath,FileKind.suffix,← append_assoc]
    exact extension_dot (by simp [hstem]) (by decide) (by decide)

theorem withExtension_binary :
    withExtension (filePath stem .binary) "json".toList = filePath stem .sidecar := by
  have h : fileStem (filePath stem .binary) = some stem :=
    fileStem_dot hstem (by decide) (by decide)
  rw [withExtension,h]
  rfl

end

theorem FileKind.suffix_injective : Function.Injective FileKind.suffix := by
  intro kind kind'
  cases kind <;> cases kind' <;> decide

theorem filePath_inj : filePath stem kind = filePath stem' kind' ↔ stem = stem' ∧ kind = kind' := by
  constructor
  · intro h
    have hne (kind : FileKind) : kind.suffix ≠ [] := by cases kind <;> decide
    have hlast := congrArg getLast? h
    rw [filePath,filePath,getLast?_append_of_ne_nil _ (hne kind),
      getLast?_append_of_ne_nil _ (hne kind')] at hlast
    -- The last letter tells all kinds but the two backups, whose suffixes have one length.
    have hlength : kind.suffix.length = kind'.suffix.length := by
      revert hlast
      cases kind <;> cases kind' <;> decide
    obtain ⟨hstem,hsuffix⟩ := append_inj' h hlength
    exact ⟨hstem,FileKind.suffix_injective hsuffix⟩
  · rintro ⟨rfl,rfl⟩
    rfl

theorem stem_ne_nil (m : ManifestInfo) : m.stem ≠ [] := by simp [ManifestInfo.stem,fileStemOf]

theorem slash_notMem_sanitizeComponent (input : Text) : '/' ∉ sanitizeComponent input := by
  intro h
  have hkept : sanitizeComponent input <+: _ := rdropWhile_prefix _ _
  have hmem := hkept.subset h
  obtain ⟨c,-,hc⟩ := mem_map.mp hmem
  split_ifs at hc with hsafe
  · rw [hc] at hsafe
    revert hsafe
    decide
  · revert hc
    decide

theorem isDirectChild_filePath (m : ManifestInfo) :
    BlockInstaller.isDirectChild (filePath m.stem kind) = true := by
  have hsuffix : '/' ∉ kind.suffix := by cases kind <;> decide
  simp [BlockInstaller.isDirectChild,filePath,ManifestInfo.stem,fileStemOf,hsuffix,
    slash_notMem_sanitizeComponent]

end

variable {b block : InstalledBlock} {io : Io} {dir' : Blocks}

namespace BlockInstaller

variable {κ : Type} {ed : Ed25519 κ} {host : Host} {inst : BlockInstaller} {dir : Blocks}
  {m m' : ManifestInfo} {binary binary' : List UInt8} {path : Text} {now : UInt64}

/-! ### Well-kept directories -/

structure Holds (host : Host) (dir : Blocks) (m : ManifestInfo) (binary : List UInt8) : Prop where
  named : Named m
  binary_eq : dir.lookup (filePath m.stem .binary) = some binary
  sidecar_eq : ∃ now, dir.lookup (filePath m.stem .sidecar) = some (host.sidecarJson m now)

structure Shelf (host : Host) (dir : Blocks) : Prop where
  kinds : ∀ path ∈ dir, ∃ m kind, Named m ∧ path = filePath m.stem kind
  complete : ∀ m binary, Named m → dir.lookup (filePath m.stem .binary) = some binary →
    ∃ m', m'.stem = m.stem ∧ Holds host dir m' binary

theorem Holds.unique (hlaw : host.Lawful) (h : Holds host dir m binary)
    (h' : Holds host dir m' binary') (hstem : m.stem = m'.stem) : m = m' ∧ binary = binary' := by
  obtain ⟨-,hbinary,now,hsidecar⟩ := h
  obtain ⟨-,hbinary',now',hsidecar'⟩ := h'
  rw [hstem,hbinary'] at hbinary
  rw [hstem,hsidecar'] at hsidecar
  have hparsed := congrArg host.manifestFromJson (some_inj.mp hsidecar)
  rw [hlaw,hlaw] at hparsed
  exact ⟨(some_inj.mp hparsed).symm,(some_inj.mp hbinary).symm⟩

theorem shelf_empty : Shelf host ∅ where
  kinds path hpath := absurd hpath notMem_empty
  complete m binary _ h := by simp at h

theorem lookup_withBlock : (withBlock host dir m binary now).lookup path =
    if path = filePath m.stem .sidecar then some (host.sidecarJson m now)
    else if path = filePath m.stem .binary then some binary else dir.lookup path := by
  rw [withBlock,lookup_insert_if,lookup_insert_if]
  rfl

theorem holds_withBlock (hlaw : host.Lawful) (hname : Named m) :
    Holds host (withBlock host dir m binary now) m' binary' ↔
      (m' = m ∧ binary' = binary) ∨ (m'.stem ≠ m.stem ∧ Holds host dir m' binary') := by
  by_cases hstem : m'.stem = m.stem
  · have hm : Holds host (withBlock host dir m binary now) m binary :=
      ⟨hname,by simp [lookup_withBlock,filePath_inj],now,by simp [lookup_withBlock]⟩
    constructor
    · intro h
      exact .inl (h.unique hlaw hm hstem)
    · rintro (⟨rfl,rfl⟩ | ⟨hne,-⟩)
      · exact hm
      · exact absurd hstem hne
  · have hne : m' ≠ m := fun h => hstem (congrArg ManifestInfo.stem h)
    have hsame : Holds host (withBlock host dir m binary now) m' binary' ↔
        Holds host dir m' binary' := by
      constructor
      · rintro ⟨hnamed,hbinary,now',hsidecar⟩
        simp only [lookup_withBlock,filePath_inj,hstem] at hbinary hsidecar
        exact ⟨hnamed,hbinary,now',hsidecar⟩
      · rintro ⟨hnamed,hbinary,now',hsidecar⟩
        refine ⟨hnamed,?_,now',?_⟩ <;> simpa [lookup_withBlock,filePath_inj,hstem]
    rw [hsame]
    simp [hne,hstem]

theorem Shelf.withBlock (hlaw : host.Lawful) (h : Shelf host dir) (hname : Named m) :
    Shelf host (withBlock host dir m binary now) where
  kinds path hpath := by
    rw [mem_iff_lookup_ne_none,lookup_withBlock] at hpath
    split_ifs at hpath with hsidecar hbinary
    · exact ⟨m,.sidecar,hname,hsidecar⟩
    · exact ⟨m,.binary,hname,hbinary⟩
    · exact h.kinds path (mem_iff_lookup_ne_none.mpr hpath)
  complete m' binary' hname' hlookup := by
    by_cases hstem : m'.stem = m.stem
    · obtain rfl : binary = binary' := by
        simpa [lookup_withBlock,filePath_inj,hstem] using hlookup
      exact ⟨m,hstem.symm,(holds_withBlock hlaw hname).mpr (.inl ⟨rfl,rfl⟩)⟩
    · simp only [lookup_withBlock,filePath_inj,hstem] at hlookup
      obtain ⟨m'',hstem'',hholds⟩ := h.complete m' binary' hname' hlookup
      refine ⟨m'',hstem'',(holds_withBlock hlaw hname).mpr (.inr ⟨?_,hholds⟩)⟩
      rw [hstem'']
      exact hstem

/-! ### The listing -/

/-- The manifest that a listing shows for a block. -/
def shown (host : Host) (m : ManifestInfo) (binary : List UInt8) : ManifestInfo :=
  if m.wasmSha256 = [] then { m with wasmSha256 := shaText host binary } else m

section
variable (host : Host) (m : ManifestInfo) (binary : List UInt8)

@[simp]
theorem shown_name : (shown host m binary).name = m.name := by
  unfold shown
  split <;> rfl

@[simp]
theorem shown_version : (shown host m binary).version = m.version := by
  unfold shown
  split <;> rfl

@[simp]
theorem shown_stem : (shown host m binary).stem = m.stem := by simp [ManifestInfo.stem]

end

theorem Holds.listedManifest (hlaw : host.Lawful) (h : Holds host dir m binary) :
    listedManifest host dir (filePath m.stem .binary) = shown host m binary := by
  obtain ⟨-,hbinary,now,hsidecar⟩ := h
  rw [BlockInstaller.listedManifest,withExtension_binary (stem_ne_nil m),hbinary,hsidecar]
  have hparsed : host.manifestFromJson (host.sidecarJson m now) = some m := hlaw m now
  rw [bind_some,hparsed]
  rfl

theorem mem_listInstalled : b ∈ listInstalled host dir ↔
      b.path ∈ binaries dir ∧ b.manifest = listedManifest host dir b.path := by
  rw [listInstalled,mem_insertionSort,List.mem_map]
  constructor
  · rintro ⟨path,hpath,rfl⟩
    exact ⟨hpath,rfl⟩
  · rintro ⟨hpath,hmanifest⟩
    exact ⟨b.path,hpath,by rw [← hmanifest]⟩

theorem Shelf.mem_binaries (h : Shelf host dir) :
    path ∈ binaries dir ↔ path ∈ dir ∧ ∃ m, Named m ∧ path = filePath m.stem .binary := by
  rw [binaries,mem_filter,mem_filter,mem_sortedKeys]
  constructor
  · rintro ⟨⟨hmem,-⟩,hext⟩
    obtain ⟨m,kind,hname,rfl⟩ := h.kinds path hmem
    refine ⟨hmem,m,hname,?_⟩
    rw [extension_filePath (stem_ne_nil m)] at hext
    cases kind with
    | binary => rfl
    | sidecar | binaryBackup | sidecarBackup => exact absurd hext (by decide)
  · rintro ⟨hmem,m,-,rfl⟩
    refine ⟨⟨hmem,isDirectChild_filePath m⟩,?_⟩
    rw [extension_filePath (stem_ne_nil m)]
    decide

theorem Shelf.mem_listInstalled (hlaw : host.Lawful) (h : Shelf host dir) :
    b ∈ listInstalled host dir ↔ ∃ m binary, Holds host dir m binary ∧
      b = ⟨shown host m binary,filePath m.stem .binary⟩ := by
  rw [BlockInstaller.mem_listInstalled,h.mem_binaries]
  constructor
  · rintro ⟨⟨hmem,m,hname,hpath⟩,hmanifest⟩
    obtain ⟨binary,hbinary⟩ := ne_none_iff_exists'.mp (mem_iff_lookup_ne_none.mp hmem)
    rw [hpath] at hbinary
    obtain ⟨m',hstem,hholds⟩ := h.complete m binary hname hbinary
    refine ⟨m',binary,hholds,?_⟩
    obtain ⟨manifest,path⟩ := b
    dsimp only at hpath hmanifest
    rw [hpath,← hstem,hholds.listedManifest hlaw] at hmanifest
    rw [hmanifest,hpath,hstem]
  · rintro ⟨m,binary,hholds,rfl⟩
    refine ⟨⟨?_,m,hholds.named,rfl⟩,(hholds.listedManifest hlaw).symm⟩
    rw [mem_iff_lookup_ne_none,hholds.binary_eq]
    simp

/-! ### Installing beside other blocks -/

/-- The directories that installations make, each by an installer with its own trusted keys. -/
inductive Built (ed : Ed25519 κ) (host : Host) : Blocks → Prop
  | empty : Built ed host ∅
  | install {dir : Blocks} (h : Built ed host dir) (inst : BlockInstaller) (m : ManifestInfo)
      (binary : List UInt8) (now : UInt64) :
      Built ed host (inst.installFromBytes ed host dir m binary (.succeeds now)).1

theorem installVerified_ok (h : inst.installVerified host dir m binary io = (dir',.ok block)) :
    Named m ∧ dir' = BlockInstaller.withBlock host dir m binary io.now := by
  unfold installVerified at h
  split at h
  · simp at h
  · split_ifs at h with hname hhash
    · simp at h
    · simp at h
    · refine ⟨not_or.mp hname,?_⟩
      cases hbinary : io.binary with
      | failed e left => simp [writeFile,hbinary] at h
      | done =>
        cases hsidecar : io.sidecar with
        | failed e left =>
          simp [writeFile,writeSidecar,hbinary,hsidecar,Except.mapError,Except.map] at h
        | done =>
          simp only [writeFile,writeSidecar,hbinary,hsidecar,Prod.mk.injEq] at h
          exact h.1.symm

theorem installFromBytes_ok (h : inst.installFromBytes ed host dir m binary io = (dir',.ok block)) :
    Named m ∧ dir' = BlockInstaller.withBlock host dir m binary io.now := by
  unfold installFromBytes at h
  split at h
  · simp at h
  · exact installVerified_ok h

theorem installVerified_unnamed (hname : ¬ Named m) (hdir : io.createDir = none) :
    ∃ e, inst.installVerified host dir m binary io = (dir,.error e) := by
  unfold installVerified
  rw [hdir]
  rw [if_pos (not_not.mp fun h => hname (not_or.mp h))]
  exact ⟨_,rfl⟩

theorem installVerified_fst (host : Host) (inst : BlockInstaller) (dir : Blocks)
    (m : ManifestInfo) (binary : List UInt8) (now : UInt64) :
    (inst.installVerified host dir m binary (.succeeds now)).1 = dir ∨ (Named m ∧
      (inst.installVerified host dir m binary (.succeeds now)).1 =
        BlockInstaller.withBlock host dir m binary now) := by
  have hsame (herror : ∃ e, inst.installVerified host dir m binary (.succeeds now) =
      (dir,.error e)) : (inst.installVerified host dir m binary (.succeeds now)).1 = dir := by
    obtain ⟨e,he⟩ := herror
    rw [he]
  by_cases hhash : HashMismatch host m binary
  · exact .inl (hsame (installVerified_of_hashMismatch hhash))
  · by_cases hname : Named m
    · exact .inr ⟨hname,congrArg Prod.fst (installVerified_succeeds hname hhash now)⟩
    · exact .inl (hsame (installVerified_unnamed hname rfl))

theorem Shelf.installVerified (hlaw : host.Lawful) (h : Shelf host dir) :
    Shelf host (inst.installVerified host dir m binary (.succeeds now)).1 := by
  rcases installVerified_fst host inst dir m binary now with hsame | ⟨hname,hwritten⟩
  · rw [hsame]
    exact h
  · rw [hwritten]
    exact h.withBlock hlaw hname

theorem Shelf.installFromBytes (hlaw : host.Lawful) (h : Shelf host dir) :
    Shelf host (inst.installFromBytes ed host dir m binary (.succeeds now)).1 := by
  unfold BlockInstaller.installFromBytes
  split
  · exact h
  · exact h.installVerified hlaw

theorem Built.shelf (hlaw : host.Lawful) (h : Built ed host dir) : Shelf host dir := by
  induction h with
  | empty => exact shelf_empty
  | install h inst m binary now ih => exact ih.installFromBytes hlaw

/-- A block is listed with this manifest, and these are the bytes of its binary. -/
def Reported (host : Host) (dir : Blocks) (m : ManifestInfo) (binary : List UInt8) : Prop :=
  ∃ b ∈ listInstalled host dir, b.manifest = m ∧ dir.lookup b.path = some binary

/-- Only entries of the directory itself change, and every block of another name or version is
reported as before. -/
def LeavesOthersAlone (host : Host) (dir dir' : Blocks) (m : ManifestInfo) : Prop :=
  (∀ path, dir'.lookup path ≠ dir.lookup path →
    isDirectChild path = true ∧ (fileStem path).isSome = true) ∧
  ∀ m' binary', Reported host dir m' binary' → (m'.name,m'.version) ≠ (m.name,m.version) →
    Reported host dir' m' binary'

/-- No block of another name or version is listed under the file name of this one. -/
def NoSharedStem (host : Host) (dir : Blocks) (m : ManifestInfo) : Prop :=
  ∀ b ∈ listInstalled host dir, (b.manifest.name,b.manifest.version) ≠ (m.name,m.version) →
    fileStemOf b.manifest.name b.manifest.version ≠ fileStemOf m.name m.version

theorem Shelf.reported_iff (hlaw : host.Lawful) (h : Shelf host dir) :
    Reported host dir m binary ↔ ∃ m', Holds host dir m' binary ∧ m = shown host m' binary := by
  constructor
  · rintro ⟨b,hb,rfl,hbinary⟩
    obtain ⟨m',binary',hholds,rfl⟩ := (h.mem_listInstalled hlaw).mp hb
    obtain rfl : binary' = binary := some_inj.mp (hholds.binary_eq.symm.trans hbinary)
    exact ⟨m',hholds,rfl⟩
  · rintro ⟨m',hholds,rfl⟩
    exact ⟨_,(h.mem_listInstalled hlaw).mpr ⟨m',binary,hholds,rfl⟩,rfl,hholds.binary_eq⟩

theorem withBlock_direct (hchanged : (withBlock host dir m binary now).lookup path ≠
    dir.lookup path) : isDirectChild path = true ∧ (fileStem path).isSome = true := by
  have hstem {ext : Text} (hdot : '.' ∉ ext) (hext : ext ≠ []) :
      (fileStem (m.stem ++ '.'::ext)).isSome = true :=
    isSome_iff_exists.mpr ⟨_,fileStem_dot (stem_ne_nil m) hdot hext⟩
  rw [lookup_withBlock] at hchanged
  split_ifs at hchanged with hsidecar hbinary
  · rw [hsidecar]
    exact ⟨isDirectChild_filePath m,hstem (by decide) (by decide)⟩
  · rw [hbinary]
    exact ⟨isDirectChild_filePath m,hstem (by decide) (by decide)⟩
  · exact absurd rfl hchanged

theorem withBlock_leavesOthersAlone_iff (hlaw : host.Lawful) (h : Shelf host dir)
    (hname : Named m) : LeavesOthersAlone host dir (withBlock host dir m binary now) m ↔
      NoSharedStem host dir m := by
  have h' : Shelf host (BlockInstaller.withBlock host dir m binary now) := h.withBlock hlaw hname
  constructor
  · rintro ⟨-,hreports⟩ b hb hpair hstem
    obtain ⟨m₀,binary₀,hholds,rfl⟩ := (h.mem_listInstalled hlaw).mp hb
    have hreport := hreports _ _ ((h.reported_iff hlaw).mpr ⟨m₀,hholds,rfl⟩) hpair
    obtain ⟨m₁,hholds₁,hshown⟩ := (h'.reported_iff hlaw).mp hreport
    -- The only block with the stem is now the new one, and it has another name or version.
    have hstem₁ : m₁.stem = m.stem := by
      rw [← shown_stem host m₁ binary₀,← hshown]
      exact hstem
    rcases (holds_withBlock hlaw hname).mp hholds₁ with ⟨rfl,-⟩ | ⟨hne,-⟩
    · apply hpair
      rw [hshown,shown_name,shown_version]
    · exact hne hstem₁
  · intro hnoShared
    refine ⟨fun path hchanged => withBlock_direct hchanged,?_⟩
    intro m' binary' hreport hpair
    obtain ⟨m₀,hholds,rfl⟩ := (h.reported_iff hlaw).mp hreport
    have hstem := hnoShared _ ((h.mem_listInstalled hlaw).mpr ⟨m₀,_,hholds,rfl⟩) hpair
    refine (h'.reported_iff hlaw).mpr ⟨m₀,(holds_withBlock hlaw hname).mpr (.inr ⟨?_,hholds⟩),rfl⟩
    simpa [ManifestInfo.stem] using hstem

/-- An installation leaves the other blocks alone exactly if none of them is listed under the
file name of the new one. -/
theorem install_leavesOthersAlone_iff (hlaw : host.Lawful) (hbuilt : Built ed host dir)
    {io : Io} {dir' : Blocks} {block : InstalledBlock}
    (hok : inst.installFromBytes ed host dir m binary io = (dir',.ok block)) :
    LeavesOthersAlone host dir dir' m ↔ NoSharedStem host dir m := by
  obtain ⟨hname,rfl⟩ := installFromBytes_ok hok
  exact withBlock_leavesOthersAlone_iff hlaw (hbuilt.shelf hlaw) hname

/-! ### Two blocks under one name -/

def devInstaller : BlockInstaller := ⟨"blocks".toList,[]⟩

def devBlock (name version : String) : ManifestInfo :=
  defaultManifest name.toList version.toList 0 []

theorem devInstaller_installs (hname : Named m) (hsignature : m.signature = none)
    (hhash : m.wasmSha256 = []) (ed : Ed25519 κ) (host : Host) (dir : Blocks)
    (binary : List UInt8) (now : UInt64) :
    devInstaller.installFromBytes ed host dir m binary (.succeeds now) =
      (withBlock host dir m binary now,.ok ⟨m,filePath m.stem .binary⟩) := by
  have hverify : devInstaller.verifyManifest ed m = .ok () := by
    rw [verifyManifest,hsignature]
    rfl
  rw [installFromBytes,hverify]
  exact installVerified_succeeds hname (fun h => h.1 hhash) now

def oneBlock (m : ManifestInfo) : Blocks := withBlock serdeHost ∅ m [1] 0

theorem holds_oneBlock (hname : Named m) :
    Holds serdeHost (oneBlock m) m' binary ↔ m' = m ∧ binary = [1] := by
  rw [oneBlock,holds_withBlock serdeHost_lawful hname]
  constructor
  · rintro (h | ⟨-,h⟩)
    · exact h
    · simpa using h.binary_eq
  · intro h
    exact .inl h

/-- A directory with version `c` of the block `a_b`. -/
theorem built_a_b : Built sampleEd serdeHost (oneBlock (devBlock "a_b" "c")) := by
  have h : Built sampleEd serdeHost _ := .install .empty devInstaller (devBlock "a_b" "c") [1] 0
  rwa [devInstaller_installs (by decide) rfl rfl] at h

theorem install_leavesOthersAlone_net :
    let dir := oneBlock (devBlock "a_b" "c")
    let m := devBlock "net" "1.0.0"
    LeavesOthersAlone serdeHost dir (withBlock serdeHost dir m [2] 0) m := by
  intro dir m
  apply (install_leavesOthersAlone_iff serdeHost_lawful built_a_b
    (devInstaller_installs (by decide) rfl rfl sampleEd serdeHost dir [2] 0)).mpr
  intro b hb _
  obtain ⟨m₀,binary,hholds,rfl⟩ :=
    ((built_a_b.shelf serdeHost_lawful).mem_listInstalled serdeHost_lawful).mp hb
  obtain ⟨rfl,rfl⟩ := (holds_oneBlock (by decide)).mp hholds
  decide

/-- Version `b_c` of `a` takes the files of version `c` of `a_b`. -/
theorem joined_names_overwrite :
    let dir := oneBlock (devBlock "a_b" "c")
    ∃ dir' block, Built sampleEd serdeHost dir ∧
      devInstaller.installFromBytes sampleEd serdeHost dir (devBlock "a" "b_c") [2]
        (.succeeds 0) = (dir',.ok block) ∧
      ¬ LeavesOthersAlone serdeHost dir dir' (devBlock "a" "b_c") := by
  refine ⟨_,_,built_a_b,devInstaller_installs (by decide) rfl rfl _ _ _ _ _,?_⟩
  have hshelf := built_a_b.shelf serdeHost_lawful
  rw [withBlock_leavesOthersAlone_iff serdeHost_lawful hshelf (by decide)]
  intro hnoShared
  have hlisted := (hshelf.mem_listInstalled serdeHost_lawful).mpr
    ⟨_,_,(holds_oneBlock (by decide)).mpr ⟨rfl,rfl⟩,rfl⟩
  have hstem := hnoShared _ hlisted
  exact hstem (by decide) (by decide)

end BlockInstaller
end Aios.Store
