import Aios.Store.Rollback

/-!
An update and its rollback: what is found afterwards is compared with what was found before.
-/
namespace Aios.Store.BlockInstaller

open Aios.Core TextCodec
variable {κ : Type} {ed : Ed25519 κ} {host : Host} {inst : BlockInstaller} {dir dir' : Blocks}
  {m : ManifestInfo} {binary data : List UInt8} {name file stem : Text} {now : UInt64}

/-! ### What a rollback should give back -/

structure SameBlock (b b' : InstalledBlock) : Prop where
  version : b'.manifest.version = b.manifest.version
  description : b'.manifest.description = b.manifest.description
  author : b'.manifest.author = b.manifest.author
  capabilities : b'.manifest.capabilities = b.manifest.capabilities
  signature : b'.manifest.signature = b.manifest.signature

/-- The files of the blocks of other names are as before. -/
def OthersKept (host : Host) (dir dir' : Blocks) (name : Text) : Prop :=
  ∀ b ∈ listInstalled host dir, b.manifest.name ≠ name → ∀ kind,
    dir'.lookup (filePath b.manifest.stem kind) = dir.lookup (filePath b.manifest.stem kind)

/-- The block is found with the version, manifest and bytes that it had. -/
def Restores (host : Host) (dir dir' : Blocks) (name : Text) : Prop :=
  (∃ b b', findInstalled host dir name = some b ∧ findInstalled host dir' name = some b' ∧
    SameBlock b b' ∧ dir'.lookup b'.path = dir.lookup b.path) ∧
  OthersKept host dir dir' name

/-- No block of another name is listed under this stem. -/
def Unshared (host : Host) (dir : Blocks) (name stem : Text) : Prop :=
  ∀ b ∈ listInstalled host dir, b.manifest.name ≠ name → b.manifest.stem ≠ stem

/-- The manifest is one that a rollback makes up. -/
def IsLocal (m : ManifestInfo) : Prop :=
  m.description = [] ∧ m.author = "local".toList ∧ m.capabilities = ∅ ∧ m.signature = none

/-- The new version takes no file of another block, and there is a backup. If the name of the last
one tells a version that can be installed, this file belongs to no other block, and either it is the
version that was installed, with its bytes and a manifest that the name tells; or it is installed
beside the old version, which is found before it. -/
def Recoverable (host : Host) (dir : Blocks) (block : InstalledBlock) (new : ManifestInfo) : Prop :=
  Unshared host dir new.name new.stem ∧
  ∃ file ∈ withBackup dir block, isBackupOf new.name file = true ∧
    (∀ other ∈ withBackup dir block, isBackupOf new.name other = true → other ≤ file) ∧
    ∃ version, Tells file version ∧
    let stem := fileStemOf new.name version
    (sanitizeComponent version ≠ [] →
      (∀ b ∈ listInstalled host dir, b.manifest.name ≠ new.name →
        ∀ kind, file ≠ filePath b.manifest.stem kind) ∧
      if stem = block.manifest.stem then
        version = block.manifest.version ∧ IsLocal block.manifest ∧
          (withBackup dir block).lookup file = dir.lookup block.path
      else
        Unshared host dir new.name stem ∧
          (cmpVersion block.manifest.version version = .gt ∨
            components block.manifest.version = components version ∧
              block.path < filePath stem .binary))

theorem isLocal_shown : IsLocal (shown host m binary) ↔ IsLocal m := by
  unfold shown
  split <;> rfl

section
variable (hlaw : host.Lawful) (h : Shelf host dir)
include hlaw h

theorem Shelf.forall_listed {P : ManifestInfo → Prop}
    (hP : ∀ m binary, P (shown host m binary) ↔ P m) :
    (∀ b ∈ listInstalled host dir, P b.manifest) ↔ ∀ m binary, Holds host dir m binary → P m := by
  constructor
  · intro hall m binary hholds
    exact (hP m binary).mp (hall _ ((h.mem_listInstalled hlaw).mpr ⟨m,binary,hholds,rfl⟩))
  · intro hall b hb
    obtain ⟨m,binary,hholds,rfl⟩ := (h.mem_listInstalled hlaw).mp hb
    exact (hP m binary).mpr (hall m binary hholds)

theorem Shelf.othersKept_iff :
    OthersKept host dir dir' name ↔ ∀ m binary, Holds host dir m binary → m.name ≠ name →
      ∀ kind, dir'.lookup (filePath m.stem kind) = dir.lookup (filePath m.stem kind) := by
  apply h.forall_listed hlaw (P := fun m => m.name ≠ name → ∀ kind,
    dir'.lookup (filePath m.stem kind) = dir.lookup (filePath m.stem kind))
  intro m binary
  rw [shown_name,shown_stem]

theorem Shelf.unshared_iff : Unshared host dir name stem ↔
      ∀ m binary, Holds host dir m binary → m.name ≠ name → m.stem ≠ stem := by
  apply h.forall_listed hlaw (P := fun m => m.name ≠ name → m.stem ≠ stem)
  intro m binary
  rw [shown_name,shown_stem]

end

/-! ### The update -/

/-- A directory with an installed block, the one that is found under its name, and a newer version
of it. -/
structure Update (host : Host) where
  dir : Blocks
  old : ManifestInfo
  oldBinary : List UInt8
  new : ManifestInfo
  newBinary : List UInt8
  now : UInt64
  lawful : host.Lawful
  shelf : Shelf host dir
  holds : Holds host dir old oldBinary
  first : ∀ m binary, Holds host dir m binary → m.name = old.name → m = old ∨ Precedes old m
  named : Named new
  name_eq : new.name = old.name
  newer : ∀ m binary, Holds host dir m binary → m.name = old.name →
    components m.version < components new.version

namespace Update

variable (u : Update host)

def backedUp : Blocks := withBackup u.dir (entry host u.old u.oldBinary)

def updated : Blocks := withBlock host u.backedUp u.new u.newBinary u.now

def removed : Blocks := without u.updated u.new.stem

def found : InstalledBlock := entry host u.old u.oldBinary

def rolledBack (inst : BlockInstaller) (now : UInt64) : Blocks :=
  (inst.rollback host u.updated u.old.name (.succeeds now)).1

theorem stem_ne (hholds : Holds host u.dir m binary) (hname : m.name = u.old.name) :
    m.stem ≠ u.new.stem := by
  intro hstem
  rw [ManifestInfo.stem,ManifestInfo.stem,u.name_eq,hname] at hstem
  exact (u.newer m binary hholds hname).ne (components_eq_of_stem hstem)

theorem stem_ne_old (hholds : Holds host u.dir m binary) (hname : m.name ≠ u.old.name) :
    m.stem ≠ u.old.stem := by
  intro hstem
  exact hname (congrArg ManifestInfo.name (hholds.unique u.lawful u.holds hstem).1)

theorem shelf_updated : Shelf host u.updated :=
  (u.shelf.withBackup u.holds).withBlock u.lawful u.named

theorem shelf_removed : Shelf host u.removed := u.shelf_updated.without u.new.stem

theorem holds_updated : Holds host u.updated m binary ↔
    (m = u.new ∧ binary = u.newBinary) ∨
      (m.stem ≠ u.new.stem ∧ Holds host u.dir m binary) := by
  rw [updated,holds_withBlock u.lawful u.named,backedUp,
    holds_congr fun _ hkind => lookup_withBackup_of_live u.holds hkind]

theorem holds_removed : Holds host u.removed m binary ↔
    m.stem ≠ u.new.stem ∧ Holds host u.dir m binary := by
  rw [removed,holds_without,u.holds_updated]
  constructor
  · rintro ⟨hstem,⟨rfl,-⟩ | ⟨-,hholds⟩⟩
    · exact absurd rfl hstem
    · exact ⟨hstem,hholds⟩
  · rintro ⟨hstem,hholds⟩
    exact ⟨hstem,.inr ⟨hstem,hholds⟩⟩

theorem find_dir : findInstalled host u.dir u.old.name = some u.found :=
  (u.shelf.findInstalled_iff u.lawful).mpr ⟨u.old,u.oldBinary,u.holds,rfl,rfl,u.first⟩

theorem find_updated :
    findInstalled host u.updated u.old.name = some (entry host u.new u.newBinary) := by
  refine (u.shelf_updated.findInstalled_iff u.lawful).mpr
    ⟨u.new,u.newBinary,u.holds_updated.mpr (.inl ⟨rfl,rfl⟩),u.name_eq,rfl,?_⟩
  intro m binary hholds hname
  rcases u.holds_updated.mp hholds with ⟨rfl,-⟩ | ⟨-,hholds⟩
  · exact .inl rfl
  · exact .inr (.inl (u.newer m binary hholds hname))

theorem find_removed : findInstalled host u.removed u.old.name = some u.found := by
  refine (u.shelf_removed.findInstalled_iff u.lawful).mpr
    ⟨u.old,u.oldBinary,u.holds_removed.mpr ⟨u.stem_ne u.holds rfl,u.holds⟩,rfl,rfl,?_⟩
  intro m binary hholds hname
  exact u.first m binary (u.holds_removed.mp hholds).2 hname

theorem lookup_removed_of_ne (hstem : stem ≠ u.new.stem) (kind : FileKind) :
    u.removed.lookup (filePath stem kind) = u.backedUp.lookup (filePath stem kind) := by
  simp [removed,updated,lookup_without,lookup_withBlock,filePath_inj,hstem]

theorem lookup_removed_backup {kind : FileKind} (hkind : kind.live = false) (stem : Text) :
    u.removed.lookup (filePath stem kind) = u.backedUp.lookup (filePath stem kind) := by
  cases kind <;>
    simp_all [FileKind.live,removed,updated,lookup_without,lookup_withBlock,filePath_inj]

theorem lookup_backedUp_of_ne (hstem : stem ≠ u.old.stem) (kind : FileKind) :
    u.backedUp.lookup (filePath stem kind) = u.dir.lookup (filePath stem kind) := by
  simp [backedUp,lookup_withBackup u.holds,filePath_inj,hstem]

theorem lookup_backedUp_old :
    u.backedUp.lookup (filePath u.old.stem .binaryBackup) = some u.oldBinary := by
  rw [backedUp,lookup_withBackup u.holds,if_neg (by simp [filePath_inj]),if_pos rfl]
  exact u.holds.binary_eq

theorem newestBackup_updated : newestBackup u.updated name = newestBackup u.backedUp name := by
  apply newestBackup_congr
  intro path hpath
  rw [Finmap.mem_iff_lookup_ne_none,Finmap.mem_iff_lookup_ne_none,updated,lookup_withBlock,
    if_neg,if_neg]
  · rintro rfl
    exact absurd (hpath.symm.trans (not_isBackupOf_live rfl)) (by decide)
  · rintro rfl
    exact absurd (hpath.symm.trans (not_isBackupOf_live rfl)) (by decide)

def made (file : Text) (data : List UInt8) : ManifestInfo :=
  rollbackManifest host u.old.name file data

def restored (file : Text) (data : List UInt8) (now : UInt64) : Blocks :=
  restoredFrom host u.removed u.old.name file data now

theorem stem_made (file : Text) (data : List UInt8) :
    (u.made file data).stem = fileStemOf u.old.name (backupVersion file) := by
  simp only [ManifestInfo.stem,made,rollbackManifest,defaultManifest]

theorem named_made : Named (u.made file data) ↔ sanitizeComponent (backupVersion file) ≠ [] := by
  have hname : sanitizeComponent u.old.name ≠ [] := u.holds.named.1
  exact ⟨fun h => h.2,fun h => ⟨hname,h⟩⟩

theorem rolledBack_of_some (hfile : newestBackup u.backedUp u.old.name = some file)
    (hdata : u.backedUp.lookup file = some data) (inst : BlockInstaller) (now : UInt64) :
    u.rolledBack inst now = if Named (u.made file data) then
      u.restored file data now else u.removed := by
  obtain ⟨m,kind,hkind,hpath⟩ := (u.shelf.withBackup u.holds).newestBackup hfile
  rw [← newestBackup_updated] at hfile
  apply rollback_succeeds hfile
  · rw [withoutCurrent,u.find_updated]
    exact erase_entry
  · rw [hpath,u.lookup_removed_backup hkind,← hpath]
    exact hdata

/-! ### The blocks of other names -/

theorem holds_of_othersKept (hkept : OthersKept host u.dir dir' u.old.name)
    (hholds : Holds host u.dir m binary) (hname : m.name ≠ u.old.name) :
    Holds host dir' m binary :=
  (holds_congr fun kind _ => (u.shelf.othersKept_iff u.lawful).mp hkept m binary hholds hname
    kind).mpr hholds

theorem othersKept_removed_iff : OthersKept host u.dir u.removed u.old.name ↔
    Unshared host u.dir u.old.name u.new.stem := by
  rw [u.shelf.unshared_iff u.lawful]
  constructor
  · intro hkept m binary hholds hname
    exact (u.holds_removed.mp (u.holds_of_othersKept hkept hholds hname)).1
  · intro hunshared
    refine (u.shelf.othersKept_iff u.lawful).mpr fun m binary hholds hname kind => ?_
    rw [u.lookup_removed_of_ne (hunshared m binary hholds hname),
      u.lookup_backedUp_of_ne (u.stem_ne_old hholds hname)]

structure Taken (file : Text) (data : List UInt8) : Prop where
  newest : newestBackup u.backedUp u.old.name = some file
  content : u.backedUp.lookup file = some data
  named : Named (u.made file data)

variable {u}

section
variable (h : u.Taken file data)
include h

theorem Taken.kind : ∃ (m : ManifestInfo) (kind : FileKind),
    kind.live = false ∧ file = filePath m.stem kind :=
  (u.shelf.withBackup u.holds).newestBackup h.newest

theorem Taken.holds_restored : Holds host (u.restored file data now) m binary ↔
      (m = u.made file data ∧ binary = data) ∨
        (m.stem ≠ (u.made file data).stem ∧ m.stem ≠ u.new.stem ∧ Holds host u.dir m binary) := by
  obtain ⟨_,_,hkind,hpath⟩ := h.kind
  rw [← u.holds_removed,← holds_withBlock u.lawful h.named]
  exact holds_congr fun _ hlive => lookup_restoredFrom_of_live hkind hpath hlive

theorem Taken.shelf_restored : Shelf host (u.restored file data now) := by
  obtain ⟨_,_,hkind,hpath⟩ := h.kind
  exact u.shelf_removed.restoredFrom u.lawful hkind hpath h.named

theorem Taken.lookup_restored (kind : FileKind) (hmade : m.stem ≠ (u.made file data).stem)
    (hnew : m.stem ≠ u.new.stem) :
    (u.restored file data now).lookup (filePath m.stem kind) =
      if filePath m.stem kind = file then none else u.backedUp.lookup (filePath m.stem kind) := by
  obtain ⟨_,_,hkind,hpath⟩ := h.kind
  rw [made] at hmade
  rw [restored,lookup_restoredFrom hkind hpath,← u.lookup_removed_of_ne hnew]
  simp [lookup_withBlock,filePath_inj,hmade]

theorem Taken.othersKept_restored_iff :
    OthersKept host u.dir (u.restored file data now) u.old.name ↔
      Unshared host u.dir u.old.name u.new.stem ∧
      Unshared host u.dir u.old.name (u.made file data).stem ∧
      ∀ m binary, Holds host u.dir m binary → m.name ≠ u.old.name →
        ∀ kind, file ≠ filePath m.stem kind := by
  rw [u.shelf.unshared_iff u.lawful,u.shelf.unshared_iff u.lawful]
  constructor
  · intro hkept
    have hstems (m : ManifestInfo) (binary : List UInt8) (hholds : Holds host u.dir m binary)
        (hname : m.name ≠ u.old.name) :
        m.stem ≠ (u.made file data).stem ∧ m.stem ≠ u.new.stem := by
      rcases h.holds_restored.mp (u.holds_of_othersKept hkept hholds hname) with
        ⟨rfl,-⟩ | ⟨hmade,hnew,-⟩
      · exact absurd rfl hname
      · exact ⟨hmade,hnew⟩
    refine ⟨fun m binary hholds hname => (hstems m binary hholds hname).2,
      fun m binary hholds hname => (hstems m binary hholds hname).1,?_⟩
    rintro m binary hholds hname kind rfl
    obtain ⟨hmade,hnew⟩ := hstems m binary hholds hname
    -- The backup was there and is gone.
    have hgone := (u.shelf.othersKept_iff u.lawful).mp hkept m binary hholds hname kind
    rw [h.lookup_restored kind hmade hnew,if_pos rfl,
      ← u.lookup_backedUp_of_ne (u.stem_ne_old hholds hname),h.content] at hgone
    cases hgone
  · rintro ⟨hnew,hmade,hfile⟩
    refine (u.shelf.othersKept_iff u.lawful).mpr fun m binary hholds hname kind => ?_
    rw [h.lookup_restored kind (hmade m binary hholds hname) (hnew m binary hholds hname),
      if_neg (hfile m binary hholds hname kind).symm,
      u.lookup_backedUp_of_ne (u.stem_ne_old hholds hname)]

/-! ### The block that is found -/

theorem Taken.find_restored_old (hstem : (u.made file data).stem ≠ u.old.stem)
    (hrank : Precedes u.old (u.made file data)) :
    findInstalled host (u.restored file data now) u.old.name = some u.found := by
  refine (h.shelf_restored.findInstalled_iff u.lawful).mpr
    ⟨_,_,h.holds_restored.mpr (.inr ⟨hstem.symm,u.stem_ne u.holds rfl,u.holds⟩),rfl,rfl,?_⟩
  intro m binary hholds hname
  rcases h.holds_restored.mp hholds with ⟨rfl,-⟩ | ⟨-,-,hholds⟩
  · exact .inr hrank
  · exact u.first m binary hholds hname

theorem Taken.find_restored_made
    (hold : (u.made file data).stem ≠ u.old.stem → ¬ Precedes u.old (u.made file data)) :
    findInstalled host (u.restored file data now) u.old.name =
      some (entry host (u.made file data) data) := by
  refine (h.shelf_restored.findInstalled_iff u.lawful).mpr
    ⟨_,data,h.holds_restored.mpr (.inl ⟨rfl,rfl⟩),rfl,rfl,?_⟩
  intro m binary hholds hname
  rcases h.holds_restored.mp hholds with ⟨rfl,-⟩ | ⟨hne,-,hholds⟩
  · exact .inl rfl
  · right
    have hfirst := u.first m binary hholds hname
    by_cases hstem : (u.made file data).stem = u.old.stem
    · have hversion : components (u.made file data).version = components u.old.version :=
        components_eq_of_stem hstem
      rw [Precedes,hversion,hstem]
      exact hfirst.resolve_left fun heq => hne (heq ▸ hstem.symm)
    · have hbefore := (precedes_total hstem).resolve_right (hold hstem)
      rcases hfirst with rfl | hlater
      · exact hbefore
      · exact hbefore.trans hlater

end

/-- The manifest that the rollback makes up is the old one only if that told nothing more. -/
theorem sameBlock_made_iff : SameBlock u.found (entry host (u.made file data) data) ↔
      backupVersion file = u.old.version ∧ IsLocal u.found.manifest := by
  have hversion : (entry host (u.made file data) data).manifest.version = backupVersion file :=
    shown_version host _ data
  have hlocal : IsLocal (entry host (u.made file data) data).manifest :=
    isLocal_shown.mpr ⟨rfl,rfl,rfl,rfl⟩
  have hold : u.found.manifest.version = u.old.version := shown_version host _ _
  obtain ⟨hdescription,hauthor,hcapabilities,hsignature⟩ := hlocal
  constructor
  · intro h
    refine ⟨hversion.symm.trans (h.version.trans hold),h.description.symm.trans hdescription,
      h.author.symm.trans hauthor,h.capabilities.symm.trans hcapabilities,
      h.signature.symm.trans hsignature⟩
  · rintro ⟨h,hd,ha,hc,hs⟩
    exact ⟨hversion.trans (h.trans hold.symm),hdescription.trans hd.symm,hauthor.trans ha.symm,
      hcapabilities.trans hc.symm,hsignature.trans hs.symm⟩

variable (u)

theorem restores_iff {b : InstalledBlock} (hfind : findInstalled host dir' u.old.name = some b) :
    Restores host u.dir dir' u.old.name ↔
      (SameBlock u.found b ∧ dir'.lookup b.path = some u.oldBinary) ∧
        OthersKept host u.dir dir' u.old.name := by
  have hbinary : u.dir.lookup u.found.path = some u.oldBinary := u.holds.binary_eq
  rw [Restores,hfind,u.find_dir]
  constructor
  · rintro ⟨⟨_,_,⟨⟩,⟨⟩,hsame,hlookup⟩,hkept⟩
    exact ⟨⟨hsame,hlookup.trans hbinary⟩,hkept⟩
  · rintro ⟨⟨hsame,hlookup⟩,hkept⟩
    exact ⟨⟨_,_,rfl,rfl,hsame,hlookup.trans hbinary.symm⟩,hkept⟩

theorem restores_removed_iff : Restores host u.dir u.removed u.old.name ↔
    Unshared host u.dir u.old.name u.new.stem := by
  have hlookup : u.removed.lookup u.found.path = some u.oldBinary :=
    (u.holds_removed.mpr ⟨u.stem_ne u.holds rfl,u.holds⟩).binary_eq
  rw [u.restores_iff u.find_removed,u.othersKept_removed_iff]
  exact and_iff_right ⟨⟨rfl,rfl,rfl,rfl,rfl⟩,hlookup⟩

theorem not_restores_updated : ¬ Restores host u.dir u.updated u.old.name := by
  rw [u.restores_iff u.find_updated]
  rintro ⟨⟨hsame,-⟩,-⟩
  have hversion : u.new.version = u.old.version := by
    have h := hsame.version
    rwa [entry,found,entry,shown_version,shown_version] at h
  have hnewer := u.newer u.old u.oldBinary u.holds rfl
  rw [hversion] at hnewer
  exact lt_irrefl _ hnewer

variable {u}

/-- A rollback that installs the backup restores the block if the backup is that of the old
version, or if the old version is found before it. -/
theorem Taken.restores_iff (h : u.Taken file data) :
    Restores host u.dir (u.restored file data now) u.old.name ↔
      OthersKept host u.dir (u.restored file data now) u.old.name ∧
      if (u.made file data).stem = u.old.stem then
        backupVersion file = u.old.version ∧ IsLocal u.found.manifest ∧
          data = u.oldBinary
      else Precedes u.old (u.made file data) := by
  have hmade : (u.restored file data now).lookup
      (entry host (u.made file data) data).path = some data :=
    (h.holds_restored.mpr (.inl ⟨rfl,rfl⟩)).binary_eq
  split_ifs with hstem
  · rw [u.restores_iff (h.find_restored_made (absurd hstem)),sameBlock_made_iff,hmade,
      Option.some_inj,and_comm,and_assoc]
  · by_cases hrank : Precedes u.old (u.made file data)
    · have hlookup : (u.restored file data now).lookup u.found.path = some u.oldBinary :=
        (h.holds_restored.mpr (.inr ⟨Ne.symm hstem,u.stem_ne u.holds rfl,u.holds⟩)).binary_eq
      rw [u.restores_iff (h.find_restored_old hstem hrank),and_comm]
      exact and_congr_right' (iff_of_true ⟨⟨rfl,rfl,rfl,rfl,rfl⟩,hlookup⟩ hrank)
    · rw [u.restores_iff (h.find_restored_made fun _ => hrank),sameBlock_made_iff]
      -- The version that is found is another one, since the file names differ.
      constructor
      · rintro ⟨⟨⟨hversion,-⟩,-⟩,-⟩
        exact absurd (congrArg (fileStemOf u.old.name) hversion) hstem
      · rintro ⟨-,hfirst⟩
        exact absurd hfirst hrank

variable (u)

theorem precedes_old_iff (file : Text) (data : List UInt8) : Precedes u.old (u.made file data) ↔
      (cmpVersion u.old.version (backupVersion file) = .gt ∨
        components u.old.version = components (backupVersion file) ∧
          filePath u.old.stem .binary < filePath (u.made file data).stem .binary) := by
  rw [cmpVersion_eq_gt_iff,eq_comm]
  rfl

/-- The condition in terms of the blocks that the directory holds. -/
theorem recoverable_iff (hfile : newestBackup u.backedUp u.old.name = some file)
    (hdata : u.backedUp.lookup file = some data) :
    Recoverable host u.dir u.found u.new ↔
      Unshared host u.dir u.old.name u.new.stem ∧
      (Named (u.made file data) →
        (∀ m binary, Holds host u.dir m binary → m.name ≠ u.old.name →
          ∀ kind, file ≠ filePath m.stem kind) ∧
        if (u.made file data).stem = u.old.stem then
          backupVersion file = u.old.version ∧ IsLocal u.found.manifest ∧
            data = u.oldBinary
        else Unshared host u.dir u.old.name (u.made file data).stem ∧
          Precedes u.old (u.made file data)) := by
  have hmade := (u.stem_made file data).symm
  have hstem : u.found.manifest.stem = u.old.stem := shown_stem host _ _
  have hversion : u.found.manifest.version = u.old.version := shown_version host _ _
  have hpath : u.found.path = filePath u.old.stem .binary := rfl
  have hothers : (∀ b ∈ listInstalled host u.dir, b.manifest.name ≠ u.old.name →
      ∀ kind, file ≠ filePath b.manifest.stem kind) ↔
      ∀ m binary, Holds host u.dir m binary → m.name ≠ u.old.name →
        ∀ kind, file ≠ filePath m.stem kind := by
    apply u.shelf.forall_listed u.lawful (P := fun m => m.name ≠ u.old.name →
      ∀ kind, file ≠ filePath m.stem kind)
    intro m binary
    rw [shown_name,shown_stem]
  have hbackedUp : withBackup u.dir u.found = u.backedUp := rfl
  have hbinary : u.dir.lookup u.found.path = some u.oldBinary := u.holds.binary_eq
  rw [Recoverable,u.name_eq,hbackedUp]
  refine and_congr_right fun _ => ((u.shelf.withBackup u.holds).lastBackup_iff hfile).trans ?_
  simp only [hmade,hstem,hversion,hpath,hothers,hdata,hbinary,Option.some_inj,u.named_made,
    precedes_old_iff]

theorem rolledBack_restores_iff (inst : BlockInstaller) (now : UInt64) :
    Restores host u.dir (u.rolledBack inst now) u.old.name ↔
      Recoverable host u.dir u.found u.new := by
  cases hfile : newestBackup u.backedUp u.old.name with
  | none =>
    have hnone := u.newestBackup_updated.trans hfile
    rw [rolledBack,rollback_of_none hnone]
    refine iff_of_false u.not_restores_updated ?_
    rintro ⟨-,file,hmem,hbackup,hlast,-⟩
    rw [u.name_eq] at hbackup hlast
    have hsome := newestBackup_eq_some_iff.mpr ⟨hmem,hbackup,hlast⟩
    exact absurd (hsome.symm.trans hfile) (by simp)
  | some file =>
    have hmem := (newestBackup_eq_some_iff.mp hfile).1
    obtain ⟨data,hdata⟩ := Option.ne_none_iff_exists'.mp (Finmap.mem_iff_lookup_ne_none.mp hmem)
    rw [u.rolledBack_of_some hfile hdata,u.recoverable_iff hfile hdata]
    by_cases hnamed : Named (u.made file data)
    · have htaken : u.Taken file data := ⟨hfile,hdata,hnamed⟩
      rw [if_pos hnamed,htaken.restores_iff,htaken.othersKept_restored_iff]
      split_ifs with hstem
      · -- The backup replaces the old version, whose files no other block has.
        have hmade : Unshared host u.dir u.old.name (u.made file data).stem := by
          rw [hstem]
          exact (u.shelf.unshared_iff u.lawful).mpr fun m binary => u.stem_ne_old
        constructor
        · rintro ⟨⟨hnew,-,hothers⟩,hsame⟩
          exact ⟨hnew,fun _ => ⟨hothers,hsame⟩⟩
        · rintro ⟨hnew,h⟩
          obtain ⟨hothers,hsame⟩ := h hnamed
          exact ⟨⟨hnew,hmade,hothers⟩,hsame⟩
      · constructor
        · rintro ⟨⟨hnew,hmade,hothers⟩,hrank⟩
          exact ⟨hnew,fun _ => ⟨hothers,hmade,hrank⟩⟩
        · rintro ⟨hnew,h⟩
          obtain ⟨hothers,hmade,hrank⟩ := h hnamed
          exact ⟨⟨hnew,hmade,hothers⟩,hrank⟩
    · rw [if_neg hnamed,u.restores_removed_iff]
      exact ⟨fun hnew => ⟨hnew,fun h => absurd h hnamed⟩,fun h => h.1⟩

end Update

/-- An update that is rolled back restores the block exactly in the recoverable cases. -/
theorem rollback_restores_iff (hlaw : host.Lawful) (hreached : Reached ed host dir)
    {block : InstalledBlock} (hfound : findInstalled host dir name = some block)
    (hname : m.name = name)
    (hnewer : ∀ b ∈ listInstalled host dir, b.manifest.name = name →
      cmpVersion m.version b.manifest.version = .gt)
    {io : Io} {installed : InstalledBlock}
    (hok : inst.installFromBytes ed host (backup host dir name .succeeds).1 m binary io =
      (dir',.ok installed)) (now : UInt64) :
    Restores host dir (inst.rollback host dir' name (.succeeds now)).1 name ↔
      Recoverable host dir block m := by
  have hshelf := hreached.shelf hlaw
  rw [backup_succeeds hlaw hshelf hfound] at hok
  obtain ⟨hnamed,rfl⟩ := installFromBytes_ok hok
  obtain ⟨old,oldBinary,hholds,rfl,rfl,hfirst⟩ := (hshelf.findInstalled_iff hlaw).mp hfound
  have hnewer' (m' : ManifestInfo) (binary' : List UInt8) (hholds' : Holds host dir m' binary')
      (hname' : m'.name = old.name) : components m'.version < components m.version := by
    have hlisted := (hshelf.mem_listInstalled hlaw).mpr ⟨m',binary',hholds',rfl⟩
    have hgt := hnewer _ hlisted (by rwa [shown_name])
    rwa [cmpVersion_eq_gt_iff,shown_version] at hgt
  let u : Update host := ⟨dir,old,oldBinary,m,binary,io.now,hlaw,hshelf,hholds,hfirst,
    hnamed,hname,hnewer'⟩
  exact u.rolledBack_restores_iff inst now

/-! ### One block updated -/

variable (description : String)

def netBlock : ManifestInfo :=
  { devBlock "net" "1.0.0" with description := description.toList }

theorem reached_netBlock : Reached sampleEd serdeHost (oneBlock (netBlock description)) := by
  have h : Reached sampleEd serdeHost (devInstaller.installFromBytes sampleEd serdeHost ∅
      (netBlock description) [1] (.succeeds 0)).1 := .install .empty devInstaller _ [1] 0
  rwa [devInstaller_installs (by exact (by decide : Named (devBlock "net" "1.0.0"))) rfl rfl] at h

theorem holds_netBlock {description : String} :
    Holds serdeHost (oneBlock (netBlock description)) m binary ↔
      m = netBlock description ∧ binary = [1] :=
  holds_oneBlock (by exact (by decide : Named (devBlock "net" "1.0.0")))

def netUpdate : Update serdeHost where
  dir := oneBlock (netBlock description)
  old := netBlock description
  oldBinary := [1]
  new := devBlock "net" "2.0.0"
  newBinary := [2]
  now := 0
  lawful := serdeHost_lawful
  shelf := (reached_netBlock description).shelf serdeHost_lawful
  holds := holds_netBlock.mpr ⟨rfl,rfl⟩
  first m binary hholds _ := .inl (holds_netBlock.mp hholds).1
  named := by decide
  name_eq := rfl
  newer m binary hholds _ := by
    obtain ⟨rfl,-⟩ := holds_netBlock.mp hholds
    show components "1.0.0".toList < components "2.0.0".toList
    decide

theorem netUpdate_newestBackup {description : String}
    (h : description = "" ∨ description = "Network stack") :
    newestBackup (netUpdate description).backedUp "net".toList =
      some (filePath (netBlock description).stem .binaryBackup) := by
  obtain rfl | rfl := h <;> decide +kernel

theorem netUpdate_find : findInstalled serdeHost (oneBlock (netBlock description)) "net".toList =
      some (entry serdeHost (netBlock description) [1]) := (netUpdate description).find_dir

theorem netUpdate_newer : ∀ b ∈ listInstalled serdeHost (oneBlock (netBlock description)),
      b.manifest.name = "net".toList →
      cmpVersion (devBlock "net" "2.0.0").version b.manifest.version = .gt := by
  intro b hb _
  obtain ⟨m,binary,hholds,rfl⟩ :=
    ((netUpdate description).shelf.mem_listInstalled serdeHost_lawful).mp hb
  obtain ⟨rfl,rfl⟩ := holds_netBlock.mp hholds
  show cmpVersion "2.0.0".toList "1.0.0".toList = .gt
  decide

theorem netUpdate_installs : devInstaller.installFromBytes sampleEd serdeHost
      (backup serdeHost (oneBlock (netBlock description)) "net".toList .succeeds).1
      (devBlock "net" "2.0.0") [2] (.succeeds 0) =
      ((netUpdate description).updated,.ok ⟨devBlock "net" "2.0.0","net_2.0.0.wasm".toList⟩) := by
  rw [backup_succeeds serdeHost_lawful ((reached_netBlock description).shelf serdeHost_lawful)
    (netUpdate_find description)]
  exact devInstaller_installs (by decide) rfl rfl sampleEd serdeHost _ [2] 0

theorem netUpdate_backupVersion :
    backupVersion (filePath (netBlock description).stem .binaryBackup) = "1.0.0".toList := by
  show backupVersion "net_1.0.0.wasm.bak".toList = "1.0.0".toList
  decide

theorem netUpdate_alone {description : String}
    (hholds : Holds serdeHost (oneBlock (netBlock description)) m binary)
    (hname : m.name ≠ "net".toList) : False := by
  obtain ⟨rfl,-⟩ := holds_netBlock.mp hholds
  exact hname rfl

/-- An unsigned block without a description comes back. -/
theorem rollback_restores_netBlock : Restores serdeHost (oneBlock (netBlock ""))
      (devInstaller.rollback serdeHost (netUpdate "").updated "net".toList (.succeeds 0)).1
      "net".toList := by
  apply (rollback_restores_iff serdeHost_lawful (reached_netBlock "") (netUpdate_find "") rfl
    (netUpdate_newer "") (netUpdate_installs "") 0).mpr
  refine ((netUpdate "").recoverable_iff (netUpdate_newestBackup (.inl rfl))
    (netUpdate "").lookup_backedUp_old).mpr ⟨?_,fun _ => ⟨?_,?_⟩⟩
  · exact ((netUpdate "").shelf.unshared_iff serdeHost_lawful).mpr
      fun m binary hholds hname => (netUpdate_alone hholds hname).elim
  · exact fun m binary hholds hname => (netUpdate_alone hholds hname).elim
  · exact ⟨netUpdate_backupVersion "",isLocal_shown.mpr ⟨rfl,rfl,rfl,rfl⟩,rfl⟩

/-- The description of a block is lost. -/
theorem description_not_restored :
    let dir := oneBlock (netBlock "Network stack")
    let new := devBlock "net" "2.0.0"
    ∃ block dir' installed, Reached sampleEd serdeHost dir ∧
      findInstalled serdeHost dir "net".toList = some block ∧
      (∀ b ∈ listInstalled serdeHost dir, b.manifest.name = "net".toList →
        cmpVersion new.version b.manifest.version = .gt) ∧
      devInstaller.installFromBytes sampleEd serdeHost
        (backup serdeHost dir "net".toList .succeeds).1 new [2] (.succeeds 0) =
          (dir',.ok installed) ∧
      ¬ Restores serdeHost dir
        (devInstaller.rollback serdeHost dir' "net".toList (.succeeds 0)).1 "net".toList := by
  refine ⟨_,_,_,reached_netBlock _,netUpdate_find _,netUpdate_newer _,netUpdate_installs _,?_⟩
  intro hrestores
  have hrecoverable := ((netUpdate "Network stack").rolledBack_restores_iff devInstaller 0).mp
    hrestores
  obtain ⟨-,h⟩ := ((netUpdate "Network stack").recoverable_iff (netUpdate_newestBackup (.inr rfl))
    (netUpdate _).lookup_backedUp_old).mp hrecoverable
  have hnamed : sanitizeComponent
      (backupVersion (filePath (netBlock "Network stack").stem .binaryBackup)) ≠ [] := by
    decide
  obtain ⟨-,hlocal⟩ := h ((netUpdate _).named_made.mpr hnamed)
  have hdescription : (netBlock "Network stack").description = [] :=
    (isLocal_shown.mp hlocal.2.1).1
  exact absurd hdescription (by decide)

end Aios.Store.BlockInstaller
