import Aios.Store.Versions

/-!
Backups of a block and the rollback to one, which takes the last `.bak` file by name, reads a
version from its name and installs it with a manifest made up from that.
-/
namespace Aios.Store

open Aios.Core TextCodec Fallible Finmap

def stripSuffix (suffix s : Text) : Option Text :=
  if suffix <:+ s then some (s.take (s.length-suffix.length)) else none

variable {kind : FileKind}

namespace BlockInstaller

/-! ### The code -/

structure BackupIo where
  binary : WriteOutcome (List UInt8)
  sidecar : WriteOutcome (List UInt8)

def BackupIo.succeeds : BackupIo := ⟨.done,.done⟩

structure RollbackIo where
  removeBinary : Bool
  removeSidecar : Bool
  read : Option String
  install : Io
  removeBackup : Bool
  removeTwin : Bool

def RollbackIo.succeeds (now : UInt64) : RollbackIo := ⟨true,true,none,.succeeds now,true,true⟩

/-- `std::fs::remove_file` where the error is ignored. -/
def removeFile (dir : Blocks) (path : Text) (removed : Bool) : Blocks :=
  if removed then dir.erase path else dir

def backup (host : Host) (dir : Blocks) (name : Text) (io : BackupIo) :
    Blocks × Except String InstalledBlock :=
  match findInstalled host dir name with
  | none => (dir,.error ("Block '" ++ String.ofList name ++ "' is not installed"))
  | some block =>
    match writeFile dir (block.path ++ bak) ((dir.lookup block.path).getD []) io.binary with
    | (dir,.error e) => (dir,.error ("Backup copy failed: " ++ e))
    | (dir,.ok ()) =>
      let sidecar := withExtension block.path "json".toList
      match dir.lookup sidecar with
      | none => (dir,.ok block)
      | some data => ((writeFile dir (sidecar ++ bak) data io.sidecar).1,.ok block)

/-- A file that `rollback` takes for a backup of the block. -/
def isBackupOf (name path : Text) : Bool :=
  isDirectChild path && extension path == some "bak".toList && (name ++ ['_']).isPrefixOf path

def newestBackup (dir : Blocks) (name : Text) : Option Text :=
  (dir.sortedKeys.filter (isBackupOf name)).getLast?

def backupVersion (file : Text) : Text :=
  let stem := (fileStem file).getD []
  let clean := (stripSuffix ".bin".toList ((stripSuffix wasm stem).getD stem)).getD stem
  (parseNameVersion clean).2

/-- The manifest under which a backup is installed. -/
def rollbackManifest (host : Host) (name file : Text) (data : List UInt8) : ManifestInfo :=
  defaultManifest name (backupVersion file) data.length (shaText host data)

def rollback (inst : BlockInstaller) (host : Host) (dir : Blocks) (name : Text) (io : RollbackIo) :
    Blocks × Except String InstalledBlock :=
  match newestBackup dir name with
  | none => (dir,.error ("No rollback backup found for '" ++ String.ofList name ++ "'"))
  | some file =>
    let dir := match findInstalled host dir name with
      | none => dir
      | some current =>
        removeFile (removeFile dir current.path io.removeBinary)
          (withExtension current.path "json".toList) io.removeSidecar
    match io.read, dir.lookup file with
    | none, some data =>
      match inst.installVerified host dir (rollbackManifest host name file data) data
          io.install with
      | (dir,.error e) => (dir,.error e)
      | (dir,.ok block) =>
        (removeFile (removeFile dir file io.removeBackup) (file ++ bak) io.removeTwin,.ok block)
    | e, _ => (dir,.error ("Failed to read backup " ++
        host.debugPath (inst.blocksDir ++ '/'::file) ++ ": " ++
        e.getD "No such file or directory (os error 2)"))

/-- The directories that installations, backups and rollbacks of any blocks make. -/
inductive Reached {κ : Type} (ed : Ed25519 κ) (host : Host) : Blocks → Prop
  | empty : Reached ed host ∅
  | install {dir : Blocks} (h : Reached ed host dir) (inst : BlockInstaller) (m : ManifestInfo)
      (binary : List UInt8) (now : UInt64) :
      Reached ed host (inst.installFromBytes ed host dir m binary (.succeeds now)).1
  | backup {dir : Blocks} (h : Reached ed host dir) (name : Text) :
      Reached ed host (backup host dir name .succeeds).1
  | rollback {dir : Blocks} (h : Reached ed host dir) (inst : BlockInstaller) (name : Text)
      (now : UInt64) : Reached ed host (inst.rollback host dir name (.succeeds now)).1

/-! ### What the calls do to the files -/

variable {κ : Type} {ed : Ed25519 κ} {host : Host} {inst : BlockInstaller} {dir dir' : Blocks}
  {m m' : ManifestInfo} {binary binary' : List UInt8} {name path file stem : Text} {now : UInt64}
  {block : InstalledBlock}

def withBackup (dir : Blocks) (block : InstalledBlock) : Blocks :=
  let sidecar := withExtension block.path "json".toList
  (dir.insert (block.path ++ bak) ((dir.lookup block.path).getD [])).insert (sidecar ++ bak)
    ((dir.lookup sidecar).getD [])

def without (dir : Blocks) (stem : Text) : Blocks :=
  (dir.erase (filePath stem .binary)).erase (filePath stem .sidecar)

theorem lookup_without : (without dir stem).lookup path =
    if path = filePath stem .sidecar ∨ path = filePath stem .binary then none
    else dir.lookup path := by
  rw [without,lookup_erase_if,lookup_erase_if]
  split_ifs with h₁ h₂ h₃ <;> simp_all

theorem filePath_binary_bak :
    filePath stem .binary ++ bak = filePath stem .binaryBackup := List.append_assoc ..

theorem filePath_sidecar_bak :
    filePath stem .sidecar ++ bak = filePath stem .sidecarBackup := List.append_assoc ..

theorem lookup_withBackup (hholds : Holds host dir m binary) :
    (withBackup dir (entry host m binary)).lookup path =
      if path = filePath m.stem .sidecarBackup then dir.lookup (filePath m.stem .sidecar)
      else if path = filePath m.stem .binaryBackup then dir.lookup (filePath m.stem .binary)
      else dir.lookup path := by
  obtain ⟨-,hbinary,now,hsidecar⟩ := hholds
  have hpath : (entry host m binary).path = filePath m.stem .binary := rfl
  unfold withBackup
  dsimp only
  rw [hpath,withExtension_binary (stem_ne_nil m),filePath_binary_bak,filePath_sidecar_bak,
    hbinary,hsidecar,lookup_insert_if,lookup_insert_if]
  rfl

theorem Shelf.of_lookup (h : Shelf host dir)
    (hkinds : ∀ path ∈ dir', path ∈ dir ∨ ∃ m kind, Named m ∧ path = filePath m.stem kind)
    (hpairs : ∀ m : ManifestInfo, dir'.lookup (filePath m.stem .binary) = none ∨
      ∀ kind, kind.live = true →
        dir'.lookup (filePath m.stem kind) = dir.lookup (filePath m.stem kind)) :
    Shelf host dir' where
  kinds path hpath := (hkinds path hpath).elim (h.kinds path) id
  complete m binary hname hlookup := by
    rcases hpairs m with hnone | hsame
    · rw [hnone] at hlookup
      cases hlookup
    · rw [hsame .binary rfl] at hlookup
      obtain ⟨m',hstem,hnamed,hbinary,now,hsidecar⟩ := h.complete m binary hname hlookup
      rw [hstem,← hsame _ rfl] at hbinary
      rw [hstem,← hsame _ rfl] at hsidecar
      exact ⟨m',hstem,hnamed,by rwa [hstem],now,by rwa [hstem]⟩

theorem holds_congr (hsame : ∀ kind, kind.live = true →
    dir'.lookup (filePath m.stem kind) = dir.lookup (filePath m.stem kind)) :
    Holds host dir' m binary ↔ Holds host dir m binary := by
  constructor
  · rintro ⟨hnamed,hbinary,now,hsidecar⟩
    exact ⟨hnamed,(hsame _ rfl).symm.trans hbinary,now,(hsame _ rfl).symm.trans hsidecar⟩
  · rintro ⟨hnamed,hbinary,now,hsidecar⟩
    exact ⟨hnamed,(hsame _ rfl).trans hbinary,now,(hsame _ rfl).trans hsidecar⟩

theorem holds_without :
    Holds host (without dir stem) m binary ↔ m.stem ≠ stem ∧ Holds host dir m binary := by
  by_cases hstem : m.stem = stem
  · constructor
    · rintro ⟨-,hbinary,-⟩
      simp [lookup_without,hstem] at hbinary
    · rintro ⟨hne,-⟩
      exact absurd hstem hne
  · have hsame : Holds host (without dir stem) m binary ↔ Holds host dir m binary := by
      apply holds_congr
      simp [lookup_without,filePath_inj,hstem]
    rw [hsame]
    simp [hstem]

theorem Shelf.without (h : Shelf host dir) (stem : Text) : Shelf host (without dir stem) := by
  apply h.of_lookup
  · intro path hpath
    rw [mem_iff_lookup_ne_none,lookup_without] at hpath
    split_ifs at hpath
    · exact absurd rfl hpath
    · exact .inl (mem_iff_lookup_ne_none.mpr hpath)
  · intro m
    by_cases hstem : m.stem = stem
    · simp [lookup_without,hstem]
    · simp [lookup_without,filePath_inj,hstem]

theorem lookup_withBackup_of_live (hholds : Holds host dir m binary) (hkind : kind.live = true) :
    (withBackup dir (entry host m binary)).lookup (filePath stem kind) =
      dir.lookup (filePath stem kind) := by
  cases kind <;> simp_all [FileKind.live,lookup_withBackup hholds,filePath_inj]

theorem Shelf.withBackup (h : Shelf host dir) (hholds : Holds host dir m binary) :
    Shelf host (withBackup dir (entry host m binary)) := by
  apply h.of_lookup
  · intro path hpath
    rw [mem_iff_lookup_ne_none,lookup_withBackup hholds] at hpath
    split_ifs at hpath with hsidecar hbinary
    · exact .inr ⟨m,_,hholds.named,hsidecar⟩
    · exact .inr ⟨m,_,hholds.named,hbinary⟩
    · exact .inl (mem_iff_lookup_ne_none.mpr hpath)
  · intro m'
    exact .inr fun kind hkind => lookup_withBackup_of_live hholds hkind

theorem backup_succeeds (hlaw : host.Lawful) (h : Shelf host dir)
    (hfound : findInstalled host dir name = some block) :
    backup host dir name .succeeds = (withBackup dir block,.ok block) := by
  obtain ⟨m,binary,hholds,-,rfl,-⟩ := (h.findInstalled_iff hlaw).mp hfound
  obtain ⟨now,hsidecar⟩ := hholds.sidecar_eq
  have hpath : withExtension (entry host m binary).path "json".toList = filePath m.stem .sidecar :=
    withExtension_binary (stem_ne_nil m)
  have hne : filePath m.stem .sidecar ≠ (entry host m binary).path ++ bak := by
    rw [show (entry host m binary).path ++ bak = filePath m.stem .binaryBackup from
      filePath_binary_bak,Ne,filePath_inj]
    simp
  unfold backup
  rw [hfound]
  simp only [writeFile,BackupIo.succeeds]
  rw [hpath,lookup_insert_of_ne _ hne,hsidecar,withBackup,hpath,hsidecar]
  rfl

theorem Shelf.backup (hlaw : host.Lawful) (h : Shelf host dir) (name : Text) :
    Shelf host (backup host dir name .succeeds).1 := by
  cases hfound : findInstalled host dir name with
  | none =>
    unfold BlockInstaller.backup
    rw [hfound]
    exact h
  | some block =>
    rw [backup_succeeds hlaw h hfound]
    obtain ⟨m,binary,hholds,-,rfl,-⟩ := (h.findInstalled_iff hlaw).mp hfound
    exact h.withBackup hholds

/-! ### Which backup is taken -/

theorem newestBackup_eq_some_iff : newestBackup dir name = some file ↔
    file ∈ dir ∧ isBackupOf name file = true ∧
      ∀ other ∈ dir, isBackupOf name other = true → other ≤ file := by
  rw [newestBackup,getLast?_eq_some_iff_of_ascending (dir.pairwise_sortedKeys.filter _)]
  simp only [List.mem_filter,mem_sortedKeys,and_imp,and_assoc]

theorem newestBackup_congr (h : ∀ path, isBackupOf name path = true → (path ∈ dir' ↔ path ∈ dir)) :
    newestBackup dir' name = newestBackup dir name := by
  apply Option.ext
  intro file
  rw [newestBackup_eq_some_iff,newestBackup_eq_some_iff]
  constructor
  · rintro ⟨hmem,hbackup,hlast⟩
    exact ⟨(h file hbackup).mp hmem,hbackup,fun other hother hback =>
      hlast other ((h other hback).mpr hother) hback⟩
  · rintro ⟨hmem,hbackup,hlast⟩
    exact ⟨(h file hbackup).mpr hmem,hbackup,fun other hother hback =>
      hlast other ((h other hback).mp hother) hback⟩

theorem not_isBackupOf_live (hkind : kind.live = true) :
    isBackupOf name (filePath m.stem kind) = false := by
  cases kind <;> simp_all [FileKind.live,isBackupOf,extension_filePath (stem_ne_nil m)]

theorem Shelf.newestBackup (h : Shelf host dir) (hfile : newestBackup dir name = some file) :
    ∃ (m : ManifestInfo) (kind : FileKind), kind.live = false ∧ file = filePath m.stem kind := by
  obtain ⟨hmem,hbackup,-⟩ := newestBackup_eq_some_iff.mp hfile
  obtain ⟨m,kind,-,rfl⟩ := h.kinds file hmem
  refine ⟨m,kind,Bool.eq_false_iff.mpr fun hlive => ?_,rfl⟩
  simp [not_isBackupOf_live hlive] at hbackup

/-- The version that the name of a backup tells: what `parse_name_version` reads from the name of
the file that was copied, without the ending `.bin.wasm` if it has that. -/
def Tells (file version : Text) : Prop :=
  ∃ copied, file = copied ++ bak ∧
    version = (parseNameVersion ((stripSuffix ".bin.wasm".toList copied).getD copied)).2

theorem stripSuffix_append (s suffix : Text) : stripSuffix suffix (s ++ suffix) = some s := by
  simp [stripSuffix]

theorem stripSuffix_other {s suffix ext tail : Text} (htail : tail <:+ suffix)
    (hlen : tail.length ≤ ext.length) (hother : ¬ tail <:+ ext) :
    stripSuffix suffix (s ++ ext) = none := by
  refine if_neg fun h => hother ?_
  exact List.suffix_of_suffix_length_le (htail.trans h) (List.suffix_append s ext) hlen

theorem tells_iff (m : ManifestInfo) (hkind : kind.live = false) {version : Text} :
    Tells (filePath m.stem kind) version ↔ version = backupVersion (filePath m.stem kind) := by
  have hcopied (copied : Text) (hne : copied ≠ []) (hclean : (stripSuffix ".bin".toList
      ((stripSuffix wasm copied).getD copied)).getD copied =
        (stripSuffix ".bin.wasm".toList copied).getD copied) :
      Tells (copied ++ bak) version ↔ version = backupVersion (copied ++ bak) := by
    have hstem : fileStem (copied ++ bak) = some copied :=
      fileStem_dot hne (by decide) (by decide)
    unfold Tells backupVersion
    dsimp only
    rw [hstem,Option.getD_some,hclean]
    simp
  cases kind with
  | binary | sidecar => cases hkind
  | binaryBackup =>
    rw [filePath,FileKind.suffix,← List.append_assoc]
    refine hcopied _ (by simp [stem_ne_nil m]) ?_
    rw [stripSuffix_append,Option.getD_some]
    by_cases hbin : ".bin".toList <:+ m.stem
    · obtain ⟨front,hfront⟩ := hbin
      have happ : m.stem ++ wasm = front ++ ".bin.wasm".toList := by
        rw [← hfront,List.append_assoc]
        rfl
      rw [happ,stripSuffix_append,← hfront,stripSuffix_append]
    · have hlong : ¬ ".bin.wasm".toList <:+ m.stem ++ wasm := by
        rintro ⟨front,hfront⟩
        refine hbin ⟨front,(List.append_left_inj wasm).mp ?_⟩
        rw [← hfront,List.append_assoc]
        rfl
      rw [stripSuffix,if_neg hbin,stripSuffix,if_neg hlong]
  | sidecarBackup =>
    rw [filePath,FileKind.suffix,← List.append_assoc]
    have hother {suffix : Text} (tail : Text) (htail : tail <:+ suffix)
        (hlen : tail.length ≤ 5) (hjson : ¬ tail <:+ json) :
        stripSuffix suffix (m.stem ++ json) = none := stripSuffix_other htail hlen hjson
    refine hcopied _ (by simp [stem_ne_nil m]) ?_
    rw [hother wasm (by decide) (by decide) (by decide),Option.getD_none,
      hother ".bin".toList (by decide) (by decide) (by decide),
      hother wasm (by decide) (by decide) (by decide)]

/-- The last backup and the version that its name tells are those that `rollback` takes. -/
theorem Shelf.lastBackup_iff (h : Shelf host dir)
    (hfile : BlockInstaller.newestBackup dir name = some file)
    {P : Text → Text → Prop} :
    (∃ last ∈ dir, isBackupOf name last = true ∧
      (∀ other ∈ dir, isBackupOf name other = true → other ≤ last) ∧
      ∃ version, Tells last version ∧ P last version) ↔ P file (backupVersion file) := by
  obtain ⟨m,kind,hkind,hpath⟩ := h.newestBackup hfile
  have htells {version : Text} : Tells file version ↔ version = backupVersion file := by
    rw [hpath]
    exact tells_iff m hkind
  constructor
  · rintro ⟨last,hmem,hbackup,hlast,version,htold,hP⟩
    obtain rfl : last = file :=
      Option.some.inj ((newestBackup_eq_some_iff.mpr ⟨hmem,hbackup,hlast⟩).symm.trans hfile)
    obtain rfl := htells.mp htold
    exact hP
  · intro hP
    obtain ⟨hmem,hbackup,hlast⟩ := newestBackup_eq_some_iff.mp hfile
    exact ⟨file,hmem,hbackup,hlast,_,htells.mpr rfl,hP⟩

theorem bak_ne_filePath (hkind : kind.live = false) (kind' : FileKind) :
    filePath m.stem kind ++ bak ≠ filePath m'.stem kind' := by
  intro h
  have hnonempty : filePath m.stem kind ≠ [] := by simp [filePath,stem_ne_nil m]
  have hext : extension (filePath m.stem kind ++ bak) = some "bak".toList :=
    extension_dot hnonempty (by decide) (by decide)
  cases kind' with
  | binary | sidecar =>
    rw [h,extension_filePath (stem_ne_nil m')] at hext
    exact absurd hext (by decide)
  | binaryBackup | sidecarBackup =>
    simp only [← filePath_binary_bak,← filePath_sidecar_bak,List.append_cancel_right_eq,
      filePath_inj] at h
    rw [h.2] at hkind
    cases hkind

/-! ### The rollback -/

def restoredFrom (host : Host) (dir : Blocks) (name file : Text) (data : List UInt8)
    (now : UInt64) : Blocks :=
  ((withBlock host dir (rollbackManifest host name file data) data now).erase file).erase
    (file ++ bak)

theorem rollback_of_none (hfile : newestBackup dir name = none) (io : RollbackIo) :
    (inst.rollback host dir name io).1 = dir := by
  unfold rollback
  rw [hfile]

/-- The files without those of the version that is found. -/
def withoutCurrent (host : Host) (dir : Blocks) (name : Text) : Blocks :=
  match findInstalled host dir name with
  | none => dir
  | some current => (dir.erase current.path).erase (withExtension current.path "json".toList)

theorem rollback_succeeds {data : List UInt8} (hfile : newestBackup dir name = some file)
    (hcurrent : withoutCurrent host dir name = dir') (hdata : dir'.lookup file = some data)
    (now : UInt64) : (inst.rollback host dir name (.succeeds now)).1 =
      if Named (rollbackManifest host name file data) then restoredFrom host dir' name file data now
      else dir' := by
  have hhash : ¬ HashMismatch host (rollbackManifest host name file data) data := fun h => h.2 rfl
  unfold rollback
  simp only [hfile,removeFile,RollbackIo.succeeds,if_true]
  rw [withoutCurrent] at hcurrent
  rw [hcurrent,hdata]
  dsimp only
  split_ifs with hname
  · rw [installVerified_succeeds hname hhash]
    rfl
  · have herror : ∃ e, inst.installVerified host dir' (rollbackManifest host name file data) data
        (.succeeds now) = (dir',.error e) := installVerified_unnamed hname rfl
    obtain ⟨e,he⟩ := herror
    rw [he]

theorem erase_entry : (dir.erase (entry host m binary).path).erase
      (withExtension (entry host m binary).path "json".toList) = without dir m.stem := by
  rw [show withExtension (entry host m binary).path "json".toList = filePath m.stem .sidecar from
    withExtension_binary (stem_ne_nil m)]
  rfl

section
variable {data : List UInt8} {kind : FileKind}

theorem lookup_restoredFrom (hkind : kind.live = false)
    (hfile : file = filePath m.stem kind) (m' : ManifestInfo) (kind' : FileKind) :
    (restoredFrom host dir name file data now).lookup (filePath m'.stem kind') =
      if filePath m'.stem kind' = file then none
      else (withBlock host dir (rollbackManifest host name file data) data now).lookup
        (filePath m'.stem kind') := by
  have htwin : filePath m'.stem kind' ≠ file ++ bak := by
    rw [hfile]
    exact (bak_ne_filePath hkind kind').symm
  rw [restoredFrom,lookup_erase_ne htwin,lookup_erase_if]

theorem lookup_restoredFrom_of_live (hkind : kind.live = false)
    (hfile : file = filePath m.stem kind) {kind' : FileKind}
    (hkind' : kind'.live = true) :
    (restoredFrom host dir name file data now).lookup (filePath m'.stem kind') =
      (withBlock host dir (rollbackManifest host name file data) data now).lookup
        (filePath m'.stem kind') := by
  rw [lookup_restoredFrom hkind hfile,if_neg]
  rw [hfile,filePath_inj]
  rintro ⟨-,rfl⟩
  rw [hkind] at hkind'
  cases hkind'

theorem Shelf.restoredFrom (hlaw : host.Lawful) (h : Shelf host dir)
    (hkind : kind.live = false) (hfile : file = filePath m.stem kind)
    (hname : Named (rollbackManifest host name file data)) :
    Shelf host (restoredFrom host dir name file data now) := by
  have hwritten : Shelf host
      (BlockInstaller.withBlock host dir (rollbackManifest host name file data) data now) :=
    h.withBlock hlaw hname
  apply hwritten.of_lookup
  · intro path hpath
    rw [BlockInstaller.restoredFrom,mem_erase,mem_erase] at hpath
    exact .inl hpath.2.2
  · intro m'
    exact .inr fun kind' hkind' => lookup_restoredFrom_of_live hkind hfile hkind'

end

theorem Shelf.remove_current (hlaw : host.Lawful) (h : Shelf host dir) (name : Text) :
    Shelf host (withoutCurrent host dir name) ∧ ∀ (m : ManifestInfo) kind, kind.live = false →
      (withoutCurrent host dir name).lookup (filePath m.stem kind) =
        dir.lookup (filePath m.stem kind) := by
  unfold withoutCurrent
  cases hfound : findInstalled host dir name with
  | none => exact ⟨h,fun _ _ _ => rfl⟩
  | some current =>
    obtain ⟨m,binary,-,-,rfl,-⟩ := (h.findInstalled_iff hlaw).mp hfound
    dsimp only
    rw [erase_entry]
    refine ⟨h.without m.stem,fun m' kind hkind => ?_⟩
    cases kind <;> simp_all [FileKind.live,lookup_without,filePath_inj]

theorem Shelf.rollback (hlaw : host.Lawful) (h : Shelf host dir) (inst : BlockInstaller)
    (name : Text) (now : UInt64) : Shelf host (inst.rollback host dir name (.succeeds now)).1 := by
  cases hfile : BlockInstaller.newestBackup dir name with
  | none =>
    rw [rollback_of_none hfile]
    exact h
  | some file =>
    obtain ⟨m,kind,hkind,hpath⟩ := h.newestBackup hfile
    obtain ⟨hshelf,hkept⟩ := h.remove_current hlaw name
    have hmem := (newestBackup_eq_some_iff.mp hfile).1
    obtain ⟨data,hdata⟩ := Option.ne_none_iff_exists'.mp (mem_iff_lookup_ne_none.mp hmem)
    rw [hpath,← hkept m kind hkind,← hpath] at hdata
    rw [rollback_succeeds hfile rfl hdata]
    split_ifs with hname
    · exact hshelf.restoredFrom hlaw hkind hpath hname
    · exact hshelf

theorem Reached.shelf (hlaw : host.Lawful) (h : Reached ed host dir) : Shelf host dir := by
  induction h with
  | empty => exact shelf_empty
  | install h inst m binary now ih => exact ih.installFromBytes hlaw
  | backup h name ih => exact ih.backup hlaw name
  | rollback h inst name now ih => exact ih.rollback hlaw inst name now

end BlockInstaller
end Aios.Store
