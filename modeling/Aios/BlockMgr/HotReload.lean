import Aios.BlockMgr.Registry
import Aios.Lib.TextCodec
import Aios.Lib.Transition

/-!
The hot reloader: every scan loads what is new or has changed in the watch directory. A tracked file
that is gone is forgotten, but its block stays in the registry.
-/
namespace Aios.BlockMgr

open Aios.Core TextCodec Transition List Finmap

namespace BlockLoader

/-- `hex::encode` -/
def hexText (d : Digest) : String := String.ofList (chars (encodeHex d.1))

variable (computeSha256Bytes : List UInt8 → Digest)

def validateBinary (binary : List UInt8) (expectedSha256 : Digest) : Except AIOSException Unit :=
  let actual := computeSha256Bytes binary
  if actual = expectedSha256 then .ok ()
  else .error (.invalidSignature (hexText expectedSha256) (hexText actual))

def loadFromBinary (registry : BlockRegistry) (name version : String) (binary : List UInt8) :
    BlockRegistry × Except AIOSException BlockManifest :=
  let r := registry.registerBlock computeSha256Bytes name version binary
  match r.1.get r.2 with
  | .error err => (r.1,.error err)
  | .ok entry =>
    match validateBinary computeSha256Bytes binary entry.manifest.sha256 with
    | .error err => (r.1,.error err)
    | .ok () =>
      match r.1.activateBlock r.2 with
      | .error err => (r.1,.error err)
      | .ok registry =>
        match registry.get r.2 with
        | .error err => (registry,.error err)
        | .ok entry => (registry,.ok entry.manifest)

def loadedEntry (id : BlockId) (name version : String) (binary : List UInt8) : BlockEntry :=
  ⟨⟨id,name,version,computeSha256Bytes binary⟩,.active,binary⟩

/-- No check can fail: the block was registered just before. -/
theorem loadFromBinary_eq (registry : BlockRegistry) (name version : String) (binary : List UInt8) :
    let entry := loadedEntry computeSha256Bytes registry.nextId name version binary
    loadFromBinary computeSha256Bytes registry name version binary = ({ registry with
         blocks := registry.blocks.insert registry.nextId entry
         nextId := registry.nextId+1 },.ok entry.manifest) := by
  simp [loadFromBinary,BlockRegistry.registerBlock,BlockRegistry.get,loadedEntry,
    BlockRegistry.activateBlock,validateBinary]

end BlockLoader

/-- The name of a file in the watch directory, in the bytes of the system. -/
abbrev FileName := List UInt8

/-- The parts of a name before and after its last dot. -/
def splitAtDot (name : FileName) : Option (List UInt8) × Option (List UInt8) :=
  if name = [46,46] then (some name,none)
  else if 46 ∈ name then
    let after := (name.reverse.takeWhile (· ≠ 46)).reverse
    let before := name.take (name.length-after.length-1)
    if before = [] then (some name,none) else (some before,some after)
  else (none,some name)

def extension (name : FileName) : Option (List UInt8) :=
  (splitAtDot name).1.bind fun _ => (splitAtDot name).2

def fileStem (name : FileName) : Option (List UInt8) :=
  (splitAtDot name).1.orElse fun _ => (splitAtDot name).2

def stemText (name : FileName) : Option String :=
  (fileStem name).bind fun stem => String.fromUTF8? stem.toByteArray

/-- The extension is `bin` or `aib`. -/
def Loadable (name : FileName) : Prop :=
  extension name = some [98,105,110] ∨ extension name = some [97,105,98]

instance (name : FileName) : Decidable (Loadable name) := inferInstanceAs (Decidable (_ ∨ _))

def extractVersionFromPath (name : FileName) : String :=
  match stemText name with
  | none => "1.0.0"
  | some stem =>
    let parts := stem.splitOn "_"
    if 1 < parts.length then parts.getLastD "" else "1.0.0"

structure DirFile where
  content : List UInt8
  modified : ℕ
  deriving DecidableEq

abbrev Directory := Finmap fun _ : FileName => DirFile

/-- What a scan meets: the watch directory, if any, and its listing, from which entries that cannot
be read are missing, or all of them; the order of the tracked files; the other failures of the
system. -/
structure Scan where
  directory : Option Directory
  listing : List FileName
  lists : listing.Nodup ∧ ∀ name ∈ listing, name ∈ directory.getD ∅
  order : List FileName
  createError : Option String
  metadataError : FileName → Option String
  readError : FileName → Option String

namespace Scan

def files (scan : Scan) : Directory := scan.directory.getD ∅

def file (scan : Scan) (failure : Option String) (name : FileName) : Except String DirFile :=
  match failure with
  | some err => .error err
  | none =>
    match scan.files.lookup name with
    | none => .error "No such file or directory (os error 2)"
    | some file => .ok file

def metadata (scan : Scan) (name : FileName) : Except String ℕ :=
  (scan.file (scan.metadataError name) name).map DirFile.modified

def read (scan : Scan) (name : FileName) : Except String (List UInt8) :=
  (scan.file (scan.readError name) name).map DirFile.content

def scanDirectory (scan : Scan) : List FileName := scan.listing.filter fun name => Loadable name

end Scan

structure TrackedFile where
  modified : ℕ
  sha256 : Digest
  loadedId : Option BlockId
  deriving DecidableEq

/-- The path of an error is none for the watch directory itself. -/
inductive ReloadEvent where
  | newBlock (path : FileName) (blockId : BlockId)
  | updatedBlock (path : FileName) (blockId : BlockId)
  | removedBlock (path : FileName) (blockId : BlockId)
  | error (path : Option FileName) (error : String)
  | noChange
  deriving DecidableEq

def ReloadEvent.isError : ReloadEvent → Bool
  | .error _ _ => true
  | _ => false

abbrev Tracked := Finmap fun _ : FileName => TrackedFile

structure HotReloader where
  tracked : Tracked
  eventLog : List ReloadEvent

structure Reload where
  reloader : HotReloader
  registry : BlockRegistry
  events : List ReloadEvent

namespace Reload

def tracked (p : Reload) : Tracked := p.reloader.tracked

def push (p : Reload) (event : ReloadEvent) : Reload :=
  { p with
    reloader := { p.reloader with eventLog := p.reloader.eventLog ++ [event] }
    events := p.events ++ [event] }

def track (p : Reload) (name : FileName) (file : TrackedFile) : Reload :=
  { p with reloader := { p.reloader with tracked := p.reloader.tracked.insert name file } }

/-- The first loops: the tracked files that are not among the current ones are reported, and
then forgotten. -/
def forget (p : Reload) (order current : List FileName) : Reload :=
  let gone := order.filter fun name => name ∈ p.tracked ∧ name ∉ current
  let reported := gone.foldl (fun q name =>
    match (p.tracked.lookup name).bind TrackedFile.loadedId with
    | none => q
    | some blockId => q.push (.removedBlock name blockId)) p
  { reported with
    reloader := { reported.reloader with
      tracked := gone.foldl (fun tracked name => tracked.erase name) reported.reloader.tracked } }

variable (computeSha256Bytes : List UInt8 → Digest)

def load (p : Reload) (name : FileName) (binary : List UInt8) (modified : ℕ)
    (event : BlockId → ReloadEvent) : Reload :=
  let r := BlockLoader.loadFromBinary computeSha256Bytes p.registry
    ((stemText name).getD "unknown") (extractVersionFromPath name) binary
  let p := { p with registry := r.1 }
  match r.2 with
  | .error err => p.push (.error (some name) err.display)
  | .ok manifest =>
    (p.push (event manifest.id)).track name ⟨modified,computeSha256Bytes binary,some manifest.id⟩

def unload (p : Reload) (file : TrackedFile) : Reload :=
  match file.loadedId with
  | none => p
  | some oldId => { p with registry := (p.registry.unloadBlock oldId).1 }

/-- The body of the loop over the current files. -/
def reloadFile (scan : Scan) (p : Reload) (name : FileName) : Reload :=
  match scan.metadata name with
  | .error err => p.push (.error (some name) err)
  | .ok modified =>
    if (p.tracked.lookup name).elim false fun file => modified ≤ file.modified then p
    else
      match scan.read name with
      | .error err => p.push (.error (some name) err)
      | .ok binary =>
        match p.tracked.lookup name with
        | some file =>
          if file.sha256 = computeSha256Bytes binary then p
          else (p.unload file).load computeSha256Bytes name binary modified (.updatedBlock name)
        | none => p.load computeSha256Bytes name binary modified (.newBlock name)

end Reload

def HotReloader.scanAndReload (computeSha256Bytes : List UInt8 → Digest) (h : HotReloader)
    (registry : BlockRegistry) (scan : Scan) : Reload :=
  match scan.directory with
  | none =>
    match scan.createError with
    | none => ⟨h,registry,[]⟩
    | some err => (Reload.mk h registry []).push (.error none err)
  | some _ =>
    let current := scan.scanDirectory
    let p := current.foldl (Reload.reloadFile computeSha256Bytes scan)
      ((Reload.mk h registry []).forget scan.order current)
    if p.events = [] then { p with events := [.noChange] } else p

section

def LoadedAs (tracked : Tracked) (name : FileName) (id : BlockId) : Prop :=
  ∃ file, tracked.lookup name = some file ∧ file.loadedId = some id

/-- Tracked files and registered blocks correspond, and a block has a content that its file had at
the tracked modification time. -/
structure Synced (computeSha256Bytes : List UInt8 → Digest) (seen : FileName → DirFile → Prop)
    (tracked : Tracked) (registry : BlockRegistry) : Prop where
  loadable : ∀ name ∈ tracked, Loadable name
  loaded : ∀ name file, tracked.lookup name = some file →
    ∃ id entry, file.loadedId = some id ∧ registry.blocks.lookup id = some entry ∧
      entry.state = .active ∧ file.sha256 = computeSha256Bytes entry.binary ∧
      seen name ⟨entry.binary,file.modified⟩
  unique : ∀ name name' id, LoadedAs tracked name id → LoadedAs tracked name' id → name = name'
  owned : ∀ id ∈ registry.blocks, ∃ name, LoadedAs tracked name id
  fresh : ∀ id ∈ registry.blocks, id.toNat < registry.nextId.toNat

variable {sha : List UInt8 → Digest} {seen : FileName → DirFile → Prop} {tracked : Tracked}
  {registry : BlockRegistry} {name name' : FileName} {id oldId : BlockId} {entry : BlockEntry}

theorem synced_empty : Synced sha seen ∅ .new where
  loadable name h := absurd h notMem_empty
  loaded name file h := by simp at h
  unique name name' id h := by simp [LoadedAs] at h
  owned id h := absurd h notMem_empty
  fresh id h := absurd h notMem_empty

theorem Synced.mono {seen' : FileName → DirFile → Prop} (h : Synced sha seen tracked registry)
    (hseen : ∀ name file, seen name file → seen' name file) :
    Synced sha seen' tracked registry :=
  { h with
    loaded name file hfile := by
      obtain ⟨id,entry,hid,hentry,hactive,hhash,hold⟩ := h.loaded name file hfile
      exact ⟨id,entry,hid,hentry,hactive,hhash,hseen _ _ hold⟩ }

theorem Synced.mem_of_loadedAs (h : Synced sha seen tracked registry)
    (hid : LoadedAs tracked name id) : id ∈ registry.blocks := by
  obtain ⟨file,hfile,hid⟩ := hid
  obtain ⟨id',entry,hid',hentry,-⟩ := h.loaded name file hfile
  cases hid.symm.trans hid'
  exact mem_of_lookup_eq_some hentry

/-- The registry without the block of a file that is about to be loaded again. -/
def unloaded (tracked : Tracked) (registry : BlockRegistry) (name : FileName) : BlockRegistry :=
  match (tracked.lookup name).bind TrackedFile.loadedId with
  | none => registry
  | some oldId => (registry.unloadBlock oldId).1

theorem lookup_unloadBlock : (registry.unloadBlock oldId).1.blocks.lookup id =
      if id = oldId then none else registry.blocks.lookup id := by
  unfold BlockRegistry.unloadBlock
  split
  · next hnone =>
    split
    · next heq => rw [heq,hnone]
    · rfl
  · exact lookup_erase_if _ _ _

theorem unloadBlock_nextId : (registry.unloadBlock oldId).1.nextId = registry.nextId := by
  unfold BlockRegistry.unloadBlock
  split <;> rfl

theorem lookup_unloaded (name : FileName) (id : BlockId) [Decidable (LoadedAs tracked name id)] :
    (unloaded tracked registry name).blocks.lookup id =
      if LoadedAs tracked name id then none else registry.blocks.lookup id := by
  have hiff : LoadedAs tracked name id ↔
      (tracked.lookup name).bind TrackedFile.loadedId = some id := Option.bind_eq_some_iff.symm
  unfold unloaded
  cases hold : (tracked.lookup name).bind TrackedFile.loadedId with
  | none => simp [hiff,hold]
  | some oldId =>
    rw [lookup_unloadBlock]
    simp [hiff,hold,eq_comm]

/-- The registry after the file with the given name was loaded. -/
def reloaded (tracked : Tracked) (registry : BlockRegistry) (name : FileName)
    (entry : BlockEntry) : BlockRegistry :=
  { unloaded tracked registry name with
    blocks := (unloaded tracked registry name).blocks.insert registry.nextId entry
    nextId := registry.nextId+1 }

theorem lookup_reloaded (tracked : Tracked) (registry : BlockRegistry) (name : FileName)
    (entry : BlockEntry) (id : BlockId) [Decidable (LoadedAs tracked name id)] :
    (reloaded tracked registry name entry).blocks.lookup id =
      if id = registry.nextId then some entry
      else if LoadedAs tracked name id then none else registry.blocks.lookup id := by
  rw [reloaded,lookup_insert_if,lookup_unloaded]

theorem loadedAs_insert_iff {file : TrackedFile} : LoadedAs (tracked.insert name file) name' id ↔
      if name' = name then file.loadedId = some id else LoadedAs tracked name' id := by
  unfold LoadedAs
  rw [lookup_insert_if]
  split <;> simp

theorem Synced.not_loadedAs_nextId (h : Synced sha seen tracked registry)
    (name : FileName) : ¬ LoadedAs tracked name registry.nextId :=
  fun hid => lt_irrefl _ (h.fresh _ (h.mem_of_loadedAs hid))

theorem mem_reloaded_iff : id ∈ (reloaded tracked registry name entry).blocks ↔
      id = registry.nextId ∨ ¬ LoadedAs tracked name id ∧ id ∈ registry.blocks := by
  classical
  rw [mem_iff_lookup_ne_none,lookup_reloaded,mem_iff_lookup_ne_none]
  by_cases hnew : id = registry.nextId <;> by_cases hold : LoadedAs tracked name id <;> simp [hnew]

theorem Synced.lookup_reloaded_of_ne (h : Synced sha seen tracked registry)
    (hne : name' ≠ name) (hid : LoadedAs tracked name' id) (entry : BlockEntry) :
    (reloaded tracked registry name entry).blocks.lookup id = registry.blocks.lookup id := by
  classical
  have hold : id ≠ registry.nextId := fun heq => h.not_loadedAs_nextId name' (heq ▸ hid)
  have hother : ¬ LoadedAs tracked name id := fun hname => hne (h.unique _ _ _ hid hname)
  rw [lookup_reloaded,if_neg hold,if_neg hother]

variable {file : DirFile}

theorem Synced.reload (h : Synced sha seen tracked registry) (hname : Loadable name)
    (hseen : seen name file) (hroom : registry.nextId.toNat+1 < 2^32)
    (hactive : entry.state = .active) (hbinary : entry.binary = file.content) :
    Synced sha seen (tracked.insert name ⟨file.modified,sha file.content,some registry.nextId⟩)
      (reloaded tracked registry name entry) := by
  refine ⟨?_,?_,?_,?_,?_⟩
  · intro name' hmem
    obtain rfl | hmem := mem_insert.mp hmem
    · exact hname
    · exact h.loadable name' hmem
  · intro name' file' hfile'
    rw [lookup_insert_if] at hfile'
    split at hfile'
    · next heq =>
      cases hfile'
      refine ⟨registry.nextId,entry,rfl,lookup_insert _,hactive,by rw [hbinary],?_⟩
      rw [heq,hbinary]
      exact hseen
    · next hne =>
      obtain ⟨id,entry',hid,hentry',hrest⟩ := h.loaded name' file' hfile'
      refine ⟨id,entry',hid,?_,hrest⟩
      rw [h.lookup_reloaded_of_ne hne ⟨file',hfile',hid⟩,hentry']
  · intro name₁ name₂ id h₁ h₂
    rw [loadedAs_insert_iff] at h₁ h₂
    split at h₁ <;> split at h₂
    · simp_all
    · cases h₁
      exact absurd h₂ (h.not_loadedAs_nextId _)
    · cases h₂
      exact absurd h₁ (h.not_loadedAs_nextId _)
    · exact h.unique _ _ _ h₁ h₂
  · intro id hmem
    obtain rfl | ⟨hother,hmem⟩ := mem_reloaded_iff.mp hmem
    · exact ⟨name,loadedAs_insert_iff.mpr (by simp)⟩
    · obtain ⟨name',hname'⟩ := h.owned id hmem
      have hne : name' ≠ name := by
        rintro rfl
        exact hother hname'
      exact ⟨name',loadedAs_insert_iff.mpr (by rwa [if_neg hne])⟩
  · have hnext : (registry.nextId+1).toNat = registry.nextId.toNat+1 := by
      exact Nat.mod_eq_of_lt hroom
    intro id hmem
    show id.toNat < (registry.nextId+1).toNat
    rw [hnext]
    obtain rfl | ⟨-,hmem⟩ := mem_reloaded_iff.mp hmem
    · exact Nat.lt_succ_self _
    · exact (h.fresh id hmem).trans (Nat.lt_succ_self _)

end

namespace Reload

variable (computeSha256Bytes : List UInt8 → Digest) (scan : Scan) (p : Reload) (name : FileName)

def loaded (file : DirFile) (event : ReloadEvent) : Reload :=
  (({ p with
      registry := reloaded p.tracked p.registry name (BlockLoader.loadedEntry computeSha256Bytes
        p.registry.nextId ((stemText name).getD "unknown") (extractVersionFromPath name)
        file.content) } : Reload).push event).track name
    ⟨file.modified,computeSha256Bytes file.content,some p.registry.nextId⟩

theorem reloadFile_cases :
    let p' := p.reloadFile computeSha256Bytes scan name
    (∃ err, p' = p.push (.error (some name) err)) ∨
      ∃ file, scan.files.lookup name = some file ∧
        ((p' = p ∧ ∃ t, p.tracked.lookup name = some t ∧
          (file.modified ≤ t.modified ∨ t.sha256 = computeSha256Bytes file.content)) ∨
        ∃ event, event.isError = false ∧ p' = p.loaded computeSha256Bytes name file event) := by
  unfold reloadFile Scan.metadata Scan.read Scan.file
  cases hmeta : scan.metadataError name with
  | some err => exact .inl ⟨err,rfl⟩
  | none =>
    cases hfile : scan.files.lookup name with
    | none => exact .inl ⟨_,rfl⟩
    | some file =>
      simp only [Except.map]
      cases htracked : p.tracked.lookup name with
      | none =>
        cases hread : scan.readError name with
        | some err => exact .inl ⟨err,by simp⟩
        | none =>
          refine .inr ⟨file,rfl,.inr ⟨.newBlock name p.registry.nextId,rfl,?_⟩⟩
          simp [load,BlockLoader.loadFromBinary_eq,BlockLoader.loadedEntry,loaded,reloaded,
            unloaded,htracked]
      | some t =>
        by_cases hnewer : file.modified ≤ t.modified
        · exact .inr ⟨file,rfl,.inl ⟨by simp [hnewer],t,rfl,.inl hnewer⟩⟩
        · cases hread : scan.readError name with
          | some err => exact .inl ⟨err,by simp [hnewer]⟩
          | none =>
            by_cases hhash : t.sha256 = computeSha256Bytes file.content
            · exact .inr ⟨file,rfl,.inl ⟨by simp [hhash],t,rfl,.inr hhash⟩⟩
            · refine .inr ⟨file,rfl,.inr ⟨.updatedBlock name p.registry.nextId,rfl,?_⟩⟩
              cases hid : t.loadedId with
              | none =>
                simp [hnewer,hhash,load,BlockLoader.loadFromBinary_eq,BlockLoader.loadedEntry,
                  loaded,reloaded,unloaded,htracked,unload,hid]
              | some oldId =>
                simp [hnewer,hhash,load,BlockLoader.loadFromBinary_eq,BlockLoader.loadedEntry,
                  loaded,reloaded,unloaded,htracked,unload,hid,unloadBlock_nextId]

/-- A file that is not as it was seen is newer in the scan, and its hash is another one. -/
def Follows (seen : FileName → DirFile → Prop) (scan : Scan) : Prop :=
  ∀ name file file', seen name file → scan.files.lookup name = some file' →
    file.content ≠ file'.content → file.modified < file'.modified ∧
      computeSha256Bytes file.content ≠ computeSha256Bytes file'.content

/-- The block of the file has the content of the file. -/
def Current (files : Directory) (p : Reload) (name : FileName) : Prop :=
  ∃ id entry file, LoadedAs p.tracked name id ∧ p.registry.blocks.lookup id = some entry ∧
    entry.state = .active ∧ files.lookup name = some file ∧ entry.binary = file.content

/-- The loop has come from `start` to `p` and has visited the files `done`. -/
structure Reached (seen : FileName → DirFile → Prop) (scan : Scan) (start : Reload)
    (done : List FileName) (p : Reload) : Prop where
  synced : Synced computeSha256Bytes seen p.tracked p.registry
  nextId : p.registry.nextId.toNat ≤ start.registry.nextId.toNat+done.length
  tracked : ∀ name ∈ p.tracked, name ∈ start.tracked ∨ name ∈ done
  current : (∀ e ∈ p.events, e.isError = false) → ∀ name ∈ done, Current scan.files p name

variable {sha : List UInt8 → Digest} {scan p name} {seen : FileName → DirFile → Prop}
  {start : Reload} {done : List FileName} {file : DirFile}

/-- A tracked file that is not newer, or has the hash of its block, has not changed. -/
theorem current_of_unchanged (h : Synced sha seen p.tracked p.registry)
    (hfollows : Follows sha seen scan) (hfile : scan.files.lookup name = some file)
    {t : TrackedFile} (ht : p.tracked.lookup name = some t)
    (hsame : file.modified ≤ t.modified ∨ t.sha256 = sha file.content) :
    Current scan.files p name := by
  obtain ⟨id,entry,hid,hentry,hactive,hhash,hseen⟩ := h.loaded name t ht
  refine ⟨id,entry,file,⟨t,ht,hid⟩,hentry,hactive,hfile,?_⟩
  by_contra hne
  obtain hold | hsame := hsame
  · have hlt := (hfollows _ _ _ hseen hfile hne).1
    simp only at hlt
    omega
  · exact (hfollows _ _ _ hseen hfile hne).2 (hhash.symm.trans hsame)

theorem Current.reloaded (h : Synced sha seen p.tracked p.registry)
    {name' : FileName} (hne : name' ≠ name) (hcurrent : Current scan.files p name')
    (file : DirFile) (event : ReloadEvent) :
    Current scan.files (p.loaded sha name file event) name' := by
  obtain ⟨id,entry,file',hid,hentry,hrest⟩ := hcurrent
  refine ⟨id,entry,file',loadedAs_insert_iff.mpr (by rwa [if_neg hne]),?_,hrest⟩
  exact (h.lookup_reloaded_of_ne hne hid _).trans hentry

section
variable (h : Reached sha seen scan start done p) (hfollows : Follows sha seen scan)
  (hseen : ∀ name file, scan.files.lookup name = some file → seen name file)
include h hfollows hseen

theorem Reached.reloadFile (hname : Loadable name) (hnew : name ∉ done)
    (hroom : start.registry.nextId.toNat+done.length+1 < 2^32) :
    Reached sha seen scan start (done ++ [name]) (p.reloadFile sha scan name) := by
  have hnext := h.nextId
  have hlength : (done ++ [name]).length = done.length+1 := by simp
  have hvisited : ∀ name' ∈ p.tracked, name' ∈ start.tracked ∨ name' ∈ done ++ [name] :=
    fun name' hmem => (h.tracked name' hmem).imp_right (mem_append_left _)
  obtain ⟨err,herr⟩ | ⟨file,hfile,⟨hsame,t,ht,hunchanged⟩ | ⟨event,hevent,hloaded⟩⟩ :=
    reloadFile_cases sha scan p name
  · rw [herr]
    refine ⟨h.synced,?_,hvisited,fun hnone => ?_⟩
    · show p.registry.nextId.toNat ≤ _
      omega
    · exact absurd (hnone (.error (some name) err) (mem_append_right _ (by simp)))
        (by simp [ReloadEvent.isError])
  · rw [hsame]
    refine ⟨h.synced,by omega,hvisited,fun hnone name' hmem => ?_⟩
    obtain hmem | hmem := mem_append.mp hmem
    · exact h.current hnone name' hmem
    · rw [mem_singleton.mp hmem]
      exact current_of_unchanged h.synced hfollows hfile ht hunchanged
  · rw [hloaded]
    refine ⟨?_,?_,?_,fun hnone name' hmem => ?_⟩
    · exact h.synced.reload hname (hseen name file hfile) (by omega) rfl rfl
    · exact (Nat.mod_le _ _).trans (by simp; omega)
    · intro name' hmem
      obtain rfl | hmem := mem_insert.mp hmem
      · exact .inr (by simp)
      · exact hvisited name' hmem
    · obtain hmem | hmem := mem_append.mp hmem
      · have hne : name' ≠ name := fun heq => hnew (heq ▸ hmem)
        refine Current.reloaded h.synced hne (h.current (fun e he => ?_) name' hmem) file event
        exact hnone e (mem_append_left _ he)
      · rw [mem_singleton.mp hmem]
        exact ⟨p.registry.nextId,_,file,loadedAs_insert_iff.mpr (by simp),lookup_insert _,
          rfl,hfile,rfl⟩

theorem Reached.foldl (names : List FileName) (hnames : ∀ name ∈ names, Loadable name)
    (hnodup : (done ++ names).Nodup)
    (hroom : start.registry.nextId.toNat+done.length+names.length < 2^32) :
    Reached sha seen scan start (done ++ names) (names.foldl (Reload.reloadFile sha scan) p) := by
  induction names generalizing done p with
  | nil => simpa using h
  | cons name names ih =>
    obtain ⟨hname,hnames⟩ := forall_mem_cons.mp hnames
    rw [length_cons] at hroom
    have hnew : name ∉ done := fun hmem => disjoint_of_nodup_append hnodup hmem mem_cons_self
    rw [append_cons] at hnodup ⊢
    have hnext := h.reloadFile hfollows hseen hname hnew (by omega)
    exact ih hnext hnames hnodup (by rw [length_append,length_singleton]; omega)

end

/-- The scans start with no file tracked and no block registered. -/
def init : Reload := ⟨⟨∅,[]⟩,.new,[]⟩

def step (computeSha256Bytes : List UInt8 → Digest) (p : Reload) (scan : Scan) : Option Reload :=
  some (p.reloader.scanAndReload computeSha256Bytes p.registry scan)

structure Calm (p : Reload) (scan : Scan) : Prop where
  noneGone : ∀ name ∈ p.tracked, name ∈ scan.files
  complete : ∀ name ∈ scan.files, Loadable name → name ∈ scan.listing
  room : p.registry.nextId.toNat+scan.listing.length < 2^32

def Clean (p : Reload) : Prop := ∀ e ∈ p.events, e.isError = false

instance (p : Reload) : Decidable p.Clean := inferInstanceAs (Decidable (∀ _ ∈ _, _))

end Reload

/-- The files with the right extension and the active blocks correspond, with equal contents, and
there is no other block. -/
def Mirrors (registry : BlockRegistry) (files : Directory) : Prop :=
  ∃ blockOf : FileName → BlockId,
    Set.BijOn blockOf {name | Loadable name ∧ name ∈ files} {id | id ∈ registry.blocks} ∧
      ∀ name file, Loadable name → files.lookup name = some file →
        ∃ entry, registry.blocks.lookup (blockOf name) = some entry ∧ entry.state = .active ∧
          entry.binary = file.content

section
open Reload
variable {sha : List UInt8 → Digest} {seen : FileName → DirFile → Prop}
  {p : Reload} {scan : Scan} {name : FileName}

theorem mirrors_of_current (h : Synced sha seen p.tracked p.registry)
    (htracked : ∀ name ∈ p.tracked, name ∈ scan.files)
    (hcurrent : ∀ name, Loadable name → name ∈ scan.files → Current scan.files p name) :
    Mirrors p.registry scan.files := by
  have hblock (name : FileName) (hname : Loadable name ∧ name ∈ scan.files) :
      ∃ id, LoadedAs p.tracked name id ∧ ∀ file, scan.files.lookup name = some file →
        ∃ entry, p.registry.blocks.lookup id = some entry ∧ entry.state = .active ∧
          entry.binary = file.content := by
    obtain ⟨id,entry,file,hid,hentry,hactive,hfile,hbinary⟩ := hcurrent name hname.1 hname.2
    refine ⟨id,hid,fun file' hfile' => ⟨entry,hentry,hactive,?_⟩⟩
    cases hfile.symm.trans hfile'
    exact hbinary
  choose! blockOf hloaded hentry using hblock
  refine ⟨blockOf,⟨?_,?_,?_⟩,fun name file hname hfile =>
    hentry name ⟨hname,mem_of_lookup_eq_some hfile⟩ file hfile⟩
  · exact fun name hname => h.mem_of_loadedAs (hloaded name hname)
  · intro name hname name' hname' heq
    exact h.unique _ _ _ (hloaded name hname) (heq ▸ hloaded name' hname')
  · intro id hid
    obtain ⟨name,file,hfile,hid⟩ := h.owned id hid
    have hmem : name ∈ p.tracked := mem_of_lookup_eq_some hfile
    have hname : Loadable name ∧ name ∈ scan.files := ⟨h.loadable name hmem,htracked name hmem⟩
    obtain ⟨file',hfile',hid'⟩ := hloaded name hname
    cases hfile.symm.trans hfile'
    exact ⟨name,hname,Option.some.inj (hid'.symm.trans hid)⟩

theorem Reload.Calm.mem_scanDirectory_iff (h : Calm p scan) :
    name ∈ scan.scanDirectory ↔ Loadable name ∧ name ∈ scan.files := by
  rw [Scan.scanDirectory,mem_filter,decide_eq_true_eq]
  exact ⟨fun hlisted => ⟨hlisted.2,scan.lists.2 name hlisted.1⟩,
    fun hfile => ⟨h.complete name hfile.2 hfile.1,hfile.1⟩⟩

theorem forget_eq_self {order current : List FileName}
    (h : ∀ name ∈ p.tracked, name ∈ current) : p.forget order current = p := by
  have hgone : (order.filter fun name => name ∈ p.tracked ∧ name ∉ current) = [] := by
    rw [filter_eq_nil_iff]
    intro name _ hname
    obtain ⟨hmem,hnot⟩ := of_decide_eq_true hname
    exact hnot (h name hmem)
  simp only [forget,hgone,foldl_nil]

theorem scanAndReload_spec (h : Synced sha seen p.tracked p.registry)
    (hfollows : Follows sha seen scan)
    (hseen : ∀ name file, scan.files.lookup name = some file → seen name file)
    (hcalm : Calm p scan) :
    let q := p.reloader.scanAndReload sha p.registry scan
    Synced sha seen q.tracked q.registry ∧
      (q.Clean → Mirrors q.registry scan.files) := by
  unfold HotReloader.scanAndReload
  cases hdir : scan.directory with
  | none =>
    have hempty : scan.files = ∅ := by rw [Scan.files,hdir,Option.getD_none]
    have hmirrors : Mirrors p.registry scan.files :=
      mirrors_of_current h hcalm.noneGone fun name _ hmem => by
        rw [hempty] at hmem
        exact absurd hmem notMem_empty
    cases scan.createError with
    | none | some => exact ⟨h,fun _ => hmirrors⟩
  | some files =>
    dsimp only
    have hcurrent : ∀ name ∈ p.tracked, name ∈ scan.scanDirectory := fun name hmem =>
      hcalm.mem_scanDirectory_iff.mpr ⟨h.loadable name hmem,hcalm.noneGone name hmem⟩
    rw [forget_eq_self (p := Reload.mk p.reloader p.registry []) hcurrent]
    have hstart : Reached sha seen scan ⟨p.reloader,p.registry,[]⟩ [] ⟨p.reloader,p.registry,[]⟩ :=
      ⟨h,le_rfl,fun name hmem => .inl hmem,fun _ name hmem => by cases hmem⟩
    have hlength : scan.scanDirectory.length ≤ scan.listing.length := length_filter_le _ _
    have hroom := hcalm.room
    have hdone := hstart.foldl hfollows hseen scan.scanDirectory
      (fun name hmem => (hcalm.mem_scanDirectory_iff.mp hmem).1) (scan.lists.1.filter _)
      (by simp only [length_nil]; omega)
    generalize scan.scanDirectory.foldl (reloadFile sha scan) _ = q at hdone ⊢
    have hmirrors (hclean : q.Clean) : Mirrors q.registry scan.files := by
      refine mirrors_of_current hdone.synced (fun name hmem => ?_) fun name hname hmem =>
        hdone.current hclean name (hcalm.mem_scanDirectory_iff.mpr ⟨hname,hmem⟩)
      obtain hmem | hmem := hdone.tracked name hmem
      · exact hcalm.noneGone name hmem
      · exact (hcalm.mem_scanDirectory_iff.mp hmem).2
    split
    · next hnone => exact ⟨hdone.synced,fun _ => hmirrors fun e he => by simp [hnone] at he⟩
    · exact ⟨hdone.synced,hmirrors⟩

/-- Every file whose content differs in a later scan is newer there. -/
def Scan.Older (scan later : Scan) : Prop :=
  ∀ name file file', scan.files.lookup name = some file → later.files.lookup name = some file' →
    file.content ≠ file'.content → file.modified < file'.modified

/-- Every file whose content differs in a later scan has another hash there. -/
def Scan.HashDiffers (computeSha256Bytes : List UInt8 → Digest) (scan later : Scan) : Prop :=
  ∀ name file file', scan.files.lookup name = some file → later.files.lookup name = some file' →
    file.content ≠ file'.content →
      computeSha256Bytes file.content ≠ computeSha256Bytes file'.content

theorem mirrors_from {scans : List Scan}
    (hpairs : scans.Pairwise fun scan later => scan.Older later ∧ scan.HashDiffers sha later)
    (h : Synced sha seen p.tracked p.registry)
    (hseen : ∀ scan ∈ scans, Follows sha seen scan)
    (hcalm : EachStep (step sha) (fun p scan _ => Calm p scan) p scans) :
    EachStep (step sha) (fun _ scan q => q.Clean → Mirrors q.registry scan.files) p scans := by
  induction scans generalizing p seen with
  | nil => trivial
  | cons scan scans ih =>
    intro q hq
    obtain ⟨hscan,hrest⟩ := hcalm q hq
    obtain ⟨hpair,hpairs⟩ := pairwise_cons.mp hpairs
    obtain ⟨hold,hseen⟩ := forall_mem_cons.mp hseen
    have hfollows : Follows sha
        (fun name file => seen name file ∨ scan.files.lookup name = some file) scan := by
      rintro name file file' (hfile | hfile) hfile' hne
      · exact hold name file file' hfile hfile' hne
      · cases hfile.symm.trans hfile'
        exact absurd rfl hne
    cases hq
    obtain ⟨hsynced,hmirrors⟩ := scanAndReload_spec (h.mono fun _ _ => .inl) hfollows
      (fun _ _ => .inr) hscan
    refine ⟨hmirrors,ih hpairs hsynced (fun later hlater => ?_) hrest⟩
    rintro name file file' (hfile | hfile) hfile' hne
    · exact hseen later hlater name file file' hfile hfile' hne
    · exact ⟨(hpair later hlater).1 name file file' hfile hfile' hne,
        (hpair later hlater).2 name file file' hfile hfile' hne⟩

/-- If no tracked file vanishes and every listing is complete, every scan without an error leaves a
registry that mirrors the directory. -/
theorem mirrors_of_calm (computeSha256Bytes : List UInt8 → Digest) (scans : List Scan)
    (hnewer : scans.Pairwise Scan.Older)
    (hhash : scans.Pairwise (Scan.HashDiffers computeSha256Bytes))
    (hcalm : EachStep (step computeSha256Bytes) (fun p scan _ => Calm p scan) init scans) :
    EachStep (step computeSha256Bytes)
      (fun _ scan q => q.Clean → Mirrors q.registry scan.files) init scans := by
  have hnothing (scan : Scan) (_ : scan ∈ scans) :
      Follows computeSha256Bytes (fun _ _ => False) scan := fun _ _ _ hfile => absurd hfile id
  exact mirrors_from (List.Pairwise.and hnewer hhash) synced_empty hnothing hcalm

/-- A hash that tells the samples apart. -/
def firstByte (binary : List UInt8) : Digest := ⟨replicate 32 (binary.headD 0),by simp⟩

def sampleName : FileName := [97,46,98,105,110]

def sampleScan (content : List UInt8) (modified : ℕ) : Scan where
  directory := some ((∅ : Directory).insert sampleName ⟨content,modified⟩)
  listing := [sampleName]
  lists := ⟨by simp,fun name => by simp [notMem_empty]⟩
  order := [sampleName]
  createError := none
  metadataError _ := none
  readError _ := none

theorem lookup_sampleScan {content : List UInt8} {modified : ℕ}
    (h : (sampleScan content modified).files.lookup name = some file) :
    name = sampleName ∧ file = ⟨content,modified⟩ := by
  have hinsert : (sampleScan content modified).files.lookup name =
      if name = sampleName then some ⟨content,modified⟩ else none :=
    lookup_insert_if _ _ _ _
  rw [hinsert] at h
  split at h
  · next hname => exact ⟨hname,(Option.some.inj h).symm⟩
  · cases h

def emptyScan : Scan where
  directory := some ∅
  listing := []
  lists := ⟨by simp,fun name => by simp [notMem_empty]⟩
  order := [sampleName]
  createError := none
  metadataError _ := none
  readError _ := none

def afterScans (scans : List Scan) : Reload :=
  scans.foldl (fun p scan => p.reloader.scanAndReload firstByte p.registry scan) init

/-- A file that is created and then rewritten is mirrored by both scans. -/
theorem rewritten_file_is_mirrored : (afterScans [sampleScan [1] 0]).Clean ∧
      (afterScans [sampleScan [1] 0,sampleScan [2] 1]).Clean ∧
      EachStep (step firstByte) (fun _ scan q => q.Clean → Mirrors q.registry scan.files) init
        [sampleScan [1] 0,sampleScan [2] 1] := by
  refine ⟨by decide +kernel,by decide +kernel,mirrors_of_calm firstByte _ ?_ ?_ ?_⟩
  · refine pairwise_pair.mpr fun name file file' hfile hfile' _ => ?_
    rw [(lookup_sampleScan hfile).2,(lookup_sampleScan hfile').2]
    exact Nat.zero_lt_one
  · refine pairwise_pair.mpr fun name file file' hfile hfile' _ => ?_
    rw [(lookup_sampleScan hfile).2,(lookup_sampleScan hfile').2]
    decide
  · have htracked : (afterScans [sampleScan [1] 0]).tracked =
        (∅ : Finmap fun _ : FileName => TrackedFile).insert sampleName
          ⟨0,firstByte [1],some 1⟩ := by decide +kernel
    have hlisted {content : List UInt8} {modified : ℕ} (name : FileName)
        (hmem : name ∈ (sampleScan content modified).files) :
        name ∈ (sampleScan content modified).listing :=
      mem_singleton.mpr ((mem_insert.mp hmem).resolve_right notMem_empty)
    rintro p ⟨⟩
    refine ⟨⟨fun name hmem => absurd hmem notMem_empty,fun name hmem _ => hlisted name hmem,
      by decide⟩,?_⟩
    rintro q ⟨⟩
    refine ⟨⟨fun name hmem => ?_,fun name hmem _ => hlisted name hmem,by decide +kernel⟩,trivial⟩
    have hname : name ∈ (afterScans [sampleScan [1] 0]).tracked := hmem
    rw [htracked,mem_insert] at hname
    exact mem_insert.mpr (.inl (hname.resolve_right notMem_empty))

theorem deleted_file_keeps_its_block : [sampleScan [1] 0,emptyScan].Pairwise Scan.Older ∧
      (afterScans [sampleScan [1] 0,emptyScan]).Clean ∧
      (1 : BlockId) ∈ (afterScans [sampleScan [1] 0,emptyScan]).registry.blocks ∧
      ¬ Mirrors (afterScans [sampleScan [1] 0,emptyScan]).registry emptyScan.files := by
  have hmem : (1 : BlockId) ∈ (afterScans [sampleScan [1] 0,emptyScan]).registry.blocks := by
    decide +kernel
  refine ⟨pairwise_pair.mpr fun name file file' _ hfile' => ?_,by decide +kernel,hmem,?_⟩
  · exact absurd (mem_of_lookup_eq_some hfile') notMem_empty
  · rintro ⟨blockOf,hbij,-⟩
    obtain ⟨name,⟨-,hname⟩,-⟩ := hbij.surjOn hmem
    exact notMem_empty hname

end
end Aios.BlockMgr
