import Aios.Lib.FiniteMap
import Aios.Security.Capability
import Aios.Vfs.Paths

/-!
The driver store. A driver is kept where its id, which a remote registry chose, leads from the root.
-/
namespace Aios.Autohal

open Security Vfs List

structure DriverManifest where
  id : String
  name : String
  version : String
  requiredCapabilities : List Capability
  hashSha256 : String
  entryPoint : String
  deriving DecidableEq

def isAsciiHexdigit (c : Char) : Bool :=
  ('0' ≤ c && c ≤ '9') || ('a' ≤ c && c ≤ 'f') || ('A' ≤ c && c ≤ 'F')

def DriverManifest.validate (m : DriverManifest) : Except String Unit :=
  if m.id = "" then .error "manifest id must not be empty"
  else if m.name = "" then .error "manifest name must not be empty"
  else if m.version = "" then .error "manifest version must not be empty"
  else if m.entryPoint = "" then .error "manifest entry point must not be empty"
  else if m.hashSha256 ≠ "" ∧
      (m.hashSha256.utf8ByteSize ≠ 64 ∨ m.hashSha256.toList.all isAsciiHexdigit = false) then
    .error "hash_sha256 must be a 64-character hex SHA-256"
  else .ok ()

structure DriverIndex where
  entries : Finmap fun _ : String => String
  failures : Finmap fun _ : String => UInt32
  capOverrides : Finmap fun _ : String => List Capability

def DriverIndex.bumpFailure (index : DriverIndex) (driverId : String) : DriverIndex × UInt32 :=
  let next := (index.failures.lookup driverId).getD 0+1
  ({ index with failures := index.failures.insert driverId next },next)

/-! ### The files -/

abbrev Location := List String

/-- Where `root.join(driver_id)` leads: an absolute id replaces the root, empty segments and `.` are
skipped, `..` goes up. No call accepts a NUL. -/
def driverDir (root : Location) (driverId : String) : Option Location :=
  if '\x00' ∈ driverId.toList then none
  else some (((driverId.toList.splitOn '/').map String.ofList).foldl clamp
    (if driverId.toList.head? = some '/' then [] else root))

def manifestPath (root : Location) (driverId : String) : Option Location :=
  (driverDir root driverId).map (· ++ ["driver.json"])

def wasmPath (root : Location) (driverId : String) : Option Location :=
  (driverDir root driverId).map (· ++ ["driver.wasm"])

def indexPath (root : Location) : Location := root ++ ["index.json"]

inductive FileCall where
  | createDirAll (path : Option Location)
  | write (path : Option Location) (content : List UInt8)
  | read (path : Option Location)
  | removeDirAll (path : Option Location)

/-- What comes from other crates and from the system, whose disk is in a state of type `δ`. -/
structure Host (δ : Type) where
  perform : δ → FileCall → δ × Except String Unit
  read : δ → Option Location → Except String (List UInt8)
  fromSlice : List UInt8 → Except String DriverManifest
  toJsonPretty : DriverManifest → Except String (List UInt8)
  indexJson : DriverIndex → Except String (List UInt8)
  sha256Hex : List UInt8 → String
  genericWat : List UInt8

structure DriverStore (δ : Type) where
  root : Location
  index : DriverIndex
  disk : δ

/-- The calls one after the other, up to the first that fails. -/
def performAll {δ : Type} (host : Host δ) : δ → List FileCall → δ × Except String Unit
  | disk, [] => (disk,.ok ())
  | disk, c::calls =>
    match host.perform disk c with
    | (disk,.ok ()) => performAll host disk calls
    | (disk,.error e) => (disk,.error e)

/-- The calls of `save_driver` on the driver's files. The manifest is turned into JSON once its
directory is there. -/
def saveCalls (root : Location) (m : DriverManifest) (json : Except String (List UInt8))
    (wasm : List UInt8) : List FileCall :=
  .createDirAll (driverDir root m.id) ::
    match json with
    | .ok json => [.write (manifestPath root m.id) json,.write (wasmPath root m.id) wasm]
    | .error _ => []

/-- The reads of `load_manifest` and `load_wasm`. -/
def loadCalls (root : Location) (driverId : String) : List FileCall :=
  [.read (manifestPath root driverId),.read (wasmPath root driverId)]

def removeCalls (root : Location) (driverId : String) : List FileCall :=
  [.removeDirAll (driverDir root driverId)]

namespace DriverStore

variable {δ : Type} (host : Host δ) (s : DriverStore δ)

def saveIndex : DriverStore δ × Except String Unit :=
  match host.indexJson s.index with
  | .error e => (s,.error e)
  | .ok json =>
    let r := performAll host s.disk [.write (indexPath s.root) json]
    ({ s with disk := r.1 },r.2)

def saveDriver (fingerprintKey : String) (m : DriverManifest) (wasm : List UInt8) :
    DriverStore δ × Except String Unit :=
  let json := host.toJsonPretty m
  match performAll host s.disk (saveCalls s.root m json wasm), json with
  | (disk,.ok ()), .ok _ =>
    saveIndex host { s with
      disk
      index := { s.index with
        entries := s.index.entries.insert fingerprintKey m.id
        failures := s.index.failures.erase m.id } }
  | (disk,.error e), _ | (disk,.ok ()), .error e => ({ s with disk },.error e)

/-- `from_json` parses and then validates. -/
def loadManifest (driverId : String) : Option DriverManifest :=
  match host.read s.disk (manifestPath s.root driverId) with
  | .error _ => none
  | .ok bytes =>
    match host.fromSlice bytes with
    | .error _ => none
    | .ok m =>
      match m.validate with
      | .error _ => none
      | .ok () => some m

def loadWasm (driverId : String) : Except String (List UInt8) :=
  host.read s.disk (wasmPath s.root driverId)

def removeDriver (driverId : String) : DriverStore δ × Bool :=
  let index : DriverIndex :=
    { entries := s.index.entries.retain fun _ v => v != driverId
      failures := s.index.failures.erase driverId
      capOverrides := s.index.capOverrides.erase driverId }
  let r := performAll host s.disk (removeCalls s.root driverId)
  ((saveIndex host { s with index, disk := r.1 }).1,r.2.isOk)

variable {host s} {s' : DriverStore δ} {driverId : String}

/-- The loads see the disk through the reads of `loadCalls` only. -/
theorem loads_of_reads (hroot : s'.root = s.root)
    (h : ∀ path, .read path ∈ loadCalls s.root driverId →
      host.read s'.disk path = host.read s.disk path) :
    s'.loadManifest host driverId = s.loadManifest host driverId ∧
      s'.loadWasm host driverId = s.loadWasm host driverId := by
  have hmanifest := h (manifestPath s.root driverId) (by simp [loadCalls])
  have hwasm := h (wasmPath s.root driverId) (by simp [loadCalls])
  simp only [loadManifest,loadWasm,hroot,hmanifest,hwasm,and_self]

end DriverStore

/-! ### Confinement -/

/-- What a call creates, overwrites, reads or deletes, a recursive removal everything below. -/
def FileCall.Reaches : FileCall → Location → Prop
  | .createDirAll path, loc | .write path _, loc | .read path, loc => path = some loc
  | .removeDirAll path, loc => ∃ dir, path = some dir ∧ dir <+: loc

/-- The files of a driver are only touched below the directory of its own id, which is not the
index. The index file itself is written by `saveIndex` at `indexPath`, whatever the id. -/
def Confined (root : Location) (m : DriverManifest) : Prop :=
  root ++ [m.id] ≠ indexPath root ∧
    ∀ json wasm, ∀ c ∈ saveCalls root m json wasm ++ loadCalls root m.id ++ removeCalls root m.id,
      ∀ loc, c.Reaches loc → root ++ [m.id] <+: loc

/-- The id is a single name of its own, or one that no call takes. -/
def PlainId (id : String) : Prop :=
  '\x00' ∈ id.toList ∨ '/' ∉ id.toList ∧ id ≠ "." ∧ id ≠ ".." ∧ id ≠ "index.json"

variable {root : Location} {m : DriverManifest} {id : String}

theorem mem_foldl_clamp {out segs : List String} {n : String} (h : n ∈ segs.foldl clamp out) :
    n ∈ out ∨ n ∈ segs := by
  induction segs generalizing out with
  | nil => exact .inl h
  | cons seg segs ih =>
    rcases ih h with hout | hsegs
    · unfold clamp at hout
      split_ifs at hout
      · exact .inl hout
      · exact .inl (mem_of_mem_dropLast hout)
      · rcases mem_append.mp hout with hout | hseg
        · exact .inl hout
        · exact .inr (by simp [mem_singleton.mp hseg])
    · exact .inr (mem_cons_of_mem _ hsegs)

/-- No name of a location has a separator in it. -/
theorem separator_notMem_of_mem (hroot : ∀ n ∈ root, '/' ∉ n.toList) {dir : Location}
    (hdir : driverDir root id = some dir) {n : String} (hn : n ∈ dir) : '/' ∉ n.toList := by
  unfold driverDir at hdir
  split at hdir
  · cases hdir
  · cases hdir
    rcases mem_foldl_clamp hn with hbase | hseg
    · split at hbase
      · cases hbase
      · exact hroot n hbase
    · obtain ⟨seg,hmem,rfl⟩ := mem_map.mp hseg
      rw [String.toList_ofList]
      exact Splits.notMem_of_mem_splitOn hmem

theorem driverDir_of_single (hnul : '\x00' ∉ id.toList) (hsep : '/' ∉ id.toList) :
    driverDir root id = some (clamp root id) := by
  have hhead : id.toList.head? ≠ some '/' := fun h => hsep (List.mem_of_mem_head? h)
  have hsplit : id.toList.splitOn '/' = [id.toList] :=
    splitOnP_eq_singleton (by simpa using fun c hc => ne_of_mem_of_not_mem hc hsep)
  simp [driverDir,hnul,hhead,hsplit]

theorem id_ne_empty (h : m.validate = .ok ()) : m.id ≠ "" := by
  intro hid
  simp [DriverManifest.validate,hid] at h

theorem dir_of_reaches {json : Except String (List UInt8)} {wasm : List UInt8} {c : FileCall}
    {loc : Location} (hreach : c.Reaches loc)
    (hc : c ∈ saveCalls root m json wasm ++ loadCalls root m.id ++ removeCalls root m.id) :
    ∃ dir, driverDir root m.id = some dir ∧ dir <+: loc := by
  have hfile : ∀ n, (driverDir root m.id).map (· ++ [n]) = some loc →
      ∃ dir, driverDir root m.id = some dir ∧ dir <+: loc := by
    intro n h
    obtain ⟨dir,hdir,rfl⟩ := Option.map_eq_some_iff.mp h
    exact ⟨dir,hdir,prefix_append _ _⟩
  cases json <;> simp [saveCalls,loadCalls,removeCalls] at hc
  case error =>
    rcases hc with rfl | rfl | rfl | rfl
    exacts [⟨loc,hreach,prefix_rfl⟩,hfile _ hreach,hfile _ hreach,hreach]
  case ok =>
    rcases hc with rfl | rfl | rfl | rfl | rfl | rfl
    exacts [⟨loc,hreach,prefix_rfl⟩,hfile _ hreach,hfile _ hreach,hfile _ hreach,
      hfile _ hreach,hreach]

/-- For every manifest that is accepted, the store stays in the driver's own directory exactly if
the id is a plain name. -/
theorem driver_confined_iff (hroot : ∀ n ∈ root, '/' ∉ n.toList) (h : m.validate = .ok ()) :
    Confined root m ↔ PlainId m.id := by
  constructor
  · rintro ⟨hindex,hcalls⟩
    by_cases hnul : '\x00' ∈ m.id.toList
    · exact .inl hnul
    obtain ⟨dir,hdir⟩ : ∃ dir, driverDir root m.id = some dir := ⟨_,if_neg hnul⟩
    -- the removal reaches the directory itself
    have hown : root ++ [m.id] <+: dir :=
      hcalls (.error "") [] (.removeDirAll (driverDir root m.id)) (by simp [removeCalls]) dir
        ⟨dir,hdir,prefix_rfl⟩
    have hsep : '/' ∉ m.id.toList := separator_notMem_of_mem hroot hdir (hown.subset (by simp))
    rw [driverDir_of_single hnul hsep,Option.some.injEq] at hdir
    have hlength := hown.length_le
    refine .inr ⟨hsep,fun hid => ?_,fun hid => ?_,fun hid => hindex (by rw [hid]; rfl)⟩
    · simp [← hdir,clamp,hid] at hlength
    · simp [← hdir,clamp,hid] at hlength
      omega
  · intro hplain
    refine ⟨fun he => ?_,fun json wasm c hc loc hreach => ?_⟩
    · have hid : m.id = "index.json" := by simpa [indexPath] using he
      rcases hplain with hnul | ⟨-,-,-,hne⟩
      · rw [hid] at hnul
        exact absurd hnul (by decide)
      · exact hne hid
    · obtain ⟨dir,hdir,hloc⟩ := dir_of_reaches hreach hc
      have hnul : '\x00' ∉ m.id.toList := fun hnul => by simp [driverDir,hnul] at hdir
      obtain ⟨hsep,hdot,hup,-⟩ := hplain.resolve_left hnul
      rw [driverDir_of_single hnul hsep,clamp,if_neg (by simp [id_ne_empty h,hdot]),
        if_neg hup,Option.some.injEq] at hdir
      rwa [hdir]

def sampleManifest (id : String) : DriverManifest :=
  { id, name := "UVC", version := "1.0.0", requiredCapabilities := [.hwAccess], hashSha256 := "",
    entryPoint := "_start_driver" }

theorem plain_driver_confined : Confined ["data","drivers"] (sampleManifest "driver.uvc") :=
  (driver_confined_iff (by decide) rfl).mpr (.inr (by decide))

/-- The removal of a driver called `..` reaches everything beside the store, and one whose id is
absolute is saved outside. -/
theorem driver_escapes :
    (sampleManifest "..").validate = .ok () ∧ (sampleManifest "/etc").validate = .ok () ∧
      (∃ c ∈ removeCalls ["data","drivers"] "..", c.Reaches ["data","keys"]) ∧
      ∃ c ∈ saveCalls ["data","drivers"] (sampleManifest "/etc") (.ok []) [],
        c.Reaches ["etc","driver.json"] :=
  ⟨rfl,rfl,⟨_,mem_singleton_self _,["data"],by decide,by decide⟩,
    ⟨_,mem_cons_of_mem _ (mem_cons_self ..),
      show manifestPath _ _ = some ["etc","driver.json"] by decide⟩⟩

end Aios.Autohal
