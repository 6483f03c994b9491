import Aios.Autohal.Store
import Aios.Lib.Keyed
import Aios.Lib.Transition

/-!
The provisioning engine: the devices, their drivers and the capabilities they were granted.
-/
namespace Aios.Autohal

open Security Keyed

def genericFallbackId : String := "driver.generic.fallback"

inductive DriverState where
  | active | downloading | compiling | generic | failed | rolledBack
  deriving DecidableEq

structure DeviceDriver (φ : Type) where
  fingerprint : φ
  driverId : String
  manifest : Option DriverManifest
  state : DriverState
  failures : UInt32
  progress : UInt32
  capabilities : List Capability
  lastError : Option String
  deriving DecidableEq

inductive EngineError where
  | store (e : String)
  | fetch (e : String)
  | hashMismatch (expected actual : String)
  | adapt (e : String)
  | sandbox (e : String)
  | driverCall (e : String)

inductive FetchedDriver where
  | wasm (manifest : DriverManifest) (bytes : List UInt8)
  | source (manifest : DriverManifest) (code : String)

/-- What the fetcher, the compiler and the sandbox answer during one call of the engine. -/
structure World (φ : Type) where
  findDriver : φ → Except String FetchedDriver
  compile : String → String → Except String (List UInt8)
  start : String → DriverManifest → List UInt8 → Except EngineError Unit
  startGeneric : φ → Except String Unit

structure AutohalEngine (φ δ : Type) where
  maxConsecutiveFailures : UInt32
  store : DriverStore δ
  devices : List (DeviceDriver φ)

def genericFallback (hash : String) : DriverManifest :=
  { id := genericFallbackId, name := "Generic Fallback Driver", version := "1.0.0",
    requiredCapabilities := [], hashSha256 := hash, entryPoint := "_start_driver" }

/-- The user's override wins over what the manifest asks for. -/
def grantedCapabilities (overrides : Finmap fun _ : String => List Capability)
    (manifest : DriverManifest) (driverId : String) : List Capability :=
  (overrides.lookup driverId).getD manifest.requiredCapabilities

variable {φ δ : Type} [DecidableEq φ]

/-- The cached module, if it can be read and is the one that the manifest was made for. -/
def DriverStore.usableWasm (host : Host δ) (s : DriverStore δ) (driverId : String)
    (manifest : DriverManifest) : Option (List UInt8) :=
  match s.loadWasm host driverId with
  | .ok wasm =>
    if manifest.hashSha256 = "" ∨ host.sha256Hex wasm = manifest.hashSha256 then some wasm else none
  | .error _ => none

namespace AutohalEngine

def overrides (e : AutohalEngine φ δ) : Finmap fun _ : String => List Capability :=
  e.store.index.capOverrides

def deviceOf (e : AutohalEngine φ δ) (fp : φ) : Option (DeviceDriver φ) :=
  entry DeviceDriver.fingerprint fp e.devices

def update (e : AutohalEngine φ δ) (fp : φ) (f : DeviceDriver φ → DeviceDriver φ) :
    AutohalEngine φ δ :=
  { e with devices := updateFirst (fun d => d.fingerprint = fp) f e.devices }

def setState (e : AutohalEngine φ δ) (fp : φ) (state : DriverState) : AutohalEngine φ δ :=
  e.update fp fun d => { d with state }

def setProgress (e : AutohalEngine φ δ) (fp : φ) (progress : UInt32) : AutohalEngine φ δ :=
  e.update fp fun d => { d with progress }

def upsertDevice (e : AutohalEngine φ δ) (fp : φ) (driverId : String) (manifest : DriverManifest)
    (state : DriverState) (capabilities : List Capability) (progress : UInt32)
    (lastError : Option String) : AutohalEngine φ δ :=
  match e.deviceOf fp with
  | some _ =>
    e.update fp fun d =>
      { d with driverId, manifest := some manifest, state, progress, capabilities, lastError }
  | none =>
    { e with devices := e.devices ++ [{
        fingerprint := fp, driverId, manifest := some manifest, state, failures := 0, progress,
        capabilities, lastError }] }

variable (host : Host δ) (key : φ → String) (w : World φ) (e : AutohalEngine φ δ) (fp : φ)
  (driverId : String)

def activate (manifest : DriverManifest) (wasm : List UInt8) :
    AutohalEngine φ δ × Except EngineError Unit :=
  match w.start driverId manifest wasm with
  | .error err => (e,.error err)
  | .ok () =>
    (e.upsertDevice fp driverId manifest .active
      (grantedCapabilities e.overrides manifest driverId) 100 none,.ok ())

def activateGeneric : AutohalEngine φ δ :=
  let manifest := genericFallback (host.sha256Hex host.genericWat)
  match w.startGeneric fp with
  | .ok () => e.upsertDevice fp manifest.id manifest .generic [] 100 none
  | .error err => e.upsertDevice fp manifest.id manifest .failed [] 100 (some err)

def registerDriver (manifest : DriverManifest) (bytes : List UInt8) :
    AutohalEngine φ δ × Except EngineError Unit :=
  match e.store.saveDriver host (key fp) manifest bytes with
  | (store,.error err) => ({ e with store },.error (.store err))
  | (store,.ok ()) =>
    (({ e with store } : AutohalEngine φ δ).setProgress fp 90).activate w fp manifest.id manifest
      bytes

/-- Steps 2 to 4: the driver is fetched, compiled if it is a source, and its hash is checked. -/
def fetchDriver : AutohalEngine φ δ × Except EngineError Unit :=
  let e := e.setProgress fp 20
  match w.findDriver fp with
  | .error err => (e,.error (.fetch err))
  | .ok (.wasm manifest bytes) =>
    let e := e.setProgress fp 50
    if manifest.hashSha256 ≠ "" ∧ host.sha256Hex bytes ≠ manifest.hashSha256 then
      (e,.error (.hashMismatch manifest.hashSha256 (host.sha256Hex bytes)))
    else e.registerDriver host key w fp manifest bytes
  | .ok (.source manifest code) =>
    let e := (e.setState fp .compiling).setProgress fp 55
    match w.compile code manifest.entryPoint with
    | .error err => (e,.error (.adapt err))
    | .ok bytes =>
      (e.setProgress fp 75).registerDriver host key w fp
        { manifest with hashSha256 := host.sha256Hex bytes } bytes

/-- Step 1 looks in the store. A cached driver that does not pass is removed and fetched again. -/
def provisionDedicated : AutohalEngine φ δ × Except EngineError Unit :=
  match e.store.index.entries.lookup (key fp) with
  | none => e.fetchDriver host key w fp
  | some driverId =>
    match e.store.loadManifest host driverId with
    | none => e.fetchDriver host key w fp
    | some manifest =>
      match e.store.usableWasm host driverId manifest with
      | some wasm => (e.setProgress fp 30).activate w fp driverId manifest wasm
      | none =>
        ({ e with store := (e.store.removeDriver host driverId).1 } : AutohalEngine φ δ).fetchDriver
          host key w fp

def provision : AutohalEngine φ δ × Except EngineError Unit :=
  match ((e.setState fp .downloading).setProgress fp 5).provisionDedicated host key w fp with
  | (e,.ok ()) => (e,.ok ())
  | (e,.error err) => (e.activateGeneric host w fp,.error err)

def forget : AutohalEngine φ δ :=
  { e with store := { e.store with index := { e.store.index with
      entries := e.store.index.entries.erase (key fp) } } }

def removeDevice : AutohalEngine φ δ :=
  match e.deviceOf fp with
  | none => e
  | some _ =>
    { e with
      devices := e.devices.filter fun d => d.fingerprint ≠ fp
      store := ((e.forget key fp).store.saveIndex host).1 }

/-- Once the failures reach the limit, every device on the driver is rolled back. -/
def recordFailure : AutohalEngine φ δ × Option String :=
  if driverId = genericFallbackId then (e,none)
  else
    let (index,failures) := e.store.index.bumpFailure driverId
    let exceeded := max e.maxConsecutiveFailures 1 ≤ failures
    let devices := e.devices.map fun d =>
      if d.driverId = driverId then
        { d with failures, state := if exceeded then .rolledBack else d.state }
      else d
    let rolledBack :=
      if exceeded then (e.devices.filter fun d => d.driverId = driverId).map (·.fingerprint) else []
    let entries := rolledBack.foldl (fun entries fp => entries.erase (key fp)) index.entries
    let store := { e.store with index := { index with entries } }
    let e := { e with devices, store := (store.saveIndex host).1 }
    if rolledBack = [] then (e,none)
    else (rolledBack.foldl (fun e fp => e.activateGeneric host w fp) e,some driverId)

def rollbackToGeneric : AutohalEngine φ δ :=
  match e.deviceOf fp with
  | some _ => (e.forget key fp).activateGeneric host w fp
  | none => e.activateGeneric host w fp

def uninstallDriver : AutohalEngine φ δ × Bool :=
  if driverId = genericFallbackId then (e,false)
  else
    let (store,removed) := e.store.removeDriver host driverId
    ({ e with devices := e.devices.filter fun d => d.driverId ≠ driverId, store },removed)

/-- Only the first device that runs the driver is granted anew. -/
def setCapOverride (caps : List Capability) : AutohalEngine φ δ :=
  let index := { e.store.index with
    capOverrides := e.store.index.capOverrides.insert driverId caps }
  let granted :=
    match (e.devices.find? fun d => d.driverId = driverId).bind (·.manifest) with
    | some m => grantedCapabilities index.capOverrides m driverId
    | none => []
  { e with
    devices := updateFirst (fun d => d.driverId = driverId)
      (fun d => { d with capabilities := granted }) e.devices
    store := (DriverStore.saveIndex host { e.store with index }).1 }

end AutohalEngine

/-! ### Runs -/

inductive Op (φ : Type) where
  | provision (w : World φ) (fp : φ)
  | removeDevice (fp : φ)
  | recordFailure (w : World φ) (driverId : String)
  | rollbackToGeneric (w : World φ) (fp : φ)
  | uninstallDriver (driverId : String)
  | setCapOverride (driverId : String) (caps : List Capability)

def step (host : Host δ) (key : φ → String) (e : AutohalEngine φ δ) :
    Op φ → Option (AutohalEngine φ δ)
  | .provision w fp => some (e.provision host key w fp).1
  | .removeDevice fp => some (e.removeDevice host key fp)
  | .recordFailure w driverId => some (e.recordFailure host key w driverId).1
  | .rollbackToGeneric w fp => some (e.rollbackToGeneric host key w fp)
  | .uninstallDriver driverId => some (e.uninstallDriver host driverId).1
  | .setCapOverride driverId caps => some (e.setCapOverride host driverId caps)

/-! ### What the operations do to the devices -/

namespace DriverStore

variable {host : Host δ} {s : DriverStore δ}

@[simp] theorem saveIndex_index : (s.saveIndex host).1.index = s.index := by
  unfold saveIndex
  split <;> rfl

@[simp] theorem saveDriver_capOverrides {k : String} {m : DriverManifest} {wasm : List UInt8} :
    (s.saveDriver host k m wasm).1.index.capOverrides = s.index.capOverrides := by
  unfold saveDriver
  dsimp only
  split <;> simp

@[simp] theorem removeDriver_capOverrides {driverId : String} :
    (s.removeDriver host driverId).1.index.capOverrides = s.index.capOverrides.erase driverId := by
  simp [removeDriver]

end DriverStore

namespace AutohalEngine

variable {host : Host δ} {key : φ → String} {w : World φ} {e e' e'' : AutohalEngine φ δ}
  {fp fp' : φ} {f : DeviceDriver φ → DeviceDriver φ} {driverId : String} {manifest : DriverManifest}
  {state : DriverState} {capabilities : List Capability} {progress : UInt32}
  {lastError : Option String}

structure Local (fp : φ) (e e' : AutohalEngine φ δ) : Prop where
  others : ∀ fp' ≠ fp, e'.deviceOf fp' = e.deviceOf fp'
  nodup : (e.devices.map (·.fingerprint)).Nodup → (e'.devices.map (·.fingerprint)).Nodup

theorem Local.trans (h : Local fp e e') (h' : Local fp e' e'') : Local fp e e'' :=
  ⟨fun fp' hne => (h'.others fp' hne).trans (h.others fp' hne),fun hn => h'.nodup (h.nodup hn)⟩

/-- Where no fingerprint occurs twice, what holds of every device after the change. -/
theorem Local.forall_mem (h : Local fp e e') (hn : (e.devices.map (·.fingerprint)).Nodup)
    {P : DeviceDriver φ → Prop} : (∀ d ∈ e'.devices, P d) ↔
      (∀ d, e'.deviceOf fp = some d → P d) ∧ ∀ d ∈ e.devices, d.fingerprint ≠ fp → P d := by
  have hentry : ∀ d, d ∈ e'.devices ↔ e'.deviceOf d.fingerprint = some d := fun d =>
    ⟨fun hd => (entry_eq_some (h.nodup hn)).mpr ⟨hd,rfl⟩,fun hd => (mem_of_entry hd).1⟩
  constructor
  · refine fun hall => ⟨fun d hd => hall d (mem_of_entry hd).1,fun d hd hne => hall d ?_⟩
    rw [hentry,h.others _ hne]
    exact (entry_eq_some hn).mpr ⟨hd,rfl⟩
  · rintro ⟨hfp,hrest⟩ d hd
    rw [hentry] at hd
    by_cases hne : d.fingerprint = fp
    · exact hfp d (hne ▸ hd)
    · exact hrest d (mem_of_entry ((h.others _ hne).symm.trans hd)).1 hne

theorem local_of_devices (h : e'.devices = e.devices) : Local fp e e' :=
  ⟨fun _ _ => by rw [deviceOf,h,deviceOf],fun hn => h ▸ hn⟩

theorem local_store (store : DriverStore δ) : Local fp e { e with store } := local_of_devices rfl

theorem deviceOf_update (hf : ∀ d, (f d).fingerprint = d.fingerprint) :
    (e.update fp f).deviceOf fp' =
      if fp' = fp then (e.deviceOf fp).map f else e.deviceOf fp' :=
  entry_update hf

theorem local_update (hf : ∀ d, (f d).fingerprint = d.fingerprint) :
    Local fp e (e.update fp f) := by
  refine ⟨fun fp' hne => ?_,fun hn => ?_⟩
  · rw [deviceOf_update hf,if_neg hne]
  · rwa [update,map_key_updateFirst hf]

theorem local_setProgress (progress : UInt32) : Local fp e (e.setProgress fp progress) :=
  local_update fun _ => rfl

theorem local_setState (state : DriverState) : Local fp e (e.setState fp state) :=
  local_update fun _ => rfl

theorem deviceOf_upsertDevice :
    (e.upsertDevice fp driverId manifest state capabilities progress lastError).deviceOf fp' =
      if fp' = fp then
        some ⟨fp,driverId,manifest,state,((e.deviceOf fp).map (·.failures)).getD 0,progress,
          capabilities,lastError⟩
      else e.deviceOf fp' := by
  unfold upsertDevice
  cases hd : e.deviceOf fp with
  | some d =>
    rw [deviceOf_update,hd]
    · simp [(mem_of_entry hd).2]
    · exact fun _ => rfl
  | none => exact entry_append_singleton hd rfl

theorem local_upsertDevice :
    Local fp e (e.upsertDevice fp driverId manifest state capabilities progress lastError) := by
  refine ⟨fun fp' hne => by rw [deviceOf_upsertDevice,if_neg hne],fun hn => ?_⟩
  unfold upsertDevice
  cases hd : e.deviceOf fp with
  | some d =>
    apply Local.nodup (local_update _) hn
    exact fun _ => rfl
  | none =>
    have hnew := entry_eq_none.mp hd
    rw [List.map_append]
    exact List.nodup_append.mpr ⟨hn,List.nodup_singleton _,by simpa using hnew⟩

@[simp] theorem upsertDevice_store :
    (e.upsertDevice fp driverId manifest state capabilities progress lastError).store =
      e.store := by
  unfold upsertDevice
  split <;> rfl

/-- The device is left on the fallback without capabilities. -/
theorem activateGeneric_spec : Local fp e (e.activateGeneric host w fp) ∧
    ∃ d, (e.activateGeneric host w fp).deviceOf fp = some d ∧ d.manifest.isSome ∧
      (d.state = .generic ∨ d.state = .failed) ∧ d.capabilities = [] := by
  unfold activateGeneric
  split
  · exact ⟨local_upsertDevice,_,deviceOf_upsertDevice.trans (if_pos rfl),rfl,.inl rfl,rfl⟩
  · exact ⟨local_upsertDevice,_,deviceOf_upsertDevice.trans (if_pos rfl),rfl,.inr rfl,rfl⟩

@[simp] theorem activateGeneric_store : (e.activateGeneric host w fp).store = e.store := by
  unfold activateGeneric
  split <;> simp

end AutohalEngine
end Aios.Autohal
