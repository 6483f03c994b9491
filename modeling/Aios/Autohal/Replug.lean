import Aios.Autohal.Grants
import Aios.Lib.Sha256
import Aios.Lib.TextCodec

/-!
Plugging a device in again: its driver is still in the store, but its index entry is gone.
-/
namespace Aios.Autohal

open Keyed
variable {φ δ : Type} [DecidableEq φ] {host : Host δ} {key : φ → String} {w : World φ}
  {e t : AutohalEngine φ δ} {fp : φ} {driverId err : String} {manifest : DriverManifest}
  {wasm : List UInt8}

namespace AutohalEngine

def RunsOn (e : AutohalEngine φ δ) (fp : φ) (driverId : String) : Prop :=
  ∃ d, e.deviceOf fp = some d ∧ d.state = .active ∧ d.driverId = driverId

/-- The driver is in the store, with a module that passes its check. -/
def Cached (host : Host δ) (driverId : String) (manifest : DriverManifest) (wasm : List UInt8)
    (e : AutohalEngine φ δ) : Prop :=
  e.store.loadManifest host driverId = some manifest ∧
    e.store.usableWasm host driverId manifest = some wasm

def KeepsFiles (host : Host δ) (driverId : String) (e e' : AutohalEngine φ δ) : Prop :=
  e'.store.loadManifest host driverId = e.store.loadManifest host driverId ∧
    e'.store.loadWasm host driverId = e.store.loadWasm host driverId

theorem not_runsOn_activateGeneric : ¬ (e.activateGeneric host w fp).RunsOn fp driverId := by
  obtain ⟨d',hd',-,hstate,-⟩ : ∃ d, (e.activateGeneric host w fp).deviceOf fp = some d ∧ _ :=
    activateGeneric_spec.2
  rintro ⟨d,hd,hactive,-⟩
  obtain rfl := Option.some.inj (hd'.symm.trans hd)
  simp [hactive] at hstate

/-- Without the network a device comes up on a driver exactly if the index leads to it, it is
cached and it starts. -/
theorem provision_offline_iff (hnet : w.findDriver fp = .error err) :
    (e.provision host key w fp).1.RunsOn fp driverId ↔
      e.store.index.entries.lookup (key fp) = some driverId ∧
        ∃ manifest wasm, e.Cached host driverId manifest wasm ∧
          w.start driverId manifest wasm = .ok () := by
  have hstore : ((e.setState fp .downloading).setProgress fp 5).store = e.store := rfl
  unfold provision provisionDedicated Cached
  rw [hstore]
  cases e.store.index.entries.lookup (key fp) with
  | none => simp [fetchDriver,hnet,not_runsOn_activateGeneric]
  | some d =>
    dsimp only
    cases hm : e.store.loadManifest host d with
    | none =>
      simp only [fetchDriver,hnet,not_runsOn_activateGeneric,false_iff]
      rintro ⟨⟨⟩,manifest,wasm,⟨hm',-⟩,-⟩
      simp [hm] at hm'
    | some manifest =>
      dsimp only
      cases hw : e.store.usableWasm host d manifest with
      | none =>
        simp only [fetchDriver,hnet,not_runsOn_activateGeneric,false_iff]
        rintro ⟨⟨⟩,manifest,wasm,⟨hm',hw'⟩,-⟩
        simp_all
      | some wasm =>
        dsimp only [activate]
        cases hs : w.start d manifest wasm with
        | error err =>
          simp only [not_runsOn_activateGeneric,false_iff]
          rintro ⟨⟨⟩,manifest,wasm,⟨hm',hw'⟩,hs'⟩
          simp_all
        | ok =>
          simp only [RunsOn,deviceOf_upsertDevice,if_true,Option.some.injEq,exists_eq_left']
          exact ⟨fun h => h.2 ▸ ⟨rfl,manifest,wasm,⟨hm,hw⟩,hs⟩,fun h => ⟨trivial,h.1⟩⟩

/-- Once removed, whatever else was done that left the driver in the store, a device comes up on it
offline exactly if the index leads to it again. -/
theorem replug_iff {ops : List (Op φ)} (hcached : e.Cached host driverId manifest wasm)
    (hrun : Transition.exec (step host key) e (.removeDevice fp::ops) = some t)
    (hkept : Transition.EachStep (step host key) (fun s _ t => KeepsFiles host driverId s t) e
      (.removeDevice fp::ops))
    (hnet : w.findDriver fp = .error err) (hstart : w.start driverId manifest wasm = .ok ()) :
    (t.provision host key w fp).1.RunsOn fp driverId ↔
      t.store.index.entries.lookup (key fp) = some driverId := by
  have hall := hkept.always (fun _ _ _ h hk _ => ⟨hk.1.trans h.1,by
    rw [DriverStore.usableWasm,hk.2]
    exact h.2⟩) hcached
  rw [provision_offline_iff hnet,and_iff_left]
  exact ⟨manifest,wasm,hall.last hrun,hstart⟩

/-! ### The index after a removal -/

/-- Nothing leads from the key to a driver. -/
def Unindexed (k : String) (e : AutohalEngine φ δ) : Prop :=
  e.store.index.entries.lookup k = none

/-- The step does not fetch a driver for the key. -/
def FetchesNone (key : φ → String) (k : String) : Op φ → Prop
  | .provision w fp => key fp = k → ∃ err, w.findDriver fp = .error err
  | _ => True

section
variable {k : String}

@[simp] theorem activate_store : (e.activate w fp driverId manifest wasm).1.store = e.store := by
  unfold activate
  split
  · rfl
  · exact upsertDevice_store

theorem foldl_activateGeneric_store (fps : List φ) :
    (fps.foldl (fun e fp => e.activateGeneric host w fp) e).store = e.store := by
  induction fps generalizing e with
  | nil => rfl
  | cons fp fps ih => rw [List.foldl_cons,ih,activateGeneric_store]

omit [DecidableEq φ] in
theorem lookup_foldl_erase {entries : Finmap fun _ : String => String} (fps : List φ)
    (h : entries.lookup k = none) :
    (fps.foldl (fun entries fp => entries.erase (key fp)) entries).lookup k = none := by
  induction fps generalizing entries with
  | nil => exact h
  | cons fp fps ih =>
    apply ih
    rw [Finmap.lookup_erase_if,h,ite_self]

section
variable (h : e.Unindexed k)
include h

omit [DecidableEq φ] in
theorem Unindexed.removeDriver :
    (e.store.removeDriver host driverId).1.index.entries.lookup k = none := by
  have hnone : e.store.index.entries.lookup k = none := h
  simp [DriverStore.removeDriver,Finmap.lookup_retain,hnone]

theorem Unindexed.registerDriver (hkey : key fp ≠ k) :
    (e.registerDriver host key w fp manifest wasm).1.Unindexed k := by
  have hsaved : (e.store.saveDriver host (key fp) manifest wasm).1.index.entries.lookup k =
      none := by
    unfold DriverStore.saveDriver
    dsimp only
    split
    · rw [DriverStore.saveIndex_index,Finmap.lookup_insert_of_ne _ hkey.symm]
      exact h
    · exact h
    · exact h
  unfold AutohalEngine.registerDriver
  split
  · next hsave => rwa [hsave] at hsaved
  · next hsave =>
    rw [hsave] at hsaved
    rwa [Unindexed,activate_store]

theorem Unindexed.fetchDriver (hfetch : key fp = k → ∃ err, w.findDriver fp = .error err) :
    (e.fetchDriver host key w fp).1.Unindexed k := by
  have hkey {found : FetchedDriver} (hfound : w.findDriver fp = .ok found) : key fp ≠ k := by
    intro hkey
    obtain ⟨err,herr⟩ := hfetch hkey
    rw [hfound] at herr
    cases herr
  unfold AutohalEngine.fetchDriver
  dsimp only
  split
  · exact h
  · next hfound =>
    split
    · exact h
    · exact registerDriver h (hkey hfound)
  · next hfound =>
    split
    · exact h
    · exact registerDriver h (hkey hfound)

theorem Unindexed.provision (hfetch : key fp = k → ∃ err, w.findDriver fp = .error err) :
    (e.provision host key w fp).1.Unindexed k := by
  have hdedicated : ((e.setState fp .downloading).setProgress fp 5 |>.provisionDedicated
      host key w fp).1.Unindexed k := by
    unfold provisionDedicated
    split
    · exact fetchDriver h hfetch
    · split
      · exact fetchDriver h hfetch
      · split
        · rw [Unindexed,activate_store]
          exact h
        · exact fetchDriver (removeDriver h) hfetch
  unfold AutohalEngine.provision
  split
  · next hok => rwa [hok] at hdedicated
  · next herr =>
    rw [herr] at hdedicated
    rwa [Unindexed,activateGeneric_store]

omit [DecidableEq φ] in
theorem Unindexed.forget : (e.forget key fp).Unindexed k := by
  show (e.store.index.entries.erase (key fp)).lookup k = none
  rw [Finmap.lookup_erase_if,show e.store.index.entries.lookup k = none from h,ite_self]

theorem Unindexed.step {op : Op φ} (hop : FetchesNone key k op)
    (hst : Autohal.step host key e op = some t) : t.Unindexed k := by
  cases op with
  | provision w fp =>
    cases hst
    exact provision h hop
  | removeDevice fp =>
    cases hst
    unfold AutohalEngine.removeDevice
    split
    · exact h
    · rw [Unindexed,DriverStore.saveIndex_index]
      exact forget h
  | recordFailure w driverId =>
    cases hst
    unfold AutohalEngine.recordFailure
    split
    · exact h
    · dsimp only
      rw [rolledBack_eq,Unindexed,foldl_activateGeneric_store,DriverStore.saveIndex_index]
      exact lookup_foldl_erase _ h
  | rollbackToGeneric w fp =>
    cases hst
    unfold AutohalEngine.rollbackToGeneric
    split
    · rw [Unindexed,activateGeneric_store]
      exact forget h
    · rwa [Unindexed,activateGeneric_store]
  | uninstallDriver driverId =>
    cases hst
    unfold AutohalEngine.uninstallDriver
    split
    · exact h
    · exact removeDriver h
  | setCapOverride driverId caps =>
    cases hst
    rw [Unindexed,AutohalEngine.setCapOverride,DriverStore.saveIndex_index]
    exact h

end

/-- Once a device was removed, its fingerprint has no entry in the index until a driver is fetched
for it; without a network it does not come up on any. -/
theorem removed_stays_unindexed (ops : List (Op φ)) (hdevice : e.deviceOf fp ≠ none)
    (hops : Transition.EachStep (Autohal.step host key) (fun _ op _ => FetchesNone key (key fp) op)
      e (.removeDevice fp::ops))
    (hrun : Transition.exec (Autohal.step host key) e (.removeDevice fp::ops) = some t) :
    t.Unindexed (key fp) ∧ ∀ (w : World φ) err driverId, w.findDriver fp = .error err →
      ¬ (t.provision host key w fp).1.RunsOn fp driverId := by
  have hremoved : (e.removeDevice host key fp).Unindexed (key fp) := by
    unfold removeDevice
    split
    · next hnone => exact absurd hnone hdevice
    · rw [Unindexed,DriverStore.saveIndex_index]
      exact Finmap.lookup_erase (key fp) e.store.index.entries
  have hend : t.Unindexed (key fp) :=
    ((hops _ rfl).2.always (fun _ _ _ h hop hst => h.step hop hst) hremoved).last hrun
  refine ⟨hend,fun w err driverId hnet hruns => ?_⟩
  obtain ⟨hindex,-⟩ := (provision_offline_iff hnet).mp hruns
  rw [Unindexed,hindex] at hend
  cases hend

end
end AutohalEngine

/-- The smallest module, and its SHA-256. -/
def uvcModule : List UInt8 := [0x00,0x61,0x73,0x6d,0x01,0x00,0x00,0x00]

def uvcManifest : DriverManifest :=
  { sampleManifest "driver.uvc" with
    hashSha256 := "93a44bbb96c751218e4c00d479e4c14358122a389acca16205b1e4d0dc5f9476" }

def uvcJson : List UInt8 := Utf8.bytes ("\x7b\n  \"id\": \"driver.uvc\",\n  \"name\": \"UVC\",\n" ++
  "  \"version\": \"1.0.0\",\n  \"description\": \"\",\n  \"supported_hardware\": [],\n" ++
  "  \"required_capabilities\": [\n    \"CAP_HW_ACCESS\"\n  ],\n  \"hash_sha256\": \"" ++
  uvcManifest.hashSha256 ++ "\",\n  \"entry_point\": \"_start_driver\",\n" ++
  "  \"source\": \"custom-store\",\n  \"size_bytes\": 8\n\x7d")

/-- A disk in memory, on which the one driver is written and read as JSON. -/
def uvcHost : Host (Location → Option (List UInt8)) where
  perform disk
    | .write (some path) content => (Function.update disk path (some content),.ok ())
    | .removeDirAll (some dir) => (fun path => if dir <+: path then none else disk path,.ok ())
    | _ => (disk,.ok ())
  read disk path := ((path.bind disk).map .ok).getD (.error "No such file or directory")
  fromSlice bytes := if bytes = uvcJson then .ok uvcManifest else .error "invalid manifest"
  toJsonPretty m := if m = uvcManifest then .ok uvcJson else .error "unknown manifest"
  indexJson _ := .ok []
  sha256Hex bytes := String.ofList (TextCodec.chars (TextCodec.encodeHex (Sha256.sha256 bytes).1))
  genericWat := []

def uvcWorld : World String :=
  { sampleWorld with findDriver := fun _ => .ok (.wasm uvcManifest uvcModule) }

def offlineWorld : World String := { sampleWorld with findDriver := fun _ => .error "offline" }

def pluggedEngine : AutohalEngine String (Location → Option (List UInt8)) :=
  (AutohalEngine.provision uvcHost id uvcWorld
    ⟨3,⟨["data","drivers"],⟨∅,∅,∅⟩,fun _ => none⟩,[]⟩ "usb.046d.0825").1

theorem pluggedEngine_cached :
    pluggedEngine.Cached uvcHost "driver.uvc" uvcManifest uvcModule :=
  ⟨by decide +kernel,by decide +kernel⟩

/-- The index leads to the driver again once the device was provisioned over the network. -/
theorem replug_after_fetch : ∃ t,
    Transition.exec (step uvcHost id) pluggedEngine [.removeDevice "usb.046d.0825",
      .provision uvcWorld "usb.046d.0825"] = some t ∧
    (t.provision uvcHost id offlineWorld "usb.046d.0825").1.RunsOn "usb.046d.0825"
      "driver.uvc" := by
  let t := ((pluggedEngine.removeDevice uvcHost id "usb.046d.0825").provision uvcHost id uvcWorld
    "usb.046d.0825").1
  have hrun : Transition.exec (step uvcHost id) pluggedEngine [.removeDevice "usb.046d.0825",
      .provision uvcWorld "usb.046d.0825"] = some t := rfl
  refine ⟨t,hrun,(AutohalEngine.replug_iff pluggedEngine_cached hrun ?_ rfl rfl).mpr
    (by decide +kernel)⟩
  intro _ hremove
  obtain rfl := Option.some.inj hremove
  refine ⟨⟨by decide +kernel,by decide +kernel⟩,fun _ hprovision => ?_⟩
  obtain rfl := Option.some.inj hprovision
  exact ⟨⟨by decide +kernel,by decide +kernel⟩,trivial⟩

/-- A device on a cached driver is removed and plugged in again without a network, and does not get
its driver back. -/
theorem replug_forgets : pluggedEngine.RunsOn "usb.046d.0825" "driver.uvc" ∧
      pluggedEngine.Cached uvcHost "driver.uvc" uvcManifest uvcModule ∧
      ¬ ((pluggedEngine.removeDevice uvcHost id "usb.046d.0825").provision uvcHost id
        offlineWorld "usb.046d.0825").1.RunsOn "usb.046d.0825" "driver.uvc" := by
  have hdevice : (pluggedEngine.deviceOf "usb.046d.0825").map (fun d => (d.state,d.driverId)) =
      some (.active,"driver.uvc") := by decide +kernel
  obtain ⟨d,hd,hfields⟩ := Option.map_eq_some_iff.mp hdevice
  obtain ⟨hstate,hid⟩ := Prod.mk.inj hfields
  refine ⟨⟨d,hd,hstate,hid⟩,pluggedEngine_cached,?_⟩
  exact (AutohalEngine.removed_stays_unindexed [] (by simp [hd]) (fun _ _ => ⟨trivial,trivial⟩)
    rfl).2 offlineWorld "offline" "driver.uvc" rfl

end Aios.Autohal
