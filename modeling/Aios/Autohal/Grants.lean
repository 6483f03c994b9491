import Aios.Autohal.Engine

/-!
Grants follow the overrides of the user. Overrides are kept by driver, capabilities by device, and
an override is carried to one device only.
-/
namespace Aios.Autohal

open Security Keyed Option
variable {φ δ : Type}

def DeviceDriver.Rightful (overrides : Finmap fun _ : String => List Capability)
    (d : DeviceDriver φ) : Prop :=
  match d.state with
  | .active =>
    ∃ m, d.manifest = some m ∧ d.capabilities = grantedCapabilities overrides m d.driverId
  | .generic | .rolledBack | .failed => d.capabilities = []
  | .downloading | .compiling => True

/-- Between two calls no device is on its way. -/
def DeviceDriver.Settled (d : DeviceDriver φ) : Prop :=
  d.manifest.isSome ∧ (d.state = .active ∨ d.state = .generic ∨ d.state = .failed)

def DeviceDriver.Grounded (d : DeviceDriver φ) : Prop :=
  d.manifest.isSome ∧ (d.state = .generic ∨ d.state = .failed) ∧ d.capabilities = []

namespace AutohalEngine

def Lawful (e : AutohalEngine φ δ) : Prop := ∀ d ∈ e.devices, d.Rightful e.overrides

structure Settled (e : AutohalEngine φ δ) : Prop where
  nodup : (e.devices.map (·.fingerprint)).Nodup
  settled : ∀ d ∈ e.devices, d.Settled

/-- The cached driver that the provisioning of a device finds unusable and removes. -/
def staleDriver (host : Host δ) (key : φ → String) (e : AutohalEngine φ δ) (fp : φ) :
    Option String :=
  match e.store.index.entries.lookup (key fp) with
  | none => none
  | some driverId =>
    match e.store.loadManifest host driverId with
    | none => none
    | some manifest =>
      match e.store.usableWasm host driverId manifest with
      | some _ => none
      | none => some driverId

/-- Removing a driver with its override leaves no other active device with more or less than its
manifest asks for. An override finds the first device of the driver active, the others up to
date. -/
def Evenhanded (host : Host δ) (key : φ → String) (e : AutohalEngine φ δ) : Op φ → Prop
  | .provision _ fp =>
    ∀ driverId, e.staleDriver host key fp = some driverId →
      ∀ d ∈ e.devices, d.fingerprint ≠ fp → d.driverId = driverId → d.state = .active →
        d.manifest.map (·.requiredCapabilities) = some d.capabilities
  | .setCapOverride driverId caps =>
    ∀ first, (e.devices.find? fun d => d.driverId = driverId) = some first →
      (first.state = .active ∨ caps = []) ∧
        ∀ d ∈ e.devices, d.fingerprint ≠ first.fingerprint → d.driverId = driverId →
          d.state = .active → d.capabilities = caps
  | _ => True

end AutohalEngine

namespace DeviceDriver

variable {d : DeviceDriver φ} {ov ov' : Finmap fun _ : String => List Capability}
  {driverId : String} {caps : List Capability}

theorem Grounded.settled (h : d.Grounded) : d.Settled := ⟨h.1,.inr h.2.1⟩

theorem Grounded.rightful (h : d.Grounded) : d.Rightful ov := by
  obtain ⟨-,hstate | hstate,hcaps⟩ := h <;> simpa [Rightful,hstate] using hcaps

theorem Rightful.congr (h : d.Rightful ov) (hov : ov'.lookup d.driverId = ov.lookup d.driverId) :
    d.Rightful ov' := by
  unfold Rightful grantedCapabilities at h ⊢
  rwa [hov]

theorem Rightful.iff_active (h : d.Rightful ov) : d.Rightful ov' ↔ (d.state = .active →
    ∃ m, d.manifest = some m ∧ d.capabilities = grantedCapabilities ov' m d.driverId) := by
  unfold Rightful at h ⊢
  cases hs : d.state <;> simp_all

theorem rightful_erase_iff (h : d.Rightful ov) : d.Rightful (ov.erase driverId) ↔
    (d.driverId = driverId → d.state = .active →
      d.manifest.map (·.requiredCapabilities) = some d.capabilities) := by
  by_cases hid : d.driverId = driverId
  · subst hid
    rw [h.iff_active]
    simp [grantedCapabilities,eq_comm (b := d.capabilities)]
  · exact iff_of_true (h.congr (Finmap.lookup_erase_ne hid)) fun hyes => absurd hyes hid

theorem rightful_insert_iff (h : d.Rightful ov) : d.Rightful (ov.insert driverId caps) ↔
    (d.driverId = driverId → d.state = .active → d.capabilities = caps) := by
  by_cases hid : d.driverId = driverId
  · subst hid
    have hm : d.state = .active → ∃ m, d.manifest = some m :=
      fun hs => (h.iff_active.mp h hs).imp fun _ => And.left
    rw [h.iff_active]
    simp only [grantedCapabilities,forall_const]
    exact forall_congr' fun hs => by simp [hm hs]
  · exact iff_of_true (h.congr (Finmap.lookup_insert_of_ne _ hid)) fun hyes => absurd hyes hid

end DeviceDriver

namespace AutohalEngine

variable {host : Host δ} {key : φ → String} {w : World φ} {e e' : AutohalEngine φ δ} {fp : φ}
  {driverId : String} {ov : Finmap fun _ : String => List Capability}
  {r : AutohalEngine φ δ × Except EngineError Unit} {manifest : DriverManifest} {bytes : List UInt8}
  {caps : List Capability}

/-! ### The operations that cannot break it -/

/-- Every device was put on the fallback, or was there before under the same override. -/
structure Kept (e e' : AutohalEngine φ δ) : Prop where
  nodup : (e'.devices.map (·.fingerprint)).Nodup
  each : ∀ d ∈ e'.devices, d.Grounded ∨ ∃ d₀ ∈ e.devices, ∃ failures, d = { d₀ with failures } ∧
    e'.overrides.lookup d₀.driverId = e.overrides.lookup d₀.driverId

theorem Kept.settled (h : Kept e e') (hs : e.Settled) : e'.Settled := by
  refine ⟨h.nodup,fun d hd => ?_⟩
  rcases h.each d hd with hg | ⟨d₀,hd₀,failures,rfl,-⟩
  exacts [hg.settled,hs.settled d₀ hd₀]

theorem Kept.lawful (h : Kept e e') (hl : e.Lawful) : e'.Lawful := by
  intro d hd
  rcases h.each d hd with hg | ⟨d₀,hd₀,failures,rfl,hov⟩
  exacts [hg.rightful,(hl d₀ hd₀).congr hov]

theorem kept_filter {p : DeviceDriver φ → Bool} (hs : e.Settled)
    (hdevices : e'.devices = e.devices.filter p)
    (hov : ∀ d, p d → e'.overrides.lookup d.driverId = e.overrides.lookup d.driverId) :
    Kept e e' := by
  refine ⟨?_,fun d hd => ?_⟩
  · rw [hdevices]
    exact hs.nodup.sublist (List.filter_sublist.map _)
  · rw [hdevices,List.mem_filter] at hd
    exact .inr ⟨d,hd.1,d.failures,rfl,hov d hd.2⟩

theorem uninstallDriver_kept (hs : e.Settled) : Kept e (e.uninstallDriver host driverId).1 := by
  unfold uninstallDriver
  split
  · exact kept_filter (p := fun _ => true) hs (by simp) fun _ _ => rfl
  · refine kept_filter hs rfl fun d hd => ?_
    simp only [overrides,DriverStore.removeDriver_capOverrides]
    exact Finmap.lookup_erase_ne (by simpa using hd)

theorem setCapOverride_overrides :
    (e.setCapOverride host driverId caps).overrides = e.overrides.insert driverId caps := by
  simp [setCapOverride,overrides]

theorem setCapOverride_of_none (h : (e.devices.find? fun d => d.driverId = driverId) = none) :
    (e.setCapOverride host driverId caps).devices = e.devices :=
  updateFirst_eq_self h

variable [DecidableEq φ]

theorem removeDevice_kept (hs : e.Settled) : Kept e (e.removeDevice host key fp) := by
  unfold removeDevice
  split
  · exact kept_filter (p := fun _ => true) hs (by simp) fun _ _ => rfl
  · exact kept_filter hs rfl fun _ _ => by simp [overrides,forget]

theorem kept_local (hs : e.Settled) (hlocal : Local fp e e') (hov : e'.overrides = e.overrides)
    (hfp : ∃ d, e'.deviceOf fp = some d ∧ d.Grounded) : Kept e e' := by
  obtain ⟨d',hd',hg⟩ := hfp
  refine ⟨hlocal.nodup hs.nodup,(hlocal.forall_mem hs.nodup).mpr ⟨fun d hd => .inl ?_,?_⟩⟩
  · rw [hd',some.injEq] at hd
    exact hd ▸ hg
  · exact fun d hd _ => .inr ⟨d,hd,d.failures,rfl,by rw [hov]⟩

theorem rollbackToGeneric_kept (hs : e.Settled) : Kept e (e.rollbackToGeneric host key w fp) := by
  unfold rollbackToGeneric
  split
  · exact kept_local hs ((local_store _).trans activateGeneric_spec.1) (by simp [overrides,forget])
      activateGeneric_spec.2
  · exact kept_local hs activateGeneric_spec.1 (by simp [overrides]) activateGeneric_spec.2

/-- Each device of the list is put on the fallback. -/
theorem foldl_activateGeneric_spec (host : Host δ) (w : World φ) (fps : List φ)
    (e : AutohalEngine φ δ) :
    let e' := fps.foldl (fun e fp => e.activateGeneric host w fp) e
    e'.overrides = e.overrides ∧
      ((e.devices.map (·.fingerprint)).Nodup → (e'.devices.map (·.fingerprint)).Nodup) ∧
      ∀ fp d, e'.deviceOf fp = some d → d.Grounded ∨ fp ∉ fps ∧ e.deviceOf fp = some d := by
  induction fps generalizing e with
  | nil => exact ⟨rfl,fun hn => hn,fun fp d hd => .inr ⟨List.not_mem_nil,hd⟩⟩
  | cons fp fps ih =>
    obtain ⟨hov,hnodup,heach⟩ := ih (e.activateGeneric host w fp)
    have hlocal : Local fp e (e.activateGeneric host w fp) := activateGeneric_spec.1
    obtain ⟨d',hd',hg⟩ : ∃ d, (e.activateGeneric host w fp).deviceOf fp = some d ∧ d.Grounded :=
      activateGeneric_spec.2
    refine ⟨hov.trans (by simp [overrides]),fun hn => hnodup (hlocal.nodup hn),fun fp' d hd => ?_⟩
    rcases heach fp' d hd with hground | ⟨hnot,hd⟩
    · exact .inl hground
    · by_cases hfp : fp' = fp
      · rw [hfp,hd',some.injEq] at hd
        exact .inl (hd ▸ hg)
      · exact .inr ⟨by simp [hfp,hnot],(hlocal.others fp' hfp).symm.trans hd⟩

theorem kept_foldl {f : DeviceDriver φ → DeviceDriver φ} {fps : List φ} {store : DriverStore δ}
    (hs : e.Settled) (hov : store.index.capOverrides = e.overrides)
    (hf : ∀ d, (f d).fingerprint = d.fingerprint)
    (hkeep : ∀ d ∈ e.devices, d.fingerprint ∉ fps → ∃ failures, f d = { d with failures }) :
    Kept e (fps.foldl (fun e fp => e.activateGeneric host w fp)
      { e with devices := e.devices.map f, store }) := by
  obtain ⟨hov',hnodup,heach⟩ := foldl_activateGeneric_spec host w fps
    { e with devices := e.devices.map f, store }
  have hnodup := hnodup (by simpa [Function.comp_def,hf] using hs.nodup)
  refine ⟨hnodup,fun d hd => ?_⟩
  rcases heach _ d ((entry_eq_some hnodup).mpr ⟨hd,rfl⟩) with hground | ⟨hnot,hentry⟩
  · exact .inl hground
  · obtain ⟨d₀,hd₀,rfl⟩ := map_eq_some_iff.mp ((entry_map hf).symm.trans hentry)
    have hmem := (mem_of_entry hd₀).1
    obtain ⟨failures,hfd⟩ := hkeep d₀ hmem (by rwa [hf] at hnot)
    exact .inr ⟨d₀,hmem,failures,hfd,by rw [hov',← hov]; rfl⟩

theorem rolledBack_eq (fps : List φ) (e : AutohalEngine φ δ) : (if fps = [] then (e,none)
      else (fps.foldl (fun e fp => e.activateGeneric host w fp) e,some driverId)).1 =
      fps.foldl (fun e fp => e.activateGeneric host w fp) e := by
  split
  · simp [*]
  · rfl

theorem recordFailure_kept (hs : e.Settled) : Kept e (e.recordFailure host key w driverId).1 := by
  unfold recordFailure
  split
  · exact kept_filter (p := fun _ => true) hs (by simp) fun _ _ => rfl
  · rw [rolledBack_eq]
    refine kept_foldl hs (by simp [overrides,DriverIndex.bumpFailure])
      (fun d => by split <;> rfl) fun d hd hnot => ?_
    split
    case isTrue hid =>
      by_cases hover : max e.maxConsecutiveFailures 1 ≤ (e.store.index.bumpFailure driverId).2
      · rw [if_pos hover] at hnot
        exact absurd (List.mem_map_of_mem (List.mem_filter.mpr ⟨hd,by simpa using hid⟩)) hnot
      · exact ⟨_,by rw [if_neg hover]⟩
    case isFalse => exact ⟨d.failures,rfl⟩

/-! ### Provisioning -/

/-- A part of the provisioning of one device. If it succeeds, the device has a driver of its own and
what the overrides give. -/
structure Handles (fp : φ) (ov : Finmap fun _ : String => List Capability)
    (e : AutohalEngine φ δ) (r : AutohalEngine φ δ × Except EngineError Unit) : Prop where
  others : Local fp e r.1
  overrides : r.1.overrides = ov
  granted : r.2 = .ok () → ∃ d, r.1.deviceOf fp = some d ∧ d.Settled ∧ d.Rightful ov

theorem Handles.of_local (h : Local fp e e') (h' : Handles fp ov e' r) : Handles fp ov e r :=
  ⟨h.trans h'.others,h'.overrides,h'.granted⟩

theorem handles_error {err : EngineError} (h : Local fp e e') (hov : e'.overrides = ov) :
    Handles fp ov e (e',.error err) :=
  ⟨h,hov,fun hok => by cases hok⟩

theorem activate_handles (hov : e.overrides = ov) :
    Handles fp ov e (e.activate w fp driverId manifest bytes) := by
  subst hov
  unfold activate
  split
  · exact handles_error (local_of_devices rfl) rfl
  · refine ⟨local_upsertDevice,by simp [AutohalEngine.overrides],fun _ => ?_⟩
    exact ⟨_,deviceOf_upsertDevice.trans (if_pos rfl),⟨rfl,.inl rfl⟩,manifest,rfl,rfl⟩

theorem registerDriver_handles (hov : e.overrides = ov) :
    Handles fp ov e (e.registerDriver host key w fp manifest bytes) := by
  have hsave : (e.store.saveDriver host (key fp) manifest bytes).1.index.capOverrides = ov := by
    rw [DriverStore.saveDriver_capOverrides,← hov,AutohalEngine.overrides]
  unfold registerDriver
  split
  case _ store err heq =>
    rw [heq] at hsave
    exact handles_error (local_of_devices rfl) hsave
  case _ store heq =>
    rw [heq] at hsave
    exact .of_local ((local_store store).trans (local_setProgress 90)) (activate_handles hsave)

theorem fetchDriver_handles (hov : e.overrides = ov) :
    Handles fp ov e (e.fetchDriver host key w fp) := by
  unfold fetchDriver
  refine .of_local (local_setProgress 20) ?_
  split
  · exact handles_error (local_of_devices rfl) hov
  · refine .of_local (local_setProgress 50) ?_
    split
    · exact handles_error (local_of_devices rfl) hov
    · exact registerDriver_handles hov
  · refine .of_local ((local_setState .compiling).trans (local_setProgress 55)) ?_
    split
    · exact handles_error (local_of_devices rfl) hov
    · exact .of_local (local_setProgress 75) (registerDriver_handles hov)

/-- The overrides once a stale driver is gone. -/
def overridesAfter (host : Host δ) (key : φ → String) (e : AutohalEngine φ δ) (fp : φ) :
    Finmap fun _ : String => List Capability :=
  match e.staleDriver host key fp with
  | none => e.overrides
  | some driverId => e.overrides.erase driverId

theorem provisionDedicated_handles (e : AutohalEngine φ δ) :
    Handles fp (e.overridesAfter host key fp) e (e.provisionDedicated host key w fp) := by
  unfold provisionDedicated overridesAfter staleDriver
  cases e.store.index.entries.lookup (key fp) with
  | none => exact fetchDriver_handles rfl
  | some driverId =>
    dsimp only
    cases e.store.loadManifest host driverId with
    | none => exact fetchDriver_handles rfl
    | some manifest =>
      dsimp only
      cases e.store.usableWasm host driverId manifest with
      | some wasm => exact .of_local (local_setProgress 30) (activate_handles rfl)
      | none =>
        refine .of_local (local_store (e.store.removeDriver host driverId).1) ?_
        exact fetchDriver_handles DriverStore.removeDriver_capOverrides

variable (host key w e fp) in
theorem provision_spec : Local fp e (e.provision host key w fp).1 ∧
    (e.provision host key w fp).1.overrides = e.overridesAfter host key fp ∧
    ∃ d, (e.provision host key w fp).1.deviceOf fp = some d ∧ d.Settled ∧
      d.Rightful (e.overridesAfter host key fp) := by
  have h : Handles fp (e.overridesAfter host key fp) e
      (((e.setState fp .downloading).setProgress fp 5).provisionDedicated host key w fp) :=
    .of_local ((local_setState _).trans (local_setProgress _)) (provisionDedicated_handles
      ((e.setState fp .downloading).setProgress fp 5) :)
  unfold provision
  split
  case _ e' heq =>
    rw [heq] at h
    exact ⟨h.others,h.overrides,h.granted rfl⟩
  case _ e' err heq =>
    rw [heq] at h
    obtain ⟨d,hd,hg⟩ : ∃ d, (e'.activateGeneric host w fp).deviceOf fp = some d ∧ d.Grounded :=
      activateGeneric_spec.2
    refine ⟨h.others.trans activateGeneric_spec.1,?_,d,hd,hg.settled,hg.rightful⟩
    rw [← h.overrides,AutohalEngine.overrides,activateGeneric_store]
    rfl

section
variable (hlocal : Local fp e e') (hs : e.Settled) {d' : DeviceDriver φ}
  (hd' : e'.deviceOf fp = some d')
include hlocal hs hd'

theorem Local.settled (hset : d'.Settled) : e'.Settled := by
  refine ⟨hlocal.nodup hs.nodup,(hlocal.forall_mem hs.nodup).mpr ⟨fun d hd => ?_,?_⟩⟩
  · exact some.inj (hd'.symm.trans hd) ▸ hset
  · exact fun d hd _ => hs.settled d hd

theorem Local.lawful_iff (hov : e'.overrides = ov) : e'.Lawful ↔
      d'.Rightful ov ∧ ∀ d ∈ e.devices, d.fingerprint ≠ fp → d.Rightful ov := by
  rw [Lawful,hov,hlocal.forall_mem hs.nodup,hd']
  simp only [some.injEq,forall_eq']

end

theorem provision_settled (hs : e.Settled) : (e.provision host key w fp).1.Settled := by
  obtain ⟨hlocal,-,d',hd',hset,-⟩ := provision_spec host key w e fp
  exact hlocal.settled hs hd' hset

theorem provision_lawful_iff (hs : e.Settled) (hl : e.Lawful) :
    (e.provision host key w fp).1.Lawful ↔ Evenhanded host key e (.provision w fp) := by
  obtain ⟨hlocal,hov,d',hd',-,hright⟩ := provision_spec host key w e fp
  rw [hlocal.lawful_iff hs hd' hov,and_iff_right hright,overridesAfter]
  cases hstale : e.staleDriver host key fp with
  | none => exact iff_of_true (fun d hd _ => hl d hd) (by simp [Evenhanded,hstale])
  | some driverId =>
    simp only [Evenhanded,hstale,some.injEq,forall_eq']
    exact forall₃_congr fun d hd _ => DeviceDriver.rightful_erase_iff (hl d hd)

/-! ### Overrides -/

section
variable {first : DeviceDriver φ}

theorem setCapOverride_spec (hs : e.Settled)
    (h : (e.devices.find? fun d => d.driverId = driverId) = some first) :
    Local first.fingerprint e (e.setCapOverride host driverId caps) ∧
      (e.setCapOverride host driverId caps).deviceOf first.fingerprint =
        some { first with capabilities := caps } := by
  have hmem := List.mem_of_find?_eq_some h
  have hfirst : e.deviceOf first.fingerprint = some first := (entry_eq_some hs.nodup).mpr ⟨hmem,rfl⟩
  obtain ⟨m,hm⟩ := isSome_iff_exists.mp (hs.settled first hmem).1
  have hdevices : (e.setCapOverride host driverId caps).devices =
      (e.update first.fingerprint fun d => { d with capabilities := caps }).devices := by
    simp only [setCapOverride,h,bind_some,hm,grantedCapabilities,Finmap.lookup_insert]
    exact updateFirst_eq_update hs.nodup h
  refine ⟨.trans (local_update ?_) (local_of_devices hdevices),?_⟩
  · exact fun _ => rfl
  · rw [deviceOf,hdevices,← deviceOf,deviceOf_update,if_pos rfl,hfirst]
    · rfl
    · exact fun _ => rfl

theorem setCapOverride_settled (hs : e.Settled) :
    (e.setCapOverride host driverId caps).Settled := by
  cases hfirst : e.devices.find? fun d => d.driverId = driverId with
  | none =>
    have hsame : (e.setCapOverride host driverId caps).devices = e.devices :=
      setCapOverride_of_none hfirst
    exact ⟨hsame ▸ hs.nodup,hsame ▸ hs.settled⟩
  | some first =>
    have hset := hs.settled first (List.mem_of_find?_eq_some hfirst)
    exact (setCapOverride_spec hs hfirst).1.settled hs (setCapOverride_spec hs hfirst).2 hset

theorem setCapOverride_lawful_iff (hs : e.Settled) (hl : e.Lawful) :
    (e.setCapOverride host driverId caps).Lawful ↔
      Evenhanded host key e (.setCapOverride driverId caps) := by
  have hrest : ∀ d ∈ e.devices, d.Rightful (e.overrides.insert driverId caps) ↔
      (d.driverId = driverId → d.state = .active → d.capabilities = caps) :=
    fun d hd => DeviceDriver.rightful_insert_iff (hl d hd)
  cases hfirst : e.devices.find? fun d => d.driverId = driverId with
  | none =>
    refine iff_of_true ?_ (by simp [Evenhanded,hfirst])
    rw [Lawful,setCapOverride_overrides,setCapOverride_of_none hfirst]
    exact fun d hd => (hrest d hd).mpr fun hid _ =>
      absurd hid (by simpa using List.find?_eq_none.mp hfirst d hd)
  | some first =>
    rw [(setCapOverride_spec hs hfirst).1.lawful_iff hs (setCapOverride_spec hs hfirst).2
      setCapOverride_overrides]
    simp only [Evenhanded,hfirst,some.injEq,forall_eq']
    refine and_congr ?_ (forall₃_congr fun d hd _ => hrest d hd)
    obtain ⟨hm,hstate⟩ := hs.settled first (List.mem_of_find?_eq_some hfirst)
    obtain ⟨m,hm⟩ := isSome_iff_exists.mp hm
    obtain rfl : first.driverId = driverId := by simpa using List.find?_some hfirst
    rcases hstate with h | h | h <;> simp [DeviceDriver.Rightful,grantedCapabilities,h,hm]

end

/-! ### Whole runs -/

theorem step_settled {op : Op φ} (hs : e.Settled) (h : step host key e op = some e') :
    e'.Settled := by
  cases op <;> cases h
  · exact provision_settled hs
  · exact (removeDevice_kept hs).settled hs
  · exact (recordFailure_kept hs).settled hs
  · exact (rollbackToGeneric_kept hs).settled hs
  · exact (uninstallDriver_kept hs).settled hs
  · exact setCapOverride_settled hs

theorem step_lawful_iff {op : Op φ} (hs : e.Settled) (hl : e.Lawful)
    (h : step host key e op = some e') : e'.Lawful ↔ Evenhanded host key e op := by
  cases op <;> cases h
  · exact provision_lawful_iff hs hl
  · exact iff_of_true ((removeDevice_kept hs).lawful hl) trivial
  · exact iff_of_true ((recordFailure_kept hs).lawful hl) trivial
  · exact iff_of_true ((rollbackToGeneric_kept hs).lawful hl) trivial
  · exact iff_of_true ((uninstallDriver_kept hs).lawful hl) trivial
  · exact setCapOverride_lawful_iff hs hl

/-- From a new engine, the grants follow the overrides throughout a run exactly if every operation
in it is even-handed. -/
theorem grants_follow_overrides_iff (host : Host δ) (key : φ → String) (failures : UInt32)
    (store : DriverStore δ) (ops : List (Op φ)) :
    Transition.Always (step host key) Lawful ⟨failures,store,[]⟩ ops ↔
      Transition.EachStep (step host key) (fun e op _ => Evenhanded host key e op)
        ⟨failures,store,[]⟩ ops :=
  Transition.always_iff_eachStep (J := Settled) (fun _ _ _ => step_settled)
    (fun _ _ _ => step_lawful_iff) ⟨by simp,by simp⟩ (by simp [Lawful]) ops

end AutohalEngine

/-- A disk on which nothing fails and nothing can be read. -/
def sampleHost : Host Unit where
  perform _ _ := ((),.ok ())
  read _ _ := .error "No such file or directory"
  fromSlice _ := .error ""
  toJsonPretty _ := .ok []
  indexJson _ := .ok []
  sha256Hex _ := ""
  genericWat := []

def sampleEngine : AutohalEngine String Unit :=
  ⟨3,⟨["data","drivers"],⟨∅,∅,∅⟩,()⟩,[]⟩

/-- Every device is served by the same driver. -/
def sampleWorld : World String where
  findDriver _ := .ok (.wasm (sampleManifest "driver.uvc") [])
  compile _ _ := .ok []
  start _ _ _ := .ok ()
  startGeneric _ := .ok ()

/-- Two devices on one driver. The user takes all its capabilities away, and the second device keeps
them. -/
theorem revoked_capability_kept :
    ¬ Transition.Always (step sampleHost id) AutohalEngine.Lawful sampleEngine
      [.provision sampleWorld "usb.046d.0825",.provision sampleWorld "usb.046d.0826",
        .setCapOverride "driver.uvc" []] := by
  intro h
  have hlast := ((h.2 _ rfl).2 _ rfl).2 _ rfl
  obtain ⟨_,⟨⟩,hcaps⟩ := hlast ⟨"usb.046d.0826","driver.uvc",some (sampleManifest "driver.uvc"),
    .active,0,100,[.hwAccess],none⟩ (by decide)
  exact absurd hcaps (by decide)

end Aios.Autohal
