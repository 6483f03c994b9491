import Aios.Core.Error
import Aios.Lib.FiniteMap
import Aios.Lib.Transition

/-!
Protection keys and the register that summarises them: of the two bits of a key the lower disables
every access, the upper writing.
-/
namespace Aios.Mpk

open Aios.Core

structure MpkKey where
  index : UInt32
  deriving DecidableEq

def MpkKey.new (index : UInt32) : Except AIOSException MpkKey :=
  if index ≥ 16 then
    .error (.hardwareNotDetected ("MPK index must be 0-15, got " ++ toString index))
  else .ok ⟨index⟩

structure MpkCapability where
  readAllowed : Bool
  writeAllowed : Bool
  executeAllowed : Bool
  deriving DecidableEq

namespace MpkCapability

def readOnly : MpkCapability := ⟨true,false,false⟩
def full : MpkCapability := ⟨true,true,true⟩
def none : MpkCapability := ⟨false,false,false⟩

def disabled (cap : MpkCapability) : Bool :=
  !cap.readAllowed && !cap.writeAllowed && !cap.executeAllowed

end MpkCapability

structure MpkPolicy where
  sourceBlockId : UInt32
  targetKey : UInt32
  capabilities : MpkCapability
  deriving DecidableEq

structure MpkManager where
  supported : Bool
  activeKeys : Finmap fun _ : UInt32 => MpkCapability
  policies : List MpkPolicy
  currentPkru : UInt32

namespace MpkManager

/-- `detect`; whether the processor has the feature changes nothing below. -/
def detect (supported : Bool) : MpkManager :=
  { supported, activeKeys := ∅, policies := [], currentPkru := 0 }

/-- `allocate_key`: the first of the sixteen keys that is not in the table. -/
def allocateKey (m : MpkManager) : Except AIOSException MpkKey × MpkManager :=
  match (List.range 16).find? fun i => (m.activeKeys.lookup (UInt32.ofNat i)).isNone with
  | some i =>
    match MpkKey.new (UInt32.ofNat i) with
    | .ok key => (.ok key,{ m with activeKeys := m.activeKeys.insert (UInt32.ofNat i) .none })
    | .error e => (.error e,m)
  | none => (.error (.hardwareNotDetected "All MPK keys are already allocated"),m)

def notAllocated (key : MpkKey) : AIOSException :=
  .hardwareNotDetected ("Key " ++ toString key.index ++ " is not allocated")

def freeKey (m : MpkManager) (key : MpkKey) : Except AIOSException Unit × MpkManager :=
  match m.activeKeys.lookup key.index with
  | none => (.error (notAllocated key),m)
  | some _ =>
    (.ok (),{ m with
      activeKeys := m.activeKeys.erase key.index
      policies := m.policies.filter fun p => p.targetKey != key.index })

/-- The register with the bits of a key added to it if the key allows nothing. -/
def disable (table : Finmap fun _ : UInt32 => MpkCapability) (pkru keyIdx : UInt32) : UInt32 :=
  match table.lookup keyIdx with
  | some cap => if cap.disabled then pkru ||| 3 <<< (keyIdx*2) else pkru
  | none => pkru

/-- `update_pkru`, with the order in which the table is walked. -/
def updatePkru (m : MpkManager) (order : List UInt32) : MpkManager :=
  { m with currentPkru := order.foldl (disable m.activeKeys) 0 }

def setCapability (m : MpkManager) (order : List UInt32) (key : MpkKey) (cap : MpkCapability) :
    Except AIOSException Unit × MpkManager :=
  match m.activeKeys.lookup key.index with
  | none => (.error (notAllocated key),m)
  | some _ =>
    (.ok (),({ m with activeKeys := m.activeKeys.insert key.index cap }).updatePkru order)

def addPolicy (m : MpkManager) (policy : MpkPolicy) : Except AIOSException Unit × MpkManager :=
  match m.activeKeys.lookup policy.targetKey with
  | none =>
    (.error (.hardwareNotDetected
      ("Target key " ++ toString policy.targetKey ++ " is not allocated")),m)
  | some _ => (.ok (),{ m with policies := m.policies ++ [policy] })

def pkruValue (m : MpkManager) : UInt32 := m.currentPkru

inductive Op where
  | allocateKey
  | freeKey (key : MpkKey)
  | setCapability (key : MpkKey) (cap : MpkCapability) (order : List UInt32)
  | addPolicy (policy : MpkPolicy)
  deriving DecidableEq

/-- One operation. A walk that is not one of the table that `set_capability` leaves has no
successor. -/
def step (m : MpkManager) : Op → Option MpkManager
  | .allocateKey => some m.allocateKey.2
  | .freeKey key => some (m.freeKey key).2
  | .setCapability key cap order =>
    let after := (m.setCapability order key cap).2
    if Finmap.Enumerates order after.activeKeys then some after else none
  | .addPolicy policy => some (m.addPolicy policy).2

def bit (pkru : UInt32) (i : ℕ) : Bool := pkru.toNat.testBit i

def accessDisabled (m : MpkManager) (k : UInt32) : Bool := bit m.pkruValue (2*k.toNat)

def writeDisabled (m : MpkManager) (k : UInt32) : Bool := bit m.pkruValue (2*k.toNat+1)

/-- The register forbids what the capability of an allocated key does not allow. -/
def Forbids (m : MpkManager) (k : UInt32) (cap : MpkCapability) : Prop :=
  (cap.writeAllowed = false → m.writeDisabled k = true ∨ m.accessDisabled k = true) ∧
    (cap.disabled = true → m.accessDisabled k = true)

def Law (m : MpkManager) : Prop :=
  ∀ k cap, m.activeKeys.lookup k = some cap → m.Forbids k cap

variable {m : MpkManager}

/-- No key was ever allocated. -/
def Untouched (m : MpkManager) : Prop := m.activeKeys = ∅ ∧ m.currentPkru = 0

theorem Untouched.law (h : Untouched m) : Law m := by
  intro k cap hk
  rw [h.1] at hk
  cases hk

theorem Untouched.step {m' : MpkManager} {op : Op} (h : Untouched m) (hop : op ≠ .allocateKey)
    (hstep : m.step op = some m') : Untouched m' := by
  have hempty : ∀ k, m.activeKeys.lookup k = none := by
    intro k
    rw [h.1]
    rfl
  cases op with
  | allocateKey => exact absurd rfl hop
  | freeKey key =>
    simp only [MpkManager.step,freeKey,hempty] at hstep
    cases hstep
    exact h
  | setCapability key cap order =>
    simp only [MpkManager.step,setCapability,hempty] at hstep
    split at hstep
    · cases hstep
      exact h
    · cases hstep
  | addPolicy policy =>
    simp only [MpkManager.step,addPolicy,hempty] at hstep
    cases hstep
    exact h

/-- The first key is given out with no access, while the register is left as it was. -/
theorem Untouched.not_law_allocateKey (h : Untouched m) : ¬Law m.allocateKey.2 := by
  have hfirst : m.allocateKey.2 =
      { m with activeKeys := m.activeKeys.insert 0 MpkCapability.none } := by
    unfold MpkManager.allocateKey
    rw [h.1]
    rfl
  rw [hfirst]
  intro hlaw
  obtain ⟨-,hnone⟩ := hlaw 0 MpkCapability.none (Finmap.lookup_insert m.activeKeys)
  have hbit := hnone rfl
  rw [accessDisabled,pkruValue,h.2] at hbit
  cases hbit

theorem Untouched.always_law_iff (h : Untouched m) (ops : List Op) :
    Transition.Always MpkManager.step Law m ops ↔
      Transition.EachStep MpkManager.step (fun _ op _ => op ≠ .allocateKey) m ops := by
  induction ops generalizing m with
  | nil => exact ⟨fun _ => trivial,fun _ => h.law⟩
  | cons op ops ih =>
    by_cases hop : op = .allocateKey
    · subst hop
      constructor
      · intro halways
        exact absurd (halways.2 _ rfl).head h.not_law_allocateKey
      · intro heach
        exact absurd rfl (heach _ rfl).1
    · constructor
      · intro halways m' hstep
        exact ⟨hop,(ih (h.step hop hstep)).mp (halways.2 m' hstep)⟩
      · intro heach
        exact ⟨h.law,fun m' hstep => (ih (h.step hop hstep)).mpr (heach m' hstep).2⟩

/-- The register forbids what the capabilities do after every operation of a run exactly when the
run allocates no key. -/
theorem always_law_iff_no_allocation (supported : Bool) (ops : List Op) :
    Transition.Always step Law (detect supported) ops ↔
      Transition.EachStep step (fun _ op _ => op ≠ .allocateKey) (detect supported) ops :=
  Untouched.always_law_iff ⟨rfl,rfl⟩ ops

/-! ### What the register is set to -/

section
variable {table : Finmap fun _ : UInt32 => MpkCapability} {order : List UInt32} {i : ℕ}

/-- The two bits of a key. -/
theorem bit_shift {k : UInt32} (hk : k.toNat < 16) (hi : i < 32) :
    bit (3 <<< (k*2)) i = decide (k.toNat = i/2) := by
  have hall : ∀ k < 16, ∀ i < 32, bit (3 <<< (UInt32.ofNat k*2)) i = decide (k = i/2) := by
    decide +kernel
  simpa using hall k.toNat hk i hi

theorem bit_disable (pkru : UInt32) {k : UInt32} (hk : k.toNat < 16) (hi : i < 32) :
    bit (disable table pkru k) i = true ↔ bit pkru i = true ∨
      k.toNat = i/2 ∧ ∃ cap, table.lookup k = some cap ∧ cap.disabled = true := by
  have hor (a b : UInt32) : bit (a ||| b) i = (bit a i || bit b i) := by
    rw [bit,UInt32.toNat_or,Nat.testBit_or,bit,bit]
  unfold disable
  split
  · next cap hcap =>
    split
    · next hdisabled => simp [hor,bit_shift hk hi,hcap,hdisabled]
    · next henabled => simp [hcap,henabled]
  · next hnone => simp [hnone]

/-- A bit is set by the key that it belongs to. -/
theorem bit_foldl (hkeys : ∀ k ∈ order, k.toNat < 16) (hi : i < 32) (pkru : UInt32) :
    bit (order.foldl (disable table) pkru) i = true ↔ bit pkru i = true ∨
      ∃ k ∈ order, k.toNat = i/2 ∧ ∃ cap, table.lookup k = some cap ∧ cap.disabled = true := by
  induction order generalizing pkru with
  | nil => simp
  | cons k order ih =>
    obtain ⟨hk,hrest⟩ := List.forall_mem_cons.mp hkeys
    rw [List.foldl_cons,ih hrest,bit_disable pkru hk hi,or_assoc,List.exists_mem_cons_iff]

end

/-- The keys of the table are among the sixteen of the processor. -/
def Keyed (m : MpkManager) : Prop := ∀ k ∈ m.activeKeys, k.toNat < 16

theorem step_setCapability {m' : MpkManager} {key : MpkKey} {cap : MpkCapability}
    {order : List UInt32} (hstep : m.step (.setCapability key cap order) = some m') :
    m.activeKeys.lookup key.index = none ∧ m' = m ∨
      key.index ∈ m.activeKeys ∧ Finmap.Enumerates order (m.activeKeys.insert key.index cap) ∧
        m' = ({ m with activeKeys := m.activeKeys.insert key.index cap }).updatePkru order := by
  cases hkey : m.activeKeys.lookup key.index with
  | none =>
    simp only [MpkManager.step,setCapability,hkey] at hstep
    exact .inl ⟨rfl,(Option.some.inj (Option.ite_none_right_eq_some.mp hstep).2).symm⟩
  | some _ =>
    simp only [MpkManager.step,setCapability,hkey] at hstep
    obtain ⟨horder,hafter⟩ := Option.ite_none_right_eq_some.mp hstep
    exact .inr ⟨Finmap.lookup_isSome.mp (by rw [hkey]; rfl),horder,(Option.some.inj hafter).symm⟩

theorem Keyed.insert {key : UInt32} {cap : MpkCapability} (h : Keyed m) (hkey : key.toNat < 16) :
    Keyed { m with activeKeys := m.activeKeys.insert key cap } := by
  intro k hk
  rcases Finmap.mem_insert.mp hk with rfl | hk
  · exact hkey
  · exact h k hk

theorem Keyed.step {m' : MpkManager} {op : Op} (h : Keyed m) (hstep : m.step op = some m') :
    Keyed m' := by
  cases op with
  | allocateKey =>
    cases hstep
    unfold allocateKey
    split
    · next i hi =>
      have hlt : i < 16 := List.mem_range.mp (List.mem_of_find?_eq_some hi)
      have hkey : (UInt32.ofNat i).toNat < 16 := by
        rw [UInt32.toNat_ofNat']
        omega
      split
      · exact h.insert hkey
      · exact h
    · exact h
  | freeKey key =>
    cases hstep
    unfold freeKey
    split
    · exact h
    · exact fun k hk => h k (Finmap.mem_erase.mp hk).2
  | setCapability key cap order =>
    rcases step_setCapability hstep with ⟨-,rfl⟩ | ⟨hkey,-,rfl⟩
    · exact h
    · exact h.insert (h _ hkey)
  | addPolicy policy =>
    cases hstep
    unfold addPolicy
    split <;> exact h

/-- The register that `update_pkru` computes obeys the capabilities exactly if every key that must
not be written allows nothing at all. -/
theorem Keyed.updatePkru_law_iff (h : Keyed m) {order : List UInt32}
    (horder : Finmap.Enumerates order m.activeKeys) : (m.updatePkru order).Law ↔
      ∀ k cap, m.activeKeys.lookup k = some cap → cap.writeAllowed = false →
        cap.disabled = true := by
  have hmem := horder.2
  have hbits {k : UInt32} {cap : MpkCapability} (hcap : m.activeKeys.lookup k = some cap) {i : ℕ}
      (hi : i/2 = k.toNat) :
      bit (order.foldl (disable m.activeKeys) 0) i = true ↔ cap.disabled = true := by
    have hk := h k (Finmap.lookup_isSome.mp (by rw [hcap]; rfl))
    rw [bit_foldl (fun k hk => h k ((hmem k).mp hk)) (by omega)]
    constructor
    · rintro (hzero | ⟨j,-,hj,c,hc,hdisabled⟩)
      · simp [bit] at hzero
      · obtain rfl : j = k := UInt32.toNat_inj.mp (hj.trans hi)
        rw [hcap,Option.some.injEq] at hc
        rwa [hc]
    · intro hdisabled
      exact .inr ⟨k,(hmem k).mpr (Finmap.lookup_isSome.mp (by rw [hcap]; rfl)),hi.symm,cap,hcap,
        hdisabled⟩
  constructor
  · intro hlaw k cap hcap hwrite
    rcases (hlaw k cap hcap).1 hwrite with hbit | hbit
    · exact (hbits hcap (by omega)).mp hbit
    · exact (hbits hcap (by omega)).mp hbit
  · intro hall k cap hcap
    refine ⟨fun hwrite => .inr ((hbits hcap (by omega)).mpr (hall k cap hcap hwrite)),
      fun hdisabled => (hbits hcap (by omega)).mpr hdisabled⟩

/-- After `set_capability` in any run, the register is right exactly if no key can be read or
executed and not written. -/
theorem setCapability_law_iff {supported : Bool} {ops : List Op} {m' : MpkManager} {key : MpkKey}
    {cap : MpkCapability} {order : List UInt32}
    (hrun : Transition.exec step (detect supported) ops = some m)
    (hkey : m.activeKeys.lookup key.index ≠ none)
    (hstep : m.step (.setCapability key cap order) = some m') :
    m'.Law ↔ ∀ k c, m'.activeKeys.lookup k = some c → c.writeAllowed = false →
      c.disabled = true := by
  have hkeyed : Keyed m := (Transition.always_of_step (P := Keyed) (fun _ _ _ h hst => h.step hst)
    (fun _ hk => absurd hk Finmap.notMem_empty) ops).last hrun
  rcases step_setCapability hstep with ⟨hnone,-⟩ | ⟨hmem,horder,rfl⟩
  · exact absurd hnone hkey
  · exact Keyed.updatePkru_law_iff (hkeyed.insert (hkeyed _ hmem)) horder

/-- A fresh key, a key that may only be read, and a key that was freed open and is allocated again:
the register is zero in all three. -/
theorem register_allows_forbidden :
    (∃ m, Transition.exec step (detect true) [.allocateKey] = some m ∧
      m.activeKeys.lookup 0 = some .none ∧ m.pkruValue = 0) ∧
    (∃ m, Transition.exec step (detect true)
        [.allocateKey,.setCapability ⟨0⟩ .readOnly [0]] = some m ∧
      m.activeKeys.lookup 0 = some .readOnly ∧ m.pkruValue = 0) ∧
    (∃ m, Transition.exec step (detect true)
        [.allocateKey,.setCapability ⟨0⟩ .full [0],.freeKey ⟨0⟩,.allocateKey] = some m ∧
      m.activeKeys.lookup 0 = some .none ∧ m.pkruValue = 0) ∧
    ¬Transition.Always step Law (detect true) [.allocateKey] := by
  refine ⟨⟨_,rfl,rfl,rfl⟩,⟨_,rfl,rfl,rfl⟩,⟨_,rfl,rfl,rfl⟩,fun h => ?_⟩
  exact absurd (h.2 _ rfl) (Untouched.not_law_allocateKey ⟨rfl,rfl⟩)

end MpkManager
end Aios.Mpk
