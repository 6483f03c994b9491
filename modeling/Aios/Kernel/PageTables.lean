import Aios.Kernel.Memory
import Aios.Lib.StoredTree

/-!
The page tables as a tree in physical memory. A translation is read off the first entry on the path
that refers to no further table.
-/
namespace Aios.Kernel

open StoredTree List

/-- A page-aligned physical address that fits into an entry. -/
abbrev Frame := { f : UInt64 // f &&& pteFrame = f }

abbrev Index := { i : UInt64 // i &&& indexMask = i }

def frameOf (entry : UInt64) : Frame :=
  ⟨entry &&& pteFrame,by rw [UInt64.and_assoc,UInt64.and_self]⟩

def indexAt (addr shift : UInt64) : Index :=
  ⟨(addr >>> shift) &&& indexMask,by rw [UInt64.and_assoc,UInt64.and_self]⟩

/-- The table that an entry refers to. There are no huge pages in the top table, and the entries of
the last one refer to pages. -/
def child : ℕ → UInt64 → Option Frame
  | 0, e => if e &&& ptePresent = 0 then none else some (frameOf e)
  | 1, e | 2, e =>
    if e &&& ptePresent = 0 ∨ e &&& pteHuge ≠ 0 then none else some (frameOf e)
  | _, _ => none

/-- The indices of an address, top table first. -/
def path (addr : UInt64) : List Index :=
  [indexAt addr 39,indexAt addr 30,indexAt addr 21,indexAt addr 12]

/-- The bits of an address inside a page of the given depth. -/
def offsetMask : ℕ → UInt64
  | 1 => 0x3fffffff
  | 2 => 0x1fffff
  | _ => 0xfff

/-- What an entry without a child says about an address. -/
def located (addr : UInt64) : Option (ℕ × UInt64) → Option UInt64
  | none => none
  | some (d,e) =>
    if e &&& ptePresent = 0 then none else some ((e &&& pteFrame) ||| (addr &&& offsetMask d))

theorem Frame.toNat_spec (f : Frame) : f.1.toNat%2^12 = 0 ∧ f.1.toNat < 2^52 := by
  have hlow : f.1 &&& 0xfff = 0 := Bits.and_eq_zero f.2 rfl
  have hhigh : f.1 &&& 0xfffffffffffff = f.1 := by
    rw [← f.2,UInt64.and_assoc]
    rfl
  constructor
  · have hmod : (f.1 &&& 0xfff).toNat = f.1.toNat%2^12 := Bits.toNat_and_mask rfl f.1
    rw [← hmod,hlow]
    rfl
  · rw [← hhigh,Bits.toNat_and_mask (k := 52) rfl]
    exact Nat.mod_lt _ (by decide)

theorem Index.toNat_lt (i : Index) : i.1.toNat < 512 := by
  rw [← i.2,Bits.toNat_and_mask (k := 9) rfl]
  exact Nat.mod_lt _ (by decide)

theorem entryAddr_toNat (f : Frame) (i : Index) : (f.1+i.1*8).toNat = f.1.toNat+i.1.toNat*8 := by
  have hf := f.toNat_spec.2
  have hi := i.toNat_lt
  show (f.1.toNat+i.1.toNat*8%2^64)%2^64 = _
  omega

theorem entryAddr_inj {f g : Frame} {i j : Index} (h : f.1+i.1*8 = g.1+j.1*8) : f = g ∧ i = j := by
  have hval := congrArg UInt64.toNat h
  rw [entryAddr_toNat,entryAddr_toNat] at hval
  have hf := f.toNat_spec.1
  have hg := g.toNat_spec.1
  have hi := i.toNat_lt
  have hj := j.toNat_lt
  constructor
  · exact Subtype.ext (UInt64.toNat_inj.mp (by omega))
  · exact Subtype.ext (UInt64.toNat_inj.mp (by omega))

namespace Memory

def entry (m : Memory) (table : Frame) (index : Index) : UInt64 := m.readEntry table.1 index.1

def root (m : Memory) : Frame := frameOf m.cr3

def tableAt (m : Memory) (p : List Index) : Option Frame := walk child m.entry 0 m.root p

def Unshared (m : Memory) : Prop := StoredTree.Unshared child m.entry m.root

def IsTable (m : Memory) (frame : UInt64) : Prop := ∃ p t, m.tableAt p = some t ∧ t.1 = frame

def leafOf (m : Memory) (addr : UInt64) : Option (ℕ × UInt64) :=
  leaf child m.entry 0 m.root (path addr)

section
variable (m : Memory) (addr : UInt64)

/-- The entries that a walk reads, under the names of the code; each counts only if the one before
refers to a table. -/
def pml4e : UInt64 := m.entry m.root (indexAt addr 39)

def pdpte : UInt64 := m.entry (frameOf (m.pml4e addr)) (indexAt addr 30)

def pde : UInt64 := m.entry (frameOf (m.pdpte addr)) (indexAt addr 21)

def pte : UInt64 := m.entry (frameOf (m.pde addr)) (indexAt addr 12)

theorem leafOf_eq : m.leafOf addr =
      if m.pml4e addr &&& ptePresent = 0 then some (0,m.pml4e addr)
      else if m.pdpte addr &&& ptePresent = 0 ∨ m.pdpte addr &&& pteHuge ≠ 0 then
        some (1,m.pdpte addr)
      else if m.pde addr &&& ptePresent = 0 ∨ m.pde addr &&& pteHuge ≠ 0 then
        some (2,m.pde addr)
      else some (3,m.pte addr) := by
  unfold leafOf path
  split_ifs with h0 h1 h2
  · exact leaf_cons_none (if_pos h0)
  · rw [leaf_cons_some (if_neg h0)]
    exact leaf_cons_none (if_pos h1)
  · rw [leaf_cons_some (if_neg h0),leaf_cons_some (if_neg h1)]
    exact leaf_cons_none (if_pos h2)
  · rw [leaf_cons_some (if_neg h0),leaf_cons_some (if_neg h1),leaf_cons_some (if_neg h2)]
    exact leaf_cons_none rfl

variable {m addr}

theorem tableAt_last (h0 : m.pml4e addr &&& ptePresent ≠ 0)
    (h1 : ¬(m.pdpte addr &&& ptePresent = 0 ∨ m.pdpte addr &&& pteHuge ≠ 0))
    (h2 : ¬(m.pde addr &&& ptePresent = 0 ∨ m.pde addr &&& pteHuge ≠ 0)) :
    m.tableAt [indexAt addr 39,indexAt addr 30,indexAt addr 21] = some (frameOf (m.pde addr)) := by
  have hpdpt : child 0 (m.pml4e addr) = some (frameOf (m.pml4e addr)) := if_neg h0
  have hpd : child 1 (m.pdpte addr) = some (frameOf (m.pdpte addr)) := if_neg h1
  have hpt : child 2 (m.pde addr) = some (frameOf (m.pde addr)) := if_neg h2
  show (child 0 (m.pml4e addr)).bind _ = _
  rw [hpdpt]
  show (child 1 (m.pdpte addr)).bind _ = _
  rw [hpd]
  show (child 2 (m.pde addr)).bind _ = _
  rw [hpt]
  rfl

variable (m addr)

theorem translate_eq : m.translate addr = located addr (m.leafOf addr) := by
  rw [leafOf_eq]
  show (if m.pml4e addr &&& ptePresent = 0 then none
    else if m.pdpte addr &&& ptePresent = 0 then none
    else if m.pdpte addr &&& pteHuge ≠ 0 then
      some ((m.pdpte addr &&& pteFrame) ||| (addr &&& 0x3fffffff))
    else if m.pde addr &&& ptePresent = 0 then none
    else if m.pde addr &&& pteHuge ≠ 0 then
      some ((m.pde addr &&& pteFrame) ||| (addr &&& 0x1fffff))
    else if m.pte addr &&& ptePresent = 0 then none
    else some ((m.pte addr &&& pteFrame) ||| (addr &&& 0xfff))) = _
  split_ifs with h0 h1 h2 h3 h4 h5 <;> simp_all [located,offsetMask]

end

section
variable (m : Memory) (f : Frame) (i : Index) (v : UInt64)

theorem entry_writeEntry : (m.writeEntry f.1 i.1 v).entry = write m.entry f i v := by
  funext g j
  refine if_congr ⟨entryAddr_inj,?_⟩ rfl rfl
  rintro ⟨rfl,rfl⟩
  rfl

def slot (k : ℕ) (h : k < 512) : Index :=
  ⟨UInt64.ofNat k,by
    have hk : (UInt64.ofNat k).toNat = k := UInt64.toNat_ofNat_of_lt' (h.trans (by decide))
    apply UInt64.toNat_inj.mp
    rw [Bits.toNat_and_mask (k := 9) rfl,hk]
    exact Nat.mod_eq_of_lt h⟩

theorem entry_clear_fold (ks : List ℕ) (hks : ∀ k ∈ ks, k < 512) (g : Frame) (j : Index) :
    (ks.foldl (fun m k => m.writeEntry f.1 (UInt64.ofNat k) 0) m).entry g j =
      if g = f ∧ j.1.toNat ∈ ks then 0 else m.entry g j := by
  induction ks generalizing m with
  | nil => rw [foldl_nil,if_neg fun h => not_mem_nil h.2]
  | cons k ks ih =>
    have hk := hks k mem_cons_self
    have hval : (UInt64.ofNat k).toNat = k := UInt64.toNat_ofNat_of_lt' (hk.trans (by decide))
    have hslot : j = slot k hk ↔ j.1.toNat = k := by
      rw [← Subtype.coe_inj,← UInt64.toNat_inj]
      show j.1.toNat = (UInt64.ofNat k).toNat ↔ _
      rw [hval]
    have hwrite : (m.writeEntry f.1 (UInt64.ofNat k) 0).entry =
        write m.entry f (slot k hk) 0 := m.entry_writeEntry f (slot k hk) 0
    rw [foldl_cons,ih _ fun k hk => hks k (mem_cons_of_mem _ hk),hwrite]
    by_cases hg : g = f <;> by_cases hj : j.1.toNat = k <;> simp [write,hslot,hg,hj]

theorem entry_clearTable (g : Frame) (j : Index) :
    (m.clearTable f.1).entry g j = if g = f then 0 else m.entry g j := by
  unfold clearTable
  rw [entry_clear_fold m f _ (fun k hk => mem_range.mp hk)]
  simp only [mem_range,j.toNat_lt,and_true]

end
end Memory
end Aios.Kernel
