import Aios.Kernel.PageTables
import Aios.Kernel.Sock.Slots
import Aios.Lib.CheckedLoop

/-!
Copies between the kernel and user memory. Each byte's virtual address is looked up in the page
tables, which does not tell pages of the user from those of the kernel, nor the addresses at which
the access faults. A fault of the kernel is fatal.
-/
namespace Aios.Kernel

open CheckedLoop Sock

def sysStrCap : ℕ := 64

namespace Memory

/-- The byte at a physical address; words are little-endian. -/
def readByte (m : Memory) (phys : UInt64) : UInt8 :=
  (m.words (phys &&& ~~~7) >>> ((phys &&& 7)*8)).toUInt8

def writeByte (m : Memory) (phys : UInt64) (byte : UInt8) : Memory :=
  { m with words := fun addr =>
      if addr = phys &&& ~~~7 then
        (m.words addr &&& ~~~(0xff <<< ((phys &&& 7)*8))) ||| (byte.toUInt64 <<< ((phys &&& 7)*8))
      else
        m.words addr }

/-- Bits 47 to 63 of the address are equal. -/
def Canonical (addr : UInt64) : Prop := addr < 0x800000000000 ∨ 0xffff800000000000 ≤ addr

instance : DecidablePred Canonical := fun _ => inferInstanceAs (Decidable (_ ∨ _))

/-- The bits of an entry of the given depth that have to be clear. -/
def reserved : ℕ × UInt64 → UInt64
  | (0,e) => e &&& pteHuge
  | (1,e) => if e &&& pteHuge ≠ 0 then e &&& 0x3fffe000 else 0
  | (2,e) => if e &&& pteHuge ≠ 0 then e &&& 0x1fe000 else 0
  | _ => 0

section
variable (m : Memory) (addr : UInt64)

/-- The entries on the way to the page of an address, with their depths. -/
def walked : List (ℕ × UInt64) :=
  (0,m.pml4e addr)::(1,m.pdpte addr)::
    if m.pdpte addr &&& pteHuge ≠ 0 then []
    else
      (2,m.pde addr)::if m.pde addr &&& pteHuge ≠ 0 then [] else [(3,m.pte addr)]

/-- The physical address of an access by the kernel, which faults without one. The processor minds
the flag WRITABLE in ring 0 as well. -/
def access (store : Bool) : Option UInt64 :=
  if Canonical addr ∧ ∀ e ∈ m.walked addr, e.2 &&& ptePresent ≠ 0 ∧ reserved e = 0 ∧
      (store = true → e.2 &&& pteWritable ≠ 0) then
    (m.walked addr).getLast?.map fun e =>
      (e.2 &&& pteFrame &&& ~~~offsetMask e.1) ||| (addr &&& offsetMask e.1)
  else none

/-- The address is mapped, and ring 3 may walk through every level of its tables. -/
def UserMapped : Prop :=
  Canonical addr ∧ ∀ e ∈ m.walked addr, e.2 &&& ptePresent ≠ 0 ∧ e.2 &&& pteUser ≠ 0

instance : Decidable (m.UserMapped addr) := inferInstanceAs (Decidable (_ ∧ _))

variable {m addr}

theorem UserMapped.translate_isSome (h : m.UserMapped addr) : (m.translate addr).isSome := by
  obtain ⟨-,hentries⟩ := h
  unfold walked at hentries
  simp only [List.forall_mem_cons] at hentries
  obtain ⟨⟨h0,-⟩,⟨h1,-⟩,hlower⟩ := hentries
  rw [translate_eq,leafOf_eq,if_neg h0]
  by_cases hhuge1 : m.pdpte addr &&& pteHuge = 0
  · rw [if_neg (not_not.mpr hhuge1),List.forall_mem_cons] at hlower
    obtain ⟨⟨h2,-⟩,hlast⟩ := hlower
    rw [if_neg (by simp [h1,hhuge1])]
    by_cases hhuge2 : m.pde addr &&& pteHuge = 0
    · rw [if_neg (not_not.mpr hhuge2),List.forall_mem_singleton] at hlast
      rw [if_neg (by simp [h2,hhuge2])]
      simp [located,hlast.1]
    · rw [if_pos (.inr hhuge2)]
      simp [located,h2]
  · rw [if_pos (.inr hhuge1)]
    simp [located,h1]

end
end Memory

/-- What lies at a physical address: a byte of the table `SOCKS`, a byte of the scratch buffer
`SOCK_IO`, or anything else. -/
inductive Place where
  | slot (i : Fin maxSocks) (k : ℕ)
  | scratch (k : ℕ)
  | other

/-- The kernel as the linker has laid it out: where its statics are, and a slot as bytes. -/
structure Image where
  place : UInt64 → Place
  byte : Socket → ℕ → UInt8
  patch : Socket → ℕ → UInt8 → Socket

/-- The memory that the copies reach. No page table is inside the two statics. -/
structure Ram where
  mem : Memory
  table : Table
  io : ℕ → UInt8

namespace Image

variable (img : Image) (r : Ram) (phys : UInt64) (byte : UInt8)

def load : UInt8 :=
  match img.place phys with
  | .slot i k => img.byte (r.table.socks i) k
  | .scratch k => r.io k
  | .other => r.mem.readByte phys

def store : Ram :=
  match img.place phys with
  | .slot i k => { r with table := r.table.set i (img.patch (r.table.socks i) k byte) }
  | .scratch k => { r with io := Function.update r.io k byte }
  | .other => { r with mem := r.mem.writeByte phys byte }

end Image

/-- The three copy loops, with the arguments that the user supplies. -/
inductive UserCopy where
  /-- `user_read` of `len` bytes into the scratch buffer. -/
  | read (ptr : UInt64) (len : ℕ)
  /-- `user_write` of the first `len` bytes of the scratch buffer. -/
  | write (ptr : UInt64) (len : ℕ)
  /-- `write_user_string`. -/
  | string (ptr : UInt64)

structure CopyState where
  ram : Ram
  addr : UInt64
  n : ℕ
  buf : List UInt8
  /-- The loop was left by a `break` after its access. -/
  ended : Bool
  faulted : Bool

def isShown (byte : UInt8) : Bool :=
  byte = 0x0a || byte = 0x09 || (0x20 ≤ byte && byte ≤ 0x7e)

namespace UserCopy

def ptr : UserCopy → UInt64
  | .read ptr _ | .write ptr _ | .string ptr => ptr

def stores : UserCopy → Bool
  | .write _ _ => true
  | _ => false

variable (img : Image) (c : UserCopy) (s : CopyState)

def start (r : Ram) : CopyState := ⟨r,c.ptr,0,[],false,false⟩

def Pending : Prop :=
  s.faulted = false ∧
    match c with
    | .read _ len | .write _ len => s.n < len
    | .string _ => s.ended = false ∧ s.n ≠ sysStrCap

instance (c : UserCopy) (s : CopyState) : Decidable (c.Pending s) := by
  cases c <;> unfold Pending <;> infer_instance

/-- The rest of the loop body, with the physical address. -/
def copyByte (phys : UInt64) : CopyState :=
  match c with
  | .read _ _ =>
    { s with
      ram := { s.ram with io := Function.update s.ram.io s.n (img.load s.ram phys) }
      addr := s.addr+1
      n := s.n+1 }
  | .write _ _ =>
    { s with ram := img.store s.ram phys (s.ram.io s.n), addr := s.addr+1, n := s.n+1 }
  | .string _ =>
    let byte := img.load s.ram phys
    if byte = 0 then { s with addr := s.addr+1, ended := true }
    else if isShown byte then
      { s with addr := s.addr+1, n := s.n+1, buf := s.buf ++ [byte] }
    else { s with addr := s.addr+1 }

/-- The access at the next address, once `translate` has found it. -/
def access : CopyState :=
  match s.ram.mem.access s.addr c.stores with
  | none => { s with faulted := true }
  | some phys => c.copyByte img s phys

/-- One round of the loop; it ends where no byte is due or the address is not mapped. -/
def round : Option CopyState :=
  if c.Pending s then (s.ram.mem.translate s.addr).map fun _ => c.access img s else none

theorem round_isSome {img : Image} {c : UserCopy} {s : CopyState} :
    (c.round img s).isSome ↔ c.Pending s ∧ (s.ram.mem.translate s.addr).isSome := by
  unfold round
  split_ifs with h <;> simp [h]

end UserCopy

section
variable (img : Image) (r : Ram) (ptr : UInt64) (len : ℕ)

/-- The state after `user_read`; it returns the count `n`. -/
def userRead : CopyState :=
  settle ((UserCopy.read ptr len).round img) len ((UserCopy.read ptr len).start r)

/-- The state after `user_write`; it returns the count `n`. -/
def userWrite : CopyState :=
  settle ((UserCopy.write ptr len).round img) len ((UserCopy.write ptr len).start r)

end

namespace Image

variable (img : Image)

/-- The bytes that `user_write` stores, with their physical addresses, and whether it faults. -/
def stores (r : Ram) (addr : UInt64) (n : ℕ) : ℕ → List (UInt64 × UInt8) × Bool
  | 0 => ([],false)
  | k+1 =>
    if (r.mem.translate addr).isNone then ([],false)
    else
      match r.mem.access addr true with
      | none => ([],true)
      | some phys =>
        let rest := stores (img.store r phys (r.io n)) (addr+1) (n+1) k
        ((phys,r.io n)::rest.1,rest.2)

/-- What the stores make of the slot `i`. -/
def patched (i : Fin maxSocks) (stored : List (UInt64 × UInt8)) (sk : Socket) : Socket :=
  stored.foldl (fun sk h =>
    match img.place h.1 with
    | .slot j k => if j = i then img.patch sk k h.2 else sk
    | _ => sk) sk

variable {r r' : Ram}

theorem store_congr (hmem : r'.mem = r.mem) (hio : r'.io = r.io) (phys : UInt64) (byte : UInt8) :
    (img.store r' phys byte).mem = (img.store r phys byte).mem ∧
      (img.store r' phys byte).io = (img.store r phys byte).io := by
  unfold store
  rw [hmem,hio]
  split <;> exact ⟨rfl,rfl⟩

/-- Where the bytes go does not depend on the sockets. -/
theorem stores_congr (hmem : r'.mem = r.mem) (hio : r'.io = r.io) (addr : UInt64) (n k : ℕ) :
    img.stores r' addr n k = img.stores r addr n k := by
  induction k generalizing r r' addr n with
  | zero => rfl
  | succ k ih =>
    unfold stores
    rw [hmem,hio]
    cases r.mem.access addr true with
    | none => rfl
    | some phys =>
      obtain ⟨hmem,hio⟩ := store_congr img hmem hio phys (r.io n)
      dsimp only
      rw [ih hmem hio]

/-- A copy that stores all its bytes does not fault. -/
theorem stores_of_length {addr : UInt64} {n k : ℕ} (h : (img.stores r addr n k).1.length = k) :
    (img.stores r addr n k).2 = false := by
  induction k generalizing r addr n with
  | zero => rfl
  | succ k ih =>
    unfold stores at h ⊢
    split at h
    · cases h
    · next hmapped =>
      rw [if_neg hmapped]
      cases haccess : r.mem.access addr true with
      | none =>
        rw [haccess] at h
        cases h
      | some phys =>
        rw [haccess] at h
        exact ih (Nat.succ.inj h)

theorem foldl_store_congr (stored : List (UInt64 × UInt8)) (hmem : r'.mem = r.mem)
    (hio : r'.io = r.io) :
    (stored.foldl (fun r h => img.store r h.1 h.2) r').mem =
      (stored.foldl (fun r h => img.store r h.1 h.2) r).mem := by
  induction stored generalizing r r' with
  | nil => exact hmem
  | cons h stored ih =>
    obtain ⟨hmem,hio⟩ := store_congr img hmem hio h.1 h.2
    exact ih hmem hio

theorem socks_foldl_store (stored : List (UInt64 × UInt8)) (r : Ram) (i : Fin maxSocks) :
    (stored.foldl (fun r h => img.store r h.1 h.2) r).table.socks i =
      img.patched i stored (r.table.socks i) := by
  induction stored generalizing r with
  | nil => rfl
  | cons h stored ih =>
    have hstep : (img.store r h.1 h.2).table.socks i =
        match img.place h.1 with
        | .slot j k => if j = i then img.patch (r.table.socks i) k h.2 else r.table.socks i
        | _ => r.table.socks i := by
      unfold store
      cases img.place h.1 with
      | slot j k =>
        dsimp only
        rw [Table.set_socks]
        by_cases hj : j = i
        · rw [if_pos hj,if_pos hj.symm,hj]
        · rw [if_neg hj,if_neg (Ne.symm hj)]
      | _ => rfl
    rw [List.foldl_cons,ih,hstep]
    rfl

end Image

theorem settle_write (img : Image) (ptr : UInt64) {len k : ℕ} {s : CopyState}
    (hlen : s.n+k = len) (hs : s.faulted = false) :
    let t := settle ((UserCopy.write ptr len).round img) k s
    t.ram = (img.stores s.ram s.addr s.n k).1.foldl (fun r h => img.store r h.1 h.2) s.ram ∧
      t.n = s.n+(img.stores s.ram s.addr s.n k).1.length ∧
      t.faulted = (img.stores s.ram s.addr s.n k).2 := by
  induction k generalizing s with
  | zero => exact ⟨rfl,rfl,hs⟩
  | succ k ih =>
    have hpending : (UserCopy.write ptr len).Pending s := ⟨hs,by show s.n < len; omega⟩
    unfold settle Image.stores
    rw [UserCopy.round,if_pos hpending]
    cases htranslate : s.ram.mem.translate s.addr with
    | none => exact ⟨rfl,rfl,hs⟩
    | some _ =>
      rw [Option.map_some,if_neg (by simp),UserCopy.access]
      dsimp only [UserCopy.stores]
      cases haccess : s.ram.mem.access s.addr true with
      | none =>
        -- The faulted loop makes no further round.
        have hended (n : ℕ) : settle ((UserCopy.write ptr len).round img) n
            { s with faulted := true } = { s with faulted := true } := by
          cases n with
          | zero => rfl
          | succ n =>
            unfold settle
            rw [UserCopy.round,if_neg fun h => absurd h.1 (by simp)]
        rw [hended]
        exact ⟨rfl,rfl,rfl⟩
      | some phys =>
        obtain ⟨hram,hn,hfault⟩ := ih (s := (UserCopy.write ptr len).copyByte img s phys)
          (by show s.n+1+k = len; omega) hs
        refine ⟨hram,hn.trans ?_,hfault⟩
        rw [List.length_cons,← Nat.add_assoc,Nat.add_right_comm]
        rfl

/-- `user_write` by its stores. -/
theorem userWrite_eq (img : Image) (r : Ram) (ptr : UInt64) (len : ℕ) :
    let stored := img.stores r ptr 0 len
    (userWrite img r ptr len).ram = stored.1.foldl (fun r h => img.store r h.1 h.2) r ∧
      (userWrite img r ptr len).n = stored.1.length ∧
      (userWrite img r ptr len).faulted = stored.2 := by
  obtain ⟨hram,hn,hfault⟩ := settle_write img ptr (s := (UserCopy.write ptr len).start r)
    (Nat.zero_add len) rfl
  exact ⟨hram,hn.trans (Nat.zero_add _),hfault⟩

/-- How far a `user_read` comes does not depend on the sockets. -/
theorem userRead_congr (img : Image) {r r' : Ram} (hmem : r'.mem = r.mem) (ptr : UInt64) (len : ℕ) :
    (userRead img r' ptr len).n = (userRead img r ptr len).n ∧
      (userRead img r' ptr len).faulted = (userRead img r ptr len).faulted ∧
      (userRead img r' ptr len).ram.mem = (userRead img r ptr len).ram.mem := by
  let seen (s : CopyState) : Memory × UInt64 × ℕ × Bool := (s.ram.mem,s.addr,s.n,s.faulted)
  have hstep (s t : CopyState) (h : seen s = seen t) :
      ((UserCopy.read ptr len).round img s).map seen =
        ((UserCopy.read ptr len).round img t).map seen := by
    simp only [seen,Prod.mk.injEq] at h
    obtain ⟨hmem,haddr,hn,hfault⟩ := h
    have hpending : (UserCopy.read ptr len).Pending s ↔ (UserCopy.read ptr len).Pending t := by
      simp only [UserCopy.Pending,hn,hfault]
    simp only [UserCopy.round,hpending,hmem,haddr]
    split_ifs
    · rw [Option.map_map,Option.map_map]
      congr 1
      funext _
      simp only [Function.comp_apply,UserCopy.access,hmem,haddr]
      split
      · simp only [seen,hmem,hn]
      · simp only [seen,UserCopy.copyByte,hmem,haddr,hn,hfault]
    · rfl
  have hseen := settle_congr (n := len) hstep
    (s := (UserCopy.read ptr len).start r') (t := (UserCopy.read ptr len).start r)
    (by simp only [seen,UserCopy.start,hmem])
  simp only [seen,Prod.mk.injEq] at hseen
  exact ⟨hseen.2.2.1,hseen.2.2.2,hseen.1⟩

theorem table_userRead (img : Image) (r : Ram) (ptr : UInt64) (len : ℕ) :
    (userRead img r ptr len).ram.table = r.table := by
  have hstep (s t : CopyState) (h : (UserCopy.read ptr len).round img s = some t) :
      t.ram.table = s.ram.table := by
    unfold UserCopy.round at h
    split at h
    · obtain ⟨_,-,rfl⟩ := Option.map_eq_some_iff.mp h
      unfold UserCopy.access
      split <;> rfl
    · cases h
  have hstart : ((UserCopy.read ptr len).start r).ram.table = r.table := rfl
  exact settle_invariant (J := fun s => s.ram.table = r.table)
    (fun s t hs ht => (hstep s t ht).trans hs) hstart

namespace UserCopy

/-- The memory at the next address belongs to the user. -/
def AtUser (s : CopyState) : Prop := s.ram.mem.UserMapped s.addr

instance : DecidablePred AtUser :=
  fun s => inferInstanceAs (Decidable (s.ram.mem.UserMapped s.addr))

/-- The loop reads and writes addresses of the user only, and stops before its end exactly at
an address that is not one. -/
structure Confined (img : Image) (c : UserCopy) (r : Ram) : Prop where
  accesses : ∀ n s, rounds (c.round img) n (c.start r) = some s → (c.round img s).isSome → AtUser s
  stops : ∀ n s, rounds (c.round img) n (c.start r) = some s → c.Pending s →
    (c.round img s = none ↔ ¬ AtUser s)

/-- Where a copy that checked for addresses of the user would stop before its end, nothing is
mapped. -/
def GapsUnmapped (img : Image) (c : UserCopy) (r : Ram) : Prop :=
  ∀ n s, rounds (checked (c.round img) AtUser) n (c.start r) = some s → c.Pending s →
    ¬ AtUser s → s.ram.mem.translate s.addr = none

/-- The copies stay in the memory of the user precisely if the first address outside it is
not mapped. -/
theorem confined_iff_gapsUnmapped (img : Image) (c : UserCopy) (r : Ram) :
    c.Confined img r ↔ c.GapsUnmapped img r := by
  have hchecked : (∀ n s, rounds (c.round img) n (c.start r) = some s → (c.round img s).isSome →
      AtUser s) ↔ ∀ n s, rounds (checked (c.round img) AtUser) n (c.start r) = some s →
        (c.round img s).isSome → AtUser s := allowed_iff_checked
  constructor
  · intro h n s hs hpending houtside
    by_contra hmapped
    refine houtside (hchecked.mp h.accesses n s hs (round_isSome.mpr ⟨hpending,?_⟩))
    exact Option.isSome_iff_ne_none.mpr hmapped
  · intro h
    have haccess := hchecked.mpr fun n s hs hsome => by
      obtain ⟨hpending,hmapped⟩ := round_isSome.mp hsome
      by_contra houtside
      rw [h n s hs hpending houtside] at hmapped
      cases hmapped
    refine ⟨haccess,fun n s hs hpending => ⟨fun hnone huser => ?_,fun houtside => ?_⟩⟩
    · have hsome := Memory.UserMapped.translate_isSome huser
      rw [round,if_pos hpending,Option.map_eq_none_iff] at hnone
      rw [hnone] at hsome
      cases hsome
    · by_contra hround
      exact houtside (haccess n s hs (Option.isSome_iff_ne_none.mpr hround))

def supervisorPage : Memory where
  words addr :=
    if addr = 0x1000 then 0x2003 else if addr = 0x2000 then 0x3003
    else if addr = 0x3000 then 0x4003 else if addr = 0x4000 then 0x5003 else 0
  cr3 := 0x1000
  frames := ⟨[],0,0⟩

end UserCopy

/-- The statics of the kernel are not at any of the addresses in use. -/
def Image.elsewhere : Image := ⟨fun _ => .other,fun _ _ => 0,fun sk _ _ => sk⟩

/-- A memory with an empty socket table. -/
def Ram.quiet (m : Memory) : Ram := ⟨m,.init,fun _ => 7⟩

namespace UserCopy

theorem supervisor_page_is_copied :
    ¬ supervisorPage.UserMapped 0 ∧ supervisorPage.translate 0 = some 0x5000 ∧
      (userRead .elsewhere (.quiet supervisorPage) 0 1).n = 1 ∧
      (userWrite .elsewhere (.quiet supervisorPage) 0 1).n = 1 ∧
      ¬ (read 0 1).Confined .elsewhere (.quiet supervisorPage) ∧
      ¬ (write 0 1).Confined .elsewhere (.quiet supervisorPage) ∧
      ¬ (string 0).Confined .elsewhere (.quiet supervisorPage) := by
  have hnot (c : UserCopy) (hptr : c.ptr = 0)
      (hround : (c.round .elsewhere (c.start (.quiet supervisorPage))).isSome) :
      ¬ c.Confined .elsewhere (.quiet supervisorPage) := by
    intro h
    have huser := h.accesses 0 _ rfl hround
    unfold AtUser start at huser
    rw [hptr] at huser
    exact absurd huser (by decide)
  refine ⟨by decide,by decide,by decide,by decide,?_,?_,?_⟩
  · exact hnot _ rfl (by decide)
  · exact hnot _ rfl (by decide)
  · exact hnot _ rfl (by decide)

end UserCopy
end Aios.Kernel
