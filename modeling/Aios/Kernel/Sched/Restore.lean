import Aios.Kernel.Sched.Frame

/-!
The two routines in which the CPU goes over to a saved frame, as the build script writes them. A
register is named as its field in a frame.
-/
namespace Aios.Kernel.Sched

open List
variable {f : Field} {c : Cpu} {v : UInt64}

namespace Field

def layout : List Field :=
  [.r15,.r14,.r13,.r12,.r11,.r10,.r9,.r8,.rdi,.rsi,.rbp,.rbx,.rdx,.rcx,.ds,.rax,
    .vector,.errorCode,.rip,.cs,.rflags,.rsp,.ss]

def offset (f : Field) : UInt64 := UInt64.ofNat (8*layout.idxOf f)

theorem mem_layout (f : Field) : f ∈ layout := by cases f <;> decide

theorem toNat_offset (f : Field) : f.offset.toNat = 8*layout.idxOf f := by
  have hlt := idxOf_lt_length_of_mem (mem_layout f)
  have hlen : layout.length = 23 := rfl
  rw [offset,UInt64.toNat_ofNat']
  omega

theorem offset_inj {g : Field} (h : f.offset = g.offset) : f = g := by
  have hnat := congrArg UInt64.toNat h
  rw [toNat_offset,toNat_offset] at hnat
  exact (idxOf_inj (mem_layout f)).mp (by omega)

end Field

/-- The instructions of the routines; `load dst offset` is `mov dst, [rdi + offset]`. -/
inductive Instr where
  | cli
  | load (dst : Field) (offset : UInt64)
  | loadSegments
  | push (src : Field)
  | popfq
  | jmp (src : Field)
  | iretq

abbrev Memory := UInt64 → UInt64

def InterruptFrame.memory (frame : InterruptFrame) (base : UInt64) : Memory :=
  fun a => (Field.layout.find? fun f => base+f.offset = a).elim 0 frame

theorem InterruptFrame.memory_offset (frame : InterruptFrame) (base : UInt64) (f : Field) :
    frame.memory base (base+f.offset) = frame f := by
  have hfind : (Field.layout.find? fun g => base+g.offset = base+f.offset) = some f := by
    have hone (g : Field) : base+g.offset = base+f.offset ↔ g = f :=
      ⟨fun h => Field.offset_inj ((UInt64.add_right_inj base).mp h),fun h => by rw [h]⟩
    simp only [hone]
    cases f <;> rfl
  unfold memory
  rw [hfind]
  rfl

/-- The registers, and what has been pushed, the last word first. The stacks do not overlap the
frame that is loaded from. -/
structure Cpu where
  regs : Field → UInt64
  stack : List UInt64

namespace Cpu

def set (c : Cpu) (f : Field) (v : UInt64) : Cpu := { c with regs := Function.update c.regs f v }

@[simp] theorem set_regs (g : Field) :
    (c.set f v).regs g = if g = f then v else c.regs g := Function.update_apply ..

@[simp] theorem set_stack : (c.set f v).stack = c.stack := rfl

def pop (c : Cpu) (f : Field) : Cpu :=
  { (c.set .rsp (c.regs .rsp+8)).set f (c.stack.headD 0) with stack := c.stack.tail }

/-- One instruction. Outside of the frame there are no `es`, `fs` and `gs`; the flags are
loaded as they were pushed. -/
def exec (m : Memory) (c : Cpu) : Instr → Cpu
  | .cli => c.set .rflags (c.regs .rflags &&& ~~~0x200)
  | .load dst offset => c.set dst (m (c.regs .rdi+offset))
  | .loadSegments => c.set .ds (c.regs .rax &&& 0xFFFF)
  | .push src => { c.set .rsp (c.regs .rsp-8) with stack := c.regs src::c.stack }
  | .popfq => c.pop .rflags
  | .jmp src => c.set .rip (c.regs src)
  | .iretq =>
    match c.stack with
    | rip::cs::rflags::rsp::ss::stack =>
      ⟨(((((c.set .rip rip).set .cs cs).set .rflags rflags).set .rsp rsp).set .ss ss).regs,stack⟩
    | _ => c

def run (m : Memory) (c : Cpu) (code : List Instr) : Cpu := code.foldl (exec m) c

end Cpu

/-- The registers that both routines begin with. -/
def loadGeneral : List Instr :=
  [.cli,.load .rax 112,.loadSegments,
    .load .r15 0,.load .r14 8,.load .r13 16,.load .r12 24,.load .r11 32,.load .r10 40,
    .load .r9 48,.load .r8 56,.load .rax 120,.load .rbx 88,.load .rbp 80,.load .rsi 72,
    .load .rcx 104,.load .rdx 96]

def aiosRestoreRing0 : List Instr :=
  loadGeneral ++
    [.load .rsp 168,.load .r10 160,.push .r10,.popfq,.load .r10 144,.load .rdi 64,.jmp .r10]

def aiosRestoreRing3 : List Instr :=
  loadGeneral ++
    [.load .r10 176,.push .r10,.load .r10 168,.push .r10,.load .r10 160,.push .r10,
      .load .r10 152,.push .r10,.load .r10 144,.push .r10,.iretq]

section
variable {m : Memory} {base : UInt64} {frame : InterruptFrame}

theorem Cpu.run_append (code rest : List Instr) :
    c.run m (code ++ rest) = (c.run m code).run m rest := foldl_append

theorem Cpu.run_loads (hm : ∀ f, m (base+f.offset) = frame f) {fs : List Field} (hfs : .rdi ∉ fs)
    (hc : c.regs .rdi = base) :
    (c.run m (fs.map fun f => .load f f.offset)).stack = c.stack ∧
      ∀ g, (c.run m (fs.map fun f => .load f f.offset)).regs g =
        if g ∈ fs then frame g else c.regs g := by
  induction fs generalizing c with
  | nil => simp [run]
  | cons f fs ih =>
    rw [mem_cons,not_or] at hfs
    have hexec : c.exec m (.load f f.offset) = c.set f (frame f) := by rw [exec,hc,hm]
    obtain ⟨hstack,hregs⟩ := ih hfs.2 (c := c.set f (frame f)) (by simp [hfs.1,hc])
    have hrun : c.run m ((f::fs).map fun f => .load f f.offset) =
        (c.set f (frame f)).run m (fs.map fun f => .load f f.offset) := by
      rw [← hexec]
      rfl
    rw [hrun]
    refine ⟨hstack,fun g => ?_⟩
    rw [hregs g,set_regs]
    by_cases hgs : g ∈ fs
    · rw [if_pos hgs,if_pos (mem_cons_of_mem f hgs)]
    · by_cases hgf : g = f
      · simp [hgf]
      · simp [hgf]

def general : List Field :=
  [.r15,.r14,.r13,.r12,.r11,.r10,.r9,.r8,.rax,.rbx,.rbp,.rsi,.rcx,.rdx]

theorem loadGeneral_eq : loadGeneral =
    [.cli,.load .rax 112,.loadSegments] ++ general.map fun f => .load f f.offset := rfl

section
variable (hm : ∀ f, m (base+f.offset) = frame f) (hc : c.regs .rdi = base)
include hm hc

theorem Cpu.run_loadGeneral : (c.run m loadGeneral).stack = c.stack ∧ ∀ g, g ≠ .ds → g ≠ .rflags →
      (c.run m loadGeneral).regs g = if g ∈ general then frame g else c.regs g := by
  rw [loadGeneral_eq,run_append]
  have hgeneral : .rdi ∉ general := by decide
  obtain ⟨hstack,hregs⟩ := run_loads hm hgeneral
    (c := c.run m [.cli,.load .rax 112,.loadSegments]) (by simp [run,exec,hc])
  refine ⟨hstack,fun g hds hflags => ?_⟩
  rw [hregs g]
  split
  · rfl
  next hg =>
    have hrax : g ≠ .rax := fun h => hg (h ▸ by decide)
    simp [run,exec,hds,hflags,hrax]

/-- What ring 0 is entered with: `r10` has carried `rip`, and `cs` and `ss` are the handler's. -/
theorem Cpu.run_aiosRestoreRing0 (hf : f ∈ refreshed) : (c.run m aiosRestoreRing0).regs f =
      if f = .r10 then frame .rip else if f = .cs ∨ f = .ss then c.regs f else frame f := by
  have hrsp : m (base+168) = frame .rsp := hm .rsp
  have hrflags : m (base+160) = frame .rflags := hm .rflags
  have hrip : m (base+144) = frame .rip := hm .rip
  have hrdi : m (base+64) = frame .rdi := hm .rdi
  obtain ⟨-,hregs⟩ := run_loadGeneral hm hc
  have hbase : (c.run m loadGeneral).regs .rdi = base := by exact hc
  rw [aiosRestoreRing0,run_append]
  generalize c.run m loadGeneral = d at hregs hbase
  have htail : (d.run m [.load .rsp 168,.load .r10 160,.push .r10,.popfq,.load .r10 144,
      .load .rdi 64,.jmp .r10]).regs f =
        if f = .rip ∨ f = .r10 then frame .rip
        else if f = .rdi ∨ f = .rflags ∨ f = .rsp then frame f else d.regs f := by
    simp only [run,exec,pop,set_regs,hbase,hrsp,hrflags,hrip,hrdi,foldl_cons,reduceCtorEq,if_false]
    cases f <;> simp
  rw [htail]
  specialize hregs f
  revert hf hregs
  cases f <;> simp [refreshed,general]

theorem Cpu.run_aiosRestoreRing3 (hf : f ∈ refreshed) : (c.run m aiosRestoreRing3).regs f =
      if f = .r10 then frame .rip else if f = .rdi then base else frame f := by
  have hss : m (base+176) = frame .ss := hm .ss
  have hrsp : m (base+168) = frame .rsp := hm .rsp
  have hrflags : m (base+160) = frame .rflags := hm .rflags
  have hcs : m (base+152) = frame .cs := hm .cs
  have hrip : m (base+144) = frame .rip := hm .rip
  obtain ⟨-,hregs⟩ := run_loadGeneral hm hc
  have hbase : (c.run m loadGeneral).regs .rdi = base := by exact hc
  rw [aiosRestoreRing3,run_append]
  generalize c.run m loadGeneral = d at hregs hbase
  have htail : (d.run m [.load .r10 176,.push .r10,.load .r10 168,.push .r10,.load .r10 160,
      .push .r10,.load .r10 152,.push .r10,.load .r10 144,.push .r10,.iretq]).regs f =
        if f = .r10 then frame .rip
        else if f = .ss ∨ f = .rsp ∨ f = .rflags ∨ f = .cs ∨ f = .rip then frame f
        else d.regs f := by
    simp only [run,exec,set_regs,hbase,hss,hrsp,hrflags,hcs,hrip,foldl_cons,reduceCtorEq,if_false]
    cases f <;> simp
  rw [htail]
  specialize hregs f
  revert hf hregs
  cases f <;> simp [refreshed,general,hc]

end
end
end Aios.Kernel.Sched
