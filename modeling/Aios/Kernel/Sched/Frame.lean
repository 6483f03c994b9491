import Mathlib.Algebra.GroupWithZero.Nat
import Mathlib.Data.List.Basic

/-!
What an interrupt leaves on the stack, in the order in which it lies in memory, and its snapshot in
a fault record.
-/
namespace Aios.Kernel.Sched

abbrev maxTasks : ℕ := 7

instance : NeZero maxTasks := ⟨by decide⟩

def kernelCs : UInt64 := 0x08
def userCs : UInt64 := 0x1B
def userDs : UInt64 := 0x23

inductive Field where
  | r15
  | r14
  | r13
  | r12
  | r11
  | r10
  | r9
  | r8
  | rdi
  | rsi
  | rbp
  | rbx
  | rdx
  | rcx
  | ds
  | rax
  | vector
  | errorCode
  | rip
  | cs
  | rflags
  | rsp
  | ss
  deriving DecidableEq

/-- The value of every field. -/
abbrev InterruptFrame := Field → UInt64

def InterruptFrame.zero : InterruptFrame := fun _ => 0

def InterruptFrame.fill (frame : InterruptFrame) (values : List (Field × UInt64)) :
    InterruptFrame :=
  fun f => (values.lookup f).getD (frame f)

/-- The fields that `schedule` copies from the interrupt frame of the outgoing task. -/
def refreshed : List Field :=
  [.r8,.r9,.r10,.r11,.r12,.r13,.r14,.r15,.rax,.rcx,.rdx,.rbx,.rbp,.rsi,.rdi,
    .rip,.rsp,.cs,.ss,.rflags]

def refresh (saved frame : InterruptFrame) : InterruptFrame :=
  fun f => if f ∈ refreshed then frame f else saved f

@[simp] theorem refresh_of_mem {f : Field} (h : f ∈ refreshed) (saved frame : InterruptFrame) :
    refresh saved frame f = frame f := if_pos h

structure TaskSnapshot where
  pid : Fin maxTasks
  regs : InterruptFrame
  stateHash : UInt64

namespace TaskSnapshot

/-- The fields of a snapshot, in the order of the hash. -/
def captured : List Field :=
  [.rip,.cs,.rsp,.rflags,.ss,.rax,.rbx,.rcx,.rdx,.rsi,.rdi,.rbp,.r8,.r9,.r10,
    .r11,.r12,.r13,.r14,.r15]

/-- `to_ne_bytes` on a little-endian machine. -/
def bytes (v : UInt64) : List UInt8 :=
  (List.range 8).map fun i => (v >>> UInt64.ofNat (8*i)).toUInt8

/-- One byte of FNV-1a. -/
def fnv (h : UInt64) (b : UInt8) : UInt64 := (h ^^^ b.toUInt64)*0x00000100000001b3

def hashOf (pid : Fin maxTasks) (regs : InterruptFrame) : UInt64 :=
  (UInt64.ofNat pid::captured.map regs).foldl (fun h v => (bytes v).foldl fnv h) 0xcbf29ce484222325

def capture (pid : Fin maxTasks) (frame : InterruptFrame) : TaskSnapshot :=
  let regs : InterruptFrame := fun f => if f ∈ captured then frame f else 0
  ⟨pid,regs,hashOf pid regs⟩

def verify (s : TaskSnapshot) : Bool := hashOf s.pid s.regs = s.stateHash

end TaskSnapshot
end Aios.Kernel.Sched
