import Aios.Persistence.CowStorage
import Aios.Lib.Transition

/-!
Crashes of the copy-on-write storage. A crash stops `atomic_write` between any two of its primitive
steps, and leaves any prefix of a file that was not synced.
-/
namespace Aios.Persistence

open Files Storage Transition List

/-- The files, and those of them whose content is not synced. -/
structure Disk where
  files : Storage
  unsynced : List StoragePath

inductive Primitive where
  | write (p : StoragePath) (data : List UInt8)
  | openToWrite (p : StoragePath)
  | syncAll (p : StoragePath)
  | rename (p q : StoragePath)

inductive Call where
  | completed (fileName : String) (data : List UInt8)
  /-- A crash after some of the steps, and a restart; `cut` says how much is left of a file. -/
  | interrupted (fileName : String) (data : List UInt8) (steps : ℕ) (cut : StoragePath → ℕ)

namespace Disk

variable (d : Disk)

def primitive : Primitive → Option Disk
  | .write p data => some ⟨write d.files p data,p::d.unsynced⟩
  | .openToWrite p => if p ∈ d.files then some d else none
  | .syncAll p => some { d with unsynced := d.unsynced.filter fun r => r ≠ p }
  | .rename p q => (rename d.files p q).map fun files =>
    ⟨files,(d.unsynced.filter fun r => r ≠ q).map fun r => if r = p then q else r⟩

/-- The steps of `atomic_write`. -/
def atomicWrite (fileName : String) (data : List UInt8) : List Primitive :=
  [.write (.shadow fileName) data,.openToWrite (.shadow fileName),.syncAll (.shadow fileName),
    .rename (.shadow fileName) (.base fileName)]

/-- What a crash leaves of the files. -/
def crash (cut : StoragePath → ℕ) : Disk :=
  ⟨d.unsynced.foldl (fun files p => files.adjust p (take (cut p))) d.files,[]⟩

def call : Call → Option Disk
  | .completed f data => exec primitive d (atomicWrite f data)
  | .interrupted f data steps cut =>
    (exec primitive d ((atomicWrite f data).take steps)).map fun t => t.crash cut

end Disk

/-- What is read from a file after a call, from what was read before. It is the new data once all
four steps are done; neither the shadow files nor what a crash leaves of them matter. -/
def Call.settles (f : String) (old : Option (List UInt8)) : Call → Option (List UInt8)
  | .completed g data => if f = g then some data else old
  | .interrupted g data steps _ => if f = g ∧ 4 ≤ steps then some data else old

/-- The data of the last completed write of a file, or of a write interrupted since. -/
def Call.possible (f : String) (old : Set (Option (List UInt8))) : Call → Set (Option (List UInt8))
  | .completed g data => if f = g then {some data} else old
  | .interrupted g data _ _ => if f = g then insert (some data) old else old

namespace Disk

/-- The four steps together are `atomic_write` of the storage. -/
theorem exec_atomicWrite (fs : Storage) (f : String) (data : List UInt8) :
    exec primitive ⟨fs,[]⟩ (atomicWrite f data) =
      (Storage.atomicWrite fs f data).map fun files => ⟨files,[]⟩ := by
  have hopen : StoragePath.shadow f ∈ write fs (.shadow f) data := by simp [write]
  unfold Storage.atomicWrite
  cases hrename : rename (write fs (.shadow f) data) (.shadow f) (.base f) with
  | none => simp [atomicWrite,exec,primitive,hopen,hrename]
  | some _ => simp [atomicWrite,exec,primitive,hopen,hrename]

theorem exec_take (fs : Storage) (f : String) (data : List UInt8) (n : ℕ) :
    ∃ t, exec primitive ⟨fs,[]⟩ ((atomicWrite f data).take n) = some t ∧
      (∀ p ∈ t.unsynced, p = .shadow f ∧ n < 4) ∧
      ∀ g, readFile t.files g = if g = f ∧ 4 ≤ n then some data else readFile fs g := by
  have hopen : StoragePath.shadow f ∈ write fs (.shadow f) data := by simp [write]
  obtain ⟨fs',hfs',hread⟩ := atomicWrite_spec fs f data
  have hshadow (g : String) : readFile (write fs (.shadow f) data) g = readFile fs g := by
    rw [readFile,read_write,if_neg (by simp),readFile]
  rcases n with _ | _ | _ | _ | n
  · exact ⟨_,rfl,by simp,by simp⟩
  · exact ⟨_,rfl,by simp,by simpa using hshadow⟩
  · exact ⟨_,exec_cons rfl (exec_cons (if_pos hopen) rfl),by simp,by simpa using hshadow⟩
  · exact ⟨_,exec_cons rfl (exec_cons (if_pos hopen) rfl),by simp,by simpa using hshadow⟩
  · refine ⟨⟨fs',[]⟩,?_,by simp,by simpa using hread⟩
    rw [take_of_length_le (by simp [atomicWrite]),exec_atomicWrite,hfs']
    rfl

theorem readFile_crash (d : Disk) (cut : StoragePath → ℕ) {f : String}
    (h : ∀ p ∈ d.unsynced, p = .shadow f) (g : String) :
    readFile (d.crash cut).files g = readFile d.files g := by
  obtain ⟨files,unsynced⟩ := d
  unfold crash
  induction unsynced generalizing files with
  | nil => rfl
  | cons p rest ih =>
    rw [foldl_cons,ih _ fun q hq => h q (mem_cons_of_mem _ hq),h p mem_cons_self]
    exact (Finmap.lookup_adjust ..).trans (if_neg (by simp))

theorem call_spec (fs : Storage) (c : Call) : ∃ gs, call ⟨fs,[]⟩ c = some ⟨gs,[]⟩ ∧
    ∀ f, readFile gs f = c.settles f (readFile fs f) := by
  cases c with
  | completed f data =>
    obtain ⟨⟨gs,unsynced⟩,ht,hsynced,hread⟩ := exec_take fs f data 4
    obtain rfl : unsynced = [] := eq_nil_iff_forall_not_mem.mpr fun p hp => (hsynced p hp).2.ne rfl
    exact ⟨gs,ht,by simpa [Call.settles] using hread⟩
  | interrupted f data n cut =>
    obtain ⟨t,ht,hsynced,hread⟩ := exec_take fs f data n
    refine ⟨(t.crash cut).files,by rw [call,ht]; rfl,fun g => ?_⟩
    rw [readFile_crash t cut fun p hp => (hsynced p hp).1,hread,Call.settles]

variable {f : String} {old : Option (List UInt8)} {before : Set (Option (List UInt8))}

theorem settles_mem_possible (h : old ∈ before) (c : Call) :
    c.settles f old ∈ c.possible f before := by
  cases c with
  | completed g data => by_cases hg : f = g <;> simp [Call.settles,Call.possible,hg,h]
  | interrupted g data n cut =>
    by_cases hg : f = g <;> by_cases hn : 4 ≤ n <;> simp [Call.settles,Call.possible,hg,hn,h]

theorem foldl_settles_mem (h : old ∈ before) (calls : List Call) :
    calls.foldl (Call.settles f) old ∈ calls.foldl (Call.possible f) before := by
  induction calls generalizing old before with
  | nil => exact h
  | cons c calls ih => exact ih (settles_mem_possible h c)

theorem exec_calls (fs : Storage) (calls : List Call) :
    ∃ gs, exec call ⟨fs,[]⟩ calls = some ⟨gs,[]⟩ ∧
      ∀ f, readFile gs f = calls.foldl (Call.settles f) (readFile fs f) := by
  induction calls generalizing fs with
  | nil => exact ⟨fs,rfl,fun _ => rfl⟩
  | cons c calls ih =>
    obtain ⟨gs,hcall,hread⟩ := call_spec fs c
    obtain ⟨hs,hrest,hlast⟩ := ih gs
    exact ⟨hs,exec_cons hcall hrest,fun f => by rw [hlast,hread,foldl_cons]⟩

/-- Every history of completed and interrupted writes can be run, whatever the shadow files hold;
each file then reads as one of its writes says, and which one does not depend on the leftovers. -/
theorem atomicWrite_crashAtomic (fs : Storage) (calls : List Call) :
    ∃ gs, exec call ⟨fs,[]⟩ calls = some ⟨gs,[]⟩ ∧ ∀ f,
      readFile gs f = calls.foldl (Call.settles f) (readFile fs f) ∧
      readFile gs f ∈ calls.foldl (Call.possible f) {readFile fs f} := by
  obtain ⟨gs,hexec,hread⟩ := exec_calls fs calls
  refine ⟨gs,hexec,fun f => ⟨hread f,?_⟩⟩
  rw [hread]
  exact foldl_settles_mem (Set.mem_singleton _) calls

end Disk
end Aios.Persistence
