import Aios.Lib.Files

/-!
The copy-on-write storage: a version is written to a shadow directory and renamed into place. Only a
rollback writes a backup, with the current version, before it reads the one to be restored.
-/
namespace Aios.Persistence

open Files

inductive StoragePath where
  | base (name : String)
  | shadow (name : String)
  deriving DecidableEq

abbrev Storage := FileSystem StoragePath

namespace Storage

/-- `base_dir.join(format!("{}.backup", file_name))` -/
def backupPath (fileName : String) : StoragePath := .base (fileName ++ ".backup")

/-- The data is written to the shadow file, synced, and renamed to the primary. -/
def atomicWrite (fs : Storage) (fileName : String) (data : List UInt8) : Option Storage :=
  rename (write fs (.shadow fileName) data) (.shadow fileName) (.base fileName)

def readFile (fs : Storage) (fileName : String) : Option (List UInt8) :=
  read fs (.base fileName)

def isPresent (fs : Storage) (fileName : String) : Bool := StoragePath.base fileName ∈ fs

def delete (fs : Storage) (fileName : String) : Storage :=
  if fs.isPresent fileName then fs.erase (.base fileName) else fs

/-- The first step of `rollback`, "Keep current as backup for next rollback". -/
def keepCurrent (fs : Storage) (fileName : String) : Option Storage :=
  if StoragePath.base fileName ∈ fs then copy fs (.base fileName) (backupPath fileName)
  else some fs

def rollback (fs : Storage) (fileName : String) : Option (Storage × Bool) :=
  if backupPath fileName ∉ fs then some (fs,false)
  else do
    let fs ← keepCurrent fs fileName
    let data ← read fs (backupPath fileName)
    let fs ← atomicWrite fs fileName data
    return (fs,true)

theorem isPresent_delete (fs : Storage) (f g : String) :
    (fs.delete g).isPresent f = true ↔ f ≠ g ∧ fs.isPresent f = true := by
  unfold delete
  split
  · simp [isPresent]
  · next hg =>
    refine ⟨fun hf => ⟨?_,hf⟩,fun h => h.2⟩
    rintro rfl
    exact hg hf

def writeAll (fs : Storage) (fileName : String) (versions : List (List UInt8)) : Option Storage :=
  versions.foldlM (fun fs data => atomicWrite fs fileName data) fs

variable {fs : Storage} {f : String}

theorem atomicWrite_spec (fs : Storage) (f : String) (data : List UInt8) :
    ∃ fs', atomicWrite fs f data = some fs' ∧
      ∀ name, readFile fs' name = if name = f then some data else readFile fs name := by
  obtain ⟨fs',hfs',hread⟩ := rename_write fs (.shadow f) (.base f) data
  refine ⟨fs',hfs',fun name => ?_⟩
  rw [readFile,hread]
  simp [readFile]

theorem writeAll_spec (fs : Storage) (f : String) (versions : List (List UInt8))
    (last : List UInt8) :
    ∃ fs', writeAll fs f (versions ++ [last]) = some fs' ∧
      ∀ name, readFile fs' name = if name = f then some last else readFile fs name := by
  induction versions generalizing fs with
  | nil =>
    obtain ⟨fs',hfs',hread⟩ := atomicWrite_spec fs f last
    exact ⟨fs',by simp [writeAll,hfs'],hread⟩
  | cons version versions ih =>
    obtain ⟨fs₁,hfs₁,hread₁⟩ := atomicWrite_spec fs f version
    obtain ⟨fs₂,hfs₂,hread₂⟩ := ih fs₁
    refine ⟨fs₂,?_,fun name => ?_⟩
    · rw [List.cons_append,writeAll,List.foldlM_cons,hfs₁]
      exact hfs₂
    · rw [hread₂,hread₁]
      split <;> rfl

def readBackup (fs : Storage) (fileName : String) : Option (List UInt8) :=
  readFile fs (fileName ++ ".backup")

theorem backup_name_ne : f ++ ".backup" ≠ f := by
  intro h
  have hlength := congrArg String.length h
  rw [String.length_append] at hlength
  have hbackup : ".backup".length = 7 := rfl
  omega

theorem rollback_spec {backup : List UInt8} (h : readBackup fs f = some backup) :
    ∃ fs', rollback fs f = some (fs',true) ∧
      readFile fs' f = some ((readFile fs f).getD backup) ∧
      readBackup fs' f = some ((readFile fs f).getD backup) := by
  generalize hcurrent : (readFile fs f).getD backup = current
  -- The storage after the copy, in which the backup has what is restored below.
  obtain ⟨fs₁,hcopy,hbackup⟩ : ∃ fs₁, keepCurrent fs f = some fs₁ ∧
      read fs₁ (backupPath f) = some current := by
    unfold keepCurrent
    split
    · next hmem =>
      obtain ⟨data,hdata⟩ := Finmap.mem_iff.mp hmem
      have hsame : data = current := by
        rw [← hcurrent,show readFile fs f = some data from hdata,Option.getD_some]
      refine ⟨_,copy_eq fs _ _ hdata,?_⟩
      rw [read_write,if_pos rfl,hsame]
    · next hmem =>
      have hnone : readFile fs f = none := Finmap.lookup_eq_none.mpr hmem
      rw [hnone,Option.getD_none] at hcurrent
      exact ⟨fs,rfl,hcurrent ▸ h⟩
  obtain ⟨fs₂,hwrite,hread⟩ := atomicWrite_spec fs₁ f current
  refine ⟨fs₂,?_,?_,?_⟩
  · have hmem : ¬ backupPath f ∉ fs := not_not.mpr (Finmap.mem_of_lookup_eq_some h)
    rw [rollback,if_neg hmem,hcopy]
    simp [hbackup,hwrite]
  · rw [hread,if_pos rfl]
  · rw [readBackup,hread,if_neg backup_name_ne]
    exact hbackup

/-- After the versions were written, a rollback succeeds and the file has the content
`previous`. -/
def Restores (fs : Storage) (f : String) (versions : List (List UInt8)) (previous : List UInt8) :
    Prop :=
  ∃ fs₁ fs₂, writeAll fs f versions = some fs₁ ∧ rollback fs₁ f = some (fs₂,true) ∧
    readFile fs₂ f = some previous

/-- A rollback exchanges the contents of the file and of its backup. -/
def Exchanges (fs : Storage) (f : String) (primary backup : List UInt8) : Prop :=
  ∃ fs' done, rollback fs f = some (fs',done) ∧ readFile fs' f = some backup ∧
    readBackup fs' f = some primary

theorem restores_iff (fs : Storage) (f : String) (versions : List (List UInt8))
    (previous last : List UInt8) :
    Restores fs f (versions ++ [previous] ++ [last]) previous ↔
      (readBackup fs f).isSome ∧ last = previous := by
  obtain ⟨fs₁,hwritten,hread⟩ := writeAll_spec fs f (versions ++ [previous]) last
  have hfile : readFile fs₁ f = some last := by rw [hread,if_pos rfl]
  have hbackup : readBackup fs₁ f = readBackup fs f := by
    rw [readBackup,hread,if_neg backup_name_ne,readBackup]
  unfold Restores
  simp only [hwritten]
  cases h : readBackup fs f with
  | none =>
    rw [h] at hbackup
    have hkept : rollback fs₁ f = some (fs₁,false) := if_pos (Finmap.lookup_eq_none.mp hbackup)
    simp [hkept]
  | some backup =>
    rw [h] at hbackup
    obtain ⟨fs₂,hrollback,hrestored,-⟩ := rollback_spec hbackup
    rw [hfile,Option.getD_some] at hrestored
    simp [hrollback,hrestored]

theorem exchanges_iff {primary backup : List UInt8} (hfile : readFile fs f = some primary)
    (hbackup : readBackup fs f = some backup) :
    Exchanges fs f primary backup ↔ primary = backup := by
  obtain ⟨fs',hrollback,hrestored,hkept⟩ := rollback_spec hbackup
  rw [hfile,Option.getD_some] at hrestored hkept
  simp [Exchanges,hrollback,hrestored,hkept]

/-- A rollback restores the previous version only where the last two are equal and a backup was
there, and exchanges a file and its backup only where they are equal. -/
theorem rollback_restores_equal_versions_only (fs : Storage) (f : String) :
    (∀ versions previous last, Restores fs f (versions ++ [previous] ++ [last]) previous ↔
      (readBackup fs f).isSome ∧ last = previous) ∧
    ∀ primary backup, readFile fs f = some primary → readBackup fs f = some backup →
      (Exchanges fs f primary backup ↔ primary = backup) :=
  ⟨restores_iff fs f,fun _ _ => exchanges_iff⟩

def withBackup (primary backup : List UInt8) : Storage :=
  write (write ∅ (.base "state") primary) (backupPath "state") backup

/-- The same version was written twice over a backup of it. -/
theorem rollback_restores_equal_versions_only_example :
    let fs := withBackup [1] [1]
    Restores fs "state" [[1],[1]] [1] ∧ Exchanges fs "state" [1] [1] := by
  intro fs
  have hrestores := rollback_restores_equal_versions_only fs "state"
  exact ⟨(hrestores.1 [] [1] [1]).mpr ⟨by decide,rfl⟩,
    (hrestores.2 [1] [1] (by decide) (by decide)).mpr rfl⟩

theorem rollback_loses_versions : ¬ Restores ∅ "state" [[1],[2]] [1] ∧
      readFile (withBackup [2] [1]) "state" = some [2] ∧
      readBackup (withBackup [2] [1]) "state" = some [1] ∧
      ¬ Exchanges (withBackup [2] [1]) "state" [2] [1] := by
  have hfile : readFile (withBackup [2] [1]) "state" = some [2] := by decide
  have hbackup : readBackup (withBackup [2] [1]) "state" = some [1] := by decide
  refine ⟨fun h => ?_,hfile,hbackup,fun h => ?_⟩
  · exact absurd ((restores_iff ∅ "state" [] [1] [2]).mp h).2 (by decide)
  · exact absurd ((exchanges_iff hfile hbackup).mp h) (by decide)

end Storage
end Aios.Persistence
