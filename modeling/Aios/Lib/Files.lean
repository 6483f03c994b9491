import Aios.Lib.FiniteMap

/-!
Files by their paths, with the primitives that either succeed or find their source missing.
-/
namespace Files

variable {π : Type*} [DecidableEq π] {data : List UInt8}

abbrev FileSystem (π : Type*) [DecidableEq π] := Finmap fun _ : π => List UInt8

variable (fs : FileSystem π) (p q : π) {fs' : FileSystem π}

def read : Option (List UInt8) := fs.lookup p

def write (data : List UInt8) : FileSystem π := fs.insert p data

/-- The file at `p` replaces whatever is at `q`. -/
def rename : Option (FileSystem π) := (read fs p).map fun data => write (fs.erase p) q data

def copy : Option (FileSystem π) := (read fs p).map fun data => write fs q data

def remove : Option (FileSystem π) := if p ∈ fs then some (fs.erase p) else none

theorem read_write (r : π) : read (write fs p data) r = if r = p then some data else read fs r :=
  Finmap.lookup_insert_if fs p r data

theorem read_rename (h : rename fs p q = some fs') (r : π) :
    read fs' r = if r = q then read fs p else if r = p then none else read fs r := by
  obtain ⟨content,hcontent,rfl⟩ := Option.map_eq_some_iff.mp h
  rw [read_write,hcontent]
  split
  · rfl
  · exact Finmap.lookup_erase_if fs p r

theorem rename_write (data : List UInt8) : ∃ fs', rename (write fs p data) p q = some fs' ∧
      ∀ r, read fs' r = if r = q then some data else if r = p then none else read fs r := by
  have hrename : rename (write fs p data) p q =
      some (write ((write fs p data).erase p) q data) := by
    rw [rename,read_write,if_pos rfl,Option.map_some]
  refine ⟨_,hrename,fun r => ?_⟩
  rw [read_rename _ p q hrename,read_write,if_pos rfl,read_write]
  split
  · rfl
  · split <;> rfl

theorem copy_eq (h : read fs p = some data) : copy fs p q = some (write fs q data) := by
  rw [copy,h,Option.map_some]

theorem read_remove (h : remove fs p = some fs') (r : π) :
    read fs' r = if r = p then none else read fs r := by
  obtain ⟨-,hsome⟩ := Option.ite_none_right_eq_some.mp h
  cases hsome
  exact Finmap.lookup_erase_if fs p r

section

/-- A primitive step of a program; a removal that finds nothing is passed over. -/
inductive Step (π : Type*) where
  | makeDirs
  | write (p : π) (data : List UInt8)
  | remove (p : π)
  | rename (p q : π)

/-- The files after a step that succeeds. Directories have no content. -/
def Step.run (fs : FileSystem π) : Step π → Option (FileSystem π)
  | .makeDirs => some fs
  | .write p data => some (Files.write fs p data)
  | .remove p => some ((Files.remove fs p).getD fs)
  | .rename p q => Files.rename fs p q

/-- The files that a crash may leave: a program stops between two steps, or in a write of which
any part is done. -/
inductive Crash : FileSystem π → List (Step π) → FileSystem π → Prop
  | between (fs : FileSystem π) (steps : List (Step π)) : Crash fs steps fs
  | cut (fs : FileSystem π) (p : π) (data : List UInt8) (k : ℕ) (steps : List (Step π)) :
    Crash fs (.write p data::steps) (Files.write fs p (data.take k))
  | next {fs fs' fs'' : FileSystem π} {step : Step π} {steps : List (Step π)}
    (h : step.run fs = some fs') (rest : Crash fs' steps fs'') : Crash fs (step::steps) fs''

variable {fs} {fs' : FileSystem π} {steps : List (Step π)}

theorem crash_nil_iff : Crash fs [] fs' ↔ fs' = fs := by
  constructor
  · rintro ⟨⟩
    rfl
  · rintro rfl
    exact .between _ _

theorem crash_makeDirs_iff : Crash fs (.makeDirs::steps) fs' ↔ Crash fs steps fs' := by
  constructor
  · rintro (_ | _ | ⟨h,rest⟩)
    · exact .between _ _
    · cases h
      exact rest
  · exact .next rfl

theorem crash_write_iff : Crash fs (.write p data::steps) fs' ↔
    fs' = fs ∨ (∃ k, fs' = write fs p (data.take k)) ∨ Crash (write fs p data) steps fs' := by
  constructor
  · rintro (_ | ⟨_,_,_,k⟩ | ⟨h,rest⟩)
    · exact .inl rfl
    · exact .inr (.inl ⟨k,rfl⟩)
    · cases h
      exact .inr (.inr rest)
  · rintro (rfl | ⟨k,rfl⟩ | rest)
    · exact .between _ _
    · exact .cut _ _ _ k _
    · exact .next rfl rest

theorem crash_remove_iff : Crash fs (.remove p::steps) fs' ↔
    fs' = fs ∨ Crash ((remove fs p).getD fs) steps fs' := by
  constructor
  · rintro (_ | _ | ⟨h,rest⟩)
    · exact .inl rfl
    · cases h
      exact .inr rest
  · rintro (rfl | rest)
    · exact .between _ _
    · exact .next rfl rest

theorem crash_rename_iff : Crash fs (.rename p q::steps) fs' ↔
    fs' = fs ∨ ∃ t, rename fs p q = some t ∧ Crash t steps fs' := by
  constructor
  · rintro (_ | _ | ⟨h,rest⟩)
    · exact .inl rfl
    · exact .inr ⟨_,h,rest⟩
  · rintro (rfl | ⟨t,h,rest⟩)
    · exact .between _ _
    · exact .next h rest

theorem read_getD_remove (r : π) :
    read ((remove fs p).getD fs) r = if r = p then none else read fs r := by
  unfold remove
  split
  · exact Finmap.lookup_erase_if fs p r
  · next hp =>
    split
    · next hr => exact hr ▸ Finmap.lookup_eq_none.mpr hp
    · rfl

end
end Files
