import Aios.Lib.Files

/-!
The atomic write, and what a crash leaves of it. The new content is written to a sibling with a
fixed suffix, the destination is removed, and the sibling renamed.
-/
namespace Aios.Vfs

open Files

abbrev PathBuf := List String

/-- The name under which the new content is written first. -/
def tmpPath (full : PathBuf) : PathBuf :=
  full.dropLast ++ [full.getLast?.getD "config" ++ ".tmp"]

def atomicWriteImpl (full : PathBuf) (data : List UInt8) : List (Step PathBuf) :=
  (if full = [] then [] else [.makeDirs]) ++
    [.write (tmpPath full) data,.remove full,.rename (tmpPath full) full]

theorem tmpPath_ne (full : PathBuf) : tmpPath full ≠ full := by
  intro h
  cases hlast : full.getLast? with
  | none =>
    obtain rfl := List.getLast?_eq_none_iff.mp hlast
    cases h
  | some name =>
    have hsplit := List.dropLast_append_getLast? name hlast
    unfold tmpPath at h
    rw [hlast,Option.getD_some] at h
    have hname : name ++ ".tmp" = name := by
      simpa only [List.cons.injEq,and_true] using List.append_cancel_left (h.trans hsplit.symm)
    have hlength := congrArg String.length hname
    rw [String.length_append] at hlength
    exact absurd hlength (Nat.ne_of_gt (Nat.lt_add_of_pos_right (by decide)))

/-- After a crash the destination has its old or its new content, and every other file its own. -/
def Intact (fs : FileSystem PathBuf) (dest : PathBuf) (data : List UInt8)
    (fs' : FileSystem PathBuf) : Prop :=
  (read fs' dest = read fs dest ∨ read fs' dest = some data) ∧
    ∀ other, other ≠ dest → ∀ content, read fs other = some content → read fs' other = some content

variable {fs fs' : FileSystem PathBuf} {dest : PathBuf} {data : List UInt8}

theorem crash_atomicWriteImpl_iff : Crash fs (atomicWriteImpl dest data) fs' ↔
    fs' = fs ∨ (∃ k, fs' = write fs (tmpPath dest) (data.take k)) ∨
      fs' = write fs (tmpPath dest) data ∨
      let removed := (remove (write fs (tmpPath dest) data) dest).getD
        (write fs (tmpPath dest) data)
      fs' = removed ∨ ∃ t, rename removed (tmpPath dest) dest = some t ∧ fs' = t := by
  unfold atomicWriteImpl
  split
  · simp only [List.nil_append,crash_write_iff,crash_remove_iff,crash_rename_iff,crash_nil_iff]
  · simp only [List.cons_append,List.nil_append,crash_makeDirs_iff,crash_write_iff,
      crash_remove_iff,crash_rename_iff,crash_nil_iff]

theorem intact_write (h : read fs (tmpPath dest) = none) (content : List UInt8) :
    Intact fs dest data (write fs (tmpPath dest) content) := by
  refine ⟨.inl ?_,fun other hother old hold => ?_⟩
  · rw [read_write,if_neg (tmpPath_ne dest).symm]
  · have hne : other ≠ tmpPath dest := by
      rintro rfl
      rw [h] at hold
      cases hold
    rw [read_write,if_neg hne,hold]

/-- The atomic write is atomic precisely if neither the destination nor its sibling exists. -/
theorem atomicWriteImpl_intact_iff (fs : FileSystem PathBuf) (dest : PathBuf) (data : List UInt8) :
    (∀ fs', Crash fs (atomicWriteImpl dest data) fs' → Intact fs dest data fs') ↔
      read fs dest = none ∧ read fs (tmpPath dest) = none := by
  have hne := tmpPath_ne dest
  simp only [crash_atomicWriteImpl_iff]
  generalize hremoved : (remove (write fs (tmpPath dest) data) dest).getD
    (write fs (tmpPath dest) data) = removed
  have hread (r : PathBuf) : read removed r =
      if r = dest then none else if r = tmpPath dest then some data else read fs r := by
    rw [← hremoved,read_getD_remove,read_write]
  obtain ⟨t,ht⟩ : ∃ t, rename removed (tmpPath dest) dest = some t := by
    rw [rename,hread,if_neg hne,if_pos rfl]
    exact ⟨_,rfl⟩
  have hrenamed := read_rename removed (tmpPath dest) dest ht
  constructor
  · intro hintact
    constructor
    · obtain ⟨hdest,-⟩ := hintact removed (.inr (.inr (.inr (.inl rfl))))
      rw [hread,if_pos rfl] at hdest
      obtain hold | hnew := hdest
      · exact hold.symm
      · cases hnew
    · obtain ⟨-,hothers⟩ := hintact t (.inr (.inr (.inr (.inr ⟨t,ht,rfl⟩))))
      cases hold : read fs (tmpPath dest) with
      | none => rfl
      | some content =>
        have hkept := hothers _ hne content hold
        rw [hrenamed,if_neg hne,if_pos rfl] at hkept
        cases hkept
  · rintro ⟨hdest,htmp⟩ fs' (rfl | ⟨k,rfl⟩ | rfl | rfl | ⟨t',ht',rfl⟩)
    · exact ⟨.inl rfl,fun _ _ _ h => h⟩
    · exact intact_write htmp _
    · exact intact_write htmp _
    · refine ⟨.inl (by rw [hread,if_pos rfl,hdest]),fun other hother old hold => ?_⟩
      have hsibling : other ≠ tmpPath dest := by
        rintro rfl
        rw [htmp] at hold
        cases hold
      rw [hread,if_neg hother,if_neg hsibling,hold]
    · cases ht.symm.trans ht'
      refine ⟨.inr ?_,fun other hother old hold => ?_⟩
      · rw [hrenamed,if_pos rfl,hread,if_neg hne,if_pos rfl]
      · have hsibling : other ≠ tmpPath dest := by
          rintro rfl
          rw [htmp] at hold
          cases hold
        rw [hrenamed,if_neg hother,if_neg hsibling,hread,if_neg hother,if_neg hsibling,hold]

/-- A crash between the removal and the renaming loses the destination. -/
theorem crash_loses_destination :
    Crash (Finmap.singleton ["config","settings.json"] [1] : FileSystem PathBuf)
        (atomicWriteImpl ["config","settings.json"] [2])
        (Finmap.singleton ["config","settings.json.tmp"] [2]) ∧
      ¬ Intact (Finmap.singleton ["config","settings.json"] [1]) ["config","settings.json"] [2]
        (Finmap.singleton ["config","settings.json.tmp"] [2]) := by
  constructor
  · exact crash_atomicWriteImpl_iff.mpr (.inr (.inr (.inr (.inl (by decide +kernel)))))
  · rintro ⟨hold | hnew,-⟩
    · exact absurd hold (by decide +kernel)
    · exact absurd hnew (by decide +kernel)

end Aios.Vfs
