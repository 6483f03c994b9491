import Aios.Kernel.FramePool

/-! The laws of paging along whole runs, and the addresses that the walk does not tell apart. -/
namespace Aios.Kernel.Memory

open StoredTree Transition

/-- From a tree without shared tables, mapping and unmapping obey their laws in every run in which
`alloc_frame` returns no frame that is a table. -/
theorem pagingLaw_in_every_run (m : Memory) (ops : List PagingOp) (hm : m.Unshared)
    (hfresh : EachStep step (fun m op _ => m.OpFresh op) m ops) :
    Always step PagingLaw m ops := by
  have hstep (m : Memory) (op : PagingOp) (t : Memory) (h : m.Unshared) (hop : m.OpFresh op)
      (hs : m.step op = some t) : t.Unshared := step_unshared h hop hs
  have hunshared : Always step Unshared m ops := EachStep.always hstep hm hfresh
  exact hunshared.mono fun m h => h.pagingLaw

def emptyMemory : Memory where
  words _ := 0
  cr3 := 0x1000
  frames := ⟨[⟨0x2000,0x8000⟩],0x2000,0⟩

theorem emptyMemory_tableAt {p : List Index} {t : Frame} (h : emptyMemory.tableAt p = some t) :
    p = [] ∧ t = emptyMemory.root := by
  cases p with
  | nil =>
    cases h
    exact ⟨rfl,rfl⟩
  | cons i p =>
    have hnone : child 0 (emptyMemory.entry emptyMemory.root i) = none := child_zero_entry
    rw [tableAt,walk,hnone] at h
    cases h

theorem emptyMemory_unshared : emptyMemory.Unshared := by
  intro p q t hp hq
  rw [(emptyMemory_tableAt hp).1,(emptyMemory_tableAt hq).1]

theorem emptyMemory_supplied : emptyMemory.Supplied := by
  have hpool : emptyMemory.frames.pool = [0x2000,0x3000,0x4000,0x5000,0x6000,0x7000] := by decide
  have hframes : emptyMemory.frames.pool.all (fun f => f &&& pteFrame == f) = true := by decide
  refine ⟨⟨by decide,by decide,by decide⟩,by rw [hpool]; decide,
    fun f hf => beq_iff_eq.mp (List.all_eq_true.mp hframes f hf),fun f hf htable => ?_⟩
  obtain ⟨p,t,hp,rfl⟩ := htable
  rw [(emptyMemory_tableAt hp).2,hpool] at hf
  exact absurd hf (by decide)

/-- No table is ever shared, and none is among the frames still to be handed out. -/
theorem tables_never_handed_out (m : Memory) (ops : List PagingOp) (hm : m.Unshared)
    (hs : m.Supplied) : Always step (fun m => m.Unshared ∧ m.Supplied) m ops := by
  refine EachStep.always (C := fun m op _ => m.OpFresh op) (fun m op t h hop hst => ?_) ⟨hm,hs⟩
    (hs.opFresh hm ops)
  exact ⟨step_unshared h.1 hop hst,step_supplied h.1 h.2 hst⟩

/-- A user page is mapped, used and unmapped. -/
def mapThenUnmap : List PagingOp := [.mapPage 0x400000 0x5000 true,.unmapPage 0x400000]

theorem pagingLaw_in_mapThenUnmap :
    EachStep step (fun m op _ => m.OpFresh op) emptyMemory mapThenUnmap ∧
      Always step PagingLaw emptyMemory mapThenUnmap :=
  have hfresh := emptyMemory_supplied.opFresh emptyMemory_unshared mapThenUnmap
  ⟨hfresh,pagingLaw_in_every_run emptyMemory mapThenUnmap emptyMemory_unshared hfresh⟩

theorem tables_kept_in_mapThenUnmap :
    Always step (fun m => m.Unshared ∧ m.Supplied) emptyMemory mapThenUnmap :=
  tables_never_handed_out _ _ emptyMemory_unshared emptyMemory_supplied

/-- The walk drops the bits above the 48th: an address in another page is mapped too. -/
theorem alias_is_mapped :
    emptyMemory.Unshared ∧ emptyMemory.MapsFresh 0 false ∧ ¬ emptyMemory.HugePageCovers 0 ∧
      (emptyMemory.mapPage 0 0x5000 false).2.isOk = true ∧
      (0x1000000000000 : UInt64)/pageSize ≠ 0/pageSize ∧
      emptyMemory.translate 0x1000000000000 = none ∧
      (emptyMemory.mapPage 0 0x5000 false).1.translate 0x1000000000000 = some 0x5000 := by
  refine ⟨emptyMemory_unshared,emptyMemory_supplied.mapsFresh emptyMemory_unshared 0,?_,
    by decide +kernel,by decide,by decide,by decide +kernel⟩
  rintro ⟨d,e,hleaf,-,hpresent⟩
  cases hleaf
  exact hpresent (by decide)

end Aios.Kernel.Memory
