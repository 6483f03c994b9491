import Aios.Core.RoundTrip
import Aios.Lib.Files
import Mathlib.Data.List.Sort
import Mathlib.Data.String.Basic

/-!
Snapshots, one file each under its id. The cleanup deletes by the order of the ids, which the caller
chose, and not by age.
-/
namespace Aios.Persistence

open Aios.Core Bincode Files List

structure StateSnapshot where
  id : Text
  timestampMs : UInt64
  data : Vec UInt8
  checksum : Digest
  sizeBytes : UInt64
  deriving DecidableEq

namespace StateSnapshot

def serialize (s : StateSnapshot) : List UInt8 :=
  encodeText s.id ++ (encodeU64 s.timestampMs ++ (encodeVec encodeU8 s.data ++
    (s.checksum.1 ++ encodeU64 s.sizeBytes)))

def decoder : Decoder StateSnapshot := do
  let id ← str
  let timestampMs ← u64
  let data ← vec u8
  let checksum ← digest
  let sizeBytes ← u64
  return ⟨id,timestampMs,data,checksum,sizeBytes⟩

def deserialize (bytes : List UInt8) : Option StateSnapshot := (decoder bytes).map Prod.fst

theorem decoder_decodes (s : StateSnapshot) : Decodes decoder s.serialize s := by
  refine (str_decodes s.id).bind ?_
  refine (u64_decodes s.timestampMs).bind ?_
  refine (vec_decodes u8_decodes s.data).bind ?_
  refine (digest_decodes s.checksum).bind ?_
  exact (u64_decodes s.sizeBytes).finish (Decodes.pure s)

theorem deserialize_serialize (s : StateSnapshot) : deserialize s.serialize = some s := by
  have hread := decoder_decodes s []
  rw [append_nil] at hread
  rw [deserialize,hread]
  rfl

def name (s : StateSnapshot) : String := s.id.1

end StateSnapshot

abbrev SnapshotDir := FileSystem String

namespace SnapshotDir

variable (dir : SnapshotDir) (id : String) {ss : List StateSnapshot}

def tempName : String := id ++ ".tmp"

def isSnapshot (name : String) : Bool := ¬ ".tmp".toList <:+ name.toList

def save (s : StateSnapshot) : Option SnapshotDir :=
  rename (write dir (tempName s.name) s.serialize) (tempName s.name) s.name

def load : Option StateSnapshot :=
  (read dir id).bind StateSnapshot.deserialize

def listSnapshots (order : List String) : List String := order.filter isSnapshot

/-- The `while` loop: as long as there are too many, the first one is deleted. -/
def deleteFirst (keepCount : ℕ) : List String → SnapshotDir → ℕ → Option (SnapshotDir × ℕ)
  | [], dir, deleted => some (dir,deleted)
  | oldest::rest, dir, deleted =>
    if keepCount < (oldest::rest).length then
      (remove dir oldest).bind fun dir => deleteFirst keepCount rest dir (deleted+1)
    else some (dir,deleted)

def cleanupOldest (order : List String) (keepCount : ℕ) : Option (SnapshotDir × ℕ) :=
  deleteFirst keepCount ((listSnapshots order).insertionSort (· ≤ ·)) dir 0

def saveAll (ss : List StateSnapshot) : Option SnapshotDir :=
  ss.foldlM save dir

theorem tempName_not_snapshot : isSnapshot (tempName id) = false := by
  rw [isSnapshot,tempName,String.toList_append]
  exact decide_eq_false (not_not.mpr (suffix_append _ _))

/-- The directory has the files of the given snapshots, and no others. -/
def Holds (ss : List StateSnapshot) : Prop :=
  ∀ name data, read dir name = some data ↔ ∃ s ∈ ss, s.name = name ∧ s.serialize = data

theorem Holds.save {dir : SnapshotDir} {s : StateSnapshot}
    (h : Holds dir ss) (htemp : ∀ t ∈ ss, isSnapshot t.name) (hnew : s.name ∉ ss.map (·.name)) :
    ∃ dir', save dir s = some dir' ∧ Holds dir' (ss ++ [s]) := by
  obtain ⟨dir',hdir',hread⟩ := rename_write dir (tempName s.name) s.name s.serialize
  have hunused : read dir (tempName s.name) = none := by
    by_contra hsome
    obtain ⟨data,hdata⟩ := Option.ne_none_iff_exists'.mp hsome
    obtain ⟨t,ht,hname,-⟩ := (h _ _).mp hdata
    have := htemp t ht
    rw [hname,tempName_not_snapshot] at this
    cases this
  refine ⟨dir',hdir',fun name data => ?_⟩
  rw [hread]
  split
  · next hname =>
    subst hname
    simp only [mem_append,mem_singleton,Option.some.injEq]
    constructor
    · exact fun hdata => ⟨s,.inr rfl,rfl,hdata⟩
    · rintro ⟨t,ht | rfl,hname,hdata⟩
      · exact absurd (mem_map.mpr ⟨t,ht,hname⟩) hnew
      · exact hdata
  · next hname =>
    have hold : (if name = tempName s.name then none else read dir name) = read dir name := by
      split
      · next htmp => rw [htmp,hunused]
      · rfl
    rw [hold,h]
    simp only [mem_append,mem_singleton]
    constructor
    · rintro ⟨t,ht,hrest⟩
      exact ⟨t,.inl ht,hrest⟩
    · rintro ⟨t,ht | rfl,hrest⟩
      · exact ⟨t,ht,hrest⟩
      · exact absurd hrest.1.symm hname

theorem saveAll_holds (hnames : (ss.map (·.name)).Nodup) (htemp : ∀ s ∈ ss, isSnapshot s.name) :
    ∃ dir, saveAll ∅ ss = some dir ∧ Holds dir ss := by
  induction ss using reverseRecOn with
  | nil => exact ⟨∅,rfl,fun name data => by simp [Files.read]⟩
  | append_singleton ss s ih =>
    rw [map_append,nodup_append] at hnames
    have hbefore : ∀ t ∈ ss, isSnapshot t.name := fun t ht => htemp t (mem_append_left _ ht)
    obtain ⟨dir,hdir,hholds⟩ := ih hnames.1 hbefore
    have hnew : s.name ∉ ss.map (·.name) := fun hmem =>
      hnames.2.2 _ hmem _ (mem_singleton_self _) rfl
    obtain ⟨dir',hdir',hholds'⟩ := hholds.save hbefore hnew
    refine ⟨dir',?_,hholds'⟩
    rw [saveAll,foldlM_append,show foldlM save ∅ ss = some dir from hdir]
    simp [hdir']

theorem deleteFirst_spec (keepCount : ℕ) {names : List String} (hnodup : names.Nodup)
    {dir : SnapshotDir} (hmem : ∀ name ∈ names, name ∈ dir) (deleted : ℕ) :
    ∃ dir', deleteFirst keepCount names dir deleted =
        some (dir',deleted+(names.length-keepCount)) ∧
      ∀ name, read dir' name =
        if name ∈ names.take (names.length-keepCount) then none else read dir name := by
  induction names generalizing dir deleted with
  | nil => exact ⟨dir,by simp [deleteFirst],fun name => by simp⟩
  | cons oldest rest ih =>
    obtain ⟨hold,hrest⟩ := nodup_cons.mp hnodup
    by_cases hmany : keepCount < (oldest::rest).length
    · have hremove : remove dir oldest = some (dir.erase oldest) :=
        if_pos (hmem oldest mem_cons_self)
      have hstill : ∀ name ∈ rest, name ∈ dir.erase oldest := fun name hname =>
        Finmap.mem_erase.mpr ⟨fun heq => hold (heq ▸ hname),hmem name (mem_cons_of_mem _ hname)⟩
      obtain ⟨dir',hdir',hread⟩ := ih hrest hstill (deleted+1)
      have hlength : (oldest::rest).length-keepCount = rest.length-keepCount+1 := by
        simp only [length_cons] at hmany ⊢
        omega
      refine ⟨dir',?_,fun name => ?_⟩
      · rw [deleteFirst,if_pos hmany,hremove,Option.bind_some,hdir',hlength]
        congr 2
        omega
      · rw [hread,hlength,take_succ_cons,read_remove dir oldest hremove]
        by_cases hname : name = oldest <;> simp [hname]
    · have hnone : (oldest::rest).length-keepCount = 0 := by omega
      refine ⟨dir,?_,fun name => ?_⟩
      · rw [deleteFirst,if_neg hmany,hnone,Nat.add_zero]
      · rw [hnone,take_zero,if_neg not_mem_nil]

end SnapshotDir

open SnapshotDir

/-- In a list in increasing order, an element is in front of the last `k` precisely if at
least `k` elements are greater. -/
theorem mem_take_iff_of_pairwise_lt {α : Type*} [LinearOrder α] {xs : List α} (k : ℕ)
    (h : xs.Pairwise (· < ·)) {x : α} (hx : x ∈ xs) :
    x ∈ xs.take (xs.length-k) ↔ k ≤ (xs.filter (x < ·)).length := by
  induction xs with
  | nil => cases hx
  | cons y ys ih =>
    obtain ⟨hy,hys⟩ := pairwise_cons.mp h
    by_cases hk : k ≤ ys.length
    · have hlength : (y::ys).length-k = ys.length-k+1 := by
        simp only [length_cons]
        omega
      rw [hlength,take_succ_cons,mem_cons]
      obtain rfl | hx := mem_cons.mp hx
      · have hall : (x::ys).filter (x < ·) = ys := by
          simpa using hy
        simpa [hall] using hk
      · have hlt := hy x hx
        rw [filter_cons,if_neg (by simpa using hlt.le),← ih hys hx]
        exact or_iff_right hlt.ne'
    · have hlength : (y::ys).length-k = 0 := by
        simp only [length_cons]
        omega
      have hcount : ((y::ys).filter (x < ·)).length < (y::ys).length :=
        length_filter_lt_length_iff_exists.mpr ⟨x,hx,by simp⟩
      rw [hlength,take_zero]
      exact iff_of_false not_mem_nil (by omega)

structure SnapshotSet where
  snapshots : List StateSnapshot
  names_nodup : (snapshots.map (·.name)).Nodup
  not_temp : ∀ s ∈ snapshots, isSnapshot s.name
  ages_nodup : (snapshots.map (·.timestampMs)).Nodup

namespace SnapshotSet

variable (S : SnapshotSet)

/-- The number of snapshots that are newer than `s`. -/
def newer (s : StateSnapshot) : ℕ :=
  (S.snapshots.filter fun t => s.timestampMs < t.timestampMs).length

/-- The number of snapshots with a greater id than `s`. -/
def above (s : StateSnapshot) : ℕ := (S.snapshots.filter fun t => s.name < t.name).length

/-- The cleanup leaves `kept` of the saved snapshots and deletes the others, in whatever order the
directory is read. -/
def Leaves (keepCount : ℕ) (kept : StateSnapshot → Prop) [DecidablePred kept] : Prop :=
  ∃ dir, saveAll ∅ S.snapshots = some dir ∧
    ∀ order, Finmap.Enumerates order dir → ∃ dir', dir.cleanupOldest order keepCount =
          some (dir',S.snapshots.length-keepCount) ∧
        ∀ s ∈ S.snapshots, dir'.load s.name = if kept s then some s else none

theorem sorted_names {dir : SnapshotDir} (h : dir.Holds S.snapshots) {order : List String}
    (horder : Finmap.Enumerates order dir) :
    ((listSnapshots order).insertionSort (· ≤ ·)).Perm (S.snapshots.map (·.name)) := by
  have hmem : ∀ name, name ∈ order ↔ name ∈ S.snapshots.map (·.name) := by
    intro name
    rw [horder.2,Finmap.mem_iff,mem_map]
    constructor
    · rintro ⟨data,hdata⟩
      obtain ⟨s,hs,hname,-⟩ := (h name data).mp hdata
      exact ⟨s,hs,hname⟩
    · rintro ⟨s,hs,hname⟩
      exact ⟨s.serialize,(h name _).mpr ⟨s,hs,hname,rfl⟩⟩
  have hall : listSnapshots order = order := by
    refine filter_eq_self.mpr fun name hname => ?_
    obtain ⟨s,hs,rfl⟩ := mem_map.mp ((hmem name).mp hname)
    exact S.not_temp s hs
  rw [hall]
  refine (perm_insertionSort _ _).trans ?_
  exact (perm_ext_iff_of_nodup horder.1 S.names_nodup).mpr hmem

/-- The cleanup keeps the snapshots with the greatest ids. -/
theorem leaves_above (keepCount : ℕ) : S.Leaves keepCount fun s => S.above s < keepCount := by
  obtain ⟨dir,hdir,hholds⟩ := saveAll_holds S.names_nodup S.not_temp
  refine ⟨dir,hdir,fun order horder => ?_⟩
  have hperm := S.sorted_names hholds horder
  have hsorted := pairwise_insertionSort (· ≤ ·) (listSnapshots order)
  unfold cleanupOldest
  generalize (listSnapshots order).insertionSort (· ≤ ·) = names at hperm hsorted ⊢
  have hnodup : names.Nodup := hperm.nodup_iff.mpr S.names_nodup
  have hstrict : names.Pairwise (· < ·) := (hsorted.and hnodup).imp fun h => lt_of_le_of_ne h.1 h.2
  have hpresent : ∀ name ∈ names, name ∈ dir := by
    intro name hname
    obtain ⟨s,hs,rfl⟩ := mem_map.mp (hperm.mem_iff.mp hname)
    exact Finmap.mem_iff.mpr ⟨_,(hholds _ _).mpr ⟨s,hs,rfl,rfl⟩⟩
  obtain ⟨dir',hdir',hread⟩ := deleteFirst_spec keepCount hnodup hpresent 0
  have hlength : names.length = S.snapshots.length := by rw [hperm.length_eq,length_map]
  refine ⟨dir',by rw [hdir',hlength,Nat.zero_add],fun s hs => ?_⟩
  have hmem : s.name ∈ names := hperm.mem_iff.mpr (mem_map.mpr ⟨s,hs,rfl⟩)
  have habove : (names.filter (s.name < ·)).length = S.above s := by
    rw [(hperm.filter _).length_eq,filter_map,length_map]
    rfl
  have hfile : read dir s.name = some s.serialize := (hholds _ _).mpr ⟨s,hs,rfl,rfl⟩
  rw [load,hread,hfile]
  simp only [mem_take_iff_of_pairwise_lt keepCount hstrict hmem]
  by_cases hkept : S.above s < keepCount
  · rw [if_pos hkept,if_neg (by omega),Option.bind_some,StateSnapshot.deserialize_serialize]
  · rw [if_neg hkept,if_pos (by omega),Option.bind_none]

/-- The newest snapshots are those with the greatest ids. -/
def AgedById (keepCount : ℕ) : Prop :=
  ∀ s ∈ S.snapshots, S.newer s < keepCount ↔ S.above s < keepCount

theorem agedById_of_leaves {keepCount : ℕ}
    (h : S.Leaves keepCount fun s => S.newer s < keepCount) : S.AgedById keepCount := by
  obtain ⟨dir,hdir,habove⟩ := S.leaves_above keepCount
  obtain ⟨dir₂,hdir₂,hnewer⟩ := h
  obtain rfl : dir = dir₂ := Option.some.inj (hdir.symm.trans hdir₂)
  obtain ⟨order,horder⟩ := Finmap.exists_enumerates dir
  obtain ⟨dir',hdir',hload⟩ := habove order horder
  obtain ⟨dir'',hdir'',hload'⟩ := hnewer order horder
  obtain rfl : dir' = dir'' := congrArg Prod.fst (Option.some.inj (hdir'.symm.trans hdir''))
  intro s hs
  have hsame := (hload' s hs).symm.trans (hload s hs)
  by_cases hn : S.newer s < keepCount <;> by_cases ha : S.above s < keepCount <;>
    simp [hn,ha] at hsame ⊢

/-- The cleanup keeps the newest snapshots precisely if they have the greatest ids. -/
theorem keeps_newest_iff_aged_by_id (keepCount : ℕ) :
    (S.Leaves keepCount fun s => S.newer s < keepCount) ↔ S.AgedById keepCount := by
  refine ⟨S.agedById_of_leaves,fun haged => ?_⟩
  obtain ⟨dir,hdir,habove⟩ := S.leaves_above keepCount
  refine ⟨dir,hdir,fun order horder => ?_⟩
  obtain ⟨dir',hdir',hload⟩ := habove order horder
  refine ⟨dir',hdir',fun s hs => ?_⟩
  simp only [hload s hs,haged s hs]

def emptySnapshot (id : Text) (timestampMs : UInt64) : StateSnapshot :=
  ⟨id,timestampMs,⟨[],by decide⟩,.zeros,0⟩

/-- Two snapshots that are numbered by their times. -/
def numbered : SnapshotSet where
  snapshots := [emptySnapshot ⟨"block_9",by decide⟩ 9,emptySnapshot ⟨"block_10",by decide⟩ 10]
  names_nodup := by decide
  not_temp := by decide
  ages_nodup := by decide

/-- The id of the newer one is the smaller text. -/
theorem cleanup_deletes_newest : ¬ numbered.Leaves 1 fun s => numbered.newer s < 1 := by
  intro h
  have haged := numbered.agedById_of_leaves h (emptySnapshot ⟨"block_10",by decide⟩ 10)
    (mem_cons_of_mem _ mem_cons_self)
  exact absurd (haged.mp (by decide)) (by decide)

end SnapshotSet
end Aios.Persistence
