import Aios.Lib.RingBuffer

/-!
The byte ring of the shared-memory transport: two positions that wrap at the capacity, a copying
interface and one that hands out pointers. Arithmetic that leaves `usize`, or a copy beyond the
buffer, is `none`.
-/
namespace Aios.Ringbuf

open List Option

section

def checkedSub (a b : ℕ) : Option ℕ := if b ≤ a then some (a-b) else none

def checkedAdd (a b : ℕ) : Option ℕ := if a+b < 2^64 then some (a+b) else none

variable {a b : ℕ}

theorem checkedSub_of_le (h : b ≤ a) : checkedSub a b = some (a-b) := if_pos h

theorem checkedAdd_of_lt (h : a+b < 2^64) : checkedAdd a b = some (a+b) := if_pos h

end

variable {bytes : List UInt8} {n k count : ℕ}

section
variable (capacity : ℕ) (data : ℕ → UInt8) (pos : ℕ)

/-- The memory after `bytes` are stored from `pos` on. -/
def stored (bytes : List UInt8) (j : ℕ) : UInt8 :=
  if pos ≤ j then (bytes[j-pos]?).getD (data j) else data j

def copyIn (bytes : List UInt8) : Option (ℕ → UInt8) :=
  if pos+bytes.length ≤ capacity then some (stored data pos bytes) else none

def copyOut (n : ℕ) : Option (List UInt8) :=
  if pos+n ≤ capacity then some ((range n).map fun i => data (pos+i)) else none

variable {capacity data pos}

theorem copyIn_of_le (h : pos+bytes.length ≤ capacity) :
    copyIn capacity data pos bytes = some (stored data pos bytes) := if_pos h

theorem copyOut_of_le (h : pos+n ≤ capacity) :
    copyOut capacity data pos n = some ((range n).map fun i => data (pos+i)) := if_pos h

end

/-- The largest size that `Layout::from_size_align` accepts at an alignment of 4096. -/
def maxLayout : ℕ := 2^63-4096

inductive RingError where
  | configurationError (message : String)
  | ipcError (message : String)
  deriving DecidableEq

structure ByteRing where
  data : ℕ → UInt8
  writePos : ℕ
  readPos : ℕ
  capacity : ℕ
  capacity_le : capacity ≤ maxLayout
  write_lt : writePos < capacity
  read_lt : readPos < capacity

namespace ByteRing

/-- `memory` is what the allocator gives, `none` for a null pointer. -/
def new (capacity : ℕ) (memory : Option (ℕ → UInt8)) : Except RingError ByteRing :=
  if h : capacity = 0 then .error (.configurationError "Ring buffer capacity must be > 0")
  else if hle : capacity ≤ maxLayout then
    match memory with
    | none => .error (.ipcError "Failed to allocate ring buffer memory")
    | some data => .ok ⟨data,0,0,capacity,hle,Nat.pos_of_ne_zero h,Nat.pos_of_ne_zero h⟩
  else .error (.configurationError "Invalid ring buffer layout")

variable (r : ByteRing)

theorem capacity_pos : 0 < r.capacity := Nat.zero_lt_of_lt r.write_lt

def storeWritePos (data : ℕ → UInt8) (pos : ℕ) : ByteRing :=
  { r with data := data, writePos := pos%r.capacity, write_lt := Nat.mod_lt _ r.capacity_pos }

def storeReadPos (pos : ℕ) : ByteRing :=
  { r with readPos := pos%r.capacity, read_lt := Nat.mod_lt _ r.capacity_pos }

def availableWrite : Option ℕ :=
  if r.readPos ≤ r.writePos then do
    let used ← checkedSub r.writePos r.readPos
    let free ← checkedSub r.capacity used
    checkedSub free 1
  else do
    let free ← checkedSub r.readPos r.writePos
    checkedSub free 1

def availableRead : Option ℕ :=
  if r.readPos ≤ r.writePos then checkedSub r.writePos r.readPos
  else do
    let free ← checkedSub r.readPos r.writePos
    checkedSub r.capacity free

def write (bytes : List UInt8) : Option (ByteRing × Except RingError ℕ) := do
  let available ← r.availableWrite
  if available < bytes.length then
    return (r,.error
      (.ipcError s!"Ring buffer full: need {bytes.length}, have {available}"))
  let room ← checkedSub r.capacity r.writePos
  let firstSeg := min bytes.length room
  let data ← copyIn r.capacity r.data r.writePos (bytes.take firstSeg)
  -- the second segment, when the first one reached the end of the buffer
  let data ← (if firstSeg < bytes.length then copyIn r.capacity data 0 (bytes.drop firstSeg)
    else some data)
  let written := if firstSeg < bytes.length then firstSeg+(bytes.length-firstSeg) else firstSeg
  let pos ← checkedAdd r.writePos written
  return (r.storeWritePos data pos,.ok written)

/-- The bytes stored into a buffer of `room` bytes. -/
def read (room : ℕ) : Option (ByteRing × List UInt8) := do
  let available ← r.availableRead
  let toRead := min room available
  if toRead = 0 then return (r,[])
  let rest ← checkedSub r.capacity r.readPos
  let firstSeg := min toRead rest
  let first ← copyOut r.capacity r.data r.readPos firstSeg
  let second ← (if firstSeg < toRead then copyOut r.capacity r.data 0 (toRead-firstSeg)
    else some [])
  let readBytes := if firstSeg < toRead then firstSeg+(toRead-firstSeg) else firstSeg
  let pos ← checkedAdd r.readPos readBytes
  return (r.storeReadPos pos,first ++ second)

/-- The offset of the pointer and the number of contiguous bytes. -/
def readPtr : Option (ℕ × ℕ) := do
  let continuous ←
    (if r.readPos < r.writePos then checkedSub r.writePos r.readPos
    else if r.writePos < r.readPos then checkedSub r.capacity r.readPos
    else some 0)
  return (r.readPos,continuous)

def writePtr : Option (ℕ × ℕ) := do
  let available ←
    (if r.readPos ≤ r.writePos then do
      let behind ← checkedSub r.capacity r.writePos
      let free ← checkedAdd behind r.readPos
      checkedSub free 1
    else do
      let free ← checkedSub r.readPos r.writePos
      checkedSub free 1)
  let continuous ←
    (if r.readPos ≤ r.writePos then checkedSub r.capacity r.writePos
    else do
      let free ← checkedSub r.readPos r.writePos
      checkedSub free 1)
  return (r.writePos,min available continuous)

def advanceRead (count : ℕ) : Option (ByteRing × Except RingError Unit) := do
  let available ← r.availableRead
  if available < count then
    return (r,.error (.ipcError "Cannot advance read past available data"))
  let pos ← checkedAdd r.readPos count
  return (r.storeReadPos pos,.ok ())

def advanceWrite (count : ℕ) : Option (ByteRing × Except RingError Unit) := do
  let available ← r.availableWrite
  if available < count then
    return (r,.error (.ipcError "Cannot advance write past available space"))
  let pos ← checkedAdd r.writePos count
  return (r.storeWritePos r.data pos,.ok ())

def clear : ByteRing :=
  { r with writePos := 0, readPos := 0, write_lt := r.capacity_pos, read_lt := r.capacity_pos }

def used : ℕ :=
  if r.readPos ≤ r.writePos then r.writePos-r.readPos
  else r.capacity-(r.readPos-r.writePos)

theorem used_lt : r.used < r.capacity := by
  have hw := r.write_lt
  unfold used
  split <;> omega

def toQueue : RingBuffer UInt8 r.capacity := ⟨r.data,r.readPos,r.used,r.read_lt,r.used_lt.le⟩

def unread : List UInt8 := r.toQueue.toList

@[simp] theorem length_unread : r.unread.length = r.used := r.toQueue.length_toList

theorem availableRead_eq : r.availableRead = some r.used := by
  have hr := r.read_lt
  unfold availableRead used
  split
  next h => exact checkedSub_of_le h
  next h => rw [checkedSub_of_le (by omega),bind_eq_bind,bind_some,checkedSub_of_le (by omega)]

theorem availableWrite_eq : r.availableWrite = some (r.capacity-1-r.used) := by
  have hw := r.write_lt
  have hr := r.read_lt
  unfold availableWrite used
  split
  next h =>
    simp only [checkedSub_of_le h,bind_eq_bind,bind_some]
    rw [checkedSub_of_le (by omega),bind_some,checkedSub_of_le (by omega)]
    congr 1
    omega
  next h =>
    rw [checkedSub_of_le (by omega),bind_eq_bind,bind_some,checkedSub_of_le (by omega)]
    congr 1
    omega

/-- No sum of a position and a length leaves `usize`. -/
theorem checkedAdd_eq {pos : ℕ} (hpos : pos ≤ r.capacity) (hn : n ≤ r.capacity) :
    checkedAdd pos n = some (pos+n) := by
  have hcap : r.capacity ≤ 2^63-4096 := r.capacity_le
  exact checkedAdd_of_lt (by omega)

/-- Positions of at most twice the capacity wrap at most once. -/
theorem mod_capacity {c x : ℕ} (h : x < 2*c) : x%c = if x < c then x else x-c := by
  split
  next hlt => exact Nat.mod_eq_of_lt hlt
  next hge => rw [Nat.mod_eq_sub_mod (by omega),Nat.mod_eq_of_lt (by omega)]

theorem used_storeWritePos (data : ℕ → UInt8) (h : r.used+n < r.capacity) :
    (r.storeWritePos data (r.writePos+n)).used = r.used+n := by
  have hw := r.write_lt
  have hr := r.read_lt
  show (if r.readPos ≤ (r.writePos+n)%r.capacity then (r.writePos+n)%r.capacity-r.readPos
    else r.capacity-(r.readPos-(r.writePos+n)%r.capacity)) = r.used+n
  rw [mod_capacity (by omega)]
  unfold used at h ⊢
  split_ifs at h ⊢ <;> omega

theorem used_storeReadPos (h : n ≤ r.used) : (r.storeReadPos (r.readPos+n)).used = r.used-n := by
  have hw := r.write_lt
  have hr := r.read_lt
  have hused := r.used_lt
  show (if (r.readPos+n)%r.capacity ≤ r.writePos then r.writePos-(r.readPos+n)%r.capacity
    else r.capacity-((r.readPos+n)%r.capacity-r.writePos)) = r.used-n
  rw [mod_capacity (by omega)]
  unfold used at h hused ⊢
  split_ifs at h ⊢ <;> omega

theorem cell_behind (i : ℕ) : (r.readPos+(r.used+i))%r.capacity = (r.writePos+i)%r.capacity := by
  have hr := r.read_lt
  unfold used
  split
  next h =>
    congr 1
    omega
  next h =>
    have he : r.readPos+(r.capacity-(r.readPos-r.writePos)+i) = r.writePos+i+r.capacity := by omega
    rw [he,Nat.add_mod_right]

theorem unread_storeReadPos (h : n ≤ r.used) :
    (r.storeReadPos (r.readPos+n)).unread = r.unread.drop n := by
  have hqueue : (r.storeReadPos (r.readPos+n)).toQueue = r.toQueue.drop n := by
    have hused := r.used_storeReadPos h
    unfold toQueue RingBuffer.drop
    congr 1
  exact (congrArg RingBuffer.toList hqueue).trans (r.toQueue.toList_drop n)

theorem unread_storeWritePos {data : ℕ → UInt8} (h : r.used+bytes.length < r.capacity)
    (hdata : ∀ i < r.capacity, data ((r.writePos+i)%r.capacity) =
      (bytes[i]?).getD (r.data ((r.writePos+i)%r.capacity))) :
    (r.storeWritePos data (r.writePos+bytes.length)).unread = r.unread ++ bytes := by
  apply RingBuffer.toList_eq_append (r := r.toQueue)
  · rfl
  · exact r.used_storeWritePos data h
  · intro i hi
    -- an unread cell is reached from the write position only behind the new bytes
    have hi : i < r.used := hi
    have hcell : (r.readPos+i)%r.capacity = (r.writePos+(r.capacity-r.used+i))%r.capacity := by
      rw [← r.cell_behind]
      have he : r.readPos+(r.used+(r.capacity-r.used+i)) = r.readPos+i+r.capacity := by
        omega
      rw [he,Nat.add_mod_right]
    show data ((r.readPos+i)%r.capacity) = r.data ((r.readPos+i)%r.capacity)
    rw [hcell,hdata _ (by omega),getElem?_eq_none (by omega),getD_none]
  · intro i hi
    show data ((r.readPos+(r.used+i))%r.capacity) = bytes[i]
    rw [cell_behind,hdata i (by omega),getElem?_eq_getElem hi,getD_some]

section
variable {r}

theorem write_refused (h : r.capacity-1-r.used < bytes.length) :
    ∃ e, r.write bytes = some (r,.error e) := by
  unfold write
  rw [availableWrite_eq,bind_eq_bind,bind_some,if_pos h]
  exact ⟨_,rfl⟩

theorem stored_segments (hlen : bytes.length < r.capacity)
    (hk : min bytes.length (r.capacity-r.writePos) = k) (i : ℕ) (hi : i < r.capacity) :
    stored (stored r.data r.writePos (bytes.take k)) 0 (bytes.drop k) ((r.writePos+i)%r.capacity) =
      (bytes[i]?).getD (r.data ((r.writePos+i)%r.capacity)) := by
  have hw := r.write_lt
  rw [mod_capacity (by omega)]
  simp only [stored,Nat.zero_le,if_true,Nat.sub_zero,getElem?_drop]
  split
  next hlt =>
    -- before the end of the buffer: the first segment
    have hnone : bytes[k+(r.writePos+i)]? = none := getElem?_eq_none (by omega)
    rw [hnone,getD_none,if_pos (by omega),getElem?_take]
    have hsub : r.writePos+i-r.writePos = i := by omega
    rw [hsub]
    split
    next => rfl
    next hik =>
      have hbehind : bytes[i]? = none := getElem?_eq_none (by omega)
      rw [hbehind]
  next hge =>
    rw [if_neg (by omega)]
    congr 1
    by_cases hwrap : k < bytes.length
    · congr 1
      omega
    · rw [getElem?_eq_none (by omega),getElem?_eq_none (by omega)]

theorem write_accepted (h : bytes.length ≤ r.capacity-1-r.used) :
    ∃ r', r.write bytes = some (r',.ok bytes.length) ∧ r'.capacity = r.capacity ∧
      r'.unread = r.unread ++ bytes := by
  have hw := r.write_lt
  have hused := r.used_lt
  obtain ⟨k,hk⟩ : ∃ k, min bytes.length (r.capacity - r.writePos) = k := ⟨_,rfl⟩
  have hlt : ¬ r.capacity-1-r.used < bytes.length := by omega
  have hfirst : r.writePos+(bytes.take k).length ≤ r.capacity := by
    rw [length_take]
    omega
  have hsecond (data : ℕ → UInt8) :
      (if k < bytes.length then copyIn r.capacity data 0 (bytes.drop k) else some data) =
        some (stored data 0 (bytes.drop k)) := by
    split
    next =>
      apply copyIn_of_le
      rw [length_drop]
      omega
    next =>
      rw [drop_eq_nil_of_le (by omega)]
      rfl
  have hwritten : (if k < bytes.length then k+(bytes.length-k) else k) = bytes.length := by
    split <;> omega
  have hsum := r.checkedAdd_eq hw.le (by omega : bytes.length ≤ r.capacity)
  refine ⟨r.storeWritePos (stored (stored r.data r.writePos (bytes.take k)) 0 (bytes.drop k))
    (r.writePos+bytes.length),?_,rfl,?_⟩
  · unfold write
    simp only [availableWrite_eq,bind_eq_bind,bind_some,if_neg hlt,
      checkedSub_of_le hw.le,hk,copyIn_of_le hfirst,hsecond,hwritten,hsum]
    rfl
  · apply unread_storeWritePos
    · omega
    · exact stored_segments (by omega) hk

theorem segments_read (hn : n ≤ r.used) (hk : min n (r.capacity-r.readPos) = k) :
    ((range k).map fun i => r.data (r.readPos+i)) ++
        ((range (n-k)).map fun i => r.data (0+i)) = r.unread.take n := by
  have hr := r.read_lt
  have hused := r.used_lt
  have hfront : r.unread.take n = r.toQueue.front n := (r.toQueue.front_eq_take hn).symm
  rw [hfront]
  apply ext_getElem
  · simp
    omega
  · intro i h₁ h₂
    have hi : i < n := by simpa using h₂
    have hcell : (r.toQueue.front n)[i] = r.data ((r.readPos+i)%r.capacity) := by
      simp [RingBuffer.front,toQueue]
    rw [hcell,mod_capacity (by omega)]
    by_cases hik : i < k
    · rw [getElem_append_left (by simpa using hik),if_pos (by omega)]
      simp
    · rw [getElem_append_right (by simpa using hik),if_neg (by omega)]
      simp only [length_map,length_range,getElem_map,getElem_range]
      congr 1
      omega

/-- A read hands over as many of the oldest bytes as there is room for. -/
theorem read_eq (room : ℕ) :
    ∃ r', r.read room = some (r',r.unread.take room) ∧ r'.capacity = r.capacity ∧
      r'.unread = r.unread.drop room := by
  have hr := r.read_lt
  have hused := r.used_lt
  obtain ⟨n,hn⟩ : ∃ n, min room r.used = n := ⟨_,rfl⟩
  obtain ⟨k,hk⟩ : ∃ k, min n (r.capacity - r.readPos) = k := ⟨_,rfl⟩
  have htake : r.unread.take room = r.unread.take n := by
    rw [take_eq_take_iff,length_unread]
    omega
  have hdrop : r.unread.drop room = r.unread.drop n := by
    rw [drop_eq_drop_iff,length_unread]
    omega
  have hafter : (r.storeReadPos (r.readPos+n)).unread = r.unread.drop n :=
    r.unread_storeReadPos (by omega)
  rw [htake,hdrop]
  by_cases hzero : n = 0
  · refine ⟨r,?_,rfl,?_⟩
    · unfold read
      simp only [availableRead_eq,bind_eq_bind,bind_some,hn,hzero]
      rfl
    · rw [hzero,drop_zero]
  · have hfirst : r.readPos+k ≤ r.capacity := by omega
    have hsecond : (if k < n then copyOut r.capacity r.data 0 (n-k) else some []) =
        some ((range (n-k)).map fun i => r.data (0+i)) := by
      split
      next => exact copyOut_of_le (by omega)
      next hnk =>
        have hnone : n-k = 0 := by omega
        rw [hnone]
        rfl
    have hread : (if k < n then k+(n-k) else k) = n := by split <;> omega
    have hsum := r.checkedAdd_eq hr.le (by omega : n ≤ r.capacity)
    refine ⟨r.storeReadPos (r.readPos+n),?_,rfl,hafter⟩
    unfold read
    simp only [availableRead_eq,bind_eq_bind,bind_some,hn,if_neg hzero,
      checkedSub_of_le hr.le,hk,copyOut_of_le hfirst,hsecond,hread,hsum,
      segments_read (by omega) hk]
    rfl

/-- The unread bytes up to the end of the buffer. -/
theorem readPtr_eq : r.readPtr = some (r.readPos,min r.used (r.capacity-r.readPos)) := by
  have hr := r.read_lt
  have hw := r.write_lt
  unfold readPtr used
  rcases lt_trichotomy r.readPos r.writePos with hlt | heq | hgt
  · have hspan : min (r.writePos-r.readPos) (r.capacity-r.readPos) = r.writePos-r.readPos := by
      omega
    rw [if_pos hlt,if_pos hlt.le,checkedSub_of_le hlt.le,hspan]
    rfl
  · rw [if_neg heq.not_lt,if_neg heq.not_gt,if_pos heq.le,heq,Nat.sub_self,Nat.zero_min]
    rfl
  · have hspan : min (r.capacity-(r.readPos-r.writePos)) (r.capacity-r.readPos) =
        r.capacity-r.readPos := by omega
    rw [if_neg hgt.not_gt,if_pos hgt,if_neg hgt.not_ge,checkedSub_of_le hr.le,hspan]
    rfl

/-- The free bytes up to the end of the buffer. -/
theorem writePtr_eq :
    r.writePtr = some (r.writePos,min (r.capacity-1-r.used) (r.capacity-r.writePos)) := by
  have hr := r.read_lt
  have hw := r.write_lt
  unfold writePtr used
  by_cases hle : r.readPos ≤ r.writePos
  · have hsum := r.checkedAdd_eq (Nat.sub_le r.capacity r.writePos) hr.le
    have hone : 1 ≤ r.capacity-r.writePos+r.readPos := by omega
    have hfree : r.capacity-1-(r.writePos-r.readPos) = r.capacity-r.writePos+r.readPos-1 := by omega
    simp only [if_pos hle,checkedSub_of_le hw.le,bind_eq_bind,bind_some,hsum,
      checkedSub_of_le hone,hfree]
    rfl
  · have hone : 1 ≤ r.readPos-r.writePos := by omega
    have hsub : r.writePos ≤ r.readPos := by omega
    have hspan : min (r.capacity-1-(r.capacity-(r.readPos-r.writePos))) (r.capacity-r.writePos) =
        min (r.readPos-r.writePos-1) (r.readPos-r.writePos-1) := by omega
    simp only [if_neg hle,checkedSub_of_le hsub,bind_eq_bind,bind_some,checkedSub_of_le hone,hspan]
    rfl

theorem advanceRead_eq (h : count ≤ r.used) :
    r.advanceRead count = some (r.storeReadPos (r.readPos+count),.ok ()) := by
  have hsum := r.checkedAdd_eq r.read_lt.le (h.trans r.used_lt.le)
  unfold advanceRead
  simp only [availableRead_eq,bind_eq_bind,bind_some,if_neg (not_lt.mpr h),hsum]
  rfl

theorem advanceWrite_eq (h : count ≤ r.capacity-1-r.used) :
    r.advanceWrite count = some (r.storeWritePos r.data (r.writePos+count),.ok ()) := by
  have hsum := r.checkedAdd_eq r.write_lt.le (by omega : count ≤ r.capacity)
  unfold advanceWrite
  simp only [availableWrite_eq,bind_eq_bind,bind_some,if_neg (not_lt.mpr h),hsum]
  rfl

end
end ByteRing
end Aios.Ringbuf
