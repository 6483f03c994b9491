import Aios.Lib.Transition
import Aios.Ringbuf.Buffer

/-!
The byte ring as a bounded queue: every call is a step of a queue that holds one byte less than the
capacity.
-/
namespace Aios.Ringbuf

open Transition List Option

/-- The calls. `fill` stores as much as the span of `write_ptr` takes and advances by that; `take`
reads up to `n` bytes of the span of `read_ptr` and advances by as many. -/
inductive Op where
  | write (bytes : List UInt8)
  | read (room : ℕ)
  | fill (bytes : List UInt8)
  | take (n : ℕ)
  | clear

inductive Reply where
  | wrote (n : ℕ)
  | refused (e : RingError)
  | bytes (bs : List UInt8)
  | cleared

def ByteRing.perform (r : ByteRing) : Op → Option (ByteRing × Reply)
  | .write bytes => do
    match ← r.write bytes with
    | (r,.ok n) => return (r,.wrote n)
    | (r,.error e) => return (r,.refused e)
  | .read room => do
    let (r,bs) ← r.read room
    return (r,.bytes bs)
  | .fill bytes => do
    let (offset,room) ← r.writePtr
    let part := bytes.take room
    let data ← copyIn r.capacity r.data offset part
    match ← { r with data := data }.advanceWrite part.length with
    | (r,.ok _) => return (r,.wrote part.length)
    | (r,.error e) => return (r,.refused e)
  | .take n => do
    let (offset,continuous) ← r.readPtr
    let count := min n continuous
    let bs ← copyOut r.capacity r.data offset count
    match ← r.advanceRead count with
    | (r,.ok _) => return (r,.bytes bs)
    | (r,.error e) => return (r,.refused e)
  | .clear => some (r.clear,.cleared)

/-- A first-in-first-out queue of at most `limit` bytes. How much `fill` and `take` move is
left to the queue. -/
inductive FifoStep (limit : ℕ) : List UInt8 → Op → Reply → List UInt8 → Prop where
  | write {q bytes : List UInt8} (fits : q.length+bytes.length ≤ limit) :
      FifoStep limit q (.write bytes) (.wrote bytes.length) (q ++ bytes)
  | refuse {q bytes : List UInt8} (full : limit < q.length+bytes.length) (e : RingError) :
      FifoStep limit q (.write bytes) (.refused e) q
  | read {q : List UInt8} (room : ℕ) :
      FifoStep limit q (.read room) (.bytes (q.take room)) (q.drop room)
  | fill {q bytes : List UInt8} {n : ℕ} (some_ : n ≤ bytes.length) (fits : q.length+n ≤ limit) :
      FifoStep limit q (.fill bytes) (.wrote n) (q ++ bytes.take n)
  | take {q : List UInt8} {n m : ℕ} (some_ : n ≤ m) (there : n ≤ q.length) :
      FifoStep limit q (.take m) (.bytes (q.take n)) (q.drop n)
  | clear {q : List UInt8} : FifoStep limit q .clear .cleared []

theorem FifoStep.write_of_refused {limit : ℕ} {q q' : List UInt8} {op : Op} {e : RingError}
    (h : FifoStep limit q op (.refused e) q') : ∃ bytes, op = .write bytes := by
  cases h
  exact ⟨_,rfl⟩

namespace ByteRing

variable (r : ByteRing)

structure Refines (op : Op) (r' : ByteRing) (reply : Reply) : Prop where
  returns : r.perform op = some (r',reply)
  capacity : r'.capacity = r.capacity
  fifo : FifoStep (r.capacity-1) r.unread op reply r'.unread
  refused : ∀ e, reply = .refused e → r' = r

theorem write_refines (bytes : List UInt8) : ∃ r' reply, r.Refines (.write bytes) r' reply := by
  have hused := r.used_lt
  by_cases h : bytes.length ≤ r.capacity-1-r.used
  · obtain ⟨r',hwrite,hcap,hunread⟩ := write_accepted h
    refine ⟨r',.wrote bytes.length,?_,hcap,?_,fun e he => nomatch he⟩
    · simp only [perform,hwrite]
      rfl
    · rw [hunread]
      apply FifoStep.write
      rw [length_unread]
      omega
  · obtain ⟨e,hwrite⟩ := write_refused (lt_of_not_ge h)
    refine ⟨r,.refused e,?_,rfl,?_,fun _ _ => rfl⟩
    · simp only [perform,hwrite]
      rfl
    · apply FifoStep.refuse
      rw [length_unread]
      omega

theorem read_refines (room : ℕ) : ∃ r' reply, r.Refines (.read room) r' reply := by
  obtain ⟨r',hread,hcap,hunread⟩ := r.read_eq room
  refine ⟨r',.bytes (r.unread.take room),?_,hcap,?_,fun e he => nomatch he⟩
  · simp only [perform,hread]
    rfl
  · rw [hunread]
    exact FifoStep.read room

theorem stored_span {part : List UInt8} (h : r.writePos+part.length ≤ r.capacity) (i : ℕ)
    (hi : i < r.capacity) :
    stored r.data r.writePos part ((r.writePos+i)%r.capacity) =
      (part[i]?).getD (r.data ((r.writePos+i)%r.capacity)) := by
  unfold stored
  rw [mod_capacity (by omega)]
  split
  next hlt =>
    have hsub : r.writePos+i-r.writePos = i := by omega
    rw [if_pos (by omega),hsub]
  next hge => rw [if_neg (by omega),getElem?_eq_none (by omega),getD_none]

theorem fill_refines (bytes : List UInt8) : ∃ r' reply, r.Refines (.fill bytes) r' reply := by
  have hused := r.used_lt
  have hw := r.write_lt
  obtain ⟨room,hmin⟩ : ∃ n, min (r.capacity-1-r.used) (r.capacity-r.writePos) = n := ⟨_,rfl⟩
  have hptr := r.writePtr_eq
  rw [hmin] at hptr
  have hroom : room ≤ r.capacity-1-r.used := by omega
  obtain ⟨part,hpart⟩ : ∃ part, bytes.take room = part := ⟨_,rfl⟩
  have hlen : part.length ≤ room := by
    rw [← hpart]
    exact length_take_le room bytes
  have hcopy : r.writePos+part.length ≤ r.capacity := by omega
  have hfill : part = bytes.take part.length := by
    rw [← hpart,length_take,take_eq_take_iff]
    omega
  have hadvance : { r with data := stored r.data r.writePos part }.advanceWrite part.length =
      some (r.storeWritePos (stored r.data r.writePos part) (r.writePos+part.length),.ok ()) :=
    advanceWrite_eq (hlen.trans hroom)
  have hunread := r.unread_storeWritePos (by omega) (r.stored_span hcopy)
  refine ⟨r.storeWritePos (stored r.data r.writePos part) (r.writePos+part.length),
    .wrote part.length,?_,rfl,?_,fun e he => nomatch he⟩
  · simp only [perform,hptr,bind_eq_bind,bind_some,hpart,copyIn_of_le hcopy,hadvance]
    rfl
  · rw [hunread,hfill]
    nth_rewrite 1 [← hfill]
    apply FifoStep.fill
    · rw [← hpart]
      exact length_take_le' room bytes
    · rw [length_unread]
      omega

theorem take_refines (n : ℕ) : ∃ r' reply, r.Refines (.take n) r' reply := by
  have hr := r.read_lt
  have hptr := r.readPtr_eq
  obtain ⟨count,hcount⟩ : ∃ count, min n (min r.used (r.capacity-r.readPos)) = count := ⟨_,rfl⟩
  have hused : count ≤ r.used := by omega
  have hcopy : r.readPos+count ≤ r.capacity := by omega
  have hspan : ((range count).map fun i => r.data (r.readPos+i)) = r.unread.take count := by
    have hsegments := r.segments_read hused (k := count) (by omega)
    rw [← hsegments,Nat.sub_self]
    simp
  refine ⟨r.storeReadPos (r.readPos+count),.bytes (r.unread.take count),?_,rfl,?_,
    fun e he => nomatch he⟩
  · simp only [perform,hptr,bind_eq_bind,bind_some,hcount,copyOut_of_le hcopy,
      advanceRead_eq hused,hspan]
    rfl
  · rw [r.unread_storeReadPos hused]
    apply FifoStep.take
    · omega
    · rw [length_unread]
      exact hused

/-- No call fails to return, and each is a step of the queue. -/
theorem perform_refines (op : Op) : ∃ r' reply, r.Refines op r' reply := by
  cases op with
  | write bytes => exact r.write_refines bytes
  | read room => exact r.read_refines room
  | fill bytes => exact r.fill_refines bytes
  | take n => exact r.take_refines n
  | clear => exact ⟨r.clear,.cleared,rfl,rfl,.clear,fun e he => nomatch he⟩

end ByteRing

open ByteRing

structure Session where
  ring : ByteRing
  written : List UInt8
  delivered : List UInt8

namespace Session

def start (r : ByteRing) : Session := ⟨r,[],[]⟩

def note (S : Session) (r : ByteRing) : Op → Reply → Session
  | .clear, _ => ⟨r,[],[]⟩
  | .write bytes, .wrote n | .fill bytes, .wrote n =>
    ⟨r,S.written ++ bytes.take n,S.delivered⟩
  | _, .bytes bs => ⟨r,S.written,S.delivered ++ bs⟩
  | _, _ => ⟨r,S.written,S.delivered⟩

def step (S : Session) (op : Op) : Option Session :=
  (S.ring.perform op).map fun (r,reply) => S.note r op reply

variable (S : Session)

def pending : List UInt8 := S.written.drop S.delivered.length

structure Faithful : Prop where
  inOrder : S.delivered <+: S.written
  bounded : S.pending.length ≤ S.ring.capacity-1
  readable : S.ring.availableRead = some S.pending.length
  writable : S.ring.availableWrite = some (S.ring.capacity-1-S.pending.length)
  readSpan : ∃ offset n, S.ring.readPtr = some (offset,n) ∧ offset+n ≤ S.ring.capacity ∧
    n ≤ S.pending.length
  writeSpan : ∃ offset n, S.ring.writePtr = some (offset,n) ∧ offset+n ≤ S.ring.capacity ∧
    n ≤ S.ring.capacity-1-S.pending.length

/-- The call is a step of the queue, and if it is refused it changes nothing. -/
def Fifo (op : Op) (S' : Session) : Prop :=
  ∃ reply, S.ring.perform op = some (S'.ring,reply) ∧
    FifoStep (S.ring.capacity-1) S.pending op reply S'.pending ∧
    ∀ e, reply = .refused e → S' = S

/-- The unread bytes of the ring are the pending ones. -/
def Tracks : Prop := S.delivered ++ S.ring.unread = S.written

variable {S}

theorem Tracks.pending_eq (h : S.Tracks) : S.pending = S.ring.unread := by
  rw [pending,← h,drop_left]

theorem Tracks.faithful (h : S.Tracks) : S.Faithful := by
  have hlen : S.pending.length = S.ring.used := by rw [h.pending_eq,length_unread]
  have hused := S.ring.used_lt
  constructor
  · exact ⟨S.ring.unread,h⟩
  · omega
  · rw [hlen,availableRead_eq]
  · rw [hlen,availableWrite_eq]
  · have hr := S.ring.read_lt
    exact ⟨_,_,S.ring.readPtr_eq,by omega,by omega⟩
  · have hw := S.ring.write_lt
    exact ⟨_,_,S.ring.writePtr_eq,by omega,by omega⟩

theorem Tracks.note (h : S.Tracks) {op : Op} {r : ByteRing} {reply : Reply} {limit : ℕ}
    (hstep : FifoStep limit S.ring.unread op reply r.unread) : (S.note r op reply).Tracks := by
  have h : S.delivered ++ S.ring.unread = S.written := h
  generalize hq' : r.unread = q' at hstep
  cases hstep with
  | write | fill =>
    show S.delivered ++ r.unread = S.written ++ _
    simp [hq',← h]
  | refuse =>
    show S.delivered ++ r.unread = S.written
    rw [hq',h]
  | read | take =>
    show S.delivered ++ _ ++ r.unread = S.written
    rw [hq',append_assoc,take_append_drop,h]
  | clear =>
    show [] ++ r.unread = []
    rw [hq',append_nil]

theorem Tracks.step (h : S.Tracks) (op : Op) :
    ∃ S', S.step op = some S' ∧ S'.Tracks ∧ S'.ring.capacity = S.ring.capacity ∧ S.Fifo op S' := by
  obtain ⟨r,reply,hr⟩ := S.ring.perform_refines op
  have hring : (S.note r op reply).ring = r := by
    unfold Session.note
    split <;> rfl
  have hafter := h.note hr.fifo
  refine ⟨S.note r op reply,?_,hafter,?_,reply,?_,?_,?_⟩
  · simp [Session.step,hr.returns]
  · rw [hring,hr.capacity]
  · rw [hring,hr.returns]
  · rw [h.pending_eq,hafter.pending_eq,hring]
    exact hr.fifo
  · rintro e rfl
    obtain ⟨bytes,rfl⟩ := hr.fifo.write_of_refused
    rw [hr.refused e rfl]
    rfl

end Session

/-- A ring of any accepted capacity: every sequence of calls returns, every call is a step of a
queue of at most `capacity - 1` bytes, and in every state the bytes delivered are a prefix of those
written since the last clear, the counts are exact and the spans lie within the buffer. -/
theorem ring_refines_fifo {capacity : ℕ} (hpos : 1 ≤ capacity)
    (memory : Option (ℕ → UInt8)) :
    ((maxLayout < capacity ∨ memory = none) ∧ ∃ e, new capacity memory = .error e) ∨
      ∃ r, new capacity memory = .ok r ∧ ∀ ops : List Op,
        (∃ S, exec Session.step (.start r) ops = some S ∧ S.ring.capacity = capacity ∧
          S.Faithful) ∧
        EachStep Session.step Session.Fifo (.start r) ops := by
  have hne : capacity ≠ 0 := by omega
  by_cases hmax : capacity ≤ maxLayout
  · cases memory with
    | none =>
      left
      refine ⟨.inr rfl,?_⟩
      simp only [new,dif_neg hne,dif_pos hmax]
      exact ⟨_,rfl⟩
    | some data =>
      right
      refine ⟨⟨data,0,0,capacity,hmax,hpos,hpos⟩,by simp [new,hne,hmax],fun ops => ?_⟩
      have hstart : (Session.start ⟨data,0,0,capacity,hmax,hpos,hpos⟩).Tracks := rfl
      constructor
      · obtain ⟨S,hS,htracks,hcap⟩ := exec_of_step
          (J := fun S : Session => S.Tracks ∧ S.ring.capacity = capacity) (fun S op hS => by
            obtain ⟨S',hst,htracks,hcap,-⟩ := hS.1.step op
            exact ⟨S',hst,htracks,hcap.trans hS.2⟩) ⟨hstart,rfl⟩ ops
        exact ⟨S,hS,hcap,htracks.faithful⟩
      · refine eachStep_of_step (J := Session.Tracks) (fun S op S' hS hst => ?_) hstart ops
        obtain ⟨T,hT,htracks,-,hfifo⟩ := hS.step op
        rw [hT,some.injEq] at hst
        subst hst
        exact ⟨htracks,hfifo⟩
  · left
    refine ⟨.inl (by omega),?_⟩
    simp only [new,dif_neg hne,dif_neg hmax]
    exact ⟨_,rfl⟩

theorem small_ring_refines_fifo : ∃ r, new 3 (some fun _ => 0) = .ok r ∧ ∀ ops : List Op,
      (∃ S, exec Session.step (.start r) ops = some S ∧ S.ring.capacity = 3 ∧ S.Faithful) ∧
      EachStep Session.step Session.Fifo (.start r) ops :=
  (ring_refines_fifo (by decide) (some fun _ => 0)).resolve_left fun h =>
    h.1.elim (by decide) (nomatch ·)

end Aios.Ringbuf
