import Aios.Kernel.Sock.Outcomes
import Aios.Kernel.Sock.Slots

/-!
The receiving side of a connection, against what the segments of the peer carried: which
bytes the caller got, which are in the ring, and how far `rcv_nxt` has moved.
-/
namespace Aios.Kernel.Sock

open Transition List

namespace Inbound

variable (s : Inbound)

/-- The number of the first payload byte; a SYN takes a number of its own. -/
def dataSeq : UInt32 := if hasFlag s.flags Flag.syn then s.seq+1 else s.seq

/-- The number of the FIN, which comes after the payload. -/
def finSeq : UInt32 := s.dataSeq+UInt32.ofNat s.payload.length

end Inbound

def payloads (ss : List Inbound) : List UInt8 := ss.flatMap Inbound.payload

/-- The payloads follow each other in sequence space from number `q` on. -/
def Chained : UInt32 → List Inbound → Prop
  | _, [] => True
  | q, s::ss => s.dataSeq = q ∧ Chained (q+UInt32.ofNat s.payload.length) ss

theorem Chained.concat {q : UInt32} {ss : List Inbound} {s : Inbound} (h : Chained q ss)
    (hs : s.dataSeq = q+UInt32.ofNat (payloads ss).length) : Chained q (ss ++ [s]) := by
  induction ss generalizing q with
  | nil => simpa [Chained,payloads] using hs
  | cons t ss ih =>
    refine ⟨h.1,ih h.2 ?_⟩
    rw [hs,UInt32.add_assoc,← UInt32.ofNat_add]
    simp [payloads]

structure RxConn where
  isn : UInt32
  handed : List UInt8
  /-- The segments since the peer's SYN, in the order of their arrival. -/
  delivered : List Inbound
  /-- Those at which `rcv_nxt` moved by anything but the number of bytes stored. -/
  skips : List Inbound

namespace RxConn

def start (isn : UInt32) : RxConn := ⟨isn,[],[],[]⟩

variable (c : RxConn) (sk : Socket)

/-- The bytes handed out, followed by those still in the ring. -/
def bytes : List UInt8 := c.handed ++ sk.rx.toList

/-- The number after the last of these bytes. -/
def stop : UInt32 := c.isn+1+UInt32.ofNat (c.bytes sk).length

/-- `rcv_nxt` stands after the bytes, or after the one FIN that follows them. -/
def Acknowledged : Prop :=
  match c.skips with
  | [] => sk.rcvNxt = c.stop sk
  | [f] => hasFlag f.flags Flag.fin = true ∧ f.finSeq = c.stop sk ∧ sk.rcvNxt = c.stop sk+1
  | _ => False

/-- The bytes are payloads of the peer, contiguous from the number after its SYN up to the
acknowledged position. -/
structure Received : Prop where
  stream : ∃ ss, ss.Sublist c.delivered ∧ Chained (c.isn+1) ss ∧ payloads ss = c.bytes sk
  acknowledged : c.Acknowledged sk

def arrive (sk' : Socket) (s : Inbound) : RxConn :=
  { c with
    delivered := c.delivered ++ [s]
    skips := if sk'.rcvNxt = sk.rcvNxt+UInt32.ofNat (sk'.rx.count-sk.rx.count) then c.skips
      else c.skips ++ [s] }

/-- The connection of a slot after an event. A socket that calls `connect` has none until
the peer's SYN arrives. -/
def next : SlotEvent → Option RxConn → Option RxConn
  | .fresh _ _ _, _ => none
  | .connect _ _ _ _, _ => none
  | .child _ _ _ _ _ _ s, _ => some (start s.seq)
  | .recv room, h => h.map fun c => { c with handed := c.handed ++ (sk.recv room).2.getD [] }
  | .segment now s, h =>
    if sk.Completes s then some (start s.seq)
    else h.map fun c => c.arrive sk (sk.receive now s).1 s
  | _, h => h

end RxConn

open RxConn

namespace Socket

variable (sk : Socket)

/-- A TCP socket that has had no handshake. -/
def Quiet : Prop :=
  sk.kind = .tcp → sk.state = .closed ∨ sk.state = .listen ∨ sk.state = .synSent

/-- The receive side keeps what the peer sent: nothing lost, nothing invented. Without a connection
there was no handshake. -/
def Intact : Option RxConn → Prop
  | none => sk.Quiet
  | some c => c.Received sk

def Takes (s : Inbound) : Prop :=
  s.payload ≠ [] ∧ (sk.state = .established ∨ sk.state = .synRecv) ∧ s.seq = sk.rcvNxt

instance (s : Inbound) : Decidable (sk.Takes s) := inferInstanceAs (Decidable (_ ∧ _))

def taken (s : Inbound) : List UInt8 := if sk.Takes s then s.payload else []

/-- What the receive side relies on unchecked: a handshake finds an empty ring, the payload fits and
comes without a SYN, and a FIN is the first and stands right after what has arrived. -/
def RxSafe (h : Option RxConn) (s : Inbound) : Prop :=
  (sk.Completes s → sk.rx.count = 0) ∧
    (sk.Processes s →
      (sk.Takes s →
        hasFlag s.flags Flag.syn = false ∧ sk.rx.count+s.payload.length ≤ tcpRxcap) ∧
      (hasFlag s.flags Flag.fin = true →
        (∀ c ∈ h, c.skips = []) ∧
          s.finSeq = sk.rcvNxt+UInt32.ofNat (sk.taken s).length))

end Socket

def SlotEvent.inbound : SlotEvent → Option Inbound
  | .segment _ s => some s
  | _ => none

namespace Socket

structure RxSide where
  kind : Kind
  rcvNxt : UInt32
  rx : RingBuffer UInt8 tcpRxcap

def rxSide (sk : Socket) : RxSide := ⟨sk.kind,sk.rcvNxt,sk.rx⟩

/-- The receive side after a segment that takes part in the connection and whose payload fits. -/
def rxAfter (sk : Socket) (s : Inbound) : RxSide :=
  ⟨sk.kind,sk.rcvNxt+UInt32.ofNat (sk.taken s).length +
    (if hasFlag s.flags Flag.fin then 1 else 0),sk.rx.pushAll (sk.taken s)⟩

/-- A TCP socket that can store payload, now or after its handshake. -/
def Receiving (sk : Socket) : Prop :=
  sk.kind = .tcp ∧ (sk.state = .established ∨ sk.state = .synRecv)

structure KeepsRx (sk sk' : Socket) : Prop where
  side : sk'.rxSide = sk.rxSide
  quiet : sk.Quiet → sk'.Quiet
  receiving : sk'.Receiving → sk.Receiving

variable {sk sk' : Socket}

theorem rxSide_eq_iff : sk'.rxSide = sk.rxSide ↔
    sk'.kind = sk.kind ∧ sk'.rcvNxt = sk.rcvNxt ∧ sk'.rx = sk.rx := by
  simp [rxSide]

theorem KeepsRx.of_state (hside : sk'.rxSide = sk.rxSide) (hstate : sk'.state = sk.state) :
    KeepsRx sk sk' := by
  have hkind : sk'.kind = sk.kind := congrArg RxSide.kind hside
  constructor
  · exact hside
  · intro h
    simpa only [Quiet,hkind,hstate] using h
  · intro h
    simpa only [Receiving,hkind,hstate] using h

theorem KeepsRx.of_stopped (hside : sk'.rxSide = sk.rxSide)
    (hstate : sk'.state = .closed ∨ sk'.state = .listen) : KeepsRx sk sk' := by
  refine ⟨hside,fun _ _ => ?_,fun h => ?_⟩
  · rcases hstate with h | h <;> simp [h]
  · rcases hstate with h' | h' <;> simp [Receiving,h'] at h

section
variable (now : UInt64) (sk : Socket)

@[simp] theorem kick_rxSide : (kick now sk).1.rxSide = sk.rxSide := by
  rcases kick_cases now sk with h | ⟨-,n,-,-,-,h⟩ <;> rw [h]
  rfl

theorem sendTcp_keeps (data : List UInt8) : KeepsRx sk (sk.sendTcp now data).1 := by
  unfold sendTcp
  split
  · exact .of_state rfl rfl
  · dsimp only
    split
    · exact .of_state rfl rfl
    · exact .of_state (kick_rxSide now _) (kick_state now _)

theorem closeTcp_keeps : KeepsRx sk sk.closeTcp.1 := by
  unfold closeTcp
  split
  next hstate =>
    refine ⟨rfl,fun h hk => ?_,fun h => ?_⟩
    · simpa [hstate] using h hk
    · simp [Receiving] at h
  next hstate =>
    refine ⟨rfl,fun h hk => ?_,fun h => ?_⟩
    · simpa [hstate] using h hk
    · simp [Receiving] at h
  next => exact .of_state rfl rfl

theorem tick_keeps : KeepsRx sk (sk.tick now).1 := by
  rcases sk.tick_cases now with ⟨used,h⟩ | ⟨p,-,h⟩ | ⟨out,flags,-,_,_,_,h,-⟩ |
    ⟨-,-,out,_,_,_,h,-⟩ <;> rw [h]
  · exact .of_state rfl rfl
  · exact .of_stopped rfl (.inl rfl)
  · exact .of_state rfl rfl
  · exact .of_state rfl rfl

end

section
variable (now : UInt64) (sk : Socket) (s : Inbound)

@[simp] theorem handleAck_rxSide : (sk.handleAck now s).1.rxSide = sk.rxSide := by
  obtain ⟨st,-,⟨-,h⟩ | ⟨-,h⟩⟩ := sk.handleAck_cases now s <;> rw [h]
  · rfl
  · exact kick_rxSide now (sk.acked s)

theorem handleData_of_takes (hstate : sk.state = .established) (h : sk.Takes s)
    (hfit : sk.rx.count+s.payload.length ≤ tcpRxcap) :
    (sk.handleData s).1 = { sk with
      rx := sk.rx.pushAll s.payload
      rcvNxt := sk.rcvNxt+UInt32.ofNat s.payload.length } := by
  obtain ⟨hne,-,hseq⟩ := h
  simp [handleData,appendRx,hne,hstate,hseq,not_lt.mpr hfit]

theorem handleData_of_not_takes (h : ¬ sk.Takes s) : (sk.handleData s).1 = sk := by
  unfold handleData
  split
  next hdata =>
    have hseq : s.seq ≠ sk.rcvNxt := fun hseq => h ⟨hdata.1,.inl hdata.2,hseq⟩
    simp only [if_neg hseq]
  next => rfl

theorem handleFin_rxSide : (sk.handleFin now s).1.rxSide =
      ⟨sk.kind,sk.rcvNxt+(if hasFlag s.flags Flag.fin then 1 else 0),sk.rx⟩ := by
  unfold handleFin
  split
  · dsimp only
    split <;> rfl
  · simp [rxSide]

variable {sk s}

theorem rxAfter_congr (hside : sk'.rxSide = sk.rxSide)
    (hstate : sk'.state = .established ∨ sk'.state = .synRecv ↔
      sk.state = .established ∨ sk.state = .synRecv) :
    (sk'.Takes s ↔ sk.Takes s) ∧ sk'.rxAfter s = sk.rxAfter s := by
  obtain ⟨hkind,hnxt,hrx⟩ := rxSide_eq_iff.mp hside
  have htakes : sk'.Takes s ↔ sk.Takes s := by simp only [Takes,hstate,hnxt]
  simp only [rxAfter,taken,htakes,hkind,hnxt,hrx,true_and]

theorem AckLeads.receiving_iff {st : TcpState} (h : sk.AckLeads st) :
    st = .established ∨ st = .synRecv ↔ sk.state = .established ∨ sk.state = .synRecv := by
  rcases h with h | ⟨h,h'⟩ | ⟨h,h'⟩
  · rw [h]
  · simp [h,h']
  · simp [h,h']

theorem process_rxSide (hstate : sk.state ≠ .synRecv)
    (hfit : sk.Takes s → sk.rx.count+s.payload.length ≤ tcpRxcap) :
    (sk.process now s).1.rxSide = sk.rxAfter s := by
  set a := (sk.handleAck now s).1 with ha
  have hside : a.rxSide = sk.rxSide := sk.handleAck_rxSide now s
  have hleads := sk.handleAck_state now s
  obtain ⟨htakes,hafter⟩ := rxAfter_congr (s := s) hside hleads.receiving_iff
  have hprocess : (sk.process now s).1 = ((a.handleData s).1.handleFin now s).1 := rfl
  rw [hprocess,handleFin_rxSide,← hafter]
  by_cases h : a.Takes s
  · have hest : a.state = .established := by
      refine h.2.1.resolve_right ?_
      rcases hleads with he | ⟨-,he⟩ | ⟨-,he⟩ <;> simp [ha,he,hstate]
    have hroom : a.rx.count+s.payload.length ≤ tcpRxcap := by
      rw [(rxSide_eq_iff.mp hside).2.2]
      exact hfit (htakes.mp h)
    rw [a.handleData_of_takes s hest h hroom]
    simp only [rxAfter,taken,if_pos h]
  · rw [a.handleData_of_not_takes s h]
    simp [rxAfter,taken,if_neg h,RingBuffer.pushAll]

variable (sk s)

theorem process_kind : (sk.process now s).1.kind = sk.kind := by
  have hack := congrArg RxSide.kind (sk.handleAck_rxSide now s)
  have hdata : ((sk.handleAck now s).1.handleData s).1.kind = (sk.handleAck now s).1.kind := by
    unfold handleData appendRx
    split_ifs <;> rfl
  have hfin := congrArg RxSide.kind (((sk.handleAck now s).1.handleData s).1.handleFin_rxSide now s)
  exact hfin.trans (hdata.trans hack)

variable {sk s}

/-- After a FIN no more payload is stored. -/
theorem process_receiving (hstate : sk.state ≠ .synRecv) (h : (sk.process now s).1.Receiving) :
    sk.Receiving ∧ hasFlag s.flags Flag.fin = false := by
  obtain ⟨htcp,hafter⟩ := h
  rw [process_kind] at htcp
  obtain ⟨st,hst,⟨he,hfin⟩ | ⟨he,-⟩ | ⟨he,-⟩⟩ := sk.process_state now s
  · rw [he] at hafter
    have hbefore := hst.receiving_iff.mp hafter
    refine ⟨⟨htcp,hbefore⟩,?_⟩
    by_contra hset
    have hnot : st ≠ .established := hfin (by simpa using hset)
    have hest : sk.state = .established := hbefore.resolve_right hstate
    rcases hst with h | ⟨h,-⟩ | ⟨h,-⟩
    · exact hnot (h.trans hest)
    · simp [hest] at h
    · simp [hest] at h
  · simp [he] at hafter
  · simp [he] at hafter

end

section
variable (now : UInt64) {sk : Socket} {s : Inbound}

theorem promoted_rxSide : (sk.promoted s).rxSide = sk.rxSide := by
  unfold promoted
  split <;> rfl

theorem promoted_state_ne : (sk.promoted s).state ≠ .synRecv := by
  unfold promoted
  split
  next => simp
  next h => exact h

theorem promoted_receiving_iff :
    (sk.promoted s).state = .established ∨ (sk.promoted s).state = .synRecv ↔
      sk.state = .established ∨ sk.state = .synRecv := by
  unfold promoted
  split
  next h => simp [h]
  next => rfl

theorem receive_rxSide (hp : sk.Processes s)
    (hfit : sk.Takes s → sk.rx.count+s.payload.length ≤ tcpRxcap) :
    (sk.receive now s).1.rxSide = sk.rxAfter s := by
  have hside : (sk.promoted s).rxSide = sk.rxSide := promoted_rxSide
  obtain ⟨htakes,hafter⟩ := rxAfter_congr (s := s) hside promoted_receiving_iff
  rw [receive_of_processes now hp,← hafter]
  apply process_rxSide now promoted_state_ne
  rw [htakes,(rxSide_eq_iff.mp hside).2.2]
  exact hfit

theorem receive_receiving (hp : sk.Processes s) (h : (sk.receive now s).1.Receiving) :
    sk.Receiving ∧ hasFlag s.flags Flag.fin = false := by
  rw [receive_of_processes now hp] at h
  obtain ⟨⟨htcp,hstate⟩,hfin⟩ := process_receiving now promoted_state_ne h
  rw [(rxSide_eq_iff.mp promoted_rxSide).1] at htcp
  exact ⟨⟨htcp,promoted_receiving_iff.mp hstate⟩,hfin⟩

end
end Socket

namespace RxConn

/-- What a connection keeps along a run, besides what was received: once past the FIN, the
socket stores no more payload. -/
structure Inv (c : RxConn) (sk : Socket) : Prop extends c.Received sk where
  kind : sk.kind = .tcp
  past : c.skips ≠ [] → ¬ sk.Receiving

variable {c : RxConn} {sk sk' : Socket} {s : Inbound}

theorem bytes_congr (h : sk'.rxSide = sk.rxSide) : c.bytes sk' = c.bytes sk := by
  rw [bytes,bytes,(Socket.rxSide_eq_iff.mp h).2.2]

theorem Acknowledged.congr (h : sk'.rxSide = sk.rxSide) (ha : c.Acknowledged sk) :
    c.Acknowledged sk' := by
  simpa only [Acknowledged,stop,bytes_congr h,(Socket.rxSide_eq_iff.mp h).2.1] using ha

theorem Inv.keeps (h : c.Inv sk) (hk : sk.KeepsRx sk') : c.Inv sk' := by
  obtain ⟨ss,hsub,hchain,hss⟩ := h.stream
  refine ⟨⟨⟨ss,hsub,hchain,hss.trans (bytes_congr hk.side).symm⟩,
    h.acknowledged.congr hk.side⟩,?_,fun hne hr => h.past hne (hk.receiving hr)⟩
  exact (Socket.rxSide_eq_iff.mp hk.side).1.trans h.kind

theorem inv_start (hkind : sk.kind = .tcp) (hrx : sk.rx.count = 0)
    (hnxt : sk.rcvNxt = s.seq+1) : (start s.seq).Inv sk := by
  have hbytes : (start s.seq).bytes sk = [] := by
    rw [bytes,(RingBuffer.toList_eq_nil _).mpr hrx]
    rfl
  refine ⟨⟨⟨[],nil_sublist _,trivial,hbytes.symm⟩,?_⟩,hkind,fun h => absurd rfl h⟩
  change sk.rcvNxt = (start s.seq).stop sk
  rw [hnxt,stop,hbytes]
  simp [start]

theorem Inv.recv (h : c.Inv sk) (room : ℕ) :
    Inv { c with handed := c.handed ++ (sk.recv room).2.getD [] } (sk.recv room).1 := by
  have hrecv : sk.recv room = if sk.rx.count = 0 then (sk,if sk.eof then some [] else none)
      else ({ sk with rx := sk.rx.drop (min room sk.rx.count) },
        some (sk.rx.front (min room sk.rx.count))) := by
    simp only [Socket.recv,h.kind]
  by_cases hempty : sk.rx.count = 0
  · have hnone : (if sk.eof then some [] else none : Option (List UInt8)).getD [] = [] := by
      split <;> rfl
    rw [hrecv,if_pos hempty,hnone,append_nil]
    exact h
  · rw [hrecv,if_neg hempty]
    set n := min room sk.rx.count
    have hn : n ≤ sk.rx.count := min_le_right _ _
    have hbytes : bytes { c with handed := c.handed ++ sk.rx.front n }
        { sk with rx := sk.rx.drop n } = c.bytes sk := by
      simp only [bytes,append_assoc,sk.rx.front_append_drop hn]
    obtain ⟨ss,hsub,hchain,hss⟩ := h.stream
    refine ⟨⟨⟨ss,hsub,hchain,hss.trans hbytes.symm⟩,?_⟩,h.kind,h.past⟩
    have hack := h.acknowledged
    simp only [Acknowledged,stop,Option.getD_some,hbytes] at hack ⊢
    exact hack

/-- A segment that leaves the receive side alone is no skip. -/
theorem arrive_of_side (h : sk'.rxSide = sk.rxSide) :
    c.arrive sk sk' s = { c with delivered := c.delivered ++ [s] } := by
  obtain ⟨-,hnxt,hrx⟩ := Socket.rxSide_eq_iff.mp h
  simp [arrive,hnxt,hrx]

theorem Inv.deliver (h : c.Inv sk) (s : Inbound) :
    Inv { c with delivered := c.delivered ++ [s] } sk := by
  obtain ⟨ss,hsub,hchain,hss⟩ := h.stream
  exact ⟨⟨⟨ss,hsub.trans (sublist_append_left _ _),hchain,hss⟩,h.acknowledged⟩,h.kind,h.past⟩

section
variable (now : UInt64)

theorem Inv.rcvNxt_eq (h : c.Inv sk) (hr : sk.Receiving) :
    c.skips = [] ∧ sk.rcvNxt = c.stop sk := by
  have hskips : c.skips = [] := by
    by_contra hne
    exact h.past hne hr
  have hack := h.acknowledged
  rw [Acknowledged,hskips] at hack
  exact ⟨hskips,hack⟩

structure Grew (sk sk' : Socket) (t : List UInt8) (fin : Bool) : Prop where
  rx : sk'.rx.toList = sk.rx.toList ++ t
  nxt : sk'.rcvNxt = sk.rcvNxt+UInt32.ofNat t.length+(if fin then 1 else 0)

theorem grew_of_receive (hp : sk.Processes s)
    (hfit : sk.Takes s → sk.rx.count+s.payload.length ≤ tcpRxcap) :
    Grew sk (sk.receive now s).1 (sk.taken s) (hasFlag s.flags Flag.fin) := by
  have hside := Socket.receive_rxSide now hp hfit
  have hrx : (sk.receive now s).1.rx = sk.rx.pushAll (sk.taken s) := congrArg Socket.RxSide.rx hside
  refine ⟨?_,congrArg Socket.RxSide.rcvNxt hside⟩
  rw [hrx]
  apply sk.rx.toList_pushAll
  unfold Socket.taken
  split
  next ht => exact hfit ht
  next => exact sk.rx.count_le

section
variable {t : List UInt8} {fin : Bool}

theorem Grew.bytes_eq (h : Grew sk sk' t fin) : c.bytes sk' = c.bytes sk ++ t := by
  rw [bytes,bytes,h.rx,append_assoc]

theorem Grew.stop_eq (h : Grew sk sk' t fin) : c.stop sk' = c.stop sk+UInt32.ofNat t.length := by
  simp only [stop,h.bytes_eq,length_append,UInt32.ofNat_add,UInt32.add_assoc]

theorem Grew.skips_arrive (h : Grew sk sk' t fin) :
    (c.arrive sk sk' s).skips = if fin then c.skips ++ [s] else c.skips := by
  have hcount : sk'.rx.count-sk.rx.count = t.length := by
    have hlen := congrArg length h.rx
    simp only [length_append,RingBuffer.length_toList] at hlen
    omega
  simp only [arrive,hcount,h.nxt]
  cases fin <;> simp

theorem Grew.stream_arrive (h : Grew sk sk' (sk.taken s) fin) (hinv : c.Inv sk)
    (hsyn : sk.Takes s → hasFlag s.flags Flag.syn = false) :
    ∃ ss, ss.Sublist (c.delivered ++ [s]) ∧ Chained (c.isn+1) ss ∧
      payloads ss = c.bytes sk' := by
  obtain ⟨ss,hsub,hchain,hss⟩ := hinv.stream
  by_cases ht : sk.Takes s
  · have htaken : sk.taken s = s.payload := if_pos ht
    have hno : s.dataSeq = s.seq := by simp [Inbound.dataSeq,hsyn ht]
    have hnxt := (hinv.rcvNxt_eq ⟨hinv.kind,ht.2.1⟩).2
    refine ⟨ss ++ [s],hsub.append (List.Sublist.refl _),hchain.concat ?_,?_⟩
    · rw [hno,ht.2.2,hnxt,stop,hss]
    · rw [h.bytes_eq,htaken,← hss]
      simp [payloads]
  · have htaken : sk.taken s = [] := if_neg ht
    refine ⟨ss,hsub.trans (sublist_append_left _ _),hchain,?_⟩
    rw [h.bytes_eq,htaken,append_nil,hss]

theorem Grew.acknowledged_data (h : Grew sk sk' (sk.taken s) false) (hinv : c.Inv sk) :
    c.Acknowledged sk' := by
  have hstop := h.stop_eq (c := c)
  have hnxt : sk'.rcvNxt = sk.rcvNxt+UInt32.ofNat (sk.taken s).length := by simpa using h.nxt
  by_cases ht : sk.Takes s
  · obtain ⟨hskips,hpos⟩ := hinv.rcvNxt_eq ⟨hinv.kind,ht.2.1⟩
    simp only [Acknowledged,hskips]
    rw [hnxt,hpos,hstop]
  · have htaken : sk.taken s = [] := if_neg ht
    have hack := hinv.acknowledged
    simp only [htaken,length_nil,UInt32.reduceOfNat,UInt32.add_zero] at hstop hnxt
    simpa only [Acknowledged,hstop,hnxt] using hack

end

theorem Inv.receive (h : c.Inv sk) (hp : sk.Processes s) (hsafe : sk.RxSafe (some c) s) :
    (c.arrive sk (sk.receive now s).1 s).Inv (sk.receive now s).1 := by
  obtain ⟨hdata,hfin⟩ := hsafe.2 hp
  have hgrew := grew_of_receive now hp fun ht => (hdata ht).2
  have hskips := hgrew.skips_arrive (c := c) (s := s)
  have hkind : (sk.receive now s).1.kind = sk.kind :=
    congrArg Socket.RxSide.kind (Socket.receive_rxSide now hp fun ht => (hdata ht).2)
  refine ⟨⟨hgrew.stream_arrive h fun ht => (hdata ht).1,?_⟩,hkind.trans h.kind,?_⟩
  · cases hset : hasFlag s.flags Flag.fin with
    | true =>
      obtain ⟨hfirst,hseq⟩ := hfin hset
      have hnone : c.skips = [] := hfirst c rfl
      rw [hset] at hgrew hskips
      simp only [hnone] at hskips
      unfold Acknowledged
      rw [hskips]
      have hpos := h.acknowledged
      simp only [Acknowledged,hnone] at hpos
      refine ⟨hset,?_,?_⟩
      · rw [hseq,hpos,hgrew.stop_eq]
        rfl
      · rw [hgrew.nxt,hpos,hgrew.stop_eq,if_pos rfl]
        rfl
    | false =>
      rw [hset] at hgrew hskips
      unfold Acknowledged
      rw [hskips]
      exact hgrew.acknowledged_data h
  · intro hne hr
    obtain ⟨hbefore,hno⟩ := Socket.receive_receiving now hp hr
    simp only [hskips,hno] at hne
    exact h.past hne hbefore

end
end RxConn

namespace Socket

def RxInv (sk : Socket) : Option RxConn → Prop
  | none => sk.Quiet
  | some c => c.Inv sk

variable {sk sk' : Socket} {h : Option RxConn}

theorem RxInv.intact (hi : sk.RxInv h) : sk.Intact h := by
  cases h with
  | none => exact hi
  | some c => exact hi.toReceived

theorem RxInv.keeps (hi : sk.RxInv h) (hk : sk.KeepsRx sk') : sk'.RxInv h := by
  cases h with
  | none => exact hk.quiet hi
  | some c => exact RxConn.Inv.keeps hi hk

theorem RxInv.refused (hi : sk.RxInv h) (s : Inbound) (hk : sk.KeepsRx sk') :
    sk'.RxInv (h.map fun c => c.arrive sk sk' s) := by
  cases h with
  | none => exact hk.quiet hi
  | some c =>
    have harrive := arrive_of_side (c := c) (s := s) hk.side
    simp only [Option.map_some,harrive]
    exact (RxConn.Inv.keeps hi hk).deliver s

theorem RxInv.segment (hi : sk.RxInv h) (htcp : sk.kind = .tcp) (now : UInt64) (s : Inbound)
    (hsafe : sk.RxSafe h s) : (sk.receive now s).1.RxInv (next sk (.segment now s) h) := by
  by_cases hc : sk.Completes s
  · simp only [RxConn.next,if_pos hc,receive_of_completes now hc]
    exact inv_start htcp (hsafe.1 hc) rfl
  · simp only [RxConn.next,if_neg hc]
    by_cases hp : sk.Processes s
    · cases h with
      | some c => exact RxConn.Inv.receive now hi hp hsafe
      | none =>
        -- without a connection only a listener takes part, and it stays one
        have hlisten : sk.state = .listen := by
          rcases hi htcp with h | h | h
          · exact absurd h hp.2.1
          · exact h
          · exact absurd h hp.2.2.1
        have hpromoted : sk.promoted s = sk := by simp [promoted,hlisten]
        intro _
        rw [receive_of_processes now hp,hpromoted]
        exact .inr (.inl (process_listen now hlisten))
    · apply hi.refused s
      rcases receive_otherwise now hc hp with he | he <;> rw [he]
      · exact .of_state rfl rfl
      · exact .of_stopped rfl (.inl rfl)

theorem recv_quiet (hq : sk.Quiet) (room : ℕ) : (sk.recv room).1.Quiet := by
  unfold recv
  split <;> dsimp only <;> split <;> exact hq

theorem RxInv.step (hi : sk.RxInv h) {ev : SlotEvent} (hen : ev.Enabled sk)
    (hsafe : ∀ s ∈ ev.inbound, sk.RxSafe h s) : (ev.apply sk).1.RxInv (next sk ev h) := by
  cases ev with
  | fresh kind pid port => exact fun _ => .inl rfl
  | child pid port now l n src s => exact inv_start rfl rfl rfl
  | connect now i ip port => exact fun _ => .inr (.inr rfl)
  | recv room =>
    cases h with
    | none => exact recv_quiet hi room
    | some c => exact RxConn.Inv.recv hi room
  | segment now s => exact hi.segment hen.2 now s (hsafe s rfl)
  | listen => exact hi.keeps (.of_stopped rfl (.inr rfl))
  | joinUdp ip port =>
    have hudp : sk.kind ≠ .tcp := by simp [hen.2]
    exact hi.keeps ⟨rfl,fun _ htcp => absurd htcp hudp,fun hr => absurd hr.1 hudp⟩
  | send now data => exact hi.keeps (sk.sendTcp_keeps now data)
  | close => exact hi.keeps sk.closeTcp_keeps
  | tick now => exact hi.keeps (sk.tick_keeps now)
  | idle | bind | adopted | freed | peer | datagram => exact hi.keeps (.of_state rfl rfl)

end Socket

def SlotEvent.RxSafe (sk : Socket) (h : Option RxConn) (ev : SlotEvent) : Prop :=
  ∀ s ∈ ev.inbound, sk.RxSafe h s

/-- In every run of safe segments, every connection has received the peer's stream up to its
acknowledged position, and nothing else. -/
theorem received_intact_of_rxSafe {es : List (Env × Op)} (hes : EachStep (Traced.step next)
      (fun M e _ => M.AtSlots SlotEvent.RxSafe e) (.init none) es) :
    Always (Traced.step next) (Traced.Everywhere Socket.Intact) (.init none) es := by
  have hempty : Socket.empty.RxInv none := fun _ => .inl rfl
  have hinv := Traced.always_slots (P := Socket.RxInv) (C := SlotEvent.RxSafe)
    (fun sk h ev hi hen hsafe => Socket.RxInv.step hi hen hsafe) hempty hes
  apply hinv.mono
  intro M hM i
  exact (hM i).intact

instance (c : RxConn) (sk : Socket) : Decidable (c.Acknowledged sk) :=
  match c with
  | ⟨_,_,_,[]⟩ => inferInstanceAs (Decidable (_ = _))
  | ⟨_,_,_,[_]⟩ => inferInstanceAs (Decidable (_ ∧ _ ∧ _))
  | ⟨_,_,_,_::_::_⟩ => inferInstanceAs (Decidable False)

/-- The part of `Intact` that can be evaluated. -/
def Socket.Positioned (sk : Socket) (h : Option RxConn) : Prop := ∀ c ∈ h, c.Acknowledged sk

instance (sk : Socket) (h : Option RxConn) : Decidable (sk.Positioned h) :=
  inferInstanceAs (Decidable (∀ c ∈ h, c.Acknowledged sk))

instance (sk : Socket) (h : Option RxConn) (s : Inbound) : Decidable (sk.RxSafe h s) :=
  inferInstanceAs (Decidable (_ ∧ _))

instance (sk : Socket) (h : Option RxConn) (ev : SlotEvent) : Decidable (ev.RxSafe sk h) :=
  inferInstanceAs (Decidable (∀ s ∈ ev.inbound, sk.RxSafe h s))

/-- Two bytes, one of them read before the FIN arrives in order. -/
theorem received_intact_of_short_stream :
    Always (Traced.step next) (Traced.Everywhere Socket.Intact) (.init none) (handshake ++
        [fromPeer [0,0,0,1] [0,0,0x9E,0x38] Flag.ack [104,105],byCaller (.recv 0 1),
          fromPeer [0,0,0,3] [0,0,0x9E,0x38] (Flag.fin ||| Flag.ack) []]) :=
  received_intact_of_rxSafe (by decide +kernel)

/-- A FIN a hundred bytes ahead moves `rcv_nxt` although nothing was stored before it. -/
theorem early_fin_breaks_received :
    ¬ Always (Traced.step next) (Traced.Everywhere Socket.Intact) (.init none) (handshake ++
        [fromPeer [0,0,0,101] [0,0,0x9E,0x38] (Flag.fin ||| Flag.ack) []]) := by
  intro h
  have hpos := h.mono (R := Traced.Everywhere Socket.Positioned) fun M hM i c hc => by
    have hi := hM i
    rw [hc] at hi
    exact hi.acknowledged
  revert hpos
  decide +kernel

end Aios.Kernel.Sock
