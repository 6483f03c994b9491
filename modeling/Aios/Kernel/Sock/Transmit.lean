import Aios.Kernel.Sock.Outcomes
import Aios.Kernel.Sock.Slots
import Aios.Lib.SendLog

/-!
The sending side of a connection, against the bytes that `send` accepted: what went out in which
order and under which numbers, and what is queued.
-/
namespace Aios.Kernel.Sock

open SendLog Transition List

/-- What a segment adds to the log, oldest entry first; `repeated` is set for what the
retransmission timer sends. -/
def Segment.entries (repeated : Bool) (s : Segment) : List Entry :=
  (if s.payload = [] then []
    else [if repeated then .again s.seq s.payload else .first s.seq s.payload]) ++
  if hasFlag s.flags Flag.fin then [.fin (s.seq+UInt32.ofNat s.payload.length)] else []

/-- An inbound segment as an acknowledgment. -/
def Inbound.acks (s : Inbound) : List Entry :=
  if hasFlag s.flags Flag.ack = true ∧ hasFlag s.flags Flag.rst = false then [.ack s.ack] else []

/-- The states before our FIN. -/
def TcpState.Live (st : TcpState) : Prop :=
  st = .synSent ∨ st = .synRecv ∨ st = .established ∨ st = .closeWait

structure TxConn where
  accepted : List UInt8
  /-- What was sent and acknowledged, newest first. -/
  log : List Entry

namespace SlotEvent

def isTick : SlotEvent → Bool
  | .tick _ => true
  | _ => false

def isClose : SlotEvent → Bool
  | .close => true
  | _ => false

def isConnect : SlotEvent → Bool
  | .connect _ _ _ _ => true
  | _ => false

end SlotEvent

namespace TxConn

def start : TxConn := ⟨[],[]⟩

/-- The connection after its socket handed segments to the wire. -/
def emit (c : TxConn) (repeated : Bool) (out : List Segment) : TxConn :=
  { c with log := (out.flatMap (Segment.entries repeated)).reverse ++ c.log }

/-- The connection of a slot before the segments of an event go out. -/
def before (sk : Socket) : SlotEvent → Option TxConn → Option TxConn
  | .fresh _ _ _, _ => none
  | .connect _ _ _ _, _ => some start
  | .child _ _ _ _ _ _ _, _ => some start
  | .send now data, h => h.map fun c =>
    { c with accepted := c.accepted ++ data.take ((sk.sendTcp now data).2.1.getD 0) }
  | .segment _ s, h => h.map fun c => { c with log := s.acks ++ c.log }
  | _, h => h

def next (sk : Socket) (ev : SlotEvent) (h : Option TxConn) : Option TxConn :=
  (before sk ev h).map fun c => c.emit ev.isTick (ev.apply sk).2

structure Transmitted (c : TxConn) (sk : Socket) : Prop where
  sound : Sound (sk.iss+1) c.log
  single : (inFlight c.log).length ≤ 1
  rest : sent c.log ++ sk.txQ.toList = c.accepted

end TxConn

open TxConn

namespace Socket

variable (sk : Socket)

def Resting : Prop := sk.state = .closed ∨ sk.state = .listen

/-- The send side of the socket transmits what was accepted, in order. A TCP socket without
a connection is closed or listens. -/
def Faithful : Option TxConn → Prop
  | none => sk.kind = .tcp → sk.Resting
  | some c => c.Transmitted sk

/-- A FIN goes out only behind all data, and a new connection has nothing queued or in flight; the
code checks neither. -/
def TxSafe (ev : SlotEvent) : Prop :=
  (ev.isClose = true → sk.state = .established ∨ sk.state = .closeWait → sk.txQ.count = 0) ∧
    (ev.isConnect = true → sk.txPending = false ∧ sk.txQ.count = 0)

structure TxSide where
  kind : Kind
  iss : UInt32
  sndNxt : UInt32
  txSeq : UInt32
  txBuf : List UInt8
  txQ : RingBuffer UInt8 txQcap

def txSide : TxSide := ⟨sk.kind,sk.iss,sk.sndNxt,sk.txSeq,sk.txBuf,sk.txQ⟩

variable {sk}

theorem AckLeads.live {st : TcpState} (h : sk.AckLeads st) (hl : st.Live) : sk.state.Live := by
  rcases h with h | ⟨-,h⟩ | ⟨-,h⟩
  · exact h ▸ hl
  · simp [h,TcpState.Live] at hl
  · simp [h,TcpState.Live] at hl

end Socket

variable {s : Inbound} {ev : SlotEvent}

namespace TxConn

section
variable (c : TxConn) (repeated : Bool)

@[simp] theorem emit_nil : c.emit repeated [] = c := rfl

theorem emit_append (xs ys : List Segment) :
    c.emit repeated (xs ++ ys) = (c.emit repeated xs).emit repeated ys := by
  simp [emit]

/-- A segment without data and FIN leaves no trace in the log. -/
theorem emit_bare {out : List Segment}
    (h : ∀ s ∈ out, s.payload = [] ∧ hasFlag s.flags Flag.fin = false) :
    c.emit repeated out = c := by
  have hnil : out.flatMap (Segment.entries repeated) = [] := by
    rw [flatMap_eq_nil_iff]
    intro s hs
    simp [Segment.entries,(h s hs).1,(h s hs).2]
  simp [emit,hnil]

end

/-- What a connection keeps along a run: besides the log and the queue, where `snd_nxt` stands, that
nothing is queued behind a FIN, and what is in flight. -/
structure Inv (c : TxConn) (sk : Socket) : Prop where
  kind : sk.kind = .tcp
  sound : Sound (sk.iss+1) c.log
  rest : sent c.log ++ sk.txQ.toList = c.accepted
  nxt : fins c.log = [] → sk.sndNxt = sk.iss+1+UInt32.ofNat (sent c.log).length
  finished : fins c.log ≠ [] → ¬ sk.state.Live ∧ sk.txQ.count = 0
  pending : sk.txPending = true →
    Entry.first sk.txSeq sk.txBuf ∈ c.log ∧ sk.txBuf.length ≤ tcpMss ∧
      ∀ d ∈ inFlight c.log, d = (sk.txSeq,sk.txBuf)
  idle : sk.state.Live → sk.txPending = false → inFlight c.log = []

variable {c : TxConn} {sk sk' : Socket}

theorem Inv.transmitted (h : c.Inv sk) : c.Transmitted sk :=
  ⟨h.sound,h.sound.inFlight_le_one,h.rest⟩

theorem Inv.frame (h : c.Inv sk) (hside : sk'.txSide = sk.txSide)
    (hlive : sk'.state.Live → sk.state.Live)
    (hpend : sk'.txPending = sk.txPending ∨ sk'.txPending = false ∧ ¬ sk'.state.Live) :
    c.Inv sk' := by
  simp only [Socket.txSide,Socket.TxSide.mk.injEq] at hside
  obtain ⟨hkind,hiss,hnxt,hseq,hbuf,hq⟩ := hside
  constructor
  · rw [hkind,h.kind]
  · rw [hiss]
    exact h.sound
  · rw [hq]
    exact h.rest
  · rw [hnxt,hiss]
    exact h.nxt
  · intro hfin
    rw [hq]
    exact ⟨fun hl => (h.finished hfin).1 (hlive hl),(h.finished hfin).2⟩
  · intro hset
    rcases hpend with he | ⟨he,-⟩
    · rw [hseq,hbuf]
      exact h.pending (he.symm.trans hset)
    · simp [he] at hset
  · intro hl hclear
    rcases hpend with he | ⟨-,he⟩
    · exact h.idle (hlive hl) (he.symm.trans hclear)
    · exact absurd hl he

theorem Inv.ack (h : c.Inv sk) (s : Inbound) : Inv { c with log := s.acks ++ c.log } sk := by
  unfold Inbound.acks
  split
  · refine ⟨h.kind,h.sound,h.rest,h.nxt,h.finished,?_,?_⟩
    · intro hset
      obtain ⟨hmem,hlen,hall⟩ := h.pending hset
      refine ⟨mem_cons_of_mem _ hmem,hlen,?_⟩
      intro d hd
      exact hall d (mem_of_mem_filter hd)
    · intro hl hclear
      simp [inFlight,h.idle hl hclear]
  · exact h

theorem Inv.inFlight_acked (h : c.Inv sk) (hf : sk.Finishes s)
    (hrst : hasFlag s.flags Flag.rst = false) : inFlight (s.acks ++ c.log) = [] := by
  obtain ⟨hack,hset,hno⟩ := hf
  have hall := (h.pending hset).2.2
  simp only [Inbound.acks,hack,hrst,and_self,if_true,singleton_append,inFlight,filter_eq_nil_iff]
  intro d hd
  simp [hall d hd,hno,Socket.txLen]

section
variable (now : UInt64)

section
variable (h : c.Inv sk)
include h

theorem Inv.data (hidle : inFlight c.log = []) {n : ℕ} (hpos : 0 < n) (hle : n ≤ sk.txQ.count)
    (hmss : n ≤ tcpMss) :
    Inv { c with log := .first sk.sndNxt (sk.txQ.front n)::c.log }
      { sk with
        txBuf := sk.txQ.front n
        txQ := sk.txQ.drop n
        txSeq := sk.sndNxt
        sndNxt := sk.sndNxt+UInt32.ofNat n
        txPending := true
        retries := 0
        sentAt := now } := by
  have hnone : fins c.log = [] := by
    by_contra hne
    have hcount := (h.finished hne).2
    omega
  have hseq := h.nxt hnone
  constructor
  · exact h.kind
  · exact h.sound.first hseq hidle hnone
  · simp only [sent,append_assoc,sk.txQ.front_append_drop hle]
    exact h.rest
  · intro _
    simp only [sent,length_append,RingBuffer.length_front,UInt32.ofNat_add,hseq,UInt32.add_assoc]
  · intro hne
    exact absurd hnone hne
  · intro _
    refine ⟨mem_cons_self,?_,?_⟩
    · simpa using hmss
    · simp [inFlight,hidle]
  · intro _ hclear
    simp at hclear

theorem Inv.kick (hidle : sk.txPending = false → inFlight c.log = []) :
    (c.emit false (sk.kick now).2).Inv (sk.kick now).1 := by
  rcases sk.kick_cases now with he | ⟨hclear,n,hpos,hle,hmss,he⟩
  · rw [he]
    exact h
  · have hfront : (sk.txQ.front n).length = n := sk.txQ.length_front n
    have hne : sk.txQ.front n ≠ [] := by
      intro hnil
      simp only [hnil,length_nil] at hfront
      omega
    have hpay : (sk.txQ.front n).take tcpMss = sk.txQ.front n :=
      take_of_length_le (hfront.trans_le hmss)
    have hflag : hasFlag (Flag.psh ||| Flag.ack) Flag.fin = false := by decide
    have hemit : c.emit false (sk.kick now).2 =
        { c with log := .first sk.sndNxt (sk.txQ.front n)::c.log } := by
      rw [he]
      simp [emit,Segment.entries,Socket.sendSegment,hpay,hne,hflag]
    rw [hemit,he]
    exact h.data now (hidle hclear) hpos hle hmss

theorem Inv.send (data : List UInt8) :
    (emit { c with accepted := c.accepted ++ data.take ((sk.sendTcp now data).2.1.getD 0) } false
      (sk.sendTcp now data).2.2).Inv (sk.sendTcp now data).1 := by
  unfold Socket.sendTcp
  split
  next => simpa using h
  next hstate =>
    dsimp only
    split
    next => simpa using h
    next hfree =>
      rw [not_not] at hstate
      have hlive : sk.state.Live := .inr (.inr (.inl hstate))
      set n := min data.length (txQcap-sk.txQ.count)
      have hfit : sk.txQ.count+(data.take n).length ≤ txQcap := by
        rw [length_take]
        omega
      have hnone : fins c.log = [] := by
        by_contra hne
        exact (h.finished hne).1 hlive
      have hqueued : Inv { c with accepted := c.accepted ++ data.take n }
          { sk with txQ := sk.txQ.pushAll (data.take n) } := by
        refine ⟨h.kind,h.sound,?_,h.nxt,fun hne => absurd hnone hne,h.pending,h.idle⟩
        simp only [sk.txQ.toList_pushAll _ hfit,← append_assoc,h.rest]
      exact hqueued.kick now (h.idle hlive)

theorem Inv.handleAck (hrst : hasFlag s.flags Flag.rst = false) :
    (emit { c with log := s.acks ++ c.log } false (sk.handleAck now s).2).Inv
      (sk.handleAck now s).1 := by
  obtain ⟨st,hst,⟨-,he⟩ | ⟨hf,he⟩⟩ := sk.handleAck_cases now s
  · rw [he,emit_nil]
    exact (h.ack s).frame rfl hst.live (.inl rfl)
  · have hempty := h.inFlight_acked hf hrst
    have hacked : Inv { c with log := s.acks ++ c.log } (sk.acked s) := by
      have hack := h.ack s
      refine ⟨hack.kind,hack.sound,hack.rest,hack.nxt,hack.finished,?_,?_⟩
      · intro hset
        simp [Socket.acked] at hset
      · intro _ _
        exact hempty
    have hkicked := hacked.kick now fun _ => hempty
    rw [he]
    refine hkicked.frame rfl ?_ (.inl rfl)
    intro hl
    rw [Socket.kick_state]
    exact hst.live hl

theorem Inv.handleData (s : Inbound) :
    (c.emit false (sk.handleData s).2).Inv (sk.handleData s).1 := by
  have hbare : c.emit false (sk.handleData s).2 = c := by
    apply emit_bare
    unfold Socket.handleData
    split <;> simp [Socket.sendSegment]
    decide
  have hside : (sk.handleData s).1.txSide = sk.txSide ∧
      (sk.handleData s).1.txPending = sk.txPending := by
    unfold Socket.handleData Socket.appendRx
    split_ifs <;> exact ⟨rfl,rfl⟩
  rw [hbare]
  refine h.frame hside.1 ?_ (.inl hside.2)
  rw [Socket.handleData_state]
  exact id

theorem Inv.handleFin (s : Inbound) :
    (c.emit false (sk.handleFin now s).2).Inv (sk.handleFin now s).1 := by
  have hbare : c.emit false (sk.handleFin now s).2 = c := by
    apply emit_bare
    unfold Socket.handleFin
    split
    · dsimp only
      split <;> simp [Socket.sendSegment] <;> decide
    · simp
  have hside : (sk.handleFin now s).1.txSide = sk.txSide ∧
      (sk.handleFin now s).1.txPending = sk.txPending := by
    unfold Socket.handleFin
    split
    · dsimp only
      split <;> exact ⟨rfl,rfl⟩
    · exact ⟨rfl,rfl⟩
  rw [hbare]
  refine h.frame hside.1 ?_ (.inl hside.2)
  intro hl
  rcases sk.handleFin_state now s with ⟨he,-⟩ | ⟨-,he⟩ | ⟨he,-⟩
  · exact he ▸ hl
  · exact .inr (.inr (.inl he))
  · simp [he,TcpState.Live] at hl

theorem Inv.process (hrst : hasFlag s.flags Flag.rst = false) :
    (emit { c with log := s.acks ++ c.log } false (sk.process now s).2).Inv
      (sk.process now s).1 := by
  simp only [Socket.process,emit_append]
  exact ((h.handleAck now hrst).handleData s).handleFin now s

theorem Inv.receive (s : Inbound) :
    (emit { c with log := s.acks ++ c.log } false (sk.receive now s).2).Inv
      (sk.receive now s).1 := by
  by_cases hc : sk.Completes s
  · have hbare : emit { c with log := s.acks ++ c.log } false (sk.receive now s).2 =
        { c with log := s.acks ++ c.log } := by
      rw [Socket.receive_of_completes now hc]
      apply emit_bare
      simp [Socket.sendSegment]
      decide
    have hside : (sk.opened s).txSide = sk.txSide := by
      simp [Socket.opened,Socket.txSide,hc.2.2.2.2]
    rw [hbare,Socket.receive_of_completes now hc]
    exact (h.ack s).frame hside (fun _ => .inl hc.2.1) (.inl rfl)
  · by_cases hp : sk.Processes s
    · have hpromoted : c.Inv (sk.promoted s) := by
        unfold Socket.promoted
        split
        next hs => exact h.frame rfl (fun _ => .inr (.inl hs)) (.inl rfl)
        next => exact h
      rw [Socket.receive_of_processes now hp]
      exact hpromoted.process now hp.1
    · rcases Socket.receive_otherwise now hc hp with he | he <;> rw [he,emit_nil]
      · exact h.ack s
      · have hdead : ¬ (sk.aborted).state.Live := by
          simp [Socket.aborted,TcpState.Live]
        exact (h.ack s).frame rfl (fun hl => absurd hl hdead) (.inr ⟨rfl,hdead⟩)

/-- The FIN takes the number after all data when nothing is queued. -/
theorem Inv.close (hsafe : sk.state = .established ∨ sk.state = .closeWait → sk.txQ.count = 0) :
    (c.emit false sk.closeTcp.2).Inv sk.closeTcp.1 := by
  have hfin (st : TcpState) (hst : ¬ st.Live) (hq : sk.txQ.count = 0) (seg : Segment)
      (hpay : seg.payload = []) (hflag : hasFlag seg.flags Flag.fin = true) :
      (c.emit false [seg]).Inv { sk with sndNxt := sk.sndNxt+1, state := st } := by
    have hemit : c.emit false [seg] = { c with log := .fin seg.seq::c.log } := by
      simp [emit,Segment.entries,hpay,hflag]
    rw [hemit]
    refine ⟨h.kind,h.sound,h.rest,?_,fun _ => ⟨hst,hq⟩,?_,fun hl => absurd hl hst⟩
    · intro hnone
      simp [fins] at hnone
    · intro hset
      obtain ⟨hmem,hlen,hall⟩ := h.pending hset
      exact ⟨mem_cons_of_mem _ hmem,hlen,hall⟩
  unfold Socket.closeTcp
  split
  next hs =>
    exact hfin .finWait1 (by simp [TcpState.Live]) (hsafe (.inl hs)) _
      (by simp [Socket.sendSegment])
      (by simp [Socket.sendSegment]; decide)
  next hs =>
    exact hfin .lastAck (by simp [TcpState.Live]) (hsafe (.inr hs)) _ (by simp [Socket.sendSegment])
      (by simp [Socket.sendSegment]; decide)
  next => exact h.frame rfl id (.inl rfl)

theorem Inv.tick : (c.emit true (sk.tick now).2).Inv (sk.tick now).1 := by
  rcases sk.tick_cases now with ⟨used,he⟩ | ⟨p,hp,he⟩ |
    ⟨out,flags,hflag,_,_,_,he,hout⟩ | ⟨hstate,hset,out,_,_,_,he,hout⟩ <;> rw [he]
  · exact h.frame rfl id (.inl rfl)
  · have hdead : ¬ TcpState.closed.Live := by
      simp [TcpState.Live]
    exact h.frame rfl (fun hl => absurd hl hdead) (hp.imp id fun hp => ⟨hp,hdead⟩)
  · have hbare : c.emit true [out] = c := by
      apply emit_bare
      simp [hout,Socket.sendSegment,hflag]
    rw [hbare]
    exact h.frame rfl id (.inl rfl)
  · have hlive : sk.state.Live := .inr (.inr (.inl hstate))
    obtain ⟨hmem,hlen,hall⟩ := h.pending hset
    have hnone : fins c.log = [] := by
      by_contra hne
      exact (h.finished hne).1 hlive
    have hpay : sk.txBuf.take tcpMss = sk.txBuf := take_of_length_le hlen
    have hflag : hasFlag (Flag.psh ||| Flag.ack) Flag.fin = false := by decide
    have hagain : Inv { c with log := .again sk.txSeq sk.txBuf::c.log } sk :=
      ⟨h.kind,h.sound.again hmem hnone,h.rest,h.nxt,h.finished,
        fun _ => ⟨mem_cons_of_mem _ hmem,hlen,hall⟩,h.idle⟩
    have hemit : c.emit true [out] = c ∨
        c.emit true [out] = { c with log := .again sk.txSeq sk.txBuf::c.log } := by
      by_cases hnil : sk.txBuf = []
      · left
        simp [emit,Segment.entries,hout,Socket.sendSegment,hnil,hflag]
      · right
        simp [emit,Segment.entries,hout,Socket.sendSegment,hpay,hnil,hflag]
    rcases hemit with hemit | hemit <;> rw [hemit]
    · exact h.frame rfl id (.inl rfl)
    · exact hagain.frame rfl id (.inl rfl)

end
end

theorem next_start {h : Option TxConn} (hbefore : before sk ev h = some start)
    (hout : ∀ s ∈ (ev.apply sk).2, s.payload = [] ∧ hasFlag s.flags Flag.fin = false) :
    next sk ev h = some start := by
  rw [next,hbefore,Option.map_some,emit_bare _ _ hout]

theorem inv_start (hkind : sk.kind = .tcp) (hnxt : sk.sndNxt = sk.iss+1)
    (hpend : sk.txPending = false) (hq : sk.txQ.count = 0) : start.Inv sk := by
  have hnil : sk.txQ.toList = [] := (RingBuffer.toList_eq_nil _).mpr hq
  refine ⟨hkind,trivial,?_,?_,?_,?_,fun _ _ => rfl⟩
  · simp [start,sent,hnil]
  · simp [start,sent,hnxt]
  · intro hne
    exact absurd rfl hne
  · intro hset
    simp [hpend] at hset

end TxConn

namespace Socket

def TxInv (sk : Socket) : Option TxConn → Prop
  | none => sk.kind = .tcp → sk.Resting
  | some c => c.Inv sk

variable {sk : Socket} {h : Option TxConn}

theorem TxInv.faithful (hi : sk.TxInv h) : sk.Faithful h := by
  cases h with
  | none => exact hi
  | some c => exact hi.transmitted

theorem TxInv.frame (hi : sk.TxInv h) (hbefore : before sk ev h = h)
    (hout : (ev.apply sk).2 = []) (hside : (ev.apply sk).1.txSide = sk.txSide)
    (hpend : (ev.apply sk).1.txPending = sk.txPending)
    (hstate : (ev.apply sk).1.state = sk.state ∨ (ev.apply sk).1.state = .listen) :
    (ev.apply sk).1.TxInv (next sk ev h) := by
  have hkind : (ev.apply sk).1.kind = sk.kind := congrArg TxSide.kind hside
  have hnext : next sk ev h = h := by simp [TxConn.next,hbefore,hout]
  rw [hnext]
  cases h with
  | none =>
    intro htcp
    rcases hstate with he | he
    · rw [Resting,he]
      exact hi (hkind ▸ htcp)
    · exact .inr he
  | some c =>
    refine TxConn.Inv.frame hi hside ?_ (.inl hpend)
    intro hl
    rcases hstate with he | he
    · exact he ▸ hl
    · simp [he,TcpState.Live] at hl

section
variable (now : UInt64)

theorem Resting.sendTcp (hr : sk.Resting) (data : List UInt8) :
    (sk.sendTcp now data).1.Resting := by
  have hne : sk.state ≠ .established := by rcases hr with h | h <;> simp [h]
  simpa [Socket.sendTcp,hne] using hr

theorem Resting.closeTcp (hr : sk.Resting) : sk.closeTcp.1.Resting := by
  unfold Socket.closeTcp
  rcases hr with h | h <;> simp [h,Resting]

theorem Resting.tick (hr : sk.Resting) : (sk.tick now).1.Resting := by
  rcases sk.tick_cases now with ⟨used,he⟩ | ⟨p,-,he⟩ | ⟨out,flags,-,_,_,_,he,-⟩ |
    ⟨-,-,out,_,_,_,he,-⟩ <;> rw [he]
  · exact hr
  · exact .inl rfl
  · exact hr
  · exact hr

theorem Resting.receive (hr : sk.Resting) (s : Inbound) : (sk.receive now s).1.Resting := by
  have hc : ¬ sk.Completes s := by
    intro hc
    have hsent := hc.2.1
    rcases hr with h | h <;> simp [h] at hsent
  by_cases hp : sk.Processes s
  · have hlisten : sk.state = .listen := hr.resolve_left hp.2.1
    have hpromoted : sk.promoted s = sk := by simp [promoted,hlisten]
    rw [receive_of_processes now hp,hpromoted]
    exact .inr (process_listen now hlisten)
  · rcases receive_otherwise now hc hp with he | he <;> rw [he]
    · exact hr
    · exact .inl rfl

end

theorem TxInv.step (hi : sk.TxInv h) (hen : ev.Enabled sk) (hsafe : sk.TxSafe ev) :
    (ev.apply sk).1.TxInv (next sk ev h) := by
  cases ev with
  | fresh kind pid port => exact fun _ => .inl rfl
  | child pid port now l n src s =>
    have hnext : next sk (.child pid port now l n src s) h = some start := by
      apply next_start rfl
      simp [SlotEvent.apply,sendSegment]
      decide
    rw [hnext]
    exact inv_start rfl rfl rfl rfl
  | connect now i ip port =>
    have hnext : next sk (.connect now i ip port) h = some start := by
      apply next_start rfl
      simp [SlotEvent.apply,sendSegment]
      decide
    obtain ⟨hpend,hq⟩ := hsafe.2 rfl
    rw [hnext]
    exact inv_start hen.2.1 rfl hpend hq
  | send now data =>
    cases h with
    | none => exact fun _ => Resting.sendTcp now (hi hen.2) data
    | some c => exact TxConn.Inv.send now hi data
  | segment now s =>
    cases h with
    | none => exact fun _ => Resting.receive now (hi hen.2) s
    | some c => exact TxConn.Inv.receive now hi s
  | close =>
    cases h with
    | none => exact fun _ => Resting.closeTcp (hi hen.2)
    | some c => exact TxConn.Inv.close hi (hsafe.1 rfl)
  | tick now =>
    cases h with
    | none =>
      intro htcp
      have hkind : (sk.tick now).1.kind = sk.kind := by
        rcases sk.tick_cases now with ⟨used,he⟩ | ⟨p,-,he⟩ | ⟨out,flags,-,_,_,_,he,-⟩ |
          ⟨-,-,out,_,_,_,he,-⟩ <;> rw [he] <;> rfl
      exact Resting.tick now (hi (hkind ▸ htcp))
    | some c => exact TxConn.Inv.tick now hi
  | listen => exact hi.frame rfl rfl rfl rfl (.inr rfl)
  | recv room =>
    have hrecv : (sk.recv room).1.txSide = sk.txSide ∧
        (sk.recv room).1.txPending = sk.txPending ∧ (sk.recv room).1.state = sk.state := by
      unfold recv
      split <;> dsimp only <;> split <;> exact ⟨rfl,rfl,rfl⟩
    exact hi.frame rfl rfl hrecv.1 hrecv.2.1 (.inl hrecv.2.2)
  | joinUdp ip port =>
    have hudp : sk.kind ≠ .tcp := by simp [hen.2]
    cases h with
    | none => exact fun htcp => absurd htcp hudp
    | some c => exact absurd hi.kind hudp
  | idle | bind | adopted | freed | peer | datagram => exact hi.frame rfl rfl rfl rfl (.inl rfl)

end Socket

/-- In every run in which no FIN overtakes queued data and no connection starts with old data, every
connection transmits what was accepted: in order, without gap, one segment at a time, and nothing
behind its FIN. -/
theorem transmitted_faithfully_of_txSafe {es : List (Env × Op)} (hes : EachStep (Traced.step next)
      (fun M e _ => M.AtSlots (fun sk _ ev => sk.TxSafe ev) e) (.init none) es) :
    Always (Traced.step next) (Traced.Everywhere Socket.Faithful) (.init none) es := by
  have hempty : Socket.empty.TxInv none := fun _ => .inl rfl
  have hinv := Traced.always_slots (P := Socket.TxInv) (C := fun sk _ ev => sk.TxSafe ev)
    (fun sk h ev hi hen hsafe => Socket.TxInv.step hi hen hsafe) hempty hes
  apply hinv.mono
  intro M hM i
  exact (hM i).faithful

instance (sk : Socket) : DecidablePred sk.Faithful
  | none => inferInstanceAs (Decidable (_ → _ ∨ _))
  | some c => decidable_of_iff
      (Sound (sk.iss+1) c.log ∧ (inFlight c.log).length ≤ 1 ∧
        sent c.log ++ sk.txQ.toList = c.accepted)
      ⟨fun ⟨h₁,h₂,h₃⟩ => ⟨h₁,h₂,h₃⟩,fun h => ⟨h.sound,h.single,h.rest⟩⟩

instance (sk : Socket) : DecidablePred sk.TxSafe := fun _ =>
  inferInstanceAs (Decidable ((_ → _ ∨ _ → _) ∧ (_ → _)))

/-- Two bytes go out, are repeated and acknowledged; the third follows before the FIN. -/
theorem transmitted_faithfully_in_short_run :
    Always (Traced.step next) (Traced.Everywhere Socket.Faithful) (.init none) (handshake ++
        [byCaller (.send 0 [1,2]),byCaller (.send 0 [3]),byCaller (.tick 60),
          fromPeer [0,0,0,1] [0,0,0x9E,0x3A] Flag.ack [],byCaller (.close 0)]) :=
  transmitted_faithfully_of_txSafe (by decide +kernel)

/-- A FIN that is sent while a byte is queued takes the number of this byte, which then goes
out behind it. -/
theorem early_close_sends_behind_fin :
    ¬ Always (Traced.step next) (Traced.Everywhere Socket.Faithful) (.init none) (handshake ++
        [byCaller (.send 0 [1,2]),byCaller (.send 0 [3]),byCaller (.close 0),
          fromPeer [0,0,0,1] [0,0,0x9E,0x3A] Flag.ack []]) := by
  decide +kernel

end Aios.Kernel.Sock
