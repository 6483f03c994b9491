import Aios.Kernel.Sock.Socket

/-!
What one step can do to a socket. An inbound segment completes an active open, goes on to the ACK,
payload and FIN branches, or is turned away; a tick resends or gives up.
-/
namespace Aios.Kernel.Sock.Socket

open Aios.Kernel.Sock.Flag
variable (now : UInt64) (sk : Socket) (s : Inbound)

def Completes : Prop :=
  hasFlag s.flags rst = false ∧ sk.state = .synSent ∧ hasFlag s.flags syn = true ∧
    hasFlag s.flags ack = true ∧ s.ack = sk.sndNxt

/-- The segment reaches the ACK, payload and FIN branches. -/
def Processes : Prop :=
  hasFlag s.flags rst = false ∧ sk.state ≠ .closed ∧ sk.state ≠ .synSent ∧
    (sk.state = .synRecv → hasFlag s.flags ack = true ∧ s.ack = sk.sndNxt)

instance : Decidable (sk.Completes s) := inferInstanceAs (Decidable (_ ∧ _))

instance : Decidable (sk.Processes s) := inferInstanceAs (Decidable (_ ∧ _))

def opened : Socket :=
  { sk with
    rcvNxt := s.seq+1
    sndUna := s.ack
    sndNxt := s.ack
    peerWscale := s.wscale
    state := .established }

/-- The final ACK of a passive open comes before the shared branches. -/
def promoted : Socket :=
  if sk.state = .synRecv then { sk with sndUna := s.ack, state := .established } else sk

def aborted : Socket := { sk with state := .closed, eof := true, txPending := false }

variable {sk s}

theorem receive_of_completes (h : sk.Completes s) : sk.receive now s =
      (sk.opened s,[(sk.opened s).sendSegment (sk.opened s).sndNxt ack []]) := by
  obtain ⟨hrst,hstate,hsyn,hack,hno⟩ := h
  simp [receive,hrst,hstate,hsyn,hack,hno,opened]

theorem receive_of_processes (h : sk.Processes s) :
    sk.receive now s = (sk.promoted s).process now s := by
  obtain ⟨hrst,hclosed,hsent,hrecv⟩ := h
  unfold receive promoted
  rw [hrst]
  cases hstate : sk.state with
  | closed => exact absurd hstate hclosed
  | synSent => exact absurd hstate hsent
  | synRecv => simp [hrecv hstate]
  | listen | established | closeWait | finWait1 | finWait2 | lastAck | timeWait => simp

/-- Every other segment leaves the socket alone or aborts the connection, and is not
answered. -/
theorem receive_otherwise (hc : ¬ sk.Completes s) (hp : ¬ sk.Processes s) :
    sk.receive now s = (sk,[]) ∨ sk.receive now s = (sk.aborted,[]) := by
  unfold receive
  cases hrst : hasFlag s.flags rst with
  | true => exact .inr rfl
  | false =>
    left
    simp only [Completes,hrst] at hc
    simp only [Processes,hrst] at hp
    cases hstate : sk.state with
    | closed => simp
    | synSent =>
      simp only [hstate,true_and] at hc
      simp [hc]
    | synRecv =>
      have hno : ¬ (hasFlag s.flags ack = true ∧ s.ack = sk.sndNxt) := by simpa [hstate] using hp
      simp only [Bool.false_eq_true,if_false,if_neg hno]
    | listen | established | closeWait | finWait1 | finWait2 | lastAck | timeWait =>
      simp [hstate] at hp

section
variable (sk)

theorem kick_cases : kick now sk = (sk,[]) ∨
      sk.txPending = false ∧ ∃ n, 0 < n ∧ n ≤ sk.txQ.count ∧ n ≤ tcpMss ∧
        kick now sk =
          let next := { sk with
            txBuf := sk.txQ.front n
            txQ := sk.txQ.drop n
            txSeq := sk.sndNxt
            sndNxt := sk.sndNxt+UInt32.ofNat n
            txPending := true
            retries := 0
            sentAt := now }
          (next,[next.sendSegment sk.sndNxt (psh ||| Flag.ack) (sk.txQ.front n)]) := by
  unfold kick
  split
  next => exact .inl rfl
  next hwait =>
    obtain ⟨hpend,hcount⟩ := not_or.mp hwait
    dsimp only
    split
    next => exact .inl rfl
    next =>
      refine .inr ⟨by simpa using hpend,min sk.txQ.count tcpMss,?_,min_le_left _ _,
        min_le_right _ _,rfl⟩
      exact lt_min (Nat.pos_of_ne_zero hcount) (by decide)

@[simp] theorem kick_state : (kick now sk).1.state = sk.state := by
  rcases kick_cases now sk with h | ⟨-,n,-,-,-,h⟩ <;> rw [h]

end

section
variable (sk s)

def Finishes : Prop :=
  hasFlag s.flags ack = true ∧ sk.txPending = true ∧
    s.ack = sk.txSeq+UInt32.ofNat sk.txLen

instance : Decidable (sk.Finishes s) := inferInstanceAs (Decidable (_ ∧ _))

/-- The socket when the data in flight is acknowledged, before the next data goes out. -/
def acked : Socket := { sk with txPending := false, sndUna := s.ack, cwnd := sk.grownCwnd }

def AckLeads (st : TcpState) : Prop :=
  st = sk.state ∨ sk.state = .finWait1 ∧ st = .finWait2 ∨ sk.state = .lastAck ∧ st = .closed

/-- Where an acknowledgment takes the state, whatever its number. -/
def afterAck : TcpState → TcpState
  | .finWait1 => .finWait2
  | .lastAck => .closed
  | st => st

theorem ackLeads_afterAck : sk.AckLeads (afterAck sk.state) := by
  unfold AckLeads
  cases sk.state <;> simp [afterAck]

theorem handleAck_eq : sk.handleAck now s =
      if hasFlag s.flags ack = false then (sk,[])
      else
        let r := if sk.Finishes s then kick now (sk.acked s) else (sk,[])
        ({ r.1 with state := afterAck sk.state },r.2) := by
  unfold handleAck
  split
  next => rfl
  next hack =>
    rw [Bool.not_eq_false] at hack
    by_cases hfin : sk.Finishes s
    · have hafter : afterAck sk.state = afterAck (kick now (sk.acked s)).1.state := by
        rw [kick_state]
        rfl
      rw [if_pos hfin,hafter]
      simp only [if_pos hfin.2,acked]
      split
      next h => rw [h,afterAck]
      next h => rw [h,afterAck]
      next hne₁ hne₂ => rw [afterAck.eq_3 _ hne₁ hne₂]
    · rw [if_neg hfin]
      simp only [if_neg fun h => hfin ⟨hack,h⟩]
      split
      next h => rw [h,afterAck]
      next h => rw [h,afterAck]
      next hne₁ hne₂ => rw [afterAck.eq_3 _ hne₁ hne₂]

theorem handleAck_cases : ∃ st, sk.AckLeads st ∧
      (¬ sk.Finishes s ∧ sk.handleAck now s = ({ sk with state := st },[]) ∨
        sk.Finishes s ∧
          sk.handleAck now s =
            ({ (kick now (sk.acked s)).1 with state := st },(kick now (sk.acked s)).2)) := by
  rw [handleAck_eq]
  split
  next hack => exact ⟨sk.state,.inl rfl,.inl ⟨fun h => by simp [h.1] at hack,rfl⟩⟩
  next =>
    refine ⟨_,sk.ackLeads_afterAck,?_⟩
    by_cases hfin : sk.Finishes s
    · exact .inr ⟨hfin,by rw [if_pos hfin]⟩
    · exact .inl ⟨hfin,by rw [if_neg hfin]⟩

end

section
variable (sk s)

theorem handleAck_state : sk.AckLeads (sk.handleAck now s).1.state := by
  obtain ⟨st,hst,⟨-,h⟩ | ⟨-,h⟩⟩ := sk.handleAck_cases now s <;> rw [h] <;> exact hst

@[simp] theorem handleData_state : (sk.handleData s).1.state = sk.state := by
  unfold handleData appendRx
  split_ifs <;> rfl

theorem handleFin_state : (sk.handleFin now s).1.state = sk.state ∧
        (hasFlag s.flags fin = true → sk.state ≠ .established) ∨
      (sk.handleFin now s).1.state = .closeWait ∧ sk.state = .established ∨
      (sk.handleFin now s).1.state = .timeWait ∧ sk.state = .finWait2 := by
  unfold handleFin
  split
  next =>
    dsimp only
    split
    next h => exact .inr (.inl ⟨rfl,h⟩)
    next h => exact .inr (.inr ⟨rfl,h⟩)
    next h _ => exact .inl ⟨rfl,fun _ => h⟩
  next hfin => exact .inl ⟨rfl,fun h => absurd h hfin⟩

theorem process_state : ∃ st, sk.AckLeads st ∧
      ((sk.process now s).1.state = st ∧
          (hasFlag s.flags fin = true → st ≠ .established) ∨
        (sk.process now s).1.state = .closeWait ∧ st = .established ∨
        (sk.process now s).1.state = .timeWait ∧ st = .finWait2) := by
  have hdata := (sk.handleAck now s).1.handleData_state s
  have hfin := ((sk.handleAck now s).1.handleData s).1.handleFin_state now s
  rw [hdata] at hfin
  exact ⟨_,sk.handleAck_state now s,hfin⟩

variable {sk s}

theorem process_listen (h : sk.state = .listen) : (sk.process now s).1.state = .listen := by
  obtain ⟨st,hst,hafter⟩ := sk.process_state now s
  have hlisten : st = .listen := by
    rcases hst with he | ⟨he,-⟩ | ⟨he,-⟩
    · rw [he,h]
    · simp [h] at he
    · simp [h] at he
  rcases hafter with ⟨he,-⟩ | ⟨-,he⟩ | ⟨-,he⟩
  · rw [he,hlisten]
  · simp [hlisten] at he
  · simp [hlisten] at he

end

section
variable (sk)

/-- The timer fields after a retransmission. -/
def retimed (cwnd ssthresh : UInt32) (retries : UInt8) : Socket :=
  { sk with cwnd := cwnd, ssthresh := ssthresh, retries := retries, sentAt := now }

def Resends (out : Segment) (seq : UInt32) (flags : UInt8) (payload : List UInt8) : Prop :=
  ∃ cwnd ssthresh retries,
    sk.tick now = (sk.retimed now cwnd ssthresh retries,[out]) ∧
      out = (sk.retimed now cwnd ssthresh retries).sendSegment seq flags payload

theorem tick_cases : (∃ used, sk.tick now = ({ sk with used := used },[])) ∨
      (∃ p, (p = sk.txPending ∨ p = false) ∧
        sk.tick now = ({ sk with txPending := p, state := .closed, eof := true },[])) ∨
      (∃ out flags, hasFlag flags fin = false ∧ sk.Resends now out sk.iss flags []) ∨
      sk.state = .established ∧ sk.txPending = true ∧
        ∃ out, sk.Resends now out sk.txSeq (psh ||| Flag.ack) sk.txBuf := by
  unfold Resends tick
  split
  · exact .inl ⟨sk.used,rfl⟩
  · split
    · split_ifs
      · exact .inr (.inr (.inl ⟨_,_,by decide,sk.cwnd,sk.ssthresh,_,rfl,rfl⟩))
      · exact .inr (.inl ⟨sk.txPending,.inl rfl,rfl⟩)
      · exact .inl ⟨sk.used,rfl⟩
    · split_ifs
      · exact .inr (.inr (.inl ⟨_,_,by decide,sk.cwnd,sk.ssthresh,_,rfl,rfl⟩))
      · exact .inl ⟨false,rfl⟩
      · exact .inl ⟨sk.used,rfl⟩
    next hstate =>
      split
      next hdue =>
        split
        next => exact .inr (.inr (.inr ⟨hstate,hdue.1,_,_,_,_,rfl,rfl⟩))
        next => exact .inr (.inl ⟨false,.inr rfl,rfl⟩)
      next => exact .inl ⟨sk.used,rfl⟩
    · split_ifs
      · exact .inl ⟨false,rfl⟩
      · exact .inl ⟨sk.used,rfl⟩
    · exact .inl ⟨sk.used,rfl⟩

end
end Aios.Kernel.Sock.Socket
