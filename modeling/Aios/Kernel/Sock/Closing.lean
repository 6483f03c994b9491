import Aios.Kernel.Sock.Parents

/-!
The end of a connection. A socket that has sent its FIN goes on from FinWait1 or LastAck on every
acknowledgment, also on one of earlier data, and from LastAck on a RST.
-/
namespace Aios.Kernel.Sock

open Transition

namespace Socket

variable {sk : Socket} {s : Inbound} {ev : SlotEvent}

/-- The socket goes on from FinWait1, if only to pass through FinWait2, or from LastAck. -/
def Concludes (sk sk' : Socket) : Prop :=
  sk.used = true ∧ sk.kind = .tcp ∧
    (sk.state = .finWait1 ∧ (sk'.state = .finWait2 ∨ sk'.state = .timeWait) ∨
      sk.state = .lastAck ∧ sk'.state = .closed)

instance (sk sk' : Socket) : Decidable (Concludes sk sk') := inferInstanceAs (Decidable (_ ∧ _))

def EndedBy (sk : Socket) (s : Inbound) : Prop :=
  sk.state = .finWait1 ∧ hasFlag s.flags Flag.rst = false ∧ hasFlag s.flags Flag.ack = true ∨
    sk.state = .lastAck ∧ (hasFlag s.flags Flag.rst = true ∨ hasFlag s.flags Flag.ack = true)

/-- No number decides whether a segment ends the wait. -/
theorem receive_concludes_iff (htcp : sk.used = true ∧ sk.kind = .tcp) (now : UInt64) :
    Concludes sk (sk.receive now s).1 ↔ sk.EndedBy s := by
  obtain ⟨hused,hkind⟩ := htcp
  simp only [Concludes,EndedBy,hused,hkind,true_and]
  have hprocess (hrst : hasFlag s.flags Flag.rst = false)
      (hst : sk.state = .finWait1 ∨ sk.state = .lastAck) :
      sk.receive now s = sk.process now s := by
    rcases hst with h | h <;> simp [receive,hrst,h]
  have hack : (sk.handleAck now s).1.state =
      if hasFlag s.flags Flag.ack then afterAck sk.state else sk.state := by
    rw [handleAck_eq]
    cases hasFlag s.flags Flag.ack <;> rfl
  have hfin := ((sk.handleAck now s).1.handleData s).1.handleFin_state now s
  rw [handleData_state,hack] at hfin
  cases hst : sk.state with
  | finWait1 | lastAck =>
    cases hrst : hasFlag s.flags Flag.rst with
    | true => simp [receive,hrst]
    | false =>
      rw [hprocess hrst (by simp [hst]),process]
      cases hf : hasFlag s.flags Flag.ack <;> simp_all [afterAck]
  | _ => simp

/-- Nothing but a segment takes the socket on. -/
theorem Concludes.segment (hen : ev.Enabled sk) (h : Concludes sk (ev.apply sk).1) :
    ∃ now s, ev = .segment now s := by
  obtain ⟨hused,hkind,hstate⟩ := h
  have hne : sk.state ≠ (ev.apply sk).1.state ∧ sk.state ≠ .established ∧
      (ev.apply sk).1.state ≠ .listen ∧ (ev.apply sk).1.state ≠ .synSent := by
    rcases hstate with ⟨hs,hs' | hs'⟩ | ⟨hs,hs'⟩ <;> simp [hs,hs']
  obtain ⟨hmoves,hopen,hlisten,hsent⟩ := hne
  cases ev with
  | segment now s => exact ⟨now,s,rfl⟩
  | fresh | child => exact absurd (hen.symm.trans hused) (by decide)
  | joinUdp | datagram => exact absurd (hen.2.symm.trans hkind) (by decide)
  | idle | bind | adopted | freed | peer => exact absurd rfl hmoves
  | listen => exact absurd rfl hlisten
  | connect => exact absurd rfl hsent
  | send now data =>
    refine absurd ?_ hmoves
    simp [SlotEvent.apply,sendTcp,hopen]
  | recv room =>
    refine absurd ?_ hmoves
    simp [SlotEvent.apply]
  | tick now =>
    refine absurd ?_ hmoves
    rcases hstate with ⟨hs,-⟩ | ⟨hs,-⟩ <;> simp [SlotEvent.apply,tick,hs]
  | close =>
    refine absurd ?_ hmoves
    rcases hstate with ⟨hs,-⟩ | ⟨hs,-⟩ <;> simp [SlotEvent.apply,closeTcp,hs]

end Socket

/-- What a slot keeps of its FIN: the sequence number after it. -/
def finNxt (sk : Socket) : SlotEvent → UInt32 → UInt32
  | .close, n => if sk.state = .established ∨ sk.state = .closeWait then sk.sndNxt+1 else n
  | _, n => n

/-- A segment from the peer of the socket that acknowledges `n`. -/
def Op.Acknowledges (sk : Socket) (n : UInt32) (op : Op) : Prop :=
  ∃ src seg s, op = .deliverTcp src seg ∧ parse seg = some s ∧ sk.rip = src ∧
    sk.rport = s.sport ∧ sk.port = s.dport ∧ hasFlag s.flags Flag.ack = true ∧ s.ack = n

namespace Traced

/-- Sockets go on only upon acknowledgments of their FIN. -/
def UponFinAck (M : Traced UInt32) (e : Env × Op) (M' : Traced UInt32) : Prop :=
  ∀ i, Socket.Concludes (M.table.socks i) (M'.table.socks i) →
    e.2.Acknowledges (M.table.socks i) (M.hist i)

/-- Whatever ends the wait for an acknowledgment of the FIN is one. -/
def AcksFin (sk : Socket) (n : UInt32) : SlotEvent → Prop
  | .segment _ s => sk.EndedBy s → hasFlag s.flags Flag.ack = true ∧ s.ack = n
  | _ => True

theorem uponFinAck_iff_step {M M' : Traced UInt32} {e : Env × Op}
    (hst : step finNxt M e = some M') : UponFinAck M e M' ↔ M.AtSlots AcksFin e := by
  cases hst
  refine forall_congr' fun i => ?_
  have hacts := (Prod.ext_iff.mp (M.table.step_acts e.1 i e.2)).1
  have hen := M.table.slotEvent_enabled e.1 i e.2
  dsimp only at hacts ⊢
  rw [hacts]
  generalize hev : M.table.slotEvent e.1 e.2 i = ev at hen
  constructor
  · intro h
    cases ev with
    | segment now s =>
      intro hends
      obtain ⟨src,seg,s',hop,hparse,-,-,-,hack⟩ :=
        h ((Socket.receive_concludes_iff hen now).mpr hends)
      obtain ⟨src',seg',hop',hparse',-⟩ := Table.slotEvent_segment hev
      cases hop.symm.trans hop'
      cases hparse.symm.trans hparse'
      exact hack
    | _ => trivial
  · intro hacks hcon
    obtain ⟨now,s,rfl⟩ := hcon.segment hen
    obtain ⟨src,seg,hop,hparse,-,hconn⟩ := Table.slotEvent_segment hev
    have hfound := List.find?_some hconn
    simp only [decide_eq_true_eq] at hfound
    obtain ⟨-,-,hport,hrport,hrip⟩ := hfound
    exact ⟨src,seg,s,hop,hparse,hrip,hrport,hport,
      hacks ((Socket.receive_concludes_iff hen now).mp hcon)⟩

/-- The sockets of a run wait for the acknowledgments of their FINs precisely if they get no
other acknowledgment, and no RST in LastAck, while they wait. -/
theorem fin_wait_iff (es : List (Env × Op)) : EachStep (step finNxt) UponFinAck (init 0) es ↔
      EachStep (step finNxt) (fun M e _ => M.AtSlots AcksFin e) (init 0) es := by
  have hall : Always (step finNxt) (fun _ => True) (init 0) es :=
    always_of_step (fun _ _ _ _ _ => trivial) trivial es
  constructor
  · exact hall.eachStep fun _ _ _ _ h hst => (uponFinAck_iff_step hst).mp h
  · exact hall.eachStep fun _ _ _ _ h hst => (uponFinAck_iff_step hst).mpr h

/-- The acknowledgment of the byte before the FIN leads to FinWait2. -/
theorem data_ack_ends_wait : ¬ EachStep (step finNxt) UponFinAck (init 0)
      (handshake ++ [byCaller (.send 0 [7]),byCaller (.close 0),
        fromPeer [0,0,0,1] [0,0,0x9E,0x39] Flag.ack []]) := by
  intro h
  have hclosed := ((((h _ rfl).2 _ rfl).2 _ rfl).2 _ rfl).2 _ rfl
  obtain ⟨src,seg,s,hop,hparse,-,-,-,-,hack⟩ :=
    (hclosed.2 _ rfl).1 ⟨0,by decide⟩ (by decide +kernel)
  cases hop
  cases hparse
  revert hack
  decide +kernel

end Traced
end Aios.Kernel.Sock
