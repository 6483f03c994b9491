import Aios.Kernel.Net.Machine
import Aios.Lib.Transition

/-!
When a lease may be installed: after an ACK of the current transaction that answers the last
REQUEST, with the address of that ACK. The log has the newest entry first.
-/
namespace Aios.Kernel.Net

open Sock (Ip)
open Transition

inductive Record where
  | request
  | ack (xid : UInt32) (ip : Ip)
  | bound (xid : UInt32) (ip : Ip)
  deriving DecidableEq

def sinceRequest (log : List Record) : List Record := log.takeWhile (· ≠ .request)

/-- Every installed lease has the address of an ACK of its transaction that came after the
last REQUEST before it. -/
def Answered : List Record → Prop
  | [] => True
  | .bound xid ip::log => .ack xid ip ∈ sinceRequest log ∧ Answered log
  | _::log => Answered log

instance Answered.decidable : DecidablePred Answered
  | [] => isTrue trivial
  | .bound _ _::log =>
    haveI := Answered.decidable log
    inferInstanceAs (Decidable (_ ∧ _))
  | .request::log | .ack _ _::log => Answered.decidable log

/-- What happens to the stack: the start of a poll, the frames and the step that make up the
rest of it, and the two calls. -/
inductive Event where
  | link (now : UInt64) (up : Bool)
  | frame (ticks : UInt64) (bs : List UInt8)
  | tick (now ticks : UInt64) (up : Bool)
  | apply (ticks : UInt64) (s : Settings)
  | recheck (ticks : UInt64) (up : Bool)
  deriving DecidableEq

def Event.heard : Event → List Record
  | .frame _ bs =>
    match classify bs with
    | .dhcp pkt =>
      if replyType (xidOf pkt) pkt = some dhcpAckMsg then [.ack (xidOf pkt) (yiaddr pkt)] else []
    | _ => []
  | _ => []

def Phase.awaits : Phase → Bool
  | .request | .renew => true
  | _ => false

namespace Stack

variable (n : Stack)

def respond : Event → Stack × List Action
  | .link now up => (n.sampleLink now up,[])
  | .frame ticks bs => n.handleFrame ticks bs
  | .tick now ticks up => n.step now ticks up
  | .apply ticks s => (n.apply ticks s,[])
  | .recheck ticks up => n.recheck ticks up

/-- The requests and the leases among the actions, the newest first. -/
def done (acts : List Action) : List Record :=
  (acts.filterMap fun
    | .dhcp _ msg _ _ _ _ _ => if msg = dhcpRequestMsg then some .request else none
    | .installed l => some (.bound n.xid l.ip)
    | _ => none).reverse

def Awaiting : Prop := n.phase.awaits = true

/-- The next step starts an exchange: an offer is there, or the lease has to be renewed. -/
def Requests (now : UInt64) : Prop :=
  n.phase = .discover ∧ n.gotOffer = true ∨
    n.phase = .bound ∧ n.hasIp = true ∧ (n.rebindDue now = true ∨ n.renewDue now = true)

instance : Decidable n.Awaiting := inferInstanceAs (Decidable (_ = _))

instance (now : UInt64) : Decidable (n.Requests now) := inferInstanceAs (Decidable (_ ∨ _))

/-- No old answer is around when a REQUEST goes out, and the address on offer is the one that the
awaited ACK assigns. -/
def Orderly : Event → Prop
  | .tick now _ _ => n.Requests now → n.gotAck = false
  | .frame _ bs =>
    match classify bs with
    | .dhcp pkt =>
      n.Awaiting →
        (replyType n.xid pkt = some dhcpAckMsg → n.offer.ip = .zero ∨ n.offer.ip = yiaddr pkt) ∧
        (replyType n.xid pkt = some dhcpOfferMsg → n.gotAck = true →
          yiaddr pkt = .zero ∨ yiaddr pkt = n.offer.ip)
    | _ => True
  | _ => True

end Stack

structure Client where
  stack : Stack
  log : List Record

namespace Client

def init (s : Settings) : Client := ⟨.init s,[]⟩

def step (c : Client) (e : Event) : Option Client :=
  let r := c.stack.respond e
  some ⟨r.1,c.stack.done r.2 ++ e.heard ++ c.log⟩

end Client

variable {bs pkt : List UInt8} {xid : UInt32} {log : List Record}

namespace Stack

variable {n : Stack} {now ticks : UInt64} {r : Stack × List Action}

def exchange (n : Stack) : Phase × Bool × Lease × UInt32 := (n.phase,n.gotAck,n.offer,n.xid)

/-- Neither a REQUEST nor a lease, and no answer awaited that was not awaited before. -/
structure Silent (n : Stack) (r : Stack × List Action) : Prop where
  done : n.done r.2 = []
  same : r.1.Awaiting → r.1.exchange = n.exchange

/-- What a step of the machine can mean for the exchange. -/
inductive Outcome (n : Stack) (now : UInt64) (r : Stack × List Action) : Prop where
  | silent (h : Silent n r)
  | requested (hdone : n.done r.2 = [.request]) (hsame : r.1.gotAck = n.gotAck)
      (hfresh : n.gotAck = false ∨ n.Requests now)
  | installed (hdone : n.done r.2 = [.bound n.xid n.offer.ip]) (hawait : n.Awaiting)
      (hgot : n.gotAck = true) (hend : r.1.phase.awaits = false)

section
variable (hdone : n.done r.2 = [])
include hdone

theorem Silent.of_phase (h : r.1.phase.awaits = false) : Silent n r :=
  ⟨hdone,fun hawait => absurd (hawait.symm.trans h) (by decide)⟩

theorem Silent.of_exchange (h : r.1.exchange = n.exchange) : Silent n r := ⟨hdone,fun _ => h⟩

theorem Outcome.of_phase (h : r.1.phase.awaits = false) : Outcome n now r :=
  .silent (.of_phase hdone h)

theorem Outcome.of_idle (h : r.1 = n) : Outcome n now r :=
  .silent (.of_exchange hdone (congrArg exchange h))

end

section
variable (n now ticks)

theorem startCheck_silent {m : Stack} (h : n.phase = .bound) :
    Silent m (n.startCheck now ticks) := by
  unfold startCheck
  dsimp only
  split_ifs
  · exact .of_phase rfl rfl
  · exact .of_phase rfl rfl
  · exact .of_phase rfl rfl
  · exact .of_phase rfl (by rw [h]; rfl)

theorem awaitProbe_outcome {again : Stack → Stack × List Action}
    (hagain : ∀ n' : Stack, (again n').1.phase = n'.phase ∧ n.done (again n').2 = [])
    (h : n.phase.awaits = false) : Outcome n now (n.awaitProbe now again) := by
  unfold awaitProbe
  split_ifs
  · exact .of_phase (hagain _).2 (by rw [(hagain _).1]; exact h)
  · exact .of_phase rfl rfl
  · exact .of_idle rfl rfl

theorem stepArp_outcome (h : n.phase = .checkArp) : Outcome n now (n.stepArp now) := by
  unfold stepArp
  split_ifs
  · exact .of_phase rfl rfl
  · apply awaitProbe_outcome
    · exact fun _ => ⟨rfl,rfl⟩
    · rw [h]
      rfl

theorem stepIcmp_outcome (h : n.phase = .checkIcmp) : Outcome n now (n.stepIcmp now ticks) := by
  unfold stepIcmp
  dsimp only
  split_ifs
  · exact .of_phase rfl rfl
  · exact .of_phase rfl rfl
  · apply awaitProbe_outcome
    · exact fun _ => ⟨rfl,rfl⟩
    · rw [h]
      rfl

theorem stepDns_outcome (h : n.phase = .checkDns) : Outcome n now (n.stepDns now ticks) := by
  unfold stepDns
  split_ifs
  · exact .of_phase rfl rfl
  · apply awaitProbe_outcome
    · exact fun _ => ⟨rfl,rfl⟩
    · rw [h]
      rfl

theorem stepIdle_outcome (up : Bool) : Outcome n now (n.stepIdle now up) := by
  unfold stepIdle
  split_ifs
  · exact .of_idle rfl rfl
  · exact .of_phase rfl rfl
  · exact .of_idle rfl rfl
  · exact .of_phase rfl rfl

theorem stepBound_outcome (h : n.phase = .bound) : Outcome n now (n.stepBound now ticks) := by
  unfold stepBound
  split_ifs with hip hrebind hrenew
  · exact .of_idle rfl rfl
  · exact .requested rfl rfl (.inr (.inr ⟨h,by simpa using hip,.inl hrebind⟩))
  · exact .requested rfl rfl (.inr (.inr ⟨h,by simpa using hip,.inr hrenew⟩))
  · exact .silent (n.startCheck_silent now ticks h)
  · exact .of_idle rfl rfl

/-- A retry sends what was sent last; a REQUEST only while there is no answer. -/
theorem dhcpTimeout_outcome (hack : n.gotAck = false ∨ n.phase = .discover) :
    Outcome n now (n.dhcpTimeout now ticks n.phase) := by
  unfold dhcpTimeout
  generalize (if n.retries = 255 then (255 : UInt8) else n.retries+1) = retries
  dsimp only
  generalize (if n.tries < 3 then n.tries+1 else n.tries) = tries
  split_ifs
  · exact .of_phase rfl rfl
  · exact .of_phase rfl rfl
  · cases hp : n.phase with
    | request | renew =>
      simp only [hp,reduceCtorEq,or_false] at hack
      exact .requested rfl rfl (.inl hack)
    | discover | idle | checkArp | checkIcmp | checkDns | bound => exact .of_phase rfl rfl

/-- A NAK restarts the exchange or asks any server for the lease. -/
theorem dhcpNak_outcome (phase : Phase) (hack : n.gotAck = false) :
    Outcome n now (dhcpNak { n with gotNak := false } now phase) := by
  unfold dhcpNak
  dsimp only
  split_ifs
  · exact .requested rfl rfl (.inl hack)
  · exact .of_phase rfl rfl

theorem awaiting_outcome (h : n.Awaiting) : Outcome n now (n.stepDhcp now ticks) := by
  have hstep : n.stepDhcp now ticks =
      if n.gotAck then bind { n with gotAck := false } now
      else if n.gotNak then dhcpNak { n with gotNak := false } now n.phase
      else if n.deadline < now then n.dhcpTimeout now ticks n.phase
      else (n,[]) := by
    unfold stepDhcp
    cases hp : n.phase with
    | request | renew => rfl
    | _ => simp [Awaiting,hp,Phase.awaits] at h
  rw [hstep]
  split_ifs with hack hnak hdue
  · exact .installed rfl h hack rfl
  · exact n.dhcpNak_outcome now n.phase (by simpa using hack)
  · exact n.dhcpTimeout_outcome now ticks (.inl (by simpa using hack))
  · exact .of_idle rfl rfl

theorem discover_outcome (h : n.phase = .discover) : Outcome n now (n.stepDhcp now ticks) := by
  unfold stepDhcp
  rw [h]
  dsimp only
  split_ifs with hoffer hnak hdue
  · exact .requested rfl rfl (.inr (.inl ⟨h,hoffer⟩))
  · exact .of_phase rfl rfl
  · have hretry := n.dhcpTimeout_outcome now ticks (.inr h)
    rwa [h] at hretry
  · exact .of_idle rfl rfl

theorem step_outcome (up : Bool) : Outcome n now (n.step now ticks up) := by
  unfold step
  cases hp : n.phase with
  | idle => exact n.stepIdle_outcome now up
  | discover => exact n.discover_outcome now ticks hp
  | request | renew => exact n.awaiting_outcome now ticks (by rw [Awaiting,hp]; rfl)
  | checkArp => exact n.stepArp_outcome now hp
  | checkIcmp => exact n.stepIcmp_outcome now ticks hp
  | checkDns => exact n.stepDns_outcome now ticks hp
  | bound => exact n.stepBound_outcome now ticks hp

theorem sampleLink_silent (up : Bool) : Silent n (n.sampleLink now up,[]) := by
  unfold sampleLink
  split_ifs
  · exact .of_phase rfl rfl
  · exact .of_phase rfl rfl
  · exact .of_exchange rfl rfl

theorem recheck_silent (up : Bool) : Silent n (n.recheck ticks up) := by
  unfold recheck
  dsimp only
  split
  next h => exact startCheck_silent _ _ _ h.1
  next => exact .of_exchange rfl rfl

theorem handleFrame_silent (h : ∀ pkt, classify bs ≠ .dhcp pkt) :
    Silent n (n.handleFrame ticks bs) := by
  unfold handleFrame
  cases hc : classify bs with
  | dhcp pkt => exact absurd hc (h pkt)
  | other => exact .of_exchange rfl rfl
  | dns pkt | echoReply id dst =>
    dsimp only
    split <;> exact .of_exchange rfl rfl
  | arpRequest sha spa tpa =>
    dsimp only
    split <;> exact .of_exchange rfl rfl
  | arpReply sha spa =>
    have hinsert : (n.arpInsert ticks spa sha).exchange = n.exchange := by
      unfold arpInsert
      split
      · rfl
      · split
        · rfl
        · split <;> rfl
    dsimp only
    split <;> exact .of_exchange rfl hinsert

end
end Stack

theorem xidOf_of_replyType {ty : UInt8} (h : replyType xid pkt = some ty) : xidOf pkt = xid := by
  revert h
  fun_cases replyType xid pkt with
  | case3 _ hxid => exact fun _ => not_not.mp hxid
  | _ => rintro ⟨⟩

theorem heard_cases (e : Event) : e.heard = [] ∨ ∃ xid ip, e.heard = [.ack xid ip] := by
  cases e with
  | frame ticks bs =>
    dsimp only [Event.heard]
    split
    · split
      · exact .inr ⟨_,_,rfl⟩
      · exact .inl rfl
    · exact .inl rfl
  | _ => exact .inl rfl

theorem answered_heard (e : Event) (h : Answered log) : Answered (e.heard ++ log) := by
  obtain he | ⟨xid,ip,he⟩ := heard_cases e <;> rw [he] <;> exact h

theorem mem_since_heard (e : Event) {r : Record} (h : r ∈ e.heard ∨ r ∈ sinceRequest log) :
    r ∈ sinceRequest (e.heard ++ log) := by
  obtain he | ⟨xid,ip,he⟩ := heard_cases e
  · simpa [he] using h
  · rw [he] at h ⊢
    simpa [sinceRequest] using h

namespace Client

structure Sound (c : Client) : Prop where
  answered : Answered c.log
  noted : c.stack.Awaiting → c.stack.gotAck = true →
    .ack c.stack.xid c.stack.offer.ip ∈ sinceRequest c.log

variable {c : Client} {e : Event} {r : Stack × List Action} {ticks : UInt64}

theorem Sound.silent (hs : c.Sound) (h : c.stack.Silent r) :
    Sound ⟨r.1,c.stack.done r.2 ++ e.heard ++ c.log⟩ := by
  rw [h.done,List.nil_append]
  refine ⟨answered_heard e hs.answered,fun hawait hgot => mem_since_heard e (.inr ?_)⟩
  have hsame := h.same hawait
  simp only [Stack.exchange,Prod.mk.injEq] at hsame
  obtain ⟨hphase,hack,hoffer,hxid⟩ := hsame
  dsimp only [Stack.Awaiting] at hawait hgot ⊢
  rw [hphase] at hawait
  rw [hack] at hgot
  rw [hoffer,hxid]
  exact hs.noted hawait hgot

theorem Sound.outcome (hs : c.Sound) {now : UInt64} (h : c.stack.Outcome now r)
    (hC : c.stack.Requests now → c.stack.gotAck = false) (hheard : e.heard = []) :
    Sound ⟨r.1,c.stack.done r.2 ++ e.heard ++ c.log⟩ := by
  cases h with
  | silent h => exact hs.silent h
  | requested hdone hsame hfresh =>
    rw [hdone,hheard]
    refine ⟨hs.answered,fun _ hgot => ?_⟩
    have hold : c.stack.gotAck = false := by
      rcases hfresh with hfree | hreq
      · exact hfree
      · exact hC hreq
    exact absurd (hold.symm.trans (hsame.symm.trans hgot)) (by decide)
  | installed hdone hawait hgot hend =>
    rw [hdone,hheard]
    refine ⟨⟨hs.noted hawait hgot,hs.answered⟩,fun hawait' => ?_⟩
    exact absurd (hawait'.symm.trans hend) (by decide)

theorem heard_ack (hc : classify bs = .dhcp pkt) (hty : replyType xid pkt = some dhcpAckMsg) :
    (Event.frame ticks bs).heard = [.ack xid (yiaddr pkt)] := by
  have hxid := xidOf_of_replyType hty
  subst hxid
  simp [Event.heard,hc,hty]

theorem ackedLease_ip {offer : Lease} (h : offer.ip = .zero ∨ offer.ip = yiaddr pkt) :
    (ackedLease offer pkt).ip = yiaddr pkt := by
  unfold ackedLease
  rw [parseLeaseOptions_ip]
  split
  · rfl
  next hne => exact h.resolve_left hne

theorem Sound.dhcp (hs : c.Sound) (hc : classify bs = .dhcp pkt)
    (hC : c.stack.Orderly (.frame ticks bs)) :
    Sound ⟨c.stack.handleDhcp pkt,(Event.frame ticks bs).heard ++ c.log⟩ := by
  simp only [Stack.Orderly,hc] at hC
  have hanswered : Answered ((Event.frame ticks bs).heard ++ c.log) := answered_heard _ hs.answered
  have hidle : Sound ⟨c.stack,(Event.frame ticks bs).heard ++ c.log⟩ :=
    ⟨hanswered,fun hawait hgot => mem_since_heard _ (.inr (hs.noted hawait hgot))⟩
  unfold Stack.handleDhcp
  cases hty : replyType c.stack.xid pkt with
  | none => exact hidle
  | some ty =>
    dsimp only
    split_ifs with hoffer hzero hack hnak
    · exact hidle
    · subst hoffer
      refine ⟨hanswered,fun hawait hgot => mem_since_heard _ (.inr ?_)⟩
      have hip := ((hC hawait).2 hty hgot).resolve_left hzero
      have hlease : (offeredLease pkt).ip = c.stack.offer.ip := by
        rw [offeredLease,parseLeaseOptions_ip]
        exact hip
      rw [hlease]
      exact hs.noted hawait hgot
    · subst hack
      refine ⟨hanswered,fun hawait _ => mem_since_heard _ (.inl ?_)⟩
      rw [heard_ack hc hty,ackedLease_ip ((hC hawait).1 hty)]
      exact List.mem_singleton_self _
    · exact ⟨hanswered,fun _ hgot => nomatch hgot⟩
    · exact hidle

theorem sound_step {c' : Client} (hs : c.Sound) (hC : c.stack.Orderly e)
    (h : c.step e = some c') : c'.Sound := by
  cases h
  cases e with
  | link now up => exact hs.silent (c.stack.sampleLink_silent now up)
  | tick now ticks up => exact hs.outcome (c.stack.step_outcome now ticks up) hC rfl
  | apply ticks s => exact hs.silent (.of_phase rfl rfl)
  | recheck ticks up => exact hs.silent (c.stack.recheck_silent ticks up)
  | frame ticks bs =>
    cases hc : classify bs with
    | dhcp pkt =>
      have hframe : c.stack.respond (.frame ticks bs) = (c.stack.handleDhcp pkt,[]) := by
        simp [Stack.respond,Stack.handleFrame,hc]
      rw [hframe]
      exact hs.dhcp hc hC
    | _ =>
      apply hs.silent
      apply Stack.handleFrame_silent
      simp [hc]

/-- Along every run in which no REQUEST goes out beside an old answer and every awaited ACK assigns
the address on offer, a lease that is installed was acknowledged for the current transaction since
the last REQUEST, with its address. -/
theorem leases_answered_of_orderly (s : Settings) (es : List Event)
    (h : EachStep step (fun c e _ => c.stack.Orderly e) (init s) es) :
    Always step (fun c => Answered c.log) (init s) es := by
  have hsound : Always step Sound (init s) es := by
    apply EachStep.always (C := fun c e _ => c.stack.Orderly e) _ _ h
    · exact fun c e c' hs hC hstep => sound_step hs hC hstep
    · exact ⟨trivial,fun hawait => nomatch hawait⟩
  exact hsound.mono fun c hs => hs.answered

end Client

/-- The events that make up one poll. -/
def pollEvents (now ticks : UInt64) (up : Bool) (frames : List (UInt64 × List UInt8)) :
    List Event :=
  .link now up::(frames.take maxDrain).map (fun f => .frame f.1 f.2) ++ [.tick now ticks up]

theorem exec_frames (frames : List (UInt64 × List UInt8)) (c : Client) :
    ∃ log, exec Client.step c (frames.map fun f => .frame f.1 f.2) =
      some ⟨(Stack.drainRx frames c.stack).1,log⟩ := by
  induction frames generalizing c with
  | nil => exact ⟨c.log,rfl⟩
  | cons f frames ih =>
    obtain ⟨log,hlog⟩ := ih ⟨(c.stack.handleFrame f.1 f.2).1,_⟩
    exact ⟨log,exec_cons rfl hlog⟩

/-- A poll leads to the same stack as its events, one after the other. -/
theorem exec_pollEvents (now ticks : UInt64) (up : Bool) (frames : List (UInt64 × List UInt8))
    (c : Client) :
    ∃ log, exec Client.step c (pollEvents now ticks up frames) =
      some ⟨(c.stack.poll now ticks up frames).1,log⟩ := by
  obtain ⟨log,hlog⟩ := exec_frames (frames.take maxDrain) ⟨c.stack.sampleLink now up,c.log⟩
  refine ⟨_,exec_trans (exec_cons rfl hlog) (exec_cons rfl rfl)⟩

instance (n : Stack) : DecidablePred n.Orderly
  | .tick now _ _ => inferInstanceAs (Decidable (n.Requests now → n.gotAck = false))
  | .frame ticks bs =>
    match h : classify bs with
    | .dhcp pkt =>
      decidable_of_iff (n.Awaiting →
          (replyType n.xid pkt = some dhcpAckMsg → n.offer.ip = .zero ∨ n.offer.ip = yiaddr pkt) ∧
          (replyType n.xid pkt = some dhcpOfferMsg → n.gotAck = true →
            yiaddr pkt = .zero ∨ yiaddr pkt = n.offer.ip))
        (by simp [Stack.Orderly,h])
    | .dns _ | .echoReply _ _ | .arpRequest _ _ _ | .arpReply _ _ | .other =>
      isTrue (by simp [Stack.Orderly,h])
  | .link _ _ | .apply _ _ | .recheck _ _ => isTrue trivial

/-- A DHCP reply for the transaction that starts at tick 0, with a lease of four seconds. -/
def replyFrame (msg host : UInt8) : List UInt8 :=
  List.replicate 12 0 ++ [8,0] ++ [0x45,0,0,0,0,0,0,0,64,17,0,0,10,0,0,1,255,255,255,255] ++
    [0,67,0,68,1,2,0,0] ++
    [2,1,6,0,0x00,0x05,0xA1,0x00] ++ List.replicate 8 0 ++ [10,0,0,host] ++
    List.replicate 216 0 ++ [99,130,83,99] ++ [53,1,msg,51,4,0,0,0,4,255]

def pollAt (now : UInt64) (frames : List (List UInt8)) : List Event :=
  pollEvents now now true (frames.map fun bs => (now,bs))

def automatic : Settings := ⟨true,.zero,.zero,.zero,.zero,.zero⟩

/-- Address discovery, with the host numbers of the offer and of the ACK. -/
def acquire (offered acked : UInt8) : List Event :=
  pollAt 0 [] ++ pollAt 1 [replyFrame dhcpOfferMsg offered] ++
    pollAt 2 [replyFrame dhcpAckMsg acked]

theorem leases_answered_of_orderly_acquire :
    (∃ c ∈ exec Client.step (.init automatic) (acquire 5 5),
        c.log = [.bound 0xA10500 ⟨10,0,0,5⟩,.ack 0xA10500 ⟨10,0,0,5⟩,.request]) ∧
      Always Client.step (fun c => Answered c.log) (.init automatic) (acquire 5 5) :=
  ⟨by decide +kernel,Client.leases_answered_of_orderly _ _ (by decide +kernel)⟩

/-- A second copy of the ACK passes, half of the lease later, for the answer to the renewal. And an
ACK that assigns another address installs the offer. -/
theorem old_ack_renews_lease : ¬ Always Client.step (fun c => Answered c.log) (.init automatic)
        (acquire 5 5 ++ pollAt 3 [replyFrame dhcpAckMsg 5] ++ pollAt 202 [] ++ pollAt 203 []) ∧
      ¬ Always Client.step (fun c => Answered c.log) (.init automatic) (acquire 5 9) :=
  ⟨by decide +kernel,by decide +kernel⟩

end Aios.Kernel.Net
