import Aios.Kernel.Sock.Transmit

/-!
Which connection a port and a remote address stand for. A tuple comes from a bind, a connect or a
passive open, none of which looks for a connection that has it.
-/
namespace Aios.Kernel.Sock

open Transition

/-- The fields that `deliver_tcp` compares with an inbound segment. -/
structure Tuple where
  port : UInt16
  rip : Ip
  rport : UInt16
  deriving DecidableEq

namespace Socket

def tuple (sk : Socket) : Tuple := ⟨sk.port,sk.rip,sk.rport⟩

def IsConnection (sk : Socket) : Prop :=
  sk.used = true ∧ sk.kind = .tcp ∧ ¬ sk.Resting

instance (sk : Socket) : Decidable sk.Resting := inferInstanceAs (Decidable (_ ∨ _))

instance (sk : Socket) : Decidable sk.IsConnection := inferInstanceAs (Decidable (_ ∧ _))

section

structure Continues (sk sk' : Socket) : Prop where
  tuple : sk'.tuple = sk.tuple
  kind : sk'.kind = sk.kind
  used : sk'.used = true → sk.used = true
  resting : sk.Resting → sk'.Resting

structure Endpoint where
  used : Bool
  kind : Kind
  tuple : Tuple

def endpoint (sk : Socket) : Endpoint := ⟨sk.used,sk.kind,sk.tuple⟩

structure Identity where
  endpoint : Endpoint
  pid : UInt32
  parent : Option (Fin maxSocks)

def identity (sk : Socket) : Identity := ⟨sk.endpoint,sk.pid,sk.parent⟩

variable {sk sk' : Socket} (now : UInt64)

theorem Continues.of_identity (h : sk'.identity = sk.identity) (hr : sk.Resting → sk'.Resting) :
    Continues sk sk' := by
  have he : sk'.endpoint = sk.endpoint := congrArg Identity.endpoint h
  refine ⟨congrArg Endpoint.tuple he,congrArg Endpoint.kind he,fun hu => ?_,hr⟩
  exact (congrArg Endpoint.used he).symm.trans hu

theorem Continues.isConnection (h : Continues sk sk') (hc : sk'.IsConnection) :
    sk.IsConnection := by
  obtain ⟨hused,hkind,hlive⟩ := hc
  exact ⟨h.used hused,h.kind.symm.trans hkind,fun hr => hlive (h.resting hr)⟩

variable (sk)

@[simp] theorem kick_identity : (kick now sk).1.identity = sk.identity := by
  rcases kick_cases now sk with h | ⟨-,n,-,-,-,h⟩
  · rw [h]
  · rw [h]
    rfl

theorem sendTcp_identity (data : List UInt8) : (sk.sendTcp now data).1.identity = sk.identity := by
  unfold sendTcp
  dsimp only
  split_ifs
  · rfl
  · rfl
  · rw [kick_identity]
    rfl

theorem process_identity (s : Inbound) : (sk.process now s).1.identity = sk.identity := by
  have hack : (sk.handleAck now s).1.identity = sk.identity := by
    obtain ⟨st,-,⟨-,h⟩ | ⟨-,h⟩⟩ := sk.handleAck_cases now s
    · rw [h]
      rfl
    · rw [h]
      exact kick_identity (sk.acked s) now
  have hdata (sk : Socket) : (sk.handleData s).1.identity = sk.identity := by
    unfold handleData appendRx
    split_ifs <;> rfl
  have hfin (sk : Socket) : (sk.handleFin now s).1.identity = sk.identity := by
    unfold handleFin
    split
    · dsimp only
      split <;> rfl
    · rfl
  exact (hfin _).trans ((hdata _).trans hack)

theorem receive_identity (s : Inbound) : (sk.receive now s).1.identity = sk.identity := by
  by_cases hc : sk.Completes s
  · rw [receive_of_completes now hc]
    rfl
  · by_cases hp : sk.Processes s
    · rw [receive_of_processes now hp,process_identity]
      unfold promoted
      split <;> rfl
    · rcases receive_otherwise now hc hp with h | h
      · rw [h]
      · rw [h]
        rfl

theorem recv_identity (room : ℕ) : (sk.recv room).1.identity = sk.identity := by
  unfold recv
  split <;> dsimp only <;> split <;> rfl

@[simp] theorem recv_state (room : ℕ) : (sk.recv room).1.state = sk.state := by
  unfold recv
  split <;> dsimp only <;> split <;> rfl

theorem closeTcp_continues : Continues sk sk.closeTcp.1 := by
  refine ⟨?_,?_,?_,fun hr => hr.closeTcp⟩ <;> unfold closeTcp <;> split
  any_goals rfl
  · exact id
  · exact id
  · exact fun h => nomatch h

theorem tick_continues : Continues sk (sk.tick now).1 := by
  have hused : (sk.tick now).1.used = true → sk.used = true := by
    intro hu
    by_contra hnot
    have hsame : sk.tick now = (sk,[]) := by simp [tick,hnot]
    rw [hsame] at hu
    exact hnot hu
  have hkeep : (sk.tick now).1.tuple = sk.tuple ∧ (sk.tick now).1.kind = sk.kind := by
    rcases sk.tick_cases now with ⟨used,he⟩ | ⟨p,-,he⟩ | ⟨out,flags,-,_,_,_,he,-⟩ |
      ⟨-,-,out,_,_,_,he,-⟩ <;> rw [he] <;> exact ⟨rfl,rfl⟩
  exact ⟨hkeep.1,hkeep.2,hused,fun hr => hr.tick now⟩

end
end Socket

variable {tup : Tuple} {e : Env × Op} {T' : Table}

namespace SlotEvent

/-- The tuple that the event gives to a connection. -/
def claims (sk : Socket) : SlotEvent → Option Tuple
  | .bind port => if sk.IsConnection then some ⟨port,sk.rip,sk.rport⟩ else none
  | .peer ip port => if sk.IsConnection then some ⟨sk.port,ip,port⟩ else none
  | .connect _ _ ip port => some ⟨sk.port,ip,port⟩
  | .child _ port _ _ _ src s => some ⟨port,src,s.sport⟩
  | _ => none

def Single : SlotEvent → Prop
  | .idle | .freed | .tick _ | .datagram _ => False
  | _ => True

variable {sk : Socket} {ev : SlotEvent}

theorem single_of_claims (h : ev.claims sk = some tup) : ev.Single := by
  cases ev with
  | idle | freed | tick | datagram => cases h
  | _ => trivial

theorem isConnection_of_claims (h : ev.claims sk = some tup) (hen : ev.Enabled sk) :
    (ev.apply sk).1.IsConnection ∧ (ev.apply sk).1.tuple = tup := by
  cases ev with
  | bind port | peer ip port =>
    obtain ⟨hc,he⟩ := Option.ite_none_right_eq_some.mp h
    exact ⟨hc,Option.some.inj he⟩
  | connect now i ip port =>
    refine ⟨⟨hen.1,hen.2.1,?_⟩,Option.some.inj h⟩
    rintro (hs | hs) <;> cases hs
  | child pid port now l n src s =>
    refine ⟨⟨rfl,rfl,?_⟩,Option.some.inj h⟩
    rintro (hs | hs) <;> cases hs
  | idle | fresh | listen | adopted | freed | joinUdp | send | recv | close | tick | datagram
  | segment => cases h

theorem isConnection_of_apply (h : ev.claims sk = none) (hen : ev.Enabled sk)
    (hc : (ev.apply sk).1.IsConnection) : sk.IsConnection ∧ (ev.apply sk).1.tuple = sk.tuple := by
  have hcontinues (hk : sk.Continues (ev.apply sk).1) :
      sk.IsConnection ∧ (ev.apply sk).1.tuple = sk.tuple := ⟨hk.isConnection hc,hk.tuple⟩
  cases ev with
  | bind port | peer ip port =>
    have hnot : ¬ sk.IsConnection := by simpa [claims] using h
    exact absurd hc hnot
  | connect | child => cases h
  | fresh => exact absurd (.inl rfl) hc.2.2
  | listen => exact absurd (.inr rfl) hc.2.2
  | freed => exact nomatch hc.1
  | joinUdp =>
    have htcp : sk.kind = .tcp := hc.2.1
    exact absurd (hen.2.symm.trans htcp) (by decide)
  | idle | datagram => exact hcontinues (.of_identity rfl id)
  | adopted => exact hcontinues ⟨rfl,rfl,id,id⟩
  | send now data =>
    exact hcontinues (.of_identity (sk.sendTcp_identity now data) fun hr => hr.sendTcp now data)
  | segment now s =>
    exact hcontinues (.of_identity (sk.receive_identity now s) fun hr => hr.receive now s)
  | recv room =>
    have hresting : (sk.recv room).1.Resting ↔ sk.Resting := by simp [Socket.Resting]
    exact hcontinues (.of_identity (sk.recv_identity room) hresting.mpr)
  | close => exact hcontinues sk.closeTcp_continues
  | tick now => exact hcontinues (sk.tick_continues now)

end SlotEvent

namespace Table

variable (T : Table)

/-- No two connections have one tuple, so a segment belongs to at most one. -/
def Unambiguous : Prop :=
  ∀ i j, (T.socks i).IsConnection → (T.socks j).IsConnection →
    (T.socks i).tuple = (T.socks j).tuple → i = j

/-- The operation gives no connection a tuple that another connection has. -/
def Unclaimed (e : Env × Op) : Prop :=
  ∀ i, ∀ tup ∈ (T.slotEvent e.1 e.2 i).claims (T.socks i),
    ∀ j, j ≠ i → (T.socks j).IsConnection → (T.socks j).tuple ≠ tup

def next (e : Env × Op) : Option Table := some (T.step e.1 e.2).table

variable {T} {env : Env} {op : Op} {i j : Fin maxSocks}

theorem slotEvent_idle_of_single (h : (T.slotEvent env op i).Single) (hij : j ≠ i) :
    T.slotEvent env op j = .idle := by
  have hother {o : Option (Fin maxSocks)} (ho : o = some i) : o ≠ some j := by
    intro hj
    exact hij (Option.some.inj (hj.symm.trans ho))
  revert h
  fun_cases slotEvent T env op i with
  | case1 _ _ hslot | case3 _ _ hslot | case10 _ _ _ hslot | case11 _ _ _ hslot
  | case12 _ _ _ hslot | case16 _ _ hslot => exact fun _ => if_neg (hother hslot)
  | case5 _ hslot | case14 _ _ hslot => exact fun _ => if_neg fun hj => hother hslot.1 hj.1
  | case7 _ hfd hslot => exact fun _ => by simp [slotEvent,hother hslot.2]
  | case23 _ hslot hk hs => exact fun _ => by simp [slotEvent,hslot,hs,hij]
  | case29 _ _ _ hparse _ hl hslot => exact fun _ => by simp [slotEvent,hparse,hl,hother hslot]
  | case31 _ _ _ hparse hl hslot => exact fun _ => by simp [slotEvent,hparse,hl,hother hslot]
  | _ => exact nofun

theorem next_socks (h : T.next e = some T') (i : Fin maxSocks) :
    T'.socks i = ((T.slotEvent e.1 e.2 i).apply (T.socks i)).1 := by
  cases h
  exact congrArg Prod.fst (T.step_acts e.1 i e.2)

/-- From an unambiguous table an operation leads to one exactly if it claims no tuple that
is taken. -/
theorem unambiguous_next (hT : T.Unambiguous) (h : T.next e = some T') :
    T'.Unambiguous ↔ T.Unclaimed e := by
  have hen (i : Fin maxSocks) := T.slotEvent_enabled e.1 i e.2
  constructor
  · intro hT' i tup htup j hji hj htaken
    -- slot `j` is not touched, so it keeps the tuple that slot `i` now has
    have hsame : T'.socks j = T.socks j := by
      rw [next_socks h,slotEvent_idle_of_single (SlotEvent.single_of_claims htup) hji]
      rfl
    obtain ⟨hconn,hgiven⟩ := SlotEvent.isConnection_of_claims htup (hen i)
    rw [← next_socks h] at hconn hgiven
    apply hji
    apply hT'
    · rwa [hsame]
    · exact hconn
    · rw [hsame,htaken,hgiven]
  · intro hC
    -- a slot that claims nothing held its tuple before
    have hold (i : Fin maxSocks) (hnone : (T.slotEvent e.1 e.2 i).claims (T.socks i) = none)
        (hi : (T'.socks i).IsConnection) :
        (T.socks i).IsConnection ∧ (T'.socks i).tuple = (T.socks i).tuple := by
      rw [next_socks h] at hi ⊢
      exact SlotEvent.isConnection_of_apply hnone (hen i) hi
    have hnew (i j : Fin maxSocks) (tup : Tuple) (hi : (T'.socks i).tuple = (T'.socks j).tuple)
        (hj : (T'.socks j).IsConnection)
        (htup : (T.slotEvent e.1 e.2 i).claims (T.socks i) = some tup) : i = j := by
      by_contra hij
      have hgiven := (SlotEvent.isConnection_of_claims htup (hen i)).2
      have hidle := slotEvent_idle_of_single (SlotEvent.single_of_claims htup) (Ne.symm hij)
      have hsame : T'.socks j = T.socks j := by
        rw [next_socks h,hidle]
        rfl
      rw [← next_socks h] at hgiven
      rw [hsame] at hi hj
      exact hC i tup htup j (Ne.symm hij) hj (hi.symm.trans hgiven)
    intro i j hi hj htuple
    cases hci : (T.slotEvent e.1 e.2 i).claims (T.socks i) with
    | some tup => exact hnew i j tup htuple hj hci
    | none =>
      cases hcj : (T.slotEvent e.1 e.2 j).claims (T.socks j) with
      | some tup => exact (hnew j i tup htuple.symm hi hcj).symm
      | none =>
        obtain ⟨hi,hti⟩ := hold i hci hi
        obtain ⟨hj,htj⟩ := hold j hcj hj
        exact hT i j hi hj (hti.symm.trans (htuple.trans htj))

theorem unambiguous_init : Table.init.Unambiguous := fun _ _ hi => nomatch hi.1

end Table

/-- A run keeps every tuple to one connection exactly if none of its binds, connects and passive
opens takes the tuple of another. -/
theorem unambiguous_iff_unclaimed (es : List (Env × Op)) :
    Always Table.next Table.Unambiguous .init es ↔
      EachStep Table.next (fun T e _ => T.Unclaimed e) .init es := by
  apply always_iff_eachStep (J := fun _ => True)
  · intros
    trivial
  · intro T e T' _ hT h
    exact Table.unambiguous_next hT h
  · trivial
  · exact Table.unambiguous_init

instance (T : Table) : Decidable T.Unambiguous :=
  haveI (i : Fin maxSocks) := Nat.decidableForallFin fun j : Fin maxSocks =>
    (T.socks i).IsConnection → (T.socks j).IsConnection →
      (T.socks i).tuple = (T.socks j).tuple → i = j
  Nat.decidableForallFin _

/-- A listener that gets the same SYN twice has two connections for it. -/
theorem repeated_syn_spawns_twin : ¬ Always Table.next Table.Unambiguous .init
      [byCaller (.openSock 1 .tcp),byCaller (.listen 0),fromPeer [0,0,0,0] [0,0,0,0] Flag.syn [],
        fromPeer [0,0,0,0] [0,0,0,0] Flag.syn []] := by
  decide +kernel

end Aios.Kernel.Sock
