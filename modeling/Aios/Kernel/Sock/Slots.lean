import Aios.Kernel.Sock.Table
import Aios.Lib.Transition

/-!
The table seen from one slot. Every operation acts on a slot through one of a few events, so what
one socket keeps holds of all sockets along every run.
-/
namespace Aios.Kernel.Sock

open List

/-- What an operation means for one slot. -/
inductive SlotEvent where
  | idle
  | fresh (kind : Kind) (pid : UInt32) (port : UInt16)
  | child (pid : UInt32) (port : UInt16) (now : UInt64) (l n : Fin maxSocks) (src : Ip)
      (s : Inbound)
  | bind (port : UInt16)
  | listen
  | adopted
  | freed
  | peer (ip : Ip) (port : UInt16)
  | joinUdp (ip : Ip) (port : UInt16)
  | connect (now : UInt64) (i : Fin maxSocks) (ip : Ip) (port : UInt16)
  | send (now : UInt64) (data : List UInt8)
  | recv (room : ℕ)
  | close
  | tick (now : UInt64)
  | datagram (d : UdpDgram)
  | segment (now : UInt64) (s : Inbound)

namespace SlotEvent

/-- The socket after the event, and the segments it sends. -/
def apply : SlotEvent → Socket → Socket × List Segment
  | .idle, sk => (sk,[])
  | .fresh kind pid port, _ =>
    ({ Socket.empty with used := true, kind := kind, pid := pid, port := port },[])
  | .child pid port now l n src s, _ =>
    let c := Table.childSocket pid port now l n src s
    (c,[c.sendSegment c.iss (Flag.syn ||| Flag.ack) []])
  | .bind port, sk => ({ sk with port := port },[])
  | .listen, sk => ({ sk with state := .listen, eof := false },[])
  | .adopted, sk => ({ sk with parent := none },[])
  | .freed, sk => ({ sk with used := false },[])
  | .peer ip port, sk => (Table.connected sk ip port,[])
  | .joinUdp ip port, sk =>
    ({ Table.connected sk ip port with broadcast := ip = .broadcast, state := .established },[])
  | .connect now i ip port, sk =>
    let sk := Table.synSocket now i (Table.connected sk ip port)
    (sk,[sk.sendSegment sk.iss Flag.syn []])
  | .send now data, sk => ((sk.sendTcp now data).1,(sk.sendTcp now data).2.2)
  | .recv room, sk => ((sk.recv room).1,[])
  | .close, sk => sk.closeTcp
  | .tick now, sk => sk.tick now
  | .datagram d, sk => ({ sk with udpRx := sk.udpRx.push d },[])
  | .segment now s, sk => sk.receive now s

def Enabled (sk : Socket) : SlotEvent → Prop
  | .fresh _ _ _ | .child _ _ _ _ _ _ _ => sk.used = false
  | .joinUdp _ _ | .datagram _ => sk.used = true ∧ sk.kind = .udp
  | .listen | .adopted | .send _ _ | .close | .segment _ _ => sk.used = true ∧ sk.kind = .tcp
  | .connect _ _ _ _ => sk.used = true ∧ sk.kind = .tcp ∧ sk.state ≠ .listen
  | .bind _ | .peer _ _ | .recv _ => sk.used = true
  | .idle | .freed | .tick _ => True

end SlotEvent

open SlotEvent
variable {sk : Socket} {reply : Reply} {ev : SlotEvent}

namespace Table

variable (T : Table) (env : Env)

/-- The event that an operation means for slot `i`. -/
def slotEvent (op : Op) (i : Fin maxSocks) : SlotEvent :=
  match op with
  | .openSock pid kind =>
    if T.firstUnused = some i then .fresh kind pid T.nextPort else .idle
  | .bind fd port => if T.getMut fd = some i then .bind port else .idle
  | .listen fd => if T.getMut fd = some i ∧ (T.socks i).kind = .tcp then .listen else .idle
  | .accept fd =>
    if h : fd < maxSocks then
      if T.isListener ⟨fd,h⟩ = true ∧ T.acceptable ⟨fd,h⟩ = some i then .adopted else .idle
    else .idle
  | .connect fd ip port =>
    if T.getMut fd = some i then
      if (T.socks i).kind = .udp then .joinUdp ip port
      else if (T.socks i).state = .listen ∨ env.boundIp = .zero then .peer ip port
      else .connect env.now i ip port
    else .idle
  | .send fd data =>
    if T.getMut fd = some i ∧ (T.socks i).kind = .tcp then .send env.now data else .idle
  | .recv fd room => if T.getMut fd = some i then .recv room else .idle
  | .close fd =>
    match T.getMut fd with
    | none => .idle
    | some l =>
      if (T.socks l).kind ≠ .tcp then if i = l then .freed else .idle
      else if (T.socks l).state = .listen then
        if i = l ∨ (T.socks i).used = true ∧ (T.socks i).parent = some l then .freed else .idle
      else if i = l then .close else .idle
  | .tick now => .tick now
  | .deliverUdp src dst sport dport payload =>
    let takes (j : Fin maxSocks) : Bool := takesUdp src dst sport dport (T.socks j)
    if payload.length ≤ udpMtu ∧
        (if fansOut dst then takes i = true else slots.find? takes = some i) then
      .datagram ⟨src,sport,payload⟩
    else .idle
  | .deliverTcp src seg =>
    match parse seg with
    | none => .idle
    | some s =>
      match T.listenerFor s with
      | some l =>
        if T.firstUnused = some i then
          .child (T.socks l).pid (T.socks l).port env.now l i src s
        else .idle
      | none => if T.connectionFor src s = some i then .segment env.now s else .idle

variable {T env}

section
variable {i : Fin maxSocks}

theorem used_of_getMut {fd : ℕ} (h : T.getMut fd = some i) : (T.socks i).used = true := by
  unfold getMut at h
  split at h
  · split at h
    next hused =>
      cases h
      exact hused
    next => cases h
  · cases h

theorem unused_of_firstUnused (h : T.firstUnused = some i) : (T.socks i).used = false := by
  simpa using find?_some h

@[simp] theorem set_socks (j : Fin maxSocks) :
    (T.set j sk).socks i = if i = j then sk else T.socks i := by
  simp only [set,Function.update_apply]

end

def sentOf (i : Fin maxSocks) (sent : List (Fin maxSocks × Emitted)) : List Segment :=
  sent.filterMap fun
    | (j,.tcp s) => if j = i then some s else none
    | (_,.udp _) => none

section
variable (i j : Fin maxSocks)

@[simp] theorem sentOf_nil : sentOf i [] = [] := rfl

@[simp] theorem sentOf_sentBy (out : List Segment) :
    sentOf i (sentBy j out) = if i = j then out else [] := by
  by_cases hij : i = j
  · subst hij
    simp [sentOf,sentBy]
  · simp [sentOf,sentBy,hij,Ne.symm hij]

@[simp] theorem sentOf_udp (out : List Datagram) :
    sentOf i (out.map fun d => (j,Emitted.udp d)) = [] := by
  simp [sentOf]

/-- In a round over all slots every slot sends its own segments. -/
theorem sentOf_slots (f : Fin maxSocks → List Segment) :
    sentOf i (slots.flatMap fun j => sentBy j (f j)) = f i := by
  have hflat (js : List (Fin maxSocks)) (hnd : js.Nodup) :
      sentOf i (js.flatMap fun j => sentBy j (f j)) = if i ∈ js then f i else [] := by
    induction js with
    | nil => rfl
    | cons j js ih =>
      obtain ⟨hnot,hjs⟩ := nodup_cons.mp hnd
      have happ (as bs : List (Fin maxSocks × Emitted)) :
          sentOf i (as ++ bs) = sentOf i as ++ sentOf i bs := filterMap_append
      rw [flatMap_cons,happ,sentOf_sentBy,ih hjs]
      by_cases hij : i = j
      · subst hij
        simp [hnot]
      · simp [hij]
  have hmem : i ∈ slots := mem_finRange i
  rw [hflat slots (nodup_finRange maxSocks),if_pos hmem]

end

/-- What an operation does to slot `i`, in the table and on the wire. -/
def Acts (T : Table) (e : Effect) (i : Fin maxSocks) (ev : SlotEvent) : Prop :=
  (e.table.socks i,sentOf i e.sent) = ev.apply (T.socks i)

section
variable {i j : Fin maxSocks}

theorem Acts.untouched (reply : Reply) : Acts T ⟨T,reply,[]⟩ i .idle := rfl

theorem Acts.set {out : List Segment} (h : (sk,out) = ev.apply (T.socks j)) :
    Acts T ⟨T.set j sk,reply,sentBy j out⟩ i (if j = i then ev else .idle) := by
  by_cases hij : j = i
  · subst hij
    rw [if_pos rfl,Acts,← h]
    simp
  · rw [if_neg hij,Acts]
    simp [apply,Ne.symm hij]

theorem Acts.set_quiet (h : (sk,[]) = ev.apply (T.socks j)) :
    Acts T ⟨T.set j sk,reply,[]⟩ i (if j = i then ev else .idle) := Acts.set h

end

section
variable (T : Table) (env : Env) (i : Fin maxSocks)

theorem openSock_acts (pid : UInt32) (kind : Kind) :
    Acts T (T.openSock pid kind) i (T.slotEvent env (.openSock pid kind) i) := by
  dsimp only [openSock,slotEvent]
  cases T.firstUnused with
  | none => exact Acts.untouched _
  | some j =>
    simp only [Option.some.injEq]
    exact Acts.set_quiet rfl

theorem bind_acts (fd : ℕ) (port : UInt16) :
    Acts T (T.bind fd port) i (T.slotEvent env (.bind fd port) i) := by
  dsimp only [Table.bind,slotEvent]
  cases T.getMut fd with
  | none => exact Acts.untouched _
  | some j =>
    simp only [Option.some.injEq]
    exact Acts.set_quiet rfl

theorem listen_acts (fd : ℕ) : Acts T (T.listen fd) i (T.slotEvent env (.listen fd) i) := by
  unfold Acts listen slotEvent
  cases hfd : T.getMut fd with
  | none => simp [hfd,apply]
  | some j =>
    -- only slot `j` is touched, and only if it is a TCP socket
    by_cases hij : j = i
    · subst hij
      by_cases hk : (T.socks j).kind = .tcp <;> simp [hfd,hk,apply]
    · by_cases hk : (T.socks j).kind = .tcp <;> simp [hfd,hk,hij,Ne.symm hij,apply]

theorem accept_acts (fd : ℕ) : Acts T (T.accept fd) i (T.slotEvent env (.accept fd) i) := by
  dsimp only [accept,slotEvent]
  split
  next h =>
    by_cases hl : T.isListener ⟨fd,h⟩ = true
    · simp only [hl,true_and]
      cases T.acceptable ⟨fd,h⟩ with
      | none => simpa using Acts.untouched (.descriptor none)
      | some j =>
        simp only [Option.some.injEq]
        exact Acts.set_quiet rfl
    · rw [if_neg hl,if_neg fun hboth => hl hboth.1]
      exact Acts.untouched _
  next => exact Acts.untouched _

theorem connect_acts (fd : ℕ) (ip : Ip) (port : UInt16) :
    Acts T (T.connect env fd ip port) i (T.slotEvent env (.connect fd ip port) i) := by
  unfold Acts connect slotEvent
  cases hfd : T.getMut fd with
  | none => simp [hfd,apply]
  | some j =>
    by_cases hij : j = i
    · subst hij
      by_cases hk : (T.socks j).kind = .udp
      · simp [hfd,connected,hk,apply]
      · by_cases hs : (T.socks j).state = .listen
        · simp [hfd,connected,hk,hs,apply]
        · by_cases hb : env.boundIp = .zero <;> simp [hfd,connected,hk,hs,hb,apply]
    · dsimp only
      split_ifs <;> simp_all [Ne.symm hij,apply]

theorem send_acts (fd : ℕ) (data : List UInt8) :
    Acts T (T.send env fd data) i (T.slotEvent env (.send fd data) i) := by
  unfold Acts send slotEvent
  cases hfd : T.getMut fd with
  | none => simp [hfd,apply]
  | some j =>
    by_cases hij : j = i
    · subst hij
      cases hk : (T.socks j).kind <;> simp [hfd,hk,apply]
    · cases hk : (T.socks j).kind <;> simp [hfd,hk,hij,Ne.symm hij,apply]

theorem recv_acts (fd room : ℕ) :
    Acts T (T.recv fd room) i (T.slotEvent env (.recv fd room) i) := by
  dsimp only [recv,slotEvent]
  cases T.getMut fd with
  | none => exact Acts.untouched _
  | some j =>
    simp only [Option.some.injEq]
    exact Acts.set_quiet rfl

theorem close_acts (fd : ℕ) : Acts T (T.close fd) i (T.slotEvent env (.close fd) i) := by
  dsimp only [close,slotEvent]
  cases T.getMut fd with
  | none => exact Acts.untouched _
  | some j =>
    have hself (ev : SlotEvent) : (if i = j then ev else .idle) = if j = i then ev else .idle := by
      simp only [eq_comm]
    dsimp only
    by_cases hk : (T.socks j).kind ≠ .tcp
    · rw [if_pos hk,if_pos hk,hself]
      exact Acts.set_quiet rfl
    · rw [if_neg hk,if_neg hk]
      by_cases hs : (T.socks j).state = .listen
      · rw [if_pos hs,if_pos hs]
        simp only [Acts,dropListener]
        split <;> rfl
      · rw [if_neg hs,if_neg hs,hself]
        exact Acts.set rfl

theorem tick_acts (now : UInt64) : Acts T (T.tick now) i (T.slotEvent env (.tick now) i) := by
  simp only [Acts,tick,sentOf_slots]
  rfl

theorem deliverUdp_acts (src dst : Ip) (sport dport : UInt16) (payload : List UInt8) :
    Acts T ⟨T.deliverUdp src dst sport dport payload,.nothing,[]⟩ i
      (T.slotEvent env (.deliverUdp src dst sport dport payload) i) := by
  dsimp only [deliverUdp,slotEvent]
  by_cases hlen : payload.length ≤ udpMtu
  · by_cases hfan : fansOut dst = true
    · simp only [hlen,hfan,not_lt.mpr hlen,if_true,if_false,true_and,Acts]
      split <;> rfl
    · simp only [hlen,hfan,not_lt.mpr hlen,true_and]
      cases slots.find? fun j => takesUdp src dst sport dport (T.socks j) with
      | none => simpa using Acts.untouched .nothing
      | some j =>
        simp only [Option.some.injEq]
        exact Acts.set_quiet rfl
  · simp only [hlen,lt_of_not_ge hlen]
    exact Acts.untouched _

theorem deliverTcp_acts (src : Ip) (seg : List UInt8) :
    Acts T (T.deliverTcp env src seg) i (T.slotEvent env (.deliverTcp src seg) i) := by
  dsimp only [deliverTcp,slotEvent]
  cases parse seg with
  | none => exact Acts.untouched _
  | some s =>
    dsimp only
    cases T.listenerFor s with
    | some l =>
      dsimp only [spawnChild]
      cases T.firstUnused with
      | none => exact Acts.untouched _
      | some n =>
        simp only [Option.some.injEq]
        have hev : (if n = i then SlotEvent.child (T.socks l).pid (T.socks l).port env.now l i src s
            else .idle) =
            if n = i then .child (T.socks l).pid (T.socks l).port env.now l n src s else .idle := by
          by_cases hni : n = i
          · rw [hni]
          · simp [hni]
        rw [hev]
        exact Acts.set rfl
    | none =>
      cases T.connectionFor src s with
      | none => exact Acts.untouched _
      | some j =>
        simp only [Option.some.injEq]
        exact Acts.set rfl

theorem step_acts (op : Op) : Acts T (T.step env op) i (T.slotEvent env op i) := by
  cases op with
  | openSock pid kind => exact openSock_acts T env i pid kind
  | bind fd port => exact bind_acts T env i fd port
  | listen fd => exact listen_acts T env i fd
  | accept fd => exact accept_acts T env i fd
  | connect fd ip port => exact connect_acts T env i fd ip port
  | send fd data => exact send_acts T env i fd data
  | recv fd room => exact recv_acts T env i fd room
  | close fd => exact close_acts T env i fd
  | tick now => exact tick_acts T env i now
  | deliverUdp src dst sport dport payload =>
    exact deliverUdp_acts T env i src dst sport dport payload
  | deliverTcp src seg => exact deliverTcp_acts T env i src seg

/-- An event only happens to a socket that it fits. -/
theorem slotEvent_enabled (op : Op) : (T.slotEvent env op i).Enabled (T.socks i) := by
  have htakes {src dst : Ip} {sport dport : UInt16}
      (h : takesUdp src dst sport dport (T.socks i) = true) :
      (T.socks i).used = true ∧ (T.socks i).kind = .udp := by
    simp only [takesUdp,decide_eq_true_eq] at h
    exact ⟨h.1,h.2.1⟩
  have htcp (h : ¬ (T.socks i).kind = .udp) : (T.socks i).kind = .tcp := by
    cases hk : (T.socks i).kind <;> simp_all
  fun_cases slotEvent T env op i with
  | case1 _ _ h | case29 _ _ _ _ _ _ h => exact unused_of_firstUnused h
  | case3 _ _ h | case11 _ _ _ h | case16 _ _ h => exact used_of_getMut h
  | case5 _ h | case14 _ _ h => exact ⟨used_of_getMut h.1,h.2⟩
  | case7 _ _ h =>
    have hfound := find?_some h.2
    simp only [decide_eq_true_eq] at hfound
    exact ⟨hfound.1,hfound.2.1⟩
  | case10 _ _ _ h hudp => exact ⟨used_of_getMut h,hudp⟩
  | case12 _ _ _ h hk hstate => exact ⟨used_of_getMut h,htcp hk,fun hl => hstate (.inl hl)⟩
  | case23 _ h hk => exact ⟨used_of_getMut h,not_not.mp hk⟩
  | case26 _ dst _ _ _ _ h =>
    by_cases hfan : fansOut dst = true
    · rw [if_pos hfan] at h
      exact htakes h.2
    · rw [if_neg hfan] at h
      have hfound := find?_some h.2
      exact htakes hfound
  | case31 _ _ _ _ _ h =>
    have hfound := find?_some h
    simp only [decide_eq_true_eq] at hfound
    exact ⟨hfound.1,hfound.2.1⟩
  | _ => trivial

end
end Table

open Transition

structure Traced (H : Type) where
  table : Table
  hist : Fin maxSocks → H

namespace Traced

variable {H : Type} (next : Socket → SlotEvent → H → H)

def init (h : H) : Traced H := ⟨.init,fun _ => h⟩

def step (M : Traced H) (e : Env × Op) : Option (Traced H) :=
  some {
    table := (M.table.step e.1 e.2).table
    hist := fun i => next (M.table.socks i) (M.table.slotEvent e.1 e.2 i) (M.hist i) }

/-- `C` holds for the event of every slot. -/
def AtSlots (C : Socket → H → SlotEvent → Prop) (M : Traced H) (e : Env × Op) : Prop :=
  ∀ i, C (M.table.socks i) (M.hist i) (M.table.slotEvent e.1 e.2 i)

instance {C : Socket → H → SlotEvent → Prop} [∀ sk h ev, Decidable (C sk h ev)] (M : Traced H)
    (e : Env × Op) : Decidable (AtSlots C M e) := Nat.decidableForallFin _

/-- `P` holds of every socket and its history. -/
def Everywhere (P : Socket → H → Prop) (M : Traced H) : Prop :=
  ∀ i, P (M.table.socks i) (M.hist i)

instance {P : Socket → H → Prop} [∀ sk h, Decidable (P sk h)] :
    DecidablePred (Everywhere P) := fun _ => Nat.decidableForallFin _

variable {next}

/-- What one socket keeps under every event that meets `C` holds of every socket along a run whose
events all meet `C`. -/
theorem always_slots {P : Socket → H → Prop} {C : Socket → H → SlotEvent → Prop}
    (hstep : ∀ sk h ev, P sk h → ev.Enabled sk → C sk h ev → P (ev.apply sk).1 (next sk ev h))
    {h₀ : H} (h₀P : P .empty h₀) {es : List (Env × Op)}
    (hes : EachStep (step next) (fun M e _ => AtSlots C M e) (init h₀) es) :
    Always (step next) (Everywhere P) (init h₀) es := by
  refine hes.always (fun M e M' hM hC hst i => ?_) fun _ => h₀P
  have hacts := M.table.step_acts e.1 i e.2
  have hen := M.table.slotEvent_enabled e.1 i e.2
  cases hst
  rw [Table.Acts,Prod.ext_iff] at hacts
  dsimp only at hacts ⊢
  rw [hacts.1]
  exact hstep _ _ _ (hM i) hen (hC i)

end Traced

def fromPeer (seq ack : List UInt8) (flags : UInt8) (payload : List UInt8) : Env × Op :=
  (⟨0,⟨10,0,0,1⟩,true⟩,.deliverTcp ⟨10,0,0,2⟩
    ([0,80,0xC0,0] ++ seq ++ ack ++ [0x50,flags,0,0,0,0,0,0] ++ payload))

def byCaller (op : Op) : Env × Op := (⟨0,⟨10,0,0,1⟩,true⟩,op)

/-- An active open; at tick 0 the socket in slot 0 starts at number 40503. -/
def handshake : List (Env × Op) :=
  [byCaller (.openSock 1 .tcp),byCaller (.connect 0 ⟨10,0,0,2⟩ 80),
    fromPeer [0,0,0,0] [0,0,0x9E,0x38] (Flag.syn ||| Flag.ack) []]

end Aios.Kernel.Sock
