import Aios.Core.RoundTrip
import Aios.Lib.FiniteMap
import Aios.Lib.Transition
import Aios.Ringbuf.Buffer

/-!
The ring transport for heavy packets: one byte ring per pair of blocks. Packets are written back to
back; a receive takes all unread bytes and decodes one packet.
-/
namespace Aios.Ipc

open Aios.Ringbuf Transition List Option

def heavyPayloadThreshold : ℕ := 4096

def defaultRingCapacity : ℕ := 256*1024

structure PacketCodec (P : Type) where
  sourceBlock : P → UInt32
  targetBlock : P → UInt32
  /-- `payload.to_bytes().len()`. -/
  payloadSize : P → ℕ
  serialize : P → Option (List UInt8)
  deserialize : List UInt8 → Option P

abbrev Pair := UInt32 × UInt32

def PacketCodec.pairOf {P : Type} (C : PacketCodec P) (p : P) : Pair :=
  (C.sourceBlock p,C.targetBlock p)

/-- The encoding is not empty and can be read back in front of any other bytes. -/
structure PacketCodec.Lawful {P : Type} (C : PacketCodec P) : Prop where
  inverse : ∀ p bytes rest, C.serialize p = some bytes → C.deserialize (bytes ++ rest) = some p
  nonempty : ∀ p bytes, C.serialize p = some bytes → bytes ≠ []

structure RingMetrics where
  ringSends : UInt64
  ringReceives : UInt64
  ringFullRejections : UInt64
  deriving DecidableEq

inductive SendError where
  | serializationError
  deriving DecidableEq

structure RingTransport where
  rings : Finmap fun _ : Pair => ByteRing
  ringCapacity : ℕ
  metrics : RingMetrics

namespace RingTransport

def withCapacity (ringCapacity : ℕ) : RingTransport := ⟨∅,ringCapacity,⟨0,0,0⟩⟩

variable {P : Type} (C : PacketCodec P) (t : RingTransport)

/-- The ring of a pair, created over `memory` when there is none; `none` where creating it
panics. -/
def ringFor (key : Pair) (memory : Option (ℕ → UInt8)) : Option ByteRing :=
  match t.rings.lookup key with
  | some ring => some ring
  | none => (ByteRing.new t.ringCapacity memory).toOption

def sendViaRing (packet : P) (memory : Option (ℕ → UInt8)) :
    Option (RingTransport × Except SendError Bool) :=
  if C.payloadSize packet < heavyPayloadThreshold then some (t,.ok false)
  else
    match C.serialize packet with
    | none => some (t,.error .serializationError)
    | some serialized => do
      let key := C.pairOf packet
      let ring ← t.ringFor key memory
      match ← ring.write serialized with
      | (ring,.ok _) =>
        return ({ t with
          rings := t.rings.insert key ring
          metrics := { t.metrics with ringSends := t.metrics.ringSends+1 } },.ok true)
      | (ring,.error _) =>
        return ({ t with
          rings := t.rings.insert key ring
          metrics := { t.metrics with
            ringFullRejections := t.metrics.ringFullRejections+1 } },.ok false)

def tryReceiveFromRing (key : Pair) : Option (RingTransport × Option P) :=
  match t.rings.lookup key with
  | none => some (t,none)
  | some ring => do
    let available ← ring.availableRead
    if available = 0 then return (t,none)
    let (ring,buf) ← ring.read available
    let t := { t with rings := t.rings.insert key ring }
    if 0 < buf.length then
      return ({ t with metrics := { t.metrics with ringReceives := t.metrics.ringReceives+1 } },
        C.deserialize buf)
    else return (t,none)

end RingTransport

namespace RingTransport

variable {P : Type} {C : PacketCodec P} {t t' : RingTransport} {p : P} {memory : Option (ℕ → UInt8)}

variable (t)

def unread (key : Pair) : List UInt8 :=
  ((t.rings.lookup key).map ByteRing.unread).getD []

def room (key : Pair) : ℕ :=
  match t.rings.lookup key with
  | some ring => ring.availableWrite.getD 0
  | none => t.ringCapacity-1

def backlog (key : Pair) : ℕ :=
  match t.rings.lookup key with
  | some ring => ring.availableRead.getD 0
  | none => 0

variable {t}

def Accepts (C : PacketCodec P) (t : RingTransport) (p : P) : Prop :=
  heavyPayloadThreshold ≤ C.payloadSize p ∧
    ∃ bytes, C.serialize p = some bytes ∧
      bytes.length ≤ t.room (C.pairOf p)

theorem backlog_eq (key : Pair) : t.backlog key = (t.unread key).length := by
  unfold backlog unread
  cases t.rings.lookup key with
  | none => rfl
  | some ring => simp [ByteRing.availableRead_eq]

theorem unread_insert (rings : Finmap fun _ : Pair => ByteRing) (m : RingMetrics) (key k : Pair)
    (ring : ByteRing) :
    unread ⟨rings.insert key ring,t.ringCapacity,m⟩ k =
      if k = key then ring.unread else unread ⟨rings,t.ringCapacity,m⟩ k := by
  unfold unread
  rw [Finmap.lookup_insert_if]
  split <;> rfl

theorem ringFor_spec {key : Pair} {ring : ByteRing} (h : t.ringFor key memory = some ring) :
    ring.unread = t.unread key ∧ t.room key = ring.capacity-1-ring.used := by
  unfold ringFor at h
  unfold unread room
  cases hlookup : t.rings.lookup key with
  | some r =>
    rw [hlookup] at h
    cases h
    simp [ByteRing.availableWrite_eq]
  | none =>
    rw [hlookup] at h
    dsimp only at h
    unfold ByteRing.new at h
    split at h
    next => cases h
    next =>
      split at h
      next =>
        cases memory with
        | none => cases h
        | some data =>
          cases h
          exact ⟨rfl,rfl⟩
      next => cases h

/-- A heavy packet that fits into the ring of its pair is written to it. -/
theorem sendViaRing_fits {ring : ByteRing} {bytes : List UInt8}
    (hheavy : heavyPayloadThreshold ≤ C.payloadSize p) (hser : C.serialize p = some bytes)
    (hring : t.ringFor (C.pairOf p) memory = some ring)
    (hfits : bytes.length ≤ ring.capacity-1-ring.used) :
    ∃ ring', ring'.capacity = ring.capacity ∧ ring'.unread = ring.unread ++ bytes ∧
      t.sendViaRing C p memory = some (⟨t.rings.insert (C.pairOf p) ring',t.ringCapacity,
        { t.metrics with ringSends := t.metrics.ringSends+1 }⟩,.ok true) := by
  obtain ⟨ring',hwrite,hcapacity,hafter⟩ := ByteRing.write_accepted hfits
  refine ⟨ring',hcapacity,hafter,?_⟩
  rw [sendViaRing,if_neg hheavy.not_gt,hser]
  simp only [hring,bind_eq_bind,bind_some,hwrite]
  rfl

/-- A send that returns accepts exactly the heavy packets that fit, and appends their bytes. -/
theorem sendViaRing_spec {res : Except SendError Bool}
    (h : t.sendViaRing C p memory = some (t',res)) :
    (t.Accepts C p ∧ res = .ok true ∧ ∃ bytes, C.serialize p = some bytes ∧
        ∀ k, t'.unread k = if k = C.pairOf p then t.unread k ++ bytes else t.unread k) ∨
      ¬ t.Accepts C p ∧ res ≠ .ok true ∧ ∀ k, t'.unread k = t.unread k := by
  have hret := h
  unfold sendViaRing at h
  split at h
  next hlight =>
    cases h
    exact .inr ⟨fun ha => by have := ha.1; omega,by simp,fun _ => rfl⟩
  next hheavy =>
    cases hser : C.serialize p with
    | none =>
      rw [hser] at h
      cases h
      refine .inr ⟨?_,by simp,fun _ => rfl⟩
      rintro ⟨-,bytes,hbytes,-⟩
      rw [hser] at hbytes
      cases hbytes
    | some bytes =>
      rw [hser] at h
      obtain ⟨ring,hring,h⟩ := bind_eq_some_iff.mp h
      obtain ⟨hunread,hroom⟩ := ringFor_spec hring
      by_cases hfits : bytes.length ≤ ring.capacity-1-ring.used
      · obtain ⟨ring',-,hafter,hsent⟩ := sendViaRing_fits (not_lt.mp hheavy) hser hring hfits
        rw [hsent] at hret
        cases hret
        refine .inl ⟨⟨by omega,bytes,hser,hroom ▸ hfits⟩,rfl,bytes,rfl,fun k => ?_⟩
        rw [unread_insert]
        split
        next hk => rw [hafter,hunread,hk]
        next => rfl
      · obtain ⟨e,hwrite⟩ := ByteRing.write_refused (lt_of_not_ge hfits)
        rw [hwrite] at h
        cases h
        refine .inr ⟨?_,by simp,fun k => ?_⟩
        · rintro ⟨-,bytes',hbytes',hle⟩
          rw [hser,some.injEq] at hbytes'
          subst hbytes'
          exact hfits (hroom ▸ hle)
        · rw [unread_insert]
          split
          next hk => rw [hunread,hk]
          next => rfl

/-- A receive takes all unread bytes of the pair and decodes one packet from them. -/
theorem tryReceiveFromRing_spec (C : PacketCodec P) (t : RingTransport) (key : Pair) :
    ∃ t', t.tryReceiveFromRing C key =
        some (t',if t.unread key = [] then none else C.deserialize (t.unread key)) ∧
      ∀ k, t'.unread k = if k = key then [] else t.unread k := by
  have hidle (hempty : t.unread key = []) (k : Pair) :
      t.unread k = if k = key then [] else t.unread k := by
    split
    next hk => rw [hk,hempty]
    next => rfl
  unfold tryReceiveFromRing
  cases hlookup : t.rings.lookup key with
  | none =>
    have hempty : t.unread key = [] := by simp [unread,hlookup]
    exact ⟨t,by rw [if_pos hempty],hidle hempty⟩
  | some ring =>
    have hunread : t.unread key = ring.unread := by simp [unread,hlookup]
    have hlength : ring.unread.length = ring.used := ring.length_unread
    dsimp only
    rw [ByteRing.availableRead_eq,bind_eq_bind,bind_some]
    by_cases hzero : ring.used = 0
    · have hempty : t.unread key = [] := by
        rw [hunread]
        exact length_eq_zero_iff.mp (hlength.trans hzero)
      refine ⟨t,?_,hidle hempty⟩
      rw [if_pos hzero,if_pos hempty]
      rfl
    · obtain ⟨ring',hread,-,hafter⟩ := ring.read_eq ring.used
      have hall : ring.unread.take ring.used = ring.unread := take_of_length_le hlength.le
      have hnone : ring.unread.drop ring.used = [] := drop_of_length_le hlength.le
      have hne : t.unread key ≠ [] := by
        rw [hunread]
        intro he
        rw [he] at hlength
        exact hzero hlength.symm
      have hpos : 0 < ring.unread.length := by omega
      refine ⟨{ t with
        rings := t.rings.insert key ring'
        metrics := { t.metrics with ringReceives := t.metrics.ringReceives+1 } },?_,?_⟩
      · rw [if_neg hzero,hread,if_neg hne,hunread]
        simp only [bind_eq_bind,bind_some,hall,if_pos hpos]
        rfl
      · intro k
        rw [unread_insert,hafter,hnone]
        rfl

end RingTransport

structure Wire (P : Type) where
  transport : RingTransport
  accepted : Pair → List P
  returned : Pair → List P

inductive Event (P : Type) where
  | send (packet : P) (memory : Option (ℕ → UInt8))
  | receive (key : Pair)

namespace Wire

variable {P : Type} (C : PacketCodec P)

def init (ringCapacity : ℕ) : Wire P := ⟨.withCapacity ringCapacity,fun _ => [],fun _ => []⟩

def step (W : Wire P) : Event P → Option (Wire P)
  | .send p memory =>
    (W.transport.sendViaRing C p memory).map fun
      | (t,.ok true) =>
        { W with
          transport := t
          accepted := Function.update W.accepted (C.pairOf p) (W.accepted (C.pairOf p) ++ [p]) }
      | (t,_) => { W with transport := t }
  | .receive key =>
    (W.transport.tryReceiveFromRing C key).map fun (t,got) =>
      { W with
        transport := t
        returned := Function.update W.returned key (W.returned key ++ got.toList) }

/-- The packets of a pair come out in order, and further receives bring out all of them. -/
def DeliversFor (W : Wire P) (key : Pair) : Prop :=
  W.returned key <+: W.accepted key ∧
    ∃ n W', exec (step C) W (replicate n (.receive key)) = some W' ∧
      W'.returned key = W'.accepted key

def Delivers (W : Wire P) : Prop := ∀ key, W.DeliversFor C key

/-- A packet is accepted only while the ring of its pair is empty. -/
def FindsEmpty (W : Wire P) : Event P → Prop
  | .send p _ => W.transport.Accepts C p → W.transport.backlog (C.pairOf p) = 0
  | .receive _ => True

def encoded (ps : List P) : List UInt8 := ps.flatMap fun p => (C.serialize p).getD []

structure Pending (W : Wire P) (key : Pair) (ps : List P) : Prop where
  bytes : W.transport.unread key = encoded C ps
  serialized : ∀ p ∈ ps, ∃ bytes, C.serialize p = some bytes
  count : (W.returned key).length+ps.length ≤ (W.accepted key).length

variable {C} {W W' : Wire P} {key : Pair} {ps : List P}

/-- Nothing was sent or received for the pair. -/
structure Untouched (W W' : Wire P) (key : Pair) : Prop where
  unread : W'.transport.unread key = W.transport.unread key
  accepted : W'.accepted key = W.accepted key
  returned : W'.returned key = W.returned key

theorem Untouched.pending (h : Untouched W W' key) (hps : W.Pending C key ps) :
    W'.Pending C key ps :=
  ⟨h.unread.trans hps.bytes,hps.serialized,by rw [h.accepted,h.returned]; exact hps.count⟩

section
variable (hC : C.Lawful)
include hC

theorem encoded_eq_nil (hser : ∀ p ∈ ps, ∃ bytes, C.serialize p = some bytes) :
    encoded C ps = [] ↔ ps = [] := by
  constructor
  · intro h
    cases ps with
    | nil => rfl
    | cons p rest =>
      obtain ⟨bytes,hbytes⟩ := hser p mem_cons_self
      have hnil : bytes = [] := by simpa [hbytes] using flatMap_eq_nil_iff.mp h p mem_cons_self
      exact absurd hnil (hC.nonempty p bytes hbytes)
  · rintro rfl
    rfl

section
variable (h : W.Pending C key ps)
include h

/-- A receive returns the first of the packets whose bytes are unread and loses the others. -/
theorem step_receive : ∃ W', W.step C (.receive key) = some W' ∧ W'.accepted = W.accepted ∧
      (∀ k, W'.returned k = if k = key then W.returned k ++ ps.head?.toList else W.returned k) ∧
      ∀ k, W'.transport.unread k = if k = key then [] else W.transport.unread k := by
  obtain ⟨t,hreceive,hunread⟩ := RingTransport.tryReceiveFromRing_spec C W.transport key
  have hgot : (if W.transport.unread key = [] then none
      else C.deserialize (W.transport.unread key)) = ps.head? := by
    rw [h.bytes]
    cases ps with
    | nil => rfl
    | cons p rest =>
      have hne : encoded C (p::rest) ≠ [] := by
        rw [Ne,encoded_eq_nil hC h.serialized]
        exact cons_ne_nil p rest
      obtain ⟨bytes,hbytes⟩ := h.serialized p mem_cons_self
      have hsplit : encoded C (p::rest) = bytes ++ encoded C rest := by simp [encoded,hbytes]
      rw [if_neg hne,hsplit,hC.inverse p bytes _ hbytes]
      rfl
  rw [hgot] at hreceive
  refine ⟨⟨t,W.accepted,Function.update W.returned key (W.returned key ++ ps.head?.toList)⟩,
    ?_,rfl,fun k => ?_,hunread⟩
  · simp only [step,hreceive,map_some]
  · dsimp only
    rw [Function.update_apply]
    split
    next hk => rw [hk]
    next => rfl

theorem pending_receive (hst : W.step C (.receive key) = some W') :
    W'.Pending C key [] ∧ W'.returned key = W.returned key ++ ps.head?.toList ∧
      W'.accepted = W.accepted ∧ ∀ k ≠ key, Untouched W W' k := by
  obtain ⟨V,hV,haccepted,hreturned,hunread⟩ := step_receive hC h
  rw [hV,some.injEq] at hst
  subst hst
  have hkey : V.returned key = W.returned key ++ ps.head?.toList := by rw [hreturned,if_pos rfl]
  refine ⟨⟨?_,fun p hp => absurd hp not_mem_nil,?_⟩,hkey,haccepted,
    fun k hk => ⟨by rw [hunread,if_neg hk],by rw [haccepted],by rw [hreturned,if_neg hk]⟩⟩
  · rw [hunread,if_pos rfl]
    rfl
  · have hcount := h.count
    rw [hkey,haccepted,length_append]
    cases ps with
    | nil => exact hcount
    | cons p rest =>
      rw [length_cons] at hcount
      simp only [head?_cons,toList_some,length_cons,length_nil]
      omega

/-- Only the first of several receives brings out a packet. -/
theorem exec_receives (n : ℕ) : ∃ W', exec (step C) W (replicate n (.receive key)) = some W' ∧
      W'.accepted = W.accepted ∧
      W'.returned key = W.returned key ++ if n = 0 then [] else ps.head?.toList := by
  induction n generalizing W ps with
  | zero => exact ⟨W,rfl,rfl,by simp⟩
  | succ n ih =>
    obtain ⟨V,hV,haccepted,-,-⟩ := step_receive hC h
    obtain ⟨hpending,hreturned,-,-⟩ := pending_receive hC h hV
    obtain ⟨W',hW',haccepted',hreturned'⟩ := ih hpending
    refine ⟨W',exec_cons hV hW',haccepted'.trans haccepted,?_⟩
    rw [hreturned',hreturned]
    simp

/-- All packets of a pair will come out exactly if at most one is unread and the others
have been returned. -/
theorem deliversFor_iff :
    W.DeliversFor C key ↔ W.accepted key = W.returned key ++ ps ∧ ps.length ≤ 1 := by
  constructor
  · rintro ⟨-,n,W',hexec,hall⟩
    obtain ⟨V,hV,haccepted,hreturned⟩ := exec_receives hC h n
    rw [hV,some.injEq] at hexec
    subst hexec
    rw [hreturned,haccepted] at hall
    have hcount := h.count
    rw [← hall,length_append] at hcount
    cases ps with
    | nil => simpa using hall.symm
    | cons p rest =>
      have hn : n ≠ 0 := by
        rintro rfl
        simp only [if_true,length_nil,length_cons] at hcount
        omega
      simp only [if_neg hn,head?_cons,toList_some,length_cons,length_nil] at hall hcount
      have hrest : rest = [] := length_eq_zero_iff.mp (by omega)
      subst hrest
      exact ⟨hall.symm,le_rfl⟩
  · rintro ⟨hall,hone⟩
    refine ⟨⟨ps,hall.symm⟩,ps.length,?_⟩
    obtain ⟨W',hW',haccepted,hreturned⟩ := exec_receives hC h ps.length
    refine ⟨W',hW',?_⟩
    rw [hreturned,haccepted,hall]
    match ps, hone with
    | [], _ => rfl
    | [p], _ => rfl

end
end

section
variable {p : P} {memory : Option (ℕ → UInt8)}

theorem step_sent {t : RingTransport}
    (h : W.transport.sendViaRing C p memory = some (t,.ok true)) :
    W.step C (.send p memory) = some ⟨t,Function.update W.accepted (C.pairOf p)
      (W.accepted (C.pairOf p) ++ [p]),W.returned⟩ := by
  simp only [step,h,map_some]

theorem step_send_rejected (h : ¬ W.transport.Accepts C p)
    (hst : W.step C (.send p memory) = some W') (k : Pair) : Untouched W W' k := by
  obtain ⟨⟨t,res⟩,hsend,rfl⟩ := map_eq_some_iff.mp hst
  rcases RingTransport.sendViaRing_spec hsend with ⟨haccepts,-⟩ | ⟨-,hres,hunread⟩
  · exact absurd haccepts h
  · split
    next he =>
      cases he
      exact absurd rfl hres
    next he =>
      cases he
      exact ⟨hunread k,rfl,rfl⟩

theorem step_send_accepted (h : W.transport.Accepts C p)
    (hst : W.step C (.send p memory) = some W') (hps : W.Pending C (C.pairOf p) ps) :
    W'.Pending C (C.pairOf p) (ps ++ [p]) ∧
      W'.accepted (C.pairOf p) = W.accepted (C.pairOf p) ++ [p] ∧ W'.returned = W.returned ∧
      ∀ k ≠ C.pairOf p, Untouched W W' k := by
  obtain ⟨⟨t,res⟩,hsend,hW'⟩ := map_eq_some_iff.mp hst
  rcases RingTransport.sendViaRing_spec hsend with ⟨-,rfl,bytes,hbytes,hunread⟩ | ⟨hnot,-⟩
  · have htransport (k : Pair) : W'.transport.unread k =
        if k = C.pairOf p then W.transport.unread k ++ bytes else W.transport.unread k := by
      rw [← hW']
      exact hunread k
    have haccepted (k : Pair) : W'.accepted k =
        if k = C.pairOf p then W.accepted k ++ [p] else W.accepted k := by
      rw [← hW']
      dsimp only
      rw [Function.update_apply]
      split
      next hk => rw [hk]
      next => rfl
    have hreturned : W'.returned = W.returned := by rw [← hW']
    refine ⟨⟨?_,?_,?_⟩,?_,hreturned,fun k hk => ⟨?_,?_,congrFun hreturned k⟩⟩
    · rw [htransport,if_pos rfl,hps.bytes]
      simp [encoded,hbytes]
    · intro q hq
      rcases mem_append.mp hq with hq | hq
      · exact hps.serialized q hq
      · rw [mem_singleton.mp hq]
        exact ⟨bytes,hbytes⟩
    · have hcount := hps.count
      rw [haccepted,if_pos rfl,hreturned,length_append,length_append]
      omega
    · rw [haccepted,if_pos rfl]
    · rw [htransport,if_neg hk]
    · rw [haccepted,if_neg hk]
  · exact absurd h hnot

end

/-- The unread bytes of every pair are whole packets. -/
def Framed (C : PacketCodec P) (W : Wire P) : Prop := ∀ key, ∃ ps, W.Pending C key ps

variable (hC : C.Lawful) {e : Event P}
include hC

theorem Framed.step (h : W.Framed C) (hst : W.step C e = some W') : W'.Framed C := by
  intro k
  obtain ⟨qs,hqs⟩ := h k
  cases e with
  | send p memory =>
    by_cases haccepts : W.transport.Accepts C p
    · obtain ⟨ps,hps⟩ := h (C.pairOf p)
      obtain ⟨hnew,-,-,hother⟩ := step_send_accepted haccepts hst hps
      by_cases hk : k = C.pairOf p
      · exact ⟨ps ++ [p],hk ▸ hnew⟩
      · exact ⟨qs,(hother k hk).pending hqs⟩
    · exact ⟨qs,(step_send_rejected haccepts hst k).pending hqs⟩
  | receive key =>
    obtain ⟨ps,hps⟩ := h key
    obtain ⟨hnew,-,-,hother⟩ := pending_receive hC hps hst
    by_cases hk : k = key
    · exact ⟨[],hk ▸ hnew⟩
    · exact ⟨qs,(hother k hk).pending hqs⟩

theorem DeliversFor.kept (h : W.DeliversFor C key) (hframed : W.Framed C)
    (hsame : Untouched W W' key) : W'.DeliversFor C key := by
  obtain ⟨ps,hps⟩ := hframed key
  rw [deliversFor_iff hC (hsame.pending hps),hsame.accepted,hsame.returned]
  exact (deliversFor_iff hC hps).mp h

theorem DeliversFor.received (h : W.DeliversFor C key) (hps : W.Pending C key ps)
    (hst : W.step C (.receive key) = some W') : W'.DeliversFor C key := by
  obtain ⟨hnew,hreturned,haccepted,-⟩ := pending_receive hC hps hst
  obtain ⟨hall,hone⟩ := (deliversFor_iff hC hps).mp h
  rw [deliversFor_iff hC hnew,haccepted,hreturned,hall]
  match ps, hone with
  | [], _ => exact ⟨by simp,Nat.zero_le 1⟩
  | [p], _ => exact ⟨by simp,Nat.zero_le 1⟩

/-- A packet accepted behind another one will not come out. -/
theorem DeliversFor.accepted_iff {p : P} {memory : Option (ℕ → UInt8)}
    (h : W.DeliversFor C (C.pairOf p)) (hps : W.Pending C (C.pairOf p) ps)
    (haccepts : W.transport.Accepts C p) (hst : W.step C (.send p memory) = some W') :
    W'.DeliversFor C (C.pairOf p) ↔ W.FindsEmpty C (.send p memory) := by
  obtain ⟨hnew,haccepted,hreturned,-⟩ := step_send_accepted haccepts hst hps
  obtain ⟨hall,-⟩ := (deliversFor_iff hC hps).mp h
  have hempty : W.FindsEmpty C (.send p memory) ↔ ps = [] := by
    rw [FindsEmpty,RingTransport.backlog_eq,hps.bytes,length_eq_zero_iff,
      encoded_eq_nil hC hps.serialized]
    exact ⟨fun hf => hf haccepts,fun hf _ => hf⟩
  rw [hempty,deliversFor_iff hC hnew,haccepted,hreturned,hall,append_assoc]
  constructor
  · rintro ⟨-,hone⟩
    rw [length_append,length_singleton] at hone
    exact length_eq_zero_iff.mp (by omega)
  · rintro rfl
    exact ⟨rfl,le_rfl⟩

theorem delivers_step (hframed : W.Framed C) (h : W.Delivers C)
    (hst : W.step C e = some W') : W'.Delivers C ↔ W.FindsEmpty C e := by
  cases e with
  | receive key =>
    refine iff_of_true (fun k => ?_) trivial
    obtain ⟨ps,hps⟩ := hframed key
    by_cases hk : k = key
    · subst hk
      exact (h k).received hC hps hst
    · obtain ⟨-,-,-,hother⟩ := pending_receive hC hps hst
      exact (h k).kept hC hframed (hother k hk)
  | send p memory =>
    by_cases haccepts : W.transport.Accepts C p
    · obtain ⟨ps,hps⟩ := hframed (C.pairOf p)
      obtain ⟨-,-,-,hother⟩ := step_send_accepted haccepts hst hps
      rw [← (h (C.pairOf p)).accepted_iff hC hps haccepts hst]
      constructor
      · intro h'
        exact h' (C.pairOf p)
      · intro h' k
        by_cases hk : k = C.pairOf p
        · rw [hk]
          exact h'
        · exact (h k).kept hC hframed (hother k hk)
    · refine iff_of_true (fun k => ?_) fun ha => absurd ha haccepts
      exact (h k).kept hC hframed (step_send_rejected haccepts hst k)

omit hC in
theorem framed_init (ringCapacity : ℕ) : (init ringCapacity : Wire P).Framed C := fun _ =>
  ⟨[],rfl,fun _ hp => absurd hp not_mem_nil,le_rfl⟩

/-- In every run, what is returned for a pair is a prefix of what was accepted and further receives
bring out the rest, precisely if no packet is accepted while one of its pair is unread. -/
theorem delivers_iff_finds_empty (ringCapacity : ℕ) (es : List (Event P)) :
    Always (step C) (Delivers C) (init ringCapacity) es ↔
      EachStep (step C) (fun W e _ => W.FindsEmpty C e) (init ringCapacity) es := by
  apply always_iff_eachStep (J := Framed C)
  · intro W e W' hframed hst
    exact hframed.step hC hst
  · intro W e W' hframed h hst
    exact delivers_step hC hframed h hst
  · exact framed_init ringCapacity
  · intro key
    exact ⟨prefix_rfl,0,_,rfl,rfl⟩

/-- Of two packets sent without a receive in between, the second never comes out. -/
theorem second_of_two_is_lost {p q : P} {bytes bytes' : List UInt8} {capacity : ℕ}
    (hp : heavyPayloadThreshold ≤ C.payloadSize p) (hser : C.serialize p = some bytes)
    (hq : heavyPayloadThreshold ≤ C.payloadSize q) (hser' : C.serialize q = some bytes')
    (hpair : C.pairOf q = C.pairOf p) (hfits : bytes.length+bytes'.length < capacity)
    (hcapacity : capacity ≤ maxLayout) (memory : ℕ → UInt8)
    (memory' : Option (ℕ → UInt8)) :
    ∃ W, exec (step C) (init capacity) [.send p (some memory),.send q memory'] = some W ∧
      W.accepted (C.pairOf p) = [p,q] ∧ ¬ W.Delivers C := by
  have hpos : 0 < capacity := by omega
  let ring₀ : ByteRing := ⟨memory,0,0,capacity,hcapacity,hpos,hpos⟩
  have hring₀ : (RingTransport.withCapacity capacity).ringFor (C.pairOf p) (some memory) =
      some ring₀ := by
    show (ByteRing.new capacity (some memory)).toOption = some ring₀
    rw [ByteRing.new,dif_neg hpos.ne',dif_pos hcapacity]
    rfl
  have hempty : ring₀.unread = [] := rfl
  obtain ⟨ring₁,hcapacity₁,hunread₁,hsend₁⟩ := RingTransport.sendViaRing_fits hp hser hring₀
    (by show bytes.length ≤ capacity-1-0; omega)
  rw [hempty,nil_append] at hunread₁
  let t₁ : RingTransport := ⟨Finmap.insert (C.pairOf p) ring₁ ∅,capacity,⟨1,0,0⟩⟩
  have hring₁ : t₁.ringFor (C.pairOf q) memory' = some ring₁ := by
    rw [RingTransport.ringFor,hpair,Finmap.lookup_insert]
  have hused : ring₁.used = bytes.length := by rw [← ring₁.length_unread,hunread₁]
  obtain ⟨ring₂,-,hunread₂,hsend₂⟩ := RingTransport.sendViaRing_fits hq hser' hring₁
    (by rw [hcapacity₁,hused]; show bytes'.length ≤ capacity-1-bytes.length; omega)
  rw [hpair] at hsend₂
  refine ⟨_,exec_cons (step_sent hsend₁) (exec_cons (step_sent hsend₂) rfl),?_,fun h => ?_⟩
  · simp [hpair,init]
  -- two packets are unread
  have hdelivered := (deliversFor_iff hC (show Pending C _ (C.pairOf p) [p,q] from ⟨?_,?_,?_⟩)).mp
    (h (C.pairOf p))
  · exact absurd hdelivered.2 (Nat.not_succ_le_self 1)
  · rw [RingTransport.unread_insert,if_pos rfl,hunread₂,hunread₁]
    simp [encoded,hser,hser']
  · simp [hser,hser']
  · simp [hpair,init]

/-- Packets of the bus, those left out that are not read back. -/
def packetCodec : PacketCodec { p : Core.IpcPacket // p.payload.isIntentCommand = false } where
  sourceBlock p := p.1.header.sourceBlock
  targetBlock p := p.1.header.targetBlock
  payloadSize p := p.1.payload.toBytes.length
  serialize p := some p.1.serialize
  deserialize data := (Core.IpcPacket.deserialize data).bind fun p =>
    if h : p.payload.isIntentCommand = false then some ⟨p,h⟩ else none

omit hC in
theorem packetCodec_lawful : packetCodec.Lawful where
  inverse p bytes rest h := by
    cases h
    have hread : Core.IpcPacket.deserialize (p.1.serialize ++ rest) = some p.1 := by
      rw [Core.IpcPacket.deserialize,Core.IpcPacket.decode_decodes p.2 rest]
      rfl
    show (Core.IpcPacket.deserialize (p.1.serialize ++ rest)).bind _ = _
    rw [hread,bind_some,dif_pos p.2]
  nonempty p bytes h := by
    cases h
    exact cons_ne_nil _ _

/-- A packet with data from block 1 to block 2. -/
def dataPacket (data : Bincode.Vec UInt8) :
    { p : Core.IpcPacket // p.payload.isIntentCommand = false } :=
  ⟨(Core.IpcPacket.new Sha256.sha256 1 1 2 .custom (.binary data)).1,rfl⟩

omit hC in
theorem dataPacket_sizes (data : Bincode.Vec UInt8) :
    (dataPacket data).1.payload.toBytes.length = data.1.length+12 ∧
      (dataPacket data).1.serialize.length = data.1.length+67 := by
  have hpayload : (dataPacket data).1.payload.toBytes.length = data.1.length+12 := by
    simp [dataPacket,Core.IpcPacket.new,Core.Payload.toBytes,Core.Payload.encodeFields,
      Bincode.encodeVec,Bincode.encodeSeq,Bincode.encodeU8]
    omega
  have hheader (h : Core.Header) : h.encode.length = 55 := by
    simp [Core.Header.encode,Bincode.encodeU8,Bincode.encodeU16,Bincode.encodeU32,
      Bincode.encodeU64,h.checksum.2]
  refine ⟨hpayload,?_⟩
  rw [Core.IpcPacket.serialize,length_append,hpayload,hheader]
  omega

/-- Data that goes through the ring. -/
def page (b : UInt8) : Bincode.Vec UInt8 :=
  ⟨replicate 4096 b,length_replicate ▸ (by decide : 4096 < 2^63)⟩

def heavyPacket (b : UInt8) : { p : Core.IpcPacket // p.payload.isIntentCommand = false } :=
  dataPacket (page b)

omit hC in
theorem heavyPacket_sizes (b : UInt8) :
    (heavyPacket b).1.payload.toBytes.length = 4108 ∧
      (heavyPacket b).1.serialize.length = 4163 := by
  have hpage : (page b).1.length = 4096 := length_replicate
  have hsizes := dataPacket_sizes (page b)
  rwa [hpage] at hsizes

omit hC in
theorem alternating_run_delivers :
    Always (step packetCodec) (Delivers packetCodec) (init defaultRingCapacity)
      [.send (heavyPacket 5) (some fun _ => 0),.receive (1,2),.send (heavyPacket 6) none] := by
  apply (delivers_iff_finds_empty packetCodec_lawful defaultRingCapacity _).mpr
  intro W₁ h₁
  refine ⟨fun _ => rfl,fun W₂ h₂ => ⟨trivial,fun W₃ h₃ => ⟨fun _ => ?_,trivial⟩⟩⟩
  obtain ⟨t,hreceive,hunread⟩ :=
    RingTransport.tryReceiveFromRing_spec packetCodec W₁.transport (1,2)
  have hW₂ : W₂.transport = t := by
    rw [step,hreceive,map_some,some.injEq] at h₂
    rw [← h₂]
  rw [RingTransport.backlog_eq,hW₂]
  exact congrArg length (hunread (1,2))

omit hC in
theorem second_packet_is_lost :
    ∃ W, exec (step packetCodec) (init defaultRingCapacity)
        [.send (heavyPacket 5) (some fun _ => 0),.send (heavyPacket 6) none] = some W ∧
      W.accepted (1,2) = [heavyPacket 5,heavyPacket 6] ∧ ¬ W.Delivers packetCodec := by
  have hheavy (b : UInt8) : heavyPayloadThreshold ≤ packetCodec.payloadSize (heavyPacket b) :=
    (by decide : 4096 ≤ 4108).trans_eq (heavyPacket_sizes b).1.symm
  have hpair (b : UInt8) : packetCodec.pairOf (heavyPacket b) = (1,2) := rfl
  have hfits : (heavyPacket 5).1.serialize.length+(heavyPacket 6).1.serialize.length <
      defaultRingCapacity := by
    rw [(heavyPacket_sizes 5).2,(heavyPacket_sizes 6).2]
    decide
  have hlost := second_of_two_is_lost packetCodec_lawful (hheavy 5) rfl (hheavy 6) rfl
    ((hpair 6).trans (hpair 5).symm) hfits (by decide) (fun _ => 0) none
  rwa [hpair] at hlost

end Wire
end Aios.Ipc
