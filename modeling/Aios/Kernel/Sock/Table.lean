import Aios.Kernel.Sock.Socket
import Mathlib.Data.List.FinRange

/-!
The socket table: the calls of the socket interface, the timer tick and inbound delivery, with
everything they hand to the network.
-/
namespace Aios.Kernel.Sock

structure Env where
  now : UInt64
  boundIp : Ip
  link : Bool
  deriving DecidableEq

structure Table where
  socks : Fin maxSocks → Socket
  nextPort : UInt16

def Table.init : Table := ⟨fun _ => .empty,49152⟩

inductive Op where
  | openSock (pid : UInt32) (kind : Kind)
  | bind (fd : ℕ) (port : UInt16)
  | listen (fd : ℕ)
  | accept (fd : ℕ)
  | connect (fd : ℕ) (ip : Ip) (port : UInt16)
  | send (fd : ℕ) (data : List UInt8)
  | recv (fd : ℕ) (room : ℕ)
  | close (fd : ℕ)
  | tick (now : UInt64)
  | deliverUdp (src dst : Ip) (sport dport : UInt16) (payload : List UInt8)
  | deliverTcp (src : Ip) (seg : List UInt8)

inductive Reply where
  | nothing
  | ok (b : Bool)
  | descriptor (fd : Option (Fin maxSocks))
  | count (n : Option ℕ)
  | bytes (data : Option (List UInt8))
  deriving DecidableEq

structure Effect where
  table : Table
  reply : Reply
  sent : List (Fin maxSocks × Emitted)

def be16 (hi lo : UInt8) : UInt16 := hi.toUInt16 <<< 8 ||| lo.toUInt16

def be32 (a b c d : UInt8) : UInt32 :=
  a.toUInt32 <<< 24 ||| b.toUInt32 <<< 16 ||| c.toUInt32 <<< 8 ||| d.toUInt32

/-- The loop of `wscale_opt` from the option at `i` on; every round moves `i` forward, so
`doff` rounds are enough. -/
def wscaleFrom (seg : List UInt8) (doff : ℕ) : ℕ → ℕ → UInt8
  | 0, _ => 0
  | fuel+1, i =>
    if i+2 ≤ doff then
      let kind := seg.getD i 0
      let len := seg.getD (i+1) 0
      if kind = 3 ∧ len = 3 ∧ i+2 < doff then seg.getD (i+2) 0
      else if kind = 0 then 0
      else if kind = 1 then wscaleFrom seg doff fuel (i+1)
      else if 2 ≤ len.toNat then wscaleFrom seg doff fuel (i+len.toNat)
      else 0
    else 0

def wscaleOpt (seg : List UInt8) (doff : ℕ) : UInt8 := wscaleFrom seg doff doff 20

def parse (seg : List UInt8) : Option Inbound :=
  if seg.length < 20 then none
  else
    let at_ (i : ℕ) : UInt8 := seg.getD i 0
    let doff := (at_ 12 >>> 4).toNat*4
    if doff < 20 ∨ seg.length < doff then none
    else some {
      sport := be16 (at_ 0) (at_ 1)
      dport := be16 (at_ 2) (at_ 3)
      seq := be32 (at_ 4) (at_ 5) (at_ 6) (at_ 7)
      ack := be32 (at_ 8) (at_ 9) (at_ 10) (at_ 11)
      flags := at_ 13
      wscale := wscaleOpt seg doff
      payload := seg.drop doff }

namespace Table

variable (T : Table) (env : Env)

variable (fd : ℕ) (i : Fin maxSocks)

def set (sk : Socket) : Table := { T with socks := Function.update T.socks i sk }

def slots : List (Fin maxSocks) := List.finRange maxSocks

def firstUnused : Option (Fin maxSocks) := slots.find? fun i => !(T.socks i).used

def getMut : Option (Fin maxSocks) :=
  if h : fd < maxSocks then
    if (T.socks ⟨fd,h⟩).used then some ⟨fd,h⟩ else none
  else none

def allocPort : UInt16 × Table :=
  (T.nextPort,{ T with nextPort := if 60000 ≤ T.nextPort then 49152 else T.nextPort+1 })

def sentBy (out : List Segment) : List (Fin maxSocks × Emitted) :=
  out.map fun s => (i,.tcp s)

def openSock (pid : UInt32) (kind : Kind) : Effect :=
  match T.firstUnused with
  | none => ⟨T,.descriptor none,[]⟩
  | some i =>
    let r := T.allocPort
    ⟨r.2.set i { Socket.empty with used := true, kind := kind, pid := pid, port := r.1 },
      .descriptor (some i),[]⟩

def bind (port : UInt16) : Effect :=
  match T.getMut fd with
  | none => ⟨T,.ok false,[]⟩
  | some i => ⟨T.set i { T.socks i with port := port },.ok true,[]⟩

def listen : Effect :=
  match T.getMut fd with
  | none => ⟨T,.ok false,[]⟩
  | some i =>
    if (T.socks i).kind ≠ .tcp then ⟨T,.ok false,[]⟩
    else ⟨T.set i { T.socks i with state := .listen, eof := false },.ok true,[]⟩

def isListener : Bool :=
  (T.socks i).used ∧ (T.socks i).kind = .tcp ∧ (T.socks i).state = .listen

/-- The first finished handshake of the listener at `l`. -/
def acceptable (l : Fin maxSocks) : Option (Fin maxSocks) :=
  slots.find? fun i => (T.socks i).used ∧ (T.socks i).kind = .tcp ∧
    (T.socks i).parent = some l ∧ (T.socks i).state = .established

def accept : Effect :=
  if h : fd < maxSocks then
    if T.isListener ⟨fd,h⟩ then
      match T.acceptable ⟨fd,h⟩ with
      | none => ⟨T,.descriptor none,[]⟩
      | some i => ⟨T.set i { T.socks i with parent := none },.descriptor (some i),[]⟩
    else ⟨T,.descriptor none,[]⟩
  else ⟨T,.descriptor none,[]⟩

def seed (now : UInt64) (fd : Fin maxSocks) : UInt32 :=
  let x := now*2654435761+(UInt64.ofNat fd+1)*40503
  (x ^^^ (x >>> 17)).toUInt32

/-- The fields that `connect` sets before it starts a handshake. -/
def connected (sk : Socket) (ip : Ip) (port : UInt16) : Socket :=
  { sk with rip := ip, rport := port }

def synSocket (now : UInt64) (i : Fin maxSocks) (sk : Socket) : Socket :=
  let iss := seed now i
  { sk with
    iss := iss, sndUna := iss, sndNxt := iss+1, retries := 0, sentAt := now, state := .synSent }

def connect (ip : Ip) (port : UInt16) : Effect :=
  match T.getMut fd with
  | none => ⟨T,.ok false,[]⟩
  | some i =>
    let sk := connected (T.socks i) ip port
    if sk.kind = .udp then
      ⟨T.set i { sk with broadcast := ip = .broadcast, state := .established },.ok true,[]⟩
    else if sk.state = .listen then ⟨T.set i sk,.ok false,[]⟩
    else if env.boundIp = .zero then ⟨T.set i sk,.ok false,[]⟩
    else
      let sk := synSocket env.now i sk
      ⟨T.set i sk,.ok true,sentBy i [sk.sendSegment sk.iss Flag.syn []]⟩

def send (data : List UInt8) : Effect :=
  match T.getMut fd with
  | none => ⟨T,.count none,[]⟩
  | some i =>
    match (T.socks i).kind with
    | .udp =>
      let r := (T.socks i).sendUdp env.link data
      ⟨T,.count r.1,r.2.map fun d => (i,.udp d)⟩
    | .tcp =>
      let r := (T.socks i).sendTcp env.now data
      ⟨T.set i r.1,.count r.2.1,sentBy i r.2.2⟩

def recv (fd room : ℕ) : Effect :=
  match T.getMut fd with
  | none => ⟨T,.bytes none,[]⟩
  | some i =>
    let r := (T.socks i).recv room
    ⟨T.set i r.1,.bytes r.2,[]⟩

/-- Closing a listener frees it and the children that were not handed out. -/
def dropListener (l : Fin maxSocks) : Table :=
  { T with socks := fun i =>
      if i = l ∨ (T.socks i).used = true ∧ (T.socks i).parent = some l then
        { T.socks i with used := false }
      else T.socks i }

def close : Effect :=
  match T.getMut fd with
  | none => ⟨T,.nothing,[]⟩
  | some i =>
    if (T.socks i).kind ≠ .tcp then ⟨T.set i { T.socks i with used := false },.nothing,[]⟩
    else if (T.socks i).state = .listen then ⟨T.dropListener i,.nothing,[]⟩
    else
      let r := (T.socks i).closeTcp
      ⟨T.set i r.1,.nothing,sentBy i r.2⟩

def tick (now : UInt64) : Effect :=
  ⟨{ T with socks := fun i => ((T.socks i).tick now).1 },.nothing,
    slots.flatMap fun i => sentBy i ((T.socks i).tick now).2⟩

/-- Broadcast and class D destinations reach every member. -/
def fansOut (dst : Ip) : Bool := dst = .broadcast ∨ dst.a &&& 0xF0 = 0xE0

/-- The tests that a datagram has to pass at a socket, the last one for room. -/
def takesUdp (src dst : Ip) (sport dport : UInt16) (sk : Socket) : Bool :=
  sk.used ∧ sk.kind = .udp ∧ sk.port = dport ∧
    (if fansOut dst then sk.broadcast ∨ sk.rip = .zero ∨ sk.rip = dst
      else sk.rip = .zero ∨ sk.rip = src ∧ sk.rport = sport) ∧
    sk.udpRx.count < udpSlots

def deliverUdp (src dst : Ip) (sport dport : UInt16) (payload : List UInt8) : Table :=
  let store (sk : Socket) : Socket := { sk with udpRx := sk.udpRx.push ⟨src,sport,payload⟩ }
  let takes (i : Fin maxSocks) : Bool := takesUdp src dst sport dport (T.socks i)
  if udpMtu < payload.length then T
  else if fansOut dst then
    { T with socks := fun i => if takes i then store (T.socks i) else T.socks i }
  else
    match slots.find? takes with
    | none => T
    | some i => T.set i (store (T.socks i))

def listenerFor (s : Inbound) : Option (Fin maxSocks) :=
  if hasFlag s.flags Flag.syn = true ∧ hasFlag s.flags Flag.ack = false then
    slots.find? fun i => T.isListener i ∧ (T.socks i).port = s.dport
  else none

/-- The connection that an inbound segment belongs to. -/
def connectionFor (src : Ip) (s : Inbound) : Option (Fin maxSocks) :=
  slots.find? fun i => (T.socks i).used ∧ (T.socks i).kind = .tcp ∧ (T.socks i).port = s.dport ∧
    (T.socks i).rport = s.sport ∧ (T.socks i).rip = src

/-- The socket that `spawn_child` builds in slot `n` for the listener at `l`. -/
def childSocket (pid : UInt32) (port : UInt16) (now : UInt64) (l n : Fin maxSocks) (src : Ip)
    (s : Inbound) : Socket :=
  let iss := seed now n
  { Socket.empty with
    used := true
    kind := .tcp
    pid := pid
    port := port
    rip := src
    rport := s.sport
    parent := some l
    iss := iss
    sndUna := iss
    sndNxt := iss+1
    rcvNxt := s.seq+1
    state := .synRecv
    peerWscale := s.wscale
    retries := 0
    sentAt := now }

def spawnChild (l : Fin maxSocks) (src : Ip) (s : Inbound) : Effect :=
  match T.firstUnused with
  | none => ⟨T,.nothing,[]⟩
  | some n =>
    let c := childSocket (T.socks l).pid (T.socks l).port env.now l n src s
    ⟨T.set n c,.nothing,sentBy n [c.sendSegment c.iss (Flag.syn ||| Flag.ack) []]⟩

def deliverTcp (src : Ip) (seg : List UInt8) : Effect :=
  match parse seg with
  | none => ⟨T,.nothing,[]⟩
  | some s =>
    match T.listenerFor s with
    | some l => T.spawnChild env l src s
    | none =>
      match T.connectionFor src s with
      | none => ⟨T,.nothing,[]⟩
      | some i =>
        let r := (T.socks i).receive env.now s
        ⟨T.set i r.1,.nothing,sentBy i r.2⟩

def step : Op → Effect
  | .openSock pid kind => T.openSock pid kind
  | .bind fd port => T.bind fd port
  | .listen fd => T.listen fd
  | .accept fd => T.accept fd
  | .connect fd ip port => T.connect env fd ip port
  | .send fd data => T.send env fd data
  | .recv fd room => T.recv fd room
  | .close fd => T.close fd
  | .tick now => T.tick now
  | .deliverUdp src dst sport dport payload =>
    ⟨T.deliverUdp src dst sport dport payload,.nothing,[]⟩
  | .deliverTcp src seg => T.deliverTcp env src seg

end Table
end Aios.Kernel.Sock
