import Aios.Lib.RingBuffer

/-!
One kernel socket: its fields and what a call, a timer tick or an inbound segment does to it.
Segments are what the code hands to `emit_ipv4`.
-/
namespace Aios.Kernel.Sock

def maxSocks : ℕ := 16
def tcpRxcap : ℕ := 8192
def tcpMss : ℕ := 1460
def txQcap : ℕ := 8192
def udpMtu : ℕ := 1024
def udpSlots : ℕ := 3
def rexmitTicks : UInt64 := 50
def rexmitMax : UInt8 := 4
def timeWaitTicks : UInt64 := 400
def tcpWindow : UInt16 := 64240
def wscaleShift : UInt8 := 4

inductive Kind where
  | udp
  | tcp
  deriving DecidableEq

inductive TcpState where
  | closed
  | listen
  | synRecv
  | synSent
  | established
  | closeWait
  | finWait1
  | finWait2
  | lastAck
  | timeWait
  deriving DecidableEq

namespace Flag

def fin : UInt8 := 0x01
def syn : UInt8 := 0x02
def rst : UInt8 := 0x04
def psh : UInt8 := 0x08
def ack : UInt8 := 0x10

end Flag

open Aios.Kernel.Sock.Flag

/-- `flags & mask != 0`. -/
def hasFlag (flags mask : UInt8) : Bool := flags &&& mask ≠ 0

structure Ip where
  a : UInt8
  b : UInt8
  c : UInt8
  d : UInt8
  deriving DecidableEq

def Ip.zero : Ip := ⟨0,0,0,0⟩
def Ip.broadcast : Ip := ⟨255,255,255,255⟩

structure UdpDgram where
  srcIp : Ip
  srcPort : UInt16
  data : List UInt8
  deriving DecidableEq

/-- A TCP segment as `send_segment` fills it in; `wscale` is the option of a SYN. -/
structure Segment where
  sport : UInt16
  dport : UInt16
  dst : Ip
  seq : UInt32
  ack : UInt32
  flags : UInt8
  window : UInt16
  wscale : Option UInt8
  payload : List UInt8
  deriving DecidableEq

structure Datagram where
  sport : UInt16
  dport : UInt16
  dst : Ip
  payload : List UInt8
  deriving DecidableEq

inductive Emitted where
  | tcp (segment : Segment)
  | udp (datagram : Datagram)
  deriving DecidableEq

/-- What `deliver_tcp` reads from an inbound segment. -/
structure Inbound where
  sport : UInt16
  dport : UInt16
  seq : UInt32
  ack : UInt32
  flags : UInt8
  wscale : UInt8
  payload : List UInt8
  deriving DecidableEq

structure Socket where
  used : Bool
  kind : Kind
  pid : UInt32
  port : UInt16
  rip : Ip
  rport : UInt16
  eof : Bool
  udpRx : RingBuffer UdpDgram udpSlots
  state : TcpState
  /-- The listener that created this connection; `usize::MAX` is `none`. -/
  parent : Option (Fin maxSocks)
  iss : UInt32
  sndUna : UInt32
  sndNxt : UInt32
  rcvNxt : UInt32
  rx : RingBuffer UInt8 tcpRxcap
  txPending : Bool
  txSeq : UInt32
  txBuf : List UInt8
  txQ : RingBuffer UInt8 txQcap
  sentAt : UInt64
  retries : UInt8
  timeAt : UInt64
  broadcast : Bool
  cwnd : UInt32
  ssthresh : UInt32
  wscale : UInt8
  peerWscale : UInt8

def mss32 : UInt32 := 1460

def Socket.empty : Socket where
  used := false
  kind := .udp
  pid := 0
  port := 0
  rip := .zero
  rport := 0
  eof := false
  udpRx := .empty ⟨.zero,0,[]⟩ (by decide)
  state := .closed
  parent := none
  iss := 0
  sndUna := 0
  sndNxt := 0
  rcvNxt := 0
  rx := .empty 0 (by decide)
  txPending := false
  txSeq := 0
  txBuf := []
  txQ := .empty 0 (by decide)
  sentAt := 0
  retries := 0
  timeAt := 0
  broadcast := false
  cwnd := mss32
  ssthresh := 10*mss32
  wscale := wscaleShift
  peerWscale := 0

namespace Socket

variable (now : UInt64) (sk : Socket)

def sendSegment (seq : UInt32) (flags : UInt8) (payload : List UInt8) : Segment where
  sport := sk.port
  dport := sk.rport
  dst := sk.rip
  seq := seq
  ack := if hasFlag flags ack then sk.rcvNxt else 0
  flags := flags
  window := tcpWindow >>> sk.wscale.toUInt16
  wscale := if hasFlag flags syn then some sk.wscale else none
  payload := payload.take tcpMss

def txLen : ℕ := sk.txBuf.length

/-- Hand the next queued segment to the wire, unless one is in flight. -/
def kick : Socket × List Segment :=
  if sk.txPending = true ∨ sk.txQ.count = 0 then (sk,[])
  else
    let n := min sk.txQ.count tcpMss
    if sk.cwnd < UInt32.ofNat n then (sk,[])
    else
      let sk := { sk with
        txBuf := sk.txQ.front n
        txQ := sk.txQ.drop n
        txSeq := sk.sndNxt
        sndNxt := sk.sndNxt+UInt32.ofNat n
        txPending := true
        retries := 0
        sentAt := now }
      (sk,[sk.sendSegment sk.txSeq (psh ||| Flag.ack) sk.txBuf])

/-- `send` on a TCP socket; the reply is the number of bytes accepted. -/
def sendTcp (data : List UInt8) : Socket × Option ℕ × List Segment :=
  if sk.state ≠ .established then (sk,none,[])
  else
    let free := txQcap-sk.txQ.count
    if free = 0 then (sk,none,[])
    else
      let n := min data.length free
      let r := kick now { sk with txQ := sk.txQ.pushAll (data.take n) }
      (r.1,some n,r.2)

/-- `send` on a UDP socket; `link` says whether `emit_ipv4` succeeds. -/
def sendUdp (link : Bool) (data : List UInt8) : Option ℕ × List Datagram :=
  if sk.rip = .zero then (none,[])
  else
    let n := min data.length udpMtu
    (if link then some n else none,[⟨sk.port,sk.rport,sk.rip,data.take n⟩])

/-- `recv` into a buffer of `room` bytes; the reply holds the bytes stored there. -/
def recv (room : ℕ) : Socket × Option (List UInt8) :=
  match sk.kind with
  | .udp =>
    if sk.udpRx.count = 0 then (sk,none)
    else
      let d := sk.udpRx.cells sk.udpRx.head
      let n := min room d.data.length
      ({ sk with udpRx := sk.udpRx.drop 1 },some (d.data.take n))
  | .tcp =>
    if sk.rx.count = 0 then (sk,if sk.eof then some [] else none)
    else
      let n := min room sk.rx.count
      ({ sk with rx := sk.rx.drop n },some (sk.rx.front n))

/-- `close` on a TCP socket that is no listener. -/
def closeTcp : Socket × List Segment :=
  match sk.state with
  | .established =>
    let seq := sk.sndNxt
    let sk := { sk with sndNxt := sk.sndNxt+1, state := .finWait1 }
    (sk,[sk.sendSegment seq (fin ||| Flag.ack) []])
  | .closeWait =>
    let seq := sk.sndNxt
    let sk := { sk with sndNxt := sk.sndNxt+1, state := .lastAck }
    (sk,[sk.sendSegment seq (fin ||| Flag.ack) []])
  | _ => ({ sk with used := false },[])

def tick : Socket × List Segment :=
  if sk.used = false ∨ sk.kind ≠ .tcp then (sk,[])
  else
    match sk.state with
    | .synSent =>
      if rexmitTicks ≤ now-sk.sentAt then
        if sk.retries < rexmitMax then
          let sk := { sk with retries := sk.retries+1, sentAt := now }
          (sk,[sk.sendSegment sk.iss syn []])
        else ({ sk with state := .closed, eof := true },[])
      else (sk,[])
    | .synRecv =>
      if rexmitTicks ≤ now-sk.sentAt then
        if sk.retries < rexmitMax then
          let sk := { sk with retries := sk.retries+1, sentAt := now }
          (sk,[sk.sendSegment sk.iss (syn ||| Flag.ack) []])
        else ({ sk with used := false },[])
      else (sk,[])
    | .established =>
      if sk.txPending = true ∧ rexmitTicks ≤ now-sk.sentAt then
        if sk.retries < rexmitMax then
          let ssthresh := if sk.retries = 0 then max (sk.cwnd/2) (2*mss32) else sk.ssthresh
          let cwnd := if sk.retries = 0 then ssthresh else sk.cwnd
          let sk := { sk with
            ssthresh := ssthresh, cwnd := cwnd, retries := sk.retries+1, sentAt := now }
          (sk,[sk.sendSegment sk.txSeq (psh ||| Flag.ack) sk.txBuf])
        else ({ sk with txPending := false, state := .closed, eof := true },[])
      else (sk,[])
    | .timeWait =>
      if timeWaitTicks ≤ now-sk.timeAt then ({ sk with used := false },[]) else (sk,[])
    | _ => (sk,[])

/-- `append_rx`: the payload is stored whole or not at all. -/
def appendRx (data : List UInt8) : Socket × Bool :=
  if tcpRxcap < sk.rx.count+data.length then (sk,false)
  else ({ sk with rx := sk.rx.pushAll data },true)

def grownCwnd : UInt32 :=
  let inc := if sk.cwnd ≤ sk.ssthresh then mss32 else max (mss32*mss32/sk.cwnd) 1
  if sk.cwnd.toNat+inc.toNat < 2^32 then sk.cwnd+inc else 0xFFFFFFFF

def handleAck (s : Inbound) : Socket × List Segment :=
  if hasFlag s.flags ack = false then (sk,[])
  else
    let segEnd := sk.txSeq+UInt32.ofNat sk.txLen
    let r :=
      if sk.txPending = true ∧ s.ack = segEnd then
        kick now { sk with txPending := false, sndUna := s.ack, cwnd := sk.grownCwnd }
      else (sk,[])
    match r.1.state with
    | .finWait1 => ({ r.1 with state := .finWait2 },r.2)
    | .lastAck => ({ r.1 with state := .closed },r.2)
    | _ => r

/-- The payload branch of `deliver_tcp`; what `append_rx` returns is ignored. -/
def handleData (s : Inbound) : Socket × List Segment :=
  if s.payload ≠ [] ∧ sk.state = .established then
    let sk :=
      if s.seq = sk.rcvNxt then
        { (sk.appendRx s.payload).1 with
          rcvNxt := sk.rcvNxt+UInt32.ofNat s.payload.length }
      else sk
    (sk,[sk.sendSegment sk.sndNxt ack []])
  else (sk,[])

def handleFin (s : Inbound) : Socket × List Segment :=
  if hasFlag s.flags fin then
    let sk := { sk with rcvNxt := sk.rcvNxt+1, eof := true }
    let out := [sk.sendSegment sk.sndNxt ack []]
    match sk.state with
    | .established => ({ sk with state := .closeWait },out)
    | .finWait2 => ({ sk with state := .timeWait, timeAt := now },out)
    | _ => (sk,out)
  else (sk,[])

/-- What follows the handshake in `deliver_tcp`. -/
def process (s : Inbound) : Socket × List Segment :=
  let r₁ := sk.handleAck now s
  let r₂ := r₁.1.handleData s
  let r₃ := r₂.1.handleFin now s
  (r₃.1,r₁.2 ++ r₂.2 ++ r₃.2)

/-- What `deliver_tcp` does to the socket that a segment belongs to. -/
def receive (s : Inbound) : Socket × List Segment :=
  if hasFlag s.flags rst then
    ({ sk with state := .closed, eof := true, txPending := false },[])
  else
    match sk.state with
    | .synSent =>
      if hasFlag s.flags syn = true ∧ hasFlag s.flags ack = true ∧ s.ack = sk.sndNxt then
        let sk := { sk with
          rcvNxt := s.seq+1
          sndUna := s.ack
          sndNxt := s.ack
          peerWscale := s.wscale
          state := .established }
        (sk,[sk.sendSegment sk.sndNxt ack []])
      else (sk,[])
    | .synRecv =>
      if hasFlag s.flags ack = true ∧ s.ack = sk.sndNxt then
        { sk with sndUna := s.ack, state := .established }.process now s
      else (sk,[])
    | .closed => (sk,[])
    | _ => sk.process now s

end Socket
end Aios.Kernel.Sock
