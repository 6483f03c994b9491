import Aios.Kernel.Sock.Slots
import Aios.Kernel.UserCopy

/-!
The system calls on socket descriptors. Every call but one asks first whether the caller owns
the descriptor.
-/
namespace Aios.Kernel

open Sock

namespace Sock

/-- What a call leaves in `rax`; `u64::MAX` stands for a missing value. -/
def Reply.rax : Reply → UInt64
  | .nothing => 0
  | .ok b => b.toUInt64
  | .descriptor none | .count none | .bytes none => 0xffffffffffffffff
  | .descriptor (some fd) => UInt64.ofNat fd
  | .count (some n) => UInt64.ofNat n
  | .bytes (some data) => UInt64.ofNat data.length

namespace Table

variable (T : Table)

def owner (fd : ℕ) : UInt32 :=
  if h : fd < maxSocks then
    if (T.socks ⟨fd,h⟩).used then (T.socks ⟨fd,h⟩).pid else 0
  else 0

def code (sk : Socket) : UInt8 :=
  match sk.kind with
  | .udp => 2
  | .tcp =>
    match sk.state with
    | .closed => 4
    | .listen => 6
    | .synSent | .synRecv => 1
    | .established => 2
    | .closeWait | .finWait1 | .finWait2 | .lastAck => 3
    | .timeWait => 5

def status (fd : ℕ) : UInt8 :=
  match T.getMut fd with
  | none => 4
  | some i => code (T.socks i)

/-- The congestion snapshot of a TCP descriptor, as the call lays it out in its buffer. -/
def ccInfo (fd : ℕ) : Option (List UInt8) :=
  match T.getMut fd with
  | none => none
  | some i =>
    let sk := T.socks i
    if sk.kind ≠ .tcp then none
    else some (leBytes sk.cwnd ++ leBytes sk.ssthresh ++ [sk.wscale,sk.peerWscale])
where
  leBytes (w : UInt32) : List UInt8 :=
    [w.toUInt8,(w >>> 8).toUInt8,(w >>> 16).toUInt8,(w >>> 24).toUInt8]

end Table
end Sock

def sockIoCap : ℕ := 1600

/-- The calls that take a descriptor in `rdi`, from `SYS_SOCK_BIND` to `SYS_SOCK_ACCEPT`. -/
inductive SockCall where
  | bind
  | connect
  | send
  | recv
  | close
  | status
  | listen
  | accept
  deriving DecidableEq

structure Args where
  rdi : UInt64
  rsi : UInt64
  rdx : UInt64

namespace Args

variable (a : Args)

def fd : ℕ := a.rdi.toNat

/-- The address in `rsi`, packed big-endian. -/
def ip : Ip :=
  let w := a.rsi.toUInt32
  ⟨(w >>> 24).toUInt8,(w >>> 16).toUInt8,(w >>> 8).toUInt8,w.toUInt8⟩

/-- The length in `rdx`, cut to the scratch buffer. -/
def cap : ℕ := min a.rdx.toNat sockIoCap

end Args

/-- `halted` says that the kernel has faulted; the call does not return then. -/
structure Outcome where
  rax : UInt64
  ram : Ram
  halted : Bool

section
variable (env : Env) (img : Image) (pid : UInt32) (a : Args) (r : Ram)

def sockOwned (T : Table) (fd : ℕ) : Bool := T.owner fd == pid && pid != 0

/-- A call that the owner of the descriptor may make, and what others get. -/
def gated (refused : UInt64) (allowed : Outcome) : Outcome :=
  if sockOwned pid r.table a.fd then allowed else ⟨refused,r,false⟩

def inRax (e : Effect) : Outcome := ⟨e.reply.rax,{ r with table := e.table },false⟩

/-- The scratch buffer with new bytes at its start. -/
def fill (io : ℕ → UInt8) (data : List UInt8) (k : ℕ) : UInt8 := data.getD k (io k)

/-- The bytes go to the user's buffer by way of the scratch buffer. -/
def copyOut (r : Ram) (data : List UInt8) : CopyState :=
  userWrite img { r with io := fill r.io data } a.rsi data.length

/-- The received bytes are written to the user's buffer, unless there are none. -/
def toUser (e : Effect) : Outcome :=
  match e.reply with
  | .bytes (some []) => ⟨0,{ r with table := e.table },false⟩
  | .bytes (some data) =>
    let s := copyOut img a { r with table := e.table } data
    ⟨UInt64.ofNat s.n,s.ram,s.faulted⟩
  | _ => ⟨0xffffffffffffffff,{ r with table := e.table },false⟩

def sysSockBind : Outcome :=
  gated pid a r 0 (inRax r (r.table.step env (.bind a.fd a.rsi.toUInt16)))

def sysSockConnect : Outcome :=
  gated pid a r 0 (inRax r (r.table.step env (.connect a.fd a.ip a.rdx.toUInt16)))

def sysSockSend : Outcome :=
  gated pid a r 0xffffffffffffffff <|
    let s := userRead img r a.rsi a.cap
    if s.faulted then ⟨0,s.ram,true⟩
    else inRax s.ram (r.table.step env (.send a.fd ((List.range s.n).map s.ram.io)))

def sysSockRecv : Outcome :=
  gated pid a r 0xffffffffffffffff (toUser img a r (r.table.step env (.recv a.fd a.cap)))

def sysSockClose : Outcome := gated pid a r 0 (inRax r (r.table.step env (.close a.fd)))

/-- The call does not look at the owner. -/
def sysSockStatus : Outcome :=
  let rax := (r.table.status a.fd).toUInt64
  if a.rsi ≠ 0 then
    match r.table.ccInfo a.fd with
    | none => ⟨rax,r,false⟩
    | some info =>
      let s := copyOut img a r info
      ⟨rax,s.ram,s.faulted⟩
  else ⟨rax,r,false⟩

def sysSockListen : Outcome := gated pid a r 0 (inRax r (r.table.step env (.listen a.fd)))

def sysSockAccept : Outcome :=
  gated pid a r 0xffffffffffffffff (inRax r (r.table.step env (.accept a.fd)))

def syscall (c : SockCall) : Outcome :=
  match c with
  | .bind => sysSockBind env pid a r
  | .connect => sysSockConnect env pid a r
  | .send => sysSockSend env img pid a r
  | .recv => sysSockRecv env img pid a r
  | .close => sysSockClose env pid a r
  | .status => sysSockStatus img a r
  | .listen => sysSockListen env pid a r
  | .accept => sysSockAccept env pid a r

end
end Aios.Kernel
