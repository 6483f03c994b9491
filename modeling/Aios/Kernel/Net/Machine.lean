import Aios.Kernel.Net.Packets

/-!
The state machine of the network layer: the DHCP exchange, the lease timers and the reachability
probes. Inbound packets leave flags and a lease; the next tick acts on them.
-/
namespace Aios.Kernel.Net

open Sock (Ip)

def timerHz : UInt64 := 100
def arpSlots : ℕ := 8
def maxDrain : ℕ := 16
def recheckTicks : UInt64 := 30*timerHz
def failRecheckTicks : UInt64 := 5*timerHz
def failBackoffMax : UInt64 := 60*timerHz
def arpTtl : UInt64 := 300*timerHz

inductive Phase where
  | idle
  | discover
  | request
  | renew
  | checkArp
  | checkIcmp
  | checkDns
  | bound
  deriving DecidableEq

structure Settings where
  dhcp : Bool
  ip : Ip
  mask : Ip
  gw : Ip
  dns1 : Ip
  dns2 : Ip
  deriving DecidableEq

/-- The static settings as a lease that does not expire. -/
def Settings.lease (s : Settings) : Lease := ⟨s.ip,s.mask,s.gw,s.dns1,s.dns2,.zero,0⟩

structure ArpEntry where
  ip : Ip
  mac : Mac
  age : UInt64
  deriving DecidableEq

/-- The statics of the network layer; `arp` is `ARP_TABLE[..ARP_COUNT]`. -/
structure Stack where
  settings : Settings
  phase : Phase
  offer : Lease
  bound : Lease
  xid : UInt32
  dnsXid : UInt16
  seq : UInt16
  retries : UInt8
  tries : UInt8
  deadline : UInt64
  nextAction : UInt64
  boundAt : UInt64
  gotOffer : Bool
  gotAck : Bool
  gotNak : Bool
  gotArp : Bool
  gotIcmp : Bool
  gotDns : Bool
  netOk : Bool
  rebinding : Bool
  fails : UInt8
  lastLink : Bool
  linkKnown : Bool
  arp : List ArpEntry
  deriving DecidableEq

/-- The statics at boot, with the settings that were loaded. -/
def Stack.init (settings : Settings) : Stack where
  settings := settings
  phase := .idle
  offer := .empty
  bound := .empty
  xid := 0
  dnsXid := 0
  seq := 0
  retries := 0
  tries := 0
  deadline := 0
  nextAction := 0
  boundAt := 0
  gotOffer := false
  gotAck := false
  gotNak := false
  gotArp := false
  gotIcmp := false
  gotDns := false
  netOk := false
  rebinding := false
  fails := 0
  lastLink := false
  linkKnown := false
  arp := []

/-- What leaves the layer: the frames, by what their builders are given, and the leases that
`bind` installs and reports. -/
inductive Action where
  | dhcp (mac : Mac) (msg : UInt8) (xid : UInt32) (reqIp server ciaddr : Ip) (renewing : Bool)
  | arpRequest (target : Ip)
  | arpReply (mac : Mac) (ip : Ip)
  | echo (target : Ip) (seq : UInt16)
  | dns (server : Ip) (id : UInt16)
  | installed (lease : Lease)
  deriving DecidableEq

namespace Stack

variable (n : Stack) (now ticks : UInt64)

/-- The first entry for the address counts, even if it is too old. -/
def arpLookup (ip : Ip) : Option Mac :=
  match n.arp.find? fun e => e.ip = ip with
  | none => none
  | some e => if ticks-e.age ≤ arpTtl then some e.mac else none

def arpInsert (ip : Ip) (mac : Mac) : Stack :=
  if ip = .zero then n
  else
    match n.arp.findIdx? fun e => e.ip = ip with
    | some i => { n with arp := n.arp.set i ⟨ip,mac,ticks⟩ }
    | none => if n.arp.length < arpSlots then { n with arp := n.arp ++ [⟨ip,mac,ticks⟩] } else n

/-- The loop of `arp_expire` from entry `i` on: the last entry replaces one that is too old. Every
round looks at one more entry or drops one. -/
def expireFrom (now : UInt64) : ℕ → ℕ → List ArpEntry → List ArpEntry
  | 0, _, table => table
  | fuel+1, i, table =>
    match table[i]? with
    | none => table
    | some e =>
      if arpTtl < now-e.age then
        expireFrom now fuel i ((table.set i (table.getLastD e)).dropLast)
      else expireFrom now fuel (i+1) table

def arpExpire : Stack := { n with arp := expireFrom now n.arp.length 0 n.arp }

def resetArp : Stack := { n with arp := [] }

def hasIp : Bool := n.bound.ip ≠ .zero

def sendEcho (target : Ip) : Stack × List Action :=
  ({ n with seq := n.seq+1 },[.echo target (n.seq+1)])

def sendDns (server : Ip) : Stack × List Action :=
  let id := ticks.toUInt16 ^^^ 0x5A5A
  ({ n with dnsXid := id },[.dns server id])

def sendDiscover (wait : UInt64) : Stack × List Action :=
  ({ n with phase := .discover, deadline := now+wait, tries := 0, gotNak := false },
    [.dhcp broadcastMac dhcpDiscoverMsg n.xid .zero .zero .zero false])

def sendRequest (renew : Bool) : Stack × List Action :=
  let reqIp := if renew then n.bound.ip else n.offer.ip
  let mac := (n.arpLookup ticks n.offer.gw).getD broadcastMac
  ({ n with
      phase := if renew then .renew else .request
      deadline := now+100
      tries := 0
      gotNak := false
      rebinding := if renew then n.rebinding else false },
    [.dhcp mac dhcpRequestMsg n.xid reqIp n.offer.server (if renew then n.bound.ip else .zero)
      renew])

def sendRebind : Stack × List Action :=
  ({ n with
      phase := .renew, deadline := now+100, tries := 0, gotNak := false, rebinding := true },
    [.dhcp broadcastMac dhcpRequestMsg n.xid n.bound.ip .zero n.bound.ip false])

def nakXid : UInt32 := now.toUInt32 ^^^ 0x00C0FFEE

def dhcpNak (phase : Phase) : Stack × List Action :=
  let n := { n with retries := 0, tries := 0 }
  if phase = .renew ∧ n.rebinding = false then n.sendRebind now
  else
    let n := resetArp { n with bound := .empty, netOk := false, rebinding := false }
    sendDiscover { n with xid := nakXid now } now 100

def bindStatic : Stack :=
  { n with
    bound := n.settings.lease
    netOk := false
    phase := .bound
    boundAt := now
    nextAction := now+10
    retries := 0 }

def dhcpTimeout (phase : Phase) : Stack × List Action :=
  let n : Stack := { n with retries := if n.retries = 255 then 255 else n.retries+1 }
  if n.retries > 5 then
    if n.settings.ip ≠ .zero then
      (resetArp { n.bindStatic now with fails := 0, rebinding := false },[])
    else ({ n with phase := .idle, nextAction := now+1000, retries := 6 },[])
  else
    let n := { n with tries := if n.tries < 3 then n.tries+1 else n.tries }
    let n := { n with deadline := now+100 <<< n.tries.toUInt64 }
    match phase with
    | .discover =>
      ({ n with phase := .discover },
        [.dhcp broadcastMac dhcpDiscoverMsg n.xid .zero .zero .zero false])
    | .request => n.sendRequest now ticks false
    | .renew => n.sendRequest now ticks true
    | _ => (n,[])

def bind : Stack × List Action :=
  (resetArp { n with
      bound := n.offer
      retries := 0
      fails := 0
      rebinding := false
      boundAt := now
      phase := .bound
      nextAction := now+10
      netOk := false },
    [.installed n.offer])

def stepDhcp : Stack × List Action :=
  match n.phase with
  | .discover =>
    if n.gotOffer then sendRequest { n with gotOffer := false } now ticks false
    else if n.gotNak then sendDiscover { n with gotNak := false, xid := nakXid now } now 100
    else if n.deadline < now then n.dhcpTimeout now ticks .discover
    else (n,[])
  | .request | .renew =>
    if n.gotAck then bind { n with gotAck := false } now
    else if n.gotNak then dhcpNak { n with gotNak := false } now n.phase
    else if n.deadline < now then n.dhcpTimeout now ticks n.phase
    else (n,[])
  | _ => (n,[])

def startCheck : Stack × List Action :=
  let n := { n with tries := 0 }
  if n.bound.gw ≠ .zero ∧ n.arpLookup ticks n.bound.gw = none then
    ({ n with phase := .checkArp, deadline := now+100 },[.arpRequest n.bound.gw])
  else if n.bound.gw ≠ .zero then
    let r := n.sendEcho n.bound.gw
    ({ r.1 with phase := .checkIcmp, deadline := now+100 },r.2)
  else if n.bound.dns1 ≠ .zero then
    let r := n.sendDns ticks n.bound.dns1
    ({ r.1 with phase := .checkDns, deadline := now+100 },r.2)
  else ({ n with nextAction := now+recheckTicks },[])

def succeedCheck : Stack :=
  { n with netOk := true, fails := 0, phase := .bound, nextAction := now+recheckTicks }

def failCheck : Stack :=
  let fails := if n.fails = 255 then 255 else n.fails+1
  let backoff := min (failRecheckTicks <<< (min fails 5).toUInt64) failBackoffMax
  { n with netOk := false, fails := fails, phase := .bound, nextAction := now+backoff }

/-- The wait of a probe: nothing before the deadline, two more tries, then a failure. -/
def awaitProbe (again : Stack → Stack × List Action) : Stack × List Action :=
  if n.deadline < now then
    if n.tries < 2 then
      let r := again { n with tries := n.tries+1 }
      ({ r.1 with deadline := now+100 },r.2)
    else (n.failCheck now,[])
  else (n,[])

def stepArp : Stack × List Action :=
  if n.gotArp then
    let r := sendEcho { n with gotArp := false } n.bound.gw
    ({ r.1 with phase := .checkIcmp, deadline := now+100, tries := 0 },r.2)
  else n.awaitProbe now fun n => (n,[.arpRequest n.bound.gw])

def stepIcmp : Stack × List Action :=
  if n.gotIcmp then
    let n := { n with gotIcmp := false }
    if n.bound.dns1 ≠ .zero then
      let r := n.sendDns ticks n.bound.dns1
      ({ r.1 with phase := .checkDns, deadline := now+100, tries := 0 },r.2)
    else (n.succeedCheck now,[])
  else n.awaitProbe now fun n => n.sendEcho n.bound.gw

def stepDns : Stack × List Action :=
  if n.gotDns then (succeedCheck { n with gotDns := false } now,[])
  else n.awaitProbe now fun n => n.sendDns ticks n.bound.dns1

/-- Half of the lease is over, or seven eighths of it. -/
def renewDue : Bool :=
  n.settings.dhcp ∧ 0 < n.bound.secs ∧ (n.bound.secs.toUInt64/2)*timerHz ≤ now-n.boundAt

def rebindDue : Bool :=
  n.settings.dhcp ∧ 0 < n.bound.secs ∧ (n.bound.secs.toUInt64*7/8)*timerHz ≤ now-n.boundAt

def stepBound : Stack × List Action :=
  if n.hasIp = false then (n,[])
  else if n.rebindDue now then sendRebind { n with rebinding := false } now
  else if n.renewDue now then sendRequest { n with rebinding := false } now ticks true
  else if n.nextAction ≤ now then n.startCheck now ticks
  else (n,[])

def stepIdle (up : Bool) : Stack × List Action :=
  if up = false ∨ now < n.nextAction then (n,[])
  else if n.settings.dhcp then
    sendDiscover { n with xid := (now ^^^ 0xA10500).toUInt32, retries := 0 } now 100
  else if n.settings.ip = .zero then (n,[])
  else (n.bindStatic now,[])

def step (up : Bool) : Stack × List Action :=
  match n.phase with
  | .idle => n.stepIdle now up
  | .discover | .request | .renew => n.stepDhcp now ticks
  | .checkArp => n.stepArp now
  | .checkIcmp => n.stepIcmp now ticks
  | .checkDns => n.stepDns now ticks
  | .bound => n.stepBound now ticks

/-- The start of a poll: a change of the link restarts the machine. -/
def sampleLink (up : Bool) : Stack :=
  let n' :=
    if n.linkKnown = true ∧ n.lastLink = true ∧ up = false then
      resetArp { n with netOk := false, phase := .idle, fails := 0, nextAction := now+10 }
    else if n.linkKnown = true ∧ n.lastLink = false ∧ up = true then
      { n with netOk := false, phase := .idle, nextAction := now }
    else n
  arpExpire { n' with linkKnown := true, lastLink := up } now

def handleDhcp (pkt : List UInt8) : Stack :=
  match replyType n.xid pkt with
  | none => n
  | some ty =>
    if ty = dhcpOfferMsg then
      if yiaddr pkt = .zero then n else { n with offer := offeredLease pkt, gotOffer := true }
    else if ty = dhcpAckMsg then { n with offer := ackedLease n.offer pkt, gotAck := true }
    else if ty = dhcpNakMsg then { n with gotOffer := false, gotAck := false, gotNak := true }
    else n

def handleFrame (frame : List UInt8) : Stack × List Action :=
  match classify frame with
  | .dhcp pkt => (n.handleDhcp pkt,[])
  | .dns pkt => (if dnsAnswers n.dnsXid pkt then { n with gotDns := true } else n,[])
  | .echoReply id dst =>
    (if id = icmpProbeId ∧ (dst = n.bound.ip ∨ dst = .broadcast) then { n with gotIcmp := true }
      else n,[])
  | .arpRequest sha spa tpa =>
    (n,if n.bound.ip ≠ .zero ∧ tpa = n.bound.ip then [.arpReply sha spa] else [])
  | .arpReply sha spa =>
    let n := n.arpInsert ticks spa sha
    (if spa = n.bound.gw then { n with gotArp := true } else n,[])
  | .other => (n,[])

/-- The frames of one poll, each with the tick count at which it is handled. -/
def drainRx : List (UInt64 × List UInt8) → Stack → Stack × List Action
  | [], n => (n,[])
  | (ticks,frame)::frames, n =>
    let r := n.handleFrame ticks frame
    let r' := drainRx frames r.1
    (r'.1,r.2 ++ r'.2)

/-- One poll at tick `now`, with what the driver delivers and the state of the link. -/
def poll (up : Bool) (frames : List (UInt64 × List UInt8)) : Stack × List Action :=
  let r := drainRx (frames.take maxDrain) (n.sampleLink now up)
  let r' := r.1.step now ticks up
  (r'.1,r.2 ++ r'.2)

def apply (s : Settings) : Stack :=
  { n with
    settings := s
    bound := .empty
    phase := .idle
    retries := 0
    nextAction := ticks
    netOk := false }

def recheck (up : Bool) : Stack × List Action :=
  let n := { n with netOk := false, gotArp := false, gotIcmp := false, gotDns := false }
  if n.phase = .bound ∧ n.hasIp = true ∧ up = true then n.startCheck ticks ticks else (n,[])

end Stack
end Aios.Kernel.Net
