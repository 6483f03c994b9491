import Aios.Kernel.Sock.Table

/-!
The inbound side of the network layer: where a frame carries a DHCP or DNS message, an ARP packet or
an echo reply, and the options of a DHCP message.
-/
namespace Aios.Kernel.Net

open Sock (Ip be16 be32)

abbrev Mac := List UInt8

def broadcastMac : Mac := List.replicate 6 0xFF

def ethertypeIpv4 : UInt16 := 0x0800
def ethertypeArp : UInt16 := 0x0806
def protoIcmp : UInt8 := 1
def protoUdp : UInt8 := 17
def icmpReply : UInt8 := 0
def icmpProbeId : UInt16 := 0xA105
def dhcpDiscoverMsg : UInt8 := 1
def dhcpOfferMsg : UInt8 := 2
def dhcpRequestMsg : UInt8 := 3
def dhcpAckMsg : UInt8 := 5
def dhcpNakMsg : UInt8 := 6
def dnsPort : UInt16 := 53
def dnsSrcPort : UInt16 := 40000
def dhcpClientPort : UInt16 := 68
def dhcpServerPort : UInt16 := 67

structure Lease where
  ip : Ip
  mask : Ip
  gw : Ip
  dns1 : Ip
  dns2 : Ip
  server : Ip
  secs : UInt32
  deriving DecidableEq

def Lease.empty : Lease := ⟨.zero,.zero,.zero,.zero,.zero,.zero,0⟩

def ipAt (bs : List UInt8) (i : ℕ) : Ip :=
  ⟨bs.getD i 0,bs.getD (i+1) 0,bs.getD (i+2) 0,bs.getD (i+3) 0⟩

def u16At (bs : List UInt8) (i : ℕ) : UInt16 := be16 (bs.getD i 0) (bs.getD (i+1) 0)

section

/-- The loop of `walk_options` from the option at `i` on; the length of the packet is rounds enough.
The answer is what was copied to a buffer of `room` bytes. -/
def walkFrom (pkt : List UInt8) (want : UInt8) (room : ℕ) : ℕ → ℕ → Option (List UInt8)
  | 0, _ => none
  | fuel+1, i =>
    if i+1 < pkt.length then
      let tag := pkt.getD i 0
      if tag = 0xFF then none
      else if tag = 0 then walkFrom pkt want room fuel (i+1)
      else
        let len := (pkt.getD (i+1) 0).toNat
        if pkt.length < i+2+len then none
        else if tag = want then some ((pkt.drop (i+2)).take (min len room))
        else walkFrom pkt want room fuel (i+2+len)
    else none

variable (pkt : List UInt8) (code : UInt8)

def walkOptions (want : UInt8) (room : ℕ) : Option (List UInt8) :=
  walkFrom pkt want room pkt.length 240

/-- An option without a value reads as the byte that the buffer held, zero. -/
def dhcpOption : Option UInt8 :=
  (walkOptions pkt code 1).map fun b => b.getD 0 0

def dhcpIpOption : Option Ip :=
  match walkOptions pkt code 4 with
  | none => none
  | some b => if 4 ≤ b.length then some (ipAt b 0) else none

def dhcpU32Option : Option UInt32 :=
  (dhcpIpOption pkt code).map fun ip => be32 ip.a ip.b ip.c ip.d

/-- A single server stands for both. -/
def dhcpDnsOption : Option (Ip × Ip) :=
  match walkOptions pkt 6 8 with
  | none => none
  | some b =>
    if 4 ≤ b.length then some (ipAt b 0,if 8 ≤ b.length then ipAt b 4 else ipAt b 0)
    else none

def parseLeaseOptions (l : Lease) : Lease :=
  let l := { l with mask := (dhcpIpOption pkt 1).getD l.mask }
  let l := { l with gw := (dhcpIpOption pkt 3).getD l.gw }
  let l := { l with secs := (dhcpU32Option pkt 51).getD l.secs }
  match dhcpDnsOption pkt with
  | some dns => { l with dns1 := dns.1, dns2 := dns.2 }
  | none => if l.dns1 = .zero then { l with dns1 := l.server } else l

@[simp] theorem parseLeaseOptions_ip (l : Lease) : (parseLeaseOptions pkt l).ip = l.ip := by
  unfold parseLeaseOptions
  dsimp only
  split
  · rfl
  · split <;> rfl

end

def yiaddr (pkt : List UInt8) : Ip := ipAt pkt 16

/-- The transaction of a DHCP message, the low byte first. -/
def xidOf (pkt : List UInt8) : UInt32 :=
  be32 (pkt.getD 7 0) (pkt.getD 6 0) (pkt.getD 5 0) (pkt.getD 4 0)

/-- The type of a reply that belongs to the transaction; other packets are not looked at. -/
def replyType (xid : UInt32) (pkt : List UInt8) : Option UInt8 :=
  if pkt.length < 240 ∨ pkt.getD 0 0 ≠ 2 then none
  else if xidOf pkt ≠ xid then none
  else dhcpOption pkt 53

def offeredLease (pkt : List UInt8) : Lease :=
  parseLeaseOptions pkt { Lease.empty with
    ip := yiaddr pkt
    mask := ⟨255,255,255,0⟩
    server := (dhcpIpOption pkt 54).getD (ipAt pkt 20) }

/-- The lease that an ACK confirms: the one on offer, with the address of the ACK only where
the offer has none. -/
def ackedLease (offer : Lease) (pkt : List UInt8) : Lease :=
  parseLeaseOptions pkt (if offer.ip = .zero then { offer with ip := yiaddr pkt } else offer)

/-- The answer to the DNS probe `id`. -/
def dnsAnswers (id : UInt16) (pkt : List UInt8) : Bool :=
  12 ≤ pkt.length ∧ u16At pkt 0 = id ∧ u16At pkt 2 &&& 0xF = 0 ∧ 0 < u16At pkt 6

section
variable (frame : List UInt8)

/-- The checks of `handle_ipv4`: the protocol and where its header starts. -/
def ipv4Header : Option (UInt8 × ℕ) :=
  if frame.length < 34 ∨ frame.getD 14 0 >>> 4 ≠ 4 then none
  else
    let ihl := ((frame.getD 14 0 &&& 0xF)*4).toNat
    if ihl < 20 ∨ frame.length < 14+ihl then none
    else some (frame.getD 23 0,14+ihl)

/-- The checks of `handle_udp`: the ports and the payload. -/
def udpPayload (l4 : ℕ) : Option (UInt16 × UInt16 × List UInt8) :=
  if frame.length < l4+8 then none
  else
    let ulen := (u16At frame (l4+4)).toNat
    if ulen < 8 then none
    else if frame.length < l4+8+(ulen-8) then none
    else some (u16At frame l4,u16At frame (l4+2),(frame.drop (l4+8)).take (ulen-8))

/-- What a frame holds for this layer; segments and datagrams of the sockets go to their own
table. -/
inductive Inbound where
  | dhcp (pkt : List UInt8)
  | dns (pkt : List UInt8)
  | echoReply (id : UInt16) (dst : Ip)
  | arpRequest (sha : Mac) (spa tpa : Ip)
  | arpReply (sha : Mac) (spa : Ip)
  | other
  deriving DecidableEq

def classifyUdp (l4 : ℕ) : Inbound :=
  match udpPayload frame l4 with
  | none => .other
  | some (sport,dport,payload) =>
    if sport = dhcpServerPort ∧ dport = dhcpClientPort then .dhcp payload
    else if sport = dnsPort ∧ dport = dnsSrcPort then .dns payload
    else .other

def classifyIpv4 : Inbound :=
  match ipv4Header frame with
  | none => .other
  | some (proto,l4) =>
    if proto = protoIcmp then
      if frame.length < l4+8 ∨ frame.getD l4 0 ≠ icmpReply then .other
      else .echoReply (u16At frame (l4+4)) (ipAt frame 30)
    else if proto = protoUdp then classifyUdp frame l4
    else .other

def classifyArp : Inbound :=
  if frame.length < 42 then .other
  else
    let op := u16At frame 20
    let sha := (frame.drop 22).take 6
    if op = 1 then .arpRequest sha (ipAt frame 28) (ipAt frame 38)
    else if op = 2 then .arpReply sha (ipAt frame 28)
    else .other

def classify : Inbound :=
  if frame.length < 14 then .other
  else
    let ethertype := u16At frame 12
    if ethertype = ethertypeArp then classifyArp frame
    else if ethertype = ethertypeIpv4 then classifyIpv4 frame
    else .other

end
end Aios.Kernel.Net
