import BananaOS.Lib.Bytes
import BananaOS.Net.Firewall

/-!
# From a card to a socket

The way of a frame through `net_rx`, `ip_rx` or `ipv6_input`, the firewall, and `tcp_input`,
`udp_rx` or `udp6_rx`.  Both versions of IP find a `Datagram` in the packet or drop it, ask the
firewall unless the source is one of the machine's own addresses, and hand it to its protocol.

What counts of a protocol's part is what it does for the sender (`Effect`): a connection is made
for a SYN that a listener takes, a UDP datagram goes to the handler of its port.  ICMP and the
packets of connections that exist do neither.
-/

namespace BananaOS.Net

open Lib

/-- A pointer into a packet. -/
abbrev Bytes := ℕ → UInt8

/-- `p + n` -/
def Bytes.from (p : Bytes) (n : ℕ) : Bytes := fun i => p (n + i)

def rd16 (p : Bytes) (o : ℕ) : ℕ := getBE p o 2

def rd32 (p : Bytes) (o : ℕ) : ℕ := getBE p o 4

def ip6At (p : Bytes) (o : ℕ) : List UInt8 := (List.range 16).map fun i => p (o + i)

/-! ## Checksums -/

/-- `net_csum_add`, in `uint32_t` arithmetic. -/
def netCsumAdd (sum : ℕ) (p : Bytes) : ℕ → ℕ
  | 0 => sum
  | 1 => (sum + (p 0).toNat * 256) % 2 ^ 32
  | n + 2 => netCsumAdd ((sum + rd16 p 0) % 2 ^ 32) (p.from 2) n

/-- `net_csum_fold`; the carries of a 32-bit sum are in after three rounds. -/
def netCsumFold (sum : ℕ) : ℕ :=
  let fold := fun s => if 2 ^ 16 ≤ s then s % 2 ^ 16 + s / 2 ^ 16 else s
  0xFFFF - fold (fold (fold sum))

def netChecksum (p : Bytes) (len : ℕ) : ℕ := netCsumFold (netCsumAdd 0 p len)

/-- The bytes of a list, then zeros. -/
def Bytes.ofList (l : List UInt8) : Bytes := fun i => l.getD i 0

/-- The pseudo header that TCP's and UDP's checksums begin with. -/
def pseudoHeader (src dst : Addr) (proto len : ℕ) : List UInt8 :=
  match src, dst with
  | .v4 a, .v4 b =>
    (List.range 12).map (putBE (putBE (putBE (putBE (fun _ => 0) 0 4 a) 4 4 b) 9 1 proto) 10 2 len)
  | .v6 a, .v6 b => a ++ b ++ (List.range 8).map (putBE (putBE (fun _ => 0) 0 4 len) 7 1 proto)
  | _, _ => []

/-- The checksum of a message with its pseudo header (`ip6_checksum`, and the lines of `udp_rx`
and `tcp_input` for IPv4). -/
def messageChecksum (src dst : Addr) (proto : ℕ) (m : Bytes) (len : ℕ) : ℕ :=
  let ph := pseudoHeader src dst proto len
  netCsumFold (netCsumAdd (netCsumAdd 0 (Bytes.ofList ph) ph.length) m len)

/-! ## What a packet does -/

def ipProtoIcmp : ℕ := 1
def ipProtoTcp : ℕ := 6
def ipProtoUdp : ℕ := 17

structure Datagram where
  src : Addr
  dst : Addr
  proto : ℕ
  m : Bytes
  len : ℕ

inductive Effect where
  /-- A connection to this port is made, in `SYN_RCVD`. -/
  | opened (port : ℕ)
  /-- A datagram is handed to what is bound to this port. -/
  | delivered (port : ℕ)
  deriving DecidableEq

/-! ## UDP -/

/-- The slots of a table of bound ports that have `port`. -/
def bound (bind : ℕ → Option ℕ) (port : ℕ) : Bool :=
  (List.range udpBindings).any fun i => bind i == some port

/-- `udp_rx` -/
def Host.udpRx (s : Host) (d : Datagram) : Option Effect :=
  if d.len < 8 then none
  else
    let ulen := rd16 d.m 4
    if ulen < 8 ∨ d.len < ulen then none
    else if rd16 d.m 6 ≠ 0 ∧ messageChecksum d.src d.dst ipProtoUdp d.m ulen ≠ 0 then none
    else if bound s.bind (rd16 d.m 2) then some (.delivered (rd16 d.m 2)) else none

/-- `udp6_rx` -/
def Host.udp6Rx (s : Host) (d : Datagram) : Option Effect :=
  if s.ipv6On = false ∨ d.len < 8 then none
  else
    let n := rd16 d.m 4
    if n < 8 ∨ d.len < n ∨ rd16 d.m 2 = 0 ∨ rd16 d.m 6 = 0 ∨
        messageChecksum d.src d.dst ipProtoUdp d.m n ≠ 0 then none
    else if bound s.bind6 (rd16 d.m 2) then some (.delivered (rd16 d.m 2)) else none

/-! ## TCP -/

/-- The flags a segment has set. -/
def fSyn : ℕ := 0x02
def fRst : ℕ := 0x04
def fAck : ℕ := 0x10

/-- The connection a segment belongs to. -/
def Host.findConn (s : Host) (d : Datagram) (sport dport : ℕ) : Option ℕ :=
  (List.range tcpMaxConn).find? fun i =>
    let k := s.conns i
    k.used && !k.closed && k.lport == dport && k.rport == sport && k.rip == d.src &&
      (!d.src.isV6 || k.lip == d.dst)

/-- The listener of a port. -/
def Host.findListener (s : Host) (v6 : Bool) (port : ℕ) : Option ℕ :=
  (List.range tcpMaxListen).find? fun i =>
    (s.listeners i).used && (s.listeners i).ipv6 == v6 && (s.listeners i).port == port

/-- Connections of a listener that nobody has accepted yet. -/
def Host.pending (s : Host) (l : ℕ) : ℕ :=
  (List.range tcpMaxConn).countP fun i =>
    (s.conns i).used && (s.conns i).listener == some l && !(s.conns i).closed

/-- `passive_open`; `mem` says whether the heap has room for a connection's buffers. -/
def Host.passiveOpen (s : Host) (d : Datagram) (sport dport : ℕ) (mem : Bool) :
    Host × Option Effect :=
  match s.findListener d.src.isV6 dport with
  | none => (s, none)
  | some l =>
    if tcpBacklog ≤ s.pending l then (s, none)
    else
      match (List.range tcpMaxConn).find? fun i => !(s.conns i).used with
      | none => (s, none)
      | some i =>
        if mem = false then (s, none)
        else
          let c : Conn := ⟨true, false, d.src, d.dst, dport, sport, some l⟩
          ({ s with conns := Function.update s.conns i c }, some (.opened dport))

/-- `tcp_input`, up to what a segment does to a connection that exists. -/
def Host.tcpInput (s : Host) (d : Datagram) (mem : Bool) : Host × Option Effect :=
  if d.len < 20 then (s, none)
  else if d.src.isV6 ∧ s.ipv6On = false then (s, none)
  else if messageChecksum d.src d.dst ipProtoTcp d.m d.len ≠ 0 then (s, none)
  else
    let sport := rd16 d.m 0
    let dport := rd16 d.m 2
    let hl := (d.m 12).toNat / 16 * 4
    let flags := (d.m 13).toNat
    if hl < 20 ∨ d.len < hl then (s, none)
    else
      match s.findConn d sport dport with
      | some _ => (s, none)
      | none =>
        if flags &&& (fSyn ||| fAck ||| fRst) = fSyn then s.passiveOpen d sport dport mem
        else (s, none)

/-! ## IPv4 -/

def ip4Broadcast : ℕ := 0xFFFFFFFF

/-- The packets for this machine. -/
def Host.forUs4 (s : Host) (dst : ℕ) : Bool :=
  dst == ip4Broadcast || !s.configured || dst == s.ip || dst / 2 ^ 24 == 127 ||
    (s.netmask != 0 && dst == ((s.ip &&& s.netmask) ||| (0xFFFFFFFF - s.netmask)))

/-- The part of `ip_rx` before the firewall. -/
def Host.ip4Parse (s : Host) (p : Bytes) (len : ℕ) : Option Datagram :=
  if len < 20 ∨ (p 0).toNat / 16 ≠ 4 then none
  else
    let ihl := (p 0).toNat % 16 * 4
    let total := rd16 p 2
    if ihl < 20 ∨ total < ihl ∨ len < total then none
    else if netChecksum p ihl ≠ 0 then none
    else if rd16 p 6 &&& 0x2000 ≠ 0 ∨ rd16 p 6 &&& 0x1FFF ≠ 0 then none
    else
      let dst := rd32 p 16
      if s.forUs4 dst = false then none
      else some ⟨.v4 (rd32 p 12), .v4 dst, (p 9).toNat, p.from ihl, total - ihl⟩

/-! ## IPv6 -/

def loopback6 : List UInt8 := [0, 0, 0, 0, 0, 0, 0, 0, 0, 0, 0, 0, 0, 0, 0, 1]
def allNodes : List UInt8 := [0xff, 0x02, 0, 0, 0, 0, 0, 0, 0, 0, 0, 0, 0, 0, 0, 1]
def zero6 : List UInt8 := List.replicate 16 0

def isMcast (a : List UInt8) : Bool := a.getD 0 0 == 0xff

/-- `is_ours` -/
def Host.isOurs (s : Host) (a : List UInt8) : Bool :=
  a == loopback6 || a == s.ll || some a == s.global || a == allNodes ||
    (a.getD 0 0 == 0xff && a.getD 1 0 == 0x02 && a.getD 11 0 == 1 && a.getD 12 0 == 0xff &&
      a.getD 13 0 == s.ll.getD 13 0 && a.getD 14 0 == s.ll.getD 14 0 &&
      a.getD 15 0 == s.ll.getD 15 0)

/-- The options of a hop-by-hop or destination header, from `o` on. -/
def optionsOk (m : Bytes) (h : ℕ) : ℕ → ℕ → Bool
  | 0, _ => true
  | n + 1, o =>
    if h ≤ o then true
    else if m o = 0 then optionsOk m h n (o + 1)
    else if h < o + 2 ∨ h < o + 2 + (m (o + 1)).toNat ∨ (m o).toNat &&& 0xC0 ≠ 0 then false
    else optionsOk m h n (o + 2 + (m (o + 1)).toNat)

/-- The walk over the extension headers, at most eight; none when a packet is dropped there. -/
def extHeaders : ℕ → ℕ → Bytes → ℕ → Option (ℕ × Bytes × ℕ)
  | n, nh, m, plen =>
    if nh = 0 ∨ nh = 60 ∨ nh = 43 ∨ nh = 44 then
      match n with
      | 0 => none
      | n + 1 =>
        if plen < 8 then none
        else
          let h := if nh = 44 then 8 else ((m 1).toNat + 1) * 8
          if plen < h then none
          else if nh = 44 ∧ rd16 m 2 &&& 0xFFF9 ≠ 0 then none
          else if nh = 43 ∧ m 3 ≠ 0 then none
          else if (nh = 0 ∨ nh = 60) ∧ optionsOk m h h 2 = false then none
          else extHeaders n (m 0).toNat (m.from h) (plen - h)
    else some (nh, m, plen)

/-- The part of `ipv6_input` before the firewall, for a packet from a card. -/
def Host.ip6Parse (s : Host) (p : Bytes) (len : ℕ) : Option Datagram :=
  if s.ipv6On = false ∨ len < 40 ∨ (p 0).toNat / 16 ≠ 6 then none
  else
    let plen := rd16 p 4
    if len < 40 + plen then none
    else
      let src := ip6At p 8
      let dst := ip6At p 24
      if src = loopback6 ∨ dst = loopback6 then none
      else if p 7 = 0 ∨ isMcast src then none
      else if s.isOurs dst = false then none
      else
        match extHeaders 8 (p 6).toNat (p.from 40) plen with
        | none => none
        | some (nh, m, plen) =>
          if (nh = ipProtoTcp ∨ nh = ipProtoUdp) ∧ (src = zero6 ∨ isMcast dst) then none
          else some ⟨.v6 src, .v6 dst, nh, m, plen⟩

/-! ## The firewall's place -/

/-- The source is one of the machine's own addresses: the firewall is not asked. -/
def Host.isLocal (s : Host) : Addr → Bool
  | .v4 ip => ip / 2 ^ 24 == 127 || (s.configured && ip == s.ip)
  | .v6 ip => ip == loopback6 || ip == s.ll || some ip == s.global

/-- What `ip_rx` asks the firewall. -/
def Host.filter4 (s : Host) (d : Datagram) : Host × Bool :=
  if d.proto = ipProtoTcp ∧ 14 ≤ d.len then
    s.fwInTcp (rd16 d.m 2) ((d.m 13).toNat &&& 0x12 == 0x02)
  else if d.proto = ipProtoUdp ∧ 8 ≤ d.len then s.fwInUdp (rd16 d.m 2)
  else if d.proto = ipProtoIcmp ∧ 1 ≤ d.len ∧ d.m 0 = 8 then s.fwInPing
  else (s, true)

/-- What `ipv6_input` asks the firewall before TCP and UDP. -/
def Host.filter6 (s : Host) (d : Datagram) : Host × Bool :=
  if d.proto = ipProtoTcp ∧ 20 ≤ d.len then
    s.fwInTcp (rd16 d.m 2) ((d.m 13).toNat &&& 0x12 == 0x02)
  else if d.proto = ipProtoUdp ∧ 8 ≤ d.len then s.fwInUdp (rd16 d.m 2)
  else (s, true)

/-- An address of 127.0.0.0/8. -/
def Addr.is127 : Addr → Bool
  | v4 ip => ip / 2 ^ 24 == 127
  | v6 _ => false

/-- The protocol's part: TCP and UDP. -/
def Host.dispatch4 (s : Host) (d : Datagram) (mem : Bool) : Host × Option Effect :=
  if d.proto = ipProtoUdp then (s, s.udpRx d)
  else if d.proto = ipProtoTcp ∧ (s.configured ∨ d.dst.is127) then s.tcpInput d mem
  else (s, none)

def Host.dispatch6 (s : Host) (d : Datagram) (mem : Bool) : Host × Option Effect :=
  if d.proto = ipProtoTcp then s.tcpInput d mem
  else if d.proto = ipProtoUdp then (s, s.udp6Rx d)
  else (s, none)

/-- The source's IP version decides between the two. -/
def Host.filter (s : Host) (d : Datagram) : Host × Bool :=
  if d.src.isV6 then s.filter6 d else s.filter4 d

def Host.dispatch (s : Host) (d : Datagram) (mem : Bool) : Host × Option Effect :=
  if d.src.isV6 then s.dispatch6 d mem else s.dispatch4 d mem

/-- What `ip_rx` and `ipv6_input` do with a packet they accept. -/
def Host.accept (s : Host) (d : Datagram) (mem : Bool) : Host × Option Effect :=
  if s.on ∧ s.isLocal d.src = false then
    match s.filter d with
    | (s, false) => (s, none)
    | (s, true) => s.dispatch d mem
  else s.dispatch d mem

/-! ## A frame from a card -/

def ethTypeIp : ℕ := 0x0800
def ethTypeIp6 : ℕ := 0x86DD

/-- `net_rx` up to the firewall, for a frame of the active card: the datagram in it. -/
def Host.parse (s : Host) (frame : Bytes) (len : ℕ) : Option Datagram :=
  if len < 14 then none
  else if rd16 frame 12 = ethTypeIp then
    if 34 ≤ len ∧ (frame 26 = 127 ∨ frame 30 = 127) then none
    else s.ip4Parse (frame.from 14) (len - 14)
  else if rd16 frame 12 = ethTypeIp6 then
    if 54 ≤ len ∧ (ip6At frame 22 = loopback6 ∨ ip6At frame 38 = loopback6) then none
    else s.ip6Parse (frame.from 14) (len - 14)
  else none

/-- `net_rx`: ARP aside. -/
def Host.netRx (s : Host) (frame : Bytes) (len : ℕ) (mem : Bool) : Host × Option Effect :=
  match s.parse frame len with
  | none => (s, none)
  | some d => s.accept d mem

end BananaOS.Net
