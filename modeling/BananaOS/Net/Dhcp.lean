import BananaOS.Lib.Serial
import BananaOS.Net.Input


/-!
# The DHCP client

`net/dhcp.c`: DISCOVER, OFFER, REQUEST, ACK, then renewing at T1, rebinding at T2 and expiry.  Time is in
milliseconds and does not wrap here; what the client reads of it is `timerMs`, which does.  A function
that reads the clock twice has both times as arguments.

The client keeps no history, so the model does: `sent` and `acks` are what was sent and which ACKs were
accepted, with their times, the newest first.  No code reads them.  The ARP requests and flushes of the
source and its log are left out.
-/

namespace BananaOS.Net

open Lib

/-- `timer_ms()` -/
def timerMs (t : ℕ) : Serial := BitVec.ofNat 32 t

def msgDiscover : ℕ := 1
def msgOffer : ℕ := 2
def msgRequest : ℕ := 3
def msgAck : ℕ := 5
def msgNak : ℕ := 6

def dhcpMagic : ℕ := 0x63825363

/-- `dhcp_state_t` -/
inductive DhcpState where
  | idle
  | selecting
  | requesting
  | bound
  | renewing
  | rebinding
  deriving DecidableEq

/-- What `send_msg` puts into a packet, and where it goes. -/
structure DhcpMsg where
  type : ℕ
  xid : ℕ
  broadcast : Bool
  ciaddr : ℕ
  requested : Option ℕ
  server : Option ℕ
  dst : ℕ
  deriving DecidableEq

structure Dhcp where
  /-- `netif_t`: is there a card, its address, and the addresses in use. -/
  dev : Bool
  mac : List UInt8
  ip : ℕ
  netmask : ℕ
  gateway : ℕ
  dns : ℕ
  dhcpServer : ℕ
  leaseS : ℕ
  boundMs : Serial
  dhcp : Bool
  configured : Bool
  state : DhcpState
  xid : ℕ
  /-- The next retransmission. -/
  nextMs : Serial
  backoffMs : ℕ
  leaseTickMs : Serial
  elapsedMs : ℕ
  t1Ms : ℕ
  t2Ms : ℕ
  expireMs : ℕ
  isInfinite : Bool
  offerIp : ℕ
  offerServer : ℕ
  boundOnce : Bool
  /-- Every message sent, and when. -/
  sent : List (ℕ × DhcpMsg)
  /-- Every ACK accepted: when, and for how many seconds. -/
  acks : List (ℕ × ℕ)

/-! ## Sending -/

/-- `g_state == D_RENEWING || g_state == D_REBINDING` -/
def Dhcp.renews (s : Dhcp) : Bool := s.state == .renewing || s.state == .rebinding

/-- `send_msg` -/
def Dhcp.sendMsg (s : Dhcp) (t type requested server : ℕ) : Dhcp :=
  let msg : DhcpMsg := {
    type
    xid := s.xid
    broadcast := s.state != .renewing
    ciaddr := if s.renews then s.ip else 0
    requested := if requested ≠ 0 ∧ s.renews = false then some requested else none
    server := if server ≠ 0 ∧ s.renews = false then some server else none
    dst := if s.state = .renewing ∧ s.dhcpServer ≠ 0 then s.dhcpServer else ip4Broadcast }
  { s with sent := (t, msg) :: s.sent }

/-- `start_discover` at a time, with what `random_u32` gives. -/
def Dhcp.startDiscover (s : Dhcp) (t rnd : ℕ) : Dhcp :=
  ({ s with
    state := .selecting, xid := rnd, backoffMs := 1000, nextMs := timerMs t + BitVec.ofNat 32 1000
    isInfinite := false } : Dhcp).sendMsg t msgDiscover 0 0

def Dhcp.dhcpStart (s : Dhcp) (t rnd : ℕ) : Dhcp :=
  if s.dev = false then s
  else ({ s with configured := false, dhcp := true } : Dhcp).startDiscover t rnd

/-! ## What comes in -/

/-- The options of a packet that the client looks at, 0 for those it does not have. -/
structure DhcpOpts where
  type : ℕ
  mask : ℕ
  router : ℕ
  dns : ℕ
  lease : ℕ
  server : ℕ
  t1 : ℕ
  t2 : ℕ

/-- The option `opt` of `olen` bytes with its value at `v`. -/
def DhcpOpts.set (o : DhcpOpts) (p : Bytes) (opt olen v : ℕ) : DhcpOpts :=
  if opt = 53 ∧ 1 ≤ olen then { o with type := (p v).toNat }
  else if opt = 1 ∧ 4 ≤ olen then { o with mask := rd32 p v }
  else if opt = 3 ∧ 4 ≤ olen then { o with router := rd32 p v }
  else if opt = 6 ∧ 4 ≤ olen then { o with dns := rd32 p v }
  else if opt = 51 ∧ 4 ≤ olen then { o with lease := rd32 p v }
  else if opt = 54 ∧ 4 ≤ olen then { o with server := rd32 p v }
  else if opt = 58 ∧ 4 ≤ olen then { o with t1 := rd32 p v }
  else if opt = 59 ∧ 4 ≤ olen then { o with t2 := rd32 p v }
  else o

/-- The options from `i` on, at least one byte a round. -/
def optionsLoop (p : Bytes) (len : ℕ) : ℕ → ℕ → DhcpOpts → DhcpOpts
  | 0, _, o => o
  | k + 1, i, o =>
    if len ≤ i then o
    else if p i = 255 then o
    else if p i = 0 then optionsLoop p len k (i + 1) o
    else if len ≤ i + 1 then o
    else if len < i + 2 + (p (i + 1)).toNat then o
    else optionsLoop p len k (i + 2 + (p (i + 1)).toNat) (o.set p (p i).toNat (p (i + 1)).toNat (i + 2))

def dhcpOptions (p : Bytes) (len : ℕ) : DhcpOpts := optionsLoop p len len 240 ⟨0, 0, 0, 0, 0, 0, 0, 0⟩

/-- T1 and T2 of a lease, from the options: halves and eighths where they make no sense. -/
def leaseTimes (leaseMs t1Ms t2Ms : ℕ) : ℕ × ℕ :=
  let t1 := if t1Ms = 0 ∨ leaseMs ≤ t1Ms then leaseMs / 2 else t1Ms
  let t2 := if t2Ms = 0 ∨ t2Ms ≤ t1 ∨ leaseMs ≤ t2Ms then leaseMs * 7 / 8 else t2Ms
  if t2 ≤ t1 then (leaseMs / 2, leaseMs * 7 / 8) else (t1, t2)

/-- `nif->lease_s` of an ACK. -/
def DhcpOpts.leaseS (o : DhcpOpts) : ℕ := if o.lease ≠ 0 then o.lease else 3600

/-- The timers of a lease, unless it never ends. -/
def Dhcp.setTimers (s : Dhcp) (o : DhcpOpts) : Dhcp :=
  if o.leaseS = 0xFFFFFFFF then { s with isInfinite := true }
  else
    let leaseMs := o.leaseS * 1000
    { s with
      isInfinite := false
      t1Ms := (leaseTimes leaseMs (o.t1 * 1000) (o.t2 * 1000)).1
      t2Ms := (leaseTimes leaseMs (o.t1 * 1000) (o.t2 * 1000)).2
      expireMs := leaseMs }

/-- An ACK is accepted. -/
def Dhcp.acked (s : Dhcp) (t yiaddr : ℕ) (o : DhcpOpts) : Dhcp :=
  { ({ s with
      ip := yiaddr
      netmask := if o.mask ≠ 0 then o.mask else 0xFFFFFF00
      gateway := o.router
      dns := if o.dns ≠ 0 then o.dns else s.dns
      dhcpServer := if o.server ≠ 0 then o.server else s.offerServer
      leaseS := o.leaseS
      dhcp := true
      configured := true
      boundMs := timerMs t
      state := .bound
      leaseTickMs := timerMs t
      elapsedMs := 0
      acks := (t, o.leaseS) :: s.acks } : Dhcp).setTimers o with
    boundOnce := true }

/-- `g_state == D_REQUESTING || g_state == D_RENEWING || g_state == D_REBINDING` -/
def Dhcp.asks (s : Dhcp) : Bool := s.state == .requesting || s.renews

/-- The packet is a reply to this client. -/
def Dhcp.isReply (s : Dhcp) (p : Bytes) (len : ℕ) : Bool :=
  decide (240 ≤ len) && p 0 == 2 && rd32 p 4 == s.xid && (List.range 6).map (fun i => p (28 + i)) == s.mac &&
    rd32 p 236 == dhcpMagic

/-- `on_packet` -/
def Dhcp.onPacket (s : Dhcp) (t rnd : ℕ) (p : Bytes) (len : ℕ) : Dhcp :=
  if s.isReply p len then
    let yiaddr := rd32 p 16
    let o := dhcpOptions p len
    if o.type = msgOffer ∧ s.state = .selecting then
      ({ s with
        offerIp := yiaddr, offerServer := o.server, state := .requesting, backoffMs := 1000
        nextMs := timerMs t + BitVec.ofNat 32 1000 } : Dhcp).sendMsg t msgRequest yiaddr o.server
    else if o.type = msgAck ∧ s.asks then s.acked t yiaddr o
    else if o.type = msgNak ∧ s.asks then ({ s with configured := false } : Dhcp).startDiscover t rnd
    else s
  else s

/-! ## The timer -/

/-- `g_state == D_BOUND || g_state == D_RENEWING || g_state == D_REBINDING` -/
def Dhcp.leased (s : Dhcp) : Bool := s.state == .bound || s.renews

/-- The elapsed time is brought up to now. -/
def Dhcp.tick (s : Dhcp) (t : ℕ) : Dhcp :=
  { s with
    elapsedMs := (s.elapsedMs + (timerMs t - s.leaseTickMs).toNat) % 2 ^ 64
    leaseTickMs := timerMs t }

/-- A REQUEST for the address that is leased, with the shortest backoff. -/
def Dhcp.askAgain (s : Dhcp) (t : ℕ) (state : DhcpState) (xid : ℕ) : Dhcp :=
  ({ s with state, xid, backoffMs := 1000, nextMs := timerMs t + BitVec.ofNat 32 1000 } : Dhcp).sendMsg t
    msgRequest 0 0

/-- `if (g_backoff_ms < 16000) g_backoff_ms *= 2; g_next_ms = now + g_backoff_ms;` -/
def Dhcp.backOff (s : Dhcp) (t : ℕ) : Dhcp :=
  let backoffMs := if s.backoffMs < 16000 then s.backoffMs * 2 else s.backoffMs
  { s with backoffMs, nextMs := timerMs t + BitVec.ofNat 32 backoffMs }

/-- The last request once more; a lost REQUEST for an offer restarts. -/
def Dhcp.retransmit (s : Dhcp) (t t' rnd : ℕ) : Dhcp :=
  match s.state with
  | .selecting => (s.backOff t).sendMsg t msgDiscover 0 0
  | .requesting =>
    if 8000 < (s.backOff t).backoffMs then (s.backOff t).startDiscover t' rnd
    else (s.backOff t).sendMsg t msgRequest s.offerIp s.offerServer
  | .renewing | .rebinding => (s.backOff t).sendMsg t msgRequest 0 0
  | _ => s

/-- `dhcp_timer` behind the expiry. -/
def Dhcp.timers (s : Dhcp) (t t' rnd : ℕ) : Dhcp :=
  if s.state = .bound then
    if s.isInfinite then s
    else if s.t1Ms ≤ s.elapsedMs then
      s.askAgain t (if s.t2Ms ≤ s.elapsedMs then .rebinding else .renewing) rnd
    else s
  else if s.state = .renewing ∧ s.t2Ms ≤ s.elapsedMs then s.askAgain t .rebinding s.xid
  else if Serial.lt (timerMs t) s.nextMs then s
  else s.retransmit t t' rnd

/-- `dhcp_timer`, called at `t`; if it starts over, it reads the clock again at `t'`. -/
def Dhcp.dhcpTimer (s : Dhcp) (t t' rnd : ℕ) : Dhcp :=
  if s.state = .idle then s
  else if s.isInfinite = false ∧ s.leased ∧ s.expireMs ≤ (s.tick t).elapsedMs then
    ({ s.tick t with configured := false } : Dhcp).startDiscover t' rnd
  else (s.tick t).timers t t' rnd

end BananaOS.Net
