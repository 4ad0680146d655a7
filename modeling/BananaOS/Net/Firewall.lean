import Mathlib.Algebra.Order.Ring.Nat
import Mathlib.Logic.Function.Basic
import Mathlib.Tactic.Common

/-!
# The host firewall

The settings and tables of `net/firewall.c`, and what else of the network's state decides where a
packet from a card ends up: the addresses of the machine, the bound UDP ports, the TCP listeners
and connections.

UDP answers are let in by a table of the ports that were sent from, with the time of the last
sending in milliseconds of a 32-bit clock.  The clock of the model does not wrap (`now`), and the
ports sent from are remembered with their times (`sent`), so that what the table says can be
compared with what happened.
-/

namespace BananaOS.Net

/-! ## Limits -/

def udpOut : ℕ := 32
def udpOutMs : ℕ := 5 * 60 * 1000
def udpBindings : ℕ := 32
def tcpMaxConn : ℕ := 64
def tcpMaxListen : ℕ := 16
def tcpBacklog : ℕ := 8

/-! ## The state -/

/-- An address: IPv4 as a number, IPv6 as its 16 bytes. -/
inductive Addr where
  | v4 (ip : ℕ)
  | v6 (ip : List UInt8)
  deriving DecidableEq

def Addr.isV6 : Addr → Bool
  | v4 _ => false
  | v6 _ => true

/-- An entry of `g_out`: a port sent from, and when (`timer_ms()`, never 0). -/
structure OutEntry where
  port : ℕ
  ms : ℕ

structure Listener where
  used : Bool
  ipv6 : Bool
  port : ℕ

/-- What finding a connection and counting a listener's backlog needs of `tcp_conn_t`. -/
structure Conn where
  used : Bool
  closed : Bool
  rip : Addr
  /-- `lip6`; IPv4 connections do not look at it. -/
  lip : Addr
  lport : ℕ
  rport : ℕ
  listener : Option ℕ

structure Host where
  /-- `netif_t` -/
  configured : Bool
  ip : ℕ
  netmask : ℕ
  /-- `ipv6.c`: on, the link-local address, the global one. -/
  ipv6On : Bool
  ll : List UInt8
  global : Option (List UInt8)
  /-- `firewall.c` -/
  on : Bool
  ping : Bool
  tcp : List ℕ
  udp : List ℕ
  out : ℕ → OutEntry
  blocked : ℕ
  /-- The ports bound for IPv4 and for IPv6, `none` being a free slot. -/
  bind : ℕ → Option ℕ
  bind6 : ℕ → Option ℕ
  listeners : ℕ → Listener
  conns : ℕ → Conn
  /-- Milliseconds since the start. -/
  now : ℕ
  /-- Every port that was sent from, with the time.  No code reads it. -/
  sent : List (ℕ × ℕ)

def Host.timerMs (s : Host) : ℕ := s.now % 2 ^ 32

/-! ## The firewall's questions -/

/-- `fw_in_tcp`: a packet that opens a connection needs its port allowed. -/
def Host.fwInTcp (s : Host) (dport : ℕ) (synOnly : Bool) : Host × Bool :=
  if s.on = false ∨ synOnly = false ∨ dport ∈ s.tcp then (s, true)
  else ({ s with blocked := s.blocked + 1 }, false)

/-- The table has a port that was sent from in the last minutes. -/
def Host.answers (s : Host) (dport : ℕ) : Bool :=
  (List.range udpOut).any fun i =>
    (s.out i).port == dport && (s.out i).ms != 0 &&
      decide ((s.timerMs + 2 ^ 32 - (s.out i).ms) % 2 ^ 32 < udpOutMs)

/-- `fw_in_udp` -/
def Host.fwInUdp (s : Host) (dport : ℕ) : Host × Bool :=
  if s.on = false ∨ dport ∈ s.udp then (s, true)
  else if s.answers dport then (s, true)
  else if dport = 68 then (s, true)
  else ({ s with blocked := s.blocked + 1 }, false)

/-- `fw_in_ping` -/
def Host.fwInPing (s : Host) : Host × Bool :=
  if s.on = false ∨ s.ping then (s, true) else ({ s with blocked := s.blocked + 1 }, false)

/-! ## Ports sent from -/

/-- The loop of `fw_out_udp`: the entry of the port, else the oldest; from `i` on, `k` being the
oldest so far. -/
def outSlot (out : ℕ → OutEntry) (sport : ℕ) : ℕ → ℕ → ℕ → ℕ
  | 0, _, k => k
  | n + 1, i, k =>
    if (out i).port = sport then i
    else outSlot out sport n (i + 1) (if (out i).ms < (out k).ms then i else k)

/-- The time as the table has it: 0 is for a free entry. -/
def stamp (t : ℕ) : ℕ := if t % 2 ^ 32 ≠ 0 then t % 2 ^ 32 else 1

/-- `fw_out_udp` -/
def Host.fwOutUdp (s : Host) (sport : ℕ) : Host :=
  { s with
    out := Function.update s.out (outSlot s.out sport udpOut 0 0) ⟨sport, stamp s.now⟩
    sent := (sport, s.now) :: s.sent }

/-! ## What the table knows -/

/-- Every entry in use is a port that was sent from at the time it says, up to the clock's
wrapping. -/
def Host.Known (s : Host) : Prop :=
  (∀ i, (s.out i).ms ≠ 0 → ∃ t, ((s.out i).port, t) ∈ s.sent ∧ (s.out i).ms = stamp t) ∧
    ∀ p ∈ s.sent, p.2 ≤ s.now

theorem Host.Known.fwOutUdp {s : Host} (h : s.Known) (sport : ℕ) : (s.fwOutUdp sport).Known := by
  refine ⟨fun i hi => ?_, ?_⟩
  · by_cases hk : i = outSlot s.out sport udpOut 0 0
    · subst hk
      exact ⟨s.now, by simp [Host.fwOutUdp], by simp [Host.fwOutUdp]⟩
    · simp only [Host.fwOutUdp, Function.update_of_ne hk] at hi ⊢
      obtain ⟨t, ht, hms⟩ := h.1 i hi
      exact ⟨t, List.mem_cons_of_mem _ ht, hms⟩
  · intro p hp
    rcases List.mem_cons.mp hp with rfl | hp
    · exact Nat.le_refl _
    · exact h.2 p hp

/-- A port was sent from in the last five minutes. -/
def Host.Recent (s : Host) (port : ℕ) : Prop :=
  ∃ t, (port, t) ∈ s.sent ∧ s.now ≤ t + udpOutMs

/-- A port was sent from so long ago that the 32-bit clock has wrapped since. -/
def Host.Wrapped (s : Host) (port : ℕ) : Prop :=
  ∃ t, (port, t) ∈ s.sent ∧ t + 2 ^ 32 ≤ s.now

/-- Short of a wrap of the clock, a port the table answers for was sent from recently. -/
theorem Host.Known.of_answers {s : Host} (h : s.Known) {port : ℕ} (ha : s.answers port = true) :
    s.Recent port ∨ s.Wrapped port := by
  obtain ⟨i, -, hi⟩ := List.any_eq_true.mp ha
  simp only [Bool.and_eq_true, beq_iff_eq, bne_iff_ne, ne_eq, decide_eq_true_eq] at hi
  obtain ⟨⟨hport, hms⟩, hage⟩ := hi
  obtain ⟨t, ht, hstamp⟩ := h.1 i hms
  rw [hport] at ht
  have hle : t ≤ s.now := h.2 _ ht
  by_cases hwrap : t + 2 ^ 32 ≤ s.now
  · exact .inr ⟨t, ht, hwrap⟩
  · refine .inl ⟨t, ht, ?_⟩
    rw [hstamp, Host.timerMs, stamp] at hage
    unfold udpOutMs at hage ⊢
    split_ifs at hage <;> omega

end BananaOS.Net
