import BananaOS.Net.Input

/-!
# What the firewall lets in

The firewall looks at a packet's ports and flags before TCP and UDP do, in its own words: it takes
a segment for an opening one by two of the three flags `tcp_input` looks at, and it reads the
ports of what is long enough.  `dispatch_effect` says that whatever TCP or UDP then does is one of
the things that the firewall was asked about, so a packet that was looked at does what is
permitted only.

Two ways lead past that.  A packet whose source is an address of the machine itself is not looked
at, and nothing keeps a card from delivering one.  And the table of the ports sent from keeps
entries until they are replaced, so when its 32-bit clock has wrapped an old one looks new.
`firewall_lets_in` says that these are all: exactly then a port is reached that should not be.
-/

namespace BananaOS.Net

open Lib

variable {s t : Host} {d : Datagram} {e : Effect} {mem : Bool}

/-! ## What TCP and UDP do was asked about -/

theorem udpRx_effect (h : s.udpRx d = some e) : 8 ≤ d.len ∧ e = .delivered (rd16 d.m 2) := by
  unfold Host.udpRx at h
  simp only [Option.ite_none_left_eq_some] at h
  obtain ⟨hlen, -, -, h⟩ := h
  split_ifs at h
  exact ⟨by omega, (Option.some.inj h).symm⟩

theorem udp6Rx_effect (h : s.udp6Rx d = some e) : 8 ≤ d.len ∧ e = .delivered (rd16 d.m 2) := by
  unfold Host.udp6Rx at h
  simp only [Option.ite_none_left_eq_some] at h
  obtain ⟨hlen, -, h⟩ := h
  split_ifs at h
  exact ⟨by omega, (Option.some.inj h).symm⟩

/-- Opening a connection changes the connections, and nothing else. -/
theorem passiveOpen_cases (sport dport : ℕ) :
    s.passiveOpen d sport dport mem = (s, none) ∨
      ∃ conns, s.passiveOpen d sport dport mem = ({ s with conns := conns }, some (.opened dport)) := by
  unfold Host.passiveOpen
  cases s.findListener d.src.isV6 dport with
  | none => exact .inl rfl
  | some l =>
    dsimp only
    by_cases hb : tcpBacklog ≤ s.pending l
    · exact .inl (if_pos hb)
    · rw [if_neg hb]
      cases (List.range tcpMaxConn).find? fun i => !(s.conns i).used with
      | none => exact .inl rfl
      | some i =>
        cases mem with
        | false => exact .inl rfl
        | true => exact .inr ⟨_, rfl⟩

/-- What TCP does with a segment, if anything: it opens a connection, for what the firewall takes
for an opening segment. -/
theorem tcpInput_cases :
    s.tcpInput d mem = (s, none) ∨
      20 ≤ d.len ∧ (d.m 13).toNat &&& 0x12 = 0x02 ∧
        ∃ conns, s.tcpInput d mem = ({ s with conns := conns }, some (.opened (rd16 d.m 2))) := by
  unfold Host.tcpInput
  by_cases h1 : d.len < 20
  · exact .inl (if_pos h1)
  rw [if_neg h1]
  by_cases h2 : d.src.isV6 = true ∧ s.ipv6On = false
  · exact .inl (if_pos h2)
  rw [if_neg h2]
  by_cases h3 : messageChecksum d.src d.dst ipProtoTcp d.m d.len ≠ 0
  · exact .inl (if_pos h3)
  rw [if_neg h3]
  dsimp only
  by_cases h4 : (d.m 12).toNat / 16 * 4 < 20 ∨ d.len < (d.m 12).toNat / 16 * 4
  · exact .inl (if_pos h4)
  rw [if_neg h4]
  cases s.findConn d (rd16 d.m 0) (rd16 d.m 2) with
  | some i => exact .inl rfl
  | none =>
    dsimp only
    by_cases h5 : (d.m 13).toNat &&& (fSyn ||| fAck ||| fRst) = fSyn
    · rw [if_pos h5]
      rcases passiveOpen_cases (s := s) (d := d) (rd16 d.m 0) (rd16 d.m 2) with h | h
      · exact .inl h
      · refine .inr ⟨by omega, ?_, h⟩
        have hmask : (0x12 : ℕ) = (fSyn ||| fAck ||| fRst) &&& 0x12 := by decide
        rw [hmask, ← Nat.and_assoc, h5]
        decide
    · exact .inl (if_neg h5)

theorem tcpInput_effect (h : (s.tcpInput d mem).2 = some e) :
    20 ≤ d.len ∧ (d.m 13).toNat &&& 0x12 = 0x02 ∧ e = .opened (rd16 d.m 2) := by
  rcases @tcpInput_cases s d mem with hn | ⟨h1, h2, conns, hc⟩
  · rw [hn] at h
    exact absurd h (by simp)
  · rw [hc] at h
    exact ⟨h1, h2, (Option.some.inj h).symm⟩

/-- What a packet's protocol does is what the firewall is asked about it. -/
theorem dispatch_effect (h : (s.dispatch d mem).2 = some e) :
    (∃ p, e = .opened p ∧ s.filter d = s.fwInTcp p true) ∨
      ∃ p, e = .delivered p ∧ s.filter d = s.fwInUdp p := by
  unfold Host.dispatch Host.dispatch4 Host.dispatch6 at h
  unfold Host.filter Host.filter4 Host.filter6
  by_cases h6 : d.src.isV6 = true
  · simp only [h6, if_true] at h ⊢
    by_cases htcp : d.proto = ipProtoTcp
    · simp only [htcp, if_true, true_and] at h ⊢
      obtain ⟨hlen, hsyn, rfl⟩ := tcpInput_effect h
      exact .inl ⟨_, rfl, by simp [hlen, hsyn]⟩
    · by_cases hudp : d.proto = ipProtoUdp
      · have hne : ipProtoUdp ≠ ipProtoTcp := by decide
        simp only [hudp, hne, if_true, if_false, true_and, false_and] at h ⊢
        obtain ⟨hlen, rfl⟩ := udp6Rx_effect h
        exact .inr ⟨_, rfl, by simp [hlen]⟩
      · simp [htcp, hudp] at h
  · simp only [h6, Bool.false_eq_true, if_false] at h ⊢
    by_cases hudp : d.proto = ipProtoUdp
    · have hne : ipProtoUdp ≠ ipProtoTcp := by decide
      simp only [hudp, hne, if_true, if_false, true_and, false_and] at h ⊢
      obtain ⟨hlen, rfl⟩ := udpRx_effect h
      exact .inr ⟨_, rfl, by simp [hlen]⟩
    · by_cases htcp : d.proto = ipProtoTcp ∧ (s.configured = true ∨ d.dst.is127 = true)
      · simp only [htcp, if_true, true_and] at h ⊢
        obtain ⟨hlen, hsyn, rfl⟩ := tcpInput_effect h
        exact .inl ⟨_, rfl, by simp [show 14 ≤ d.len by omega, hsyn]⟩
      · simp [hudp, htcp] at h

theorem filter_eq (h : (s.filter d).2 = true) : s.filter d = (s, true) := by
  unfold Host.filter Host.filter4 Host.filter6 Host.fwInTcp Host.fwInUdp Host.fwInPing at h ⊢
  split_ifs at h ⊢ <;> rfl

/-! ## Runs -/

/-- What changes the tables the firewall goes by: time, sending, and packets.  Everything else the
machine does (its sockets, settings and addresses) leaves the firewall's UDP table alone. -/
inductive Step : Host → Host → Prop where
  | tick {s : Host} (n : ℕ) : Step s { s with now := s.now + n }
  | send {s : Host} (port : ℕ) : Step s (s.fwOutUdp port)
  | rx {s : Host} (frame : Bytes) (len : ℕ) (mem : Bool) : Step s (s.netRx frame len mem).1
  | other {s t : Host} : t.out = s.out → t.sent = s.sent → t.now = s.now → Step s t

/-- The states from the start of the machine on. -/
inductive Reach : Host → Prop where
  | start {s : Host} : (∀ i, s.out i = ⟨0, 0⟩) → s.sent = [] → Reach s
  | step {s t : Host} : Reach s → Step s t → Reach t

theorem tcpInput_tables :
    (s.tcpInput d mem).1.out = s.out ∧ (s.tcpInput d mem).1.sent = s.sent ∧
      (s.tcpInput d mem).1.now = s.now := by
  rcases @tcpInput_cases s d mem with h | ⟨-, -, conns, h⟩ <;> rw [h] <;> exact ⟨rfl, rfl, rfl⟩

theorem dispatch_tables :
    (s.dispatch d mem).1.out = s.out ∧ (s.dispatch d mem).1.sent = s.sent ∧
      (s.dispatch d mem).1.now = s.now := by
  unfold Host.dispatch Host.dispatch4 Host.dispatch6
  split_ifs <;> first | exact tcpInput_tables | exact ⟨rfl, rfl, rfl⟩

theorem filter_tables :
    (s.filter d).1.out = s.out ∧ (s.filter d).1.sent = s.sent ∧ (s.filter d).1.now = s.now := by
  unfold Host.filter Host.filter4 Host.filter6 Host.fwInTcp Host.fwInUdp Host.fwInPing
  split_ifs <;> exact ⟨rfl, rfl, rfl⟩

theorem netRx_tables (frame : Bytes) (len : ℕ) :
    (s.netRx frame len mem).1.out = s.out ∧ (s.netRx frame len mem).1.sent = s.sent ∧
      (s.netRx frame len mem).1.now = s.now := by
  unfold Host.netRx
  cases s.parse frame len with
  | none => exact ⟨rfl, rfl, rfl⟩
  | some d =>
    have hf := @filter_tables s d
    simp only [Host.accept]
    split_ifs
    · rcases hs : s.filter d with ⟨u, b⟩
      rw [hs] at hf
      cases b with
      | false => exact hf
      | true =>
        obtain ⟨h1, h2, h3⟩ := @dispatch_tables u d mem
        exact ⟨h1.trans hf.1, h2.trans hf.2.1, h3.trans hf.2.2⟩
    · exact dispatch_tables

theorem Host.Known.congr (h : s.Known) (h1 : t.out = s.out) (h2 : t.sent = s.sent)
    (h3 : t.now = s.now) : t.Known := by
  unfold Host.Known at h ⊢
  rw [h1, h2, h3]
  exact h

theorem Step.known (h : Step s t) (hs : s.Known) : t.Known := by
  cases h with
  | tick n => exact ⟨hs.1, fun p hp => Nat.le_add_right_of_le (hs.2 p hp)⟩
  | send port => exact hs.fwOutUdp port
  | rx frame len mem =>
    obtain ⟨h1, h2, h3⟩ := netRx_tables (s := s) frame len
    exact hs.congr h1 h2 h3
  | other h1 h2 h3 => exact hs.congr h1 h2 h3

theorem Reach.known (h : Reach s) : s.Known := by
  induction h with
  | start hout hsent =>
    refine ⟨fun i hi => absurd ?_ hi, fun p hp => ?_⟩
    · rw [hout]
    · rw [hsent] at hp
      exact absurd hp (by simp)
  | step _ hstep ih => exact hstep.known ih

/-! ## The main result -/

/-- The port may be reached from outside. -/
def Host.Permits (s : Host) : Effect → Prop
  | .opened p => p ∈ s.tcp
  | .delivered p => p ∈ s.udp ∨ s.Recent p ∨ p = 68

/-- The UDP table answers for the port because of a sending so long ago that its clock has wrapped
since. -/
def Host.Overdue (s : Host) : Effect → Prop
  | .opened _ => False
  | .delivered p => s.answers p = true ∧ s.Wrapped p

/-- A packet that the firewall looked at. -/
theorem filter_permits (hs : s.Known) (hon : s.on = true) (hf : (s.filter d).2 = true)
    (he : (s.dispatch d mem).2 = some e) : s.Permits e ∨ s.Overdue e := by
  rcases dispatch_effect he with ⟨p, rfl, hq⟩ | ⟨p, rfl, hq⟩
  · rw [hq, Host.fwInTcp] at hf
    by_cases hp : p ∈ s.tcp
    · exact .inl hp
    · rw [if_neg (by simp [hon, hp])] at hf
      exact absurd hf (by simp)
  · rw [hq, Host.fwInUdp] at hf
    by_cases hp : p ∈ s.udp
    · exact .inl (.inl hp)
    rw [if_neg (by simp [hon, hp])] at hf
    by_cases ha : s.answers p = true
    · rcases hs.of_answers ha with hr | hw
      · exact .inl (.inr (.inl hr))
      · exact .inr ⟨ha, hw⟩
    rw [if_neg ha] at hf
    by_cases h68 : p = 68
    · exact .inl (.inr (.inr h68))
    · rw [if_neg h68] at hf
      exact absurd hf (by simp)

/-- **With the firewall on, a packet from a card reaches a port that is not permitted exactly when
it is one for such a port, and either comes from one of the machine's own addresses or the UDP
table's clock has wrapped since the port was sent from.** -/
theorem firewall_lets_in (h : Reach s) (hon : s.on = true) (frame : Bytes) (len : ℕ) (mem : Bool) :
    (∀ e, (s.netRx frame len mem).2 = some e → s.Permits e) ↔
      ∀ d e, s.parse frame len = some d → (s.dispatch d mem).2 = some e → ¬ s.Permits e →
        s.isLocal d.src = false ∧ ¬ s.Overdue e := by
  constructor
  · intro hall d e hd he hnp
    by_contra hcon
    refine hnp (hall e ?_)
    rw [Host.netRx, hd]
    simp only [Host.accept]
    by_cases hl : s.isLocal d.src = true
    · rw [if_neg (by simp [hl])]
      exact he
    · have hover : s.Overdue e := by
        by_contra hno
        exact hcon ⟨by simpa using hl, hno⟩
      rw [if_pos ⟨hon, by simpa using hl⟩]
      rcases dispatch_effect he with ⟨p, rfl, -⟩ | ⟨p, rfl, hq⟩
      · exact absurd hover id
      · have hyes : s.filter d = (s, true) := by
          rw [hq, Host.fwInUdp]
          split_ifs with h1 h2
          · rfl
          · rfl
          · exact absurd hover.1 h2
          · exact absurd hover.1 h2
        rw [hyes]
        exact he
  · intro hall e he
    rw [Host.netRx] at he
    cases hd : s.parse frame len with
    | none =>
      rw [hd] at he
      exact absurd he (by simp)
    | some d =>
      rw [hd] at he
      simp only [Host.accept] at he
      by_contra hnp
      split_ifs at he with hask
      · rcases hf : s.filter d with ⟨u, b⟩
        have hf' := congrArg Prod.snd hf
        rw [hf] at he
        cases b with
        | false => exact absurd he (by simp)
        | true =>
          -- the host that was asked is as before
          obtain rfl : s = u := congrArg Prod.fst ((filter_eq hf').symm.trans hf)
          rcases filter_permits h.known hon hf' he with hp | ho
          · exact hnp hp
          · exact (hall d e hd he hnp).2 ho
      · have hl : s.isLocal d.src = true := by simpa [hon] using hask
        have := (hall d e hd he hnp).1
        rw [hl] at this
        exact absurd this (by decide)

/-! ## A packet from the machine's own address -/

/-- A machine at 10.0.2.15 with a listener on port 22 and its firewall on, no port allowed. -/
def selfHost : Host where
  configured := true
  ip := 0x0A00020F
  netmask := 0xFFFFFF00
  ipv6On := false
  ll := zero6
  global := none
  on := true
  ping := false
  tcp := []
  udp := []
  out := fun _ => ⟨0, 0⟩
  blocked := 0
  bind := fun _ => none
  bind6 := fun _ => none
  listeners := fun i => if i = 0 then ⟨true, false, 22⟩ else ⟨false, false, 0⟩
  conns := fun _ => ⟨false, false, .v4 0, .v4 0, 0, 0, none⟩
  now := 0
  sent := []

/-- A frame with a SYN from 10.0.2.15 port 1234 to 10.0.2.15 port 22. -/
def selfSyn : Bytes := Bytes.ofList
  [0, 0, 0, 0, 0, 0, 0, 0, 0, 0, 0, 0, 8, 0,
    69, 0, 0, 40, 0, 1, 64, 0, 64, 6, 34, 178, 10, 0, 2, 15, 10, 0, 2, 15,
    4, 210, 0, 22, 0, 0, 0, 1, 0, 0, 0, 0, 80, 2, 255, 255, 146, 220, 0, 0]

theorem selfHost_reach : Reach selfHost := .start (fun _ => rfl) rfl

/-- The firewall is on, port 22 is not allowed, and the packet opens a connection to it. -/
theorem selfSyn_opens : ¬ ∀ s, Reach s → s.on = true → ∀ frame len mem e,
    (s.netRx frame len mem).2 = some e → s.Permits e := by
  intro h
  have he : (selfHost.netRx selfSyn 54 true).2 = some (.opened 22) := by decide +kernel
  have hp : 22 ∈ selfHost.tcp := h selfHost selfHost_reach rfl selfSyn 54 true _ he
  exact absurd hp (by decide)

theorem firewall_lets_in_selfSyn :
    (∀ e, (selfHost.netRx selfSyn 54 true).2 = some e → selfHost.Permits e) ↔
      ∀ d e, selfHost.parse selfSyn 54 = some d → (selfHost.dispatch d true).2 = some e →
        ¬ selfHost.Permits e → selfHost.isLocal d.src = false ∧ ¬ selfHost.Overdue e :=
  firewall_lets_in selfHost_reach rfl selfSyn 54 true

end BananaOS.Net
