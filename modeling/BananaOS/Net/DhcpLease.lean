import BananaOS.Net.Dhcp

/-!
# Leases over whole runs

`Dhcp.Run last now s`: the client may be in state `s` at the time `now`, with the last call of
`dhcp_timer` at `last`.  Everything happens less than 24 days after the last call, as long as the clock
goes round in between, so the elapsed time is exact and a deadline is compared on the right side
(`lt_timerMs`).

* `Dhcp.Kept`: what holds at every time, by one lemma for each way a state changes.
* `leases_kept`: a configured interface has a lease that has not ended, and its state is that of the time.
-/

namespace BananaOS.Net

open Lib

variable {s : Dhcp} {last now t t' rnd : ℕ}

/-! ## The clock -/

theorem timerMs_add (t n : ℕ) : timerMs t + BitVec.ofNat 32 n = timerMs (t + n) :=
  (BitVec.ofNat_add t n).symm

theorem timerMs_sub {t u : ℕ} (h : u ≤ t) (hlt : t < u + 2 ^ 32) : (timerMs t - timerMs u).toNat = t - u := by
  rw [timerMs, timerMs, BitVec.toNat_sub, BitVec.toNat_ofNat, BitVec.toNat_ofNat]
  omega

/-- A deadline less than 2^31 ms away is compared on the right side. -/
theorem lt_timerMs {t u : ℕ} (h : t < u + 2 ^ 31) (h' : u ≤ t + 2 ^ 31) :
    Serial.lt (timerMs t) (timerMs u) ↔ t < u := by
  have hsub : (timerMs t - timerMs u).toInt = (t : ℤ) - u := by
    rw [timerMs, timerMs, BitVec.toInt_eq_toNat_cond, BitVec.toNat_sub, BitVec.toNat_ofNat,
      BitVec.toNat_ofNat]
    split_ifs <;> omega
  rw [Serial.lt, hsub]
  omega

/-! ## T1 and T2 -/

theorem leaseTimes_spec {leaseMs : ℕ} (t1Ms t2Ms : ℕ) (h : 1000 ≤ leaseMs) :
    0 < (leaseTimes leaseMs t1Ms t2Ms).1 ∧
      (leaseTimes leaseMs t1Ms t2Ms).1 < (leaseTimes leaseMs t1Ms t2Ms).2 ∧
        (leaseTimes leaseMs t1Ms t2Ms).2 < leaseMs := by
  obtain ⟨t1, ht1⟩ : ∃ t1, t1 = if t1Ms = 0 ∨ leaseMs ≤ t1Ms then leaseMs / 2 else t1Ms := ⟨_, rfl⟩
  obtain ⟨t2, ht2⟩ : ∃ t2, t2 = if t2Ms = 0 ∨ t2Ms ≤ t1 ∨ leaseMs ≤ t2Ms then leaseMs * 7 / 8 else t2Ms :=
    ⟨_, rfl⟩
  have h1 : 0 < t1 ∧ t1 < leaseMs := by
    rw [ht1]
    split_ifs <;> omega
  have h2 : t2 < leaseMs := by
    rw [ht2]
    split_ifs <;> omega
  rw [leaseTimes, ← ht1, ← ht2]
  split_ifs with hle
  · dsimp only
    omega
  · dsimp only
    omega

theorem leaseS_pos (o : DhcpOpts) : 0 < o.leaseS := by
  rw [DhcpOpts.leaseS]
  split_ifs <;> omega

/-! ## Runs -/

/-- 24 days -/
def days24 : ℕ := 24 * 86400000

/-- The states of the client, with the time of the last call of `dhcp_timer` and the time now.  The client
is started in any state, and its history begins there. -/
inductive Dhcp.Run : ℕ → ℕ → Dhcp → Prop where
  | start {s : Dhcp} {now rnd : ℕ} : s.dev = true → s.sent = [] → s.acks = [] →
      Dhcp.Run now now (s.dhcpStart now rnd)
  | restart {last now t rnd : ℕ} {s : Dhcp} : Dhcp.Run last now s → now ≤ t → t < last + days24 →
      Dhcp.Run last t (s.dhcpStart t rnd)
  | packet {last now t rnd len : ℕ} {s : Dhcp} (p : Bytes) : Dhcp.Run last now s → now ≤ t →
      t < last + days24 → Dhcp.Run last t (s.onPacket t rnd p len)
  | timer {last now t t' rnd : ℕ} {s : Dhcp} : Dhcp.Run last now s → now ≤ t → t < last + days24 → t ≤ t' →
      Dhcp.Run t t' (s.dhcpTimer t t' rnd)

/-- A message was sent, and the next one is due at most 16 seconds after it, which is to come. -/
structure Dhcp.Due (s : Dhcp) (last now : ℕ) : Prop where
  sent : ∃ t msg rest, s.sent = (t, msg) :: rest ∧ t ≤ now ∧ s.nextMs = timerMs (t + s.backoffMs) ∧
    last < t + s.backoffMs
  backoff : ∃ k ≤ 4, s.backoffMs = 1000 * 2 ^ k

/-- An ACK was accepted at `a`; if its lease ends, the elapsed time is exact at `last` and the state is
the one for it. -/
structure Dhcp.Lease (s : Dhcp) (last now a : ℕ) : Prop where
  ack : s.acks.head? = some (a, s.leaseS)
  past : a ≤ now
  infinite : s.isInfinite = true → s.leaseS = 0xFFFFFFFF ∧ s.state = .bound
  tick : s.isInfinite = false → s.leaseTickMs = timerMs (max last a) ∧ s.elapsedMs = max last a - a
  expire : s.isInfinite = false → s.expireMs = s.leaseS * 1000 ∧ s.leaseS < 2 ^ 32
  times : s.isInfinite = false → s.t1Ms < s.t2Ms ∧ s.t2Ms < s.expireMs
  bound : s.isInfinite = false → (s.elapsedMs < s.t1Ms ↔ s.state = .bound)
  renewing : s.isInfinite = false → s.state = .renewing → s.elapsedMs < s.t2Ms
  expires : s.isInfinite = false → s.elapsedMs < s.expireMs

/-- What holds at every time. -/
structure Dhcp.Kept (s : Dhcp) (last now : ℕ) : Prop where
  order : last ≤ now
  runs : s.state ≠ .idle
  configured : s.configured = true → s.leased = true
  lease : s.leased = true → ∃ a, s.Lease last now a
  due : s.state ≠ .bound → s.Due last now

variable {a : ℕ} {r : Dhcp}

theorem Dhcp.Due.mono (h : s.Due last now) (ht : now ≤ t) : s.Due last t := by
  obtain ⟨⟨u, msg, rest, h1, h2, h3⟩, h4⟩ := h
  exact ⟨⟨u, msg, rest, h1, h2.trans ht, h3⟩, h4⟩

theorem Dhcp.Kept.mono (h : s.Kept last now) (ht : now ≤ t) : s.Kept last t := by
  refine ⟨h.order.trans ht, h.runs, h.configured, fun hl => ?_, fun hb => (h.due hb).mono ht⟩
  obtain ⟨a, ha⟩ := h.lease hl
  exact ⟨a, { ha with past := ha.past.trans ht }⟩

theorem backoff_bounds {n : ℕ} (h : ∃ k ≤ 4, n = 1000 * 2 ^ k) : 1000 ≤ n ∧ n ≤ 16000 := by
  obtain ⟨k, hk, rfl⟩ := h
  have h1 : 2 ^ 0 ≤ 2 ^ k := Nat.pow_le_pow_right two_pos k.zero_le
  have h2 : 2 ^ k ≤ 2 ^ 4 := Nat.pow_le_pow_right two_pos hk
  omega

theorem due_sendMsg (type requested server : ℕ) (hn : s.nextMs = timerMs (t + s.backoffMs))
    (hb : ∃ k ≤ 4, s.backoffMs = 1000 * 2 ^ k) (hl : last ≤ t) (ht : t ≤ now) :
    (s.sendMsg t type requested server).Due last now := by
  have hpos := (backoff_bounds hb).1
  exact ⟨⟨t, _, s.sent, rfl, ht, hn, by change last < t + s.backoffMs; omega⟩, hb⟩

theorem kept_startDiscover (hc : s.configured = false) (hl : last ≤ t) (ht : t ≤ now) :
    (s.startDiscover t rnd).Kept last now := by
  refine ⟨hl.trans ht, nofun, fun h => ?_, nofun, fun _ => ?_⟩
  · exact absurd (hc.symm.trans h) nofun
  · exact due_sendMsg _ _ _ (timerMs_add t 1000) ⟨0, by decide, rfl⟩ hl ht

theorem kept_dhcpStart (h : s.Kept last now) (ht : now ≤ t) : (s.dhcpStart t rnd).Kept last t := by
  rw [Dhcp.dhcpStart]
  split_ifs
  · exact h.mono ht
  · exact kept_startDiscover rfl (h.order.trans ht) le_rfl

theorem kept_acked (yiaddr : ℕ) (o : DhcpOpts) (ho : o.leaseS < 2 ^ 32) (hl : last ≤ t) :
    (s.acked t yiaddr o).Kept last t := by
  have hmax : max last t = t := max_eq_right hl
  by_cases hinf : o.leaseS = 0xFFFFFFFF
  · simp only [Dhcp.acked, Dhcp.setTimers, if_pos hinf]
    refine ⟨hl, nofun, fun _ => rfl, fun _ => ⟨t, ?_⟩, fun h => absurd rfl h⟩
    exact ⟨rfl, le_rfl, fun _ => ⟨hinf, rfl⟩, nofun, nofun, nofun, nofun, nofun, nofun⟩
  · obtain ⟨h1, h2, h3⟩ := leaseTimes_spec (o.t1 * 1000) (o.t2 * 1000)
      (Nat.le_mul_of_pos_left 1000 (leaseS_pos o))
    simp only [Dhcp.acked, Dhcp.setTimers, if_neg hinf]
    refine ⟨hl, nofun, fun _ => rfl, fun _ => ⟨t, ?_⟩, fun h => absurd rfl h⟩
    refine ⟨rfl, le_rfl, nofun, fun _ => ?_, fun _ => ⟨rfl, ho⟩, fun _ => ⟨h2, h3⟩, fun _ => ?_, nofun, fun _ => ?_⟩
    · rw [hmax]
      exact ⟨rfl, (Nat.sub_self t).symm⟩
    · exact ⟨fun _ => rfl, fun _ => h1⟩
    · exact (h1.trans h2).trans h3

/-! ## What comes in -/

theorem rd32_lt (p : Bytes) (v : ℕ) : rd32 p v < 2 ^ 32 := getBE_lt

theorem optionsLoop_lease (p : Bytes) (len k i : ℕ) {o : DhcpOpts} (ho : o.lease < 2 ^ 32) :
    (optionsLoop p len k i o).lease < 2 ^ 32 := by
  induction k generalizing i o with
  | zero => exact ho
  | succ k ih =>
    rw [optionsLoop]
    split_ifs
    · exact ho
    · exact ho
    · exact ih _ ho
    · exact ho
    · exact ho
    · refine ih _ ?_
      rw [DhcpOpts.set]
      split_ifs
      all_goals first | exact ho | exact rd32_lt p _

theorem leaseS_lt (p : Bytes) (len : ℕ) : (dhcpOptions p len).leaseS < 2 ^ 32 := by
  have h := optionsLoop_lease p len len 240 (o := ⟨0, 0, 0, 0, 0, 0, 0, 0⟩) (by decide)
  rw [DhcpOpts.leaseS]
  split_ifs
  · exact h
  · decide

theorem kept_onPacket (h : s.Kept last now) (ht : now ≤ t) (p : Bytes) (len : ℕ) :
    (s.onPacket t rnd p len).Kept last t := by
  have hl := h.order.trans ht
  rw [Dhcp.onPacket]
  dsimp only
  split_ifs with hreply hoffer hack hnak
  · have hc : s.configured = false := by
      by_contra hc
      have hleased := h.configured (by simpa using hc)
      rw [Dhcp.leased, Dhcp.renews, hoffer.2] at hleased
      exact absurd hleased nofun
    refine ⟨hl, nofun, fun hconf => ?_, nofun, fun _ => ?_⟩
    · exact absurd (hc.symm.trans hconf) nofun
    · exact due_sendMsg _ _ _ (timerMs_add t 1000) ⟨0, by decide, rfl⟩ hl le_rfl
  · exact kept_acked _ _ (leaseS_lt p len) hl
  · exact kept_startDiscover rfl hl le_rfl
  · exact h.mono ht
  · exact h.mono ht

/-! ## The timer -/

theorem Dhcp.Lease.tick_elapsed (h : s.Lease last now a) (hl : last ≤ now) (hfin : s.isInfinite = false)
    (ht : now ≤ t) (hlt : t < last + days24) : (s.tick t).elapsedMs = t - a := by
  have hpast := h.past
  obtain ⟨h1, h2⟩ := h.tick hfin
  obtain ⟨h3, h4⟩ := h.expire hfin
  have h5 := h.expires hfin
  have hk : max last a ≤ t := by omega
  rw [days24] at hlt
  change (s.elapsedMs + (timerMs t - s.leaseTickMs).toNat) % 2 ^ 64 = t - a
  rw [h1, timerMs_sub hk (by omega), h2]
  omega

/-- The same lease, at a call of the timer at `t`. -/
structure Dhcp.SameLease (s r : Dhcp) (t : ℕ) : Prop where
  acks : r.acks = s.acks
  leaseS : r.leaseS = s.leaseS
  isInfinite : r.isInfinite = s.isInfinite
  t1Ms : r.t1Ms = s.t1Ms
  t2Ms : r.t2Ms = s.t2Ms
  expireMs : r.expireMs = s.expireMs
  leaseTickMs : r.leaseTickMs = timerMs t
  elapsedMs : r.elapsedMs = (s.tick t).elapsedMs

/-- A lease that ends goes on, in the state for the time. -/
theorem Dhcp.Lease.next (h : s.Lease last now a) (hl : last ≤ now) (hfin : s.isInfinite = false) (ht : now ≤ t)
    (hlt : t < last + days24) (ht' : t ≤ t') (hexp : (s.tick t).elapsedMs < s.expireMs)
    (hr : s.SameLease r t) (hbound : (s.tick t).elapsedMs < s.t1Ms ↔ r.state = .bound)
    (hren : r.state = .renewing → (s.tick t).elapsedMs < s.t2Ms) : r.Lease t t' a := by
  have hpast : a ≤ t := h.past.trans ht
  refine ⟨?_, hpast.trans ht', ?_, ?_, ?_, ?_, ?_, ?_, ?_⟩
  · rw [hr.acks, hr.leaseS]
    exact h.ack
  · rw [hr.isInfinite, hfin]
    exact nofun
  · rw [max_eq_left hpast, hr.leaseTickMs, hr.elapsedMs, h.tick_elapsed hl hfin ht hlt]
    exact fun _ => ⟨rfl, rfl⟩
  · rw [hr.expireMs, hr.leaseS]
    exact fun _ => h.expire hfin
  · rw [hr.t1Ms, hr.t2Ms, hr.expireMs]
    exact fun _ => h.times hfin
  · rw [hr.elapsedMs, hr.t1Ms]
    exact fun _ => hbound
  · rw [hr.elapsedMs, hr.t2Ms]
    exact fun _ => hren
  · rw [hr.elapsedMs, hr.expireMs]
    exact fun _ => hexp

theorem leased_of_bound (h : s.state = .bound) : s.leased = true := by rw [Dhcp.leased, h]; rfl

/-- T1 or T2 has passed. -/
theorem kept_askAgain {st : DhcpState} (h : s.Kept last now) (ht : now ≤ t) (hlt : t < last + days24)
    (ht' : t ≤ t') (hfin : s.isInfinite = false) (hexp : (s.tick t).elapsedMs < s.expireMs)
    (hleased : s.leased = true) (hle : s.t1Ms ≤ (s.tick t).elapsedMs)
    (hst : st = .rebinding ∨ st = .renewing ∧ (s.tick t).elapsedMs < s.t2Ms) (xid : ℕ) :
    ((s.tick t).askAgain t st xid).Kept t t' := by
  obtain ⟨a, ha⟩ := h.lease hleased
  have hcases : st ≠ .idle ∧ st ≠ .bound ∧ ((s.tick t).askAgain t st xid).leased = true := by
    obtain rfl | ⟨rfl, -⟩ := hst
    · exact ⟨nofun, nofun, rfl⟩
    · exact ⟨nofun, nofun, rfl⟩
  refine ⟨ht', hcases.1, fun _ => hcases.2.2, fun _ => ⟨a, ?_⟩, fun _ => ?_⟩
  · refine ha.next h.order hfin ht hlt ht' hexp ⟨rfl, rfl, rfl, rfl, rfl, rfl, rfl, rfl⟩ ?_ fun hren => ?_
    · exact ⟨fun h' => absurd h' (by omega), fun h' => absurd h' hcases.2.1⟩
    · obtain rfl | ⟨-, hlt2⟩ := hst
      · exact absurd hren nofun
      · exact hlt2
  · exact due_sendMsg _ _ _ (timerMs_add t 1000) ⟨0, by decide, rfl⟩ le_rfl ht'

/-- The timer in state BOUND. -/
theorem kept_bound (h : s.Kept last now) (ht : now ≤ t) (hlt : t < last + days24) (ht' : t ≤ t')
    (hexp : s.isInfinite = false → (s.tick t).elapsedMs < s.expireMs) (hb : s.state = .bound) :
    ((s.tick t).timers t t' rnd).Kept t t' := by
  have hleased := leased_of_bound hb
  obtain ⟨a, ha⟩ := h.lease hleased
  rw [Dhcp.timers, if_pos (show (s.tick t).state = .bound from hb)]
  cases hinf : s.isInfinite with
  | true =>
    have hfin : ∀ {p : Prop}, (s.tick t).isInfinite = false → p := fun h' => absurd (hinf.symm.trans h') nofun
    rw [if_pos (show (s.tick t).isInfinite = true from hinf)]
    refine ⟨ht', h.runs, fun _ => hleased, fun _ => ⟨a, ?_⟩, fun hnb => absurd hb hnb⟩
    exact ⟨ha.ack, (ha.past.trans ht).trans ht', ha.infinite, hfin, hfin, hfin, hfin, hfin, hfin⟩
  | false =>
    rw [if_neg (show ¬ (s.tick t).isInfinite = true by rw [show (s.tick t).isInfinite = false from hinf]; nofun)]
    by_cases ht1 : s.t1Ms ≤ (s.tick t).elapsedMs
    · rw [if_pos (show (s.tick t).t1Ms ≤ (s.tick t).elapsedMs from ht1)]
      refine kept_askAgain h ht hlt ht' hinf (hexp hinf) hleased ht1 ?_ rnd
      by_cases ht2 : s.t2Ms ≤ (s.tick t).elapsedMs
      · exact .inl (if_pos ht2)
      · exact .inr ⟨if_neg ht2, Nat.lt_of_not_le ht2⟩
    · rw [if_neg (show ¬ (s.tick t).t1Ms ≤ (s.tick t).elapsedMs from ht1)]
      refine ⟨ht', h.runs, fun _ => hleased, fun _ => ⟨a, ?_⟩, fun hnb => absurd hb hnb⟩
      refine ha.next h.order hinf ht hlt ht' (hexp hinf) ⟨rfl, rfl, rfl, rfl, rfl, rfl, rfl, rfl⟩ ?_ fun hren => ?_
      · exact ⟨fun _ => hb, fun _ => Nat.lt_of_not_le ht1⟩
      · exact absurd (hb.symm.trans hren) nofun

theorem Dhcp.Lease.finite (h : s.Lease last now a) (hb : s.state ≠ .bound) : s.isInfinite = false := by
  cases hinf : s.isInfinite with
  | true => exact absurd (h.infinite hinf).2 hb
  | false => rfl

/-- A lease that is asked for again goes on, if T2 has not passed since. -/
theorem lease_goes_on (h : s.Kept last now) (ht : now ≤ t) (hlt : t < last + days24) (ht' : t ≤ t')
    (hexp : s.leased = true → s.isInfinite = false → (s.tick t).elapsedMs < s.expireMs)
    (hb : s.state ≠ .bound)
    (hren : s.state = .renewing → (s.tick t).elapsedMs < s.t2Ms) (hleased : s.leased = true)
    (hr : s.SameLease r t) (hst : r.state = s.state) : ∃ a, r.Lease t t' a := by
  obtain ⟨a, ha⟩ := h.lease hleased
  have hfin := ha.finite hb
  have hpast := ha.past
  have hle : s.t1Ms ≤ (s.tick t).elapsedMs := by
    have h1 := (ha.tick hfin).2
    have h2 := mt (ha.bound hfin).mp hb
    have h3 := ha.tick_elapsed h.order hfin ht hlt
    have h4 := h.order
    omega
  refine ⟨a, ha.next h.order hfin ht hlt ht' (hexp hleased hfin) hr ?_ ?_⟩
  · rw [hst]
    exact ⟨fun h' => absurd h' (by omega), fun h' => absurd h' hb⟩
  · rw [hst]
    exact hren

theorem backOff_backoff (h : ∃ k ≤ 4, s.backoffMs = 1000 * 2 ^ k) :
    ∃ k ≤ 4, (s.backOff t).backoffMs = 1000 * 2 ^ k := by
  obtain ⟨k, hk, hb⟩ := h
  have heq : (s.backOff t).backoffMs = if s.backoffMs < 16000 then s.backoffMs * 2 else s.backoffMs := rfl
  rw [heq]
  split_ifs with hlt
  · obtain hk4 | rfl : k < 4 ∨ k = 4 := by omega
    · exact ⟨k + 1, hk4, by rw [hb, pow_succ, mul_assoc]⟩
    · omega
  · exact ⟨k, hk, hb⟩

theorem kept_resend (h : s.Kept last now) (ht : now ≤ t) (hlt : t < last + days24) (ht' : t ≤ t')
    (hexp : s.leased = true → s.isInfinite = false → (s.tick t).elapsedMs < s.expireMs)
    (hb : s.state ≠ .bound)
    (hren : s.state = .renewing → (s.tick t).elapsedMs < s.t2Ms) (type requested server : ℕ) :
    (((s.tick t).backOff t).sendMsg t type requested server).Kept t t' := by
  refine ⟨ht', h.runs, h.configured, fun hleased => ?_, fun _ => ?_⟩
  · exact lease_goes_on h ht hlt ht' hexp hb hren hleased ⟨rfl, rfl, rfl, rfl, rfl, rfl, rfl, rfl⟩ rfl
  · exact due_sendMsg _ _ _ (timerMs_add t _) (backOff_backoff (h.due hb).backoff) le_rfl ht'

theorem kept_retransmit (h : s.Kept last now) (ht : now ≤ t) (hlt : t < last + days24) (ht' : t ≤ t')
    (hexp : s.leased = true → s.isInfinite = false → (s.tick t).elapsedMs < s.expireMs)
    (hb : s.state ≠ .bound)
    (hren : s.state = .renewing → (s.tick t).elapsedMs < s.t2Ms) :
    ((s.tick t).retransmit t t' rnd).Kept t t' := by
  have hsend := kept_resend h ht hlt ht' hexp hb hren
  have hstate : (s.tick t).state = s.state := rfl
  rw [Dhcp.retransmit, hstate]
  cases hs : s.state with
  | idle => exact absurd hs h.runs
  | bound => exact absurd hs hb
  | selecting => exact hsend _ _ _
  | requesting =>
    have hc : s.configured = false := by
      by_contra hc
      have hleased := h.configured (by simpa using hc)
      rw [Dhcp.leased, Dhcp.renews, hs] at hleased
      exact absurd hleased nofun
    dsimp only
    split_ifs
    · exact kept_startDiscover hc ht' le_rfl
    · exact hsend _ _ _
  | renewing => exact hsend _ _ _
  | rebinding => exact hsend _ _ _

theorem kept_dhcpTimer (h : s.Kept last now) (ht : now ≤ t) (hlt : t < last + days24) (ht' : t ≤ t') :
    (s.dhcpTimer t t' rnd).Kept t t' := by
  rw [Dhcp.dhcpTimer, if_neg h.runs]
  split_ifs with hend
  · exact kept_startDiscover rfl ht' le_rfl
  have hexp : s.leased = true → s.isInfinite = false → (s.tick t).elapsedMs < s.expireMs := fun hl hf =>
    Nat.lt_of_not_le fun hle => hend ⟨hf, hl, hle⟩
  by_cases hb : s.state = .bound
  · exact kept_bound h ht hlt ht' (hexp (leased_of_bound hb)) hb
  by_cases hren : s.state = .renewing ∧ s.t2Ms ≤ (s.tick t).elapsedMs
  · rw [Dhcp.timers, if_neg (show ¬ (s.tick t).state = .bound from hb),
      if_pos (show (s.tick t).state = .renewing ∧ (s.tick t).t2Ms ≤ (s.tick t).elapsedMs from hren)]
    have hleased : s.leased = true := by
      rw [Dhcp.leased, Dhcp.renews, hren.1]
      rfl
    obtain ⟨a, ha⟩ := h.lease hleased
    have hfin := ha.finite hb
    have htimes := ha.times hfin
    exact kept_askAgain h ht hlt ht' hfin (hexp hleased hfin) hleased (by omega) (.inl rfl) s.xid
  · rw [Dhcp.timers, if_neg (show ¬ (s.tick t).state = .bound from hb),
      if_neg (show ¬ ((s.tick t).state = .renewing ∧ (s.tick t).t2Ms ≤ (s.tick t).elapsedMs) from hren)]
    have hren' : s.state = .renewing → (s.tick t).elapsedMs < s.t2Ms := fun hs =>
      Nat.lt_of_not_le fun hle => hren ⟨hs, hle⟩
    split_ifs with hdue
    · refine ⟨ht', h.runs, h.configured, fun hleased => ?_, fun _ => ?_⟩
      · exact lease_goes_on h ht hlt ht' hexp hb hren' hleased ⟨rfl, rfl, rfl, rfl, rfl, rfl, rfl, rfl⟩ rfl
      · obtain ⟨⟨u, msg, rest, h1, h2, h3, h4⟩, h5⟩ := h.due hb
        have hbounds := backoff_bounds h5
        have hlt' : t < u + s.backoffMs := by
          have hdue' : Serial.lt (timerMs t) s.nextMs := hdue
          rw [days24] at hlt
          rw [h3, lt_timerMs (by omega) (by omega)] at hdue'
          exact hdue'
        exact ⟨⟨u, msg, rest, h1, by omega, h3, hlt'⟩, h5⟩
    · exact kept_retransmit h ht hlt ht' hexp hb hren'

theorem Dhcp.Run.kept (h : Dhcp.Run last now s) : s.Kept last now := by
  induction h with
  | @start s now rnd hdev _ _ =>
    rw [Dhcp.dhcpStart, if_neg (by rw [hdev]; nofun)]
    exact kept_startDiscover rfl le_rfl le_rfl
  | restart _ ht _ ih => exact kept_dhcpStart ih ht
  | packet p _ ht _ ih => exact kept_onPacket ih ht p _
  | timer _ ht hlt ht' ih => exact kept_dhcpTimer ih ht hlt ht'

/-! ## The history -/

theorem acks_dhcpStart : (s.dhcpStart t rnd).acks = s.acks := by
  rw [Dhcp.dhcpStart]
  split_ifs <;> rfl

theorem acks_retransmit : (s.retransmit t t' rnd).acks = s.acks := by
  rw [Dhcp.retransmit]
  cases s.state with
  | requesting =>
    dsimp only
    split_ifs <;> rfl
  | _ => rfl

theorem acks_dhcpTimer : (s.dhcpTimer t t' rnd).acks = s.acks := by
  rw [Dhcp.dhcpTimer]
  split_ifs
  · rfl
  · rfl
  · rw [Dhcp.timers]
    split_ifs
    all_goals first | rfl | exact acks_retransmit

theorem acks_onPacket (p : Bytes) (len : ℕ) :
    (s.onPacket t rnd p len).acks = s.acks ∨
      s.onPacket t rnd p len = s.acked t (rd32 p 16) (dhcpOptions p len) := by
  rw [Dhcp.onPacket]
  dsimp only
  split_ifs
  · exact .inl rfl
  · exact .inr rfl
  · exact .inl rfl
  · exact .inl rfl
  · exact .inl rfl

theorem acks_acked (yiaddr : ℕ) (o : DhcpOpts) : (s.acked t yiaddr o).acks = (t, o.leaseS) :: s.acks := by
  rw [Dhcp.acked, Dhcp.setTimers]
  split_ifs <;> rfl

theorem Dhcp.Run.acks_past (h : Dhcp.Run last now s) : ∀ x ∈ s.acks, x.1 ≤ now := by
  induction h with
  | @start s now rnd _ _ hacks =>
    rw [acks_dhcpStart, hacks]
    exact nofun
  | restart _ ht _ ih =>
    rw [acks_dhcpStart]
    exact fun x hx => (ih x hx).trans ht
  | @packet last now t rnd len s p _ ht _ ih =>
    obtain heq | heq := acks_onPacket p len
    · rw [heq]
      exact fun x hx => (ih x hx).trans ht
    · rw [heq, acks_acked]
      rintro x hx
      obtain rfl | hx := List.mem_cons.mp hx
      · exact le_rfl
      · exact (ih x hx).trans ht
  | timer _ ht _ ht' ih =>
    rw [acks_dhcpTimer]
    exact fun x hx => ((ih x hx).trans ht).trans ht'

/-! ## The lease and the state -/

/-- An ACK was accepted and its lease has not ended at `t`; the state is the one for the time since. -/
def Dhcp.HasLease (s : Dhcp) (t : ℕ) : Prop :=
  ∃ a, s.acks.head? = some (a, s.leaseS) ∧ a ≤ t ∧
    (s.leaseS = 0xFFFFFFFF ∧ s.state = .bound ∨
      t < a + s.leaseS * 1000 ∧ (t < a + s.t1Ms → s.state = .bound) ∧ (a + s.t1Ms ≤ t → s.state ≠ .bound) ∧
        (a + s.t2Ms ≤ t → s.state ≠ .renewing))

theorem hasLease_dhcpTimer (h : Dhcp.Run last now s) (ht : now ≤ t) (hlt : t < last + days24) (ht' : t ≤ t')
    (hc : (s.dhcpTimer t t' rnd).configured = true) : (s.dhcpTimer t t' rnd).HasLease t := by
  obtain ⟨r, hr⟩ : ∃ r, r = s.dhcpTimer t t' rnd := ⟨_, rfl⟩
  have hk : r.Kept t t' := hr ▸ kept_dhcpTimer h.kept ht hlt ht'
  have hacks : r.acks = s.acks := hr ▸ acks_dhcpTimer
  rw [← hr] at hc ⊢
  obtain ⟨a, ha⟩ := hk.lease (hk.configured hc)
  have hpast : a ≤ t := (h.acks_past (a, r.leaseS) (hacks ▸ List.mem_of_mem_head? ha.ack)).trans ht
  refine ⟨a, ha.ack, hpast, ?_⟩
  cases hinf : r.isInfinite with
  | true => exact .inl (ha.infinite hinf)
  | false =>
    have helapsed : r.elapsedMs = t - a := by rw [(ha.tick hinf).2, max_eq_left hpast]
    have hbound := ha.bound hinf
    have hren := ha.renewing hinf
    have hexp := ha.expires hinf
    rw [(ha.expire hinf).1] at hexp
    refine .inr ⟨by omega, fun h1 => hbound.mp (by omega), fun h1 hb => ?_, fun h2 hr => ?_⟩
    · have := hbound.mpr hb
      omega
    · have := hren hr
      omega

/-! ## Retransmissions -/

/-- The message sent last was sent at `u`, and a call of the timer from the deadline on sends one more. -/
def Dhcp.Resends (s : Dhcp) (last now : ℕ) : Prop :=
  ∃ u msg rest deadline, s.sent = (u, msg) :: rest ∧ u ≤ now ∧ deadline ≤ u + 16000 ∧
    ∀ t t' rnd, now ≤ t → t < last + days24 → t ≤ t' → deadline ≤ t →
      ∃ v m, (s.dhcpTimer t t' rnd).sent = (v, m) :: s.sent ∧ t ≤ v ∧ v ≤ t'

theorem sent_retransmit (hi : s.state ≠ .idle) (hb : s.state ≠ .bound) (ht' : t ≤ t') :
    ∃ v m, (s.retransmit t t' rnd).sent = (v, m) :: s.sent ∧ t ≤ v ∧ v ≤ t' := by
  rw [Dhcp.retransmit]
  cases hs : s.state with
  | idle => exact absurd hs hi
  | bound => exact absurd hs hb
  | requesting =>
    dsimp only
    split_ifs
    · exact ⟨t', _, rfl, ht', le_rfl⟩
    · exact ⟨t, _, rfl, le_rfl, ht'⟩
  | selecting => exact ⟨t, _, rfl, le_rfl, ht'⟩
  | renewing => exact ⟨t, _, rfl, le_rfl, ht'⟩
  | rebinding => exact ⟨t, _, rfl, le_rfl, ht'⟩

theorem sent_dhcpTimer (hi : s.state ≠ .idle) (hb : s.state ≠ .bound) (ht' : t ≤ t')
    (hdue : ¬ Serial.lt (timerMs t) s.nextMs) :
    ∃ v m, (s.dhcpTimer t t' rnd).sent = (v, m) :: s.sent ∧ t ≤ v ∧ v ≤ t' := by
  rw [Dhcp.dhcpTimer, if_neg hi]
  split_ifs
  · exact ⟨t', _, rfl, ht', le_rfl⟩
  · rw [Dhcp.timers, if_neg (show ¬ (s.tick t).state = .bound from hb)]
    split_ifs with hren hlt
    · exact ⟨t, _, rfl, le_rfl, ht'⟩
    · exact absurd hlt hdue
    · exact sent_retransmit hi hb ht'

theorem Dhcp.Run.resends (h : Dhcp.Run last now s) (hb : s.state ≠ .bound) : s.Resends last now := by
  have hdue := h.kept.due hb
  obtain ⟨⟨u, msg, rest, hsent, hu, hn, hl⟩, hbackoff⟩ := hdue
  have hbounds := backoff_bounds hbackoff
  refine ⟨u, msg, rest, u + s.backoffMs, hsent, hu, by omega, fun t t' rnd ht hlt ht' hle => ?_⟩
  refine sent_dhcpTimer h.kept.runs hb ht' ?_
  rw [days24] at hlt
  rw [hn, lt_timerMs (by omega) (by omega)]
  exact Nat.not_lt.mpr hle

/-! ## The main result -/

/-- T1, T2 and the end of a lease that ends, in this order. -/
def Dhcp.TimesSet (s : Dhcp) (leaseS : ℕ) : Prop :=
  s.t1Ms < s.t2Ms ∧ s.t2Ms < s.expireMs ∧ s.expireMs = leaseS * 1000

theorem timesSet_acked (yiaddr : ℕ) {o : DhcpOpts} (ho : o.leaseS ≠ 0xFFFFFFFF) :
    (s.acked t yiaddr o).TimesSet o.leaseS := by
  obtain ⟨-, h2, h3⟩ := leaseTimes_spec (o.t1 * 1000) (o.t2 * 1000)
    (Nat.le_mul_of_pos_left 1000 (leaseS_pos o))
  rw [Dhcp.acked, Dhcp.setTimers, if_neg ho]
  exact ⟨h2, h3, rfl⟩

/-- In every run, a configured interface has a lease that has not ended and the state for its time, and
outside BOUND the last message is sent again within 16 seconds; every accepted ACK whose lease ends puts
T1 before T2 before its end. -/
theorem leases_kept :
    (∀ last now s t t' rnd, Dhcp.Run last now s → now ≤ t → t < last + days24 → t ≤ t' →
      (s.dhcpTimer t t' rnd).configured = true → (s.dhcpTimer t t' rnd).HasLease t) ∧
    (∀ last now s, Dhcp.Run last now s → s.state ≠ .bound → s.Resends last now) ∧
    ∀ (s : Dhcp) t rnd p len, (s.onPacket t rnd p len).acks ≠ s.acks →
      ∃ leaseS, (s.onPacket t rnd p len).acks = (t, leaseS) :: s.acks ∧
        (leaseS ≠ 0xFFFFFFFF → (s.onPacket t rnd p len).TimesSet leaseS) := by
  refine ⟨fun last now s t t' rnd h ht hlt ht' hc => ?_, fun last now s h hb => ?_, fun s t rnd p len hne => ?_⟩
  · exact hasLease_dhcpTimer h ht hlt ht' hc
  · exact h.resends hb
  · have heq := (acks_onPacket p len).resolve_left hne
    rw [heq]
    exact ⟨_, acks_acked _ _, timesSet_acked _⟩

/-- A card whose address is all zeros, before the first start. -/
def coldDhcp : Dhcp :=
  ⟨true, List.replicate 6 0, 0, 0, 0, 0, 0, 0, 0, false, false, .idle, 0, 0, 0, 0, 0, 0, 0, 0, false, 0, 0,
    false, [], []⟩

/-- A reply with transaction 0 and these options. -/
def dhcpReply (options : List UInt8) : Bytes :=
  Bytes.ofList ([2] ++ List.replicate 235 0 ++ [0x63, 0x82, 0x53, 0x63] ++ options)

/-- The client has asked for the address of an offer at time 0. -/
def askedDhcp : Dhcp := (coldDhcp.dhcpStart 0 0).onPacket 0 0 (dhcpReply [53, 1, 2]) 243

/-- An ACK for ever, and one for a minute. -/
def foreverReply : Bytes := dhcpReply [53, 1, 5, 51, 4, 255, 255, 255, 255]
def minuteReply : Bytes := dhcpReply [53, 1, 5, 51, 4, 0, 0, 0, 60]

theorem askedDhcp_run : Dhcp.Run 0 0 askedDhcp :=
  .packet _ (.start rfl rfl rfl) le_rfl (by decide)

/-- A lease for ever sets no times: T1, T2 and the end stay 0. -/
theorem foreverReply_unset :
    Dhcp.Run 0 0 askedDhcp ∧
      (askedDhcp.onPacket 0 0 foreverReply 249).acks = [(0, 0xFFFFFFFF)] ∧
        ¬ ((askedDhcp.onPacket 0 0 foreverReply 249).t1Ms < (askedDhcp.onPacket 0 0 foreverReply 249).t2Ms) :=
  ⟨askedDhcp_run, by decide +kernel, by decide +kernel⟩

theorem leases_kept_minute :
    ((askedDhcp.onPacket 0 0 minuteReply 249).dhcpTimer 30000 30000 7).HasLease 30000 ∧
      askedDhcp.Resends 0 0 ∧
        ∃ leaseS, (askedDhcp.onPacket 0 0 minuteReply 249).acks = (0, leaseS) :: askedDhcp.acks ∧
          (leaseS ≠ 0xFFFFFFFF → (askedDhcp.onPacket 0 0 minuteReply 249).TimesSet leaseS) := by
  have hrun : Dhcp.Run 0 0 (askedDhcp.onPacket 0 0 minuteReply 249) := .packet _ askedDhcp_run le_rfl (by decide)
  refine ⟨leases_kept.1 _ _ _ 30000 30000 7 hrun (by decide) (by decide) le_rfl ?_,
    leases_kept.2.1 _ _ _ askedDhcp_run ?_, leases_kept.2.2 _ _ _ _ _ ?_⟩
  · decide +kernel
  · decide +kernel
  · decide +kernel

end BananaOS.Net
