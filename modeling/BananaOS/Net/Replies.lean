import BananaOS.Net.LetIn
import Mathlib.Data.Finset.Card
import Mathlib.Data.Finset.Image
import Mathlib.Data.List.TakeWhile
import Mathlib.Data.Finset.Range

/-!
# Replies to what was sent

The UDP table has room for 32 ports; a port that is not in it takes the entry with the smallest time
stamp.  That is the entry unused for longest as long as the clock does not wrap and ports are not sent
from again within a millisecond, so it keeps what it is there for: `answers_of_orderly` says that in a run
where a recent port never makes room for a newer one before an older one has, replies come in.

* `outSlot_spec`: the entry of the port, or the first of those with the least stamp.
* `Tracked`: the ports of the last five minutes, but for those with 32 newer ones, are in the table.
* `wrapped_refused`: after the clock has wrapped, the next port that is sent from makes the one before it
  forgotten.
-/

namespace BananaOS.Net

variable {s t : Host} {port : ℕ}

/-! ## The order of the ports -/

/-- The other ports that were sent from after the last sending from `port`. -/
def since (sent : List (ℕ × ℕ)) (port : ℕ) : Finset ℕ :=
  ((sent.takeWhile fun p => p.1 != port).map Prod.fst).toFinset

/-- The last sending from `port`. -/
def lastSent (sent : List (ℕ × ℕ)) (port : ℕ) : Option (ℕ × ℕ) := sent.find? fun p => p.1 == port

/-- Entry `j` is the first of those with the least stamp. -/
def Host.FirstLeast (s : Host) (j : ℕ) : Prop :=
  j < udpOut ∧ ∀ i < udpOut, (s.out j).ms ≤ (s.out i).ms ∧ (i < j → (s.out j).ms < (s.out i).ms)

/-- If a port that is not in the table is sent from, the entry that makes room is free, or its port was
not sent from for five minutes, or all others were sent from after it. -/
def Host.OldestFirst (s : Host) : Prop :=
  ∀ j, s.FirstLeast j → (s.out j).ms = 0 ∨ (∀ t, ((s.out j).port, t) ∈ s.sent → t + udpOutMs ≤ s.now) ∨
    ∀ i < udpOut, i ≠ j → (s.out i).port ∈ since s.sent (s.out j).port

/-- The runs in which every port that is sent from has an entry, or takes the oldest one. -/
inductive Orderly : Host → Prop where
  | start {s : Host} : (∀ i, s.out i = ⟨0, 0⟩) → s.sent = [] → Orderly s
  | send {s : Host} (port : ℕ) : Orderly s →
      ((∃ i < udpOut, (s.out i).port = port) ∨ s.OldestFirst) → Orderly (s.fwOutUdp port)
  | tick {s : Host} (n : ℕ) : Orderly s → Orderly { s with now := s.now + n }
  | rx {s : Host} (frame : Bytes) (len : ℕ) (mem : Bool) : Orderly s → Orderly (s.netRx frame len mem).1
  | other {s t : Host} : Orderly s → t.out = s.out → t.sent = s.sent → t.now = s.now → Orderly t

theorem Reach.sends (h : Reach s) (ports : List ℕ) : Reach (ports.foldl Host.fwOutUdp s) := by
  induction ports generalizing s with
  | nil => exact h
  | cons port ports ih => exact ih (h.step (.send port))

theorem since_cons_of_ne {sent : List (ℕ × ℕ)} {q t : ℕ} (h : q ≠ port) :
    since ((q, t) :: sent) port = insert q (since sent port) := by
  rw [since, List.takeWhile_cons_of_pos (by simpa using h), List.map_cons, List.toFinset_cons, since]

/-- The last sending is not before any other, and what was sent from after it was sent from after any
other. -/
theorem lastSent_append (port : ℕ) (pre rest : List (ℕ × ℕ)) (u : ℕ) :
    ∃ v, lastSent (pre ++ (port, u) :: rest) port = some (port, v) ∧ ((port, v) ∈ pre ∨ v = u) ∧
      since (pre ++ (port, u) :: rest) port ⊆ (pre.map Prod.fst).toFinset.erase port := by
  induction pre with
  | nil =>
    refine ⟨u, List.find?_cons_of_pos (beq_self_eq_true port), .inr rfl, ?_⟩
    rw [List.nil_append, since, List.takeWhile_cons_of_neg (by simp)]
    exact Finset.empty_subset _
  | cons q pre ih =>
    obtain ⟨p, t⟩ := q
    rw [List.cons_append]
    by_cases hp : p = port
    · subst hp
      refine ⟨t, List.find?_cons_of_pos (beq_self_eq_true p), .inl (.head _), ?_⟩
      rw [since, List.takeWhile_cons_of_neg (by simp)]
      exact Finset.empty_subset _
    · obtain ⟨v, h1, h2, h3⟩ := ih
      refine ⟨v, ?_, h2.imp_left (.tail _), ?_⟩
      · rw [← h1]
        exact List.find?_cons_of_neg (by simpa using hp)
      · rw [since_cons_of_ne hp, List.map_cons, List.toFinset_cons, Finset.erase_insert_of_ne hp]
        exact Finset.insert_subset_insert _ h3

/-! ## The entry that is taken -/

/-- The loop from `i` on, with the first least entry before it. -/
theorem outSlot_from (out : ℕ → OutEntry) (port n : ℕ) {i k : ℕ} (hk : k ≤ i)
    (hleast : ∀ j < i, (out k).ms ≤ (out j).ms ∧ (j < k → (out k).ms < (out j).ms)) (hi : k < i ∨ i = 0) :
    (∃ j, i ≤ j ∧ j < i + n ∧ (out j).port = port ∧ (∀ l, i ≤ l → l < j → (out l).port ≠ port) ∧
        outSlot out port n i k = j) ∨
      (∀ j, i ≤ j → j < i + n → (out j).port ≠ port) ∧
        outSlot out port n i k ≤ i + n - 1 ∧ ∀ j < i + n, (out (outSlot out port n i k)).ms ≤ (out j).ms ∧
          (j < outSlot out port n i k → (out (outSlot out port n i k)).ms < (out j).ms) := by
  induction n generalizing i k with
  | zero =>
    refine .inr ⟨fun j h1 h2 => by omega, ?_, hleast⟩
    rw [outSlot]
    omega
  | succ n ih =>
    rw [outSlot]
    by_cases hport : (out i).port = port
    · rw [if_pos hport]
      exact .inl ⟨i, le_rfl, by omega, hport, fun l h1 h2 => by omega, rfl⟩
    · rw [if_neg hport]
      obtain ⟨k', hk'⟩ : ∃ k', k' = if (out i).ms < (out k).ms then i else k := ⟨_, rfl⟩
      rw [← hk']
      have hstep : k' ≤ i ∧ ∀ j < i + 1, (out k').ms ≤ (out j).ms ∧ (j < k' → (out k').ms < (out j).ms) := by
        rw [hk']
        split_ifs with hlt
        · refine ⟨le_rfl, fun j hj => ?_⟩
          rcases Nat.lt_succ_iff_lt_or_eq.mp hj with hj | rfl
          · have := (hleast j hj).1
            exact ⟨by omega, fun _ => by omega⟩
          · exact ⟨le_rfl, fun h => absurd h (lt_irrefl _)⟩
        · refine ⟨hk, fun j hj => ?_⟩
          rcases Nat.lt_succ_iff_lt_or_eq.mp hj with hj | rfl
          · exact hleast j hj
          · exact ⟨by omega, fun h => by omega⟩
      rcases @ih (i + 1) k' (by omega) hstep.2 (.inl (by omega)) with
        ⟨j, h1, h2, h3, h4, h5⟩ | ⟨h1, h2, h3⟩
      · refine .inl ⟨j, by omega, by omega, h3, fun l hl hlj => ?_, h5⟩
        rcases Nat.eq_or_lt_of_le hl with rfl | hl
        · exact hport
        · exact h4 l hl hlj
      · refine .inr ⟨fun j hj hjn => ?_, by omega, fun j hj => h3 j (by omega)⟩
        rcases Nat.eq_or_lt_of_le hj with rfl | hj
        · exact hport
        · exact h1 j hj (by omega)

/-- The entry of the port, or the first of those with the least stamp. -/
theorem outSlot_spec (s : Host) (port : ℕ) :
    (outSlot s.out port udpOut 0 0 < udpOut ∧ (s.out (outSlot s.out port udpOut 0 0)).port = port ∧
        ∀ l < outSlot s.out port udpOut 0 0, (s.out l).port ≠ port) ∨
      (∀ i < udpOut, (s.out i).port ≠ port) ∧ s.FirstLeast (outSlot s.out port udpOut 0 0) := by
  rcases outSlot_from s.out port udpOut le_rfl (fun j hj => absurd hj (Nat.not_lt_zero j))
    (.inr rfl) with ⟨j, -, h2, h3, h4, h5⟩ | ⟨h1, h2, h3⟩
  · rw [h5]
    exact .inl ⟨by omega, h3, fun l hl => h4 l (Nat.zero_le l) hl⟩
  · refine .inr ⟨fun i hi => h1 i (Nat.zero_le i) (by omega), ?_, fun i hi => h3 i (by omega)⟩
    have hpos : 0 < udpOut := by decide
    omega

/-! ## What the table keeps -/

/-- The times of the log fall; of two entries with the same port the second is free; and a port that was
sent from in the last five minutes, with fewer than 32 others since, has its entry. -/
structure Tracked (s : Host) : Prop where
  sorted : s.sent.Pairwise fun p q => q.2 ≤ p.2
  le_now : ∀ p ∈ s.sent, p.2 ≤ s.now
  one : ∀ i < udpOut, ∀ j < udpOut, i ≠ j → (s.out i).port = (s.out j).port → (s.out i).ms ≠ 0 →
    i < j ∧ (s.out j).ms = 0
  kept : ∀ p t, lastSent s.sent p = some (p, t) → s.now < t + udpOutMs → (since s.sent p).card < udpOut →
    ∃ i < udpOut, (s.out i).port = p ∧ (s.out i).ms = stamp t

theorem stamp_ne_zero (t : ℕ) : stamp t ≠ 0 := by
  rw [stamp]
  split_ifs with h
  · exact h
  · decide

/-- An entry in use of another port is not taken for this one. -/
theorem Tracked.port_ne (h : Tracked s) {i : ℕ} (hi : i < udpOut) (hms : (s.out i).ms ≠ 0)
    (hne : i ≠ outSlot s.out port udpOut 0 0) : (s.out i).port ≠ port := by
  intro hport
  rcases outSlot_spec s port with ⟨h1, h2, h3⟩ | ⟨h1, -⟩
  · have hone := h.one i hi _ h1 hne (hport.trans h2.symm) hms
    exact h3 i hone.1 hport
  · exact h1 i hi hport

theorem Tracked.congr (h : Tracked s) (h1 : t.out = s.out) (h2 : t.sent = s.sent) (h3 : s.now ≤ t.now) :
    Tracked t where
  sorted := h2 ▸ h.sorted
  le_now p hp := (h.le_now p (h2 ▸ hp)).trans h3
  one := by
    rw [h1]
    exact h.one
  kept p u := by
    rw [h1, h2]
    exact fun hlast hnow hcard => h.kept p u hlast (by omega) hcard

/-- The entry that makes room is not one that has to be kept. -/
theorem Tracked.keeps (h : Tracked s) {p u : ℕ} (hfair : s.OldestFirst)
    (hnone : ∀ i < udpOut, (s.out i).port ≠ port) (hlast : lastSent s.sent p = some (p, u))
    (hnow : s.now < u + udpOutMs) (hcard : (insert port (since s.sent p)).card < udpOut) {j : ℕ}
    (hj : s.FirstLeast j) (hport : (s.out j).port = p) : (s.out j).ms = 0 := by
  have hmem : (p, u) ∈ s.sent := List.mem_of_find?_eq_some hlast
  rcases hfair j hj with hfree | hstale | hold
  · exact hfree
  · have := hstale u (hport ▸ hmem)
    omega
  · by_contra hms
    -- the other 31 entries and the new port were all sent from since
    have hused : ∀ i < udpOut, (s.out i).ms ≠ 0 := fun i hi => by
      have := (hj.2 i hi).1
      omega
    have hinj : Set.InjOn (fun i => (s.out i).port) ((Finset.range udpOut).erase j : Finset ℕ) := by
      intro a ha b hb hab
      rw [Finset.coe_erase, Set.mem_sdiff, Finset.mem_coe, Finset.mem_range] at ha hb
      by_contra hne
      exact hused b hb.1 (h.one a ha.1 b hb.1 hne hab (hused a ha.1)).2
    have hsub : insert port (((Finset.range udpOut).erase j).image fun i => (s.out i).port) ⊆
        insert port (since s.sent p) := by
      refine Finset.insert_subset_insert _ fun q hq => ?_
      obtain ⟨i, hi, rfl⟩ := Finset.mem_image.mp hq
      rw [Finset.mem_erase, Finset.mem_range] at hi
      exact hport ▸ hold i hi.2 hi.1
    have hnew : port ∉ ((Finset.range udpOut).erase j).image fun i => (s.out i).port := by
      intro hq
      obtain ⟨i, hi, hp⟩ := Finset.mem_image.mp hq
      rw [Finset.mem_erase, Finset.mem_range] at hi
      exact hnone i hi.2 hp
    have hle := Finset.card_le_card hsub
    rw [Finset.card_insert_of_notMem hnew, Finset.card_image_of_injOn hinj,
      Finset.card_erase_of_mem (Finset.mem_range.mpr hj.1), Finset.card_range] at hle
    omega

theorem Tracked.fwOutUdp (h : Tracked s)
    (hfair : (∃ i < udpOut, (s.out i).port = port) ∨ s.OldestFirst) : Tracked (s.fwOutUdp port) := by
  obtain ⟨k, hk⟩ : ∃ k, k = outSlot s.out port udpOut 0 0 := ⟨_, rfl⟩
  have hout : (s.fwOutUdp port).out = Function.update s.out k ⟨port, stamp s.now⟩ := by rw [hk]; rfl
  have hne : ∀ i < udpOut, (s.out i).ms ≠ 0 → i ≠ k → (s.out i).port ≠ port := fun i hi hms hik =>
    h.port_ne hi hms (hk ▸ hik)
  refine ⟨List.pairwise_cons.mpr ⟨h.le_now, h.sorted⟩, List.forall_mem_cons.mpr ⟨le_rfl, h.le_now⟩, ?_, ?_⟩
  · intro i hi j hj hij hports hms
    rw [hout] at hports hms ⊢
    by_cases hik : i = k
    · have hjk : j ≠ k := fun hj => hij (hik.trans hj.symm)
      rw [hik, Function.update_self, Function.update_of_ne hjk] at hports
      rw [Function.update_of_ne hjk]
      have hzero : (s.out j).ms = 0 := by
        by_contra hms'
        exact hne j hj hms' hjk hports.symm
      refine ⟨?_, hzero⟩
      rcases outSlot_spec s port with ⟨-, -, h3⟩ | ⟨h1, -⟩
      · rw [← hk] at h3
        by_contra hlt
        exact h3 j (by omega) hports.symm
      · exact absurd hports.symm (h1 j hj)
    · rw [Function.update_of_ne hik] at hports hms
      by_cases hjk : j = k
      · rw [hjk, Function.update_self] at hports
        exact absurd hports (hne i hi hms hik)
      · rw [Function.update_of_ne hjk] at hports ⊢
        exact h.one i hi j hj hij hports hms
  · intro p u hlast hnow hcard
    rw [hout]
    have hlt : k < udpOut := by
      rcases outSlot_spec s port with ⟨h1, -⟩ | ⟨-, h1⟩
      · exact hk ▸ h1
      · exact hk ▸ h1.1
    by_cases hp : port = p
    · subst hp
      have hu : u = s.now := by
        have hhead : lastSent (s.fwOutUdp port).sent port = some (port, s.now) :=
          List.find?_cons_of_pos (beq_self_eq_true port)
        exact congrArg Prod.snd (Option.some.inj (hlast.symm.trans hhead))
      exact ⟨k, hlt, by rw [Function.update_self], by rw [Function.update_self, hu]⟩
    · have hlast' : lastSent s.sent p = some (p, u) := by
        rw [← hlast]
        exact (List.find?_cons_of_neg (by simpa using hp)).symm
      have hsince : since (s.fwOutUdp port).sent p = insert port (since s.sent p) := since_cons_of_ne hp
      rw [hsince] at hcard
      obtain ⟨i, hi, hport, hms⟩ := h.kept p u hlast' hnow
        ((Finset.card_le_card (Finset.subset_insert _ _)).trans_lt hcard)
      have hik : i ≠ k := by
        rintro rfl
        rcases outSlot_spec s port with ⟨-, h2, -⟩ | ⟨h1, h2⟩
        · rw [← hk, hport] at h2
          exact hp h2.symm
        · rcases hfair with ⟨l, hl, hlp⟩ | hfair
          · exact h1 l hl hlp
          · refine stamp_ne_zero u (hms.symm.trans ?_)
            exact h.keeps hfair h1 hlast' hnow hcard (hk ▸ h2) hport
      exact ⟨i, hi, by rw [Function.update_of_ne hik, hport], by rw [Function.update_of_ne hik, hms]⟩

theorem Orderly.tracked (h : Orderly s) : Tracked s := by
  induction h with
  | @start s hout hsent =>
    refine ⟨hsent ▸ List.Pairwise.nil, fun p hp => ?_, fun i _ j _ _ _ hms => absurd ?_ hms,
      fun p u hlast => ?_⟩
    · rw [hsent] at hp
      exact absurd hp List.not_mem_nil
    · rw [hout]
    · rw [hsent] at hlast
      exact absurd hlast (by simp [lastSent])
  | send port _ hfair ih => exact ih.fwOutUdp hfair
  | tick n _ ih => exact ih.congr rfl rfl (Nat.le_add_right ..)
  | rx frame len mem _ ih =>
    obtain ⟨h1, h2, h3⟩ := @netRx_tables _ mem frame len
    exact ih.congr h1 h2 h3.ge
  | other _ h1 h2 h3 ih => exact ih.congr h1 h2 h3.ge

/-! ## Replies -/

/-- An entry of a sending in the last five minutes answers, but for one made in the very millisecond in
which the clock reads 0: its stamp is 1. -/
theorem answers_of_entry {i u : ℕ} (hi : i < udpOut) (hport : (s.out i).port = port)
    (hms : (s.out i).ms = stamp u) (hle : u ≤ s.now) (hnow : s.now < u + udpOutMs)
    (hzero : ¬(s.timerMs = 0 ∧ u = s.now)) : s.answers port = true := by
  refine List.any_eq_true.mpr ⟨i, List.mem_range.mpr hi, ?_⟩
  simp only [Bool.and_eq_true, beq_iff_eq, bne_iff_ne, ne_eq, decide_eq_true_eq]
  refine ⟨⟨hport, hms ▸ stamp_ne_zero u⟩, ?_⟩
  rw [hms]
  rw [Host.timerMs] at hzero ⊢
  rw [stamp]
  rw [udpOutMs] at hnow ⊢
  split_ifs <;> omega

/-- In a run in which the ports that make room are the oldest, a datagram to a port that was sent from
less than five minutes ago is let in if fewer than 32 others have been used since. -/
theorem answers_of_orderly (h : Orderly s) {pre rest : List (ℕ × ℕ)} {u : ℕ}
    (hsent : s.sent = pre ++ (port, u) :: rest) (hnow : s.now < u + udpOutMs)
    (hfew : ((pre.map Prod.fst).toFinset.erase port).card < udpOut)
    (hzero : ¬(s.timerMs = 0 ∧ (port, s.now) ∈ s.sent)) : (s.fwInUdp port).2 = true := by
  have htracked := h.tracked
  obtain ⟨v, hlast, hpre, hsub⟩ := lastSent_append port pre rest u
  rw [← hsent] at hlast hsub
  have hmem : (port, v) ∈ s.sent := List.mem_of_find?_eq_some hlast
  have hle : u ≤ v := by
    rcases hpre with hpre | rfl
    · exact (List.pairwise_append.mp (hsent ▸ htracked.sorted)).2.2 _ hpre _ (.head _)
    · exact le_rfl
  obtain ⟨i, hi, hport, hms⟩ := htracked.kept port v hlast (by omega)
    ((Finset.card_le_card hsub).trans_lt hfew)
  have hans := answers_of_entry hi hport hms (htracked.le_now _ hmem) (by omega)
    fun hz => hzero ⟨hz.1, hz.2 ▸ hmem⟩
  rw [Host.fwInUdp]
  split_ifs
  · rfl
  · rfl

/-- A machine at rest, its firewall on, when the clock is about to wrap. -/
def agedHost : Host where
  configured := true
  ip := 0
  netmask := 0
  ipv6On := false
  ll := []
  global := none
  on := true
  ping := false
  tcp := []
  udp := []
  out := fun _ => ⟨0, 0⟩
  blocked := 0
  bind := fun _ => none
  bind6 := fun _ => none
  listeners := fun _ => ⟨false, false, 0⟩
  conns := fun _ => ⟨false, false, .v4 0, .v4 0, 0, 0, none⟩
  now := 2 ^ 32 - 1
  sent := []

theorem answers_of_orderly_once : ((agedHost.fwOutUdp 40000).fwInUdp 40000).2 = true :=
  have h : Orderly (agedHost.fwOutUdp 40000) :=
    .send 40000 (.start (fun _ => rfl) rfl) (.inr fun _ _ => .inl rfl)
  have hsent : (agedHost.fwOutUdp 40000).sent = [] ++ (40000, 2 ^ 32 - 1) :: [] := rfl
  answers_of_orderly h hsent (by decide) (by decide) (by decide)

/-- 32 ports are sent from before the clock wraps, and two after it: the second of these takes the entry of
the first, whose reply is then refused. -/
theorem wrapped_refused : ∃ s, Reach s ∧ ∃ pre rest u, s.sent = pre ++ (40000, u) :: rest ∧ s.on = true ∧
    s.now < u + udpOutMs ∧ ((pre.map Prod.fst).toFinset.erase 40000).card < udpOut ∧
      (s.fwInUdp 40000).2 = false := by
  obtain ⟨s, hs⟩ : ∃ s, s = { (List.range' 1000 32).foldl Host.fwOutUdp agedHost with now := 2 ^ 32 + 5 } :=
    ⟨_, rfl⟩
  have hreach : Reach s := hs ▸ (Reach.sends (.start (fun _ => rfl) rfl) _).step (.tick 6)
  refine ⟨(s.fwOutUdp 40000).fwOutUdp 40001, (hreach.step (.send 40000)).step (.send 40001),
    [(40001, s.now)], s.sent, s.now, rfl, hs ▸ rfl, ?_, ?_, ?_⟩
  · exact Nat.lt_add_of_pos_right (by decide)
  · exact (Finset.card_erase_le.trans (List.toFinset_card_le _)).trans_lt (by decide : 1 < udpOut)
  · rw [hs]
    decide +kernel

end BananaOS.Net
