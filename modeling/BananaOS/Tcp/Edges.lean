import BananaOS.Tcp.Frames

/-!
# The right edge of the window

Each acknowledgement offers a window, and the sequence number where it ends is its right edge.  Behind
the edge stands a limit, `rcv_nxt` and the room in the ring, which only moves right: data moves room
into `rcv_nxt`, reading makes room, and what is discarded after a close moves `rcv_nxt` alone.  But the
window field counts in units of `2^rcv_ws` bytes and is rounded down, so the edge lies up to
`2^rcv_ws - 1` bytes below the limit, and by how much depends on the bytes received so far.  An edge
may therefore be left of an earlier one, by at most that much (`edges_bound`).

Edges are measured from the peer's SYN, by what `rcv_nxt` had passed when the segment was sent, so that
they do not go round.
-/

namespace BananaOS.Tcp

open Lib Lib.Serial

/-- The acknowledgements among the segments, those of a handshake apart. -/
def acks (l : List Sent) : List Sent := l.filter fun x => x.flags.ack && !x.flags.syn

/-- The right edge of the window a segment offers, when windows are scaled by `ws`. -/
def Sent.edge (ws : ℕ) (x : Sent) : ℕ := x.rcvd + x.wnd * 2 ^ ws

theorem acks_append (l l' : List Sent) : acks (l ++ l') = acks l ++ acks l' := List.filter_append ..

theorem mem_acks {l : List Sent} {x : Sent} :
    x ∈ acks l ↔ x ∈ l ∧ x.flags.ack = true ∧ x.flags.syn = false := by
  simp [acks]

namespace Conn

/-- What `rcv_nxt` could reach with the room there is: the limit, from the peer's SYN. -/
def limit (c : Conn) : ℕ := c.rcvd + (c.rbSize - c.rbuf.length)

/-- The acknowledgements sent so far, seen from the connection: none offers more than the limit allows
or than the field can say, and none lies far to the right of a later one. -/
structure Told (c : Conn) : Prop where
  fits : c.rbuf.length ≤ c.rbSize
  next : c.rcvNxt = fwd c.irs (1 + c.rcvd)
  scale : c.rcvWs = 0 ∨ c.rcvWs = rcvWscale
  ack : ∀ x ∈ acks c.sent, x.ack = fwd c.irs (1 + x.rcvd)
  past : ∀ x ∈ acks c.sent, x.rcvd ≤ c.rcvd
  limit : ∀ x ∈ acks c.sent, x.edge c.rcvWs ≤ c.limit
  field : ∀ x ∈ acks c.sent, x.edge c.rcvWs ≤ x.rcvd + 65535 * 2 ^ c.rcvWs
  order : (acks c.sent).Pairwise fun x y => x.edge c.rcvWs ≤ y.edge c.rcvWs + (2 ^ c.rcvWs - 1)

variable {c : Conn}

/-! ## The window now -/

/-- The window, rounded down, is the room less a rest, or as much as the field can say. -/
theorem advWindow_bounds (c : Conn) : c.advWindow ≤ c.rbSize - c.rbuf.length ∧
    c.advWindow ≤ 65535 * 2 ^ c.rcvWs ∧
    min (c.rbSize - c.rbuf.length) (65535 * 2 ^ c.rcvWs) ≤ c.advWindow + (2 ^ c.rcvWs - 1) := by
  unfold advWindow
  dsimp only
  have hpos : 0 < 2 ^ c.rcvWs := Nat.two_pow_pos _
  have hle := Nat.div_mul_le_self (min (c.rbSize - c.rbuf.length) (65535 * 2 ^ c.rcvWs)) (2 ^ c.rcvWs)
  have hlt := Nat.mod_lt (min (c.rbSize - c.rbuf.length) (65535 * 2 ^ c.rcvWs)) hpos
  have hsum := Nat.div_add_mod' (min (c.rbSize - c.rbuf.length) (65535 * 2 ^ c.rcvWs)) (2 ^ c.rcvWs)
  refine ⟨by omega, by omega, by omega⟩

theorem advWindow_field (c : Conn) : c.advWindow / 2 ^ c.rcvWs * 2 ^ c.rcvWs = c.advWindow := by
  unfold advWindow
  dsimp only
  rw [Nat.mul_div_cancel _ (Nat.two_pow_pos _)]

theorem Told.now (h : c.Told) {x : Sent} (hx : x ∈ acks c.sent) :
    x.edge c.rcvWs ≤ c.rcvd + c.advWindow + (2 ^ c.rcvWs - 1) := by
  have hlim := h.limit x hx
  have hfield := h.field x hx
  have hpast := h.past x hx
  obtain ⟨-, -, hmin⟩ := advWindow_bounds c
  unfold Conn.limit at hlim
  omega

/-! ## Sending -/

theorem Tells.edge {x : Sent} (ht : c.Tells x) (hs : x.flags.syn = false) :
    x.edge c.rcvWs = c.rcvd + c.advWindow := by
  unfold Sent.edge
  rw [ht.rcvd, ht.wnd hs, advWindow_field]

/-- Segments sent by the way keep it so. -/
theorem Told.same_in {c' : Conn} (h : c.Told) (hs : SameIn c c') : c'.Told := by
  obtain ⟨l, hl, hx⟩ := hs.sent
  obtain ⟨hroom, hfield, -⟩ := advWindow_bounds c
  have hnew : ∀ x ∈ acks l, x.edge c.rcvWs = c.rcvd + c.advWindow := fun x hm =>
    (hx x (mem_acks.mp hm).1).edge (mem_acks.mp hm).2.2
  have hrcvd : ∀ x ∈ acks l, x.rcvd = c.rcvd := fun x hm => (hx x (mem_acks.mp hm).1).rcvd
  have hlim : c'.limit = c.limit := by
    unfold Conn.limit
    rw [hs.rcvd, hs.rbSize, hs.rbuf]
  have hacks : acks c'.sent = acks c.sent ++ acks l := by rw [hl, acks_append]
  have hboth : ∀ {P : Sent → Prop}, (∀ x ∈ acks c.sent, P x) → (∀ x ∈ acks l, P x) →
      ∀ x ∈ acks c'.sent, P x := by
    intro P h1 h2 x hm
    rw [hacks] at hm
    rcases List.mem_append.mp hm with hm | hm
    · exact h1 x hm
    · exact h2 x hm
  refine ⟨by rw [hs.rbuf, hs.rbSize]; exact h.fits, by rw [hs.rcvNxt, hs.irs, hs.rcvd]; exact h.next,
    by rw [hs.rcvWs]; exact h.scale, ?_, ?_, ?_, ?_, ?_⟩
  · rw [hs.irs]
    refine hboth h.ack fun x hm => ?_
    rw [(hx x (mem_acks.mp hm).1).ack (mem_acks.mp hm).2.1, hrcvd x hm]
    exact h.next
  · rw [hs.rcvd]
    exact hboth h.past fun x hm => (hrcvd x hm).le
  · rw [hs.rcvWs, hlim]
    refine hboth h.limit fun x hm => ?_
    rw [hnew x hm]
    unfold Conn.limit
    omega
  · rw [hs.rcvWs]
    refine hboth h.field fun x hm => ?_
    rw [hnew x hm, hrcvd x hm]
    omega
  · rw [hs.rcvWs, hacks]
    refine List.pairwise_append.mpr ⟨h.order, ?_, fun x hm y hm' => ?_⟩
    · refine List.pairwise_of_forall_mem_list fun x hm y hm' => ?_
      rw [hnew x hm, hnew y hm']
      omega
    · rw [hnew y hm']
      exact h.now hm

/-! ## Receiving -/

theorem Told.forward {c' : Conn} (h : c.Told) (hirs : c'.irs = c.irs) (hws : c'.rcvWs = c.rcvWs)
    (hsent : c'.sent = c.sent) (hfits : c'.rbuf.length ≤ c'.rbSize)
    (hnext : c'.rcvNxt = fwd c'.irs (1 + c'.rcvd)) (hpast : c.rcvd ≤ c'.rcvd)
    (hlim : c.limit ≤ c'.limit) : c'.Told := by
  refine ⟨hfits, hnext, by rw [hws]; exact h.scale, ?_, ?_, ?_, ?_, ?_⟩
  · rw [hsent, hirs]
    exact h.ack
  · rw [hsent]
    exact fun x hx => (h.past x hx).trans hpast
  · rw [hsent, hws]
    exact fun x hx => (h.limit x hx).trans hlim
  · rw [hsent, hws]
    exact h.field
  · rw [hsent, hws]
    exact h.order

theorem Told.deliver (h : c.Told) (data : List UInt8) : (c.deliver data).1.Told := by
  have hfits := h.fits
  unfold Conn.deliver
  split
  · -- discarded: `rcv_nxt` moves, the room stays
    refine h.forward rfl rfl rfl h.fits ?_ (Nat.le_add_right _ _) ?_
    · show fwd c.rcvNxt data.length = fwd c.irs (1 + (c.rcvd + data.length))
      rw [h.next, fwd_fwd, Nat.add_assoc]
    · show c.rcvd + (c.rbSize - c.rbuf.length) ≤ c.rcvd + data.length + (c.rbSize - c.rbuf.length)
      omega
  · -- stored: room becomes `rcv_nxt`
    have hlen : (c.rbuf ++ data.take (min data.length (c.rbSize - c.rbuf.length))).length =
        c.rbuf.length + min data.length (c.rbSize - c.rbuf.length) := by
      rw [List.length_append, List.length_take]
      omega
    refine h.forward rfl rfl rfl ?_ ?_ (Nat.le_add_right _ _) ?_
    · show (c.rbuf ++ data.take (min data.length (c.rbSize - c.rbuf.length))).length ≤ c.rbSize
      omega
    · show fwd c.rcvNxt (min data.length (c.rbSize - c.rbuf.length)) =
        fwd c.irs (1 + (c.rcvd + min data.length (c.rbSize - c.rbuf.length)))
      rw [h.next, fwd_fwd, Nat.add_assoc]
    · show c.rcvd + (c.rbSize - c.rbuf.length) ≤
        c.rcvd + min data.length (c.rbSize - c.rbuf.length) +
          (c.rbSize - (c.rbuf ++ data.take (min data.length (c.rbSize - c.rbuf.length))).length)
      omega

theorem Told.finReceived (h : c.Told) (now : Serial) : (c.finReceived now).Told := by
  refine h.forward rfl rfl rfl h.fits ?_ (Nat.le_add_right _ _) ?_
  · show fwd c.rcvNxt 1 = fwd c.irs (1 + (c.rcvd + 1))
    rw [h.next, fwd_fwd, Nat.add_assoc]
  · show c.rcvd + (c.rbSize - c.rbuf.length) ≤ c.rcvd + 1 + (c.rbSize - c.rbuf.length)
    omega

theorem Told.arrive (h : c.Told) (g : Seg) (now : Serial) (mem : Bool) : (c.arrive g now mem).Told :=
  arrive_rule (P := Told) (fun _ data h => h.deliver data) (fun _ now h => h.finReceived now)
    (fun _ _ _ h => h.forward rfl rfl rfl h.fits h.next le_rfl le_rfl)
    (fun _ _ _ h => h.forward rfl rfl rfl h.fits h.next le_rfl le_rfl) g now mem h

theorem Told.takeIn (h : c.Told) (g : Seg) (now : Serial) (mem : Bool) : (c.takeIn g now mem).Told := by
  unfold Conn.takeIn
  split
  · unfold ackSecond
    split
    · exact (h.arrive g now mem).same_in (in_sendAck _)
    · exact h.arrive g now mem
  · exact h

/-! ## A segment -/

theorem Told.quiet {c' : Conn} (h : c.Told) (hirs : c'.irs = c.irs) (hws : c'.rcvWs = c.rcvWs)
    (hsent : c'.sent = c.sent) (hbuf : c'.rbuf = c.rbuf) (hsize : c'.rbSize = c.rbSize)
    (hnext : c'.rcvNxt = c.rcvNxt) (hrcvd : c'.rcvd = c.rcvd) : c'.Told :=
  h.forward hirs hws hsent (by rw [hbuf, hsize]; exact h.fits)
    (by rw [hnext, hirs, hrcvd]; exact h.next) hrcvd.ge
    (by unfold Conn.limit; rw [hrcvd, hsize, hbuf])

theorem Told.inputRest (h : c.Told) (g : Seg) (now : Serial) (mem : Bool) :
    (c.inputRest g now mem).Told := by
  unfold Conn.inputRest
  split
  · exact h
  · split
    · split
      · exact (h.same_in (in_sendAck c)).quiet rfl rfl rfl rfl rfl rfl rfl
      · exact h
    · exact (h.takeIn g now mem).same_in (in_tcpOutput _ now)

theorem Told.inputOpen (h : c.Told) (g : Seg) (wnd : ℕ) (now : Serial) (mem : Bool) :
    (c.inputOpen g wnd now mem).Told := by
  unfold Conn.inputOpen
  split
  · split
    · exact h.quiet rfl rfl rfl rfl rfl rfl rfl
    · exact h
  · split
    · exact h.same_in (in_sendAck c)
    · refine Told.inputRest ?_ g now mem
      split
      · exact h.same_in (in_ackProcessing c _ _ _ _ _ _ now)
      · exact h

/-- Once the handshake has begun to be answered, every segment keeps it so. -/
theorem Told.input (h : c.Told) (hs : c.state ≠ .synSent) (g : Seg) (now : Serial) (mem : Bool) :
    (c.input g now mem).Told := by
  unfold Conn.input
  dsimp only
  split
  · exact h
  · split
    · split
      · exact h.quiet rfl rfl rfl rfl rfl rfl rfl
      · split
        · exact h.same_in (in_sendSeg c _ _ _)
        · split
          · exact h
          · exact (h.same_in (in_handshakeDone c _ _ _ now)).inputOpen g _ now mem
    · exact h.inputOpen g _ now mem

/-! ## The beginning -/

/-- A connection we began and that was not answered: nothing was received and nothing acknowledged. -/
structure Young (c : Conn) : Prop where
  state : c.state = .synSent ∨ c.state = .closed
  unsaid : acks c.sent = []
  rbuf : c.rbuf = []

theorem syn_options (c : Conn) (opt : List UInt8) : (c.parseSynOpts opt).sent = c.sent ∧
    (c.parseSynOpts opt).rbuf = c.rbuf ∧ (c.parseSynOpts opt).rcvNxt = c.rcvNxt ∧
    (c.parseSynOpts opt).rcvd = c.rcvd ∧ (c.parseSynOpts opt).irs = c.irs := by
  have hone : ∀ (c : Conn) (o : UInt8 × List UInt8), (c.synOpt o).sent = c.sent ∧
      (c.synOpt o).rbuf = c.rbuf ∧ (c.synOpt o).rcvNxt = c.rcvNxt ∧ (c.synOpt o).rcvd = c.rcvd ∧
      (c.synOpt o).irs = c.irs := by
    intro c o
    obtain ⟨m, h⟩ | ⟨w, h⟩ | h | h := c.synOpt_cases o <;> rw [h] <;>
      exact ⟨rfl, rfl, rfl, rfl, rfl⟩
  have hall : ∀ (l : List (UInt8 × List UInt8)) (c : Conn), (l.foldl synOpt c).sent = c.sent ∧
      (l.foldl synOpt c).rbuf = c.rbuf ∧ (l.foldl synOpt c).rcvNxt = c.rcvNxt ∧
      (l.foldl synOpt c).rcvd = c.rcvd ∧ (l.foldl synOpt c).irs = c.irs := by
    intro l
    induction l with
    | nil => exact fun c => ⟨rfl, rfl, rfl, rfl, rfl⟩
    | cons o rest ih =>
      intro c
      obtain ⟨h1, h2, h3, h4, h5⟩ := ih (c.synOpt o)
      obtain ⟨k1, k2, k3, k4, k5⟩ := hone c o
      exact ⟨h1.trans k1, h2.trans k2, h3.trans k3, h4.trans k4, h5.trans k5⟩
  exact hall _ _

/-- Nothing was acknowledged yet, and `rcv_nxt` is where it should be. -/
theorem told_begin (hsent : acks c.sent = []) (hbuf : c.rbuf = [])
    (hnext : c.rcvNxt = fwd c.irs (1 + c.rcvd)) (hws : c.rcvWs = 0 ∨ c.rcvWs = rcvWscale) :
    c.Told := by
  have hno : ∀ {P : Sent → Prop}, ∀ x ∈ acks c.sent, P x := fun x hx => by
    rw [hsent] at hx
    exact absurd hx List.not_mem_nil
  exact ⟨by rw [hbuf]; exact Nat.zero_le _, hnext, hws, hno, hno, hno, hno, by rw [hsent]; exact .nil⟩

/-- The options of a SYN say how windows are scaled from now on. -/
theorem told_options (hsent : acks c.sent = []) (hbuf : c.rbuf = [])
    (hnext : c.rcvNxt = fwd c.irs (1 + c.rcvd)) (opt : List UInt8) :
    (c.parseSynOpts opt).optsAgreed.Told := by
  obtain ⟨h1, h2, h3, h4, h5⟩ := syn_options c opt
  refine told_begin ?_ ?_ ?_ ?_
  · show acks (c.parseSynOpts opt).sent = []
    rw [h1]
    exact hsent
  · show (c.parseSynOpts opt).rbuf = []
    rw [h2]
    exact hbuf
  · show (c.parseSynOpts opt).rcvNxt = fwd (c.parseSynOpts opt).irs (1 + (c.parseSynOpts opt).rcvd)
    rw [h3, h4, h5]
    exact hnext
  · unfold optsAgreed
    dsimp only
    split
    · exact Or.inr rfl
    · exact Or.inl rfl

/-- The answer to our SYN: what is received begins with it. -/
theorem Young.inputSynSent (h : c.Young) (g : Seg) (wnd : ℕ) (now : Serial) :
    (c.inputSynSent g wnd now).Young ∨
      ((c.inputSynSent g wnd now).Told ∧ (c.inputSynSent g wnd now).state ≠ .synSent) := by
  have hbegun : ({ c with
      irs := g.seq, rcvNxt := fwd g.seq 1, rcvd := 0
      sndUna := g.ack, sndWnd := wnd, sndWl1 := g.seq, sndWl2 := g.ack }.parseSynOpts
        g.opt).optsAgreed.Told := by
    apply told_options
    · exact h.unsaid
    · exact h.rbuf
    · rfl
  have hopen : ∀ b : Conn, b.Told →
      (({ b with retries := 0, timerOn := false, state := .established }.sendAck).tcpOutput now).Told ∧
      (({ b with retries := 0, timerOn := false, state := .established }.sendAck).tcpOutput
        now).state ≠ .synSent := by
    intro b hb
    have h1 : Told { b with retries := 0, timerOn := false, state := .established } :=
      hb.quiet rfl rfl rfl rfl rfl rfl rfl
    have h2 : ({ b with retries := 0, timerOn := false, state := .established }.sendAck).state ≠
        .synSent := fun h => by cases h
    exact ⟨(h1.same_in (in_sendAck _)).same_in (in_tcpOutput _ now), begun_tcpOutput h2 now⟩
  unfold Conn.inputSynSent
  split
  · exact Or.inl h
  · split
    · split
      · exact Or.inl ⟨Or.inr rfl, h.unsaid, h.rbuf⟩
      · exact Or.inl h
    · split
      · exact Or.inr (hopen _ (hbegun.same_in (in_rttEnd _ now)))
      · exact Or.inl h

theorem Young.input (h : c.Young) (g : Seg) (now : Serial) (mem : Bool) :
    (c.input g now mem).Young ∨
      ((c.input g now mem).Told ∧ (c.input g now mem).state ≠ .synSent) := by
  unfold Conn.input
  dsimp only
  by_cases hc : ¬ c.used ∨ c.state = .closed
  · rw [if_pos hc]
    exact Or.inl h
  · have hs : c.state = .synSent := h.state.resolve_right fun hs => hc (Or.inr hs)
    rw [if_neg hc, if_neg (by rw [hs]; decide), if_pos hs]
    exact h.inputSynSent g _ now

/-! ## Ticks and calls -/

/-- The state of a connection that is no longer used: what it sent stays, in terms of the scale it had. -/
def Gone (c : Conn) : Prop := c.used = false ∧ ∃ b : Conn, b.Told ∧ b.sent = c.sent

/-- Where a connection can be. -/
def Tracked (c : Conn) : Prop := c.Young ∨ (c.Told ∧ c.state ≠ .synSent) ∨ c.Gone

theorem Gone.step (h : c.Gone) (e : Event) : (c.step e).Gone := by
  have hkeep : ∀ c' : Conn, (if c.used then c' else c).Gone := by
    intro c'
    rw [if_neg (by rw [h.1]; exact Bool.false_ne_true)]
    exact h
  cases e with
  | segment g now mem =>
    show (c.input g now mem).Gone
    unfold Conn.input
    dsimp only
    rw [if_pos (Or.inl (by rw [h.1]; exact Bool.false_ne_true))]
    exact h
  | tick now => exact hkeep _
  | flush =>
    show c.tcpFlush.Gone
    unfold tcpFlush
    rw [if_neg (fun hc => by rw [h.1] at hc; exact Bool.false_ne_true hc.1)]
    exact h
  | send data now => exact hkeep _
  | recv max => exact hkeep _
  | close now => exact hkeep _
  | abort => exact hkeep _
  | connected => exact hkeep _
  | accept => exact hkeep _

theorem Told.free (h : c.Told) : c.connFree.Gone := ⟨rfl, c, h, rfl⟩

theorem Young.free (h : c.Young) : c.connFree.Tracked :=
  Or.inr (Or.inr ⟨rfl, { Conn.zero c.sent with rcvNxt := 1 },
    told_begin h.unsaid rfl rfl (Or.inl rfl), rfl⟩)

/-- A segment that acknowledges nothing is none of the acknowledgements. -/
theorem acks_sendSeg (c : Conn) (seq : Serial) {f : Flags} (data : List UInt8) (hf : f.ack = false) :
    acks (c.sendSeg seq f data).sent = acks c.sent := by
  obtain ⟨x, hx, hflags⟩ : ∃ x, (c.sendSeg seq f data).sent = c.sent ++ [x] ∧ x.flags = f :=
    ⟨_, rfl, rfl⟩
  have hnil : acks [x] = [] := by
    unfold acks
    rw [List.filter_eq_nil_iff]
    intro y hy
    rw [List.mem_singleton.mp hy, hflags, hf]
    exact Bool.false_ne_true
  rw [hx, acks_append, hnil, List.append_nil]

theorem Young.tick (h : c.Young) (now : Serial) : (c.tcpTimer now).Tracked := by
  have hend : c.endTimeWait now = c := by
    unfold endTimeWait
    rw [if_neg]
    rintro ⟨hc, -⟩
    rcases h.state with hs | hs <;> rw [hs] at hc <;> cases hc
  have hrun : (c.runTimer now).Young := by
    unfold runTimer
    split
    next hex =>
      have hs : c.state = .synSent := h.state.resolve_right hex.2.1
      have hhand : c.countRetry.handshake = true := by
        show decide (c.state = .synSent ∨ c.state = .synRcvd) = true
        rw [hs]
        rfl
      unfold onTimeout
      dsimp only
      split
      · unfold giveUp
        rw [hhand]
        exact ⟨Or.inr rfl, h.unsaid, h.rbuf⟩
      · have hnot : ¬ c.countRetry.backOff.state = .synRcvd := by
          show ¬ c.state = .synRcvd
          rw [hs]
          decide
        have his : c.countRetry.backOff.state = .synSent := hs
        have hsent := acks_sendSeg c.countRetry.backOff c.iss (f := { syn := true }) [] rfl
        have hyoung : (c.countRetry.backOff.sendSeg c.iss { syn := true } []).Young :=
          ⟨Or.inl hs, hsent.trans h.unsaid, h.rbuf⟩
        rw [if_neg hnot, if_pos his]
        exact ⟨hyoung.state, hyoung.unsaid, hyoung.rbuf⟩
    next hex => exact h
  unfold tcpTimer
  split
  · rw [hend]
    unfold reap
    split
    · exact hrun.free
    · exact Or.inl hrun
  · exact Or.inl h

theorem Told.tick (h : c.Told) (now : Serial) :
    (c.tcpTimer now).Told ∨ (c.tcpTimer now).Gone := by
  have hend : (c.endTimeWait now).Told := by
    unfold endTimeWait
    split
    · exact h.quiet rfl rfl rfl rfl rfl rfl rfl
    · exact h
  have hrun : ((c.endTimeWait now).runTimer now).Told := by
    unfold runTimer
    split
    · exact hend.same_in (in_onTimeout _ now)
    · exact hend
  unfold tcpTimer
  split
  · unfold reap
    split
    · exact Or.inr hrun.free
    · exact Or.inl hrun
  · exact Or.inl h

theorem Told.recv (h : c.Told) (max : ℕ) : (c.tcpRecv max).1.Told := by
  unfold tcpRecv
  split
  · exact h
  · dsimp only
    -- room is made
    have hread : Told { c with rbuf := c.rbuf.drop (min max c.rbuf.length) } := by
      have hfits := h.fits
      have hlen : (c.rbuf.drop (min max c.rbuf.length)).length ≤ c.rbuf.length := by
        rw [List.length_drop]
        omega
      refine h.forward rfl rfl rfl (hlen.trans hfits) h.next le_rfl ?_
      show c.rcvd + (c.rbSize - c.rbuf.length) ≤
        c.rcvd + (c.rbSize - (c.rbuf.drop (min max c.rbuf.length)).length)
      omega
    split
    · exact hread.same_in (in_sendAck _)
    · exact hread

theorem Told.close (h : c.Told) (now : Serial) :
    (c.tcpClose now).Told ∨ (c.tcpClose now).Gone := by
  have hbegun : ({ c with userClosed := true }.closing now).Told := by
    have huser : Told { c with userClosed := true } := h.quiet rfl rfl rfl rfl rfl rfl rfl
    unfold closing
    split
    · have hpend : Told { c with userClosed := true, finPending := true } :=
        h.quiet rfl rfl rfl rfl rfl rfl rfl
      exact hpend.same_in (in_tcpOutput _ now)
    · split
      · exact h.quiet rfl rfl rfl rfl rfl rfl rfl
      · exact huser
  unfold tcpClose
  dsimp only
  split
  · exact Or.inr hbegun.free
  · exact Or.inl hbegun

theorem Young.close (h : c.Young) (now : Serial) : (c.tcpClose now).Tracked := by
  have hbegun : ({ c with userClosed := true }.closing now).Young := by
    unfold closing
    rcases h.state with hs | hs
    · rw [if_neg (by rintro (hc | hc) <;> exact absurd (hs.symm.trans hc) (by decide)), if_pos hs]
      exact ⟨Or.inr rfl, h.unsaid, h.rbuf⟩
    · rw [if_neg (by rintro (hc | hc) <;> exact absurd (hs.symm.trans hc) (by decide)),
        if_neg (fun hc => absurd (hs.symm.trans hc) (by decide))]
      exact ⟨Or.inr hs, h.unsaid, h.rbuf⟩
  unfold tcpClose
  dsimp only
  split
  · exact hbegun.free
  · exact Or.inl hbegun

theorem Young.not (h : c.Young) {s : State} (hs : s ≠ .synSent) (hs' : s ≠ .closed) : c.state ≠ s := by
  rintro rfl
  exact h.state.elim hs hs'

theorem Young.step (h : c.Young) (e : Event) : (c.step e).Tracked := by
  have hkeep : ∀ c' : Conn, c'.Tracked → (if c.used then c' else c).Tracked := by
    intro c' hc'
    split
    · exact hc'
    · exact Or.inl h
  cases e with
  | segment g now mem =>
    rcases h.input g now mem with h' | h'
    · exact Or.inl h'
    · exact Or.inr (Or.inl h')
  | tick now => exact h.tick now
  | flush =>
    show c.tcpFlush.Tracked
    unfold tcpFlush
    split
    next hc => exact absurd hc.2.2.2.1 (fun hne => (h.state.elim hne hc.2.2.1))
    next hc => exact Or.inl h
  | send data now =>
    refine hkeep (c.tcpSend data now) ?_
    unfold tcpSend
    rw [if_neg]
    · exact Or.inl h
    · rintro ⟨-, hc | hc⟩
      · exact h.not (by decide) (by decide) hc
      · exact h.not (by decide) (by decide) hc
  | recv max =>
    refine hkeep (c.tcpRecv max).1 ?_
    unfold tcpRecv
    rw [if_pos h.rbuf]
    exact Or.inl h
  | close now => exact hkeep _ (h.close now)
  | abort =>
    refine hkeep c.tcpAbort ?_
    unfold tcpAbort
    rw [if_neg (fun hc => h.state.elim hc.2.1 hc.1)]
    exact h.free
  | connected =>
    refine hkeep c.connected ?_
    unfold Conn.connected
    rw [if_neg (h.not (by decide) (by decide))]
    exact Or.inl h
  | accept =>
    refine hkeep c.accept (Or.inl ?_)
    unfold Conn.accept
    split <;> exact ⟨h.state, h.unsaid, h.rbuf⟩

theorem Told.step (h : c.Told) (hs : c.state ≠ .synSent) (e : Event) :
    (c.step e).Told ∨ (c.step e).Gone := by
  have hkeep : ∀ c' : Conn, c'.Told ∨ c'.Gone → (if c.used then c' else c).Told ∨
      (if c.used then c' else c).Gone := by
    intro c' hc'
    split
    · exact hc'
    · exact Or.inl h
  cases e with
  | segment g now mem => exact Or.inl (h.input hs g now mem)
  | tick now => exact h.tick now
  | flush =>
    refine Or.inl ?_
    show c.tcpFlush.Told
    unfold tcpFlush
    split
    · exact h.same_in (in_sendAck c)
    · exact h
  | send data now =>
    refine hkeep (c.tcpSend data now) (Or.inl ?_)
    unfold tcpSend
    split
    · dsimp only
      split
      · exact h
      · have hbuf : Told { c with
            sbuf := c.sbuf ++ data.take (min (c.sbSize - c.sbuf.length) data.length) } :=
          h.quiet rfl rfl rfl rfl rfl rfl rfl
        exact hbuf.same_in (in_tcpOutput _ now)
    · exact h
  | recv max => exact hkeep _ (Or.inl (h.recv max))
  | close now => exact hkeep _ (h.close now)
  | abort =>
    refine hkeep c.tcpAbort (Or.inr ?_)
    unfold tcpAbort
    split
    · exact (h.same_in (in_sendSeg c c.sndNxt { rst := true, ack := true } [])).free
    · exact h.free
  | connected =>
    refine hkeep c.connected (Or.inl ?_)
    unfold Conn.connected
    split
    · exact h.quiet rfl rfl rfl rfl rfl rfl rfl
    · exact h
  | accept =>
    refine hkeep c.accept (Or.inl ?_)
    unfold Conn.accept
    split
    · exact h.quiet rfl rfl rfl rfl rfl rfl rfl
    · exact h

end Conn

end BananaOS.Tcp
