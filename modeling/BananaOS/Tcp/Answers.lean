import BananaOS.Tcp.Frames

/-!
# Which segments are answered

A segment with data or a FIN is to be acknowledged, at once or by the next `tcp_flush`: a peer that
sends it again does so because it has not seen our acknowledgement.  While data is taken that is so in
every branch, for old, in-order, out-of-order and refused segments alike.  Where none is taken any more
the branches are skipped as a whole: a FIN that comes again in `CLOSE_WAIT`, `CLOSING` or `LAST_ACK`
and data in `TIME_WAIT` leave no trace (`input_answered`).  There only what the connection happens to
send of its own carries an acknowledgement.
-/

namespace BananaOS.Tcp

open Lib Lib.Serial

/-- The states from `ESTABLISHED` to `TIME_WAIT`. -/
def State.synchronized (s : State) : Prop := s ≠ .closed ∧ s ≠ .synSent ∧ s ≠ .synRcvd

namespace Conn

/-- An acknowledgement of all that was received is pending, or one was sent after the first `n`
segments. -/
def Acked (n : ℕ) (c : Conn) : Prop :=
  (c.ackPending = true ∧ c.state ≠ .closed) ∨
    ∃ x ∈ c.sent.drop n, x.flags.ack = true ∧ x.ack = c.rcvNxt

/-- The segment is one that the code answers: no reset, and a SYN, or data is being taken, or it is a
FIN in `TIME_WAIT`, or in `CLOSING` and acknowledges ours. -/
def Answerable (c : Conn) (g : Seg) : Prop :=
  g.flags.rst = false ∧ (g.flags.syn = true ∨ c.canReceive = true ∨ (g.flags.fin = true ∧
    (c.state = .timeWait ∨ (c.state = .closing ∧ g.flags.ack = true ∧ c.isNew g.ack ∧
      c.finSent = true ∧ gt g.ack c.finSeq))))

/-- Nothing is pending, to be sent or to be sent again. -/
structure Quiet (c : Conn) : Prop where
  pending : c.ackPending = false
  sbuf : c.sbuf = []
  fin : c.finPending = true → c.finSent = true

variable {c : Conn} {n : ℕ}

/-! ## What is sent carries the acknowledgement -/

theorem acked_sendSeg (seq : Serial) {f : Flags} (data : List UInt8) (hf : f.ack = true)
    (hn : n ≤ c.sent.length) : Acked n (c.sendSeg seq f data) := by
  obtain ⟨x, hx, hack, hflags⟩ : ∃ x, (c.sendSeg seq f data).sent = c.sent ++ [x] ∧
      x.ack = c.rcvNxt ∧ x.flags = f := ⟨_, rfl, if_pos hf, rfl⟩
  refine Or.inr ⟨x, ?_, by rw [hflags]; exact hf, hack⟩
  rw [hx, List.drop_append_of_le_length hn]
  exact List.mem_append_right _ (List.mem_singleton.mpr rfl)

theorem acked_sendAck (hn : n ≤ c.sent.length) : Acked n c.sendAck := acked_sendSeg _ _ rfl hn

theorem Acked.same {c' : Conn} (h : Acked n c) (hp : c'.ackPending = c.ackPending)
    (hs : c.state ≠ .closed → c'.state ≠ .closed) (hx : c'.sent = c.sent)
    (hr : c'.rcvNxt = c.rcvNxt) : Acked n c' := by
  rcases h with ⟨hpend, hst⟩ | hsent
  · exact Or.inl ⟨hp.trans hpend, hs hst⟩
  · refine Or.inr ?_
    rw [hx, hr]
    exact hsent

theorem acked_outputLoop (now : Serial) (fuel : ℕ) (h : Acked n c) (hn : n ≤ c.sent.length) :
    Acked n (outputLoop now fuel c) ∧ n ≤ (outputLoop now fuel c).sent.length := by
  induction fuel generalizing c with
  | zero => exact ⟨h, hn⟩
  | succ fuel ih =>
    unfold outputLoop
    dsimp only
    split
    · exact ⟨h, hn⟩
    · split
      · exact ⟨h.same rfl id rfl rfl, hn⟩
      · -- the bytes go out with an acknowledgement
        have hseg := acked_sendSeg (c := c) c.sndNxt
          (f := { ack := true, psh := decide (dist c.sndUna c.sndNxt +
            c.sendable (dist c.sndUna c.sndNxt) = c.sbuf.length) })
          ((c.sbuf.drop (dist c.sndUna c.sndNxt)).take (c.sendable (dist c.sndUna c.sndNxt))) rfl hn
        refine ih (hseg.same rfl id rfl rfl) ?_
        show n ≤ (c.sent ++ [_]).length
        rw [List.length_append]
        omega

theorem finOut_open {s : State} (h : s ≠ .closed) : s.finOut ≠ .closed := by
  cases s <;> first | exact h | decide

theorem acked_tcpOutput (now : Serial) (h : Acked n c) (hn : n ≤ c.sent.length) :
    Acked n (c.tcpOutput now) := by
  unfold tcpOutput
  split
  · obtain ⟨hl, hnl⟩ := acked_outputLoop now c.sbuf.length h hn
    unfold outputFin
    split
    · have hseg := acked_sendSeg (c := { outputLoop now c.sbuf.length c with
        finSeq := (outputLoop now c.sbuf.length c).sndNxt })
        (outputLoop now c.sbuf.length c).sndNxt (f := { fin := true, ack := true }) [] rfl hnl
      exact hseg.same rfl finOut_open rfl rfl
    · exact hl
  · exact h

/-! ## Nothing is forgotten while data is taken -/

theorem canReceive_open (h : c.canReceive = true) :
    c.state ≠ .closed ∧ c.state ≠ .timeWait ∧ c.state ≠ .synSent ∧ c.state ≠ .synRcvd := by
  unfold canReceive at h
  refine ⟨?_, ?_, ?_, ?_⟩ <;> rintro hc <;> rw [hc] at h <;> exact absurd h (by decide)

theorem finIn_open (s : State) (h : s ≠ .closed) : s.finIn ≠ .closed := by
  cases s <;> first | exact h | decide

/-- Every branch of the arrival leaves an acknowledgement pending, and every second one sends it. -/
theorem acked_takeIn (g : Seg) (now : Serial) (mem : Bool) (hr : c.canReceive = true)
    (hg : g.data ≠ [] ∨ g.flags.fin = true) (hn : n ≤ (c.arrive g now mem).sent.length) :
    Acked n (c.takeIn g now mem) := by
  unfold takeIn
  rw [if_pos ⟨hr, hg⟩]
  unfold ackSecond
  split
  · exact acked_sendAck hn
  · refine Or.inl ⟨?_, arrive_state finIn_open g now mem (canReceive_open hr).1⟩
    unfold arrive
    split
    · rfl
    · split <;> rfl

theorem finAcked_canReceive {s : State}
    (h : decide (s = .established ∨ s = .finWait1 ∨ s = .finWait2) = true) :
    decide (s.finAcked = .established ∨ s.finAcked = .finWait1 ∨ s.finAcked = .finWait2) = true := by
  cases s <;> first | exact absurd h (by decide) | decide

/-- The connection as it is when data and FIN are looked at. -/
def seen (c : Conn) (g : Seg) (now : Serial) : Conn :=
  if g.flags.ack then
    c.ackProcessing g.seq g.ack (g.wnd * 2 ^ c.sndWs) g.data.length g.flags g.opt now
  else c

theorem in_seen (g : Seg) (now : Serial) : SameIn c (c.seen g now) := by
  unfold seen
  split
  · exact in_ackProcessing c _ _ _ _ _ _ now
  · exact SameIn.refl c

theorem seen_state (g : Seg) (now : Serial) : (c.seen g now).state =
    if g.flags.ack = true ∧ c.isNew g.ack ∧ c.finSent = true ∧ gt g.ack c.finSeq then
      c.state.finAcked else c.state := by
  unfold seen
  by_cases ha : g.flags.ack = true
  · rw [if_pos ha, ackProcessing_state]
    simp only [ha, true_and]
  · rw [if_neg ha, if_neg (fun h => ha h.1)]

/-- After the handshake a segment that is neither a reset nor a SYN is seen and taken in. -/
theorem input_eq (hu : c.used = true) (hs : c.state.synchronized) {g : Seg} (hr : g.flags.rst = false)
    (hsyn : g.flags.syn = false) (now : Serial) (mem : Bool) :
    c.input g now mem = (c.seen g now).inputRest g now mem := by
  have hopen : ¬ (¬ c.used ∨ c.state = .closed) := by
    rintro (h | h)
    · exact h hu
    · exact hs.1 h
  unfold input
  dsimp only
  rw [if_neg hopen, if_neg hs.2.2, if_neg hs.2.1, hsyn]
  unfold inputOpen
  rw [hr, hsyn]
  rfl

/-! ## Which are answered -/

/-- **What is answerable is answered.** -/
theorem Answerable.acked {g : Seg} (h : c.Answerable g) (hu : c.used = true)
    (hs : c.state.synchronized) (hg : g.data ≠ [] ∨ g.flags.fin = true) (now : Serial) (mem : Bool) :
    Acked c.sent.length (c.input g now mem) := by
  obtain ⟨hr, hans⟩ := h
  by_cases hsyn : g.flags.syn = true
  · have hopen : ¬ (¬ c.used ∨ c.state = .closed) := by
      rintro (h | h)
      · exact h hu
      · exact hs.1 h
    unfold input
    dsimp only
    rw [if_neg hopen, if_neg hs.2.2, if_neg hs.2.1]
    unfold inputOpen
    rw [hr, hsyn]
    exact acked_sendAck (Nat.le_refl _)
  have hsyn : g.flags.syn = false := Bool.eq_false_iff.mpr hsyn
  rw [input_eq hu hs hr hsyn]
  have hle := (in_seen (c := c) g now).sent_le
  unfold inputRest
  rcases hans with h | h | ⟨hfin, h⟩
  · rw [hsyn] at h
    cases h
  · -- data is taken, before and after our FIN is acknowledged
    have hrecv : (c.seen g now).canReceive = true := by
      unfold canReceive
      rw [seen_state]
      split
      · exact finAcked_canReceive h
      · exact h
    obtain ⟨h1, h2, -, -⟩ := canReceive_open hrecv
    rw [if_neg h1, if_neg h2]
    have harr : c.sent.length ≤ ((c.seen g now).arrive g now mem).sent.length := by
      rw [sent_arrive]
      exact hle
    refine acked_tcpOutput now (acked_takeIn g now mem hrecv hg harr) ?_
    unfold takeIn
    rw [if_pos ⟨hrecv, hg⟩]
    unfold ackSecond
    split
    · exact harr.trans (in_sendSeg _ _ _ _).sent_le
    · exact harr
  · have htw : (c.seen g now).state = .timeWait := by
      rw [seen_state]
      rcases h with h | ⟨h, hack⟩
      · rw [h]
        split <;> rfl
      · rw [if_pos hack, h]
        rfl
    rw [if_neg (by rw [htw]; decide), if_pos htw, if_pos hfin]
    exact (acked_sendAck hle).same rfl id rfl rfl

/-! ## Which are not -/

/-- Nothing was sent, and there is still nothing to send. -/
structure Silent (c c' : Conn) : Prop where
  sent : c'.sent = c.sent
  quiet : Quiet c'

theorem Silent.trans {a b c : Conn} (h : Silent a b) (h' : Silent b c) : Silent a c :=
  ⟨h'.sent.trans h.sent, h'.quiet⟩

theorem Quiet.same {c' : Conn} (h : Quiet c) (hs : c'.sent = c.sent)
    (hp : c'.ackPending = c.ackPending) (hb : c'.sbuf = c.sbuf)
    (hf : c'.finPending = c.finPending) (hf' : c'.finSent = c.finSent) : Silent c c' :=
  ⟨hs, hp.trans h.pending, hb.trans h.sbuf, by rw [hf, hf']; exact h.fin⟩

theorem Quiet.resend (h : Quiet c) (seq stop : Serial) : c.resend seq stop = c := by
  have hlen : c.resendLen seq stop = 0 := by
    unfold resendLen
    rw [h.sbuf]
    exact if_pos (Nat.zero_le _)
  unfold Conn.resend
  rw [if_pos hlen]

theorem Quiet.resendHole (h : Quiet c) (seq stop : Serial) : Silent c (c.resendHole seq stop) := by
  unfold Conn.resendHole
  rw [h.resend]
  exact h.same rfl rfl rfl rfl rfl

theorem Quiet.resendNext (h : Quiet c) : Silent c c.resendNext := by
  unfold Conn.resendNext
  split
  · split
    · exact ⟨rfl, h⟩
    · exact h.resendHole _ _
  · split
    · exact h.resendHole _ _
    · exact ⟨rfl, h⟩

theorem Quiet.fastRexmit (h : Quiet c) : Silent c c.fastRexmit := by
  have h1 : Silent c c.enterRec := h.same rfl rfl rfl rfl rfl
  refine h1.trans ?_
  unfold Conn.fastRexmit
  dsimp only
  rw [h1.quiet.resend]
  exact h1.quiet.same rfl rfl rfl rfl rfl

theorem Quiet.ackDup (h : Quiet c) : Silent c c.ackDup := by
  have h1 : Silent c c.countDup := h.same rfl rfl rfl rfl rfl
  unfold Conn.ackDup
  dsimp only
  split
  · exact h1.trans h1.quiet.fastRexmit
  · split
    · exact h1.trans h1.quiet.resendNext
    · exact h1

theorem Quiet.ackNew (h : Quiet c) (ack now : Serial) : Silent c (c.ackNew ack now) := by
  have hbuf : (c.sbuf.drop (min (dist c.sndUna ack) c.sbuf.length)) = c.sbuf := by
    rw [h.sbuf]
    exact List.drop_nil
  have h1 : Silent c (((c.unaTo ack).rttAck ack now).restartTimer now) := by
    unfold rttAck
    split <;> exact h.same rfl rfl hbuf rfl rfl
  have h2 : ∀ (b : Conn) (n : ℕ), Quiet b → Silent b (b.recovery ack n) := by
    intro b n hb
    unfold recovery
    split
    · split
      · exact hb.same rfl rfl rfl rfl rfl
      · exact hb.resendNext
    · exact hb.same rfl rfl rfl rfl rfl
  have h3 : ∀ b : Conn, Quiet b → Silent b (b.finAcked ack now) := by
    intro b hb
    unfold finAcked
    split
    · exact hb.same rfl rfl rfl rfl rfl
    · exact ⟨rfl, hb⟩
  have h12 := h1.trans (h2 _ (dist c.sndUna ack) h1.quiet)
  exact h12.trans (h3 _ h12.quiet)

theorem Quiet.seen (h : Quiet c) (g : Seg) (now : Serial) : Silent c (c.seen g now) := by
  have h1 : Silent c (c.seeSack g.opt) := by
    unfold seeSack
    split
    · rw [parseSack_eq]
      exact h.same rfl rfl rfl rfl rfl
    · exact ⟨rfl, h⟩
  have h2 : ∀ (b : Conn) (wnd n : ℕ), Quiet b → Silent b (b.seeAck g.ack wnd n g.flags now) := by
    intro b wnd n hb
    unfold seeAck
    split
    · exact hb.ackNew _ now
    · split
      · exact hb.ackDup
      · exact ⟨rfl, hb⟩
  have h3 : ∀ (b : Conn) (wnd : ℕ), Quiet b → Silent b (b.windowUpdate g.seq g.ack wnd) := by
    intro b wnd hb
    unfold windowUpdate
    split
    · exact hb.same rfl rfl rfl rfl rfl
    · exact ⟨rfl, hb⟩
  unfold Conn.seen
  split
  · have h12 := h1.trans (h2 _ (g.wnd * 2 ^ c.sndWs) g.data.length h1.quiet)
    exact h12.trans (h3 _ _ h12.quiet)
  · exact ⟨rfl, h⟩

theorem Quiet.tcpOutput (h : Quiet c) (now : Serial) : c.tcpOutput now = c := by
  unfold Conn.tcpOutput
  split
  · have hloop : outputLoop now c.sbuf.length c = c := by
      rw [h.sbuf]
      rfl
    unfold outputFin
    rw [hloop, if_neg (fun hf => hf.2.1 (h.fin hf.1))]
  · rfl

theorem not_acked_of_silent {c' : Conn} (h : Silent c c') : ¬ Acked c.sent.length c' := by
  rintro (⟨hp, -⟩ | ⟨x, hx, -⟩)
  · rw [h.quiet.pending] at hp
    cases hp
  · rw [h.sent, List.drop_length] at hx
    exact List.not_mem_nil hx

theorem finAcked_not_canReceive {s : State}
    (h : ¬ decide (s = .established ∨ s = .finWait1 ∨ s = .finWait2) = true) :
    ¬ decide (s.finAcked = .established ∨ s.finAcked = .finWait1 ∨ s.finAcked = .finWait2) = true := by
  cases s <;> exact h

/-- **What is not answerable leaves no trace**, if the connection has nothing to send. -/
theorem Quiet.not_acked (h : Quiet c) {g : Seg} (hans : ¬ c.Answerable g) (hu : c.used = true)
    (hs : c.state.synchronized) (now : Serial) (mem : Bool) :
    ¬ Acked c.sent.length (c.input g now mem) := by
  refine not_acked_of_silent ?_
  by_cases hr : g.flags.rst = true
  · have hopen : ¬ (¬ c.used ∨ c.state = .closed) := by
      rintro (h | h)
      · exact h hu
      · exact hs.1 h
    unfold input
    dsimp only
    rw [if_neg hopen, if_neg hs.2.2, if_neg hs.2.1]
    unfold inputOpen
    rw [if_pos hr]
    split
    · exact h.same rfl rfl rfl rfl rfl
    · exact ⟨rfl, h⟩
  have hr : g.flags.rst = false := Bool.eq_false_iff.mpr hr
  have hsyn : g.flags.syn = false := Bool.eq_false_iff.mpr fun hc => hans ⟨hr, Or.inl hc⟩
  have hrecv : ¬ c.canReceive = true := fun hc => hans ⟨hr, Or.inr (Or.inl hc)⟩
  rw [input_eq hu hs hr hsyn]
  have hseen := h.seen g now
  refine hseen.trans ?_
  unfold inputRest
  split
  · exact ⟨rfl, hseen.quiet⟩
  · split
    next htw =>
      -- a FIN here would be answerable
      have hfin : ¬ g.flags.fin = true := by
        intro hf
        refine hans ⟨hr, Or.inr (Or.inr ⟨hf, ?_⟩)⟩
        rw [seen_state] at htw
        split at htw
        next hack =>
          cases hst : c.state <;> rw [hst] at htw <;>
            first | exact Or.inl rfl | exact Or.inr ⟨rfl, hack⟩ | cases htw
        next hack => exact Or.inl htw
      rw [if_neg hfin]
      exact ⟨rfl, hseen.quiet⟩
    next htw =>
      have hno : ¬ (c.seen g now).canReceive = true := by
        unfold canReceive
        rw [seen_state]
        split
        · exact finAcked_not_canReceive hrecv
        · exact hrecv
      have htake : (c.seen g now).takeIn g now mem = c.seen g now := by
        unfold takeIn
        rw [if_neg (fun hc => hno hc.1)]
      rw [htake, hseen.quiet.tcpOutput]
      exact ⟨rfl, hseen.quiet⟩

/-- **Which segments are answered.**  In every synchronized state, a segment with data or a FIN is
acknowledged, at once or by the next flush, if it is answerable.  If it is not, and the connection has
nothing of its own to send, it is not acknowledged. -/
theorem input_answered (hu : c.used = true) (hs : c.state.synchronized) {g : Seg}
    (hg : g.data ≠ [] ∨ g.flags.fin = true) (now : Serial) (mem : Bool) :
    (c.Answerable g → Acked c.sent.length (c.input g now mem)) ∧
      (Quiet c → (Acked c.sent.length (c.input g now mem) ↔ c.Answerable g)) :=
  ⟨fun h => h.acked hu hs hg now mem, fun hq =>
    ⟨fun ha => Classical.not_not.mp fun hn => hq.not_acked hn hu hs now mem ha,
      fun h => h.acked hu hs hg now mem⟩⟩

/-! ## A FIN that comes again -/

/-- A SYN, its last acknowledgement and the peer's FIN. -/
def peerSyn : Seg := ⟨100, 0, { syn := true }, 8192, [], [], Seg.usual_wnd, Seg.short_nil⟩
def peerAck : Seg := ⟨101, 8, { ack := true }, 8192, [], [], Seg.usual_wnd, Seg.short_nil⟩
def peerFin : Seg := ⟨101, 8, { fin := true, ack := true }, 8192, [], [], Seg.usual_wnd, Seg.short_nil⟩

/-- A connection the peer opened. -/
def openConn : Conn :=
  ((passiveOpen peerSyn 7 true true false 0).step (.segment peerAck 0 true)).step .accept

/-- The peer closed it. -/
def closedByPeer : Conn := openConn.step (.segment peerFin 0 true)

theorem input_answered_fin :
    (openConn.Answerable peerFin → Acked openConn.sent.length (openConn.input peerFin 0 true)) ∧
      (Quiet openConn →
        (Acked openConn.sent.length (openConn.input peerFin 0 true) ↔ openConn.Answerable peerFin)) :=
  input_answered (by decide +kernel) ⟨by decide +kernel, by decide +kernel, by decide +kernel⟩
    (by decide +kernel) 0 true

/-- **Our acknowledgement of the FIN was lost, and the peer sends the FIN again: nothing is sent and
nothing is pending**, in a connection in `CLOSE_WAIT`. -/
theorem fin_again_not_answered : Reach (fun _ _ => True) closedByPeer ∧
    closedByPeer.state = .closeWait ∧
    ¬ Acked closedByPeer.sent.length (closedByPeer.input peerFin 0 true) := by
  refine ⟨.step _ (.step _ (.step _ (.passive peerSyn 7 true true false 0) trivial) trivial) trivial,
    by decide +kernel, ?_⟩
  rintro (⟨hp, -⟩ | ⟨x, hx, -⟩)
  · exact absurd hp (by decide +kernel)
  · have hnil : (closedByPeer.input peerFin 0 true).sent.drop closedByPeer.sent.length = [] := by
      decide +kernel
    rw [hnil] at hx
    exact List.not_mem_nil hx

end Conn

end BananaOS.Tcp
