import BananaOS.Tcp.Frames

/-!
# Probes of a closed window

When the peer's window is closed and there is data to send, the retransmission timer probes the window
with one byte.  It counts its expiries in `retries`, as it does for data that is lost, and only an
acknowledgement of something new sets the count back.  A probe is answered with an acknowledgement of
nothing new, so the answers do not count: after the eleventh expiry the connection is closed, however
promptly each probe was answered (`probed_closed_iff`).
-/

namespace BananaOS.Tcp

open Lib Lib.Serial

namespace Conn

/-- The peer's window is closed, and there is data that was not sent. -/
structure Shut (c : Conn) : Prop where
  used : c.used
  state : c.canSend
  wnd : c.sndWnd = 0
  unsent : dist c.sndUna c.sndNxt < c.sbuf.length

/-- An answer of a peer that keeps its window closed.  It may bring data, a FIN and any options. -/
structure Answers (g : Seg) : Prop where
  ack : g.flags.ack
  syn : g.flags.syn = false
  rst : g.flags.rst = false
  wnd : g.wnd = 0

/-- What `Shut` and the count of expiries are about is the same. -/
structure Waits (c c' : Conn) : Prop where
  shut : c'.Shut
  retries : c'.retries = c.retries

variable {c : Conn}

theorem Shut.refl (h : c.Shut) : Waits c c := ⟨h, rfl⟩

theorem Waits.trans {a b c : Conn} (h : Waits a b) (h' : Waits b c) : Waits a c :=
  ⟨h'.shut, h'.retries.trans h.retries⟩

theorem Shut.same {c' : Conn} (h : c.Shut) (ho : SameOut c c') (hs : c'.canSend) : Waits c c' :=
  ⟨⟨ho.used ▸ h.used, hs, ho.sndWnd ▸ h.wnd, by rw [ho.sndUna, ho.sndNxt, ho.sbuf]; exact h.unsent⟩,
    ho.retries⟩

/-! ## Nothing goes into a closed window -/

theorem Shut.tcpOutput (h : c.Shut) (now : Serial) : c.tcpOutput now = c.armIdle now := by
  have hlen : c.sbuf.length ≠ 0 := by
    have := h.unsent
    omega
  have hloop : outputLoop now c.sbuf.length c = c.armIdle now := by
    obtain ⟨n, hn⟩ := Nat.exists_eq_succ_of_ne_zero hlen
    have hzero : c.sendable (dist c.sndUna c.sndNxt) = 0 := by
      unfold sendable
      rw [h.wnd]
      omega
    rw [hn]
    unfold outputLoop
    dsimp only
    rw [if_neg (Nat.not_le.mpr h.unsent), if_pos hzero]
  have hfin : (c.armIdle now).outputFin now = c.armIdle now := by
    unfold outputFin
    rw [if_neg]
    rintro ⟨-, -, heq⟩
    exact absurd heq (Nat.ne_of_lt h.unsent)
  unfold Conn.tcpOutput
  rw [if_pos h.state, hloop, hfin]

theorem Shut.output (h : c.Shut) (now : Serial) : Waits c (c.tcpOutput now) := by
  rw [h.tcpOutput]
  exact h.same (by constructor <;> rfl) h.state

/-! ## The count -/

theorem retries_outputLoop (now : Serial) (fuel : ℕ) :
    (outputLoop now fuel c).retries = c.retries := by
  induction fuel generalizing c with
  | zero => rfl
  | succ fuel ih =>
    unfold outputLoop
    dsimp only
    split
    · rfl
    · split
      · rfl
      · exact ih

theorem retries_tcpOutput (now : Serial) : (c.tcpOutput now).retries = c.retries := by
  unfold Conn.tcpOutput
  split
  · unfold outputFin
    split <;> exact retries_outputLoop now _
  · rfl

theorem retries_ackNew (ack now : Serial) : (c.ackNew ack now).retries = 0 := by
  have hrec : ∀ (c : Conn) (n : ℕ), (c.recovery ack n).retries = c.retries := by
    intro c n
    unfold recovery
    split
    · split
      · rfl
      · exact (resent_resendNext c).same_out.retries
    · rfl
  have hfin : ∀ c : Conn, (c.finAcked ack now).retries = c.retries := by
    intro c
    unfold finAcked
    split <;> rfl
  unfold ackNew
  rw [hfin, hrec]
  rfl

/-! ## The answers -/

/-- A FIN leaves the states in which data is sent among themselves, and so does all that arrives. -/
theorem canSend_takeIn (g : Seg) (now : Serial) (mem : Bool) (h : c.canSend) :
    (c.takeIn g now mem).canSend := by
  have hfin : ∀ s : State, decide (s = .established ∨ s = .closeWait ∨ s = .finWait1 ∨ s = .closing ∨
      s = .lastAck) = true → decide (s.finIn = .established ∨ s.finIn = .closeWait ∨
        s.finIn = .finWait1 ∨ s.finIn = .closing ∨ s.finIn = .lastAck) = true := by
    intro s
    cases s <;> decide
  exact takeIn_state hfin g now mem h

theorem canSend_of_state {c' : Conn} (hs : c'.state = c.state) (h : c.canSend) : c'.canSend := by
  unfold canSend at *
  rw [hs]
  exact h

/-- An acknowledgement of nothing new leaves all this alone. -/
theorem Shut.ackProcessing (h : c.Shut) {g : Seg} (hold : ¬ c.isNew g.ack) (wnd segLen : ℕ)
    (f : Flags) (hw : wnd = 0) (now : Serial) :
    Waits c (c.ackProcessing g.seq g.ack wnd segLen f g.opt now) := by
  have h1 : Waits c (c.seeSack g.opt) := by
    unfold seeSack
    split
    · rw [parseSack_eq]
      exact ⟨⟨h.used, h.state, h.wnd, h.unsent⟩, rfl⟩
    · exact h.refl
  have hold : ¬ (c.seeSack g.opt).isNew g.ack := by
    rw [isNew_seeSack]
    exact hold
  have h2 : Waits c ((c.seeSack g.opt).seeAck g.ack wnd segLen f now) := by
    unfold seeAck
    rw [if_neg hold]
    split
    · have hr := resent_ackDup (c.seeSack g.opt)
      exact h1.trans (h1.shut.same hr.same_out (canSend_of_state hr.state h1.shut.state))
    · exact h1
  unfold Conn.ackProcessing
  refine h2.trans ?_
  unfold windowUpdate
  split
  · exact ⟨⟨h2.shut.used, h2.shut.state, hw, h2.shut.unsent⟩, rfl⟩
  · exact h2.shut.refl

theorem Shut.notSyn (h : c.Shut) : c.state ≠ .synRcvd ∧ c.state ≠ .synSent := by
  have hst := h.state
  unfold canSend at hst
  constructor <;> rintro hc <;> rw [hc] at hst <;> exact absurd hst (by decide)

theorem Shut.timeWait (h : c.Shut) : c.state ≠ .timeWait := by
  have hst := h.state
  unfold canSend at hst
  rintro hc
  rw [hc] at hst
  exact absurd hst (by decide)

theorem Shut.closed (h : c.Shut) : c.state ≠ .closed := by
  have hst := h.state
  unfold canSend at hst
  rintro hc
  rw [hc] at hst
  exact absurd hst (by decide)

/-- What `tcp_input` does with an answer. -/
theorem Shut.input_eq (h : c.Shut) {g : Seg} (ha : Answers g) (now : Serial) (mem : Bool) :
    c.input g now mem =
      (c.ackProcessing g.seq g.ack (g.wnd * 2 ^ c.sndWs) g.data.length g.flags g.opt now).inputRest
        g now mem := by
  have hopen : ¬ (¬ c.used ∨ c.state = .closed) := by
    rintro (hu | hc)
    · exact hu h.used
    · exact h.closed hc
  unfold Conn.input
  dsimp only
  rw [if_neg hopen, if_neg h.notSyn.1, if_neg h.notSyn.2, ha.syn]
  unfold inputOpen
  rw [ha.rst, ha.syn, ha.ack]
  rfl

theorem Shut.input (h : c.Shut) {g : Seg} (ha : Answers g) (hold : ¬ c.isNew g.ack) (now : Serial)
    (mem : Bool) : Waits c (c.input g now mem) := by
  have hack := h.ackProcessing hold (g.wnd * 2 ^ c.sndWs) g.data.length g.flags
    (by rw [ha.wnd, Nat.zero_mul]) now
  rw [h.input_eq ha]
  unfold inputRest
  rw [if_neg hack.shut.closed, if_neg hack.shut.timeWait]
  have htake := hack.shut.same (out_takeIn _ g now mem) (canSend_takeIn g now mem hack.shut.state)
  exact (hack.trans htake).trans (htake.shut.output now)

/-- An acknowledgement of something new sets the count back. -/
theorem Shut.input_new (h : c.Shut) {g : Seg} (ha : Answers g) (hnew : c.isNew g.ack) (now : Serial)
    (mem : Bool) : (c.input g now mem).retries = 0 := by
  have hsee : ((c.seeSack g.opt).seeAck g.ack (g.wnd * 2 ^ c.sndWs) g.data.length g.flags now).retries
      = 0 := by
    unfold seeAck
    rw [if_pos ((isNew_seeSack _ _ _).mpr hnew)]
    exact retries_ackNew _ _
  have hack : (c.ackProcessing g.seq g.ack (g.wnd * 2 ^ c.sndWs) g.data.length g.flags g.opt
      now).retries = 0 := by
    unfold Conn.ackProcessing windowUpdate
    split <;> exact hsee
  rw [h.input_eq ha]
  unfold inputRest
  split
  · exact hack
  · split
    · split <;> exact hack
    · rw [retries_tcpOutput, (out_takeIn _ g now mem).retries]
      exact hack

/-! ## The calls and the timer -/

/-- What else may happen meanwhile: ticks before the timer runs out, and the calls, a `tcp_abort`
excepted. -/
inductive Meanwhile (c : Conn) : Event → Prop
  | tick (now : Serial) (h : ¬ c.expired now) : Meanwhile c (.tick now)
  | flush : Meanwhile c .flush
  | send (data : List UInt8) (now : Serial) : Meanwhile c (.send data now)
  | recv (max : ℕ) : Meanwhile c (.recv max)
  | close (now : Serial) : Meanwhile c (.close now)
  | connected : Meanwhile c .connected
  | accept : Meanwhile c .accept

theorem Shut.handshake (h : c.Shut) : c.handshake = false := by
  have hst := h.state
  unfold canSend at hst
  unfold Conn.handshake
  cases hs : c.state <;> simp_all

theorem Shut.sendAck (h : c.Shut) : Waits c c.sendAck := h.same (out_sendSeg c _ _ _) h.state

theorem Shut.tcpTimer (h : c.Shut) (now : Serial) : c.tcpTimer now = (c.runTimer now).reap := by
  unfold Conn.tcpTimer endTimeWait
  rw [if_pos h.used, if_neg (fun hc => h.timeWait hc.1)]

theorem Shut.step (h : c.Shut) {e : Event} (he : Meanwhile c e) : Waits c (c.step e) := by
  have hused : c.used = true := h.used
  cases he with
  | tick now hex =>
    show Waits c (c.tcpTimer now)
    rw [h.tcpTimer]
    unfold runTimer reap
    rw [if_neg hex, if_neg (fun hc => h.closed hc.1)]
    exact h.refl
  | flush =>
    show Waits c c.tcpFlush
    unfold tcpFlush
    split
    · exact h.sendAck
    · exact h.refl
  | send data now =>
    simp only [Conn.step, hused, if_true]
    unfold tcpSend
    split
    · dsimp only
      split
      · exact h.refl
      · -- more to send, and still nowhere to
        have hmore : Waits c { c with
            sbuf := c.sbuf ++ data.take (min (c.sbSize - c.sbuf.length) data.length) } := by
          refine ⟨⟨h.used, h.state, h.wnd, ?_⟩, rfl⟩
          have := h.unsent
          simp only [List.length_append]
          omega
        exact hmore.trans (hmore.shut.output now)
    · exact h.refl
  | recv max =>
    simp only [Conn.step, hused, if_true]
    unfold tcpRecv
    split
    · exact h.refl
    · dsimp only
      have hread : Waits c { c with rbuf := c.rbuf.drop (min max c.rbuf.length) } :=
        h.same (by constructor <;> rfl) h.state
      split
      · exact hread.trans hread.shut.sendAck
      · exact hread
  | close now =>
    simp only [Conn.step, hused, if_true]
    have hclose : Waits c { c with userClosed := true, finPending := true } :=
      ⟨⟨h.used, h.state, h.wnd, h.unsent⟩, rfl⟩
    have huser : Waits c { c with userClosed := true } := ⟨⟨h.used, h.state, h.wnd, h.unsent⟩, rfl⟩
    have hsyn := h.notSyn.2
    have hbegun : Waits c ({ c with userClosed := true }.closing now) := by
      unfold closing
      split
      · exact hclose.trans (hclose.shut.output now)
      · exact huser
    unfold tcpClose
    dsimp only
    rw [if_neg hbegun.shut.closed]
    exact hbegun
  | connected =>
    simp only [Conn.step, hused, if_true]
    unfold Conn.connected
    split
    · exact ⟨⟨h.used, h.state, h.wnd, h.unsent⟩, rfl⟩
    · exact h.refl
  | accept =>
    simp only [Conn.step, hused, if_true]
    unfold Conn.accept
    split
    · exact ⟨⟨h.used, h.state, h.wnd, h.unsent⟩, rfl⟩
    · exact h.refl

/-- An expiry below the limit sends a probe and counts. -/
theorem Shut.probe (h : c.Shut) {now : Serial} (hex : c.expired now) (hr : c.retries < maxRetries) :
    (c.tcpTimer now).Shut ∧ (c.tcpTimer now).retries = c.retries + 1 := by
  have hlim : ¬ c.countRetry.retryLimit < c.countRetry.retries := by
    have hh : c.countRetry.handshake = false := h.handshake
    unfold retryLimit
    rw [hh, if_neg (by decide)]
    show ¬ maxRetries < c.retries + 1
    omega
  have hback : c.countRetry.backOff.Shut := ⟨h.used, h.state, h.wnd, h.unsent⟩
  have htime : c.onTimeout now = c.countRetry.backOff.probe now := by
    unfold onTimeout
    dsimp only
    rw [if_neg hlim, if_neg hback.notSyn.1, if_neg hback.notSyn.2, if_pos ⟨hback.wnd, hback.unsent⟩]
  have hprobe : Waits c.countRetry.backOff (c.countRetry.backOff.probe now) :=
    hback.same (by constructor <;> rfl) hback.state
  have htick : c.tcpTimer now = c.countRetry.backOff.probe now := by
    rw [h.tcpTimer]
    unfold runTimer reap
    rw [if_pos hex, htime, if_neg (fun hc => hprobe.shut.closed hc.1)]
  rw [htick]
  exact ⟨hprobe.shut, hprobe.retries⟩

theorem Shut.last (h : c.Shut) {now : Serial} (hex : c.expired now) (hr : maxRetries ≤ c.retries) :
    (c.tcpTimer now).state = .closed := by
  have hlim : c.countRetry.retryLimit < c.countRetry.retries := by
    have hh : c.countRetry.handshake = false := h.handshake
    unfold retryLimit
    rw [hh, if_neg (by decide)]
    show maxRetries < c.retries + 1
    omega
  have htime : c.onTimeout now = c.countRetry.giveUp := by
    unfold onTimeout
    dsimp only
    rw [if_pos hlim]
  rw [h.tcpTimer]
  unfold runTimer reap
  rw [if_pos hex, htime]
  split <;> rfl

/-! ## Any number of probes -/

/-- A run of a connection whose peer keeps its window closed, with the number of times the
retransmission timer has run out in a row.  The answers to the probes, and what else may happen, come
in any order and at any times.  A probe is answered with an acknowledgement of nothing new; where data
was in flight when the window closed, it may still be acknowledged. -/
inductive ShutRun (c₀ : Conn) : ℕ → Conn → Prop
  | start : ShutRun c₀ c₀.retries c₀
  | expiry {k : ℕ} {c : Conn} (now : Serial) :
      ShutRun c₀ k c → c.expired now → ShutRun c₀ (k + 1) (c.tcpTimer now)
  | answer {k : ℕ} {c : Conn} (g : Seg) (now : Serial) (mem : Bool) :
      ShutRun c₀ k c → Answers g → ¬ c.isNew g.ack → ShutRun c₀ k (c.input g now mem)
  | answerNew {k : ℕ} {c : Conn} (g : Seg) (now : Serial) (mem : Bool) :
      ShutRun c₀ k c → c.Shut → Answers g → c.isNew g.ack → (c.input g now mem).Shut →
        ShutRun c₀ 0 (c.input g now mem)
  | other {k : ℕ} {c : Conn} (e : Event) :
      ShutRun c₀ k c → Meanwhile c e → ShutRun c₀ k (c.step e)

theorem input_closed (g : Seg) (now : Serial) (mem : Bool) (h : c.state = .closed) :
    (c.input g now mem).state = .closed := by
  unfold Conn.input
  dsimp only
  rw [if_pos (Or.inr h)]
  exact h

theorem step_closed {e : Event} (he : Meanwhile c e) (h : c.state = .closed) :
    (c.step e).state = .closed := by
  have hkeep : ∀ c' : Conn, c'.state = .closed → (if c.used then c' else c).state = .closed := by
    intro c' hc'
    split
    · exact hc'
    · exact h
  cases he with
  | tick now hex =>
    refine hkeep ((c.endTimeWait now).runTimer now).reap ?_
    have hend : c.endTimeWait now = c := by
      unfold endTimeWait
      rw [if_neg (by rw [h]; rintro ⟨hc, -⟩; cases hc)]
    rw [hend]
    unfold runTimer reap
    rw [if_neg hex]
    split
    · rfl
    · exact h
  | flush =>
    show c.tcpFlush.state = .closed
    unfold tcpFlush
    split <;> exact h
  | send data now =>
    refine hkeep (c.tcpSend data now) ?_
    unfold tcpSend
    rw [if_neg (by rw [h]; rintro ⟨-, hc | hc⟩ <;> cases hc)]
    exact h
  | recv max =>
    refine hkeep (c.tcpRecv max).1 ?_
    unfold tcpRecv
    split
    · exact h
    · dsimp only
      split <;> exact h
  | close now =>
    refine hkeep (c.tcpClose now) ?_
    unfold tcpClose closing
    dsimp only
    have hne : ¬ (c.state = .established ∨ c.state = .closeWait) := by
      rw [h]
      rintro (hc | hc) <;> cases hc
    have hsyn : c.state ≠ .synSent := by
      rw [h]
      decide
    simp only [if_neg hne, if_neg hsyn, if_pos h]
    rfl
  | connected =>
    refine hkeep c.connected ?_
    unfold Conn.connected
    split <;> exact h
  | accept =>
    refine hkeep c.accept ?_
    unfold Conn.accept
    split <;> exact h

/-- What holds all along: below the limit the connection waits, and has counted every expiry; beyond
it is closed. -/
theorem ShutRun.counted {c₀ : Conn} (h₀ : c₀.Shut) (hr : c₀.retries ≤ maxRetries) {k : ℕ} {c : Conn}
    (h : ShutRun c₀ k c) :
    (c.Shut ∧ c.retries = k ∧ k ≤ maxRetries) ∨ (c.state = .closed ∧ maxRetries < k) := by
  induction h with
  | start => exact Or.inl ⟨h₀, rfl, hr⟩
  | @expiry k c now hrun hex ih =>
    rcases ih with ⟨hs, hret, hle⟩ | ⟨hcl, -⟩
    · by_cases hlt : c.retries < maxRetries
      · obtain ⟨hs', hret'⟩ := hs.probe hex hlt
        exact Or.inl ⟨hs', by rw [hret', hret], by omega⟩
      · exact Or.inr ⟨hs.last hex (Nat.not_lt.mp hlt), by omega⟩
    · exact absurd hcl hex.2.1
  | answer g now mem hrun ha hold ih =>
    rcases ih with ⟨hs, hret, hle⟩ | ⟨hcl, hlt⟩
    · have hw := hs.input ha hold now mem
      exact Or.inl ⟨hw.shut, hw.retries.trans hret, hle⟩
    · exact Or.inr ⟨input_closed g now mem hcl, hlt⟩
  | answerNew g now mem hrun hs ha hnew hs' ih =>
    exact Or.inl ⟨hs', hs.input_new ha hnew now mem, Nat.zero_le _⟩
  | other e hrun he ih =>
    rcases ih with ⟨hs, hret, hle⟩ | ⟨hcl, hlt⟩
    · have hw := hs.step he
      exact Or.inl ⟨hw.shut, hw.retries.trans hret, hle⟩
    · exact Or.inr ⟨step_closed he hcl, hlt⟩

/-- **The timer closes the connection exactly at the eleventh expiry in a row.**  Whatever the peer
answers, a connection whose window the peer keeps closed is open as long as the expiries, with those
counted before, are ten at most, and closed from then on. -/
theorem probed_closed_iff {c₀ : Conn} (h₀ : c₀.Shut) (hr : c₀.retries ≤ maxRetries) {k : ℕ} {c : Conn}
    (h : ShutRun c₀ k c) : c.state ≠ .closed ↔ k ≤ maxRetries := by
  rcases h.counted h₀ hr with ⟨hs, -, hle⟩ | ⟨hcl, hlt⟩
  · exact ⟨fun _ => hle, fun _ => hs.closed⟩
  · exact ⟨fun hne => absurd hcl hne, fun hle => by omega⟩

/-! ## A patient peer -/

/-- A SYN of a peer whose window is closed. -/
def shutSyn : Seg := ⟨100, 0, { syn := true }, 0, [], [], Seg.zero_wnd, Seg.short_nil⟩

/-- Its acknowledgement of our SYN, and of every probe. -/
def shutAck : Seg := ⟨101, 8, { ack := true }, 0, [], [], Seg.zero_wnd, Seg.short_nil⟩

/-- A connection it opened and to which a byte was written. -/
def shutConn : Conn :=
  ((((passiveOpen shutSyn 7 true true false 0).step (.segment shutAck 0 true)).step .accept).step
    (.send [1] 0))

/-- The timer runs out, a probe goes out, and the peer answers at once. -/
def probedOnce (c : Conn) : Conn := (c.tcpTimer c.rtoDeadline).input shutAck c.rtoDeadline true

theorem shutConn_shut : shutConn.Shut :=
  ⟨by decide +kernel, by decide +kernel, by decide +kernel, by decide +kernel⟩

theorem probed_closed_iff_once :
    (probedOnce shutConn).state ≠ .closed ↔ shutConn.retries + 1 ≤ maxRetries :=
  probed_closed_iff shutConn_shut (by decide +kernel)
    (.answer shutAck _ true (.expiry _ .start (by decide +kernel)) ⟨rfl, rfl, rfl, rfl⟩
      (by decide +kernel))

/-- **Eleven probes, each answered at once, and the timer has closed the connection.** -/
theorem probes_close_connection : Reach (fun _ _ => True) shutConn ∧
    (∀ k < 11, (probedOnce^[k] shutConn).expired (probedOnce^[k] shutConn).rtoDeadline) ∧
    (∀ k < 10, (probedOnce^[k + 1] shutConn).state = .established) ∧
    (probedOnce^[11] shutConn).state = .closed ∧
    (probedOnce^[11] shutConn).err = some .timeout :=
  ⟨.step _ (.step _ (.step _ (.passive shutSyn 7 true true false 0) trivial) trivial) trivial,
    by decide +kernel, by decide +kernel, by decide +kernel, by decide +kernel⟩

end Conn

end BananaOS.Tcp
