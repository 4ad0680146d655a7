import BananaOS.Tcp.Frames

/-!
# How far the sending is

Measured from `snd_una`, the first sequence number that is not acknowledged, `snd_nxt` is never ahead
of `snd_max`, and `snd_max` is at most one ahead of what the send buffer holds, the one being our FIN
(`Window`).  So all of it lies within the 262145 numbers after `snd_una`, far inside the horizon in
which sequence numbers can be compared.  `Further` says what sending does to it.
-/

namespace BananaOS.Tcp

open Lib Lib.Serial

namespace Conn

/-- `snd_una`, `snd_nxt`, `snd_max` and the send buffer go together. -/
structure Window (c : Conn) : Prop where
  room : c.sbuf.length ≤ c.sbSize
  size : c.sbSize ≤ sbufSize
  nxt : dist c.sndUna c.sndNxt ≤ dist c.sndUna c.sndMax
  max : dist c.sndUna c.sndMax ≤ c.sbuf.length + 1
  /-- before the handshake is over, our SYN is all that was sent, and nothing of it was reported -/
  young : c.handshake → c.sndNxt = fwd c.iss 1 ∧ c.sndMax = fwd c.iss 1 ∧ c.sb = []

/-- `c'` is `c` after something was sent, or after it was decided to send all over again. -/
structure Further (c c' : Conn) : Prop where
  window : c'.Window
  una : c'.sndUna = c.sndUna
  max : dist c.sndUna c.sndMax ≤ dist c.sndUna c'.sndMax
  sb : c'.sb = c.sb ∨ c'.sb = []

theorem Further.trans {a b c : Conn} (h : Further a b) (h' : Further b c) : Further a c where
  window := h'.window
  una := h'.una.trans h.una
  max := by
    have := h'.max
    rw [h.una] at this
    exact h.max.trans this
  sb := by
    rcases h'.sb with hs | hs
    · rw [hs]
      exact h.sb
    · exact Or.inr hs

theorem dist_fwd (b : Serial) {x : Serial} {n : ℕ} (h : dist b x + n < 2 ^ 32) :
    dist b (fwd x n) = dist b x + n := by
  unfold fwd
  rw [dist_add, Nat.mod_eq_of_lt h]

theorem handshake_iff {c : Conn} : c.handshake ↔ c.state = .synSent ∨ c.state = .synRcvd := by
  unfold handshake
  rw [decide_eq_true_iff]

theorem canSend_not_handshake {c : Conn} (h : c.canSend) : ¬ c.handshake := by
  rw [handshake_iff]
  unfold canSend at h
  rintro (hs | hs) <;> rw [hs] at h <;> revert h <;> decide

variable {c : Conn}

namespace Window

theorem bound (h : c.Window) : dist c.sndUna c.sndMax ≤ sbufSize + 1 := by
  have := h.room
  have := h.size
  have := h.max
  omega

theorem refl (h : c.Window) : Further c c := ⟨h, rfl, le_rfl, Or.inl rfl⟩

theorem keep (h : c.Window) {c' : Conn} (iss : c'.iss = c.iss) (una : c'.sndUna = c.sndUna)
    (nxt : c'.sndNxt = c.sndNxt) (max : c'.sndMax = c.sndMax) (sbuf : c'.sbuf = c.sbuf)
    (sbSize : c'.sbSize = c.sbSize) (sb : c'.sb = c.sb)
    (hs : c'.state = .synSent ∨ c'.state = .synRcvd → c.state = .synSent ∨ c.state = .synRcvd) :
    Further c c' where
  window :=
    { room := by rw [sbuf, sbSize]; exact h.room
      size := by rw [sbSize]; exact h.size
      nxt := by rw [una, nxt, max]; exact h.nxt
      max := by rw [una, max, sbuf]; exact h.max
      young := fun hh => by
        rw [nxt, max, iss, sb]
        exact h.young (handshake_iff.mpr (hs (handshake_iff.mp hh))) }
  una := una
  max := by rw [max]
  sb := Or.inl sb

theorem same (h : c.Window) {c' : Conn} (ho : SameOut c c')
    (hs : c'.state = .synSent ∨ c'.state = .synRcvd → c.state = .synSent ∨ c.state = .synRcvd) :
    Further c c' :=
  h.keep ho.iss ho.sndUna ho.sndNxt ho.sndMax ho.sbuf ho.sbSize ho.sb hs

theorem free (l : List Sent) : (Conn.zero l).Window where
  room := le_rfl
  size := Nat.zero_le _
  nxt := le_rfl
  max := (Serial.dist_self 0).le.trans (Nat.zero_le _)
  young := fun h => by cases h

/-- `n` more are sent, of what there is and our FIN. -/
theorem advance (h : c.Window) {n : ℕ} (hn : dist c.sndUna c.sndNxt + n ≤ c.sbuf.length + 1)
    (hs : ¬ c.handshake) : Further c (c.advance n) := by
  have hsize : sbufSize = 262144 := rfl
  have h1 := h.room
  have h2 := h.size
  have h3 := h.max
  have h4 := h.nxt
  have hnxt : dist c.sndUna (fwd c.sndNxt n) = dist c.sndUna c.sndNxt + n :=
    dist_fwd _ (by omega)
  have hgt : gt (fwd c.sndNxt n) c.sndMax ↔
      dist c.sndUna c.sndMax < dist c.sndUna (fwd c.sndNxt n) :=
    gt_near (by omega) (by omega)
  have hmax : (c.advance n).sndMax =
      if gt (fwd c.sndNxt n) c.sndMax then fwd c.sndNxt n else c.sndMax := rfl
  refine ⟨⟨h1, h2, ?_, ?_, fun hh => absurd hh hs⟩, rfl, ?_, Or.inl rfl⟩
  · show dist c.sndUna (fwd c.sndNxt n) ≤ dist c.sndUna (c.advance n).sndMax
    rw [hmax]
    split
    · exact le_rfl
    · rename_i hle
      rw [hgt] at hle
      omega
  · show dist c.sndUna (c.advance n).sndMax ≤ c.sbuf.length + 1
    rw [hmax]
    split <;> omega
  · rw [hmax]
    split
    · rename_i hle
      exact (hgt.mp hle).le
    · exact le_rfl

theorem armIdle (h : c.Window) (now : Serial) : Further c (c.armIdle now) :=
  h.same (by constructor <;> rfl) id

theorem sendSeg (h : c.Window) (seq : Serial) (f : Flags) (data : List UInt8) :
    Further c (c.sendSeg seq f data) :=
  h.same (out_sendSeg c seq f data) id

theorem sendData (h : c.Window) (hs : ¬ c.handshake) (now : Serial)
    (hlt : dist c.sndUna c.sndNxt < c.sbuf.length) :
    Further c (c.sendData now (dist c.sndUna c.sndNxt) (c.sendable (dist c.sndUna c.sndNxt))) := by
  have hn : c.sendable (dist c.sndUna c.sndNxt) ≤ c.sbuf.length - dist c.sndUna c.sndNxt := by
    unfold sendable
    omega
  have hsent : dist c.sndUna c.sndNxt + c.sendable (dist c.sndUna c.sndNxt) ≤ c.sbuf.length + 1 := by
    omega
  unfold Conn.sendData
  extract_lets c1 c2
  have h2 : Further c c2 := h.keep rfl rfl rfl rfl rfl rfl rfl id
  have h3 := h2.trans (h2.window.advance hsent hs)
  exact h3.trans (h3.window.armIdle now)

theorem outputLoop (h : c.Window) (hs : ¬ c.handshake) (now : Serial) (fuel : ℕ) :
    Further c (outputLoop now fuel c) := by
  induction fuel generalizing c with
  | zero => exact h.refl
  | succ fuel ih =>
    unfold Conn.outputLoop
    dsimp only
    split
    · exact h.refl
    · rename_i hlt
      split
      · exact h.armIdle now
      · have h1 := h.sendData hs now (Nat.not_le.mp hlt)
        exact h1.trans (ih h1.window hs)

/-- The FIN takes the one number after the bytes of the buffer. -/
theorem outputFin (h : c.Window) (hs : ¬ c.handshake) (now : Serial) :
    Further c (c.outputFin now) := by
  unfold Conn.outputFin
  split
  · rename_i hfin
    extract_lets c1 c2
    have h2 : Further c c2 := by
      have h1 : Further c { c1 with finSent := true } := h.keep rfl rfl rfl rfl rfl rfl rfl id
      refine h1.trans (h1.window.advance ?_ hs)
      show dist c.sndUna c.sndNxt + 1 ≤ c.sbuf.length + 1
      rw [hfin.2.2]
    have hstate : ∀ s : State, s ≠ .synSent ∧ s ≠ .synRcvd →
        s.finOut ≠ .synSent ∧ s.finOut ≠ .synRcvd := by
      intro s hs
      cases s <;> first | exact hs | decide
    rw [handshake_iff, not_or] at hs
    have h3 : Further c2 { c2 with state := c2.state.finOut } :=
      h2.window.keep rfl rfl rfl rfl rfl rfl rfl fun hh =>
        absurd hh (not_or.mpr (hstate _ hs))
    exact (h2.trans h3).trans (h3.window.armIdle now)
  · exact h.refl

theorem tcpOutput (h : c.Window) (now : Serial) : Further c (c.tcpOutput now) := by
  unfold Conn.tcpOutput
  split
  · rename_i hc
    have hs := canSend_not_handshake hc
    have h1 := h.outputLoop hs now c.sbuf.length
    have hs1 : ¬ (Conn.outputLoop now c.sbuf.length c).handshake := by
      unfold handshake at hs ⊢
      rw [outputLoop_state]
      exact hs
    exact h1.trans (h1.window.outputFin hs1 now)
  · exact h.refl

/-! ## Timeouts -/

theorem rewind (h : c.Window) (hs : ¬ c.handshake) : Further c c.rewind where
  window :=
    { room := h.room
      size := h.size
      nxt := by
        show dist c.sndUna c.sndUna ≤ _
        rw [dist_self]
        exact Nat.zero_le _
      max := h.max
      young := fun hh => absurd hh hs }
  una := rfl
  max := le_rfl
  sb := Or.inr rfl

theorem goBack (h : c.Window) (hs : ¬ c.handshake) (now : Serial) : Further c (c.goBack now) := by
  have h1 := h.rewind hs
  have h2 := h1.trans (h1.window.tcpOutput now)
  unfold Conn.goBack
  extract_lets c1
  split
  · exact h2.trans (h2.window.keep rfl rfl rfl rfl rfl rfl rfl id)
  · exact h2

theorem giveUp (h : c.Window) : Further c c.giveUp := by
  unfold Conn.giveUp
  split <;> exact h.keep rfl rfl rfl rfl rfl rfl rfl (fun hh => by rcases hh with hh | hh <;> cases hh)

theorem onTimeout (h : c.Window) (now : Serial) : Further c (c.onTimeout now) := by
  have h1 : Further c c.countRetry := h.keep rfl rfl rfl rfl rfl rfl rfl id
  have h2 : Further c c.countRetry.backOff := h.keep rfl rfl rfl rfl rfl rfl rfl id
  have hsyn : ∀ f, Further c
      ((c.countRetry.backOff.sendSeg c.countRetry.backOff.iss f []).armTimer now) :=
    fun f => h2.trans (h2.window.keep rfl rfl rfl rfl rfl rfl rfl id)
  unfold Conn.onTimeout
  dsimp only
  split
  · exact h1.trans h1.window.giveUp
  · split
    · exact hsyn _
    · rename_i hrcvd
      split
      · exact hsyn _
      · rename_i hsent
        split
        · exact h2.trans (h2.window.keep rfl rfl rfl rfl rfl rfl rfl id)
        · refine h2.trans (h2.window.goBack ?_ now)
          rw [handshake_iff]
          rintro (hs | hs)
          · exact hsent hs
          · exact hrcvd hs

/-- A tick of the timer goes on, or frees the connection. -/
theorem tcpTimer (h : c.Window) (now : Serial) :
    Further c (c.tcpTimer now) ∨ ∃ l, c.tcpTimer now = zero l := by
  have h1 : Further c (c.endTimeWait now) := by
    unfold endTimeWait
    split
    · exact h.keep rfl rfl rfl rfl rfl rfl rfl (fun hh => by rcases hh with hh | hh <;> cases hh)
    · exact h.refl
  have h2 : Further c ((c.endTimeWait now).runTimer now) := by
    unfold runTimer
    split
    · exact h1.trans (h1.window.onTimeout now)
    · exact h1
  unfold Conn.tcpTimer
  split
  · unfold reap
    split
    · exact Or.inr ⟨_, rfl⟩
    · exact Or.inl h2
  · exact Or.inl h.refl

/-! ## Acknowledgements -/

theorem resent (h : c.Window) {c' : Conn} (hr : Resent c c') : Further c c' :=
  h.same hr.same_out (by rw [hr.state]; exact id)

theorem windowUpdate (h : c.Window) (seq ack : Serial) (wnd : ℕ) :
    Further c (c.windowUpdate seq ack wnd) := by
  unfold Conn.windowUpdate
  split
  · exact h.keep rfl rfl rfl rfl rfl rfl rfl id
  · exact h.refl

theorem recovery (h : c.Window) (ack : Serial) (acked : ℕ) : Further c (c.recovery ack acked) := by
  unfold Conn.recovery
  split
  · split
    · exact ⟨⟨h.room, h.size, h.nxt, h.max, fun hh => ⟨(h.young hh).1, (h.young hh).2.1, rfl⟩⟩,
        rfl, le_rfl, Or.inr rfl⟩
    · exact h.resent (resent_resendNext c)
  · exact h.keep rfl rfl rfl rfl rfl rfl rfl id

theorem finAcked (h : c.Window) (ack now : Serial) : Further c (c.finAcked ack now) := by
  have hstate : ∀ s s' : State, s' = s.finAcked → s' = .synSent ∨ s' = .synRcvd →
      s = .synSent ∨ s = .synRcvd := by
    rintro s s' rfl
    cases s <;> decide
  unfold Conn.finAcked
  split
  · exact h.keep rfl rfl rfl rfl rfl rfl rfl (hstate _ _ rfl)
  · exact h.refl

/-- What `ack_processing` does once `snd_una` has moved. -/
theorem ackedRest (h : c.Window) (ack now : Serial) (acked : ℕ) : Further c
    ((((c.rttAck ack now).restartTimer now).recovery ack acked).finAcked ack now) := by
  have hdone : Further c (c.rttDone now) := by
    have hupdate : ∀ n, Further c (c.updateRtt n) := fun n => h.keep rfl rfl rfl rfl rfl rfl rfl id
    have h1 := hupdate (dist c.rttStart now)
    exact h1.trans (h1.window.keep rfl rfl rfl rfl rfl rfl rfl id)
  have h0 : Further c (c.rttAck ack now) := by
    unfold rttAck
    split
    · exact hdone
    · exact h.refl
  have htimer : Further (c.rttAck ack now) ((c.rttAck ack now).restartTimer now) :=
    h0.window.keep rfl rfl rfl rfl rfl rfl rfl id
  have h1 := h0.trans htimer
  have h2 := h1.trans (h1.window.recovery ack acked)
  exact h2.trans (h2.window.finAcked ack now)

/-! ## Arrivals and calls -/

theorem takeIn (h : c.Window) (g : Seg) (now : Serial) (mem : Bool) :
    Further c (c.takeIn g now mem) := by
  have hfin : ∀ s : State, (s = .synSent ∨ s = .synRcvd → c.state = .synSent ∨ c.state = .synRcvd) →
      s.finIn = .synSent ∨ s.finIn = .synRcvd → c.state = .synSent ∨ c.state = .synRcvd := by
    intro s
    cases s <;> simp [State.finIn]
  exact h.same (out_takeIn c g now mem) (takeIn_state hfin g now mem id)

theorem inputRest (h : c.Window) (g : Seg) (now : Serial) (mem : Bool) :
    Further c (c.inputRest g now mem) := by
  unfold Conn.inputRest
  split
  · exact h.refl
  · split
    · split
      · exact h.keep rfl rfl rfl rfl rfl rfl rfl id
      · exact h.refl
    · have h1 := h.takeIn g now mem
      exact h1.trans (h1.window.tcpOutput now)

theorem tcpFlush (h : c.Window) : Further c c.tcpFlush := by
  unfold Conn.tcpFlush
  split
  · exact h.sendSeg _ _ _
  · exact h.refl

theorem tcpSend (h : c.Window) (data : List UInt8) (now : Serial) :
    Further c (c.tcpSend data now) := by
  unfold Conn.tcpSend
  split
  · extract_lets n
    split
    · exact h.refl
    · have hlen : (c.sbuf ++ data.take n).length ≤ c.sbuf.length + n := by
        rw [List.length_append, List.length_take]
        omega
      have h1 : Further c { c with sbuf := c.sbuf ++ data.take n } := by
        refine ⟨⟨?_, h.size, h.nxt, ?_, h.young⟩, rfl, le_rfl, Or.inl rfl⟩
        · have hn : n = min (c.sbSize - c.sbuf.length) data.length := rfl
          have := h.room
          show (c.sbuf ++ data.take n).length ≤ c.sbSize
          omega
        · have := h.max
          show dist c.sndUna c.sndMax ≤ (c.sbuf ++ data.take n).length + 1
          rw [List.length_append]
          omega
      exact h1.trans (h1.window.tcpOutput now)
  · exact h.refl

theorem tcpRecv (h : c.Window) (max : ℕ) : Further c (c.tcpRecv max).1 := by
  unfold Conn.tcpRecv
  split
  · exact h.refl
  · dsimp only
    split <;> exact h.keep rfl rfl rfl rfl rfl rfl rfl id

theorem tcpClose (h : c.Window) (now : Serial) :
    Further c (c.tcpClose now) ∨ ∃ l, c.tcpClose now = zero l := by
  have h1 : Further c { c with userClosed := true } := h.keep rfl rfl rfl rfl rfl rfl rfl id
  have h2 : Further c ({ c with userClosed := true }.closing now) := by
    unfold closing
    split
    · have h3 : Further c { c with userClosed := true, finPending := true } :=
        h.keep rfl rfl rfl rfl rfl rfl rfl id
      exact h3.trans (h3.window.tcpOutput now)
    · split
      · exact h.keep rfl rfl rfl rfl rfl rfl rfl (fun hh => by rcases hh with hh | hh <;> cases hh)
      · exact h1
  unfold Conn.tcpClose
  extract_lets c1
  split
  · exact Or.inr ⟨_, rfl⟩
  · exact Or.inl h2

/-- What happens without a segment goes on, or frees the connection. -/
theorem step (h : c.Window) {e : Event} (he : ∀ g now mem, e ≠ .segment g now mem) :
    Further c (c.step e) ∨ ∃ l, c.step e = zero l := by
  have hkeep : ∀ c', (Further c c' ∨ ∃ l, c' = zero l) →
      Further c (if c.used then c' else c) ∨ ∃ l, (if c.used then c' else c) = zero l := by
    intro c' hc'
    split
    · exact hc'
    · exact Or.inl h.refl
  cases e with
  | segment g now mem => exact absurd rfl (he g now mem)
  | tick now => exact h.tcpTimer now
  | flush => exact Or.inl h.tcpFlush
  | send data now => exact hkeep _ (Or.inl (h.tcpSend data now))
  | recv max => exact hkeep _ (Or.inl (h.tcpRecv max))
  | close now => exact hkeep _ (h.tcpClose now)
  | abort => exact hkeep _ (Or.inr ⟨_, rfl⟩)
  | connected =>
    refine hkeep _ (Or.inl ?_)
    unfold Conn.connected
    split
    · exact h.keep rfl rfl rfl rfl rfl rfl rfl id
    · exact h.refl
  | accept =>
    refine hkeep _ (Or.inl ?_)
    unfold Conn.accept
    split
    · exact h.keep rfl rfl rfl rfl rfl rfl rfl id
    · exact h.refl

end Window

end Conn

end BananaOS.Tcp
