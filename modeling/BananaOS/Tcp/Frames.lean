import BananaOS.Tcp.Input

/-!
# What leaves what alone

A connection has two halves that hardly meet.  Sending, acknowledgements and timeouts leave alone what
was received (`SameIn`); data that arrives leaves alone what is to be sent (`SameOut`).  Each function
is looked at once, here; the results about either half use these facts and the functions of that half.
-/

namespace BananaOS.Tcp

open Lib Lib.Serial

namespace Conn

/-- A segment that says of what was received what the connection `c` would say. -/
structure Tells (c : Conn) (x : Sent) : Prop where
  rcvd : x.rcvd = c.rcvd
  ack : x.flags.ack = true → x.ack = c.rcvNxt
  wnd : x.flags.syn = false → x.wnd = c.advWindow / 2 ^ c.rcvWs

/-- What was received, and what it is judged by, is the same, and all that was sent tells it. -/
structure SameIn (c c' : Conn) : Prop where
  used : c'.used = c.used
  irs : c'.irs = c.irs
  rcvNxt : c'.rcvNxt = c.rcvNxt
  rcvd : c'.rcvd = c.rcvd
  rbuf : c'.rbuf = c.rbuf
  rbSize : c'.rbSize = c.rbSize
  rcvWs : c'.rcvWs = c.rcvWs
  ooo : c'.ooo = c.ooo
  lastOoo : c'.lastOoo = c.lastOoo
  finRcvd : c'.finRcvd = c.finRcvd
  userClosed : c'.userClosed = c.userClosed
  sent : ∃ l, c'.sent = c.sent ++ l ∧ ∀ x ∈ l, c.Tells x

/-- What is to be sent, and how far the sending is, is the same. -/
structure SameOut (c c' : Conn) : Prop where
  used : c'.used = c.used
  iss : c'.iss = c.iss
  sndUna : c'.sndUna = c.sndUna
  sndNxt : c'.sndNxt = c.sndNxt
  sndMax : c'.sndMax = c.sndMax
  sndWnd : c'.sndWnd = c.sndWnd
  sbuf : c'.sbuf = c.sbuf
  sbSize : c'.sbSize = c.sbSize
  sb : c'.sb = c.sb
  finPending : c'.finPending = c.finPending
  finSent : c'.finSent = c.finSent
  finSeq : c'.finSeq = c.finSeq
  retries : c'.retries = c.retries

theorem SameIn.quiet {c c' : Conn} (used : c'.used = c.used) (irs : c'.irs = c.irs)
    (rcvNxt : c'.rcvNxt = c.rcvNxt) (rcvd : c'.rcvd = c.rcvd) (rbuf : c'.rbuf = c.rbuf)
    (rbSize : c'.rbSize = c.rbSize) (rcvWs : c'.rcvWs = c.rcvWs) (ooo : c'.ooo = c.ooo)
    (lastOoo : c'.lastOoo = c.lastOoo) (finRcvd : c'.finRcvd = c.finRcvd)
    (userClosed : c'.userClosed = c.userClosed) (sent : c'.sent = c.sent) : SameIn c c' :=
  ⟨used, irs, rcvNxt, rcvd, rbuf, rbSize, rcvWs, ooo, lastOoo, finRcvd, userClosed,
    [], by rw [sent, List.append_nil], fun _ hx => absurd hx List.not_mem_nil⟩

theorem SameIn.refl (c : Conn) : SameIn c c := by apply SameIn.quiet <;> rfl

theorem SameIn.advWindow {c c' : Conn} (h : SameIn c c') : c'.advWindow = c.advWindow := by
  unfold Conn.advWindow
  rw [h.rbuf, h.rbSize, h.rcvWs]

theorem SameIn.tells {c c' : Conn} (h : SameIn c c') {x : Sent} : c'.Tells x ↔ c.Tells x := by
  have hr : ∀ {c c' : Conn}, c'.rcvd = c.rcvd → c'.rcvNxt = c.rcvNxt → c'.advWindow = c.advWindow →
      c'.rcvWs = c.rcvWs → c.Tells x → c'.Tells x := by
    intro c c' h1 h2 h3 h4 ht
    exact ⟨ht.rcvd.trans h1.symm, fun ha => (ht.ack ha).trans h2.symm,
      fun hs => by rw [h3, h4]; exact ht.wnd hs⟩
  exact ⟨hr h.rcvd.symm h.rcvNxt.symm h.advWindow.symm h.rcvWs.symm,
    hr h.rcvd h.rcvNxt h.advWindow h.rcvWs⟩

theorem SameIn.trans {a b c : Conn} (h : SameIn a b) (h' : SameIn b c) : SameIn a c where
  used := h'.used.trans h.used
  irs := h'.irs.trans h.irs
  rcvNxt := h'.rcvNxt.trans h.rcvNxt
  rcvd := h'.rcvd.trans h.rcvd
  rbuf := h'.rbuf.trans h.rbuf
  rbSize := h'.rbSize.trans h.rbSize
  rcvWs := h'.rcvWs.trans h.rcvWs
  ooo := h'.ooo.trans h.ooo
  lastOoo := h'.lastOoo.trans h.lastOoo
  finRcvd := h'.finRcvd.trans h.finRcvd
  userClosed := h'.userClosed.trans h.userClosed
  sent := by
    obtain ⟨l, hl, hx⟩ := h.sent
    obtain ⟨l', hl', hx'⟩ := h'.sent
    refine ⟨l ++ l', by rw [hl', hl, List.append_assoc], fun x hm => ?_⟩
    rcases List.mem_append.mp hm with hm | hm
    · exact hx x hm
    · exact h.tells.mp (hx' x hm)

theorem SameIn.sent_le {c c' : Conn} (h : SameIn c c') : c.sent.length ≤ c'.sent.length := by
  obtain ⟨l, hl, -⟩ := h.sent
  rw [hl, List.length_append]
  omega

theorem SameOut.refl (c : Conn) : SameOut c c := by constructor <;> rfl

theorem SameOut.trans {a b c : Conn} (h : SameOut a b) (h' : SameOut b c) : SameOut a c where
  used := h'.used.trans h.used
  iss := h'.iss.trans h.iss
  sndUna := h'.sndUna.trans h.sndUna
  sndNxt := h'.sndNxt.trans h.sndNxt
  sndMax := h'.sndMax.trans h.sndMax
  sndWnd := h'.sndWnd.trans h.sndWnd
  sbuf := h'.sbuf.trans h.sbuf
  sbSize := h'.sbSize.trans h.sbSize
  sb := h'.sb.trans h.sb
  finPending := h'.finPending.trans h.finPending
  finSent := h'.finSent.trans h.finSent
  finSeq := h'.finSeq.trans h.finSeq
  retries := h'.retries.trans h.retries

variable (c : Conn)

theorem fwd_fwd (s : Serial) (m n : ℕ) : fwd (fwd s m) n = fwd s (m + n) := by
  unfold fwd
  rw [BitVec.ofNat_add, BitVec.add_assoc]

/-! ## Sending again -/

/-- `c'` is `c` after data was sent again, or a loss was noticed. -/
def Resent (c c' : Conn) : Prop :=
  c' = { c with
    cwnd := c'.cwnd
    ssthresh := c'.ssthresh
    inRec := c'.inRec
    recover := c'.recover
    rexmitNext := c'.rexmitNext
    rttTiming := c'.rttTiming
    dupacks := c'.dupacks
    ackPending := c'.ackPending
    unackedSegs := c'.unackedSegs
    lastAdvWnd := c'.lastAdvWnd
    sent := c'.sent }

theorem Resent.trans {a b c : Conn} (h : Resent a b) (h' : Resent b c) : Resent a c := by
  unfold Resent at h h' ⊢
  refine h'.trans ?_
  rw [h]

theorem Resent.same_out {c c' : Conn} (h : Resent c c') : SameOut c c' := by
  unfold Resent at h
  rw [h]
  constructor <;> rfl

theorem Resent.state {c c' : Conn} (h : Resent c c') : c'.state = c.state := by
  unfold Resent at h
  rw [h]

theorem resent_resend (seq stop : Serial) : Resent c (c.resend seq stop) := by
  unfold resend
  split <;> rfl

theorem resent_resendHole (seq stop : Serial) : Resent c (c.resendHole seq stop) :=
  (resent_resend c seq stop).trans rfl

theorem resent_resendNext : Resent c c.resendNext := by
  unfold resendNext
  split
  · split
    · rfl
    · exact resent_resendHole c _ _
  · split
    · exact resent_resendHole c _ _
    · rfl

theorem resent_fastRexmit : Resent c c.fastRexmit :=
  have h1 : Resent c c.enterRec := rfl
  (h1.trans (resent_resend _ _ _)).trans rfl

theorem resent_ackDup : Resent c c.ackDup := by
  have h1 : Resent c c.countDup := rfl
  unfold ackDup
  dsimp only
  split
  · exact h1.trans (resent_fastRexmit _)
  · split
    · exact h1.trans (resent_resendNext _)
    · exact h1

/-! ## Sending leaves alone what was received -/

theorem in_sendSeg (seq : Serial) (f : Flags) (data : List UInt8) : SameIn c (c.sendSeg seq f data) where
  used := rfl
  irs := rfl
  rcvNxt := rfl
  rcvd := rfl
  rbuf := rfl
  rbSize := rfl
  rcvWs := rfl
  ooo := rfl
  lastOoo := rfl
  finRcvd := rfl
  userClosed := rfl
  sent := by
    refine ⟨[_], rfl, fun x hx => ?_⟩
    rw [List.mem_singleton.mp hx]
    refine ⟨rfl, fun ha => if_pos ha, fun hs => ?_⟩
    have hs : f.syn = false := hs
    show (if f.syn then c.wndOf f else c.wndOf f / 2 ^ c.rcvWs) = _
    unfold wndOf
    rw [hs]
    rfl

theorem in_sendAck : SameIn c c.sendAck := in_sendSeg c _ _ _

theorem in_rttDone (now : Serial) : SameIn c (c.rttDone now) := by
  have h1 : ∀ n, SameIn c (c.updateRtt n) := fun n => by apply SameIn.quiet <;> rfl
  have h2 : ∀ b : Conn, SameIn b { b with rttTiming := false } := fun b => by
    apply SameIn.quiet <;> rfl
  exact (h1 _).trans (h2 _)

theorem in_rttEnd (c : Conn) (now : Serial) : SameIn c (c.rttEnd now) := by
  unfold rttEnd
  split
  · exact in_rttDone c now
  · exact SameIn.refl c

theorem in_handshakeDone (c : Conn) (seq ack : Serial) (wnd : ℕ) (now : Serial) :
    SameIn c (c.handshakeDone seq ack wnd now) := by
  have h1 : SameIn c { c with sndUna := ack, sndWnd := wnd, sndWl1 := seq, sndWl2 := ack } := by
    apply SameIn.quiet <;> rfl
  exact (h1.trans (in_rttEnd _ now)).trans (by apply SameIn.quiet <;> rfl)

theorem in_armIdle (now : Serial) : SameIn c (c.armIdle now) := by apply SameIn.quiet <;> rfl

theorem in_sendData (now : Serial) (off n : ℕ) : SameIn c (c.sendData now off n) :=
  (in_sendSeg c c.sndNxt _ _).trans (by apply SameIn.quiet <;> rfl)

theorem in_outputLoop (now : Serial) (fuel : ℕ) : SameIn c (outputLoop now fuel c) := by
  induction fuel generalizing c with
  | zero => exact SameIn.refl c
  | succ fuel ih =>
    unfold outputLoop
    dsimp only
    split
    · exact SameIn.refl c
    · split
      · exact in_armIdle c now
      · exact (in_sendData c now _ _).trans (ih _)

theorem in_outputFin (now : Serial) : SameIn c (c.outputFin now) := by
  have h1 : SameIn c { c with finSeq := c.sndNxt } := by apply SameIn.quiet <;> rfl
  unfold outputFin
  split
  · exact (h1.trans (in_sendSeg _ c.sndNxt _ _)).trans (by apply SameIn.quiet <;> rfl)
  · exact SameIn.refl c

theorem in_tcpOutput (now : Serial) : SameIn c (c.tcpOutput now) := by
  unfold tcpOutput
  split
  · exact (in_outputLoop c now _).trans (in_outputFin _ now)
  · exact SameIn.refl c

theorem in_resend (seq stop : Serial) : SameIn c (c.resend seq stop) := by
  unfold resend
  split
  · exact SameIn.refl c
  · exact in_sendSeg c _ _ _

theorem in_resendHole (seq stop : Serial) : SameIn c (c.resendHole seq stop) :=
  (in_resend c seq stop).trans (by apply SameIn.quiet <;> rfl)

theorem in_resendNext : SameIn c c.resendNext := by
  unfold resendNext
  split
  · split
    · exact SameIn.refl c
    · exact in_resendHole c _ _
  · split
    · exact in_resendHole c _ _
    · exact SameIn.refl c

theorem in_fastRexmit : SameIn c c.fastRexmit :=
  have h1 : SameIn c c.enterRec := by apply SameIn.quiet <;> rfl
  (h1.trans (in_resend _ _ _)).trans (by apply SameIn.quiet <;> rfl)

theorem in_ackDup : SameIn c c.ackDup := by
  have h1 : SameIn c c.countDup := by apply SameIn.quiet <;> rfl
  unfold ackDup
  dsimp only
  split
  · exact h1.trans (in_fastRexmit _)
  · split
    · exact h1.trans (in_resendNext _)
    · exact h1

theorem in_parseSack (opt : List UInt8) : SameIn c (c.parseSack opt) := by
  unfold parseSack
  induction sackReports opt generalizing c with
  | nil => exact SameIn.refl c
  | cons r rest ih =>
    rw [List.foldl_cons]
    exact SameIn.trans (by apply SameIn.quiet <;> rfl) (ih (c.sbAdd r.1 r.2))

theorem in_recovery (ack : Serial) (acked : ℕ) : SameIn c (c.recovery ack acked) := by
  unfold recovery
  split
  · split
    · apply SameIn.quiet <;> rfl
    · exact in_resendNext c
  · apply SameIn.quiet <;> rfl

theorem in_finAcked (ack now : Serial) : SameIn c (c.finAcked ack now) := by
  unfold finAcked
  split
  · apply SameIn.quiet <;> rfl
  · exact SameIn.refl c

theorem in_ackNew (ack now : Serial) : SameIn c (c.ackNew ack now) := by
  have h1 : SameIn c (c.unaTo ack) := by apply SameIn.quiet <;> rfl
  have h2 : SameIn (c.unaTo ack) ((c.unaTo ack).rttAck ack now) := by
    unfold rttAck
    split
    · exact in_rttDone _ now
    · exact SameIn.refl _
  have h3 : SameIn c (((c.unaTo ack).rttAck ack now).restartTimer now) :=
    (h1.trans h2).trans (by apply SameIn.quiet <;> rfl)
  exact (h3.trans (in_recovery _ ack _)).trans (in_finAcked _ ack now)

theorem in_windowUpdate (seq ack : Serial) (wnd : ℕ) : SameIn c (c.windowUpdate seq ack wnd) := by
  unfold windowUpdate
  split <;> apply SameIn.quiet <;> rfl

theorem in_seeSack (opt : List UInt8) : SameIn c (c.seeSack opt) := by
  unfold seeSack
  split
  · exact in_parseSack c opt
  · exact SameIn.refl c

theorem in_seeAck (ack : Serial) (wnd segLen : ℕ) (f : Flags) (now : Serial) :
    SameIn c (c.seeAck ack wnd segLen f now) := by
  unfold seeAck
  split
  · exact in_ackNew c ack now
  · split
    · exact in_ackDup c
    · exact SameIn.refl c

theorem in_ackProcessing (seq ack : Serial) (wnd segLen : ℕ) (f : Flags) (opt : List UInt8)
    (now : Serial) : SameIn c (c.ackProcessing seq ack wnd segLen f opt now) :=
  ((in_seeSack c opt).trans (in_seeAck _ ack wnd segLen f now)).trans (in_windowUpdate _ seq ack wnd)

theorem in_giveUp : SameIn c c.giveUp := by
  unfold giveUp
  split
  · apply SameIn.quiet <;> rfl
  · exact (in_sendSeg c c.sndNxt _ _).trans (by apply SameIn.quiet <;> rfl)

theorem in_probe (now : Serial) : SameIn c (c.probe now) :=
  (in_sendSeg c c.sndNxt _ _).trans (by apply SameIn.quiet <;> rfl)

theorem in_goBack (now : Serial) : SameIn c (c.goBack now) := by
  have h1 : SameIn c c.rewind := by apply SameIn.quiet <;> rfl
  have h2 := h1.trans (in_tcpOutput _ now)
  unfold goBack
  dsimp only
  split
  · exact h2.trans (by apply SameIn.quiet <;> rfl)
  · exact h2

theorem in_onTimeout (now : Serial) : SameIn c (c.onTimeout now) := by
  have h1 : SameIn c c.countRetry := by apply SameIn.quiet <;> rfl
  have h2 : SameIn c c.countRetry.backOff := by apply SameIn.quiet <;> rfl
  unfold onTimeout
  dsimp only
  split
  · exact h1.trans (in_giveUp _)
  · have harm : ∀ f : Flags, SameIn c
        ((c.countRetry.backOff.sendSeg c.countRetry.backOff.iss f []).armTimer now) :=
      fun f => (h2.trans (in_sendSeg _ _ f _)).trans (by apply SameIn.quiet <;> rfl)
    split
    · exact harm _
    · split
      · exact harm _
      · split
        · exact h2.trans (in_probe _ now)
        · exact h2.trans (in_goBack _ now)

theorem out_sendSeg (seq : Serial) (f : Flags) (data : List UInt8) :
    SameOut c (c.sendSeg seq f data) := by
  constructor <;> rfl

/-! ## What arrives -/

section
variable {P : Conn → Prop}
  (hd : ∀ c data, P c → P (deliver c data).1)
  (hf : ∀ c now, P c → P (finReceived c now))
  (ho : ∀ c ooo last, P c → P { c with ooo := ooo, lastOoo := last })
include hd hf ho
variable {c : Conn}

theorem drainLoop_rule (now : Serial) (l : List OooSeg) (h : P c) : P (drainLoop now l c) := by
  induction l generalizing c with
  | nil => exact ho c [] c.lastOoo h
  | cons s rest ih =>
    unfold drainLoop
    split
    · refine ih ?_
      have h1 : P (c.drainData s) := by
        unfold drainData
        split
        · exact hd c _ h
        · exact h
      unfold drainFin
      split
      · exact hf _ now h1
      · exact h1
    · exact ho c _ c.lastOoo h

theorem takeData_rule (data : List UInt8) (fin : Bool) (now : Serial) (h : P c) :
    P (c.takeData data fin now) := by
  refine drainLoop_rule hd hf ho now _ ?_
  unfold takeFin
  dsimp only
  split
  · exact hf _ now (hd c data h)
  · exact hd c data h

omit hd hf in
theorem oooStore_rule (seq : Serial) (data : List UInt8) (fin mem : Bool) (h : P c) :
    P (c.oooStore seq data fin mem) := by
  have hlast : P { c with lastOoo := seq } := ho c c.ooo seq h
  unfold oooStore
  dsimp only
  split
  · exact h
  · split
    · exact hlast
    · split
      · exact hlast
      · split
        · exact ho c _ seq h
        · exact hlast

/-- What delivered data, a FIN and the out-of-order list cannot change, and what does not depend on an
acknowledgement being due, no arrival can change. -/
theorem arrive_rule (hp : ∀ c p u, P c → P { c with ackPending := p, unackedSegs := u }) (g : Seg)
    (now : Serial) (mem : Bool) (h : P c) : P (c.arrive g now mem) := by
  have hold : P (c.takeOld g now) := by
    unfold takeOld
    dsimp only
    split
    · exact takeData_rule hd hf ho _ _ now h
    · split
      · exact hf c now h
      · exact h
  unfold arrive
  split
  · exact hp _ _ _ (takeData_rule hd hf ho _ _ now h)
  · split
    · exact hp _ _ _ hold
    · exact hp _ _ _ (oooStore_rule ho _ _ _ mem h)

end

theorem out_deliver (data : List UInt8) : SameOut c (c.deliver data).1 := by
  unfold deliver
  split <;> constructor <;> rfl

theorem out_arrive (g : Seg) (now : Serial) (mem : Bool) : SameOut c (c.arrive g now mem) :=
  arrive_rule (P := SameOut c) (fun _ data h => h.trans (out_deliver _ data))
    (fun _ _ h => h.trans (by constructor <;> rfl)) (fun _ _ _ h => h.trans (by constructor <;> rfl))
    (fun _ _ _ h => h.trans (by constructor <;> rfl)) g now mem (SameOut.refl c)

theorem sent_deliver (data : List UInt8) : (c.deliver data).1.sent = c.sent := by
  unfold deliver
  split <;> rfl

theorem sent_arrive (g : Seg) (now : Serial) (mem : Bool) : (c.arrive g now mem).sent = c.sent :=
  arrive_rule (P := fun c' => c'.sent = c.sent) (fun _ _ h => (sent_deliver _ _).trans h)
    (fun _ _ h => h) (fun _ _ _ h => h) (fun _ _ _ h => h) g now mem rfl

theorem out_takeIn (g : Seg) (now : Serial) (mem : Bool) : SameOut c (c.takeIn g now mem) := by
  unfold takeIn
  split
  · refine (out_arrive c g now mem).trans ?_
    unfold ackSecond
    split
    · exact out_sendSeg _ _ _ _
    · exact SameOut.refl _
  · exact SameOut.refl c

/-! ## The state -/

theorem state_deliver (data : List UInt8) : (c.deliver data).1.state = c.state := by
  unfold deliver
  split <;> rfl

section
variable {P : State → Prop} (hP : ∀ s, P s → P s.finIn)
include hP
variable {c : Conn}

theorem arrive_state (g : Seg) (now : Serial) (mem : Bool) (h : P c.state) :
    P (c.arrive g now mem).state :=
  arrive_rule (P := fun c => P c.state) (fun c data h => by rw [state_deliver c data]; exact h)
    (fun _ _ h => hP _ h) (fun _ _ _ h => h) (fun _ _ _ h => h) g now mem h

/-- What a FIN cannot change about the state, arriving data cannot change. -/
theorem takeIn_state (g : Seg) (now : Serial) (mem : Bool) (h : P c.state) :
    P (c.takeIn g now mem).state := by
  unfold takeIn
  split
  · unfold ackSecond
    split <;> exact arrive_state hP g now mem h
  · exact h

end

theorem outputLoop_state (now : Serial) (fuel : ℕ) : (outputLoop now fuel c).state = c.state := by
  induction fuel generalizing c with
  | zero => rfl
  | succ fuel ih =>
    unfold outputLoop
    dsimp only
    split
    · rfl
    · split
      · rfl
      · exact ih _

theorem parseSack_eq (opt : List UInt8) : c.parseSack opt = { c with sb := (c.parseSack opt).sb } := by
  unfold parseSack
  induction sackReports opt generalizing c with
  | nil => rfl
  | cons r rest ih =>
    rw [List.foldl_cons, ih]
    rfl

/-- The options of a SYN change what they are about. -/
theorem parseSynOpts_eq (opt : List UInt8) : c.parseSynOpts opt = { c with
    peerMss := (c.parseSynOpts opt).peerMss
    peerWs := (c.parseSynOpts opt).peerWs
    peerSack := (c.parseSynOpts opt).peerSack } := by
  have hone : ∀ (c : Conn) (o : UInt8 × List UInt8), c.synOpt o = { c with
      peerMss := (c.synOpt o).peerMss
      peerWs := (c.synOpt o).peerWs
      peerSack := (c.synOpt o).peerSack } := by
    intro c o
    obtain ⟨m, h⟩ | ⟨w, h⟩ | h | h := c.synOpt_cases o <;> rw [h]
  have hall : ∀ (l : List (UInt8 × List UInt8)) (c : Conn), l.foldl synOpt c = { c with
      peerMss := (l.foldl synOpt c).peerMss
      peerWs := (l.foldl synOpt c).peerWs
      peerSack := (l.foldl synOpt c).peerSack } := by
    intro l
    induction l with
    | nil => exact fun c => rfl
    | cons o rest ih =>
      intro c
      rw [List.foldl_cons, ih (c.synOpt o), hone c o]
  exact hall (opts opt) { c with peerWs := none, peerSack := false }

theorem isNew_seeSack (opt : List UInt8) (ack : Serial) :
    (c.seeSack opt).isNew ack ↔ c.isNew ack := by
  unfold seeSack
  split
  · rw [parseSack_eq]
    rfl
  · rfl

theorem recovery_fin (ack : Serial) (acked : ℕ) : (c.recovery ack acked).state = c.state ∧
    (c.recovery ack acked).finSent = c.finSent ∧ (c.recovery ack acked).finSeq = c.finSeq := by
  unfold recovery
  split
  · split
    · exact ⟨rfl, rfl, rfl⟩
    · have h := resent_resendNext c
      exact ⟨h.state, h.same_out.finSent, h.same_out.finSeq⟩
  · exact ⟨rfl, rfl, rfl⟩

/-- Only an acknowledgement of our FIN changes the state. -/
theorem ackNew_state (ack now : Serial) : (c.ackNew ack now).state =
    if c.finSent = true ∧ gt ack c.finSeq then c.state.finAcked else c.state := by
  have hbefore : (((c.unaTo ack).rttAck ack now).restartTimer now).state = c.state ∧
      (((c.unaTo ack).rttAck ack now).restartTimer now).finSent = c.finSent ∧
      (((c.unaTo ack).rttAck ack now).restartTimer now).finSeq = c.finSeq := by
    unfold rttAck
    split <;> exact ⟨rfl, rfl, rfl⟩
  obtain ⟨h1, h2, h3⟩ := recovery_fin (((c.unaTo ack).rttAck ack now).restartTimer now) ack
    (dist c.sndUna ack)
  unfold ackNew finAcked
  rw [h2, h3, hbefore.2.1, hbefore.2.2]
  split
  · show State.finAcked _ = _
    rw [h1, hbefore.1]
  · exact h1.trans hbefore.1

theorem seeSack_fin (opt : List UInt8) : (c.seeSack opt).state = c.state ∧
    (c.seeSack opt).finSent = c.finSent ∧ (c.seeSack opt).finSeq = c.finSeq := by
  unfold seeSack
  split
  · rw [parseSack_eq]
    exact ⟨rfl, rfl, rfl⟩
  · exact ⟨rfl, rfl, rfl⟩

/-- What acknowledgements do to the state: nothing, unless they are for our FIN. -/
theorem ackProcessing_state (seq ack : Serial) (wnd segLen : ℕ) (f : Flags) (opt : List UInt8)
    (now : Serial) : (c.ackProcessing seq ack wnd segLen f opt now).state =
      if c.isNew ack ∧ c.finSent = true ∧ gt ack c.finSeq then c.state.finAcked else c.state := by
  obtain ⟨h1, h2, h3⟩ := seeSack_fin c opt
  have hwin : ∀ c' : Conn, (c'.windowUpdate seq ack wnd).state = c'.state := by
    intro c'
    unfold windowUpdate
    split <;> rfl
  unfold ackProcessing
  rw [hwin]
  unfold seeAck
  by_cases hnew : c.isNew ack
  · rw [if_pos ((isNew_seeSack c opt ack).mpr hnew), ackNew_state, h1, h2, h3]
    simp only [hnew, true_and]
  · rw [if_neg (fun h => hnew ((isNew_seeSack c opt ack).mp h)),
      if_neg (fun h : c.isNew ack ∧ _ => hnew h.1)]
    split
    · exact (resent_ackDup _).state.trans h1
    · exact h1

/-! ## No way back to the beginning -/

theorem begun_tcpOutput {c : Conn} (h : c.state ≠ .synSent) (now : Serial) :
    (c.tcpOutput now).state ≠ .synSent := by
  have hout : ∀ s : State, s ≠ .synSent → s.finOut ≠ .synSent := by
    intro s hs
    cases s <;> first | exact hs | decide
  unfold tcpOutput
  split
  · have hl := outputLoop_state c now c.sbuf.length
    unfold outputFin
    split
    · refine hout _ ?_
      show (outputLoop now c.sbuf.length c).state ≠ .synSent
      rw [hl]
      exact h
    · rw [hl]
      exact h
  · exact h

theorem begun_takeIn {c : Conn} (h : c.state ≠ .synSent) (g : Seg) (now : Serial) (mem : Bool) :
    (c.takeIn g now mem).state ≠ .synSent := by
  have hin : ∀ s : State, s ≠ .synSent → s.finIn ≠ .synSent := by
    intro s hs
    cases s <;> first | exact hs | decide
  exact takeIn_state (P := fun s => s ≠ .synSent) hin g now mem h

theorem closed_begun : State.closed ≠ .synSent := by decide

theorem begun_inputOpen {c : Conn} (h : c.state ≠ .synSent) (g : Seg) (wnd : ℕ) (now : Serial)
    (mem : Bool) : (c.inputOpen g wnd now mem).state ≠ .synSent := by
  have hack : ∀ s : State, s ≠ .synSent → s.finAcked ≠ .synSent := by
    intro s hs
    cases s <;> first | exact hs | decide
  have hrest : ∀ b : Conn, b.state ≠ .synSent → (b.inputRest g now mem).state ≠ .synSent := by
    intro b hb
    unfold inputRest
    split
    · exact hb
    · split
      · split <;> exact hb
      · exact begun_tcpOutput (begun_takeIn hb g now mem) now
  unfold inputOpen
  split
  · split
    · exact closed_begun
    · exact h
  · split
    · exact h
    · refine hrest _ ?_
      split
      · rw [ackProcessing_state]
        split
        · exact hack _ h
        · exact h
      · exact h

theorem begun_input {c : Conn} (h : c.state ≠ .synSent) (g : Seg) (now : Serial) (mem : Bool) :
    (c.input g now mem).state ≠ .synSent := by
  have hdone : ∀ wnd, (c.handshakeDone g.seq g.ack wnd now).state ≠ .synSent := fun _ h => by cases h
  unfold input
  dsimp only
  by_cases hc : ¬ c.used ∨ c.state = .closed
  · rw [if_pos hc]
    exact h
  · rw [if_neg hc]
    by_cases hs : c.state = .synRcvd
    · rw [if_pos hs]
      split
      · exact closed_begun
      · split
        · exact h
        · split
          · exact h
          · exact begun_inputOpen (hdone _) g _ now mem
    · rw [if_neg hs, if_neg h]
      exact begun_inputOpen h g _ now mem

theorem begun_onTimeout {c : Conn} (h : c.state ≠ .synSent) (now : Serial) :
    (c.onTimeout now).state ≠ .synSent := by
  have hback : c.countRetry.backOff.state ≠ .synSent := h
  have hgive : c.countRetry.giveUp.state ≠ .synSent := closed_begun
  have hsyn : ((c.countRetry.backOff.sendSeg c.countRetry.backOff.iss { syn := true, ack := true }
      []).armTimer now).state ≠ .synSent := hback
  have hprobe : (c.countRetry.backOff.probe now).state ≠ .synSent := hback
  have hgo : (c.countRetry.backOff.goBack now).state ≠ .synSent := by
    have hout := begun_tcpOutput (c := c.countRetry.backOff.rewind) h now
    unfold goBack
    dsimp only
    split <;> exact hout
  unfold onTimeout
  dsimp only
  rw [if_neg hback]
  split
  · exact hgive
  · split
    · exact hsyn
    · split
      · exact hprobe
      · exact hgo

/-- A handshake is answered once: nothing leads back to `SYN_SENT`. -/
theorem begun_step {c : Conn} (h : c.state ≠ .synSent) (e : Event) : (c.step e).state ≠ .synSent := by
  have hkeep : ∀ c' : Conn, c'.state ≠ .synSent → (if c.used then c' else c).state ≠ .synSent := by
    intro c' hc'
    split
    · exact hc'
    · exact h
  have hfree : ∀ c' : Conn, c'.connFree.state ≠ .synSent := fun _ h => by cases h
  cases e with
  | segment g now mem => exact begun_input h g now mem
  | tick now =>
    have hend : (c.endTimeWait now).state ≠ .synSent := by
      unfold endTimeWait
      split
      · exact closed_begun
      · exact h
    refine hkeep ((c.endTimeWait now).runTimer now).reap ?_
    unfold reap
    split
    · exact hfree _
    · unfold runTimer
      split
      · exact begun_onTimeout hend now
      · exact hend
  | flush =>
    show c.tcpFlush.state ≠ .synSent
    unfold tcpFlush
    split <;> exact h
  | send data now =>
    refine hkeep (c.tcpSend data now) ?_
    unfold tcpSend
    split
    · dsimp only
      split
      · exact h
      · exact begun_tcpOutput (by exact h) now
    · exact h
  | recv max =>
    refine hkeep (c.tcpRecv max).1 ?_
    unfold tcpRecv
    split
    · exact h
    · dsimp only
      split <;> exact h
  | close now =>
    refine hkeep (c.tcpClose now) ?_
    have hbegun : ({ c with userClosed := true }.closing now).state ≠ .synSent := by
      unfold closing
      split
      · exact begun_tcpOutput (by exact h) now
      · exact h
    unfold tcpClose
    dsimp only
    split
    · exact hfree _
    · exact hbegun
  | abort => exact hkeep c.tcpAbort (hfree _)
  | connected =>
    refine hkeep c.connected ?_
    unfold Conn.connected
    split <;> exact h
  | accept =>
    refine hkeep c.accept ?_
    unfold Conn.accept
    split <;> exact h

end Conn

end BananaOS.Tcp
