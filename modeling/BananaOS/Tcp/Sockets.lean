import BananaOS.Tcp.Send

/-!
# Sending on a socket

`usock_send` of a stream socket is `tcp_send` with a shorter piece of the data when it must not wait,
and with the errors renamed.  Neither changes how many bytes go out, and an error stays one, so the
socket answers the truth under the condition of `exact_iff_spared`, read at the piece it hands on.

A call without waiting hands on no more than there is room for, and the first turn takes all of that or
fails.  It is the calls that wait which can go wrong, by a reset, a time limit or
a `^C` after a part of the data went in (`queued_and_again`).

A datagram is taken whole or not at all, by the answer of `ip_send`.
-/

namespace BananaOS.Tcp

open Lib Lib.Serial

/-! ## The socket -/

def EINTR : ℤ := 4
def EAGAIN : ℤ := 11
def ENOMEM : ℤ := 12
def EINVAL : ℤ := 22
def EPIPE : ℤ := 32
def EPROTO : ℤ := 71
def EMSGSIZE : ℤ := 90
def EAFNOSUPPORT : ℤ := 97
def EADDRINUSE : ℤ := 98
def ENETDOWN : ℤ := 100
def ECONNRESET : ℤ := 104
def ENOTCONN : ℤ := 107
def ETIMEDOUT : ℤ := 110
def ECONNREFUSED : ℤ := 111
def EHOSTUNREACH : ℤ := 113

/-- `MSG_DONTWAIT` -/
def msgDontwait : ℕ := 0x40

/-- `AF_INET` -/
def afInet : ℕ := 2

/-- `IP_MAX_PAYLOAD` -/
def ipMaxPayload : ℕ := 1480

/-- `SOCK_STREAM`, `SOCK_DGRAM` -/
inductive SockType where
  | stream | dgram
  deriving DecidableEq

/-- `S_NEW`, `S_BOUND`, `S_LISTEN`, `S_CONN` -/
inductive SockState where
  | new | bound | listen | conn
  deriving DecidableEq

/-- `usock`, as far as sending reads it. -/
structure Usock where
  type : SockType
  nonblock : Bool
  state : SockState
  lport : ℕ
  rip : ℕ
  rport : ℕ
  hasPeer : Bool
  sndtimeo : ℕ
  shutWr : Bool
  udpBound : Bool

/-- What a call meets on its way. -/
structure Around where
  /-- `timer_ms()` at the beginning -/
  start : Serial
  /-- the turns of `tcp_send`; the first one finds the connection as the call does -/
  turns : List Turn
  /-- the ports that `ephemeral` picks, and whether `udp_bind` takes them -/
  ephemeral : ℕ → ℕ
  udpBind : ℕ → Bool
  /-- `ip_send` of a datagram: destination, ports, data -/
  ipSend : ℕ → ℕ → ℕ → List UInt8 → ℤ

/-- `net_errno` -/
def netErrno (e : ℤ) : ℤ :=
  if e = netErrTimeout then -ETIMEDOUT
  else if e = netErrReset then -ECONNRESET
  else if e = netErrRefused then -ECONNREFUSED
  else if e = netErrNoroute then -EHOSTUNREACH
  else if e = netErrNomem then -ENOMEM
  else if e = netErrClosed then -EPIPE
  else if e = netErrNotready ∨ e = netErrNodev then -ENETDOWN
  else if e = netErrIntr then -EINTR
  else -EPROTO

/-- `sa_get`: an error, or an address and a port. -/
def saGet (sa : List UInt8) (len : ℤ) : ℤ ⊕ (ℕ × ℕ) :=
  let b : ℕ → ℕ := fun i => (sa.getD i 0).toNat
  if len < 8 then .inl (-EINVAL)
  else if b 0 + b 1 * 2 ^ 8 ≠ afInet then .inl (-EAFNOSUPPORT)
  else .inr (b 4 * 2 ^ 24 + b 5 * 2 ^ 16 + b 6 * 2 ^ 8 + b 7, b 2 * 2 ^ 8 + b 3)

/-- The rounds of `udp_bind_port` for a port that `ephemeral` picks: the port taken. -/
def bindTries (w : Around) : ℕ → ℕ → Option ℕ
  | _, 0 => none
  | k, tries + 1 => if w.udpBind (w.ephemeral k) then some (w.ephemeral k) else bindTries w (k + 1) tries

/-- `udp_bind_port(s, 0)`: an error, or the socket's port from then on. -/
def udpBindPort (s : Usock) (w : Around) : ℤ ⊕ ℕ :=
  if s.udpBound then .inl (-EINVAL)
  else match bindTries w 0 64 with
    | some p => .inr p
    | none => .inl (-EADDRINUSE)

/-- `udp_send` -/
def udpSend (w : Around) (ip sport dport : ℕ) (data : List UInt8) : ℤ :=
  if ipMaxPayload - 8 < data.length then netErrProto else w.ipSend ip sport dport data

/-- What `usock_send` makes of the answer of `udp_send`, and whether the datagram was taken. -/
def dgramAnswer (rc : ℤ) (data : List UInt8) : ℤ × List UInt8 :=
  if rc < 0 then (netErrno rc, []) else (data.length, data)

/-- Where a datagram goes. -/
def Usock.peer (s : Usock) (sa : Option (List UInt8)) (salen : ℤ) : ℤ ⊕ (ℕ × ℕ) :=
  match sa with
  | some b => saGet b salen
  | none => if s.hasPeer then .inr (s.rip, s.rport) else .inl (-ENOTCONN)

/-- The port a datagram comes from. -/
def Usock.port (s : Usock) (w : Around) : ℤ ⊕ ℕ :=
  if s.udpBound then .inr s.lport else udpBindPort s w

/-- `usock_send` of a datagram socket. -/
def sendDgram (s : Usock) (data : List UInt8) (sa : Option (List UInt8)) (salen : ℤ) (w : Around) :
    ℤ × List UInt8 :=
  match s.peer sa salen with
  | .inl rc => (rc, [])
  | .inr (ip, port) =>
    if 1472 < data.length then (-EMSGSIZE, [])
    else match s.port w with
      | .inl rc => (rc, [])
      | .inr lport => dgramAnswer (udpSend w ip lport port data) data

/-- `tcp_send_space` -/
def tcpSendSpace (c : Conn) : ℕ := if c.takes then c.space else 0

/-- What `usock_send` makes of the answer of `tcp_send`. -/
def streamErrno (rc : ℤ) : ℤ :=
  if rc < 0 then
    if rc = netErrTimeout then -EAGAIN else if netErrno rc = -EPIPE then -EPIPE else netErrno rc
  else rc

/-- The time limit of a call. -/
def Usock.timeout (s : Usock) : ℕ := if s.sndtimeo ≠ 0 then s.sndtimeo else 60000

/-- The call must not wait. -/
def Usock.dontwait (s : Usock) (flags : ℕ) : Bool := s.nonblock || flags &&& msgDontwait != 0

/-- The end of `usock_send`: a piece of the data goes to `tcp_send`. -/
def sendPiece (s : Usock) (data : List UInt8) (w : Around) : Option (ℤ × List UInt8) :=
  (tcpSend s.timeout w.start w.turns data).map fun p => (streamErrno p.1, p.2)

/-- `usock_send`: the answer, and the bytes that went out. -/
def usockSend (s : Usock) (data : List UInt8) (flags : ℕ) (sa : Option (List UInt8)) (salen : ℤ)
    (w : Around) : Option (ℤ × List UInt8) :=
  if s.shutWr then some (-EPIPE, [])
  else if s.type = .dgram then some (sendDgram s data sa salen w)
  else if s.state ≠ .conn then some (-ENOTCONN, [])
  else if data = [] then some (0, [])
  else if s.dontwait flags then
    match w.turns with
    | [] => none
    | t :: _ =>
      if tcpSendSpace t.conn = 0 then
        some (if t.conn.state = .closed then -EPIPE else -EAGAIN, [])
      else sendPiece s (data.take (tcpSendSpace t.conn)) w
  else sendPiece s data w

/-! ## Errors stay errors -/

theorem netErrno_neg (e : ℤ) : netErrno e < 0 := by
  unfold netErrno
  repeat' split
  all_goals decide

theorem streamErrno_neg_iff {rc : ℤ} : streamErrno rc < 0 ↔ rc < 0 := by
  unfold streamErrno
  split_ifs with h1 h2 h3
  · exact iff_of_true (by decide) h1
  · exact iff_of_true (by decide) h1
  · exact iff_of_true (netErrno_neg rc) h1
  · rfl

theorem streamErrno_of_nonneg {rc : ℤ} (h : 0 ≤ rc) : streamErrno rc = rc :=
  if_neg (not_lt.2 h)

theorem exact_of_neg {e : ℤ} (h : e < 0) : Exact (e, []) :=
  ⟨fun hp => absurd h (not_lt.2 hp), fun _ => rfl⟩

/-- Renaming the errors changes nothing about the count. -/
theorem exact_streamErrno_iff {rc : ℤ} {q : List UInt8} : Exact (streamErrno rc, q) ↔ Exact (rc, q) := by
  unfold Exact
  change (0 ≤ streamErrno rc → _ = streamErrno rc) ∧ (streamErrno rc < 0 → _) ↔
    (0 ≤ rc → _ = rc) ∧ (rc < 0 → _)
  rw [streamErrno_neg_iff]
  refine and_congr_left fun _ => ?_
  rcases lt_or_ge rc 0 with h | h
  · exact iff_of_true (fun hp => absurd (streamErrno_neg_iff.2 h) (not_lt.2 hp))
      fun hp => absurd h (not_lt.2 hp)
  · rw [streamErrno_of_nonneg h]

theorem saGet_neg {sa : List UInt8} {len rc : ℤ} (h : saGet sa len = .inl rc) : rc < 0 := by
  unfold saGet at h
  by_cases hlen : len < 8
  · obtain rfl := Sum.inl.inj ((if_pos hlen).symm.trans h)
    decide
  · replace h := (if_neg hlen).symm.trans h
    by_cases hf : (sa.getD 0 0).toNat + (sa.getD 1 0).toNat * 2 ^ 8 ≠ afInet
    · obtain rfl := Sum.inl.inj ((if_pos hf).symm.trans h)
      decide
    · exact absurd ((if_neg hf).symm.trans h) Sum.inr_ne_inl

theorem Usock.peer_neg {s : Usock} {sa : Option (List UInt8)} {salen rc : ℤ}
    (h : s.peer sa salen = .inl rc) : rc < 0 := by
  rcases sa with _ | b
  · by_cases hp : s.hasPeer
    · exact absurd ((if_pos hp).symm.trans h) Sum.inr_ne_inl
    · obtain rfl := Sum.inl.inj ((if_neg hp).symm.trans h)
      decide
  · exact saGet_neg h

theorem Usock.port_neg {s : Usock} {w : Around} {rc : ℤ} (h : s.port w = .inl rc) : rc < 0 := by
  unfold Usock.port udpBindPort at h
  by_cases hb : s.udpBound
  · exact absurd ((if_pos hb).symm.trans h) Sum.inr_ne_inl
  · rw [if_neg hb, if_neg hb] at h
    rcases htries : bindTries w 0 64 with _ | p
    · rw [htries] at h
      obtain rfl := Sum.inl.inj h
      decide
    · rw [htries] at h
      exact absurd h Sum.inr_ne_inl

/-- **A datagram's answer is always the truth.** -/
theorem sendDgram_exact (s : Usock) (data : List UInt8) (sa : Option (List UInt8)) (salen : ℤ)
    (w : Around) : Exact (sendDgram s data sa salen w) := by
  unfold sendDgram
  rcases hpeer : s.peer sa salen with rc | ⟨ip, port⟩
  · exact exact_of_neg (Usock.peer_neg hpeer)
  change Exact (if 1472 < data.length then _ else _)
  split_ifs
  · exact exact_of_neg (by decide)
  rcases hport : s.port w with rc | lport
  · exact exact_of_neg (Usock.port_neg hport)
  change Exact (dgramAnswer _ data)
  unfold dgramAnswer
  split_ifs
  · exact exact_of_neg (netErrno_neg _)
  · exact ⟨fun _ => rfl, fun h => absurd h (not_lt.2 (Int.natCast_nonneg _))⟩

/-! ## Stream sockets -/

/-- What a call hands on to `tcp_send`: nothing when it does not get that far. -/
def Usock.piece (s : Usock) (data : List UInt8) (flags : ℕ) (turns : List Turn) : List UInt8 :=
  if s.shutWr ∨ s.type = .dgram ∨ s.state ≠ .conn then []
  else if s.dontwait flags then data.take ((turns.head?.map fun t => tcpSendSpace t.conn).getD 0)
  else data

theorem spared_zero (timeout : ℕ) (start : Serial) (turns : List Turn) :
    Spared timeout start turns 0 :=
  .inr ⟨Nat.zero_le _, by norm_num⟩

theorem sendPiece_exact_iff {s : Usock} {data : List UInt8} {w : Around} {p : ℤ × List UInt8}
    (h : sendPiece s data w = some p) :
    Exact p ↔ Spared s.timeout w.start w.turns data.length := by
  unfold sendPiece at h
  obtain ⟨p', hp', rfl⟩ := Option.map_eq_some_iff.1 h
  rw [exact_streamErrno_iff]
  exact exact_iff_spared hp'

/-- **`usock_send` answers the truth exactly when the piece it hands on is spared.** -/
theorem usockSend_exact_iff {s : Usock} {data : List UInt8} {flags : ℕ} {sa : Option (List UInt8)}
    {salen : ℤ} {w : Around} {p : ℤ × List UInt8} (h : usockSend s data flags sa salen w = some p) :
    Exact p ↔ Spared s.timeout w.start w.turns (s.piece data flags w.turns).length := by
  unfold usockSend at h
  unfold Usock.piece
  by_cases hsw : s.shutWr
  · rw [if_pos hsw, Option.some.injEq] at h
    rw [if_pos (.inl hsw), ← h]
    exact iff_of_true (exact_of_neg (by decide)) (spared_zero _ _ _)
  rw [if_neg hsw] at h
  by_cases hty : s.type = .dgram
  · rw [if_pos hty, Option.some.injEq] at h
    rw [if_pos (.inr (.inl hty)), ← h]
    exact iff_of_true (sendDgram_exact s data sa salen w) (spared_zero _ _ _)
  rw [if_neg hty] at h
  by_cases hst : s.state ≠ .conn
  · rw [if_pos hst, Option.some.injEq] at h
    rw [if_pos (.inr (.inr hst)), ← h]
    exact iff_of_true (exact_of_neg (by decide)) (spared_zero _ _ _)
  rw [if_neg hst] at h
  rw [if_neg (not_or.2 ⟨hsw, not_or.2 ⟨hty, hst⟩⟩)]
  by_cases hd : data = []
  · rw [if_pos hd, Option.some.injEq] at h
    rw [← h, hd, List.take_nil, ite_self]
    exact iff_of_true ⟨fun _ => rfl, fun h => absurd h (lt_irrefl _)⟩ (spared_zero _ _ _)
  rw [if_neg hd] at h
  by_cases hdw : s.dontwait flags
  · rw [if_pos hdw] at h
    rw [if_pos hdw]
    rcases ht : w.turns with _ | ⟨t, turns⟩
    · rw [ht] at h
      exact absurd h (by simp)
    · rw [ht] at h
      change (if tcpSendSpace t.conn = 0 then _ else _) = _ at h
      change _ ↔ Spared _ _ _ (data.take (tcpSendSpace t.conn)).length
      rw [← ht]
      by_cases hz : tcpSendSpace t.conn = 0
      · rw [if_pos hz, Option.some.injEq] at h
        rw [hz, ← h]
        refine iff_of_true (exact_of_neg ?_) (spared_zero _ _ _)
        split_ifs <;> decide
      · rw [if_neg hz] at h
        exact sendPiece_exact_iff h
  · rw [if_neg hdw] at h
    rw [if_neg hdw]
    exact sendPiece_exact_iff h

/-! ## The two calls -/

/-- **How many bytes went out is what the caller is told, and none after an error, exactly when the
call is spared**: for every state of the connection, every list of turns and every socket. -/
theorem send_tells_truth_iff (timeout : ℕ) (start : Serial) (turns : List Turn) (data : List UInt8)
    (s : Usock) (flags : ℕ) (sa : Option (List UInt8)) (salen : ℤ) (w : Around) :
    (∀ p ∈ tcpSend timeout start turns data, Exact p ↔ Spared timeout start turns data.length) ∧
      ∀ p ∈ usockSend s data flags sa salen w,
        Exact p ↔ Spared s.timeout w.start w.turns (s.piece data flags w.turns).length :=
  ⟨fun _ h => exact_iff_spared h, fun _ h => usockSend_exact_iff h⟩

/-- A connection whose peer has closed its window, with room for one byte more. -/
def nearlyFull : Conn :=
  { Conn.zero [] with
    used := true, state := .established, sbSize := sbufSmall, peerMss := tcpMss, cwnd := 4 * tcpMss
    sbuf := List.replicate (sbufSmall - 1) 0 }

/-- The same connection when two bytes were to be sent on it, and one was queued. -/
def full : Conn := nearlyFull.tcpSend [1, 2] 0

theorem Conn.outputLoop_of_closed {c : Conn} (hd : dist c.sndUna c.sndNxt = 0) (hw : c.sndWnd = 0)
    (hb : c.sbuf ≠ []) (now : Serial) :
    outputLoop now c.sbuf.length c = c.armIdle now := by
  have hlen : 0 < c.sbuf.length := List.length_pos_iff.2 hb
  obtain ⟨n, hn⟩ : ∃ n, c.sbuf.length = n + 1 := ⟨c.sbuf.length - 1, by omega⟩
  have hs : c.sendable 0 = 0 := by simp [Conn.sendable, hw]
  rw [hn, outputLoop, hd]
  change (if c.sbuf.length ≤ 0 then _ else if c.sendable 0 = 0 then _ else _) = _
  rw [if_neg (by omega), if_pos hs]

theorem Conn.tcpOutput_of_closed {c : Conn} (hs : c.state = .established)
    (hd : dist c.sndUna c.sndNxt = 0) (hw : c.sndWnd = 0) (hb : c.sbuf ≠ []) (hf : c.finPending = false)
    (now : Serial) : c.tcpOutput now = c.armIdle now := by
  have hc : c.canSend := by simp [Conn.canSend, hs]
  unfold Conn.tcpOutput
  rw [if_pos hc, Conn.outputLoop_of_closed hd hw hb now]
  unfold Conn.outputFin
  exact if_neg fun h => Bool.false_ne_true (hf.symm.trans h.1)

theorem space_nearlyFull : nearlyFull.space = 1 := by
  have hlen : nearlyFull.sbuf.length = sbufSmall - 1 := List.length_replicate
  have hsize : nearlyFull.sbSize = sbufSmall := rfl
  rw [Conn.space, hlen, hsize]
  decide

theorem full_eq : full = { nearlyFull with sbuf := nearlyFull.sbuf ++ [1] }.armIdle 0 := by
  unfold full
  rw [Conn.tcpSend_of_space rfl (.inl rfl) (by rw [space_nearlyFull]; decide) (by decide),
    space_nearlyFull]
  exact Conn.tcpOutput_of_closed rfl (by decide) rfl (List.append_ne_nil_of_right_ne_nil _ (by decide))
    rfl 0

theorem space_full : full.space = 0 := by
  have hlen : nearlyFull.sbuf.length = sbufSmall - 1 := List.length_replicate
  have hbuf : full.sbuf = nearlyFull.sbuf ++ [1] := by rw [full_eq]; rfl
  have hsize : full.sbSize = sbufSmall := by rw [full_eq]; rfl
  rw [Conn.space, hbuf, hsize, List.length_append, hlen]
  decide

/-- One turn with room for a byte, and one that finds the time to be over. -/
def lateTurns : List Turn := [⟨nearlyFull, 0, false⟩, ⟨full, 1000, false⟩]

/-- A call that finds room for a byte and then none until the time is over. -/
theorem tcpSend_late {c d : Conn} (hc : c.err = none) (hct : c.takes) (hcs : c.space = 1)
    (hd : d.err = none) (hdt : d.takes) (hds : d.space = 0) (x y : UInt8) :
    tcpSend 1000 0 [⟨c, 0, false⟩, ⟨d, 1000, false⟩] [x, y] = some (netErrTimeout, [x]) := by
  have h1 : ¬ Turn.fails 1000 0 ⟨c, 0, false⟩ := by
    rintro (h | h | ⟨h, -⟩)
    · exact h hc
    · exact h hct
    · exact absurd (hcs.symm.trans h) (by decide)
  have hlate : 1000 ≤ dist 0 (1000 : Serial) := by decide +kernel
  have h2 : sendLoop 1000 0 [⟨d, 1000, false⟩] [y] = some (some netErrTimeout, []) :=
    sendLoop_of_late (t := ⟨d, 1000, false⟩) hd hdt hds hlate _ _ _
  unfold tcpSend
  rw [sendLoop_of_not_fails h1]
  change Option.map _ (Option.map (fun r => (r.1, [x, y].take c.space ++ r.2))
    (sendLoop 1000 0 [⟨d, 1000, false⟩] ([x, y].drop c.space))) = _
  rw [hcs]
  change Option.map _ (Option.map _ (sendLoop 1000 0 [⟨d, 1000, false⟩] [y])) = _
  rw [h2]
  rfl

/-- A call with these turns queues its first byte and times out. -/
theorem tcpSend_lateTurns : tcpSend 1000 0 lateTurns [1, 2] = some (netErrTimeout, [1]) := by
  have herr : full.err = none := by
    rw [full_eq]
    rfl
  have hopen : full.takes := by
    rw [full_eq]
    exact .inl rfl
  exact tcpSend_late rfl (.inl rfl) space_nearlyFull herr hopen space_full 1 2

/-- A stream socket with a time limit of a second. -/
def waiting : Usock where
  type := .stream
  nonblock := false
  state := .conn
  lport := 49152
  rip := 0x0A000002
  rport := 80
  hasPeer := true
  sndtimeo := 1000
  shutWr := false
  udpBound := false

def late : Around where
  start := 0
  turns := lateTurns
  ephemeral := fun _ => 49153
  udpBind := fun _ => true
  ipSend := fun _ _ _ _ => 0

theorem usockSend_late : usockSend waiting [1, 2] 0 none 0 late = some (-EAGAIN, [1]) := by
  unfold usockSend
  rw [if_neg (by decide), if_neg (by decide), if_neg (by decide), if_neg (by decide),
    if_neg (by decide)]
  unfold sendPiece
  have htime : waiting.timeout = 1000 := rfl
  rw [htime]
  change (tcpSend 1000 0 lateTurns [1, 2]).map _ = _
  rw [tcpSend_lateTurns]
  rfl

/-- **A caller that tries again sends a byte twice**: it is told of a time limit, or to try again, when
the first of two bytes is in the send buffer already. -/
theorem queued_and_again :
    ¬ ((∀ (timeout : ℕ) (start : Serial) (turns : List Turn) (data : List UInt8),
          ∀ p ∈ tcpSend timeout start turns data, Exact p) ∨
        ∀ (s : Usock) (data : List UInt8) (flags : ℕ) (sa : Option (List UInt8)) (salen : ℤ)
          (w : Around), ∀ p ∈ usockSend s data flags sa salen w, Exact p) := by
  rintro (h | h)
  · exact absurd ((h _ _ _ _ _ tcpSend_lateTurns).2 (by decide)) (by decide)
  · exact absurd ((h _ _ _ _ _ _ _ usockSend_late).2 (by decide)) (by decide)

/-- The two calls at that connection. -/
theorem send_tells_truth_iff_late :
    (Exact (netErrTimeout, [1]) ↔ Spared 1000 0 lateTurns 2) ∧
      (Exact (-EAGAIN, [1]) ↔ Spared 1000 0 lateTurns 2) :=
  have h := send_tells_truth_iff 1000 0 lateTurns [1, 2] waiting 0 none 0 late
  ⟨h.1 _ tcpSend_lateTurns, h.2 _ usockSend_late⟩

end BananaOS.Tcp
