import BananaOS.Tcp.Conn

/-!
# What a connection does with a segment, a tick and a call

The scoreboard, the handling of acknowledgements, `tcp_input` from the point where the connection is
found, the timer, and the calls of the application.  A `Seg` is an arriving segment whose checksum and
header length were right and whose ports and addresses are the connection's; its options are still
bytes, for the peer may send any.  `Event` is everything that can happen to a connection, and `Reach`
says which connections there can be: those that some run of events leads to from one that was just
opened, by either side.  The clock and the luck of `kmalloc` come with the event.
-/

namespace BananaOS.Tcp

open Lib Lib.Serial

namespace Conn

variable (c : Conn)

/-! ## The scoreboard -/

/-- The rounds of the second loop of `sb_add`: the ranges that touch `[s, e)` go into it, the rest
stays. -/
def absorb : (s e : Serial) → List (Serial × Serial) → Serial × Serial × List (Serial × Serial)
  | s, e, [] => (s, e, [])
  | s, e, r :: rest =>
    if le r.1 e then
      absorb (if lt r.1 s then r.1 else s) (if gt r.2 e then r.2 else e) rest
    else (s, e, r :: rest)

/-- `[s, e)` into the board, once it is clipped: the ranges before it, itself with those it touches,
the ranges after it.  A full board that would get a ninth range loses the highest. -/
def insertRange (sb : List (Serial × Serial)) (s e : Serial) : List (Serial × Serial) :=
  let below := sb.takeWhile fun r => lt r.2 s
  let rest := sb.dropWhile fun r => lt r.2 s
  let m := absorb s e rest
  if m.2.2.length = rest.length ∧ sb.length = sbMax then
    if m.2.2 = [] then sb else below ++ (m.1, m.2.1) :: m.2.2.dropLast
  else below ++ (m.1, m.2.1) :: m.2.2

/-- `sb_add` -/
def sbAdd (s e : Serial) : Conn :=
  let s := if lt s c.sndUna then c.sndUna else s
  let e := if gt e c.sndMax then c.sndMax else e
  { c with sb := if lt s e then insertRange c.sb s e else c.sb }

/-- `sb_trim` -/
def sbTrim : Conn :=
  { c with sb := (c.sb.filter fun r => ¬ le r.2 c.sndUna).map fun r =>
      (if lt r.1 c.sndUna then c.sndUna else r.1, r.2) }

/-- `sb_hole`: the loop over the ranges. -/
def holeIn : List (Serial × Serial) → Serial → Option (Serial × Serial)
  | [], _ => none
  | r :: rest, p =>
    if lt p r.1 then some (p, r.1)
    else holeIn rest (if lt p r.2 then r.2 else p)

/-- `sb_hole` -/
def sbHole (p : Serial) : Option (Serial × Serial) := holeIn c.sb p

/-- How many bytes `resend` sends: from `seq` on again, up to `stop` at most. -/
def resendLen (seq stop : Serial) : ℕ :=
  if c.sbuf.length ≤ dist c.sndUna seq then 0
  else min (min (c.sbuf.length - dist c.sndUna seq) c.peerMss) (dist seq stop)

/-- `resend` -/
def resend (seq stop : Serial) : Conn :=
  if c.resendLen seq stop = 0 then c
  else c.sendSeg seq { ack := true }
    ((c.sbuf.drop (dist c.sndUna seq)).take (c.resendLen seq stop))

/-- `resend`, with `rexmit_next` after the bytes if there were any. -/
def resendHole (seq stop : Serial) : Conn :=
  { c.resend seq stop with
    rexmitNext := if c.resendLen seq stop = 0 then c.rexmitNext
      else fwd seq (c.resendLen seq stop) }

/-- `resend_next` -/
def resendNext : Conn :=
  if c.sackOk ∧ c.sb ≠ [] then
    match c.sbHole (if lt c.rexmitNext c.sndUna then c.sndUna else c.rexmitNext) with
    | none => c
    | some (seq, stop) => c.resendHole seq stop
  else if ge c.sndUna c.rexmitNext then c.resendHole c.sndUna (fwd c.sndUna c.peerMss)
  else c

end Conn

/-! ## Options -/

/-- The number two bytes are. -/
def be16 (a b : UInt8) : ℕ := a.toNat * 256 + b.toNat

/-- The number four bytes are. -/
def be32 (a b d e : UInt8) : Serial :=
  BitVec.ofNat 32 (((a.toNat * 256 + b.toNat) * 256 + d.toNat) * 256 + e.toNat)

/-- The walk over the options that `parse_syn_opts` and `parse_sack` share: what each option is, its
kind and the bytes after kind and length.  It ends at an option 0 or at one whose length is wrong. -/
def optList : ℕ → List UInt8 → List (UInt8 × List UInt8)
  | 0, _ => []
  | _, [] => []
  | fuel + 1, k :: rest =>
    if k = 0 then []
    else if k = 1 then optList fuel rest
    else
      match rest with
      | [] => []
      | n :: body =>
        if n.toNat < 2 ∨ body.length + 2 < n.toNat then []
        else (k, body.take (n.toNat - 2)) :: optList fuel (body.drop (n.toNat - 2))

/-- The options of a segment. -/
def opts (opt : List UInt8) : List (UInt8 × List UInt8) := optList opt.length opt

/-- The blocks of one SACK option. -/
def sackBody : List UInt8 → List (Serial × Serial)
  | a :: b :: d :: e :: a' :: b' :: d' :: e' :: rest =>
    (be32 a b d e, be32 a' b' d' e') :: sackBody rest
  | _ => []

/-- The blocks the SACK options of a segment report. -/
def sackReports (opt : List UInt8) : List (Serial × Serial) :=
  (opts opt).flatMap fun o =>
    if o.1 = 5 ∧ 8 ≤ o.2.length ∧ o.2.length % 8 = 0 then sackBody o.2 else []

namespace Conn

variable (c : Conn)

/-- One option of a SYN. -/
def synOpt (o : UInt8 × List UInt8) : Conn :=
  match o with
  | (2, [a, b]) =>
    if 64 ≤ be16 a b then { c with peerMss := min (be16 a b) (if c.ipv6 then tcp6Mss else tcpMss) }
    else c
  | (3, [a]) => { c with peerWs := some (if a.toNat > 14 then 14 else a.toNat) }
  | (4, []) => { c with peerSack := true }
  | _ => c

set_option linter.auxLemma false in
/-- An option of a SYN sets one field, or nothing. -/
theorem synOpt_cases (o : UInt8 × List UInt8) :
    (∃ m, c.synOpt o = { c with peerMss := m }) ∨ (∃ w, c.synOpt o = { c with peerWs := w }) ∨
      c.synOpt o = { c with peerSack := true } ∨ c.synOpt o = c := by
  obtain ⟨t, v⟩ := o
  by_cases h2 : t = 2
  · subst h2
    rcases v with - | ⟨a, - | ⟨b, - | ⟨d, v⟩⟩⟩
    · exact .inr (.inr (.inr rfl))
    · exact .inr (.inr (.inr rfl))
    · by_cases hm : 64 ≤ be16 a b
      · exact .inl ⟨_, if_pos hm⟩
      · exact .inr (.inr (.inr (if_neg hm)))
    · exact .inr (.inr (.inr rfl))
  by_cases h3 : t = 3
  · subst h3
    rcases v with - | ⟨a, - | ⟨b, v⟩⟩
    · exact .inr (.inr (.inr rfl))
    · exact .inr (.inl ⟨_, rfl⟩)
    · exact .inr (.inr (.inr rfl))
  by_cases h4 : t = 4
  · subst h4
    rcases v with - | ⟨a, v⟩
    · exact .inr (.inr (.inl rfl))
    · exact .inr (.inr (.inr rfl))
  · -- `split` would have every pair of bytes decided here
    refine .inr (.inr (.inr ?_))
    unfold synOpt synOpt.match_1
    dsimp only
    rw [dif_neg h2, dif_neg h3, dif_neg h4]

/-- `parse_syn_opts` -/
def parseSynOpts (opt : List UInt8) : Conn :=
  (opts opt).foldl synOpt { c with peerWs := none, peerSack := false }

/-- `opts_agreed` -/
def optsAgreed : Conn :=
  { c with
    wsOk := c.peerWs.isSome
    sndWs := c.peerWs.getD 0
    rcvWs := if c.peerWs.isSome then rcvWscale else 0
    sackOk := c.peerSack }

/-- `parse_sack` -/
def parseSack (opt : List UInt8) : Conn :=
  (sackReports opt).foldl (fun c r => c.sbAdd r.1 r.2) c

/-! ## Acknowledgements -/

/-- The acknowledged bytes leave the buffer, `snd_una` moves on. -/
def unaTo (ack : Serial) : Conn :=
  let c1 := { c with sbuf := c.sbuf.drop (min (dist c.sndUna ack) c.sbuf.length), sndUna := ack }
  { c1 with sndNxt := if lt c1.sndNxt c1.sndUna then c1.sndUna else c1.sndNxt }.sbTrim

/-- The retransmission timer after something new was acknowledged. -/
def restartTimer (now : Serial) : Conn :=
  { c with
    retries := 0
    dupacks := 0
    timerOn := c.sndUna ≠ c.sndMax
    rtoDeadline := if c.sndUna = c.sndMax then c.rtoDeadline else fwd now c.rto }

/-- The congestion window grows. -/
def growCwnd (acked : ℕ) : Conn :=
  let w := if c.cwnd < c.ssthresh then c.cwnd + min acked c.peerMss
    else c.cwnd + c.peerMss * c.peerMss / (if c.cwnd = 0 then 1 else c.cwnd)
  { c with cwnd := min w (4 * 2 ^ 20) }

/-- Loss recovery goes on, or is over; without loss the congestion window grows. -/
def recovery (ack : Serial) (acked : ℕ) : Conn :=
  if c.inRec then
    if ge ack c.recover then { c with inRec := false, cwnd := c.ssthresh, sb := [] }
    else c.resendNext
  else c.growCwnd acked

/-- Our FIN, if it was sent, may be acknowledged. -/
def finAcked (ack now : Serial) : Conn :=
  if c.finSent ∧ gt ack c.finSeq then
    { c with
      state := c.state.finAcked
      twDeadline := if c.state = .closing then fwd now timeWaitMs else c.twDeadline }
  else c

/-- The segment whose round trip was timed is acknowledged. -/
def rttAck (ack now : Serial) : Conn :=
  if c.rttTiming ∧ gt ack c.rttSeq then c.rttDone now else c

/-- Something new is acknowledged. -/
def ackNew (ack now : Serial) : Conn :=
  (((((c.unaTo ack).rttAck ack now).restartTimer now).recovery ack (dist c.sndUna ack)).finAcked ack
    now)

/-- Half of what is in flight, but two segments at least. -/
def halfFlight : ℕ := max (dist c.sndUna c.sndMax / 2) (2 * c.peerMss)

/-- A lost segment is assumed: loss recovery begins. -/
def enterRec : Conn :=
  { c with ssthresh := c.halfFlight, cwnd := c.halfFlight, inRec := true, recover := c.sndMax }

/-- Fast retransmit. -/
def fastRexmit : Conn :=
  let c1 := c.enterRec
  { c1.resend c1.sndUna (fwd c1.sndUna c1.peerMss) with
    rexmitNext := fwd c1.sndUna (c1.resendLen c1.sndUna (fwd c1.sndUna c1.peerMss))
    rttTiming := false }

/-- One duplicate acknowledgement more. -/
def countDup : Conn := { c with dupacks := (c.dupacks + 1) % 2 ^ 32 }

/-- A duplicate acknowledgement. -/
def ackDup : Conn :=
  let c1 := c.countDup
  if c1.dupacks = 3 ∧ ¬ c1.inRec then c1.fastRexmit
  else if 3 < c1.dupacks ∧ c1.inRec ∧ c1.sackOk then c1.resendNext
  else c1

/-- The window update, from the newest segment only. -/
def windowUpdate (seq ack : Serial) (wnd : ℕ) : Conn :=
  if lt c.sndWl1 seq ∨ (c.sndWl1 = seq ∧ le c.sndWl2 ack) then
    { c with sndWnd := wnd, sndWl1 := seq, sndWl2 := ack }
  else c

/-- The acknowledgement acknowledges something new. -/
def isNew (ack : Serial) : Prop := gt ack c.sndUna ∧ le ack c.sndMax

instance (ack : Serial) : Decidable (c.isNew ack) := inferInstanceAs (Decidable (_ ∧ _))

/-- The segment is a duplicate acknowledgement. -/
def isDup (ack : Serial) (wnd segLen : ℕ) (flags : Flags) : Prop :=
  ack = c.sndUna ∧ segLen = 0 ∧ ¬ flags.syn ∧ ¬ flags.fin ∧ c.sndMax ≠ c.sndUna ∧ wnd = c.sndWnd

instance (ack : Serial) (wnd segLen : ℕ) (flags : Flags) :
    Decidable (c.isDup ack wnd segLen flags) := inferInstanceAs (Decidable (_ ∧ _))

/-- The part of `ack_processing` about the SACK options. -/
def seeSack (opt : List UInt8) : Conn := if c.sackOk then c.parseSack opt else c

/-- The part of `ack_processing` about the acknowledgement number. -/
def seeAck (ack : Serial) (wnd segLen : ℕ) (flags : Flags) (now : Serial) : Conn :=
  if c.isNew ack then c.ackNew ack now
  else if c.isDup ack wnd segLen flags then c.ackDup
  else c

/-- `ack_processing` -/
def ackProcessing (seq ack : Serial) (wnd segLen : ℕ) (flags : Flags) (opt : List UInt8)
    (now : Serial) : Conn :=
  ((c.seeSack opt).seeAck ack wnd segLen flags now).windowUpdate seq ack wnd

end Conn

/-! ## Opening -/

/-- `conn_alloc`, with the random `iss` and whether the heap has room for the big buffers. -/
def connAlloc (iss : Serial) (bigS bigR : Bool) : Conn :=
  { Conn.zero [] with
    used := true
    sbSize := if bigS then sbufSize else sbufSmall
    rbSize := if bigR then rbufSize else rbufSmall
    iss := iss
    sndUna := iss
    sndNxt := fwd iss 1
    sndMax := fwd iss 1
    peerMss := 536
    peerWs := none
    cwnd := 4 * tcpMss
    ssthresh := 4 * 2 ^ 20
    rto := rtoInit }

/-- An arriving segment.  It came in one IP packet. -/
structure Seg where
  seq : Serial
  ack : Serial
  flags : Flags
  wnd : ℕ
  opt : List UInt8
  data : List UInt8
  wnd_lt : wnd < 2 ^ 16
  short : opt.length + data.length < 2 ^ 16

theorem Seg.usual_wnd : 8192 < 2 ^ 16 := by decide

theorem Seg.zero_wnd : 0 < 2 ^ 16 := by decide

theorem Seg.short_nil : ([] : List UInt8).length + ([] : List UInt8).length < 2 ^ 16 := by decide

namespace Conn

variable (c : Conn)

/-- A SYN or SYN-ACK was sent: its round trip is timed, and it is sent again if nothing comes. -/
def timeSyn (now : Serial) : Conn :=
  { c with rttTiming := true, rttSeq := c.iss, rttStart := now }.armTimer now

/-- The connection `passive_open` makes of a SYN, before the options. -/
def passiveConn (g : Seg) (iss : Serial) (bigS bigR v6 : Bool) : Conn :=
  { connAlloc iss bigS bigR with
    listener := true
    ipv6 := v6
    peerMss := if v6 then tcp6Mss else 536
    irs := g.seq
    rcvNxt := fwd g.seq 1
    sndWnd := g.wnd
    sndWl1 := g.seq }

/-- What `passive_open` does with a SYN for a listener that has room. -/
def passiveOpen (g : Seg) (iss : Serial) (bigS bigR v6 : Bool) (now : Serial) : Conn :=
  let c := { ((passiveConn g iss bigS bigR v6).parseSynOpts g.opt).optsAgreed with
    state := .synRcvd }
  (c.sendSeg c.iss { syn := true, ack := true } []).timeSyn now

/-- The connection `connect_to` makes. -/
def connectConn (iss : Serial) (bigS bigR v6 : Bool) : Conn :=
  { connAlloc iss bigS bigR with
    ipv6 := v6, peerMss := if v6 then tcp6Mss else 536, state := .synSent }

/-- What `connect_to` does before it waits. -/
def connect (iss : Serial) (bigS bigR v6 : Bool) (now : Serial) : Conn :=
  ((connectConn iss bigS bigR v6).sendSeg iss { syn := true } []).timeSyn now

/-! ## Input -/

/-- A round trip that was being timed is over, if there was one. -/
def rttEnd (now : Serial) : Conn := if c.rttTiming then c.rttDone now else c

/-- The last segment of a handshake that the peer began. -/
def handshakeDone (seq ack : Serial) (wnd : ℕ) (now : Serial) : Conn :=
  let c1 := { c with sndUna := ack, sndWnd := wnd, sndWl1 := seq, sndWl2 := ack }.rttEnd now
  { c1 with retries := 0, timerOn := false, cwnd := 4 * c1.peerMss, state := .established }

/-- `tcp_input` in `SYN_SENT`. -/
def inputSynSent (g : Seg) (wnd : ℕ) (now : Serial) : Conn :=
  if g.flags.ack ∧ g.ack ≠ fwd c.iss 1 then c
  else if g.flags.rst then
    if g.flags.ack then { c with err := some .refused, state := .closed } else c
  else if g.flags.syn ∧ g.flags.ack then
    let c1 := { c with
      irs := g.seq, rcvNxt := fwd g.seq 1, rcvd := 0
      sndUna := g.ack, sndWnd := wnd, sndWl1 := g.seq, sndWl2 := g.ack }
    let c2 := ((c1.parseSynOpts g.opt).optsAgreed).rttEnd now
    ({ c2 with retries := 0, timerOn := false, state := .established }.sendAck).tcpOutput now
  else c

/-- The states in which data is taken. -/
def canReceive : Bool :=
  c.state = .established ∨ c.state = .finWait1 ∨ c.state = .finWait2

/-- In-order data, with the FIN after it if there is one. -/
def takeFin (data : List UInt8) (fin : Bool) (now : Serial) : Conn :=
  let r := c.deliver data
  if fin ∧ r.2 = data.length then r.1.finReceived now else r.1

/-- In-order data and what it makes ready. -/
def takeData (data : List UInt8) (fin : Bool) (now : Serial) : Conn :=
  (c.takeFin data fin now).oooDrain now

/-- Data that begins before `rcv_nxt`. -/
def takeOld (g : Seg) (now : Serial) : Conn :=
  let skip := dist g.seq c.rcvNxt
  if skip < g.data.length then c.takeData (g.data.drop skip) g.flags.fin now
  else if g.flags.fin ∧ skip = g.data.length ∧ ¬ c.finRcvd then c.finReceived now
  else c

/-- Data or a FIN arrived: to the ring, to the out-of-order list or nowhere, and an acknowledgement is
due. -/
def arrive (g : Seg) (now : Serial) (mem : Bool) : Conn :=
  if g.seq = c.rcvNxt then
    let c1 := c.takeData g.data g.flags.fin now
    { c1 with ackPending := true, unackedSegs := c1.unackedSegs + 1 }
  else if lt g.seq c.rcvNxt then
    { c.takeOld g now with ackPending := true, unackedSegs := 2 }
  else
    { c.oooStore g.seq g.data g.flags.fin mem with ackPending := true, unackedSegs := 2 }

/-- Every second segment is acknowledged at once. -/
def ackSecond : Conn := if 2 ≤ c.unackedSegs then c.sendAck else c

/-- The part of `tcp_input` about data and FIN. -/
def takeIn (g : Seg) (now : Serial) (mem : Bool) : Conn :=
  if c.canReceive ∧ (g.data ≠ [] ∨ g.flags.fin) then (c.arrive g now mem).ackSecond else c

/-- `tcp_input` once the acknowledgement is seen to. -/
def inputRest (g : Seg) (now : Serial) (mem : Bool) : Conn :=
  if c.state = .closed then c
  else if c.state = .timeWait then
    if g.flags.fin then { c.sendAck with twDeadline := fwd now timeWaitMs } else c
  else (c.takeIn g now mem).tcpOutput now

/-- `tcp_input` after the handshake. -/
def inputOpen (g : Seg) (wnd : ℕ) (now : Serial) (mem : Bool) : Conn :=
  if g.flags.rst then
    if ge g.seq c.rcvNxt ∧ lt g.seq (fwd c.rcvNxt (c.advWindow + 1)) then
      { c with err := some .reset, state := .closed, timerOn := false }
    else c
  else if g.flags.syn then c.sendAck
  else
    (if g.flags.ack then c.ackProcessing g.seq g.ack wnd g.data.length g.flags g.opt now
      else c).inputRest g now mem

/-- `tcp_input`, once the connection is found.  The resets of `send_reset_for` are not the
connection's and are not recorded. -/
def input (g : Seg) (now : Serial) (mem : Bool) : Conn :=
  let wnd := if g.flags.syn then g.wnd else g.wnd * 2 ^ c.sndWs
  if ¬ c.used ∨ c.state = .closed then c
  else if c.state = .synRcvd then
    if g.flags.rst then { c with state := .closed, timerOn := false }
    else if g.flags.syn then c.sendSeg c.iss { syn := true, ack := true } []
    else if ¬ g.flags.ack ∨ g.ack ≠ fwd c.iss 1 then c
    else (c.handshakeDone g.seq g.ack wnd now).inputOpen g wnd now mem
  else if c.state = .synSent then c.inputSynSent g wnd now
  else c.inputOpen g wnd now mem

/-! ## Timers -/

/-- `tcp_flush` -/
def tcpFlush : Conn :=
  if c.used ∧ c.ackPending ∧ c.state ≠ .closed ∧ c.state ≠ .synSent ∧ c.state ≠ .synRcvd then
    c.sendAck
  else c

/-- A handshake is going on. -/
def handshake : Bool := c.state = .synSent ∨ c.state = .synRcvd

/-- How many timeouts in a row there may be. -/
def retryLimit : ℕ := if c.handshake then synRetries else maxRetries

/-- Too many timeouts. -/
def giveUp : Conn :=
  { (if c.handshake then c else c.sendSeg c.sndNxt { rst := true, ack := true } []) with
    err := some .timeout, state := .closed, timerOn := false }

/-- Back to slow start, from the first byte that is not acknowledged. -/
def rewind : Conn :=
  { c with
    ssthresh := c.halfFlight
    cwnd := c.peerMss
    sndNxt := c.sndUna
    inRec := false
    sb := []
    dupacks := 0
    finSent := if c.finSent ∧ le c.sndUna c.finSeq then false else c.finSent
    timerOn := false }

/-- A retransmission timeout. -/
def goBack (now : Serial) : Conn :=
  let c1 := c.rewind.tcpOutput now
  if ¬ c1.timerOn ∧ c1.sndUna ≠ c1.sndMax then c1.armTimer now else c1

/-- One timeout more. -/
def countRetry : Conn := { c with retries := c.retries + 1 }

/-- The next timeout comes later, and the retransmission is not timed. -/
def backOff : Conn := { c with rttTiming := false, rto := min (c.rto * 2) rtoMax }

/-- One byte into the closed window. -/
def probe (now : Serial) : Conn :=
  (c.sendSeg c.sndNxt { ack := true } ((c.sbuf.drop (dist c.sndUna c.sndNxt)).take 1)).armTimer now

/-- `on_timeout` -/
def onTimeout (now : Serial) : Conn :=
  let c1 := c.countRetry
  if c1.retryLimit < c1.retries then c1.giveUp
  else
    let c2 := c1.backOff
    if c2.state = .synRcvd then (c2.sendSeg c2.iss { syn := true, ack := true } []).armTimer now
    else if c2.state = .synSent then (c2.sendSeg c2.iss { syn := true } []).armTimer now
    else if c2.sndWnd = 0 ∧ dist c2.sndUna c2.sndNxt < c2.sbuf.length then c2.probe now
    else c2.goBack now

/-- The retransmission timer has run out. -/
def expired (now : Serial) : Prop := c.timerOn ∧ c.state ≠ .closed ∧ ge now c.rtoDeadline

instance (now : Serial) : Decidable (c.expired now) := inferInstanceAs (Decidable (_ ∧ _))

/-- The end of `TIME_WAIT`. -/
def endTimeWait (now : Serial) : Conn :=
  if c.state = .timeWait ∧ ge now c.twDeadline then { c with state := .closed } else c

/-- The retransmission timer. -/
def runTimer (now : Serial) : Conn := if c.expired now then c.onTimeout now else c

/-- A closed connection that nobody will look at again is freed. -/
def reap : Conn := if c.state = .closed ∧ (c.userClosed ∨ c.listener) then c.connFree else c

/-- `tcp_timer` -/
def tcpTimer (now : Serial) : Conn :=
  if c.used then ((c.endTimeWait now).runTimer now).reap else c

/-! ## The calls -/

/-- One round of the loop of `tcp_send` for which there is room. -/
def tcpSend (data : List UInt8) (now : Serial) : Conn :=
  if c.err = none ∧ (c.state = .established ∨ c.state = .closeWait) then
    let n := min (c.sbSize - c.sbuf.length) data.length
    if n = 0 then c else { c with sbuf := c.sbuf ++ data.take n }.tcpOutput now
  else c

/-- The window has reopened noticeably. -/
def reopened : Prop :=
  c.lastAdvWnd < c.advWindow ∧
    (2 * tcpMss ≤ c.advWindow - c.lastAdvWnd ∨ (c.lastAdvWnd < tcpMss ∧ tcpMss ≤ c.advWindow))

instance : Decidable c.reopened := inferInstanceAs (Decidable (_ ∧ _))

/-- `tcp_recv` when there is something in the ring, with what it returns. -/
def tcpRecv (max : ℕ) : Conn × List UInt8 :=
  if c.rbuf = [] then (c, [])
  else
    let n := min max c.rbuf.length
    let c1 := { c with rbuf := c.rbuf.drop n }
    (if c1.state ≠ .closed ∧ c1.reopened then c1.sendAck else c1, c.rbuf.take n)

/-- What `tcp_close` begins. -/
def closing (now : Serial) : Conn :=
  if c.state = .established ∨ c.state = .closeWait then
    { c with finPending := true }.tcpOutput now
  else if c.state = .synSent then { c with state := .closed }
  else c

/-- `tcp_close` -/
def tcpClose (now : Serial) : Conn :=
  let c1 := { c with userClosed := true }.closing now
  if c1.state = .closed then c1.connFree else c1

/-- `tcp_abort` -/
def tcpAbort : Conn :=
  (if c.state ≠ .closed ∧ c.state ≠ .synSent ∧ c.state ≠ .timeWait then
    c.sendSeg c.sndNxt { rst := true, ack := true } []
  else c).connFree

/-- `connect_to` sees that the handshake is over. -/
def connected : Conn :=
  if c.state = .established then { c with cwnd := 4 * c.peerMss } else c

/-- `tcp_accept` hands the connection out. -/
def accept : Conn :=
  if c.listener ∧ (c.state = .established ∨ c.state = .closeWait) then { c with listener := false }
  else c

end Conn

/-! ## Runs -/

/-- What can happen to a connection. -/
inductive Event where
  | segment (g : Seg) (now : Serial) (mem : Bool)
  | tick (now : Serial)
  | flush
  | send (data : List UInt8) (now : Serial)
  | recv (max : ℕ)
  | close (now : Serial)
  | abort
  | connected
  | accept

/-- One step.  A connection that is no longer used is nobody's. -/
def Conn.step (c : Conn) : Event → Conn
  | .segment g now mem => c.input g now mem
  | .tick now => c.tcpTimer now
  | .flush => c.tcpFlush
  | .send data now => if c.used then c.tcpSend data now else c
  | .recv max => if c.used then (c.tcpRecv max).1 else c
  | .close now => if c.used then c.tcpClose now else c
  | .abort => if c.used then c.tcpAbort else c
  | .connected => if c.used then c.connected else c
  | .accept => if c.used then c.accept else c

/-- The connections there can be, by steps that meet `ok`. -/
inductive Reach (ok : Conn → Event → Prop) : Conn → Prop
  | connect (iss : Serial) (bigS bigR v6 : Bool) (now : Serial) :
      Reach ok (Conn.connect iss bigS bigR v6 now)
  | passive (g : Seg) (iss : Serial) (bigS bigR v6 : Bool) (now : Serial) :
      Reach ok (Conn.passiveOpen g iss bigS bigR v6 now)
  | step {c : Conn} (e : Event) : Reach ok c → ok c e → Reach ok (c.step e)

end BananaOS.Tcp
