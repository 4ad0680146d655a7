import BananaOS.Lib.Serial
import Mathlib.Data.List.Basic

/-!
# A connection

`tcp_conn_t` and what a connection does of its own: the window it offers, the segments it sends, the
data it takes in and keeps out of order.  Sequence numbers and times are `Serial`s and are compared as
`SEQ_LT` and its kin do; byte counts are natural numbers, none of which reaches `2^32` here.

The send buffer is the list of the bytes from `snd_una` on, and the receive ring the list of the bytes
not yet read: where they lie in memory concerns nobody else.  The ranges `sb_s[i]`, `sb_e[i]` are a
list of pairs, the out-of-order segments a list.  Two things are recorded that the code does not keep:
`sent`, the segments handed to the network, oldest first (what the link or `tcp_test_loss` loses is
among them), and `rcvd`, how many sequence numbers after the peer's SYN `rcv_nxt` has passed.
-/

namespace BananaOS.Tcp

open Lib Lib.Serial

/-! ## The constants -/

/-- `TCP_MSS` -/
def tcpMss : ℕ := 1460

/-- `TCP6_MSS` -/
def tcp6Mss : ℕ := 1220

/-- `RBUF_SIZE` -/
def rbufSize : ℕ := 524288

/-- `RBUF_SMALL` -/
def rbufSmall : ℕ := 65536

/-- `RCV_WSCALE` -/
def rcvWscale : ℕ := 4

/-- `SBUF_SIZE` -/
def sbufSize : ℕ := 262144

/-- `SBUF_SMALL` -/
def sbufSmall : ℕ := 32768

/-- `OOO_MAX` -/
def oooMax : ℕ := 256

/-- `SB_MAX` -/
def sbMax : ℕ := 8

/-- `RTO_INIT` -/
def rtoInit : ℕ := 1000

/-- `RTO_MIN` -/
def rtoMin : ℕ := 200

/-- `RTO_MAX` -/
def rtoMax : ℕ := 60000

/-- `MAX_RETRIES` -/
def maxRetries : ℕ := 10

/-- `SYN_RETRIES` -/
def synRetries : ℕ := 6

/-- `TIME_WAIT_MS` -/
def timeWaitMs : ℕ := 2000

/-! ## The data -/

/-- `tcp_state_t` -/
inductive State where
  | closed | synSent | established | finWait1 | finWait2 | closeWait | closing | lastAck | timeWait
  | synRcvd
  deriving DecidableEq, Repr

/-- The state once the peer's FIN was received. -/
def State.finIn : State → State
  | established => closeWait
  | finWait1 => closing
  | finWait2 => timeWait
  | s => s

/-- The state once our FIN was sent. -/
def State.finOut : State → State
  | established => finWait1
  | closeWait => lastAck
  | s => s

/-- The state once our FIN was acknowledged. -/
def State.finAcked : State → State
  | finWait1 => finWait2
  | closing => timeWait
  | lastAck => closed
  | s => s

/-- The errors a connection ends with. -/
inductive Err where
  | refused | reset | timeout | notReady
  deriving DecidableEq, Repr

/-- The flags of a segment. -/
structure Flags where
  fin : Bool := false
  syn : Bool := false
  rst : Bool := false
  psh : Bool := false
  ack : Bool := false
  deriving DecidableEq, Repr

/-- `ooo_seg_t` -/
structure OooSeg where
  seq : Serial
  data : List UInt8
  fin : Bool
  deriving DecidableEq

/-- The sequence number after the segment's last byte. -/
def OooSeg.stop (o : OooSeg) : Serial := o.seq + BitVec.ofNat 32 o.data.length

/-- The options `send_seg` writes. -/
inductive Opt where
  | mss (n : ℕ)
  | wscale (n : ℕ)
  | sackPermitted
  | sack (blocks : List (Serial × Serial))
  deriving DecidableEq

/-- A segment as it was sent: `wnd` is the window field, unscaled. -/
structure Sent where
  seq : Serial
  ack : Serial
  flags : Flags
  wnd : ℕ
  data : List UInt8
  opts : List Opt
  /-- how much `rcv_nxt` had passed -/
  rcvd : ℕ
  deriving DecidableEq

/-- `tcp_conn_t`.  `peer_ws` is `none` for -1. -/
structure Conn where
  used : Bool
  state : State
  ipv6 : Bool
  iss : Serial
  sndUna : Serial
  sndNxt : Serial
  sndMax : Serial
  sndWnd : ℕ
  sndWl1 : Serial
  sndWl2 : Serial
  peerMss : ℕ
  cwnd : ℕ
  ssthresh : ℕ
  peerWs : Option ℕ
  peerSack : Bool
  wsOk : Bool
  sackOk : Bool
  sndWs : ℕ
  rcvWs : ℕ
  sb : List (Serial × Serial)
  inRec : Bool
  recover : Serial
  rexmitNext : Serial
  sbuf : List UInt8
  sbSize : ℕ
  finPending : Bool
  finSent : Bool
  finSeq : Serial
  irs : Serial
  rcvNxt : Serial
  rbuf : List UInt8
  rbSize : ℕ
  ooo : List OooSeg
  lastOoo : Serial
  finRcvd : Bool
  timerOn : Bool
  rto : ℕ
  rtoDeadline : Serial
  retries : ℕ
  srtt : ℕ
  rttvar : ℕ
  haveRtt : Bool
  rttTiming : Bool
  rttSeq : Serial
  rttStart : Serial
  dupacks : ℕ
  twDeadline : Serial
  ackPending : Bool
  unackedSegs : ℕ
  lastAdvWnd : ℕ
  userClosed : Bool
  err : Option Err
  listener : Bool
  sent : List Sent
  rcvd : ℕ

/-- `n` sequence numbers, or milliseconds, later. -/
def fwd (s : Serial) (n : ℕ) : Serial := s + BitVec.ofNat 32 n

/-- A connection that is all zero, with the record of what was sent. -/
def Conn.zero (sent : List Sent) : Conn where
  used := false
  state := .closed
  ipv6 := false
  iss := 0
  sndUna := 0
  sndNxt := 0
  sndMax := 0
  sndWnd := 0
  sndWl1 := 0
  sndWl2 := 0
  peerMss := 0
  cwnd := 0
  ssthresh := 0
  peerWs := some 0
  peerSack := false
  wsOk := false
  sackOk := false
  sndWs := 0
  rcvWs := 0
  sb := []
  inRec := false
  recover := 0
  rexmitNext := 0
  sbuf := []
  sbSize := 0
  finPending := false
  finSent := false
  finSeq := 0
  irs := 0
  rcvNxt := 0
  rbuf := []
  rbSize := 0
  ooo := []
  lastOoo := 0
  finRcvd := false
  timerOn := false
  rto := 0
  rtoDeadline := 0
  retries := 0
  srtt := 0
  rttvar := 0
  haveRtt := false
  rttTiming := false
  rttSeq := 0
  rttStart := 0
  dupacks := 0
  twDeadline := 0
  ackPending := false
  unackedSegs := 0
  lastAdvWnd := 0
  userClosed := false
  err := none
  listener := false
  sent := sent
  rcvd := 0

namespace Conn

variable (c : Conn)

/-- `conn_free`.  What was sent stays on record. -/
def connFree : Conn := zero c.sent

/-- `adv_window` -/
def advWindow : ℕ :=
  let w := min (c.rbSize - c.rbuf.length) (65535 * 2 ^ c.rcvWs)
  w / 2 ^ c.rcvWs * 2 ^ c.rcvWs

end Conn

/-! ## SACK blocks -/

/-- The ranges of the list from a segment on: segments that touch are one range, `[rs, re)` so far. -/
def rangesFrom : (rs re : Serial) → List OooSeg → List (Serial × Serial)
  | rs, re, [] => [(rs, re)]
  | rs, re, o :: rest =>
    if le o.seq re then rangesFrom rs (if gt o.stop re then o.stop else re) rest
    else (rs, re) :: rangesFrom o.seq o.stop rest

/-- The ranges of an out-of-order list. -/
def oooRanges : List OooSeg → List (Serial × Serial)
  | [] => []
  | o :: rest => rangesFrom o.seq o.stop rest

/-- Where `sack_blocks` puts the ranges: the first that holds `last` in the first place, the others
after it as long as there is room. -/
def placeRanges (last : Serial) (max : ℕ) :
    (first : Option (Serial × Serial)) → (others : List (Serial × Serial)) →
      List (Serial × Serial) → List (Serial × Serial)
  | first, others, [] => first.toList ++ others
  | first, others, r :: rest =>
    if first.isNone ∧ ge last r.1 ∧ lt last r.2 then placeRanges last max (some r) others rest
    else placeRanges last max first (if others.length + 1 < max then others ++ [r] else others) rest

namespace Conn

variable (c : Conn)

/-- `sack_blocks` -/
def sackBlocks (max : ℕ) : List (Serial × Serial) :=
  placeRanges c.lastOoo max none [] (oooRanges c.ooo)

/-! ## Sending -/

/-- The options of a segment. -/
def optsOf (flags : Flags) (data : List UInt8) : List Opt :=
  if flags.syn then
    [.mss (if c.ipv6 then tcp6Mss else tcpMss)] ++
      (if c.state = .synSent ∨ c.peerWs.isSome then [.wscale rcvWscale] else []) ++
      (if c.state = .synSent ∨ c.peerSack then [.sackPermitted] else [])
  else if c.sackOk ∧ c.ooo ≠ [] ∧ data = [] ∧ flags.ack then
    if c.sackBlocks 4 = [] then [] else [.sack (c.sackBlocks 4)]
  else []

/-- The window a segment offers, in bytes: a SYN's is never scaled. -/
def wndOf (flags : Flags) : ℕ :=
  if flags.syn then min (c.rbSize - c.rbuf.length) 65535 else c.advWindow

/-- `send_seg` -/
def sendSeg (seq : Serial) (flags : Flags) (data : List UInt8) : Conn :=
  { c with
    sent := c.sent ++ [{
      seq := seq
      ack := if flags.ack then c.rcvNxt else 0
      flags := flags
      wnd := if flags.syn then c.wndOf flags else c.wndOf flags / 2 ^ c.rcvWs
      data := data
      opts := c.optsOf flags data
      rcvd := c.rcvd }]
    ackPending := if flags.ack then false else c.ackPending
    unackedSegs := if flags.ack then 0 else c.unackedSegs
    lastAdvWnd := if flags.ack then c.wndOf flags else c.lastAdvWnd }

/-- A bare acknowledgement. -/
def sendAck : Conn := c.sendSeg c.sndNxt { ack := true } []

/-- `arm_timer` -/
def armTimer (now : Serial) : Conn := { c with timerOn := true, rtoDeadline := fwd now c.rto }

/-- `if (!c->timer_on) arm_timer(c)` -/
def armIdle (now : Serial) : Conn :=
  { c with timerOn := true, rtoDeadline := if c.timerOn then c.rtoDeadline else fwd now c.rto }

/-- `n` sequence numbers more have been sent. -/
def advance (n : ℕ) : Conn :=
  { c with
    sndNxt := fwd c.sndNxt n
    sndMax := if gt (fwd c.sndNxt n) c.sndMax then fwd c.sndNxt n else c.sndMax }

/-- `n` bytes from `snd_nxt` on are sent. -/
def sendData (now : Serial) (off n : ℕ) : Conn :=
  let c1 := c.sendSeg c.sndNxt { ack := true, psh := off + n = c.sbuf.length }
    ((c.sbuf.drop off).take n)
  let c2 := { c1 with
    rttTiming := true
    rttSeq := if c1.rttTiming then c1.rttSeq else c1.sndNxt
    rttStart := if c1.rttTiming then c1.rttStart else now }
  (c2.advance n).armIdle now

/-- How many bytes may go next. -/
def sendable (off : ℕ) : ℕ :=
  min (min (c.sbuf.length - off) (min c.sndWnd c.cwnd - off)) c.peerMss

/-- The loop of `tcp_output`.  Every round sends a byte at least, so as many rounds as there are bytes
in the buffer are enough. -/
def outputLoop (now : Serial) : ℕ → Conn → Conn
  | 0, c => c
  | fuel + 1, c =>
    let off := dist c.sndUna c.sndNxt
    if c.sbuf.length ≤ off then c
    else if c.sendable off = 0 then c.armIdle now
    else outputLoop now fuel (c.sendData now off (c.sendable off))

/-- The FIN, once all data has gone out. -/
def outputFin (now : Serial) : Conn :=
  if c.finPending ∧ ¬ c.finSent ∧ dist c.sndUna c.sndNxt = c.sbuf.length then
    let c1 := { c with finSeq := c.sndNxt }.sendSeg c.sndNxt { fin := true, ack := true } []
    let c2 := { c1 with finSent := true }.advance 1
    { c2 with state := c2.state.finOut }.armIdle now
  else c

/-- The states in which there may be something to send. -/
def canSend : Bool :=
  c.state = .established ∨ c.state = .closeWait ∨ c.state = .finWait1 ∨ c.state = .closing ∨
    c.state = .lastAck

/-- `tcp_output` -/
def tcpOutput (now : Serial) : Conn :=
  if c.canSend then (outputLoop now c.sbuf.length c).outputFin now else c

/-! ## Receiving -/

/-- `rbuf_put`: how many bytes there was room for. -/
def rbufPut (data : List UInt8) : Conn × ℕ :=
  let n := min data.length (c.rbSize - c.rbuf.length)
  ({ c with rbuf := c.rbuf ++ data.take n }, n)

/-- `rcv_nxt` passes `n` sequence numbers. -/
def pass (n : ℕ) : Conn := { c with rcvNxt := fwd c.rcvNxt n, rcvd := c.rcvd + n }

/-- `fin_received` -/
def finReceived (now : Serial) : Conn :=
  { c.pass 1 with
    finRcvd := true
    ackPending := true
    unackedSegs := 2
    state := c.state.finIn
    twDeadline := if c.state = .finWait2 then fwd now timeWaitMs else c.twDeadline
    timerOn := if c.state = .finWait2 then false else c.timerOn }

/-- `deliver`: in-order data; how many bytes were accepted. -/
def deliver (data : List UInt8) : Conn × ℕ :=
  if c.userClosed then (c.pass data.length, data.length)
  else
    let r := c.rbufPut data
    (r.1.pass r.2, r.2)

/-- `ooo_store`; `mem` says whether there is memory for the segment. -/
def oooStore (seq : Serial) (data : List UInt8) (fin mem : Bool) : Conn :=
  if oooMax ≤ c.ooo.length then c
  else
    let c1 := { c with lastOoo := seq }
    if gt (fwd seq data.length) (fwd c.rcvNxt c.advWindow) then c1
    else
      let before := c.ooo.takeWhile fun o => lt o.seq seq
      let after := c.ooo.dropWhile fun o => lt o.seq seq
      if after.head?.any (fun o => o.seq = seq ∧ data.length ≤ o.data.length) then c1
      else if mem then { c1 with ooo := before ++ ⟨seq, data, fin⟩ :: after }
      else c1

/-- What a segment of the out-of-order list has beyond `rcv_nxt` is delivered. -/
def drainData (s : OooSeg) : Conn :=
  if gt s.stop c.rcvNxt then (c.deliver (s.data.drop (dist s.seq c.rcvNxt))).1 else c

/-- Its FIN, once all before it was received. -/
def drainFin (s : OooSeg) (now : Serial) : Conn :=
  if s.fin ∧ c.rcvNxt = s.stop ∧ ¬ c.finRcvd then c.finReceived now else c

/-- `ooo_drain`, with what is left of the list. -/
def drainLoop (now : Serial) : List OooSeg → Conn → Conn
  | [], c => { c with ooo := [] }
  | s :: rest, c =>
    if le s.seq c.rcvNxt then drainLoop now rest ((c.drainData s).drainFin s now)
    else { c with ooo := s :: rest }

/-- `ooo_drain` -/
def oooDrain (now : Serial) : Conn := drainLoop now c.ooo c

/-! ## Round trip times -/

/-- `update_rtt` -/
def updateRtt (sample : ℕ) : Conn :=
  let diff := if c.srtt > sample then c.srtt - sample else sample - c.srtt
  let rttvar := if c.haveRtt then (3 * c.rttvar + diff) % 2 ^ 32 / 4 else sample / 2
  let srtt := if c.haveRtt then (7 * c.srtt + sample) % 2 ^ 32 / 8 else sample
  let var := 4 * rttvar % 2 ^ 32
  let rto := (srtt + (if var > 10 then var else 10)) % 2 ^ 32
  { c with
    rttvar := rttvar, srtt := srtt, haveRtt := true, rto := min (max rto rtoMin) rtoMax }

/-- A round trip that was being timed is over. -/
def rttDone (now : Serial) : Conn :=
  { c.updateRtt (dist c.rttStart now) with rttTiming := false }

end Conn

end BananaOS.Tcp
