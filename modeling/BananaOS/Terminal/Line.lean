import BananaOS.Lib.RingBuf

/-!
# The pseudo-terminal

`kernel/pty.c`: what the master types, through the line discipline, to the slave's reads, and what
the programs write (and the echo), through `OPOST`, to the master's reads.

The queue of typed bytes and the table of record lengths are rings, as in the source.  The line
being edited and the output queue are lists; no index of them is kept.  The table of terminals, the
sessions, the lock of the slave and the window size are left out: nothing here looks at them.
-/

namespace BananaOS.Terminal

open Lib

/-- `INQ` -/
def inQ : ℕ := 8192

/-- `LINE` -/
def lineMax : ℕ := 4096

/-- `OUTQ` -/
def outQ : ℕ := 65536

/-- `RECS` -/
def recs : ℕ := 512

/-! ## The settings -/

/-- `pty_termios_t`: the flags that the terminal looks at (`xtabs`: both bits), and `c_cc`. -/
structure Termios where
  istrip : Bool
  igncr : Bool
  icrnl : Bool
  inlcr : Bool
  ixon : Bool
  ixany : Bool
  iutf8 : Bool
  opost : Bool
  onlcr : Bool
  ocrnl : Bool
  onocr : Bool
  onlret : Bool
  xtabs : Bool
  isig : Bool
  icanon : Bool
  echo : Bool
  echoe : Bool
  echok : Bool
  echonl : Bool
  noflsh : Bool
  echoctl : Bool
  echoke : Bool
  iexten : Bool
  vintr : UInt8
  vquit : UInt8
  verase : UInt8
  vkill : UInt8
  veof : UInt8
  vstart : UInt8
  vstop : UInt8
  vsusp : UInt8
  veol : UInt8
  vreprint : UInt8
  vwerase : UInt8
  vlnext : UInt8
  veol2 : UInt8
  deriving DecidableEq, Repr

/-- `defaults` -/
def Termios.defaults : Termios where
  istrip := false
  igncr := false
  icrnl := true
  inlcr := false
  ixon := true
  ixany := false
  iutf8 := true
  opost := true
  onlcr := true
  ocrnl := false
  onocr := false
  onlret := false
  xtabs := false
  isig := true
  icanon := true
  echo := true
  echoe := true
  echok := true
  echonl := false
  noflsh := false
  echoctl := true
  echoke := true
  iexten := true
  vintr := 3
  vquit := 28
  verase := 127
  vkill := 21
  veof := 4
  vstart := 17
  vstop := 19
  vsusp := 26
  veol := 0
  vreprint := 18
  vwerase := 23
  vlnext := 22
  veol2 := 0

/-- `c == cc[V] && cc[V]` -/
def hits (c v : UInt8) : Bool := c == v && v != 0

/-! ## Output -/

/-- The output for the master, and the column. -/
structure Out where
  queue : List UInt8
  column : UInt32
  deriving DecidableEq, Repr

namespace Out

variable (o : Out) (tio : Termios)

/-- `out_put` -/
def outPut (c : UInt8) : Out :=
  if outQ ≤ o.queue.length then o else { o with queue := o.queue ++ [c] }

/-- `out_char`: one byte through `OPOST`, and how many bytes it took (0: no room). -/
def outChar (c : UInt8) : Out × ℕ :=
  if outQ - o.queue.length < 8 then (o, 0)
  else if ¬tio.opost then (o.outPut c, 1)
  else if c = 10 then
    if tio.onlcr then ({ (o.outPut 13).outPut 10 with column := 0 }, 2)
    else (({ o with column := if tio.onlret then 0 else o.column } : Out).outPut 10, 1)
  else if c = 13 then
    if tio.onocr ∧ o.column = 0 then (o, 1)
    else if tio.ocrnl then
      ({ o.outPut 10 with column := if tio.onlret then 0 else o.column }, 1)
    else ({ o.outPut 13 with column := 0 }, 1)
  else if c = 9 then
    if tio.xtabs then
      let n := 8 - (o.column % 8).toNat
      ({ Nat.iterate (fun o => o.outPut 32) n o with column := o.column + n.toUInt32 }, n)
    else ({ o.outPut c with column := (o.column ||| 7) + 1 }, 1)
  else if c = 8 then
    ({ o.outPut c with column := if o.column ≠ 0 then o.column - 1 else o.column }, 1)
  else
    ({ o.outPut c with
      column := if 32 ≤ c ∧ c &&& 0xC0 ≠ 0x80 ∧ c ≠ 127 then o.column + 1 else o.column }, 1)

/-- Bytes one after the other, what they took not looked at. -/
def outChars : Out → List UInt8 → Out
  | o, [] => o
  | o, c :: l => outChars (o.outChar tio c).1 l

/-- `echo_char` -/
def echoChar (c : UInt8) : Out :=
  if tio.echoctl ∧ ((c < 32 ∧ c ≠ 9 ∧ c ≠ 10) ∨ c = 127) then
    o.outChars tio [94, if c = 127 then 63 else c + 64]
  else o.outChars tio [c]

/-- `last_width`, of the character that begins with the byte `c`. -/
def lastWidth (c : UInt8) : ℕ :=
  if c = 9 then 1 else if (c < 32 ∨ c = 127) ∧ tio.echoctl then 2 else 1

end Out

/-! ## The terminal -/

/-- `events`: the signals and the hang-up (`PTY_EV_*`). -/
structure Events where
  sigint : Bool
  sigquit : Bool
  sigtstp : Bool
  hangup : Bool
  deriving DecidableEq, Repr

/-- `struct pty` -/
structure Pty where
  tio : Termios
  inp : RingBuf UInt8
  rcd : RingBuf ℕ
  line : List UInt8
  lnext : Bool
  out : Out
  stopped : Bool
  hung : Bool
  masters : ℤ
  slaves : ℤ
  slaveSeen : Bool
  events : Events

/-- `pty_new` -/
def ptyNew : Pty where
  tio := Termios.defaults
  inp := ⟨fun _ => 0, 0, 0⟩
  rcd := ⟨fun _ => 0, 0, 0⟩
  line := []
  lnext := false
  out := ⟨[], 0⟩
  stopped := false
  hung := false
  masters := 1
  slaves := 0
  slaveSeen := false
  events := ⟨false, false, false, false⟩

/-- A byte of UTF-8 that does not begin a character. -/
def cont (c : UInt8) : Bool := c &&& 0xC0 == 0x80

/-- `is_space` -/
def isSpace (c : UInt8) : Bool := c == 32 || c == 9

/-- The loop of `erase_one` that looks for where the last character begins. -/
def eraseAt (utf8 : Bool) (line : List UInt8) : ℕ → ℕ
  | 0 => 0
  | i + 1 => if utf8 && cont (line.getD (i + 1) 0) then eraseAt utf8 line i else i + 1

theorem eraseAt_le (utf8 : Bool) (line : List UInt8) (i : ℕ) : eraseAt utf8 line i ≤ i := by
  induction i with
  | zero => exact le_rfl
  | succ i ih =>
    unfold eraseAt
    split_ifs
    · omega
    · exact le_rfl

namespace Pty

variable (t : Pty)

/-- `if (lf & ECHO) echo_char` -/
def echo (c : UInt8) : Pty :=
  if t.tio.echo then { t with out := t.out.echoChar t.tio c } else t

/-- `erase_one` -/
def eraseOne : Pty :=
  if t.line = [] then t
  else
    let i := eraseAt t.tio.iutf8 t.line (t.line.length - 1)
    let w := Out.lastWidth t.tio (t.line.getD i 0)
    { t with
      line := t.line.take i
      out := if t.tio.echo && t.tio.echoe
        then t.out.outChars t.tio (List.replicate w [8, 32, 8]).flatten else t.out }

theorem eraseOne_line_lt (h : t.line ≠ []) : t.eraseOne.line.length < t.line.length := by
  have hpos := List.length_pos_of_ne_nil h
  have hle := eraseAt_le t.tio.iutf8 t.line (t.line.length - 1)
  simp only [eraseOne, if_neg h, List.length_take]
  omega

/-- `while (t->llen && p(t->line[t->llen - 1])) erase_one(t)` -/
def eraseWhile (p : UInt8 → Bool) (t : Pty) : Pty :=
  if _h : t.line ≠ [] ∧ p (t.line.getLastD 0) then eraseWhile p t.eraseOne else t
termination_by t.line.length
decreasing_by exact t.eraseOne_line_lt _h.1

/-- `in_room` -/
def inRoom : ℕ := inQ - t.inp.len

/-- `in_put` -/
def inPut (s : List UInt8) : Pty := { t with inp := t.inp.putAll inQ s }

/-- `line_done` -/
def lineDone : Pty :=
  if t.rcd.len = recs ∨ t.inRoom < t.line.length then { t with line := [] }
  else { t.inPut t.line with rcd := t.rcd.put recs t.line.length, line := [] }

/-- `flush_input` -/
def flushInput : Pty := { t with inp := t.inp.clear, rcd := t.rcd.clear, line := [] }

/-- A signal character: the event it raises, the flush, the echo. -/
def signal (c : UInt8) (t' : Pty) : Pty :=
  let t' := if t.tio.noflsh then t'
    else { t'.flushInput with out := { t'.out with queue := [] } }
  t'.echo c

/-- A byte in canonical mode, that is no signal. -/
def typeCanon (c : UInt8) : Pty :=
  if t.tio.iexten && hits c t.tio.vlnext then
    { t with
      lnext := true
      out := if t.tio.echo && t.tio.echoctl then t.out.outChars t.tio [94, 8] else t.out }
  else if hits c t.tio.verase then t.eraseOne
  else if t.tio.iexten && hits c t.tio.vwerase then
    (t.eraseWhile isSpace).eraseWhile fun c => !isSpace c
  else if hits c t.tio.vkill then
    if t.tio.echo && t.tio.echoke then t.eraseWhile fun _ => true
    else { t with
      line := []
      out := if t.tio.echo && t.tio.echok then t.out.outChars t.tio [10] else t.out }
  else if t.tio.iexten && hits c t.tio.vreprint then
    if t.tio.echo then
      let o := (t.out.echoChar t.tio c).outChars t.tio [10]
      { t with out := t.line.foldl (fun o c => o.echoChar t.tio c) o }
    else t
  else if hits c t.tio.veof then t.lineDone
  else
    let eol := c == 10 || hits c t.tio.veol || hits c t.tio.veol2
    let t := if t.line.length < lineMax - 1 ∨ (eol ∧ t.line.length < lineMax)
      then { t with line := t.line ++ [c] } else t
    let t := if t.tio.echo ∨ (c = 10 ∧ t.tio.echonl)
      then { t with out := t.out.echoChar t.tio c } else t
    if eol then t.lineDone else t

/-- A byte in raw mode, that is no signal. -/
def typeRaw (c : UInt8) : Pty × Bool :=
  if t.inRoom = 0 then (t, false) else ((t.inPut [c]).echo c, true)

/-- `ISIG`, and what is not a signal. -/
def typeSig (c : UInt8) : Pty × Bool :=
  if t.tio.isig && hits c t.tio.vintr then (t.signal c { t with events.sigint := true }, true)
  else if t.tio.isig && hits c t.tio.vquit then (t.signal c { t with events.sigquit := true }, true)
  else if t.tio.isig && hits c t.tio.vsusp then (t.signal c { t with events.sigtstp := true }, true)
  else if t.tio.icanon then (t.typeCanon c, true)
  else t.typeRaw c

/-- `IXON`, and what does not stop or start the output. -/
def typeFlow (c : UInt8) : Pty × Bool :=
  if t.tio.ixon && hits c t.tio.vstop then ({ t with stopped := true }, true)
  else if t.tio.ixon && hits c t.tio.vstart then ({ t with stopped := false }, true)
  else typeSig (if t.tio.ixon && t.tio.ixany then { t with stopped := false } else t) c

/-- A byte after `^V`. -/
def typeQuoted (c : UInt8) : Pty × Bool :=
  let t := { t with lnext := false }
  if t.tio.icanon then
    ((if t.line.length < lineMax - 1 then { t with line := t.line ++ [c] } else t).echo c, true)
  else t.typeRaw c

end Pty

/-- `ISTRIP`, `IGNCR`, `ICRNL` and `INLCR`: the byte, if it is not ignored. -/
def translate (tio : Termios) (c : UInt8) : Option UInt8 :=
  let c := if tio.istrip then c &&& 0x7F else c
  if c = 13 then
    if tio.igncr then none else if tio.icrnl then some 10 else some c
  else if c = 10 ∧ tio.inlcr then some 13
  else some c

namespace Pty

variable (t : Pty)

/-- `type_char`: one typed byte, and whether it could be taken. -/
def typeChar (c : UInt8) : Pty × Bool :=
  if t.lnext then t.typeQuoted c
  else match translate t.tio c with
    | none => (t, true)
    | some c => t.typeFlow c

/-! ## The calls -/

/-- `EAGAIN` -/
def eAgain : ℤ := 11

/-- `EIO` -/
def eIo : ℤ := 5

/-- What a write returns that took `i` of `n` bytes. -/
def written (i n : ℕ) : ℤ := if i ≠ 0 then i else if n ≠ 0 then -eAgain else 0

/-- The loop of `pty_master_write`: the bytes are typed until one cannot be taken. -/
def typeChars : Pty → List UInt8 → Pty × ℕ
  | t, [] => (t, 0)
  | t, c :: l =>
    match t.typeChar c with
    | (t, false) => (t, 0)
    | (t, true) =>
      let r := typeChars t l
      (r.1, r.2 + 1)

/-- `pty_master_write` -/
def masterWrite (l : List UInt8) : Pty × ℤ :=
  let r := t.typeChars l
  (r.1, written r.2 l.length)

/-- What a read returns: bytes, the end (0), or `-EAGAIN`. -/
inductive Got where
  | bytes (l : List UInt8)
  | eof
  | again
  deriving DecidableEq, Repr

/-- The bytes of a result. -/
def Got.list : Got → List UInt8
  | .bytes l => l
  | _ => []

/-- `pty_slave_read` -/
def slaveRead (n : ℕ) : Pty × Got :=
  if t.tio.icanon then
    if t.rcd.len = 0 then (t, if t.hung then .eof else .again)
    else
      let len := t.rcd.cell t.rcd.head
      if len = 0 then ({ t with rcd := t.rcd.skip recs 1 }, .eof)
      else
        let take := min len n
        let rest := t.rcd.setFirst (len - take)
        ({ t with
            inp := t.inp.skip inQ take
            rcd := if len - take = 0 then rest.skip recs 1 else rest },
          .bytes ((List.range take).map (t.inp.nth inQ)))
  else
    if t.inp.len = 0 then (t, if t.hung then .eof else .again)
    else
      let take := min t.inp.len n
      ({ t with inp := t.inp.skip inQ take }, .bytes ((List.range take).map (t.inp.nth inQ)))

/-- The loop of `pty_slave_write`: the bytes go out until there is no room. -/
def writeChars (tio : Termios) : Out → List UInt8 → Out × ℕ
  | o, [] => (o, 0)
  | o, c :: l =>
    let r := o.outChar tio c
    if r.2 = 0 then (o, 0)
    else
      let w := writeChars tio r.1 l
      (w.1, w.2 + 1)

/-- `pty_slave_write` -/
def slaveWrite (l : List UInt8) : Pty × ℤ :=
  if t.hung then (t, -eIo)
  else if t.stopped then (t, -eAgain)
  else
    let r := writeChars t.tio t.out l
    ({ t with out := r.1 }, written r.2 l.length)

/-- `pty_master_read`: the bytes, or an error. -/
def masterRead (n : ℕ) : Pty × Except ℤ (List UInt8) :=
  if t.out.queue = [] then
    (t, .error (if t.slaveSeen ∧ t.slaves = 0 then -eIo else -eAgain))
  else
    ({ t with out := { t.out with queue := t.out.queue.drop n } }, .ok (t.out.queue.take n))

/-- `pty_flush`: the input (`queue` 0 or 2), the output (1 or 2). -/
def flush (queue : ℕ) : Pty :=
  let t := if queue = 0 ∨ queue = 2 then t.flushInput else t
  if queue = 1 ∨ queue = 2 then { t with out := { t.out with queue := [] } } else t

/-- The loop of `pty_set_termios` over the records: the lines, with `eof` for an end of file.  The
next line begins at `start`. -/
def unline (inp : RingBuf UInt8) (eof : UInt8) : ℕ → List ℕ → List UInt8
  | _, [] => []
  | start, 0 :: ls => eof :: unline inp eof start ls
  | start, (n + 1) :: ls =>
    ((List.range (n + 1)).map fun i => inp.cell ((start + i) % inQ)) ++
      unline inp eof ((start + (n + 1)) % inQ) ls

/-- Canonical mode is left: the lines become bytes, then the line being typed. -/
def leaveCanon : Pty :=
  let eof := if t.tio.veof ≠ 0 then t.tio.veof else 4
  let lens := t.rcd.list recs
  let eofs := (lens.filter (· = 0)).length
  let t' := if eofs ≠ 0 ∧ t.inp.len + eofs ≤ inQ
    then { t with inp := t.inp.clear }.inPut (unline t.inp eof t.inp.head lens) else t
  { t'.inPut t'.line with line := [], rcd := t'.rcd.clear }

/-- `pty_set_termios` -/
def setTermios (tio : Termios) (flush : Bool) : Pty :=
  let was := t.tio.icanon
  let t := { t with tio := tio }
  let t := if flush then t.flushInput else t
  let t := if was && !tio.icanon then t.leaveCanon
    else if !was && tio.icanon && t.inp.len != 0 then
      { t with rcd := { t.rcd with cell := Function.update t.rcd.cell 0 t.inp.len, head := 0, len := 1 } }
    else t
  if tio.ixon then t else { t with stopped := false }

/-- `pty_master_ref` -/
def masterRef (delta : ℤ) : Pty :=
  let t := { t with masters := t.masters + delta }
  if t.masters ≤ 0 ∧ ¬t.hung then { t with hung := true, events.hangup := true } else t

/-- `pty_slave_ref` -/
def slaveRef (delta : ℤ) : Pty :=
  { t with slaves := t.slaves + delta, slaveSeen := t.slaveSeen || decide (0 < delta) }

/-- `pty_events`: what there was, taken. -/
def takeEvents : Pty × Events := ({ t with events := ⟨false, false, false, false⟩ }, t.events)

/-- A call on either end. -/
inductive Op where
  | masterWrite (l : List UInt8)
  | masterRead (n : ℕ)
  | slaveRead (n : ℕ)
  | slaveWrite (l : List UInt8)
  | setTermios (tio : Termios) (flush : Bool)
  | flush (queue : ℕ)
  | masterRef (delta : ℤ)
  | slaveRef (delta : ℤ)
  | takeEvents

/-- The state after a call. -/
def step : Op → Pty
  | .masterWrite l => (t.masterWrite l).1
  | .masterRead n => (t.masterRead n).1
  | .slaveRead n => (t.slaveRead n).1
  | .slaveWrite l => (t.slaveWrite l).1
  | .setTermios tio flush => t.setTermios tio flush
  | .flush queue => t.flush queue
  | .masterRef delta => t.masterRef delta
  | .slaveRef delta => t.slaveRef delta
  | .takeEvents => t.takeEvents.1

/-- The state after calls. -/
def run (t : Pty) (ops : List Op) : Pty := ops.foldl step t

end Pty

end BananaOS.Terminal
