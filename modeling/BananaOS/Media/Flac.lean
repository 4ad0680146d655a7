import BananaOS.Lib.TwoRuns
import Mathlib.Data.UInt
import Mathlib.Tactic.Linarith

/-!
# The FLAC decoder

`media/flac.c`: frames of CONSTANT, VERBATIM, FIXED and LPC subframes with Rice coded residuals, stereo
decorrelation and the conversion to 16 bits.

A sample buffer has `maxBlock` cells of 32 bits; an access outside one, or outside the stream, gives
`none`.  So does a loop over frames that needs more rounds than it is given; the other loops count what
they do.  `-1` is `some false` or `some none`.  Shifts by an amount that the stream chooses take it
modulo 32, as the machine does.
-/

namespace BananaOS.Media

open Lib

/-- `MAX_BLOCK` -/
def maxBlock : ℕ := 65536

abbrev Samples := ℕ → BitVec 32

/-- `s[i]` -/
def peek (s : Samples) (i : ℤ) : Option (BitVec 32) := Cells.get maxBlock s i

/-- `s[i] = v` -/
def poke (s : Samples) (i : ℤ) (v : BitVec 32) : Option Samples := Cells.set maxBlock s i v

/-- The three sample buffers: `buf[0]`, `buf[1]` and `side`. -/
structure Bufs where
  left : Samples
  right : Samples
  side : Samples

/-! ## Bits, most significant first -/

/-- `br_t` -/
structure Br where
  d : List UInt8
  pos : ℕ
  bit : Fin 8
  bad : Bool

/-- `b->bit += n; if (b->bit == 8) { b->bit = 0; b->pos++; }` for at most what is left of the byte. -/
def Br.take (b : Br) (n : ℕ) : Br :=
  { b with bit := Fin.ofNat 8 (b.bit + n), pos := b.pos + (b.bit + n) / 8 }

/-- The loop of `bits`: a round takes at least one bit, so `n` rounds are enough. -/
def bitsLoop : ℕ → Br → ℕ → ℕ → ℕ × Br
  | 0, b, _, v => (v, b)
  | k + 1, b, n, v =>
    if n = 0 then (v, b) else
    match b.d[b.pos]? with
    | none => (v <<< n, { b with bad := true })
    | some x =>
      let avail := 8 - b.bit.val
      let take := if n < avail then n else avail
      let chunk := (x.toNat >>> (avail - take)) &&& (2 ^ take - 1)
      bitsLoop k (b.take take) (n - take) ((v <<< take) ||| chunk)

/-- At most 30 bits are asked for at a time, so nothing is lost to the 32 bits of the source. -/
def bits (b : Br) (n : ℕ) : ℕ × Br := bitsLoop n b n 0

def sbits (b : Br) (n : ℕ) : BitVec 32 × Br :=
  if n = 0 then (0, b) else
  let (v, b) : BitVec 32 × Br :=
    if 24 < n then
      let (hi, b) := bits b (n - 24)
      let (lo, b) := bits b 24
      (BitVec.ofNat 32 hi <<< 24 ||| BitVec.ofNat 32 lo, b)
    else
      let (v, b) := bits b n
      (BitVec.ofNat 32 v, b)
  (if n < 32 ∧ v.getLsbD (n - 1) then v ||| BitVec.allOnes 32 <<< n else v, b)

/-- `z`: zeros in front of the first one of a byte. -/
def zerosLoop : ℕ → ℕ → ℕ
  | 0, _ => 0
  | k + 1, byte => if byte &&& 0x80 ≠ 0 then 0 else zerosLoop k (byte <<< 1 % 256) + 1

/-- The loop of `unary`, one round for each byte that is left. -/
def unaryLoop : ℕ → Br → ℕ → ℕ × Br
  | 0, b, q => (q, { b with bad := true })
  | k + 1, b, q =>
    match b.d[b.pos]? with
    | none => (q, { b with bad := true })
    | some x =>
      let byte := x.toNat <<< b.bit.val % 256
      if byte ≠ 0 then
        let z := zerosLoop 7 byte
        (q + z, b.take (z + 1))
      else unaryLoop k { b with bit := 0, pos := b.pos + 1 } (q + (8 - b.bit.val))

/-- Zeros before a one. -/
def unary (b : Br) : ℕ × Br := unaryLoop (b.d.length - b.pos + 1) b 0

def align (b : Br) : Br := if b.bit ≠ 0 then { b with bit := 0, pos := b.pos + 1 } else b

/-! ## The stream and its frame headers -/

/-- `flac_t`, with what `codec_t` says of the stream. -/
structure Flac where
  d : List UInt8
  first : ℕ
  pos : ℕ
  bps : ℤ
  inCh : ℕ
  sr : ℕ
  bufs : Bufs
  blen : ℤ
  bat : ℤ
  skip : ℕ
  rate : ℕ
  channels : ℕ
  length : ℕ

/-- `fhdr_t` -/
structure Fhdr where
  block : ℕ
  chAssign : ℕ
  bps : ℤ
  sr : ℕ
  number : ℕ
  variableBlocks : Bool
  hdrLen : ℕ
  deriving DecidableEq

def crc8Round (c : UInt8) : UInt8 := if c &&& 0x80 ≠ 0 then (c <<< 1) ^^^ 0x07 else c <<< 1

def crc8 (p : List UInt8) : UInt8 :=
  p.foldl (fun c x => crc8Round^[8] (c ^^^ x)) 0

def fixedBs : List ℤ :=
  [0, 192, 576, 1152, 2304, 4608, -1, -2, 256, 512, 1024, 2048, 4096, 8192, 16384, 32768]

def rates : List ℕ :=
  [0, 88200, 176400, 192000, 8000, 16000, 22050, 24000, 32000, 44100, 48000, 96000]

def sizes : List ℤ := [0, 8, 12, 0, 16, 20, 24, 32]

/-- How a number begins: its first bits, and how many bytes follow. -/
def numberStart (c0 : ℕ) : Option (ℕ × ℕ) :=
  if c0 &&& 0x80 = 0 then some (c0, 0)
  else if c0 &&& 0xE0 = 0xC0 then some (c0 &&& 0x1F, 1)
  else if c0 &&& 0xF0 = 0xE0 then some (c0 &&& 0x0F, 2)
  else if c0 &&& 0xF8 = 0xF0 then some (c0 &&& 0x07, 3)
  else if c0 &&& 0xFC = 0xF8 then some (c0 &&& 0x03, 4)
  else if c0 &&& 0xFE = 0xFC then some (c0 &&& 0x01, 5)
  else if c0 = 0xFE then some (0, 6)
  else none

/-- The bytes that follow. -/
def numberLoop : ℕ → ℕ → Br → Option (ℕ × Br)
  | 0, num, b => some (num, b)
  | k + 1, num, b =>
    let (cb, b) := bits b 8
    if cb &&& 0xC0 ≠ 0x80 then none else numberLoop k (num <<< 6 ||| cb &&& 0x3F) b

/-- The block size, by its code. -/
def blockSize (bs : ℕ) (b : Br) : ℤ × Br :=
  let block := fixedBs.getD bs 0
  if block = -1 then
    let (v, b) := bits b 8
    (v + 1, b)
  else if block = -2 then
    let (v, b) := bits b 16
    (v + 1, b)
  else (block, b)

/-- The sample rate, by its code. -/
def sampleRate (f : Flac) (src : ℕ) (b : Br) : ℕ × Br :=
  if src = 0 then (f.sr, b)
  else if src = 12 then
    let (v, b) := bits b 8
    (v * 1000, b)
  else if src = 13 then bits b 16
  else if src = 14 then
    let (v, b) := bits b 16
    (v * 10, b)
  else (rates.getD src 0, b)

/-- The CRC of the header from `pos` on. -/
def checkHeader (f : Flac) (pos : ℕ) (b : Br) : Option Br :=
  if b.bad ∨ b.bit ≠ 0 then none else
  let (crc, b') := bits b 8
  if b'.bad ∨ UInt8.ofNat crc ≠ crc8 ((f.d.drop pos).take (b.pos - pos)) then none else some b'

/-- The header behind its sync code. -/
def headerFields (f : Flac) (pos : ℕ) (variableBlocks : Bool) (b : Br) : Option Fhdr := do
  let (bs, b) := bits b 4
  let (src, b) := bits b 4
  let (chAssign, b) := bits b 4
  let (ss, b) := bits b 3
  let (_, b) := bits b 1
  if bs = 0 ∨ src = 15 ∨ 10 < chAssign ∨ ss = 3 then none else
  let (c0, b) := bits b 8
  let (num, more) ← numberStart c0
  let (num, b) ← numberLoop more num b
  let (block, b) := blockSize bs b
  let (sr, b) := sampleRate f src b
  let b ← checkHeader f pos b
  if 0 < block ∧ block ≤ maxBlock then
    some {
      block := block.toNat, chAssign, bps := if ss ≠ 0 then sizes.getD ss 0 else f.bps, sr, number := num
      variableBlocks, hdrLen := b.pos - pos }
  else none

/-- A frame header at `d[pos]` (checked by its CRC).  `pos + 6` wraps. -/
def frameHeader (f : Flac) (pos : ℕ) : Option (Option Fhdr) :=
  if f.d.length < (pos + 6) % 2 ^ 32 then some none else do
  let p0 ← f.d[pos]?
  if p0 ≠ 0xFF then some none else do
  let p1 ← f.d[pos + 1]?
  if p1 &&& 0xFE ≠ 0xF8 then some none else
  some (headerFields f pos (p1 &&& 1 ≠ 0) ⟨f.d, (pos + 2) % 2 ^ 32, 0, false⟩)

/-- The first sample of a frame: a sample number (variable blocks) or a frame number. -/
def Fhdr.firstSample (h : Fhdr) : ℕ :=
  if h.variableBlocks then h.number else h.number * h.block % 2 ^ 64

/-! ## Subframes -/

/-- `s[i++]` is read from the stream. -/
def readSample (read : Br → BitVec 32 × Br) (x : Br × Samples × ℕ) : Option (Br × Samples × ℕ) := do
  let (v, b) := read x.1
  let s ← poke x.2.1 x.2.2 v
  return (b, s, x.2.2 + 1)

/-- `n` samples are read. -/
def readSamples (read : Br → BitVec 32 × Br) (n : ℕ) (x : Br × Samples × ℕ) : Option (Br × Samples × ℕ) :=
  times (readSample read) n x

/-- One Rice coded value. -/
def rice (k : ℕ) (b : Br) : BitVec 32 × Br :=
  let (q, b) := unary b
  let (low, b) := if k ≠ 0 then bits b k else (0, b)
  let u := BitVec.ofNat 32 q <<< k ||| BitVec.ofNat 32 low
  (u >>> 1 ^^^ -(u &&& 1), b)

/-- A partition of `n` samples. -/
def partition (pbits esc n : ℕ) (x : Br × Samples × ℕ) : Option (Br × Samples × ℕ) :=
  let (k, b) := bits x.1 pbits
  if k = esc then
    let (raw, b) := bits b 5
    readSamples (fun b => sbits b raw) n (b, x.2)
  else readSamples (rice k) n (b, x.2)

/-- The partitions of a residual, `n` samples each and the first one `order` less. -/
def partitions (pbits esc n : ℕ) : ℕ → ℕ → Br × Samples × ℕ → Option (Bool × Br × Samples)
  | 0, _, (b, s, _) => some (true, b, s)
  | left + 1, order, x => do
    let (b, s, i) ← partition pbits esc (n - order) x
    if b.bad then some (false, b, s) else partitions pbits esc n left 0 (b, s, i)

def residual (b : Br) (out : Samples) (block order : ℕ) : Option (Bool × Br × Samples) :=
  let (method, b) := bits b 2
  if 1 < method then some (false, b, out) else
  let pbits := if method ≠ 0 then 5 else 4
  let esc := if method ≠ 0 then 31 else 15
  let (porder, b) := bits b 4
  if block >>> porder < order then some (false, b, out) else
  partitions pbits esc (block >>> porder) (1 <<< porder) order (b, out, order)

/-- What the FIXED predictor of an order adds to `s[i]`. -/
def fixedSum (order : ℕ) (s : Samples) (i : ℤ) : Option (BitVec 32) :=
  match order with
  | 1 => peek s (i - 1)
  | 2 => do
    let a ← peek s (i - 1)
    let b ← peek s (i - 2)
    return 2 * a - b
  | 3 => do
    let a ← peek s (i - 1)
    let b ← peek s (i - 2)
    let c ← peek s (i - 3)
    return 3 * a - 3 * b + c
  | 4 => do
    let a ← peek s (i - 1)
    let b ← peek s (i - 2)
    let c ← peek s (i - 3)
    let d ← peek s (i - 4)
    return 4 * a - 6 * b + 4 * c - d
  | _ => some 0

/-- `sum += (int64_t)coef[j] * s[i - 1 - j]` for all `j` -/
def lpcLoop (s : Samples) : List (BitVec 32) → ℤ → BitVec 64 → Option (BitVec 64)
  | [], _, sum => some sum
  | c :: coef, i, sum => do
    let v ← peek s (i - 1)
    lpcLoop s coef (i - 1) (sum + c.signExtend 64 * v.signExtend 64)

/-- What the LPC predictor adds to `s[i]`. -/
def lpcSum (coef : List (BitVec 32)) (shift : ℕ) (s : Samples) (i : ℤ) : Option (BitVec 32) := do
  let sum ← lpcLoop s coef i 0
  return (sum.sshiftRight shift).setWidth 32

/-- `s[i] += ..` from `order` up to the end of the block. -/
def predict (sum : Samples → ℤ → Option (BitVec 32)) (order block : ℕ) (s : Samples) : Option Samples :=
  upto (fun k s => do
    let p ← sum s (order + k : ℕ)
    let v ← peek s (order + k : ℕ)
    poke s (order + k : ℕ) (v + p)) (block - order) s

/-- `s[i] = g(s[i])` for a whole block. -/
def eachSample (g : BitVec 32 → BitVec 32) (block : ℕ) (s : Samples) : Option Samples :=
  upto (fun i s => do
    let v ← peek s i
    poke s i (g v)) block s

/-- The coefficients of an LPC subframe. -/
def coefs (prec : ℕ) : ℕ → Br → List (BitVec 32) × Br
  | 0, b => ([], b)
  | n + 1, b =>
    let (c, b) := sbits b prec
    let (cs, b) := coefs prec n b
    (c :: cs, b)

/-- FIXED, order 0..4. -/
def fixedFrame (b : Br) (s : Samples) (block bps order : ℕ) : Option (Bool × Br × Samples) := do
  let (b, s, _) ← readSamples (fun b => sbits b bps) order (b, s, 0)
  let (ok, b, s) ← residual b s block order
  if !ok then return (false, b, s)
  let s ← predict (fixedSum order) order block s
  return (true, b, s)

/-- LPC, order 1..32. -/
def lpcFrame (b : Br) (s : Samples) (block bps order : ℕ) : Option (Bool × Br × Samples) := do
  let (b, s, _) ← readSamples (fun b => sbits b bps) order (b, s, 0)
  let (prec, b) := bits b 4
  let prec := prec + 1
  if prec = 16 then return (false, b, s)
  let (shift, b) := sbits b 5
  if shift.slt 0 then return (false, b, s)
  let (coef, b) := coefs prec order b
  let (ok, b, s) ← residual b s block order
  if !ok then return (false, b, s)
  let s ← predict (lpcSum coef shift.toNat) order block s
  return (true, b, s)

/-- The samples of a subframe, by its type. -/
def subframeBody (type : ℕ) (b : Br) (s : Samples) (block bps : ℕ) : Option (Bool × Br × Samples) :=
  if type = 0 then do
    let (v, b) := sbits b bps
    let s ← eachSample (fun _ => v) block s
    return (true, b, s)
  else if type = 1 then do
    let (b, s, _) ← readSamples (fun b => sbits b bps) block (b, s, 0)
    return (true, b, s)
  else if 8 ≤ type ∧ type ≤ 12 then fixedFrame b s block bps (type - 8)
  else if 32 ≤ type then lpcFrame b s block bps (type - 31)
  else some (false, b, s)

/-- The wasted bits of a subframe. -/
def wastedBits (b : Br) : ℤ × Br :=
  let (flag, b) := bits b 1
  if flag ≠ 0 then
    let (q, b) := unary b
    ((BitVec.ofNat 32 q).toInt + 1, b)
  else (0, b)

/-- `s[i] <<= wasted` -/
def unwaste (wasted : ℤ) (block : ℕ) (s : Samples) : Option Samples :=
  if wasted ≠ 0 then eachSample (fun v => v <<< (wasted % 32).toNat) block s else some s

def subframe (b : Br) (s : Samples) (block : ℕ) (bps : ℤ) : Option (Bool × Br × Samples) := do
  let (pad, b) := bits b 1
  if pad ≠ 0 then return (false, b, s)
  let (type, b) := bits b 6
  let (wasted, b) := wastedBits b
  let bps := bps - wasted
  if bps ≤ 0 ∨ 33 < bps then return (false, b, s)
  let (ok, b, s) ← subframeBody type b s block bps.toNat
  if !ok then return (false, b, s)
  let s ← unwaste wasted block s
  return (!b.bad, b, s)

/-! ## Frames -/

/-- `ch < 2 ? f->buf[ch] : f->side` -/
def Bufs.dst (m : Bufs) (ch : ℕ) : Samples := if ch = 0 then m.left else if ch = 1 then m.right else m.side

def Bufs.put (m : Bufs) (ch : ℕ) (s : Samples) : Bufs :=
  if ch = 0 then { m with left := s } else if ch = 1 then { m with right := s } else { m with side := s }

def Fhdr.nch (h : Fhdr) : ℕ := if h.chAssign < 8 then h.chAssign + 1 else 2

/-- The side channel needs a bit more. -/
def Fhdr.extra (h : Fhdr) (ch : ℕ) : ℤ :=
  if (h.chAssign = 8 ∧ ch = 1) ∨ (h.chAssign = 9 ∧ ch = 0) ∨ (h.chAssign = 10 ∧ ch = 1) then 1 else 0

/-- The subframes of a frame, from channel `ch` on. -/
def subframes (h : Fhdr) : ℕ → ℕ → Br → Bufs → Option (Bool × Br × Bufs)
  | 0, _, b, m => some (true, b, m)
  | left + 1, ch, b, m => do
    let (ok, b, s) ← subframe b (m.dst ch) h.block (h.bps + h.extra ch)
    if ok then subframes h left (ch + 1) b (m.put ch s) else some (false, b, m.put ch s)

/-- What a frame's channels become from what was coded. -/
def decorrelate (chAssign : ℕ) (l r : BitVec 32) : BitVec 32 × BitVec 32 :=
  match chAssign with
  | 8 => (l, l - r)
  | 9 => (l + r, r)
  | 10 =>
    let mid := l <<< 1 ||| r &&& 1
    ((mid + r).sshiftRight 1, (mid - r).sshiftRight 1)
  | _ => (l, r)

/-- `l[i], r[i] = g(l[i], r[i])` -/
def pairAt (g : BitVec 32 → BitVec 32 → BitVec 32 × BitVec 32) (i : ℕ) (m : Bufs) : Option Bufs := do
  let l ← peek m.left i
  let r ← peek m.right i
  let left ← poke m.left i (g l r).1
  let right ← poke m.right i (g l r).2
  return { m with left, right }

/-- `g` for a whole block. -/
def eachPair (g : BitVec 32 → BitVec 32 → BitVec 32 × BitVec 32) (block : ℕ) (m : Bufs) : Option Bufs :=
  upto (pairAt g) block m

/-- `memcpy(f->buf[1], f->buf[0], block * 4)` -/
def Bufs.copyLeft (m : Bufs) (block : ℕ) : Option Bufs :=
  if block ≤ maxBlock then some { m with right := fun i => if i < block then m.left i else m.right i }
  else none

/-- To 16 bits, from `sh` more. -/
def to16 (sh : ℤ) (v : BitVec 32) : BitVec 32 :=
  let v := if 0 < sh then v.sshiftRight sh.toNat else v <<< (-sh).toNat
  if (32767 : BitVec 32).slt v then 32767 else if v.slt (-32768) then -32768 else v

/-- What is done to the samples of a frame once its subframes are read. -/
def finishFrame (h : Fhdr) (m : Bufs) : Option Bufs := do
  let m ← (if 8 ≤ h.chAssign then eachPair (decorrelate h.chAssign) h.block m else some m)
  let m ← (if h.nch = 1 then m.copyLeft h.block else some m)
  let left ← eachSample (to16 (h.bps - 16)) h.block m.left
  let right ← eachSample (to16 (h.bps - 16)) h.block m.right
  return { m with left, right }

/-- The next good header from `pos` on, and where it is; `pos` wraps. -/
def findHeader (f : Flac) : ℕ → ℕ → Option (ℕ × Option Fhdr)
  | 0, _ => none
  | n + 1, pos =>
    if (pos + 6) % 2 ^ 32 ≤ f.d.length then do
      match ← frameHeader f pos with
      | some h => some (pos, some h)
      | none => findHeader f n ((pos + 1) % 2 ^ 32)
    else some (pos, none)

/-- The rounds of `next_frame`: a broken frame is skipped from the byte behind its start. -/
def frameLoop (n : ℕ) : ℕ → Flac → Option (Option (Fhdr × Br) × Flac)
  | 0, _ => none
  | k + 1, f => do
    let (pos, found) ← findHeader f n f.pos
    match found with
    | none => some (none, { f with pos })
    | some h =>
      let (ok, b, bufs) ← subframes h h.nch 0 ⟨f.d, (pos + h.hdrLen) % 2 ^ 32, 0, false⟩ f.bufs
      if ok then some (some (h, b), { f with pos, bufs })
      else frameLoop n k { f with pos := (pos + 1) % 2 ^ 32, bufs }

/-- Decodes the frame at `f->pos`: the first sample it is for, or nothing at the end. -/
def nextFrame (n : ℕ) (f : Flac) : Option (Option ℕ × Flac) := do
  let (found, f) ← frameLoop n n f
  match found with
  | none => some (none, f)
  | some (h, b) =>
    let bufs ← finishFrame h f.bufs
    let pos := ((align b).pos + 2) % 2 ^ 32
    return (some h.firstSample, { f with bufs, blen := h.block, bat := 0, pos })

/-! ## Playing and seeking -/

/-- What a caller has for the samples of `flac_decode`: `max * channels` cells of 16 bits. -/
abbrev Pcm := ℕ → BitVec 16

/-- `out[i] = v`, where `i` is an `int`. -/
def pokeOut (f : Flac) (max : ℕ) (out : Pcm) (i : ℤ) (v : BitVec 32) : Option Pcm :=
  Cells.set (max * f.channels) out (i.bmod (2 ^ 32)) (v.setWidth 16)

/-- One sample of each channel is handed out, as number `n + i`. -/
def handOne (f : Flac) (max n i : ℕ) (out : Pcm) : Option Pcm :=
  if f.channels = 2 then do
    let l ← peek f.bufs.left (f.bat + i)
    let out ← pokeOut f max out ((n + i) * 2) l
    let r ← peek f.bufs.right (f.bat + i)
    pokeOut f max out ((n + i) * 2 + 1) r
  else do
    let l ← peek f.bufs.left (f.bat + i)
    pokeOut f max out (n + i) l

/-- `take` -/
def Flac.take (f : Flac) (max n : ℕ) : ℤ := if max - n < f.blen - f.bat then max - n else f.blen - f.bat

/-- The loop of `flac_decode`, with `n` samples handed out. -/
def decodeLoop (rounds max : ℕ) : ℕ → Flac → Pcm → ℕ → Option (ℕ × Pcm × Flac)
  | 0, _, _, _ => none
  | k + 1, f, out, n =>
    if max ≤ n then some (n, out, f)
    else if f.bat < f.blen then do
      let out ← upto (handOne f max n) (f.take max n).toNat out
      decodeLoop rounds max k { f with bat := f.bat + f.take max n } out (n + (f.take max n).toNat)
    else do
      let (at', f) ← nextFrame rounds f
      match at' with
      | none => some (n, out, f)
      | some _ =>
        if f.skip ≠ 0 then
          let s := if f.skip < f.blen then (f.skip : ℤ) else f.blen
          decodeLoop rounds max k { f with bat := s, skip := f.skip - s.toNat } out n
        else do
          let out ← upto (handOne f max n) (f.take max n).toNat out
          decodeLoop rounds max k { f with bat := f.bat + f.take max n } out (n + (f.take max n).toNat)

def flacDecode (rounds : ℕ) (f : Flac) (out : Pcm) (max : ℕ) : Option (ℕ × Pcm × Flac) :=
  decodeLoop rounds max rounds f out 0

/-- Forward frame by frame, up to the one that ends past `frame`. -/
def walk (rounds frame : ℕ) : ℕ → Flac → Option Flac
  | 0, _ => none
  | k + 1, f => do
    let (s, g) ← nextFrame rounds f
    match s with
    | none => some { g with pos := f.pos }
    | some s =>
      if frame < (s + g.blen.toNat) % 2 ^ 64 then some { g with bat := ((frame : ℤ) - s).bmod (2 ^ 32) }
      else walk rounds frame k g

/-- `f->pos = f->first; f->skip = frame;` -/
def Flac.skipTo (f : Flac) (frame : ℕ) : Flac := { f with pos := f.first, skip := frame }

/-- The tries of `flac_seek`, the next one from `guess`. -/
def seekLoop (rounds frame : ℕ) : ℕ → ℕ → Flac → Option Flac
  | 0, _, f => some (f.skipTo frame)
  | tries + 1, guess, f => do
    let (pos, found) ← findHeader f rounds guess
    match found with
    | none => some (f.skipTo frame)
    | some h =>
      if h.firstSample ≤ frame then walk rounds frame rounds { f with pos }
      else seekLoop rounds frame tries f.first f

/-- Where a seek begins: a little before the sample, if the length is known. -/
def Flac.guess (f : Flac) (frame : ℕ) : ℕ :=
  if f.length ≠ 0 ∧ frame ≠ 0 then
    let g := (f.d.length - f.first) * frame % 2 ^ 64 / f.length
    (f.first + (if 8192 < g then g - 8192 else 0) % 2 ^ 32) % 2 ^ 32
  else f.first

/-- To a sample: jump near it by bytes, then frame by frame. -/
def flacSeek (rounds : ℕ) (f : Flac) (frame : ℕ) : Option Flac :=
  seekLoop rounds frame 2 (f.guess frame) { f with blen := 0, bat := 0, skip := 0 }

/-! ## Opening -/

/-- What the STREAMINFO block says. -/
structure StreamInfo where
  sr : ℕ
  ch : ℕ
  bps : ℕ
  total : ℕ

/-- A byte of the stream. -/
def byteAt (d : List UInt8) (i : ℕ) : Option ℕ := d[i]?.map UInt8.toNat

/-- The STREAMINFO block at `s`. -/
def streamInfo (d : List UInt8) (s : ℕ) : Option StreamInfo := do
  let s10 ← byteAt d (s + 10)
  let s11 ← byteAt d (s + 11)
  let s12 ← byteAt d (s + 12)
  let s13 ← byteAt d (s + 13)
  let s14 ← byteAt d (s + 14)
  let s15 ← byteAt d (s + 15)
  let s16 ← byteAt d (s + 16)
  let s17 ← byteAt d (s + 17)
  return {
    sr := s10 <<< 12 ||| s11 <<< 4 ||| s12 >>> 4
    ch := (s12 >>> 1 &&& 7) + 1
    bps := ((s12 &&& 1) <<< 4 ||| s13 >>> 4) + 1
    total := (s13 &&& 0x0F) <<< 32 ||| s14 <<< 24 ||| s15 <<< 16 ||| s16 <<< 8 ||| s17 }

/-- The metadata blocks from `p` on; where they end. -/
def metadata (d : List UInt8) : ℕ → ℕ → StreamInfo → Option (Option (ℕ × StreamInfo))
  | 0, _, _ => none
  | k + 1, p, info =>
    if d.length < (p + 4) % 2 ^ 32 then some none else do
    let b0 ← byteAt d p
    let b1 ← byteAt d (p + 1)
    let b2 ← byteAt d (p + 2)
    let b3 ← byteAt d (p + 3)
    let sz := b1 <<< 16 ||| b2 <<< 8 ||| b3
    let info ← (if b0 &&& 0x7F = 0 ∧ 34 ≤ sz ∧ (p + 4 + 34) % 2 ^ 32 ≤ d.length then streamInfo d (p + 4) else some info)
    if b0 &&& 0x80 ≠ 0 then some (some ((p + 4 + sz) % 2 ^ 32, info))
    else metadata d k ((p + 4 + sz) % 2 ^ 32) info

/-- A stream is opened, if there is memory for it: its buffers hold what that memory held. -/
def flacOpen (rounds : ℕ) (d : List UInt8) (bufs : Bufs) : Option (Option Flac) :=
  if d.length < 42 ∨ d.take 4 ≠ [0x66, 0x4C, 0x61, 0x43] then some none else do
  match ← metadata d rounds 4 ⟨0, 0, 0, 0⟩ with
  | none => some none
  | some (p, info) =>
    if info.sr = 0 ∨ info.ch = 0 ∨ d.length ≤ p then some none else
    some (some {
      d, first := p, pos := p, bps := info.bps, inCh := info.ch, sr := info.sr, bufs, blen := 0, bat := 0
      skip := 0, rate := info.sr, channels := if 1 < info.ch then 2 else 1, length := info.total })

end BananaOS.Media
