import BananaOS.Lib.Buffers
import BananaOS.Lib.Bytes

/-!
# The interleaved run-length code of RDP bitmaps

`interleaved` and `rdp_rle_decompress` of `kernel/rdpclient_rle.c`.  The bitmap `raw` and the input are read and
written with checks; the number of bytes of a bitmap is below `2 ^ 31`, and the length of an input is one of 16 bits,
so no index wraps.

A loop over `WR` is the list of what it writes, one `Pen` for each pixel.
-/

namespace BananaOS.Rdp

open Lib Res

/-- The size of a bitmap, and of its pixels in bytes. -/
structure Bitmap where
  w : ℕ
  h : ℕ
  bytes : ℕ

def Bitmap.total (c : Bitmap) : ℕ := c.w * c.h

/-- The state of `interleaved`; `rest` is the input from `ip` on. -/
structure Decoder where
  rest : List UInt8
  op : ℕ
  raw : ℕ → UInt8
  mix : ℕ
  lastop : ℤ

/-- What `WR` is given: `ABOVE()`, `ABOVE() ^ mix` or a colour. -/
inductive Pen where
  | above
  | mixed
  | colour (v : ℕ)
  deriving DecidableEq

def bppBytes (bpp : ℕ) : ℕ := if bpp = 24 then 3 else if bpp = 8 then 1 else 2

def rdPixel (p : ℕ → UInt8) (size i bytes : ℕ) : Res ℕ := if i + bytes ≤ size then ok (getLE p i bytes) else fault

def wrPixel (p : ℕ → UInt8) (size i bytes v : ℕ) : Res (ℕ → UInt8) :=
  if i + bytes ≤ size then ok (putLE p i bytes v) else fault

/-- `ABOVE()` -/
def above (c : Bitmap) (s : Decoder) : Res ℕ :=
  if c.w ≤ s.op then rdPixel s.raw (c.total * c.bytes) ((s.op - c.w) * c.bytes) c.bytes else ok 0

def readPen (c : Bitmap) (s : Decoder) : Pen → Res ℕ
  | .above => above c s
  | .mixed => do
    let v ← above c s
    return v ^^^ s.mix
  | .colour v => ok v

/-- `WR` -/
def wr (c : Bitmap) (p : Pen) (s : Decoder) : Res Decoder :=
  if c.total ≤ s.op then fail
  else do
    let v ← readPen c s p
    let raw ← wrPixel s.raw (c.total * c.bytes) (s.op * c.bytes) c.bytes v
    return { s with op := s.op + 1, raw }

def wrAll (c : Bitmap) : List Pen → Decoder → Res Decoder
  | [], s => ok s
  | p :: ps, s => do
    let s ← wr c p s
    wrAll c ps s

/-- The first `n` bits of a mask. -/
def maskPens (m : UInt8) (n : ℕ) : List Pen :=
  (List.range n).map fun b => if m.toNat.testBit b then .mixed else .above

/-- The loop behind `fom`. -/
def fom (c : Bitmap) : List UInt8 → ℕ → Decoder → Res Decoder
  | rest, 0, s => ok { s with rest }
  | [], _ + 1, _ => fail
  | m :: rest, n + 1, s => do
    let s ← wrAll c (maskPens m (min 8 (n + 1))) { s with rest }
    fom c rest (n + 1 - 8) s

/-- A pixel of the input. -/
def takePixel (c : Bitmap) (s : Decoder) : Res (ℕ × Decoder) :=
  if s.rest.length < c.bytes then fail
  else do
    let v ← rdPixel (fun i => s.rest.getD i 0) s.rest.length 0 c.bytes
    return (v, { s with rest := s.rest.drop c.bytes })

/-- The loop of a colour image. -/
def image (c : Bitmap) : ℕ → Decoder → Res Decoder
  | 0, s => ok s
  | n + 1, s => do
    let (v, s) ← takePixel c s
    let s ← wr c (.colour v) s
    image c n s

/-- A length of so many bits, or in the next byte when it is 0. -/
def shortLen (f unit extra : ℕ) (rest : List UInt8) : ℕ × List UInt8 :=
  if f ≠ 0 then (f * unit, rest)
  else
    match rest with
    | x :: rest => (x.toNat + extra, rest)
    | [] => (0, [])

/-- `op_`, `count` and the input behind them. -/
def header (code : ℕ) (rest : List UInt8) : Res (ℕ × ℕ × List UInt8) :=
  let hi := code / 16
  if hi = 15 then
    let op := code % 16
    if op < 9 then
      match rest with
      | a :: b :: rest => ok (op, a.toNat + 256 * b.toNat, rest)
      | _ => fail
    else if op < 11 then ok (op, 8, rest)
    else ok (op, 1, rest)
  else if 12 ≤ hi ∧ hi ≤ 14 then
    let op := hi - 6
    let f := code % 16
    if op = 7 then ok (op, shortLen f 8 1 rest) else ok (op, shortLen f 1 16 rest)
  else
    let op := code / 32
    let f := code % 32
    if op = 2 then ok (op, shortLen f 8 1 rest) else ok (op, shortLen f 1 32 rest)

/-- The first value of `mix` and the white of a single pixel. -/
def fgpel (bytes : ℕ) : ℕ := if bytes = 3 then 0xFFFFFF else if bytes = 2 then 0xFFFF else 0xFF

def order (c : Bitmap) (op count : ℕ) (s : Decoder) : Res Decoder :=
  match op with
  | 0 => do
    let s ← if s.lastop = 0 ∧ s.op % c.w ≠ 0 then wr c .mixed s else ok s
    wrAll c (List.replicate count .above) s
  | 1 => wrAll c (List.replicate count .mixed) s
  | 2 => fom c s.rest count s
  | 3 => do
    let (v, s) ← takePixel c s
    wrAll c (List.replicate count (.colour v)) s
  | 4 => image c count s
  | 6 => do
    let (mix, s) ← takePixel c s
    wrAll c (List.replicate count .mixed) { s with mix }
  | 7 => do
    let (mix, s) ← takePixel c s
    fom c s.rest count { s with mix }
  | 8 =>
    if s.rest.length < 2 * c.bytes then fail
    else do
      let (a, s) ← takePixel c s
      let (b, s) ← takePixel c s
      wrAll c (List.replicate count [.colour a, .colour b]).flatten s
  | 9 => wrAll c (maskPens 3 8) s
  | 10 => wrAll c (maskPens 5 8) s
  | 13 => wr c (.colour (fgpel c.bytes)) s
  | 14 => wr c (.colour 0) s
  | _ => fail

/-- The loop over the orders; `fault` when that many turns are not enough. -/
def orders (c : Bitmap) : ℕ → Decoder → Res Decoder
  | 0, _ => fault
  | k + 1, s =>
    match s.rest with
    | [] => ok s
    | code :: rest =>
      if c.total ≤ s.op then ok s
      else do
        let (op, count, rest) ← header code.toNat rest
        let s ← order c op count { s with rest }
        orders c k { s with lastop := op }

def interleaved (c : Bitmap) (bs : List UInt8) (raw : ℕ → UInt8) : Res (ℕ → UInt8) := do
  let s ← orders c (bs.length + 1) ⟨bs, 0, raw, fgpel c.bytes, -1⟩
  if c.total ≤ s.op then ok s.raw else fail

/-- A pixel as `0x00RRGGBB`. -/
def argb (bytes v : ℕ) : ℕ :=
  if bytes = 2 then
    let r := v >>> 11 % 32
    let g := v >>> 5 % 64
    let b := v % 32
    (r <<< 3 ||| r >>> 2) <<< 16 ||| (g <<< 2 ||| g >>> 4) <<< 8 ||| (b <<< 3 ||| b >>> 2)
  else if bytes = 3 then v % 2 ^ 24
  else v <<< 16 ||| v <<< 8 ||| v

/-- The loop over the pixels from `i` on. -/
def convert (c : Bitmap) (raw : ℕ → UInt8) : ℕ → ℕ → Res (List ℕ)
  | 0, _ => ok []
  | n + 1, i => do
    let v ← rdPixel raw (c.total * c.bytes) (i * c.bytes) c.bytes
    let out ← convert c raw n (i + 1)
    return argb c.bytes v :: out

/-- `rdp_rle_decompress`, where `raw` is what the memory holds at first. -/
def rleDecompress (bs : List UInt8) (bpp w h : ℕ) (raw : ℕ → UInt8) : Res (List ℕ) := do
  let c : Bitmap := ⟨w, h, bppBytes bpp⟩
  let raw ← interleaved c bs raw
  convert c raw (w * h) 0

variable {c : Bitmap} {s s' : Decoder} {p : Pen} {ps qs : List Pen} {rest : List UInt8} {n : ℕ}

/-! ## Writing -/

/-- A pixel of the input. -/
def pixelAt (rest : List UInt8) (i bytes : ℕ) : ℕ := getLE (fun i => rest.getD i 0) i bytes

theorem takePixel_eq (h : c.bytes ≤ s.rest.length) :
    takePixel c s = ok (pixelAt s.rest 0 c.bytes, { s with rest := s.rest.drop c.bytes }) := by
  rw [takePixel, if_neg (by omega), rdPixel, if_pos (by omega)]
  rfl

theorem above_eq (h : s.op < c.total) :
    above c s = ok (if c.w ≤ s.op then getLE s.raw ((s.op - c.w) * c.bytes) c.bytes else 0) := by
  rw [above]
  split_ifs
  · have hle : (s.op - c.w) * c.bytes + c.bytes ≤ c.total * c.bytes := by
      rw [← Nat.succ_mul]
      exact Nat.mul_le_mul_right _ (by omega)
    rw [rdPixel, if_pos hle]
  · rfl

/-- What a pen writes. -/
def Pen.value (p : Pen) (mix above : ℕ) : ℕ :=
  match p with
  | .above => above
  | .mixed => above ^^^ mix
  | .colour v => v

theorem wr_eq (h : s.op < c.total) (p : Pen) : wr c p s = ok { s with
    op := s.op + 1
    raw := putLE s.raw (s.op * c.bytes) c.bytes
      (p.value s.mix (if c.w ≤ s.op then getLE s.raw ((s.op - c.w) * c.bytes) c.bytes else 0)) } := by
  have hle : s.op * c.bytes + c.bytes ≤ c.total * c.bytes := by
    rw [← Nat.succ_mul]
    exact Nat.mul_le_mul_right _ h
  have hread : readPen c s p =
      ok (p.value s.mix (if c.w ≤ s.op then getLE s.raw ((s.op - c.w) * c.bytes) c.bytes else 0)) := by
    cases p with
    | above => exact above_eq h
    | mixed =>
      rw [readPen, above_eq h]
      rfl
    | colour v => rfl
  rw [wr, if_neg (by omega), hread, ok_bind, wrPixel, if_pos hle]
  rfl

theorem wr_fail (h : c.total ≤ s.op) (p : Pen) : wr c p s = fail := if_pos h

theorem wr_ne_fault (c : Bitmap) (p : Pen) (s : Decoder) : wr c p s ≠ fault := by
  by_cases h : s.op < c.total
  · rw [wr_eq h]
    exact nofun
  · rw [wr_fail (not_lt.mp h)]
    exact nofun

theorem wrAll_ne_fault (ps : List Pen) (s : Decoder) : wrAll c ps s ≠ fault := by
  induction ps generalizing s with
  | nil => exact nofun
  | cons p ps ih => exact bind_ne_fault (wr_ne_fault c p s) fun s' _ => ih s'

theorem bind_fail {α β : Type} {x : Res α} (h : x ≠ fault) : (x >>= fun _ => (fail : Res β)) = fail := by
  cases x with
  | ok a => rfl
  | fail => rfl
  | fault => exact absurd rfl h

theorem wrAll_append (ps qs : List Pen) (s : Decoder) :
    wrAll c (ps ++ qs) s = wrAll c ps s >>= wrAll c qs := by
  induction ps generalizing s with
  | nil => rfl
  | cons p ps ih =>
    rw [List.cons_append, wrAll, wrAll]
    cases wr c p s with
    | ok a => exact ih a
    | fail => rfl
    | fault => rfl

/-- What is written has nothing to do with the input that is left. -/
theorem wrAll_rest (ps : List Pen) (s : Decoder) (rest : List UInt8) :
    (wrAll c ps s >>= fun s => ok { s with rest }) = wrAll c ps { s with rest } := by
  induction ps generalizing s with
  | nil => rfl
  | cons p ps ih =>
    rw [wrAll, wrAll]
    by_cases h : s.op < c.total
    · rw [wr_eq h, wr_eq (s := { s with rest }) h]
      exact ih _
    · rw [wr_fail (not_lt.mp h), wr_fail (s := { s with rest }) (not_lt.mp h)]
      rfl

theorem wrAll_rest_eq (h : wrAll c ps s = ok s') : s'.rest = s.rest := by
  have hrest := wrAll_rest (c := c) ps s s.rest
  rw [h, ok_bind] at hrest
  exact (congrArg Decoder.rest (ok.inj hrest)).symm

end BananaOS.Rdp
