import Mathlib.Algebra.Order.Ring.Nat
import Mathlib.Data.Nat.Basic
import Mathlib.Tactic.Common

/-!
# Bytes and characters

`kernel/utf8.h`, as far as the text buffer uses it: where a character begins, the character before
and after a byte, and the columns a text takes on the screen.  A string is the list of its bytes;
what C reads at the end of a line is its terminating zero, here `s.getD i 0`.

Loops that move an index to the left recurse on it.  Those that decode move it by one byte at
least in every pass, and run as many passes as there are bytes left.
-/

namespace BananaOS.Textbuf

/-- `u8_cont`: a continuation byte -/
def u8Cont (c : UInt8) : Bool := c &&& 0xC0 = 0x80

/-- `U8_WIDE` -/
def u8Wide : List (ℕ × ℕ) :=
  [(0x1100, 0x115F), (0x231A, 0x231B), (0x2329, 0x232A), (0x23E9, 0x23EC), (0x23F0, 0x23F0),
   (0x23F3, 0x23F3), (0x25FD, 0x25FE), (0x2614, 0x2615), (0x2648, 0x2653), (0x267F, 0x267F),
   (0x2693, 0x2693), (0x26A1, 0x26A1), (0x26AA, 0x26AB), (0x26BD, 0x26BE), (0x26C4, 0x26C5),
   (0x26CE, 0x26CE), (0x26D4, 0x26D4), (0x26EA, 0x26EA), (0x26F2, 0x26F3), (0x26F5, 0x26F5),
   (0x26FA, 0x26FA), (0x26FD, 0x26FD), (0x2705, 0x2705), (0x270A, 0x270B), (0x2728, 0x2728),
   (0x274C, 0x274C), (0x274E, 0x274E), (0x2753, 0x2755), (0x2757, 0x2757), (0x2795, 0x2797),
   (0x27B0, 0x27B0), (0x27BF, 0x27BF), (0x2B1B, 0x2B1C), (0x2B50, 0x2B50), (0x2B55, 0x2B55),
   (0x2E80, 0x303E), (0x3041, 0x33FF), (0x3400, 0x4DBF), (0x4E00, 0x9FFF), (0xA000, 0xA4CF),
   (0xA960, 0xA97F), (0xAC00, 0xD7A3), (0xF900, 0xFAFF), (0xFE10, 0xFE19), (0xFE30, 0xFE6F),
   (0xFF00, 0xFF60), (0xFFE0, 0xFFE6), (0x16FE0, 0x16FE4), (0x17000, 0x18CFF), (0x1AFF0, 0x1B2FF),
   (0x1F004, 0x1F004), (0x1F0CF, 0x1F0CF), (0x1F18E, 0x1F18E), (0x1F191, 0x1F19A),
   (0x1F200, 0x1F202), (0x1F210, 0x1F23B), (0x1F240, 0x1F248), (0x1F250, 0x1F251),
   (0x1F260, 0x1F265), (0x1F300, 0x1F320), (0x1F32D, 0x1F335), (0x1F337, 0x1F37C),
   (0x1F37E, 0x1F393), (0x1F3A0, 0x1F3CA), (0x1F3CF, 0x1F3D3), (0x1F3E0, 0x1F3F0),
   (0x1F3F4, 0x1F3F4), (0x1F3F8, 0x1F43E), (0x1F440, 0x1F440), (0x1F442, 0x1F4FC),
   (0x1F4FF, 0x1F53D), (0x1F54B, 0x1F54E), (0x1F550, 0x1F567), (0x1F57A, 0x1F57A),
   (0x1F595, 0x1F596), (0x1F5A4, 0x1F5A4), (0x1F5FB, 0x1F64F), (0x1F680, 0x1F6C5),
   (0x1F6CC, 0x1F6CC), (0x1F6D0, 0x1F6D2), (0x1F6D5, 0x1F6D7), (0x1F6DC, 0x1F6DF),
   (0x1F6EB, 0x1F6EC), (0x1F6F4, 0x1F6FC), (0x1F7E0, 0x1F7EB), (0x1F7F0, 0x1F7F0),
   (0x1F90C, 0x1F93A), (0x1F93C, 0x1F945), (0x1F947, 0x1F9FF), (0x1FA70, 0x1FAFF),
   (0x20000, 0x2FFFD), (0x30000, 0x3FFFD)]

/-- `U8_ZERO` -/
def u8Zero : List (ℕ × ℕ) :=
  [(0x0300, 0x036F), (0x0483, 0x0489), (0x200B, 0x200F), (0x2060, 0x2064), (0x20D0, 0x20FF),
   (0xFE00, 0xFE0F), (0xFE20, 0xFE2F), (0xFEFF, 0xFEFF), (0xE0000, 0xE0FFF)]

/-- The binary search of `u8_in`, between `lo` and `hi` (exclusive, one past C's `hi`). -/
def u8InLoop (r : List (ℕ × ℕ)) (cp : ℕ) : ℕ → ℕ → ℕ → Bool
  | 0, _, _ => false
  | fuel + 1, lo, hi =>
    if lo < hi then
      let m := (lo + (hi - 1)) / 2
      if cp > (r.getD m (0, 0)).2 then u8InLoop r cp fuel (m + 1) hi
      else if cp < (r.getD m (0, 0)).1 then u8InLoop r cp fuel lo m
      else true
    else false

/-- `u8_in` -/
def u8In (r : List (ℕ × ℕ)) (cp : ℕ) : Bool :=
  if cp < (r.getD 0 (0, 0)).1 ∨ cp > (r.getD (r.length - 1) (0, 0)).2 then false
  else u8InLoop r cp (r.length + 1) 0 r.length

/-- `u8_wcwidth` -/
def u8Wcwidth (cp : ℕ) : ℕ :=
  if cp < 0x300 then 1
  else if u8In u8Wide cp then 2
  else if u8In u8Zero cp then 0
  else 1

/-- The loop of `u8_decode` over the continuation bytes: the character so far, the bytes it still
needs, and the bytes read so far. -/
def u8DecodeLoop : ℕ → ℕ → ℕ → List UInt8 → ℕ × ℕ
  | 0, cp, i, _ => (cp, i)
  | _ + 1, _, i, [] => (0xFFFD, i)
  | need + 1, cp, i, b :: s =>
    if u8Cont b then u8DecodeLoop need ((cp <<< 6 ||| (b.toNat &&& 0x3F)) % 2 ^ 32) (i + 1) s
    else (0xFFFD, i)

/-- `u8_decode` at the start of `s`: the character, and how many bytes it took. -/
def u8Decode : List UInt8 → ℕ × ℕ
  | [] => (0, 1)
  | b :: s =>
    if b < 0x80 then (b.toNat, 1)
    else
      let need := if b ≥ 0xF0 then 3 else if b ≥ 0xE0 then 2 else if b ≥ 0xC0 then 1 else 0
      if need = 0 then (0xFFFD, 1)
      else u8DecodeLoop need (b.toNat &&& (0x3F >>> need)) 1 s

/-- The loop of `u8_width`. -/
def u8WidthLoop : ℕ → List UInt8 → ℕ → ℕ
  | 0, _, c => c
  | _ + 1, [], c => c
  | fuel + 1, b :: s, c =>
    if b < 0x80 then u8WidthLoop fuel s (c + 1)
    else
      let (cp, i) := u8Decode (b :: s)
      u8WidthLoop fuel ((b :: s).drop i) (c + u8Wcwidth cp)

/-- `u8_width` of all of `s` -/
def u8Width (s : List UInt8) : ℕ := u8WidthLoop s.length s 0

/-- The loop of `u8_byte_at_col`. -/
def u8ByteAtColLoop (col : ℕ) : ℕ → List UInt8 → ℕ → ℕ → ℕ
  | 0, _, i, _ => i
  | _ + 1, [], i, _ => i
  | fuel + 1, b :: s, i, c =>
    let (w, k) := if b < 0x80 then (1, 1) else
      let (cp, k) := u8Decode (b :: s)
      (u8Wcwidth cp, k)
    if c + w > col then i
    else u8ByteAtColLoop col fuel ((b :: s).drop k) (i + k) (c + w)

/-- `u8_byte_at_col` -/
def u8ByteAtCol (s : List UInt8) (col : ℕ) : ℕ := u8ByteAtColLoop col s.length s 0 0

/-- `while (i > 0 && u8_cont(s[i])) i--` -/
def u8Back (s : List UInt8) : ℕ → ℕ
  | 0 => 0
  | i + 1 => if u8Cont (s.getD (i + 1) 0) then u8Back s i else i + 1

/-- `u8_prev` -/
def u8Prev (s : List UInt8) (i : ℕ) : ℕ :=
  if i = 0 then 0 else u8Back s (i - 1)

/-- `u8_next` -/
def u8Next (s : List UInt8) (i : ℕ) : ℕ :=
  if i ≥ s.length then s.length
  else i + 1 + ((s.drop (i + 1)).takeWhile u8Cont).length

/-! ## Bounds -/

theorem u8Back_le (s : List UInt8) (i : ℕ) : u8Back s i ≤ i := by
  induction i with
  | zero => exact Nat.le_refl 0
  | succ i ih =>
    rw [u8Back]
    split
    · exact Nat.le_succ_of_le ih
    · exact Nat.le_refl _

/-- The way back reads no byte after `i`. -/
theorem u8Back_take {s : List UInt8} {i n : ℕ} (h : i < n) : u8Back (s.take n) i = u8Back s i := by
  induction i with
  | zero => rfl
  | succ i ih =>
    have hget : (s.take n).getD (i + 1) 0 = s.getD (i + 1) 0 := by
      rw [List.getD_eq_getElem?_getD, List.getD_eq_getElem?_getD, List.getElem?_take_of_lt h]
    rw [u8Back, u8Back, hget, ih (by omega)]

theorem u8Prev_lt {s : List UInt8} {i : ℕ} (h : 0 < i) : u8Prev s i < i := by
  have := u8Back_le s (i - 1)
  rw [u8Prev, if_neg (by omega)]
  omega

theorem u8Prev_take (s : List UInt8) (i : ℕ) : u8Prev (s.take i) i = u8Prev s i := by
  rw [u8Prev, u8Prev]
  split
  · rfl
  · exact u8Back_take (by omega)

theorem u8Next_le {s : List UInt8} (i : ℕ) : u8Next s i ≤ s.length := by
  rw [u8Next]
  split
  · exact Nat.le_refl _
  · have := (List.takeWhile_prefix (l := s.drop (i + 1)) u8Cont).length_le
    rw [List.length_drop] at this
    omega

theorem lt_u8Next {s : List UInt8} {i : ℕ} (h : i < s.length) : i < u8Next s i := by
  rw [u8Next, if_neg (by omega)]
  omega

end BananaOS.Textbuf
