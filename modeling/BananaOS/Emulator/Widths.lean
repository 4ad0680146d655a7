import Mathlib.Algebra.Order.Ring.Nat
import Mathlib.Data.Int.Basic
import Mathlib.Tactic.Common

/-!
# How many columns a character takes

The terminal emulator is built twice: the Terminal app takes the C library's `wcwidth`, and the
kernel's consoles take `u8_wcwidth`.  Both look the character up in two sorted tables of ranges, and
neither ever answers more than two columns, which is all the emulator relies on (`Widths`).
-/

namespace BananaOS.Emulator

/-- The binary search of `in_ranges` and `u8_in`, between `lo` and `hi`; `n` bounds its steps. -/
def searchRanges (r : Array (ℕ × ℕ)) (c : ℕ) : ℕ → ℤ → ℤ → Bool
  | 0, _, _ => false
  | n + 1, lo, hi =>
    if lo ≤ hi then
      let mid := (lo + hi) / 2
      let range := r.getD mid.toNat (0, 0)
      if c > range.2 then searchRanges r c n (mid + 1) hi
      else if c < range.1 then searchRanges r c n lo (mid - 1)
      else true
    else false

/-- `in_ranges` of the C library, `u8_in` of the kernel. -/
def inRanges (r : Array (ℕ × ℕ)) (c : ℕ) : Bool :=
  if c < (r.getD 0 (0, 0)).1 || c > (r.getD (r.size - 1) (0, 0)).2 then false
  else searchRanges r c r.size 0 (r.size - 1)

/-! ## The kernel's widths -/

def u8Wide : Array (ℕ × ℕ) :=
  #[(0x1100, 0x115F), (0x231A, 0x231B), (0x2329, 0x232A), (0x23E9, 0x23EC), (0x23F0, 0x23F0),
    (0x23F3, 0x23F3), (0x25FD, 0x25FE), (0x2614, 0x2615), (0x2648, 0x2653), (0x267F, 0x267F),
    (0x2693, 0x2693), (0x26A1, 0x26A1), (0x26AA, 0x26AB), (0x26BD, 0x26BE), (0x26C4, 0x26C5),
    (0x26CE, 0x26CE), (0x26D4, 0x26D4), (0x26EA, 0x26EA), (0x26F2, 0x26F3), (0x26F5, 0x26F5),
    (0x26FA, 0x26FA), (0x26FD, 0x26FD), (0x2705, 0x2705), (0x270A, 0x270B), (0x2728, 0x2728),
    (0x274C, 0x274C), (0x274E, 0x274E), (0x2753, 0x2755), (0x2757, 0x2757), (0x2795, 0x2797),
    (0x27B0, 0x27B0), (0x27BF, 0x27BF), (0x2B1B, 0x2B1C), (0x2B50, 0x2B50), (0x2B55, 0x2B55),
    (0x2E80, 0x303E), (0x3041, 0x33FF), (0x3400, 0x4DBF), (0x4E00, 0x9FFF), (0xA000, 0xA4CF),
    (0xA960, 0xA97F), (0xAC00, 0xD7A3), (0xF900, 0xFAFF), (0xFE10, 0xFE19), (0xFE30, 0xFE6F),
    (0xFF00, 0xFF60), (0xFFE0, 0xFFE6), (0x16FE0, 0x16FE4), (0x17000, 0x18CFF), (0x1AFF0, 0x1B2FF),
    (0x1F004, 0x1F004), (0x1F0CF, 0x1F0CF), (0x1F18E, 0x1F18E), (0x1F191, 0x1F19A),
    (0x1F200, 0x1F202), (0x1F210, 0x1F23B), (0x1F240, 0x1F248), (0x1F250, 0x1F251),
    (0x1F260, 0x1F265), (0x1F300, 0x1F320), (0x1F32D, 0x1F335), (0x1F337, 0x1F37C),
    (0x1F37E, 0x1F393), (0x1F3A0, 0x1F3CA), (0x1F3CF, 0x1F3D3), (0x1F3E0, 0x1F3F0),
    (0x1F3F4, 0x1F3F4), (0x1F3F8, 0x1F43E), (0x1F440, 0x1F440), (0x1F442, 0x1F4FC),
    (0x1F4FF, 0x1F53D), (0x1F54B, 0x1F54E), (0x1F550, 0x1F567), (0x1F57A, 0x1F57A),
    (0x1F595, 0x1F596), (0x1F5A4, 0x1F5A4), (0x1F5FB, 0x1F64F), (0x1F680, 0x1F6C5),
    (0x1F6CC, 0x1F6CC), (0x1F6D0, 0x1F6D2), (0x1F6D5, 0x1F6D7), (0x1F6DC, 0x1F6DF),
    (0x1F6EB, 0x1F6EC), (0x1F6F4, 0x1F6FC), (0x1F7E0, 0x1F7EB), (0x1F7F0, 0x1F7F0),
    (0x1F90C, 0x1F93A), (0x1F93C, 0x1F945), (0x1F947, 0x1F9FF), (0x1FA70, 0x1FAFF),
    (0x20000, 0x2FFFD), (0x30000, 0x3FFFD)]

def u8Zero : Array (ℕ × ℕ) :=
  #[(0x0300, 0x036F), (0x0483, 0x0489), (0x200B, 0x200F), (0x2060, 0x2064), (0x20D0, 0x20FF),
    (0xFE00, 0xFE0F), (0xFE20, 0xFE2F), (0xFEFF, 0xFEFF), (0xE0000, 0xE0FFF)]

def u8Wcwidth (cp : ℕ) : ℤ :=
  if cp < 0x300 then 1
  else if inRanges u8Wide cp then 2
  else if inRanges u8Zero cp then 0
  else 1

/-! ## The C library's widths -/

/-- `wcwidth`, over its two tables. -/
def wcwidth (zeroWidth wideRanges : Array (ℕ × ℕ)) (c : ℕ) : ℤ :=
  if c = 0 then 0
  else if c < 32 || (0x7F ≤ c && c < 0xA0) then -1
  else if c < 0x300 then 1
  else if c > 0x10FFFF || (0xD800 ≤ c && c ≤ 0xDFFF) then -1
  else if inRanges zeroWidth c then 0
  else if inRanges wideRanges c then 2
  else 1

/-! ## What the emulator relies on -/

/-- The `wcwidth` the emulator is built with. -/
structure Widths where
  wcwidth : ℕ → ℤ
  le_two : ∀ c, wcwidth c ≤ 2

/-- The kernel's consoles. -/
def Widths.kernel : Widths where
  wcwidth := u8Wcwidth
  le_two c := by
    unfold u8Wcwidth
    split_ifs <;> decide

/-- The Terminal app. -/
def Widths.app (zeroWidth wideRanges : Array (ℕ × ℕ)) : Widths where
  wcwidth := BananaOS.Emulator.wcwidth zeroWidth wideRanges
  le_two c := by
    unfold BananaOS.Emulator.wcwidth
    split_ifs <;> decide

/-- The columns of a character: combining marks and controls take none, and a character `wcwidth`
does not know takes one. -/
def charWidth (W : Widths) (c : ℕ) : ℤ :=
  if c < 0x300 then if c ≥ 0x20 && (c < 0x7F || c ≥ 0xA0) then 1 else 0
  else
    let w := W.wcwidth c
    if w < 0 then 1 else w

theorem charWidth_cases (W : Widths) (c : ℕ) :
    charWidth W c = 0 ∨ charWidth W c = 1 ∨ charWidth W c = 2 := by
  unfold charWidth
  have h := W.le_two c
  split_ifs with h1 h2
  · exact Or.inr (Or.inl rfl)
  · exact Or.inl rfl
  · simp only
    split_ifs with h3
    · exact Or.inr (Or.inl rfl)
    · omega

end BananaOS.Emulator
