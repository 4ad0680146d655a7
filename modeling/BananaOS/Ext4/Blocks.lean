import BananaOS.Lib.Bytes

/-!
# Blocks of the filesystem

The blocks of `kernel/ext4.c` and how it reads and writes numbers in them.  A block is a function
from offsets to bytes, of which the first `BS` are used.
-/

namespace BananaOS.Ext4

open Lib

/-- A block, or another stretch of bytes. -/
abbrev Blk := ℕ → UInt8

/-- `BS` -/
def bs : ℕ := 4096

/-- A `uint32_t`. -/
def u32 (x : ℕ) : ℕ := x % 2 ^ 32

/-- `g16(p + o)` -/
def g16 (p : Blk) (o : ℕ) : ℕ := getLE p o 2

/-- `g32(p + o)` -/
def g32 (p : Blk) (o : ℕ) : ℕ := getLE p o 4

/-- `p16(p + o, v)` -/
def p16 (p : Blk) (o v : ℕ) : Blk := putLE p o 2 v

/-- `p32(p + o, v)` -/
def p32 (p : Blk) (o v : ℕ) : Blk := putLE p o 4 v

/-- `gb16(p + o)` -/
def gb16 (p : Blk) (o : ℕ) : ℕ := getBE p o 2

/-- `gb32(p + o)` -/
def gb32 (p : Blk) (o : ℕ) : ℕ := getBE p o 4

/-- `pb16(p + o, v)` -/
def pb16 (p : Blk) (o v : ℕ) : Blk := putBE p o 2 v

/-- `pb32(p + o, v)` -/
def pb32 (p : Blk) (o v : ℕ) : Blk := putBE p o 4 v

/-- A block of zeros. -/
def zeros : Blk := fun _ => 0

/-- `cblk_t`: a cached block. -/
structure CBlk where
  blk : ℕ
  data : Blk
  dirty : Bool
  isMeta : Bool

/-- `ext_t`: `len` blocks of a file from `lblk` on are on the disk from `pblk` on; `unw`: not
written yet. -/
structure Ext where
  lblk : ℕ
  pblk : ℕ
  len : ℕ
  unw : Bool
  deriving DecidableEq, Repr, Inhabited

/-- The loop of `emap_find`; it ends within `m->n` rounds. -/
def emapFindLoop (e : List Ext) (lblk : ℕ) : ℕ → ℕ → ℕ → ℕ
  | 0, lo, _ => lo
  | n + 1, lo, hi =>
    if lo < hi then
      let mid := (lo + hi) / 2
      if u32 ((e.getD mid default).lblk + (e.getD mid default).len) ≤ lblk then
        emapFindLoop e lblk n (mid + 1) hi
      else emapFindLoop e lblk n lo mid
    else lo

/-- `emap_find`: the disk block of a block of the file (`0`: none), `*unw` and `*run`. -/
def emapFind (e : List Ext) (lblk : ℕ) : ℕ × Bool × ℕ :=
  match e[emapFindLoop e lblk e.length 0 e.length]? with
  | some x =>
    if x.lblk ≤ lblk then (u32 (x.pblk + (lblk - x.lblk)), x.unw, u32 (u32 (x.lblk + x.len) + 2 ^ 32 - lblk))
    else (0, false, x.lblk - lblk)
  | none => (0, false, 2 ^ 32 - 1)

/-! ## Reading what was written -/

variable {p : Blk} {o o' v : ℕ}

theorem gb32_pb32 (p : Blk) (o v : ℕ) : gb32 (pb32 p o v) o = u32 v := getBE_putBE

theorem gb32_pb32_ne (h : o' + 4 ≤ o ∨ o + 4 ≤ o') : gb32 (pb32 p o v) o' = gb32 p o' :=
  getBE_congr fun _ _ _ => putBE_of_notMem (by omega)

theorem gb32_pb16_ne (h : o' + 4 ≤ o ∨ o + 2 ≤ o') : gb32 (pb16 p o v) o' = gb32 p o' :=
  getBE_congr fun _ _ _ => putBE_of_notMem (by omega)

theorem gb16_pb16 (p : Blk) (o v : ℕ) : gb16 (pb16 p o v) o = v % 2 ^ 16 := getBE_putBE

theorem g32_p32 (p : Blk) (o v : ℕ) : g32 (p32 p o v) o = u32 v := getLE_putLE

theorem g32_lt (p : Blk) (o : ℕ) : g32 p o < 2 ^ 32 := by
  have h : getLE p o 4 < 256 ^ 4 := getLE_lt
  rw [show 256 ^ 4 = 2 ^ 32 by norm_num] at h
  exact h

theorem p32_p32 (p : Blk) (o v w : ℕ) : p32 (p32 p o v) o w = p32 p o w := putLE_putLE

theorem gb32_zeros (o : ℕ) : gb32 zeros o = 0 := by
  simp [gb32, getBE, zeros]

theorem u32_of_lt {x : ℕ} (h : x < 2 ^ 32) : u32 x = x := Nat.mod_eq_of_lt h

theorem u32_lt (x : ℕ) : u32 x < 2 ^ 32 := Nat.mod_lt x (by decide)

end BananaOS.Ext4
