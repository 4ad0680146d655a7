import BananaOS.Lib.Octets
import BananaOS.Lib.Poly1305
import Mathlib.Data.Nat.ModEq
import Mathlib.Tactic.Linarith
import Mathlib.Tactic.Ring

/-!
# Poly1305 in five limbs

The authenticator of `aead.c`: numbers modulo `2^130 - 5` in limbs of 26 bits, in words of 32 bits with
products of 64.  A block is added and the sum multiplied (`polyBlock`), and the carries run once through
the limbs, so that a number is not always below the prime; that is done when the tag is asked for.

* `polyBlock_spec`: the limbs stay so small that nothing wraps, and the number is the next value of the
  polynomial.
* `settle_spec`, `freeze_spec`: the number below the prime.
* `poly_pieces`: the tag is that of RFC 8439, however the message was cut.
-/

namespace BananaOS.Crypto

open Lib

/-! ## The code -/

/-- `le32`, of the bytes from `o` on. -/
def le32 (p : List UInt8) (o : ℕ) : ℕ := ofBytesLE ((p.drop o).take 4)

def u32 (x : ℕ) : ℕ := x % 2 ^ 32

def u64 (x : ℕ) : ℕ := x % 2 ^ 64

/-- Five limbs, the lowest first. -/
structure Limbs where
  l0 : ℕ
  l1 : ℕ
  l2 : ℕ
  l3 : ℕ
  l4 : ℕ

/-- The number in limbs of 26 bits. -/
def Limbs.val (x : Limbs) : ℕ :=
  x.l0 + 2 ^ 26 * x.l1 + 2 ^ 52 * x.l2 + 2 ^ 78 * x.l3 + 2 ^ 104 * x.l4

/-- `poly1305_t` -/
structure PolyCtx where
  r : Limbs
  s : List ℕ
  h : Limbs
  buf : Vector UInt8 16
  buf_len : ℕ

/-- `p->r` from the key. -/
def clampLimbs (key : List UInt8) : Limbs where
  l0 := le32 key 0 &&& 0x3ffffff
  l1 := le32 key 3 >>> 2 &&& 0x3ffff03
  l2 := le32 key 6 >>> 4 &&& 0x3ffc0ff
  l3 := le32 key 9 >>> 6 &&& 0x3f03fff
  l4 := le32 key 12 >>> 8 &&& 0x00fffff

/-- `poly_init`; what the buffer holds stays. -/
def polyInit (p : PolyCtx) (key : List UInt8) : PolyCtx :=
  { p with
    r := clampLimbs key
    s := (List.range 4).map fun i => le32 key (16 + 4 * i)
    h := ⟨0, 0, 0, 0, 0⟩
    buf_len := 0 }

/-- `poly_block`: the block is added. -/
def addBlock (h : Limbs) (m : List UInt8) (hibit : ℕ) : Limbs where
  l0 := u32 (h.l0 + (le32 m 0 &&& 0x3ffffff))
  l1 := u32 (h.l1 + (le32 m 3 >>> 2 &&& 0x3ffffff))
  l2 := u32 (h.l2 + (le32 m 6 >>> 4 &&& 0x3ffffff))
  l3 := u32 (h.l3 + (le32 m 9 >>> 6 &&& 0x3ffffff))
  l4 := u32 (h.l4 + (le32 m 12 >>> 8 ||| hibit))

/-- `poly_block`: `d0` to `d4`. -/
def product (h r : Limbs) : Limbs :=
  let s1 := u32 (r.l1 * 5)
  let s2 := u32 (r.l2 * 5)
  let s3 := u32 (r.l3 * 5)
  let s4 := u32 (r.l4 * 5)
  { l0 := u64 (h.l0 * r.l0 + h.l1 * s4 + h.l2 * s3 + h.l3 * s2 + h.l4 * s1)
    l1 := u64 (h.l0 * r.l1 + h.l1 * r.l0 + h.l2 * s4 + h.l3 * s3 + h.l4 * s2)
    l2 := u64 (h.l0 * r.l2 + h.l1 * r.l1 + h.l2 * r.l0 + h.l3 * s4 + h.l4 * s3)
    l3 := u64 (h.l0 * r.l3 + h.l1 * r.l2 + h.l2 * r.l1 + h.l3 * r.l0 + h.l4 * s4)
    l4 := u64 (h.l0 * r.l4 + h.l1 * r.l3 + h.l2 * r.l2 + h.l3 * r.l1 + h.l4 * r.l0) }

/-- The carry out of a sum of products. -/
def carryOut (d : ℕ) : ℕ := u32 (d >>> 26)

def low26 (d : ℕ) : ℕ := u32 d &&& 0x3ffffff

/-- `poly_block`: one carry through the limbs, and from the last to the first two. -/
def carryAll (d : Limbs) : Limbs :=
  let c := carryOut d.l0
  let h0 := low26 d.l0
  let d1 := u64 (d.l1 + c)
  let c := carryOut d1
  let h1 := low26 d1
  let d2 := u64 (d.l2 + c)
  let c := carryOut d2
  let h2 := low26 d2
  let d3 := u64 (d.l3 + c)
  let c := carryOut d3
  let h3 := low26 d3
  let d4 := u64 (d.l4 + c)
  let c := carryOut d4
  let h4 := low26 d4
  let h0 := u32 (h0 + u32 (c * 5))
  let c := h0 >>> 26
  let h0 := h0 &&& 0x3ffffff
  let h1 := u32 (h1 + c)
  ⟨h0, h1, h2, h3, h4⟩

/-- `poly_block` -/
def polyBlock (r h : Limbs) (m : List UInt8) (hibit : ℕ) : Limbs :=
  carryAll (product (addBlock h m hibit) r)

/-- `poly_block` of a whole block. -/
def PolyCtx.step (p : PolyCtx) (h : Limbs) (b : List UInt8) : Limbs := polyBlock p.r h b (1 <<< 24)

/-- `poly_update` from where the buffer is empty. -/
def PolyCtx.takeBlocks (p : PolyCtx) (m : List UInt8) : PolyCtx :=
  let (h, m) := wholeLoop 16 p.step p.h m
  if m.length ≠ 0 then { p with h := h, buf := overwrite p.buf 0 m, buf_len := m.length }
  else { p with h := h }

/-- `poly_update` -/
def polyUpdate (p : PolyCtx) (m : List UInt8) : PolyCtx :=
  if p.buf_len ≠ 0 then
    let take := min (16 - p.buf_len) m.length
    let p := { p with
      buf := overwrite p.buf p.buf_len (m.take take)
      buf_len := p.buf_len + take }
    if p.buf_len < 16 then p
    else { p with h := p.step p.h p.buf.toList, buf_len := 0 }.takeBlocks (m.drop take)
  else p.takeBlocks m

/-- `poly_finish`: the carries once more. -/
def settle (h : Limbs) : Limbs :=
  let c := h.l1 >>> 26
  let h1 := h.l1 &&& 0x3ffffff
  let h2 := u32 (h.l2 + c)
  let c := h2 >>> 26
  let h2 := h2 &&& 0x3ffffff
  let h3 := u32 (h.l3 + c)
  let c := h3 >>> 26
  let h3 := h3 &&& 0x3ffffff
  let h4 := u32 (h.l4 + c)
  let c := h4 >>> 26
  let h4 := h4 &&& 0x3ffffff
  let h0 := u32 (h.l0 + u32 (c * 5))
  let c := h0 >>> 26
  let h0 := h0 &&& 0x3ffffff
  let h1 := u32 (h1 + c)
  ⟨h0, h1, h2, h3, h4⟩

/-- `(h & ~mask) | (g & mask)` -/
def select (mask g h : ℕ) : ℕ := (h &&& (2 ^ 32 - 1 - mask)) ||| (g &&& mask)

/-- `poly_finish`: the number less the prime, if it is not below. -/
def freeze (h : Limbs) : Limbs :=
  let g0 := u32 (h.l0 + 5)
  let c := g0 >>> 26
  let g0 := g0 &&& 0x3ffffff
  let g1 := u32 (h.l1 + c)
  let c := g1 >>> 26
  let g1 := g1 &&& 0x3ffffff
  let g2 := u32 (h.l2 + c)
  let c := g2 >>> 26
  let g2 := g2 &&& 0x3ffffff
  let g3 := u32 (h.l3 + c)
  let c := g3 >>> 26
  let g3 := g3 &&& 0x3ffffff
  let g4 := u32 (h.l4 + c + (2 ^ 32 - 1 <<< 26))
  let mask := u32 (g4 >>> 31 + (2 ^ 32 - 1))
  ⟨select mask g0 h.l0, select mask g1 h.l1, select mask g2 h.l2, select mask g3 h.l3,
    select mask g4 h.l4⟩

/-- `poly_finish`: the limbs as four words, and the rest of the key added. -/
def addKey (h : Limbs) (s : List ℕ) : List UInt8 :=
  let h0 := h.l0 ||| u32 (h.l1 <<< 26)
  let h1 := h.l1 >>> 6 ||| u32 (h.l2 <<< 20)
  let h2 := h.l2 >>> 12 ||| u32 (h.l3 <<< 14)
  let h3 := h.l3 >>> 18 ||| u32 (h.l4 <<< 8)
  let f := u64 (h0 + s.getD 0 0)
  let h0 := u32 f
  let f := u64 (h1 + s.getD 1 0 + f >>> 32)
  let h1 := u32 f
  let f := u64 (h2 + s.getD 2 0 + f >>> 32)
  let h2 := u32 f
  let f := u64 (h3 + s.getD 3 0 + f >>> 32)
  let h3 := u32 f
  bytesLE 4 h0 ++ bytesLE 4 h1 ++ bytesLE 4 h2 ++ bytesLE 4 h3

/-- The last block, with the mark behind it. -/
def lastBlock (rest : List UInt8) : List UInt8 :=
  (overwrite (overwrite (Vector.replicate 16 0) 0 rest) rest.length [1]).toList

/-- `poly_finish` -/
def polyFinish (p : PolyCtx) : List UInt8 :=
  let h := if p.buf_len ≠ 0 then polyBlock p.r p.h (lastBlock (p.buf.toList.take p.buf_len)) 0 else p.h
  addKey (freeze (settle h)) p.s

/-- `poly1305_mac`, with its context where `p` is. -/
def poly1305Mac (p : PolyCtx) (msg key : List UInt8) : List UInt8 :=
  polyFinish (polyUpdate (polyInit p key) msg)

/-! ## A block -/

variable {h r a d x : Limbs} {m key : List UInt8} {hibit b1 b4 : ℕ} {p : PolyCtx}

theorem le32_eq (p : List UInt8) (o : ℕ) : le32 p o = ofBytesLE p / 256 ^ o % 2 ^ 32 := by
  rw [le32, ofBytesLE_take, ofBytesLE_drop]
  rfl

theorem and_mask26 (x : ℕ) : x &&& 0x3ffffff = x % 2 ^ 26 := Nat.and_two_pow_sub_one_eq_mod x 26

theorem mod26_lt (x : ℕ) : x % 2 ^ 26 < 2 ^ 26 := Nat.mod_lt x (Nat.two_pow_pos 26)

/-- Limbs of 26 bits, but for the second and the last, which have bounds of their own. -/
structure Limbs.Within (x : Limbs) (b1 b4 : ℕ) : Prop where
  l0 : x.l0 < 2 ^ 26
  l1 : x.l1 < b1
  l2 : x.l2 < 2 ^ 26
  l3 : x.l3 < 2 ^ 26
  l4 : x.l4 < b4

/-- What a number is between two blocks. -/
abbrev Limbs.Small (x : Limbs) : Prop := x.Within (2 ^ 26 + 2 ^ 6) (2 ^ 26)

/-- What the factor is. -/
abbrev Limbs.Clamped (x : Limbs) : Prop := x.Within (2 ^ 26) (2 ^ 20)

abbrev Limbs.Digits (x : Limbs) : Prop := x.Within (2 ^ 26) (2 ^ 26)

def Limbs.Below (x : Limbs) (n : ℕ) : Prop :=
  x.l0 ≤ n ∧ x.l1 ≤ n ∧ x.l2 ≤ n ∧ x.l3 ≤ n ∧ x.l4 ≤ n

theorem addBlock_spec (hh : h.Small) (hm : m.length = 16) (hhi : hibit = 0 ∨ hibit = 1 <<< 24) :
    (addBlock h m hibit).val = h.val + ofBytesLE m + 2 ^ 104 * hibit ∧
      (addBlock h m hibit).Below (2 ^ 27 + 2 ^ 6) := by
  obtain ⟨h0, h1, h2, h3, h4⟩ := hh
  have hM := ofBytesLE_lt m
  rw [hm] at hM
  have htop : ∀ x : ℕ, x < 2 ^ 24 → x ||| hibit = x + hibit := fun x hx => by
    rcases hhi with rfl | rfl
    · rw [Nat.or_zero, Nat.add_zero]
    · rw [Nat.or_comm, ← Nat.shiftLeft_add_eq_or_of_lt hx, Nat.add_comm]
  have hhi' : hibit = 0 ∨ hibit = 2 ^ 24 := hhi
  simp only [addBlock, Limbs.val, Limbs.Below, le32_eq, and_mask26, Nat.shiftRight_eq_div_pow, u32]
  generalize ofBytesLE m = M at *
  rw [htop _ (by omega)]
  omega

/-- A sum of five products, where each factor has a bound. -/
theorem dot_le {a0 a1 a2 a3 a4 b0 b1 b2 b3 b4 n m : ℕ} (ha : a0 ≤ n ∧ a1 ≤ n ∧ a2 ≤ n ∧ a3 ≤ n ∧ a4 ≤ n)
    (h0 : b0 ≤ m) (h1 : b1 ≤ m) (h2 : b2 ≤ m) (h3 : b3 ≤ m) (h4 : b4 ≤ m) :
    a0 * b0 + a1 * b1 + a2 * b2 + a3 * b3 + a4 * b4 ≤ 5 * (n * m) := by
  obtain ⟨ha0, ha1, ha2, ha3, ha4⟩ := ha
  have e0 := Nat.mul_le_mul ha0 h0
  have e1 := Nat.mul_le_mul ha1 h1
  have e2 := Nat.mul_le_mul ha2 h2
  have e3 := Nat.mul_le_mul ha3 h3
  have e4 := Nat.mul_le_mul ha4 h4
  omega

theorem product_spec (ha : a.Below (2 ^ 27 + 2 ^ 6)) (hr : r.Clamped) :
    (∃ k, a.val * r.val = (product a r).val + Poly1305.prime * k) ∧
      (product a r).Below (2 ^ 58 - 2 ^ 33) ∧ (product a r).l4 < 2 ^ 55 + 2 ^ 50 := by
  obtain ⟨h0, h1, h2, h3, h4⟩ := hr
  have hr : ∀ x < 2 ^ 26, x ≤ 2 ^ 26 * 5 := fun x hx => by omega
  have hs : ∀ x < 2 ^ 26, x * 5 ≤ 2 ^ 26 * 5 ∧ u32 (x * 5) = x * 5 := fun x hx =>
    ⟨by omega, Nat.mod_eq_of_lt (by omega)⟩
  have h4' : r.l4 < 2 ^ 26 := by omega
  obtain ⟨s1, e1⟩ := hs _ h1
  obtain ⟨s2, e2⟩ := hs _ h2
  obtain ⟨s3, e3⟩ := hs _ h3
  obtain ⟨s4, e4⟩ := hs _ h4'
  have d0 := dot_le ha (hr _ h0) s4 s3 s2 s1
  have d1 := dot_le ha (hr _ h1) (hr _ h0) s4 s3 s2
  have d2 := dot_le ha (hr _ h2) (hr _ h1) (hr _ h0) s4 s3
  have d3 := dot_le ha (hr _ h3) (hr _ h2) (hr _ h1) (hr _ h0) s4
  have d4 : a.l0 * r.l4 + a.l1 * r.l3 + a.l2 * r.l2 + a.l3 * r.l1 + a.l4 * r.l0 < 2 ^ 55 + 2 ^ 50 := by
    have f0 := Nat.mul_le_mul ha.1 h4.le
    have f1 := Nat.mul_le_mul ha.2.1 h3.le
    have f2 := Nat.mul_le_mul ha.2.2.1 h2.le
    have f3 := Nat.mul_le_mul ha.2.2.2.1 h1.le
    have f4 := Nat.mul_le_mul ha.2.2.2.2 h0.le
    omega
  have hu : ∀ x ≤ 2 ^ 58 - 2 ^ 33, u64 x = x := fun x hx => Nat.mod_eq_of_lt (by omega)
  rw [product, e1, e2, e3, e4, hu _ (by omega), hu _ (by omega), hu _ (by omega), hu _ (by omega),
    hu _ (by omega)]
  refine ⟨⟨a.l1 * r.l4 + a.l2 * r.l3 + a.l3 * r.l2 + a.l4 * r.l1 +
    2 ^ 26 * (a.l2 * r.l4 + a.l3 * r.l3 + a.l4 * r.l2) + 2 ^ 52 * (a.l3 * r.l4 + a.l4 * r.l3) +
    2 ^ 78 * (a.l4 * r.l4), ?_⟩, ?_, d4⟩
  · rw [Limbs.val, Limbs.val, Limbs.val, Poly1305.prime]
    ring
  · rw [Limbs.Below]
    dsimp only
    omega

theorem carryOut_eq {d : ℕ} (h : d < 2 ^ 58) : carryOut d = d / 2 ^ 26 := by
  rw [carryOut, u32, Nat.shiftRight_eq_div_pow]
  omega

theorem low26_eq (d : ℕ) : low26 d = d % 2 ^ 26 := by
  rw [low26, and_mask26, u32]
  omega

theorem carryAll_spec (hd : d.Below (2 ^ 58 - 2 ^ 33)) (h4 : d.l4 < 2 ^ 55 + 2 ^ 50) :
    (carryAll d).Small ∧ ∃ k, d.val = (carryAll d).val + Poly1305.prime * k := by
  obtain ⟨h0, h1, h2, h3, -⟩ := hd
  obtain ⟨d1, hd1⟩ : ∃ d1, d1 = d.l1 + d.l0 / 2 ^ 26 := ⟨_, rfl⟩
  obtain ⟨d2, hd2⟩ : ∃ d2, d2 = d.l2 + d1 / 2 ^ 26 := ⟨_, rfl⟩
  obtain ⟨d3, hd3⟩ : ∃ d3, d3 = d.l3 + d2 / 2 ^ 26 := ⟨_, rfl⟩
  obtain ⟨d4, hd4⟩ : ∃ d4, d4 = d.l4 + d3 / 2 ^ 26 := ⟨_, rfl⟩
  obtain ⟨e, he⟩ : ∃ e, e = d.l0 % 2 ^ 26 + d4 / 2 ^ 26 * 5 := ⟨_, rfl⟩
  have e1 : u64 (d.l1 + d.l0 / 2 ^ 26) = d1 := by rw [u64]; omega
  have e2 : u64 (d.l2 + d1 / 2 ^ 26) = d2 := by rw [u64]; omega
  have e3 : u64 (d.l3 + d2 / 2 ^ 26) = d3 := by rw [u64]; omega
  have e4 : u64 (d.l4 + d3 / 2 ^ 26) = d4 := by rw [u64]; omega
  have hlow : d4 < 2 ^ 55 + 2 ^ 51 := by omega
  have e5 : u32 (d.l0 % 2 ^ 26 + u32 (d4 / 2 ^ 26 * 5)) = e := by rw [u32, u32]; omega
  have e6 : u32 (d1 % 2 ^ 26 + e / 2 ^ 26) = d1 % 2 ^ 26 + e / 2 ^ 26 := by rw [u32]; omega
  have hlt : d3 < 2 ^ 58 := by omega
  have hval : carryAll d = ⟨e % 2 ^ 26, d1 % 2 ^ 26 + e / 2 ^ 26, d2 % 2 ^ 26, d3 % 2 ^ 26,
      d4 % 2 ^ 26⟩ := by
    rw [carryAll, carryOut_eq (d := d.l0) (by omega), e1, carryOut_eq (d := d1) (by omega), e2,
      carryOut_eq (d := d2) (by omega), e3, carryOut_eq hlt, e4, carryOut_eq (d := d4) (by omega),
      low26_eq, low26_eq, low26_eq, low26_eq, low26_eq, e5, and_mask26, Nat.shiftRight_eq_div_pow, e6]
  rw [hval]
  refine ⟨⟨mod26_lt e, ?_, mod26_lt d2, mod26_lt d3, mod26_lt d4⟩, d4 / 2 ^ 26, ?_⟩
  · change d1 % 2 ^ 26 + e / 2 ^ 26 < _
    omega
  · rw [Limbs.val, Limbs.val, Poly1305.prime]
    dsimp only
    omega

theorem polyBlock_spec (hr : r.Clamped) (hh : h.Small)
    (hm : m.length = 16) (hhi : hibit = 0 ∨ hibit = 1 <<< 24) :
    (polyBlock r h m hibit).Small ∧
      (polyBlock r h m hibit).val ≡ (h.val + ofBytesLE m + 2 ^ 104 * hibit) * r.val [MOD Poly1305.prime] := by
  obtain ⟨hval, hbelow⟩ := addBlock_spec hh hm hhi
  obtain ⟨⟨k, hk⟩, hb, h4⟩ := product_spec hbelow hr
  obtain ⟨hsmall, j, hj⟩ := carryAll_spec hb h4
  refine ⟨hsmall, ?_⟩
  rw [← hval, hk, hj, polyBlock, add_assoc, ← Nat.mul_add]
  exact (Nat.modEq_add_modulus_mul_iff.mpr rfl)

/-! ## The factor -/

/-- A conjunction of bits in two parts. -/
theorem and_split (x m k : ℕ) :
    x &&& m = (x % 2 ^ k &&& m % 2 ^ k) + 2 ^ k * (x / 2 ^ k &&& m / 2 ^ k) := by
  rw [← Nat.and_mod_two_pow, ← Nat.and_div_two_pow, Nat.mod_add_div]

theorem mod_and {m k : ℕ} (x : ℕ) (hm : m < 2 ^ k) : x % 2 ^ k &&& m = x &&& m := by
  have hle : x &&& m < 2 ^ k := Nat.and_le_right.trans_lt hm
  rw [← Nat.mod_eq_of_lt hle, Nat.and_mod_two_pow, Nat.mod_eq_of_lt hm]

theorem clampLimbs_spec (key : List UInt8) : (clampLimbs key).Clamped ∧
    (clampLimbs key).val = ofBytesLE (key.take 16) &&& Poly1305.mask := by
  have hand : ∀ {x m n : ℕ}, m < n → x &&& m < n := fun h => Nat.and_le_right.trans_lt h
  refine ⟨⟨hand (by decide), hand (by decide), hand (by decide), hand (by decide), hand (by decide)⟩, ?_⟩
  obtain ⟨K, hK⟩ : ∃ K, K = ofBytesLE key % 2 ^ 128 := ⟨_, rfl⟩
  have h0 : le32 key 0 % 2 ^ 26 = K % 2 ^ 26 := by rw [le32_eq]; omega
  have h1 : (le32 key 3 >>> 2) % 2 ^ 26 = K / 2 ^ 26 % 2 ^ 26 := by
    rw [le32_eq, Nat.shiftRight_eq_div_pow]; omega
  have h2 : (le32 key 6 >>> 4) % 2 ^ 26 = K / 2 ^ 26 / 2 ^ 26 % 2 ^ 26 := by
    rw [le32_eq, Nat.shiftRight_eq_div_pow]; omega
  have h3 : (le32 key 9 >>> 6) % 2 ^ 26 = K / 2 ^ 26 / 2 ^ 26 / 2 ^ 26 % 2 ^ 26 := by
    rw [le32_eq, Nat.shiftRight_eq_div_pow]; omega
  have h4 : le32 key 12 >>> 8 = K / 2 ^ 26 / 2 ^ 26 / 2 ^ 26 / 2 ^ 26 := by
    rw [le32_eq, Nat.shiftRight_eq_div_pow]; omega
  have hsplit : K &&& Poly1305.mask = (K % 2 ^ 26 &&& 0x3ffffff) + 2 ^ 26 * ((K / 2 ^ 26 % 2 ^ 26 &&& 0x3ffff03) +
      2 ^ 26 * ((K / 2 ^ 26 / 2 ^ 26 % 2 ^ 26 &&& 0x3ffc0ff) +
      2 ^ 26 * ((K / 2 ^ 26 / 2 ^ 26 / 2 ^ 26 % 2 ^ 26 &&& 0x3f03fff) +
      2 ^ 26 * (K / 2 ^ 26 / 2 ^ 26 / 2 ^ 26 / 2 ^ 26 &&& 0x00fffff)))) := by
    rw [and_split K Poly1305.mask 26, and_split (K / 2 ^ 26) (Poly1305.mask / 2 ^ 26) 26,
      and_split (K / 2 ^ 26 / 2 ^ 26) (Poly1305.mask / 2 ^ 26 / 2 ^ 26) 26,
      and_split (K / 2 ^ 26 / 2 ^ 26 / 2 ^ 26) (Poly1305.mask / 2 ^ 26 / 2 ^ 26 / 2 ^ 26) 26]
    rfl
  rw [ofBytesLE_take, show 256 ^ 16 = 2 ^ 128 from rfl, ← hK, hsplit, ← h0, ← h1, ← h2, ← h3, ← h4,
    mod_and _ (by decide), mod_and _ (by decide), mod_and _ (by decide), mod_and _ (by decide),
    Limbs.val, clampLimbs]
  ring

/-! ## The number below the prime -/

theorem settle_spec (hh : h.Small) :
    (settle h).Digits ∧ ∃ k, h.val = (settle h).val + Poly1305.prime * k := by
  obtain ⟨h0, h1, h2, h3, h4⟩ := hh
  obtain ⟨x2, hx2⟩ : ∃ x, x = h.l2 + h.l1 / 2 ^ 26 := ⟨_, rfl⟩
  obtain ⟨x3, hx3⟩ : ∃ x, x = h.l3 + x2 / 2 ^ 26 := ⟨_, rfl⟩
  obtain ⟨x4, hx4⟩ : ∃ x, x = h.l4 + x3 / 2 ^ 26 := ⟨_, rfl⟩
  obtain ⟨x0, hx0⟩ : ∃ x, x = h.l0 + x4 / 2 ^ 26 * 5 := ⟨_, rfl⟩
  have e2 : u32 (h.l2 + h.l1 / 2 ^ 26) = x2 := by rw [u32]; omega
  have e3 : u32 (h.l3 + x2 / 2 ^ 26) = x3 := by rw [u32]; omega
  have e4 : u32 (h.l4 + x3 / 2 ^ 26) = x4 := by rw [u32]; omega
  have e0 : u32 (h.l0 + u32 (x4 / 2 ^ 26 * 5)) = x0 := by rw [u32, u32]; omega
  have e1 : u32 (h.l1 % 2 ^ 26 + x0 / 2 ^ 26) = h.l1 % 2 ^ 26 + x0 / 2 ^ 26 := by rw [u32]; omega
  have hval : settle h = ⟨x0 % 2 ^ 26, h.l1 % 2 ^ 26 + x0 / 2 ^ 26, x2 % 2 ^ 26, x3 % 2 ^ 26,
      x4 % 2 ^ 26⟩ := by
    simp only [settle, Nat.shiftRight_eq_div_pow, and_mask26, e2, e3, e4, e0, e1]
  rw [hval]
  refine ⟨⟨mod26_lt x0, ?_, mod26_lt x2, mod26_lt x3, mod26_lt x4⟩, x4 / 2 ^ 26, ?_⟩
  · change h.l1 % 2 ^ 26 + x0 / 2 ^ 26 < _
    omega
  · rw [Limbs.val, Limbs.val, Poly1305.prime]
    dsimp only
    omega

theorem select_all (g h : ℕ) (hg : g < 2 ^ 32) : select (2 ^ 32 - 1) g h = g := by
  rw [select, Nat.sub_self, Nat.and_zero, Nat.zero_or, Nat.and_two_pow_sub_one_eq_mod,
    Nat.mod_eq_of_lt hg]

theorem select_none (g h : ℕ) (hh : h < 2 ^ 32) : select 0 g h = h := by
  rw [select, Nat.sub_zero, Nat.and_zero, Nat.or_zero, Nat.and_two_pow_sub_one_eq_mod,
    Nat.mod_eq_of_lt hh]

theorem freeze_spec (hh : h.Digits) :
    (freeze h).Digits ∧ (freeze h).val = h.val % Poly1305.prime := by
  obtain ⟨h0, h1, h2, h3, h4⟩ := hh
  obtain ⟨x0, hx0⟩ : ∃ x, x = h.l0 + 5 := ⟨_, rfl⟩
  obtain ⟨x1, hx1⟩ : ∃ x, x = h.l1 + x0 / 2 ^ 26 := ⟨_, rfl⟩
  obtain ⟨x2, hx2⟩ : ∃ x, x = h.l2 + x1 / 2 ^ 26 := ⟨_, rfl⟩
  obtain ⟨x3, hx3⟩ : ∃ x, x = h.l3 + x2 / 2 ^ 26 := ⟨_, rfl⟩
  obtain ⟨x4, hx4⟩ : ∃ x, x = h.l4 + x3 / 2 ^ 26 := ⟨_, rfl⟩
  have e0 : u32 (h.l0 + 5) = x0 := by rw [u32]; omega
  have e1 : u32 (h.l1 + x0 / 2 ^ 26) = x1 := by rw [u32]; omega
  have e2 : u32 (h.l2 + x1 / 2 ^ 26) = x2 := by rw [u32]; omega
  have e3 : u32 (h.l3 + x2 / 2 ^ 26) = x3 := by rw [u32]; omega
  have hval : freeze h = if x4 < 2 ^ 26 then h else
      ⟨x0 % 2 ^ 26, x1 % 2 ^ 26, x2 % 2 ^ 26, x3 % 2 ^ 26, x4 - 2 ^ 26⟩ := by
    simp only [freeze, Nat.shiftRight_eq_div_pow, and_mask26, e0, e1, e2, e3, ← hx4]
    split_ifs with hlt
    · have hmask : u32 (u32 (x4 + (2 ^ 32 - 1 <<< 26)) / 2 ^ 31 + (2 ^ 32 - 1)) = 0 := by
        simp only [u32, Nat.shiftLeft_eq]
        omega
      rw [hmask, select_none _ _ (by omega), select_none _ _ (by omega), select_none _ _ (by omega),
        select_none _ _ (by omega), select_none _ _ (by omega)]
    · have hg : u32 (x4 + (2 ^ 32 - 1 <<< 26)) = x4 - 2 ^ 26 := by
        simp only [u32, Nat.shiftLeft_eq]
        omega
      have hmask : u32 ((x4 - 2 ^ 26) / 2 ^ 31 + (2 ^ 32 - 1)) = 2 ^ 32 - 1 := by
        rw [u32]
        omega
      rw [hg, hmask, select_all _ _ (by omega), select_all _ _ (by omega), select_all _ _ (by omega),
        select_all _ _ (by omega), select_all _ _ (by omega)]
  rw [hval]
  split_ifs with hlt
  · refine ⟨⟨h0, h1, h2, h3, h4⟩, (Nat.mod_eq_of_lt ?_).symm⟩
    rw [Limbs.val, Poly1305.prime]
    omega
  · refine ⟨⟨mod26_lt x0, mod26_lt x1, mod26_lt x2, mod26_lt x3, ?_⟩, ?_⟩
    · change x4 - 2 ^ 26 < _
      omega
    · have hsub : h.val % Poly1305.prime = h.val - Poly1305.prime := by
        rw [Nat.mod_eq_sub_mod, Nat.mod_eq_of_lt] <;> rw [Limbs.val, Poly1305.prime] <;> omega
      rw [hsub, Limbs.val, Limbs.val, Poly1305.prime]
      dsimp only
      omega

/-- Sixteen bytes as four words. -/
theorem bytesLE_words (x : ℕ) : bytesLE 16 x = bytesLE 4 (x % 2 ^ 32) ++ bytesLE 4 (x / 2 ^ 32 % 2 ^ 32) ++
    bytesLE 4 (x / 2 ^ 32 / 2 ^ 32 % 2 ^ 32) ++ bytesLE 4 (x / 2 ^ 32 / 2 ^ 32 / 2 ^ 32 % 2 ^ 32) := by
  have h := fun v => bytesLE_mod 4 v
  rw [show (256 : ℕ) ^ 4 = 2 ^ 32 from rfl] at h
  rw [h, h, h, h]
  rw [Nat.div_div_eq_div_mul, Nat.div_div_eq_div_mul]
  exact (bytesLE_add 12 4 x).trans (congrArg (· ++ _) ((bytesLE_add 8 4 x).trans
    (congrArg (· ++ _) (bytesLE_add 4 4 x))))

/-- The words of a sum, with the carries from one to the next. -/
theorem sum_words (w0 w1 w2 w3 s0 s1 s2 s3 t : ℕ) :
    let f0 := w0 + s0
    let f1 := w1 + s1 + f0 / 2 ^ 32
    let f2 := w2 + s2 + f1 / 2 ^ 32
    let f3 := w3 + s3 + f2 / 2 ^ 32
    bytesLE 16 (w0 + 2 ^ 32 * w1 + 2 ^ 64 * w2 + 2 ^ 96 * w3 + 2 ^ 128 * t +
      (s0 + 2 ^ 32 * s1 + 2 ^ 64 * s2 + 2 ^ 96 * s3)) =
        bytesLE 4 (u32 f0) ++ bytesLE 4 (u32 f1) ++ bytesLE 4 (u32 f2) ++ bytesLE 4 (u32 f3) := by
  intro f0 f1 f2 f3
  have hdiv : ∀ a b, (a + 2 ^ 32 * b) / 2 ^ 32 = b + a / 2 ^ 32 := fun a b => by
    rw [Nat.add_mul_div_left _ _ (Nat.two_pow_pos 32), Nat.add_comm]
  obtain ⟨y3, hy3⟩ : ∃ y, y = w3 + s3 + 2 ^ 32 * t := ⟨_, rfl⟩
  obtain ⟨y2, hy2⟩ : ∃ y, y = w2 + s2 + 2 ^ 32 * y3 := ⟨_, rfl⟩
  obtain ⟨y1, hy1⟩ : ∃ y, y = w1 + s1 + 2 ^ 32 * y2 := ⟨_, rfl⟩
  have hx : w0 + 2 ^ 32 * w1 + 2 ^ 64 * w2 + 2 ^ 96 * w3 + 2 ^ 128 * t +
      (s0 + 2 ^ 32 * s1 + 2 ^ 64 * s2 + 2 ^ 96 * s3) = f0 + 2 ^ 32 * y1 := by
    rw [hy1, hy2, hy3]
    ring
  have h1 : (f0 + 2 ^ 32 * y1) / 2 ^ 32 = f1 + 2 ^ 32 * y2 := by
    rw [hdiv, hy1, Nat.add_right_comm]
  have h2 : (f1 + 2 ^ 32 * y2) / 2 ^ 32 = f2 + 2 ^ 32 * y3 := by
    rw [hdiv, hy2, Nat.add_right_comm]
  have h3 : (f2 + 2 ^ 32 * y3) / 2 ^ 32 = f3 + 2 ^ 32 * t := by
    rw [hdiv, hy3, Nat.add_right_comm]
  rw [hx, bytesLE_words, h1, h2, h3]
  simp only [Nat.add_mul_mod_self_left, u32]

theorem addKey_eq (hh : h.Digits) {s : List ℕ} (hs : ∀ i < 4, s.getD i 0 < 2 ^ 32) : addKey h s =
    bytesLE 16 (h.val + (s.getD 0 0 + 2 ^ 32 * s.getD 1 0 + 2 ^ 64 * s.getD 2 0 + 2 ^ 96 * s.getD 3 0)) := by
  obtain ⟨h0, h1, h2, h3, h4⟩ := hh
  have hs0 := hs 0 (by decide)
  have hs1 := hs 1 (by decide)
  have hs2 := hs 2 (by decide)
  have hs3 := hs 3 (by decide)
  obtain ⟨w0, hw0⟩ : ∃ w, w = (h.l0 + 2 ^ 26 * h.l1) % 2 ^ 32 := ⟨_, rfl⟩
  obtain ⟨w1, hw1⟩ : ∃ w, w = (h.l1 / 2 ^ 6 + 2 ^ 20 * h.l2) % 2 ^ 32 := ⟨_, rfl⟩
  obtain ⟨w2, hw2⟩ : ∃ w, w = (h.l2 / 2 ^ 12 + 2 ^ 14 * h.l3) % 2 ^ 32 := ⟨_, rfl⟩
  obtain ⟨w3, hw3⟩ : ∃ w, w = (h.l3 / 2 ^ 18 + 2 ^ 8 * h.l4) % 2 ^ 32 := ⟨_, rfl⟩
  have e0 : h.l0 ||| u32 (h.l1 <<< 26) = w0 := hw0 ▸ or_shiftLeft_mod _ h0 (by decide)
  have e1 : h.l1 / 2 ^ 6 ||| u32 (h.l2 <<< 20) = w1 := hw1 ▸ or_shiftLeft_mod _ (by omega) (by decide)
  have e2 : h.l2 / 2 ^ 12 ||| u32 (h.l3 <<< 14) = w2 := hw2 ▸ or_shiftLeft_mod _ (by omega) (by decide)
  have e3 : h.l3 / 2 ^ 18 ||| u32 (h.l4 <<< 8) = w3 := hw3 ▸ or_shiftLeft_mod _ (by omega) (by decide)
  have hval : h.val = w0 + 2 ^ 32 * w1 + 2 ^ 64 * w2 + 2 ^ 96 * w3 + 2 ^ 128 * (h.l4 / 2 ^ 24) := by
    rw [Limbs.val]
    omega
  have hf : ∀ w s c, w < 2 ^ 32 → s < 2 ^ 32 → c < 2 ^ 32 → u64 (w + s + c) = w + s + c :=
    fun w s c h1 h2 h3 => Nat.mod_eq_of_lt (by omega)
  have hf0 : u64 (w0 + s.getD 0 0) = w0 + s.getD 0 0 := hf w0 _ 0 (by omega) hs0 (by decide)
  simp only [addKey, Nat.shiftRight_eq_div_pow, e0, e1, e2, e3]
  rw [hf0, hf w1 _ _ (by omega) hs1 (by omega), hf w2 _ _ (by omega) hs2 (by omega),
    hf w3 _ _ (by omega) hs3 (by omega), hval]
  exact (sum_words ..).symm

/-! ## The stream -/

namespace PolyCtx

/-- The number after the blocks taken in, and what is there of the next. -/
def view (p : PolyCtx) : Limbs × List UInt8 := (p.h, p.buf.toList.take p.buf_len)

theorem length_view (hp : p.buf_len < 16) : p.view.2.length = p.buf_len := by
  rw [view, List.length_take, Vector.length_toList]
  exact min_eq_left hp.le

/-- The key stays, and the buffer is not full. -/
structure Kept (p q : PolyCtx) : Prop where
  r : q.r = p.r
  s : q.s = p.s
  lt : q.buf_len < 16

theorem view_takeBlocks (hp : p.buf_len = 0) (m : List UInt8) :
    (p.takeBlocks m).view = feed 16 p.step (p.h, []) m ∧ p.Kept (p.takeBlocks m) := by
  obtain ⟨heq, hlt⟩ := feed_wholeLoop (f := p.step) (by decide : 0 < 16) p.h m
  rw [heq, takeBlocks]
  generalize wholeLoop 16 p.step p.h m = w at hlt ⊢
  dsimp only
  split_ifs with h
  · have hbuf := take_overwrite (o := 0) p.buf w.2 (by rw [Nat.zero_add]; exact hlt.le)
    rw [Nat.zero_add, List.take_zero, List.nil_append] at hbuf
    exact ⟨Prod.ext rfl hbuf, rfl, rfl, hlt⟩
  · have hnil : w.2 = [] := List.length_eq_zero_iff.mp (not_not.mp h)
    refine ⟨Prod.ext rfl ?_, rfl, rfl, by rw [hp]; decide⟩
    rw [view, hp, List.take_zero, hnil]

/-- An update feeds the context the piece. -/
theorem view_polyUpdate (hp : p.buf_len < 16) (m : List UInt8) :
    (polyUpdate p m).view = feed 16 p.step p.view m ∧ p.Kept (polyUpdate p m) := by
  have hview : p.view = (p.h, p.view.2) := rfl
  have hr := length_view hp
  obtain ⟨n, hn⟩ : ∃ n, n = min (16 - p.buf_len) m.length := ⟨_, rfl⟩
  have hlen : (m.take n).length = n := by
    rw [List.length_take]
    omega
  have hfill : (overwrite p.buf p.buf_len (m.take n)).toList.take (p.buf_len + n) =
      p.view.2 ++ m.take n := by
    have h := take_overwrite p.buf (m.take n) (o := p.buf_len) (by omega)
    rwa [hlen] at h
  rw [polyUpdate]
  dsimp only
  rw [← hn]
  split_ifs with h0 hfull
  · -- the piece does not fill the buffer
    have hm : m.take n = m := List.take_of_length_le (by omega)
    rw [hview, feed_short (by omega)]
    rw [hm] at hfill ⊢
    exact ⟨Prod.ext rfl hfill, rfl, rfl, hfull⟩
  · have hne : m.take n ≠ [] := List.ne_nil_of_length_pos (by omega)
    have hwhole : (overwrite p.buf p.buf_len (m.take n)).toList = p.view.2 ++ m.take n := by
      rw [← hfill, show p.buf_len + n = 16 by omega]
      exact (List.take_of_length_le (Vector.length_toList.le)).symm
    have hfirst : feed 16 p.step p.view m =
        feed 16 p.step (p.step p.h (p.view.2 ++ m.take n), []) (m.drop n) := by
      conv_lhs => rw [← List.take_append_drop n m, feed_append, hview, feed_fill hne (by omega)]
    rw [hfirst, hwhole]
    obtain ⟨hv, hk⟩ := view_takeBlocks (p := { p with
      buf := overwrite p.buf p.buf_len (m.take n)
      buf_len := 0
      h := p.step p.h (p.view.2 ++ m.take n) }) rfl (m.drop n)
    exact ⟨hv, hk.r, hk.s, hk.lt⟩
  · rw [show p.view = (p.h, []) from Prod.ext rfl (by rw [view, not_not.mp h0, List.take_zero])]
    exact view_takeBlocks (not_not.mp h0) m

/-- The context has taken in the message `m`. -/
structure Holds (p : PolyCtx) (key m : List UInt8) : Prop where
  r : p.r = clampLimbs key
  s : p.s = (List.range 4).map fun i => le32 key (16 + 4 * i)
  lt : p.buf_len < 16
  view : p.view = feed 16 p.step (⟨0, 0, 0, 0, 0⟩, []) m

theorem holds_polyInit (p : PolyCtx) (key : List UInt8) : (polyInit p key).Holds key [] :=
  ⟨rfl, rfl, Nat.zero_lt_succ _, rfl⟩

theorem Holds.update (h : p.Holds key m) (l : List UInt8) : (polyUpdate p l).Holds key (m ++ l) := by
  obtain ⟨hview, hr, hs, hlt⟩ := view_polyUpdate h.lt l
  have hstep : (polyUpdate p l).step = p.step := by
    ext1 x
    ext1 b
    rw [step, step, hr]
  exact ⟨hr.trans h.r, hs.trans h.s, hlt, by rw [hview, hstep, h.view, feed_append]⟩

/-- However a message is cut, the context has taken in the whole. -/
theorem Holds.updates (h : p.Holds key m) (ls : List (List UInt8)) :
    (ls.foldl polyUpdate p).Holds key (m ++ ls.flatten) := by
  induction ls generalizing p m with
  | nil => simpa using h
  | cons l ls ih =>
    rw [List.foldl_cons, List.flatten_cons, ← List.append_assoc]
    exact ih (h.update l)

end PolyCtx

/-! ## The tag -/

/-- The limbs stand for the value of the polynomial so far. -/
def Follows (h : Limbs) (acc : ℕ) : Prop := h.Small ∧ h.val % Poly1305.prime = acc

theorem follows_polyBlock {acc hibit : ℕ} {b : List UInt8} (hr : r.Clamped) (h : Follows x acc)
    (hb : m.length = 16) (hhi : hibit = 0 ∨ hibit = 1 <<< 24)
    (hm : ofBytesLE m + 2 ^ 104 * hibit = ofBytesLE (b ++ [1])) :
    Follows (polyBlock r x m hibit) (Poly1305.absorb r.val acc b) := by
  obtain ⟨hsmall, hval⟩ := polyBlock_spec hr h.1 hb hhi
  refine ⟨hsmall, ?_⟩
  rw [hval, Nat.add_assoc, hm, Poly1305.absorb, ← h.2, ← Nat.mod_mul_mod, ← Nat.mod_add_mod,
    Nat.mod_mul_mod]

theorem follows_step (hr : p.r.Clamped) {b : List UInt8} {acc : ℕ} (hb : b.length = 16)
    (h : Follows x acc) : Follows (p.step x b) (Poly1305.absorb p.r.val acc b) :=
  follows_polyBlock hr h hb (.inr rfl) (by rw [ofBytesLE_append, hb]; rfl)

theorem lastBlock_eq {l : List UInt8} (h : l.length < 16) :
    lastBlock l = l ++ 1 :: List.replicate (16 - (l.length + 1)) 0 := by
  have hzeros : (overwrite (Vector.replicate 16 0) 0 l).toList = l ++ List.replicate (16 - l.length) 0 := by
    rw [toList_overwrite _ _ (by omega), List.take_zero, List.nil_append, Nat.zero_add,
      Vector.toList_replicate, List.drop_replicate]
  rw [lastBlock, toList_overwrite _ _ (by simpa using h), hzeros, List.take_left, List.length_singleton,
    List.drop_append, List.drop_of_length_le (Nat.le_succ _), List.drop_replicate, List.nil_append,
    Nat.add_sub_cancel_left, Nat.sub_sub]
  rfl

theorem polyFinish_eq (h : p.Holds key m) : polyFinish p = Poly1305.tag key m := by
  obtain ⟨hclamp, hmask⟩ := clampLimbs_spec key
  rw [← h.r] at hclamp hmask
  have hzero : Follows ⟨0, 0, 0, 0, 0⟩ 0 := ⟨⟨by decide, by decide, by decide, by decide, by decide⟩, rfl⟩
  obtain ⟨hfollow, hrest⟩ := feed_rel (r := []) (fun x acc b => follows_step hclamp) hzero m
  have hview : p.view = (p.h, p.view.2) := rfl
  rw [← h.view, hview] at hfollow hrest
  have hlen := p.length_view h.lt
  have hall : Follows (if p.buf_len ≠ 0 then polyBlock p.r p.h (lastBlock p.view.2) 0 else p.h)
      (Lib.blockLoop 16 (Poly1305.absorb p.r.val) 0 m) := by
    rw [blockLoop_eq_feed (by decide), ← hrest]
    split_ifs with h0 hnil hnil
    · rw [hnil] at hlen
      exact absurd hlen.symm h0
    · have hlt : p.view.2.length < 16 := hlen.trans_lt h.lt
      refine follows_polyBlock hclamp hfollow ?_ (.inl rfl) ?_
      · rw [lastBlock_eq hlt]
        simp
        omega
      · rw [lastBlock_eq hlt, ofBytesLE_padded, Nat.mul_zero, Nat.add_zero]
    · exact hfollow
    · rw [not_not.mp h0] at hlen
      exact absurd (List.length_eq_zero_iff.mp hlen) hnil
  obtain ⟨hsmall, hval⟩ := hall
  obtain ⟨hdigits, k, hk⟩ := settle_spec hsmall
  obtain ⟨hdigits', hmod⟩ := freeze_spec hdigits
  have hs : ∀ i < 4, p.s.getD i 0 = ofBytesLE key / 256 ^ 16 / (2 ^ 32) ^ i % 2 ^ 32 := fun i hi => by
    rw [h.s, getD_map_range _ hi, le32_eq, pow_add, Nat.pow_mul, Nat.div_div_eq_div_mul]
    rfl
  have hkey : p.s.getD 0 0 + 2 ^ 32 * p.s.getD 1 0 + 2 ^ 64 * p.s.getD 2 0 + 2 ^ 96 * p.s.getD 3 0 =
      ofBytesLE ((key.drop 16).take 16) := by
    rw [hs 0 (by decide), hs 1 (by decide), hs 2 (by decide), hs 3 (by decide), ofBytesLE_take,
      ofBytesLE_drop]
    omega
  have hlt : ∀ i < 4, p.s.getD i 0 < 2 ^ 32 := fun i hi => by
    rw [hs i hi]
    exact Nat.mod_lt _ (by decide)
  rw [hk, Nat.add_mul_mod_self_left] at hval
  have hfinish : polyFinish p = addKey (freeze (settle
    (if p.buf_len ≠ 0 then polyBlock p.r p.h (lastBlock p.view.2) 0 else p.h))) p.s := rfl
  rw [hfinish, addKey_eq hdigits' hlt, hmod, hval, hkey, Poly1305.tag, ← hmask]

/-- However a message is cut into pieces, empty ones included, the tag is that of RFC 8439 for the whole:
nothing wraps in the words, and it does not matter what the context held before.  `poly1305_mac` is the
case of one piece. -/
theorem poly_pieces (p : PolyCtx) (key : List UInt8) (ms : List (List UInt8)) :
    polyFinish (ms.foldl polyUpdate (polyInit p key)) = Poly1305.tag key ms.flatten ∧
      ∀ msg, poly1305Mac p msg key = Poly1305.tag key msg := by
  have h := (PolyCtx.holds_polyInit p key).updates ms
  rw [List.nil_append] at h
  exact ⟨polyFinish_eq h, fun msg => polyFinish_eq ((PolyCtx.holds_polyInit p key).update msg)⟩

end BananaOS.Crypto
