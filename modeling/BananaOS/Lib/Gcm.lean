import BananaOS.Lib.Aes
import BananaOS.Lib.Feed

/-!
# Galois/counter mode

The mode of SP 800-38D over any block cipher: blocks are strings of 128 bits, and the product of two in
`GF(2^128)` is the sum of the second one's shifts, one for each bit of the first that is set (`mul`).

* `mul_append`: the product can be taken several bits at a time.
* `blockLoop_padded`: a piece of a stream that is filled up with zeros.
-/

namespace BananaOS.Lib

namespace Gcm

/-- The block as a string of bits, the first one the highest. -/
def ofBlock (b : Block) : BitVec 128 :=
  let word := fun c : Aes.Col => word32 c.a c.b c.c c.d
  let s := Aes.ofBlock b
  (word s.w0 ++ word s.w1) ++ (word s.w2 ++ word s.w3)

def toBlock (v : BitVec 128) : Block := Vector.ofFn fun i : Fin 16 => lowByte (v >>> (8 * (15 - i.val)))

/-- Shifted by one bit, and reduced by the polynomial of the field. -/
def mulX (v : BitVec 128) : BitVec 128 := v >>> 1 ^^^ (if v.getLsbD 0 then 0xe1#128 <<< 120 else 0#128)

/-- The product; the bits of the first factor are listed, the highest first. -/
def mul : List Bool → BitVec 128 → BitVec 128
  | [], _ => 0#128
  | b :: bs, v => (if b then v else 0#128) ^^^ mul bs (mulX v)

/-- The bits of bytes, the highest of each first. -/
def bits (l : List UInt8) : List Bool := l.flatMap fun b => (List.range 8).map b.toBitVec.getMsbD

/-- A block of these bytes, with zeros behind them. -/
def padded (l : List UInt8) : Block := Vector.ofFn fun i : Fin 16 => l.getD i 0

def ghashStep (h y : Block) (l : List UInt8) : Block :=
  toBlock (mul (bits (Vector.zipWith (· ^^^ ·) y (padded l)).toList) (ofBlock h))

def ghash (h : Block) (l : List UInt8) : Block := blockLoop 16 (ghashStep h) (padded []) l

/-- The counter block of a nonce of 96 bits. -/
def counterBlock (nonce : List UInt8) (c : ℕ) : Block := padded (nonce ++ bytesBE 4 c)

def encrypt (cipher : Block → Block) (nonce text : List UInt8) : List UInt8 :=
  text.mapIdx fun i b => b ^^^ (cipher (counterBlock nonce (2 + i / 16))).toList.getD (i % 16) 0

def tag (cipher : Block → Block) (nonce aad text : List UInt8) : Block :=
  Vector.zipWith (· ^^^ ·)
    (ghash (cipher (padded [])) (aad ++ padding aad ++ text ++ padding text ++
      bytesBE 8 (8 * aad.length) ++ bytesBE 8 (8 * text.length)))
    (cipher (counterBlock nonce 1))

/-- The encrypted text and its tag. -/
def sealed (cipher : Block → Block) (nonce aad text : List UInt8) : List UInt8 × Block :=
  (encrypt cipher nonce text, tag cipher nonce aad (encrypt cipher nonce text))

/-! ## The product -/

theorem mulX_xor (x y : BitVec 128) : mulX (x ^^^ y) = mulX x ^^^ mulX y := by
  have hbit : ∀ a b : Bool, (if (a ^^ b) = true then 0xe1#128 <<< 120 else 0#128) =
      (if a then 0xe1#128 <<< 120 else 0#128) ^^^ (if b then 0xe1#128 <<< 120 else 0#128) := by decide
  rw [mulX, mulX, mulX, BitVec.ushiftRight_xor_distrib, BitVec.getLsbD_xor, hbit]
  ac_rfl

theorem mulX_zero : mulX 0#128 = 0#128 := by decide

theorem mul_mulX (bs : List Bool) (v : BitVec 128) : mul bs (mulX v) = mulX (mul bs v) := by
  induction bs generalizing v with
  | nil => exact mulX_zero.symm
  | cons b bs ih =>
    rw [mul, mul, mulX_xor, ih]
    cases b
    · rw [if_neg (Bool.false_ne_true), if_neg (Bool.false_ne_true), mulX_zero]
    · rw [if_pos rfl, if_pos rfl]

theorem mul_append (as bs : List Bool) (v : BitVec 128) :
    mul (as ++ bs) v = mul as v ^^^ mulX^[as.length] (mul bs v) := by
  induction as generalizing v with
  | nil => exact (BitVec.zero_xor).symm
  | cons a as ih =>
    rw [List.cons_append, mul, ih, mul, List.length_cons, Function.iterate_succ_apply, mul_mulX,
      mul_mulX, BitVec.xor_assoc]

/-! ## Streams with zeros -/

theorem blockLoop_padded {σ : Type*} {f : σ → List UInt8 → σ}
    (hf : ∀ s l n, l.length + n = 16 → f s (l ++ List.replicate n 0) = f s l) (s : σ) (l m : List UInt8) :
    blockLoop 16 f s (l ++ padding l ++ m) = blockLoop 16 f (blockLoop 16 f s l) m := by
  induction hn : l.length using Nat.strong_induction_on generalizing s l with
  | _ n ih =>
    rcases eq_or_ne l [] with rfl | hl
    · rw [blockLoop_nil]
      rfl
    have hpos := List.length_pos_iff.mpr hl
    rw [blockLoop_step (by decide) s hl, blockLoop_step (by decide) s (by simp [hl])]
    rcases Nat.lt_or_ge l.length 16 with h | h
    · have hpad : padding l = List.replicate (16 - l.length) 0 := by
        rw [padding, Nat.mod_eq_of_lt h, Nat.mod_eq_of_lt (by omega)]
      have hlen : (l ++ padding l).length = 16 := by
        rw [hpad, List.length_append, List.length_replicate]
        omega
      rw [List.take_left' hlen, List.drop_left' hlen, List.drop_eq_nil_of_le h.le,
        List.take_of_length_le h.le, blockLoop_nil, hpad, hf s l _ (by omega)]
    · have hpad : padding (l.drop 16) = padding l := by
        rw [padding, padding, List.length_drop, ← Nat.mod_eq_sub_mod h]
      rw [List.append_assoc, List.take_append_of_le_length h, List.drop_append_of_le_length h, ← hpad,
        ← List.append_assoc]
      exact ih _ (by rw [List.length_drop]; omega) _ _ rfl

end Gcm

end BananaOS.Lib
