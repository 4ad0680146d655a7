import BananaOS.Lib.Octets
import Mathlib.Logic.Function.Iterate
import Mathlib.Tactic.IntervalCases

/-!
# The cipher of FIPS 197

AES with keys of 128 bits, byte by byte: the field with 256 elements, the substitution as the inverse
there and an affine map, the state as four columns of four bytes.

* `mul_xor`: a product in the field is additive.
* `invMixColumn_mixColumn`, `mixColumn_invMixColumn`: the two maps of a column undo each other, from the
  products of one byte.
* `decrypt_encrypt`, `encrypt_decrypt`: so do the ciphers.
-/

namespace BananaOS.Lib

/-- A run that is undone step by step, the last one first. -/
theorem foldl_reverse_foldl {α β : Type*} {f g : β → α → β} {l : List α}
    (h : ∀ x ∈ l, ∀ s, g (f s x) x = s) (s : β) : l.reverse.foldl g (l.foldl f s) = s := by
  induction l generalizing s with
  | nil => rfl
  | cons x l ih =>
    rw [List.foldl_cons, List.reverse_cons, List.foldl_append, ih fun y hy => h y (.tail _ hy),
      List.foldl_cons, List.foldl_nil]
    exact h x (.head _) s

/-- Sixteen bytes. -/
abbrev Block := Vector UInt8 16

namespace Aes

/-! ## The field -/

/-- The product with `x`. -/
def xtime (b : UInt8) : UInt8 := (b <<< 1) ^^^ (if b &&& 0x80 ≠ 0 then 0x1b else 0)

/-- The sum of `a xⁱ` over the lowest `n` bits `i` of `b`. -/
def mulBits : ℕ → UInt8 → ℕ → UInt8
  | 0, _, _ => 0
  | n + 1, a, b => (if b % 2 = 1 then a else 0) ^^^ mulBits n (xtime a) (b / 2)

/-- The product in the field. -/
def mul (a b : UInt8) : UInt8 := mulBits 8 a b.toNat

/-- The elements by which each is multiplied to give one, and zero for zero (`mul_inv`). -/
def inverses : List UInt8 :=
  [0x00, 0x01, 0x8d, 0xf6, 0xcb, 0x52, 0x7b, 0xd1, 0xe8, 0x4f, 0x29, 0xc0, 0xb0, 0xe1, 0xe5, 0xc7,
    0x74, 0xb4, 0xaa, 0x4b, 0x99, 0x2b, 0x60, 0x5f, 0x58, 0x3f, 0xfd, 0xcc, 0xff, 0x40, 0xee, 0xb2,
    0x3a, 0x6e, 0x5a, 0xf1, 0x55, 0x4d, 0xa8, 0xc9, 0xc1, 0x0a, 0x98, 0x15, 0x30, 0x44, 0xa2, 0xc2,
    0x2c, 0x45, 0x92, 0x6c, 0xf3, 0x39, 0x66, 0x42, 0xf2, 0x35, 0x20, 0x6f, 0x77, 0xbb, 0x59, 0x19,
    0x1d, 0xfe, 0x37, 0x67, 0x2d, 0x31, 0xf5, 0x69, 0xa7, 0x64, 0xab, 0x13, 0x54, 0x25, 0xe9, 0x09,
    0xed, 0x5c, 0x05, 0xca, 0x4c, 0x24, 0x87, 0xbf, 0x18, 0x3e, 0x22, 0xf0, 0x51, 0xec, 0x61, 0x17,
    0x16, 0x5e, 0xaf, 0xd3, 0x49, 0xa6, 0x36, 0x43, 0xf4, 0x47, 0x91, 0xdf, 0x33, 0x93, 0x21, 0x3b,
    0x79, 0xb7, 0x97, 0x85, 0x10, 0xb5, 0xba, 0x3c, 0xb6, 0x70, 0xd0, 0x06, 0xa1, 0xfa, 0x81, 0x82,
    0x83, 0x7e, 0x7f, 0x80, 0x96, 0x73, 0xbe, 0x56, 0x9b, 0x9e, 0x95, 0xd9, 0xf7, 0x02, 0xb9, 0xa4,
    0xde, 0x6a, 0x32, 0x6d, 0xd8, 0x8a, 0x84, 0x72, 0x2a, 0x14, 0x9f, 0x88, 0xf9, 0xdc, 0x89, 0x9a,
    0xfb, 0x7c, 0x2e, 0xc3, 0x8f, 0xb8, 0x65, 0x48, 0x26, 0xc8, 0x12, 0x4a, 0xce, 0xe7, 0xd2, 0x62,
    0x0c, 0xe0, 0x1f, 0xef, 0x11, 0x75, 0x78, 0x71, 0xa5, 0x8e, 0x76, 0x3d, 0xbd, 0xbc, 0x86, 0x57,
    0x0b, 0x28, 0x2f, 0xa3, 0xda, 0xd4, 0xe4, 0x0f, 0xa9, 0x27, 0x53, 0x04, 0x1b, 0xfc, 0xac, 0xe6,
    0x7a, 0x07, 0xae, 0x63, 0xc5, 0xdb, 0xe2, 0xea, 0x94, 0x8b, 0xc4, 0xd5, 0x9d, 0xf8, 0x90, 0x6b,
    0xb1, 0x0d, 0xd6, 0xeb, 0xc6, 0x0e, 0xcf, 0xad, 0x08, 0x4e, 0xd7, 0xe3, 0x5d, 0x50, 0x1e, 0xb3,
    0x5b, 0x23, 0x38, 0x34, 0x68, 0x46, 0x03, 0x8c, 0xdd, 0x9c, 0x7d, 0xa0, 0xcd, 0x1a, 0x41, 0x1c]

/-- The multiplicative inverse. -/
def inv (b : UInt8) : UInt8 := inverses.getD b.toNat 0

def rotl (b : UInt8) (n : ℕ) : UInt8 := b <<< UInt8.ofNat n ||| b >>> UInt8.ofNat (8 - n)

/-- The substitution: the inverse, and an affine map. -/
def sbox (b : UInt8) : UInt8 :=
  let x := inv b
  x ^^^ rotl x 1 ^^^ rotl x 2 ^^^ rotl x 3 ^^^ rotl x 4 ^^^ 0x63

/-- The inverse of the affine map, and the inverse. -/
def invSbox (b : UInt8) : UInt8 := inv (rotl b 1 ^^^ rotl b 3 ^^^ rotl b 6 ^^^ 0x05)

/-! ## The state -/

/-- A column: four bytes. -/
@[ext] structure Col where
  a : UInt8
  b : UInt8
  c : UInt8
  d : UInt8
  deriving DecidableEq

/-- Four columns. -/
@[ext] structure State where
  w0 : Col
  w1 : Col
  w2 : Col
  w3 : Col
  deriving DecidableEq

namespace Col

def map (f : UInt8 → UInt8) (x : Col) : Col := ⟨f x.a, f x.b, f x.c, f x.d⟩

def xor (x y : Col) : Col := ⟨x.a ^^^ y.a, x.b ^^^ y.b, x.c ^^^ y.c, x.d ^^^ y.d⟩

/-- `RotWord` -/
def rot (x : Col) : Col := ⟨x.b, x.c, x.d, x.a⟩

/-- The product with a circulant matrix whose first row is `m`. -/
def dot (m x : Col) : Col where
  a := mul x.a m.a ^^^ mul x.b m.b ^^^ mul x.c m.c ^^^ mul x.d m.d
  b := mul x.a m.d ^^^ mul x.b m.a ^^^ mul x.c m.b ^^^ mul x.d m.c
  c := mul x.a m.c ^^^ mul x.b m.d ^^^ mul x.c m.a ^^^ mul x.d m.b
  d := mul x.a m.b ^^^ mul x.b m.c ^^^ mul x.c m.d ^^^ mul x.d m.a

end Col

def mixColumn (x : Col) : Col := Col.dot ⟨2, 3, 1, 1⟩ x

def invMixColumn (x : Col) : Col := Col.dot ⟨14, 11, 13, 9⟩ x

def State.map (f : Col → Col) (s : State) : State := ⟨f s.w0, f s.w1, f s.w2, f s.w3⟩

def subBytes (s : State) : State := s.map (Col.map sbox)

def invSubBytes (s : State) : State := s.map (Col.map invSbox)

/-- Row `r` is rotated by `r`. -/
def shiftRows (s : State) : State where
  w0 := ⟨s.w0.a, s.w1.b, s.w2.c, s.w3.d⟩
  w1 := ⟨s.w1.a, s.w2.b, s.w3.c, s.w0.d⟩
  w2 := ⟨s.w2.a, s.w3.b, s.w0.c, s.w1.d⟩
  w3 := ⟨s.w3.a, s.w0.b, s.w1.c, s.w2.d⟩

def invShiftRows (s : State) : State where
  w0 := ⟨s.w0.a, s.w3.b, s.w2.c, s.w1.d⟩
  w1 := ⟨s.w1.a, s.w0.b, s.w3.c, s.w2.d⟩
  w2 := ⟨s.w2.a, s.w1.b, s.w0.c, s.w3.d⟩
  w3 := ⟨s.w3.a, s.w2.b, s.w1.c, s.w0.d⟩

def mixColumns (s : State) : State := s.map mixColumn

def invMixColumns (s : State) : State := s.map invMixColumn

def addRoundKey (s k : State) : State :=
  ⟨s.w0.xor k.w0, s.w1.xor k.w1, s.w2.xor k.w2, s.w3.xor k.w3⟩

/-! ## The key and the ciphers -/

def rcon (j : ℕ) : Col := ⟨xtime^[j - 1] 1, 0, 0, 0⟩

/-- Word `i` of the key schedule. -/
def keyWord (key : State) (i : ℕ) : Col :=
  if i = 0 then key.w0 else if i = 1 then key.w1 else if i = 2 then key.w2 else if i = 3 then key.w3
  else (keyWord key (i - 4)).xor
    (if i % 4 = 0 then ((keyWord key (i - 1)).rot.map sbox).xor (rcon (i / 4))
    else keyWord key (i - 1))
termination_by i

/-- The key of round `r`. -/
def roundKey (key : State) (r : ℕ) : State :=
  ⟨keyWord key (4 * r), keyWord key (4 * r + 1), keyWord key (4 * r + 2), keyWord key (4 * r + 3)⟩

def cipher (key s : State) : State :=
  let s := (List.range' 1 9).foldl
    (fun s r => addRoundKey (mixColumns (shiftRows (subBytes s))) (roundKey key r))
    (addRoundKey s (roundKey key 0))
  addRoundKey (shiftRows (subBytes s)) (roundKey key 10)

def invCipher (key s : State) : State :=
  let s := (List.range' 1 9).reverse.foldl
    (fun s r => invMixColumns (addRoundKey (invSubBytes (invShiftRows s)) (roundKey key r)))
    (addRoundKey s (roundKey key 10))
  addRoundKey (invSubBytes (invShiftRows s)) (roundKey key 0)

/-- A block as a state, column after column. -/
def ofBlock (b : Block) : State where
  w0 := ⟨b[0], b[1], b[2], b[3]⟩
  w1 := ⟨b[4], b[5], b[6], b[7]⟩
  w2 := ⟨b[8], b[9], b[10], b[11]⟩
  w3 := ⟨b[12], b[13], b[14], b[15]⟩

def toBlock (s : State) : Block :=
  #v[s.w0.a, s.w0.b, s.w0.c, s.w0.d, s.w1.a, s.w1.b, s.w1.c, s.w1.d,
    s.w2.a, s.w2.b, s.w2.c, s.w2.d, s.w3.a, s.w3.b, s.w3.c, s.w3.d]

/-- AES-128 -/
def encrypt (key b : Block) : Block := toBlock (cipher (ofBlock key) (ofBlock b))

def decrypt (key b : Block) : Block := toBlock (invCipher (ofBlock key) (ofBlock b))

/-! ## The field is what it should be -/

theorem mul_inv {b : UInt8} (hb : b ≠ 0) : mul b (inv b) = 1 := by
  have h := forall_byte (p := fun b => b ≠ 0 → mul b (inv b) = 1) (by decide +kernel) b
  exact h hb

theorem invSbox_sbox (b : UInt8) : invSbox (sbox b) = b :=
  forall_byte (p := fun b => invSbox (sbox b) = b) (by decide +kernel) b

theorem sbox_invSbox (b : UInt8) : sbox (invSbox b) = b :=
  forall_byte (p := fun b => sbox (invSbox b) = b) (by decide +kernel) b

/-! ## Columns -/

theorem xtime_xor (x y : UInt8) : xtime (x ^^^ y) = xtime x ^^^ xtime y := by
  have hbit : ∀ b : UInt8, xtime b = b <<< 1 ^^^ (if b.toBitVec.getLsbD 7 then 0x1b else 0) :=
    forall_byte (by decide +kernel)
  have hswap : ∀ u v w : UInt8, (u ^^^ w) ^^^ (v ^^^ w) = u ^^^ v := fun u v w => by
    rw [show (u ^^^ w) ^^^ (v ^^^ w) = u ^^^ v ^^^ (w ^^^ w) by ac_rfl, UInt8.xor_self, UInt8.xor_zero]
  rw [hbit, hbit, hbit, UInt8.shiftLeft_xor, UInt8.toBitVec_xor, BitVec.getLsbD_xor]
  cases x.toBitVec.getLsbD 7 <;> cases y.toBitVec.getLsbD 7
  · simp
  · simp [UInt8.xor_assoc]
  · simp only [Bool.xor_false, if_true, Bool.false_eq_true, if_false, UInt8.xor_zero]
    ac_rfl
  · simp [hswap]

theorem mulBits_xor (n : ℕ) (x y : UInt8) (b : ℕ) :
    mulBits n (x ^^^ y) b = mulBits n x b ^^^ mulBits n y b := by
  induction n generalizing x y b with
  | zero => exact (UInt8.xor_self (a := 0)).symm
  | succ n ih =>
    rw [mulBits, mulBits, mulBits, xtime_xor, ih]
    split_ifs
    · ac_rfl
    · simp

theorem mul_xor (x y b : UInt8) : mul (x ^^^ y) b = mul x b ^^^ mul y b := mulBits_xor 8 x y b.toNat

/-- The products of one byte with the entries of a row of one matrix and a column of the other. -/
def rowByCol (m k : Col) (x : UInt8) : UInt8 :=
  mul (mul x k.a) m.a ^^^ mul (mul x k.d) m.b ^^^ mul (mul x k.c) m.c ^^^ mul (mul x k.b) m.d

/-- Circulant matrices whose product is the identity. -/
theorem dot_dot {m k : Col} (h : ∀ x, rowByCol m k x = x ∧
    rowByCol m ⟨k.b, k.c, k.d, k.a⟩ x = 0 ∧ rowByCol m ⟨k.c, k.d, k.a, k.b⟩ x = 0 ∧
      rowByCol m ⟨k.d, k.a, k.b, k.c⟩ x = 0) (x : Col) : Col.dot m (Col.dot k x) = x := by
  obtain ⟨a, b, c, d⟩ := x
  have hsum : ∀ p q r s : UInt8, rowByCol m k p ^^^ rowByCol m ⟨k.b, k.c, k.d, k.a⟩ q ^^^
      rowByCol m ⟨k.c, k.d, k.a, k.b⟩ r ^^^ rowByCol m ⟨k.d, k.a, k.b, k.c⟩ s = p := fun p q r s => by
    rw [(h p).1, (h q).2.1, (h r).2.2.1, (h s).2.2.2]
    simp
  simp only [Col.dot, mul_xor]
  ext1
  · refine Eq.trans ?_ (hsum a b c d)
    simp only [rowByCol]
    ac_rfl
  · refine Eq.trans ?_ (hsum b c d a)
    simp only [rowByCol]
    ac_rfl
  · refine Eq.trans ?_ (hsum c d a b)
    simp only [rowByCol]
    ac_rfl
  · refine Eq.trans ?_ (hsum d a b c)
    simp only [rowByCol]
    ac_rfl

section Entries

variable (x : UInt8)

theorem mul_one : mul x 1 = x := by simp [mul, mulBits]

theorem mul_two : mul x 2 = xtime x := by simp [mul, mulBits]

theorem mul_three : mul x 3 = x ^^^ xtime x := by simp [mul, mulBits]

theorem mul_nine : mul x 9 = x ^^^ xtime (xtime (xtime x)) := by simp [mul, mulBits]

theorem mul_eleven : mul x 11 = x ^^^ xtime x ^^^ xtime (xtime (xtime x)) := by
  simp [mul, mulBits, UInt8.xor_assoc]

theorem mul_thirteen : mul x 13 = x ^^^ xtime (xtime x) ^^^ xtime (xtime (xtime x)) := by
  simp [mul, mulBits, UInt8.xor_assoc]

theorem mul_fourteen : mul x 14 = xtime x ^^^ xtime (xtime x) ^^^ xtime (xtime (xtime x)) := by
  simp [mul, mulBits, UInt8.xor_assoc]

end Entries

theorem xor_left_comm (x y z : UInt8) : x ^^^ (y ^^^ z) = y ^^^ (x ^^^ z) := by
  ac_rfl

theorem xor_cancel_left (x y : UInt8) : x ^^^ (x ^^^ y) = y := by
  rw [← UInt8.xor_assoc, UInt8.xor_self, UInt8.zero_xor]

theorem invMixColumn_mixColumn (x : Col) : invMixColumn (mixColumn x) = x :=
  dot_dot (fun x => by
    simp only [rowByCol, mul_one, mul_two, mul_three, mul_nine, mul_eleven, mul_thirteen, mul_fourteen,
      xtime_xor, UInt8.xor_assoc, UInt8.xor_comm, xor_left_comm, xor_cancel_left, UInt8.xor_self,
      UInt8.xor_zero, and_self]) x

theorem mixColumn_invMixColumn (x : Col) : mixColumn (invMixColumn x) = x :=
  dot_dot (fun x => by
    simp only [rowByCol, mul_one, mul_two, mul_three, mul_nine, mul_eleven, mul_thirteen, mul_fourteen,
      xtime_xor, UInt8.xor_assoc, UInt8.xor_comm, xor_left_comm, xor_cancel_left, UInt8.xor_self,
      UInt8.xor_zero, and_self]) x

/-! ## The ciphers -/

variable {key : State}

theorem Col.xor_xor (x y : Col) : (x.xor y).xor y = x := by
  ext1 <;> simp [xor, UInt8.xor_assoc]

theorem addRoundKey_addRoundKey (s k : State) : addRoundKey (addRoundKey s k) k = s := by
  ext1 <;> exact Col.xor_xor ..

theorem Col.map_map {f g : UInt8 → UInt8} (h : ∀ b, f (g b) = b) (x : Col) :
    (x.map g).map f = x := by
  ext1 <;> exact h _

theorem State.map_map {f g : Col → Col} (h : ∀ x, f (g x) = x) (s : State) :
    (s.map g).map f = s := by
  ext1 <;> exact h _

theorem invSubBytes_subBytes (s : State) : invSubBytes (subBytes s) = s :=
  State.map_map (Col.map_map invSbox_sbox) s

theorem subBytes_invSubBytes (s : State) : subBytes (invSubBytes s) = s :=
  State.map_map (Col.map_map sbox_invSbox) s

theorem invShiftRows_shiftRows (s : State) : invShiftRows (shiftRows s) = s := rfl

theorem shiftRows_invShiftRows (s : State) : shiftRows (invShiftRows s) = s := rfl

theorem invMixColumns_mixColumns (s : State) : invMixColumns (mixColumns s) = s :=
  State.map_map invMixColumn_mixColumn s

theorem mixColumns_invMixColumns (s : State) : mixColumns (invMixColumns s) = s :=
  State.map_map mixColumn_invMixColumn s

theorem keyWord_step {i : ℕ} (h : 4 ≤ i) : keyWord key i = (keyWord key (i - 4)).xor
    (if i % 4 = 0 then ((keyWord key (i - 1)).rot.map sbox).xor (rcon (i / 4))
    else keyWord key (i - 1)) := by
  rw [keyWord, if_neg (show ¬i = 0 by omega), if_neg (show ¬i = 1 by omega),
    if_neg (show ¬i = 2 by omega), if_neg (show ¬i = 3 by omega)]

theorem shiftRows_rounds (rs : List ℕ) (s : State) :
    shiftRows (subBytes (rs.foldl (fun s r => addRoundKey (mixColumns (shiftRows (subBytes s)))
      (roundKey key r)) s)) =
    rs.foldl (fun s r => shiftRows (subBytes (addRoundKey (mixColumns s) (roundKey key r))))
      (shiftRows (subBytes s)) := by
  induction rs generalizing s with
  | nil => rfl
  | cons r rs ih => rw [List.foldl_cons, ih, List.foldl_cons]

theorem invCipher_cipher (key s : State) : invCipher key (cipher key s) = s := by
  have hround : ∀ r ∈ List.range' 1 9, ∀ s, invMixColumns (addRoundKey (invSubBytes (invShiftRows
      (shiftRows (subBytes (addRoundKey (mixColumns s) (roundKey key r)))))) (roundKey key r)) = s := by
    intro r _ s
    rw [invShiftRows_shiftRows, invSubBytes_subBytes, addRoundKey_addRoundKey, invMixColumns_mixColumns]
  rw [invCipher, cipher]
  rw [addRoundKey_addRoundKey, shiftRows_rounds, foldl_reverse_foldl hround, invShiftRows_shiftRows,
    invSubBytes_subBytes, addRoundKey_addRoundKey]

theorem cipher_invCipher (key s : State) : cipher key (invCipher key s) = s := by
  have hrun := foldl_reverse_foldl (l := (List.range' 1 9).reverse)
    (f := fun s r => invMixColumns (addRoundKey (invSubBytes (invShiftRows s)) (roundKey key r)))
    (g := fun s r => shiftRows (subBytes (addRoundKey (mixColumns s) (roundKey key r)))) fun r _ s => by
      rw [mixColumns_invMixColumns, addRoundKey_addRoundKey, subBytes_invSubBytes,
        shiftRows_invShiftRows]
  rw [List.reverse_reverse] at hrun
  rw [cipher, invCipher]
  rw [addRoundKey_addRoundKey, shiftRows_rounds, subBytes_invSubBytes, shiftRows_invShiftRows, hrun,
    addRoundKey_addRoundKey]

theorem ofBlock_toBlock (s : State) : ofBlock (toBlock s) = s := rfl

theorem toBlock_ofBlock (b : Block) : toBlock (ofBlock b) = b := by
  ext i hi
  interval_cases i <;> rfl

theorem ofBlock_eq_byteOf (b : Block) : ofBlock b =
    ⟨⟨byteOf b 0, byteOf b 1, byteOf b 2, byteOf b 3⟩, ⟨byteOf b 4, byteOf b 5, byteOf b 6, byteOf b 7⟩,
      ⟨byteOf b 8, byteOf b 9, byteOf b 10, byteOf b 11⟩,
      ⟨byteOf b 12, byteOf b 13, byteOf b 14, byteOf b 15⟩⟩ := by
  simp [ofBlock, byteOf_of_lt]

theorem decrypt_encrypt (key b : Block) : decrypt key (encrypt key b) = b := by
  rw [decrypt, encrypt, ofBlock_toBlock, invCipher_cipher, toBlock_ofBlock]

theorem encrypt_decrypt (key b : Block) : encrypt key (decrypt key b) = b := by
  rw [encrypt, decrypt, ofBlock_toBlock, cipher_invCipher, toBlock_ofBlock]

end Aes

end BananaOS.Lib
