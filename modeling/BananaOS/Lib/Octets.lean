import Mathlib.Algebra.Order.Ring.Nat
import Mathlib.Data.List.Basic
import Mathlib.Data.List.GetD
import Mathlib.Data.List.Induction
import Mathlib.Data.Nat.Digits.Defs
import Mathlib.Tactic.Common

/-!
# Numbers as bytes

Numbers and words as lists of bytes, the most significant first.

* `bytesBE`, `ofBytesBE`: a number and its bytes.
* `map_lowByte`, `foldl_shift_or`: how code shifts the bytes of a word out and in.
* `word32`: four bytes as a word, as code puts them together and takes them out.
-/

namespace BananaOS.Lib

/-- The bytes of a number, `n` of them, the most significant first. -/
def bytesBE (n v : ℕ) : List UInt8 :=
  (List.range n).map fun i => UInt8.ofNat (v / 256 ^ (n - 1 - i))

@[simp] theorem length_bytesBE (n v : ℕ) : (bytesBE n v).length = n := by
  simp [bytesBE]

/-- The number whose bytes these are, the most significant first. -/
def ofBytesBE (bs : List UInt8) : ℕ := Nat.ofDigits 256 (bs.reverse.map UInt8.toNat)

theorem ofBytesBE_concat (bs : List UInt8) (b : UInt8) :
    ofBytesBE (bs ++ [b]) = 2 ^ 8 * ofBytesBE bs + b.toNat := by
  rw [ofBytesBE, List.reverse_concat, List.map_cons, Nat.ofDigits_cons, ofBytesBE, Nat.add_comm]
  rfl

/-- Elements read one by one from `a` on. -/
theorem map_getD_range {α : Type*} {l : List α} {x : α} {a k : ℕ} (h : a + k ≤ l.length) :
    (List.range k).map (fun j => l.getD (a + j) x) = (l.drop a).take k := by
  refine List.ext_getElem (by simp; omega) fun j h1 h2 => ?_
  have hj : a + j < l.length := by
    rw [List.length_map, List.length_range] at h1
    omega
  rw [List.getElem_map, List.getElem_range, List.getElem_take, List.getElem_drop,
    List.getD_eq_getElem _ _ hj]

/-- A number of `w` bits as a byte: its lowest eight bits. -/
def lowByte {w : ℕ} (x : BitVec w) : UInt8 := UInt8.ofBitVec (x.setWidth 8)

theorem lowByte_shift {w : ℕ} (x : BitVec w) (n : ℕ) :
    lowByte (x >>> (8 * n)) = UInt8.ofNat (x.toNat / 256 ^ n) := by
  refine UInt8.toNat_inj.mp ?_
  rw [lowByte, UInt8.toNat_ofBitVec, BitVec.toNat_setWidth, BitVec.toNat_ushiftRight,
    Nat.shiftRight_eq_div_pow, UInt8.toNat_ofNat', Nat.pow_mul]

theorem map_lowByte {w n : ℕ} (x : BitVec w) :
    ((List.range n).map fun i => lowByte (x >>> (8 * (n - 1 - i)))) = bytesBE n x.toNat :=
  List.map_congr_left fun i _ => lowByte_shift x (n - 1 - i)

theorem bytesBE_mod (n v : ℕ) : bytesBE n (v % 256 ^ n) = bytesBE n v := by
  refine List.map_congr_left fun i hi => UInt8.toNat_inj.mp ?_
  have hi' : i < n := List.mem_range.mp hi
  obtain ⟨k, hk⟩ : ∃ k, n = n - 1 - i + (k + 1) := ⟨i, by omega⟩
  have hpow : 256 ^ n = 256 ^ (n - 1 - i) * 256 ^ (k + 1) := by rw [← pow_add, ← hk]
  rw [UInt8.toNat_ofNat', UInt8.toNat_ofNat', hpow, Nat.mod_mul_right_div_self]
  exact Nat.mod_mod_of_dvd _ (Dvd.intro_left _ (pow_succ 256 k).symm)

/-- A number that does not need the first bytes leaves them zero. -/
theorem bytesBE_add (a : ℕ) {b v : ℕ} (hv : v < 256 ^ b) :
    bytesBE (a + b) v = List.replicate a 0 ++ bytesBE b v := by
  rw [bytesBE, List.range_add, List.map_append, List.map_map]
  congr 1
  · refine (List.map_congr_left fun i hi => ?_).trans (by rw [List.map_const', List.length_range])
    have hi' : i < a := List.mem_range.mp hi
    have hzero : v / 256 ^ (a + b - 1 - i) = 0 :=
      Nat.div_eq_of_lt (hv.trans_le (Nat.pow_le_pow_right (by decide) (by omega)))
    rw [hzero]
    rfl
  · refine List.map_congr_left fun i hi => ?_
    have hi' : i < b := List.mem_range.mp hi
    rw [Function.comp_apply, show a + b - 1 - (a + i) = b - 1 - i by omega]

theorem foldl_shift_or {w : ℕ} (bs : List UInt8) :
    bs.foldl (fun (v : BitVec w) b => v <<< 8 ||| b.toBitVec.setWidth w) 0 =
      BitVec.ofNat w (ofBytesBE bs) := by
  induction bs using List.reverseRecOn with
  | nil => rfl
  | append_singleton bs b ih =>
    rw [List.foldl_concat, ih, ofBytesBE_concat]
    refine BitVec.eq_of_getLsbD_eq fun i hi => ?_
    rw [BitVec.getLsbD_or, BitVec.getLsbD_shiftLeft, BitVec.getLsbD_ofNat, BitVec.getLsbD_setWidth,
      BitVec.getLsbD_ofNat, Nat.testBit_two_pow_mul_add _ b.toNat_lt]
    rcases Nat.lt_or_ge i 8 with h8 | h8
    · simp [hi, h8, BitVec.getLsbD]
    · simp [hi, h8, Nat.not_lt.mpr h8, show i - 8 < w by omega, BitVec.getLsbD_of_ge]

/-! ## Tables -/

theorem getD_map_range {α : Type*} (F : ℕ → α) {x : α} {i j : ℕ} (h : j < i) :
    ((List.range i).map F).getD j x = F j := by
  rw [List.getD_eq_getElem _ _ (by simpa using h), List.getElem_map, List.getElem_range]

/-- An array to which the next values of a function are added one after the other. -/
theorem foldl_range'_concat {α : Type*} (F : ℕ → α) (next : List α → ℕ → α) (n k : ℕ)
    (hnext : ∀ i, n ≤ i → i < n + k → next ((List.range i).map F) i = F i) :
    (List.range' n k).foldl (fun w i => w ++ [next w i]) ((List.range n).map F) =
      (List.range (n + k)).map F := by
  induction k with
  | zero => rfl
  | succ k ih =>
    rw [List.range'_1_concat, List.foldl_concat, ih fun i h1 h2 => hnext i h1 (by omega),
      hnext (n + k) (by omega) (by omega), ← Nat.add_assoc, List.range_succ, List.map_append,
      List.map_singleton]

theorem forall_byte {p : UInt8 → Prop} (h : ∀ n < 256, p (UInt8.ofNat n)) (b : UInt8) : p b := by
  have hb := h b.toNat b.toNat_lt
  rwa [UInt8.ofNat_toNat] at hb

/-- Bytes of a vector, and zero behind it. -/
def byteOf {m : ℕ} (r : Vector UInt8 m) (i : ℕ) : UInt8 := r.toList.getD i 0

theorem byteOf_of_lt {m i : ℕ} (r : Vector UInt8 m) (h : i < m) : byteOf r i = r[i] := by
  rw [byteOf, List.getD_eq_getElem _ _ (by simpa using h), Vector.getElem_toList]

/-! ## Four bytes -/

/-- The word of four bytes, the first one the most significant. -/
def word32 (a b c d : UInt8) : BitVec 32 :=
  a.toBitVec.setWidth 32 <<< 24 ||| b.toBitVec.setWidth 32 <<< 16 |||
    c.toBitVec.setWidth 32 <<< 8 ||| d.toBitVec.setWidth 32

section Word32

variable {a b c d a' b' c' d' : UInt8} {v : BitVec 32} {i : ℕ}

theorem getLsbD_word32 : (word32 a b c d).getLsbD i =
    if i < 8 then d.toBitVec.getLsbD i else if i < 16 then c.toBitVec.getLsbD (i - 8)
    else if i < 24 then b.toBitVec.getLsbD (i - 16) else a.toBitVec.getLsbD (i - 24) := by
  have hout : ∀ (x : UInt8) j, 8 ≤ j → x.toBitVec.getLsbD j = false :=
    fun x j => x.toBitVec.getLsbD_of_ge j
  simp only [word32, BitVec.getLsbD_or, BitVec.getLsbD_shiftLeft, BitVec.getLsbD_setWidth]
  rcases Nat.lt_or_ge i 8 with h | h
  · simp [h, show i < 32 by omega, show i < 24 by omega, show i < 16 by omega]
  rcases Nat.lt_or_ge i 16 with h1 | h1
  · simp [hout d i h, h1, show i < 32 by omega, show i < 24 by omega, Nat.not_lt.mpr h,
      show i - 8 < 32 by omega]
  rcases Nat.lt_or_ge i 24 with h2 | h2
  · simp [hout d i h, hout c (i - 8) (by omega), h2, show i < 32 by omega, Nat.not_lt.mpr h,
      Nat.not_lt.mpr h1, show i - 16 < 32 by omega]
  rcases Nat.lt_or_ge i 32 with h3 | h3
  · simp [hout d i h, hout c (i - 8) (by omega), hout b (i - 16) (by omega), h3, Nat.not_lt.mpr h,
      Nat.not_lt.mpr h1, Nat.not_lt.mpr h2, show i - 24 < 32 by omega]
  · simp [hout d i h, hout a (i - 24) (by omega), Nat.not_lt.mpr h3, Nat.not_lt.mpr h,
      Nat.not_lt.mpr h1, Nat.not_lt.mpr h2]

theorem word32_xor : word32 a b c d ^^^ word32 a' b' c' d' =
    word32 (a ^^^ a') (b ^^^ b') (c ^^^ c') (d ^^^ d') := by
  refine BitVec.eq_of_getLsbD_eq fun i _ => ?_
  rw [BitVec.getLsbD_xor, getLsbD_word32, getLsbD_word32, getLsbD_word32]
  split_ifs <;> simp

/-- The bytes that are shifted out of a word. -/
theorem lowByte_word32 : lowByte (word32 a b c d >>> 24) = a ∧ lowByte (word32 a b c d >>> 16) = b ∧
    lowByte (word32 a b c d >>> 8) = c ∧ lowByte (word32 a b c d) = d := by
  have hbyte : ∀ (x : BitVec 32) (y : UInt8), (∀ j < 8, x.getLsbD j = y.toBitVec.getLsbD j) →
      lowByte x = y := by
    intro x y h
    refine UInt8.toBitVec_inj.mp (BitVec.eq_of_getLsbD_eq fun j hj => ?_)
    rw [lowByte]
    change (x.setWidth 8).getLsbD j = _
    rw [BitVec.getLsbD_setWidth, h j hj, decide_eq_true hj, Bool.true_and]
  refine ⟨hbyte _ _ fun j hj => ?_, hbyte _ _ fun j hj => ?_, hbyte _ _ fun j hj => ?_,
    hbyte _ _ fun j hj => ?_⟩
  · rw [BitVec.getLsbD_ushiftRight, getLsbD_word32, if_neg (by omega), if_neg (by omega),
      if_neg (by omega), Nat.add_sub_cancel_left]
  · rw [BitVec.getLsbD_ushiftRight, getLsbD_word32, if_neg (by omega), if_neg (by omega),
      if_pos (by omega), Nat.add_sub_cancel_left]
  · rw [BitVec.getLsbD_ushiftRight, getLsbD_word32, if_neg (by omega), if_pos (by omega),
      Nat.add_sub_cancel_left]
  · rw [getLsbD_word32, if_pos hj]

theorem toNat_and_255 (v : BitVec 32) : (v &&& 0xff).toNat = (lowByte v).toNat := by
  rw [lowByte, UInt8.toNat_ofBitVec, BitVec.toNat_setWidth, BitVec.toNat_and]
  exact Nat.and_two_pow_sub_one_eq_mod v.toNat 8

theorem toNat_shift_24 (v : BitVec 32) : (v >>> 24).toNat = (lowByte (v >>> 24)).toNat := by
  rw [lowByte, UInt8.toNat_ofBitVec, BitVec.toNat_setWidth, BitVec.toNat_ushiftRight,
    Nat.shiftRight_eq_div_pow, Nat.mod_eq_of_lt]
  have := v.isLt
  omega

theorem word32_rotateRight : word32 a b c d >>> 8 ||| word32 a b c d <<< 24 = word32 d a b c := by
  refine BitVec.eq_of_getLsbD_eq fun i hi => ?_
  rw [BitVec.getLsbD_or, BitVec.getLsbD_ushiftRight, BitVec.getLsbD_shiftLeft, getLsbD_word32,
    getLsbD_word32, getLsbD_word32]
  have hout : ∀ (x : UInt8) j, 8 ≤ j → x.toBitVec.getLsbD j = false :=
    fun x j => x.toBitVec.getLsbD_of_ge j
  rcases Nat.lt_or_ge i 24 with h | h
  · rw [decide_eq_true h, Bool.not_true, Bool.and_false, Bool.false_and, Bool.or_false,
      if_neg (show ¬8 + i < 8 by omega)]
    rcases Nat.lt_or_ge i 8 with h1 | h1
    · rw [if_pos h1, if_pos (by omega), Nat.add_sub_cancel_left]
    rw [if_neg (Nat.not_lt.mpr h1), if_neg (show ¬8 + i < 16 by omega)]
    rcases Nat.lt_or_ge i 16 with h2 | h2
    · rw [if_pos h2, if_pos (by omega)]
      exact congrArg _ (by omega)
    · rw [if_neg (Nat.not_lt.mpr h2), if_pos h, if_neg (by omega)]
      exact congrArg _ (by omega)
  · rw [if_neg (show ¬8 + i < 8 by omega), if_neg (show ¬8 + i < 16 by omega),
      if_neg (show ¬8 + i < 24 by omega), hout a _ (by omega), if_pos (show i - 24 < 8 by omega),
      if_neg (show ¬i < 8 by omega), if_neg (show ¬i < 16 by omega), if_neg (show ¬i < 24 by omega)]
    simp [hi, Nat.not_lt.mpr h]

theorem word32_rotateLeft : word32 a b c d <<< 8 ||| word32 a b c d >>> 24 = word32 b c d a := by
  refine BitVec.eq_of_getLsbD_eq fun i hi => ?_
  rw [BitVec.getLsbD_or, BitVec.getLsbD_ushiftRight, BitVec.getLsbD_shiftLeft, getLsbD_word32,
    getLsbD_word32, getLsbD_word32]
  have hout : ∀ (x : UInt8) j, 8 ≤ j → x.toBitVec.getLsbD j = false :=
    fun x j => x.toBitVec.getLsbD_of_ge j
  rw [if_neg (show ¬24 + i < 8 by omega), if_neg (show ¬24 + i < 16 by omega),
    if_neg (show ¬24 + i < 24 by omega), Nat.add_sub_cancel_left]
  rcases Nat.lt_or_ge i 8 with h | h
  · rw [if_pos h, decide_eq_true h]
    simp
  rw [hout a i h, decide_eq_false (Nat.not_lt.mpr h), decide_eq_true hi, Bool.or_false, Bool.true_and,
    Bool.not_false, Bool.true_and, if_neg (Nat.not_lt.mpr h)]
  rcases Nat.lt_or_ge i 16 with h1 | h1
  · rw [if_pos h1, if_pos (by omega)]
  rw [if_neg (Nat.not_lt.mpr h1), if_neg (by omega)]
  rcases Nat.lt_or_ge i 24 with h2 | h2
  · rw [if_pos h2, if_pos (by omega)]
    exact congrArg _ (by omega)
  · rw [if_neg (Nat.not_lt.mpr h2), if_neg (by omega), if_pos (by omega)]
    exact congrArg _ (by omega)

end Word32

end BananaOS.Lib
