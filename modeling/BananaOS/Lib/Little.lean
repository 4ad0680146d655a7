import Mathlib.Data.Nat.Bitwise
import Mathlib.Data.Nat.Digits.Lemmas

/-!
# Numbers as bytes, the least significant first

* `ofBytesLE_drop`, `ofBytesLE_take`: cutting the bytes is dividing by a power of 256.
* `bytesLE_add`: the bytes of a number in two parts.
* `or_shiftLeft_mod`: how code puts a number together from parts that do not overlap.
-/

namespace BananaOS.Lib

/-- The number whose bytes these are, the least significant first. -/
def ofBytesLE (bs : List UInt8) : ℕ := Nat.ofDigits 256 (bs.map UInt8.toNat)

/-- The bytes of a number, `n` of them, the least significant first. -/
def bytesLE (n v : ℕ) : List UInt8 := (List.range n).map fun i => UInt8.ofNat (v / 256 ^ i)

variable {n : ℕ}

@[simp] theorem ofBytesLE_nil : ofBytesLE [] = 0 := rfl

theorem ofBytesLE_cons (b : UInt8) (bs : List UInt8) :
    ofBytesLE (b :: bs) = b.toNat + 256 * ofBytesLE bs := by
  rw [ofBytesLE, List.map_cons, Nat.ofDigits_cons, ofBytesLE]

@[simp] theorem length_bytesLE (n v : ℕ) : (bytesLE n v).length = n := by
  rw [bytesLE, List.length_map, List.length_range]

theorem ofBytesLE_lt (bs : List UInt8) : ofBytesLE bs < 256 ^ bs.length := by
  have hlt := Nat.ofDigits_lt_base_pow_length (b := 256) (l := bs.map UInt8.toNat) (by decide)
    fun x hx => by
      obtain ⟨b, -, rfl⟩ := List.mem_map.mp hx
      exact b.toNat_lt
  rwa [List.length_map] at hlt

theorem ofBytesLE_append (as bs : List UInt8) :
    ofBytesLE (as ++ bs) = ofBytesLE as + 256 ^ as.length * ofBytesLE bs := by
  rw [ofBytesLE, List.map_append, Nat.ofDigits_append, List.length_map]
  rfl

theorem ofBytesLE_zeros (n : ℕ) : ofBytesLE (List.replicate n 0) = 0 := by
  induction n with
  | zero => rfl
  | succ n ih => rw [List.replicate_succ, ofBytesLE_cons, ih]; rfl

/-- A bit behind the last byte, then zeros. -/
theorem ofBytesLE_padded (l : List UInt8) (n : ℕ) :
    ofBytesLE (l ++ 1 :: List.replicate n 0) = ofBytesLE (l ++ [1]) := by
  rw [ofBytesLE_append, ofBytesLE_append, ofBytesLE_cons, ofBytesLE_cons, ofBytesLE_zeros,
    ofBytesLE_nil]

theorem ofBytesLE_split (bs : List UInt8) (h : n ≤ bs.length) :
    ofBytesLE bs = ofBytesLE (bs.take n) + 256 ^ n * ofBytesLE (bs.drop n) := by
  conv_lhs => rw [← List.take_append_drop n bs, ofBytesLE_append]
  rw [List.length_take, min_eq_left h]

theorem ofBytesLE_take (bs : List UInt8) (n : ℕ) : ofBytesLE (bs.take n) = ofBytesLE bs % 256 ^ n := by
  rcases le_total n bs.length with h | h
  · have hlt := ofBytesLE_lt (bs.take n)
    rw [List.length_take, min_eq_left h] at hlt
    rw [ofBytesLE_split bs h, Nat.add_mul_mod_self_left, Nat.mod_eq_of_lt hlt]
  · have hlt := (ofBytesLE_lt bs).trans_le (Nat.pow_le_pow_right (by decide) h)
    rw [List.take_of_length_le h, Nat.mod_eq_of_lt hlt]

theorem ofBytesLE_drop (bs : List UInt8) (n : ℕ) : ofBytesLE (bs.drop n) = ofBytesLE bs / 256 ^ n := by
  rcases le_total n bs.length with h | h
  · have hlt := ofBytesLE_lt (bs.take n)
    rw [List.length_take, min_eq_left h] at hlt
    rw [ofBytesLE_split bs h, Nat.add_mul_div_left _ _ (by positivity), Nat.div_eq_of_lt hlt,
      Nat.zero_add]
  · have hlt := (ofBytesLE_lt bs).trans_le (Nat.pow_le_pow_right (by decide) h)
    rw [List.drop_eq_nil_of_le h, Nat.div_eq_of_lt hlt, ofBytesLE_nil]

theorem bytesLE_add (a b v : ℕ) : bytesLE (a + b) v = bytesLE a v ++ bytesLE b (v / 256 ^ a) := by
  rw [bytesLE, List.range_add, List.map_append, List.map_map]
  refine congrArg (bytesLE a v ++ ·) (List.map_congr_left fun i _ => ?_)
  rw [Function.comp_apply, pow_add, Nat.div_div_eq_div_mul]

theorem bytesLE_succ (n v : ℕ) : bytesLE (n + 1) v = UInt8.ofNat v :: bytesLE n (v / 256) := by
  rw [Nat.add_comm, bytesLE_add, pow_one]
  rw [bytesLE, List.range_one, List.map_singleton, pow_zero, Nat.div_one, List.singleton_append]

/-- What does not fit in the bytes is lost. -/
theorem bytesLE_mod (n v : ℕ) : bytesLE n (v % 256 ^ n) = bytesLE n v := by
  induction n generalizing v with
  | zero => rfl
  | succ n ih =>
    rw [bytesLE_succ, bytesLE_succ, ← ih (v / 256), pow_succ', Nat.mod_mul_right_div_self]
    refine congrArg (· :: _) (UInt8.toNat_inj.mp ?_)
    rw [UInt8.toNat_ofNat', UInt8.toNat_ofNat']
    exact Nat.mod_mod_of_dvd _ (Dvd.intro _ rfl)

/-- Two parts that do not overlap, put together in a word. -/
theorem or_shiftLeft_mod {a k w : ℕ} (b : ℕ) (ha : a < 2 ^ k) (hk : k ≤ w) :
    a ||| (b <<< k) % 2 ^ w = (a + 2 ^ k * b) % 2 ^ w := by
  have haw : a % 2 ^ w = a := Nat.mod_eq_of_lt (ha.trans_le (Nat.pow_le_pow_right (by decide) hk))
  have hor : a ||| b <<< k = a + 2 ^ k * b := by
    rw [Nat.or_comm, ← Nat.shiftLeft_add_eq_or_of_lt ha, Nat.shiftLeft_eq, Nat.mul_comm, Nat.add_comm]
  rw [← hor, Nat.or_mod_two_pow, haw]

end BananaOS.Lib
