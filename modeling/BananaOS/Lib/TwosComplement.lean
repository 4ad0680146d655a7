import Mathlib.Algebra.Order.Ring.Nat
import Mathlib.Data.Int.Bitwise
import Mathlib.Tactic.Common
import Mathlib.Tactic.Positivity
import Mathlib.Tactic.Ring

/-!
# Two's complement

The bits of an integer, without end upwards, and of its residue modulo `2 ^ w`.

* `testBit_emod`: the residue has the integer's low bits.
* `testBit_of_le`: from where the integer's magnitude ends, its bits are its sign.
* `eq_of_testBit_eq`: the bits are the integer.
-/

namespace BananaOS.Lib

theorem testBit_emod (z : ℤ) {w i : ℕ} (h : i < w) :
    (z % 2 ^ w).toNat.testBit i = z.testBit i := by
  cases z with
  | ofNat n =>
    have hmod : (Int.ofNat n % 2 ^ w).toNat = n % 2 ^ w := by
      rw [Int.ofNat_eq_natCast]
      norm_cast
    rw [hmod, Nat.testBit_mod_two_pow]
    simp [h, Int.testBit]
  | negSucc n =>
    have hlt : n % 2 ^ w < 2 ^ w := Nat.mod_lt _ (by positivity)
    have hmod : (Int.negSucc n % 2 ^ w).toNat = 2 ^ w - (n % 2 ^ w + 1) := by
      rw [Int.negSucc_emod _ (by positivity)]
      have : ((2 : ℤ) ^ w - 1 - (n : ℤ) % 2 ^ w) = ((2 ^ w - (n % 2 ^ w + 1) : ℕ) : ℤ) := by
        push_cast [Nat.cast_sub (Nat.succ_le_of_lt hlt)]
        ring
      rw [this, Int.toNat_natCast]
    rw [hmod, Nat.testBit_two_pow_sub_succ hlt, Nat.testBit_mod_two_pow]
    simp [h, Int.testBit]

theorem testBit_of_le {z : ℤ} {k i : ℕ} (hlo : -2 ^ k ≤ z) (hhi : z < 2 ^ k) (h : k ≤ i) :
    z.testBit i = decide (z < 0) := by
  have hpow : 2 ^ k ≤ 2 ^ i := Nat.pow_le_pow_right (by decide) h
  cases z with
  | ofNat n =>
    have hn : n < 2 ^ k := by
      rw [Int.ofNat_eq_natCast] at hhi
      exact_mod_cast hhi
    simp only [Int.testBit, Nat.testBit_lt_two_pow (hn.trans_le hpow)]
    simp
  | negSucc n =>
    have hn : n < 2 ^ k := by
      rw [Int.negSucc_eq] at hlo
      have : (n : ℤ) < 2 ^ k := by omega
      exact_mod_cast this
    simp only [Int.testBit, Nat.testBit_lt_two_pow (hn.trans_le hpow)]
    simp [Int.negSucc_lt_zero]

theorem exists_pow_bounds (z : ℤ) : ∃ k : ℕ, -2 ^ k ≤ z ∧ z < 2 ^ k := by
  have h := @Nat.lt_two_pow_self z.natAbs
  have : (z.natAbs : ℤ) < 2 ^ z.natAbs := by exact_mod_cast h
  exact ⟨z.natAbs, by omega, by omega⟩

/-- The bits are the integer. -/
theorem eq_of_testBit_eq {a b : ℤ} (h : ∀ i, a.testBit i = b.testBit i) : a = b := by
  obtain ⟨k, ha₁, ha₂⟩ := exists_pow_bounds a
  obtain ⟨l, hb₁, hb₂⟩ := exists_pow_bounds b
  have hsign : decide (a < 0) = decide (b < 0) := by
    rw [← testBit_of_le ha₁ ha₂ (le_max_left k l), ← testBit_of_le hb₁ hb₂ (le_max_right k l), h]
  cases a with
  | ofNat m =>
    cases b with
    | ofNat n => exact congrArg Int.ofNat (Nat.eq_of_testBit_eq h)
    | negSucc n =>
      simp only [Int.negSucc_lt_zero, decide_true, decide_eq_true_eq, Int.ofNat_eq_natCast] at hsign
      omega
  | negSucc m =>
    cases b with
    | ofNat n =>
      simp only [Int.negSucc_lt_zero, decide_true, Int.ofNat_eq_natCast] at hsign
      have := of_decide_eq_true hsign.symm
      omega
    | negSucc n =>
      refine congrArg Int.negSucc (Nat.eq_of_testBit_eq fun i => ?_)
      simpa [Int.testBit] using h i

/-- Two integers of `k` bits and a sign, combined bit by bit in two's complement of one bit more. -/
theorem testBit_combine {f : Bool → Bool → Bool} {x y z : ℤ} {k n : ℕ}
    (hx : -2 ^ k ≤ x ∧ x < 2 ^ k) (hy : -2 ^ k ≤ y ∧ y < 2 ^ k) (hz : -2 ^ k ≤ z ∧ z < 2 ^ k)
    (hres : (n : ℤ) = z % 2 ^ (k + 1))
    (hbits : ∀ i, i < k + 1 → n.testBit i =
      f ((x % 2 ^ (k + 1)).toNat.testBit i) ((y % 2 ^ (k + 1)).toNat.testBit i)) (i : ℕ) :
    z.testBit i = f (x.testBit i) (y.testBit i) := by
  have hlow : ∀ i, i < k + 1 → z.testBit i = f (x.testBit i) (y.testBit i) := by
    intro i hi
    rw [← testBit_emod z hi, ← testBit_emod x hi, ← testBit_emod y hi, ← hbits i hi, ← hres,
      Int.toNat_natCast]
  rcases lt_or_ge i (k + 1) with hi | hi
  · exact hlow i hi
  · -- above, each of the three has its sign, which the bit `k` shows
    have hk := hlow k (by omega)
    rw [testBit_of_le hz.1 hz.2 le_rfl, testBit_of_le hx.1 hx.2 le_rfl,
      testBit_of_le hy.1 hy.2 le_rfl] at hk
    rw [testBit_of_le hz.1 hz.2 (by omega), testBit_of_le hx.1 hx.2 (by omega),
      testBit_of_le hy.1 hy.2 (by omega), hk]

end BananaOS.Lib
