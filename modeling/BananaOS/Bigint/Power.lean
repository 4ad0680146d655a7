import BananaOS.Bigint.Exact

/-!
# The power of two BigInts

`OP_POW` of `bi_binary`.  The exponent is narrowed to `min y 2^40` by `big_toi64`, the square and
multiply loop computes `|x|` to that power (`powLoop_spec`), and the sign comes from the parity of what
was narrowed.  A base of at least two bits to the power `2^40` has more bits than `mag_mul` makes
(`powLoop_lt`), so what is left of the narrowing is the sign of `-1` to an odd power above `2^40`, which
`2^40` is not.
-/

namespace BananaOS.Bigint

open Lib Big

variable {x y r s base : Big} {v e : ℕ}

/-! ## The loop -/

theorem bind_ok {α β : Type} {o : Except Thrown α} {f : α → Except Thrown β} {b : β}
    (h : (o >>= f) = .ok b) : ∃ a, o = .ok a ∧ f a = .ok b := by
  cases o with
  | error t => cases h
  | ok a => exact ⟨a, rfl, h⟩

theorem powLoop_step (he : e ≠ 0) : powLoop e r base =
    ((if e % 2 = 1 then magMul r.d base.d else .ok r) >>= fun r =>
      if e / 2 = 0 then .ok r
      else magMul base.d base.d >>= fun base => powLoop (e / 2) r base) := by
  rw [powLoop, dif_neg he]
  split_ifs <;> rfl

theorem pow_half (b e : ℕ) : (b * b) ^ (e / 2) * b ^ (e % 2) = b ^ e := by
  rw [← pow_two, ← pow_mul, ← pow_add, Nat.div_add_mod]

theorem magMul_lt {a b : List UInt32} (h : magMul a b = .ok r) : val r.d < 2 ^ (32 * bigMaxLimbs) := by
  have hval := (magMul_spec h).val
  unfold magMul at h
  split_ifs at h with hnil
  · obtain rfl := Except.ok.inj h
    rw [val_nil]
    exact Nat.two_pow_pos _
  · unfold tooBig at h
    split_ifs at h with hle
    · rw [hval]
      calc val a * val b < 2 ^ (32 * a.length) * 2 ^ (32 * b.length) :=
            Nat.mul_lt_mul'' (val_lt a) (val_lt b)
        _ = 2 ^ (32 * (a.length + b.length)) := by rw [← pow_add, ← Nat.mul_add]
        _ ≤ 2 ^ (32 * bigMaxLimbs) := Nat.pow_le_pow_right (by decide) (Nat.mul_le_mul_left _ hle)
    · exact absurd h (by simp [bind, Except.bind])

/-- A round of the loop: the current power is taken in where the bit is set. -/
theorem round_spec (hr : IsMag r v) (h : (if e % 2 = 1 then magMul r.d base.d else .ok r) = .ok s) :
    IsMag s (v * val base.d ^ (e % 2)) := by
  split_ifs at h with hodd
  · rw [hodd, pow_one, ← hr.val]
    exact magMul_spec h
  · obtain rfl := Except.ok.inj h
    rw [Nat.mod_two_ne_one.mp hodd, pow_zero, Nat.mul_one]
    exact hr

/-- The loop multiplies by the power. -/
theorem powLoop_spec (hr : IsMag r v) (h : powLoop e r base = .ok s) :
    IsMag s (v * val base.d ^ e) := by
  induction e using Nat.strong_induction_on generalizing r base v with
  | _ e ih =>
    by_cases he : e = 0
    · rw [powLoop, dif_pos he] at h
      obtain rfl := Except.ok.inj h
      rw [he, pow_zero, Nat.mul_one]
      exact hr
    · rw [powLoop_step he] at h
      obtain ⟨r', hround, h⟩ := bind_ok h
      have hr' := round_spec hr hround
      rw [← pow_half]
      split_ifs at h with hhalf
      · obtain rfl := Except.ok.inj h
        rw [hhalf, pow_zero, Nat.one_mul]
        exact hr'
      · obtain ⟨square, hsq, h⟩ := bind_ok h
        have hs := ih (e / 2) (Nat.div_lt_self (Nat.pos_of_ne_zero he) (by decide)) hr' h
        rw [(magMul_spec hsq).val] at hs
        rwa [Nat.mul_comm ((val base.d * val base.d) ^ (e / 2)), ← Nat.mul_assoc]

/-- Its last product, that of the highest bit, has room. -/
theorem powLoop_lt (he : e ≠ 0) (h : powLoop e r base = .ok s) :
    val s.d < 2 ^ (32 * bigMaxLimbs) := by
  induction e using Nat.strong_induction_on generalizing r base with
  | _ e ih =>
    rw [powLoop_step he] at h
    obtain ⟨r', hround, h⟩ := bind_ok h
    split_ifs at h with hhalf
    · obtain rfl := Except.ok.inj h
      rw [if_pos (by omega)] at hround
      exact magMul_lt hround
    · obtain ⟨square, -, h⟩ := bind_ok h
      exact ih (e / 2) (Nat.div_lt_self (Nat.pos_of_ne_zero he) (by decide)) hhalf h

/-! ## The operator -/

theorem toNat_bigToi64 (hy : y.Norm) (hneg : y.neg = false) :
    (bigToi64 y).toNat = min y.toInt.toNat (2 ^ 40) := by
  have hpos := toInt_of_pos hneg
  rw [bigToi64_spec hy, if_neg (by omega), hpos, Int.toNat_natCast, Int.toNat_natCast]

/-- What the operator gives: the power of the narrowed exponent. -/
theorem biArith_pow (hy : y.Norm) (h : biArith .pow x y = .ok r) :
    0 ≤ y.toInt ∧ r.Norm ∧ r.toInt = x.toInt ^ min y.toInt.toNat (2 ^ 40) ∧
      (min y.toInt.toNat (2 ^ 40) ≠ 0 → r.toInt.natAbs < 2 ^ (32 * bigMaxLimbs)) := by
  unfold biArith at h
  dsimp only at h
  split_ifs at h with hneg
  have hneg := eq_false_of_ne_true hneg
  rw [toNat_bigToi64 hy hneg] at h
  generalize min y.toInt.toNat (2 ^ 40) = e at h ⊢
  obtain ⟨s, hloop, h⟩ := bind_ok h
  obtain rfl := Except.ok.inj h
  have hs := powLoop_spec (isMag_bigU64 (v := 1) (by decide)) hloop
  rw [Nat.one_mul] at hs
  obtain ⟨hnorm, hval⟩ := hs.withSign (x.neg && decide (e % 2 = 1))
  have hpow : (withSign s (x.neg && decide (e % 2 = 1))).toInt = x.toInt ^ e := by
    rw [hval, toInt_eq_ite x]
    by_cases hx : x.neg = true
    · rcases Nat.mod_two_eq_zero_or_one e with heven | hodd
      · simp [hx, heven, Even.neg_pow (Nat.even_iff.mpr heven)]
      · simp [hx, hodd, Odd.neg_pow (Nat.odd_iff.mpr hodd)]
    · simp [hx]
  refine ⟨by rw [toInt_of_pos hneg]; omega, hnorm, hpow, fun he => ?_⟩
  rw [hpow, Int.natAbs_pow, natAbs_toInt, ← hs.val]
  exact powLoop_lt he hloop

theorem two_pow_le {b : ℕ} (hb : 2 ≤ b) : 2 ^ (32 * bigMaxLimbs) ≤ b ^ 2 ^ 40 :=
  (Nat.pow_le_pow_right (by decide) (by unfold bigMaxLimbs; norm_num)).trans (Nat.pow_le_pow_left hb _)

/-- With 0, 1 or -1 to an even power, raising the exponent matters to -1 only. -/
theorem pow_narrowed {b : ℤ} {k m : ℕ} (hb : b.natAbs < 2) (hm : Even m) (hm0 : m ≠ 0) (hk : m < k) :
    b ^ m = b ^ k ↔ ¬ (b = -1 ∧ Odd k) := by
  obtain rfl | rfl | rfl : b = 0 ∨ b = 1 ∨ b = -1 := by omega
  · rw [zero_pow hm0, zero_pow (by omega)]
    simp
  · rw [one_pow, one_pow]
    simp
  · rw [hm.neg_one_pow]
    rcases Nat.even_or_odd k with heven | hodd
    · simp [heven.neg_one_pow, Nat.not_odd_iff_even.mpr heven]
    · simp [hodd.neg_one_pow, hodd]

/-- **A power that is given is the power, but for `-1` to an odd exponent above `2^40`.** -/
theorem pow_exact_iff (hy : y.Norm) (h : biArith .pow x y = .ok r) : r.Norm ∧
    (r.toInt = x.toInt ^ y.toInt.toNat ↔ ¬ (x.toInt = -1 ∧ Odd y.toInt ∧ 2 ^ 40 < y.toInt)) := by
  obtain ⟨hpos, hnorm, hval, hlt⟩ := biArith_pow hy h
  refine ⟨hnorm, ?_⟩
  obtain ⟨k, hk⟩ : ∃ k : ℕ, y.toInt = k := ⟨_, (Int.toNat_of_nonneg hpos).symm⟩
  rw [hk, Int.toNat_natCast] at hval hlt ⊢
  rcases Nat.lt_or_ge (2 ^ 40) k with hbig | hsmall
  · rw [min_eq_right hbig.le] at hval hlt
    have hbase : x.toInt.natAbs < 2 := by
      by_contra hge
      have hroom := hlt (by decide)
      rw [hval, Int.natAbs_pow] at hroom
      exact absurd (two_pow_le (Nat.le_of_not_lt hge)) (Nat.not_le_of_lt hroom)
    rw [hval, pow_narrowed hbase (by decide) (by decide) hbig, Int.odd_coe_nat]
    have hlt' : (2 : ℤ) ^ 40 < k := by exact_mod_cast hbig
    simp only [hlt', and_true]
  · rw [min_eq_left hsmall] at hval
    have hle : ¬ (2 : ℤ) ^ 40 < k := by
      have : (k : ℤ) ≤ 2 ^ 40 := by exact_mod_cast hsmall
      omega
    simp only [hval, hle, and_false, not_false_eq_true]

/-- `3 ** 2` -/
theorem pow_three_two : biArith .pow ⟨false, [3]⟩ ⟨false, [2]⟩ = .ok ⟨false, [9]⟩ ∧
    (⟨false, [9]⟩ : Big).Norm ∧ (⟨false, [9]⟩ : Big).toInt = (⟨false, [3]⟩ : Big).toInt ^ 2 := by
  have h : biArith .pow ⟨false, [3]⟩ ⟨false, [2]⟩ = .ok ⟨false, [9]⟩ := by decide +kernel
  have hy : (⟨false, [2]⟩ : Big).Norm := ⟨by simp [Trimmed], fun _ => rfl⟩
  obtain ⟨hnorm, hiff⟩ := pow_exact_iff hy h
  exact ⟨h, hnorm, hiff.mpr fun hx => absurd hx.1 (by decide)⟩

/-- `(-1) ** (2 ** 40 + 1)` is 1. -/
theorem pow_minus_one : ∃ x y r, x.Norm ∧ y.Norm ∧ 0 ≤ y.toInt ∧ biArith .pow x y = .ok r ∧
    r.toInt ≠ x.toInt ^ y.toInt.toNat := by
  refine ⟨⟨true, [1]⟩, ⟨false, [1, 256]⟩, ⟨false, [1]⟩, ⟨by simp [Trimmed], by simp⟩,
    ⟨by simp [Trimmed], fun _ => rfl⟩, by decide, by decide +kernel, ?_⟩
  have hx : (⟨true, [1]⟩ : Big).toInt = -1 := by decide
  have hy : (⟨false, [1, 256]⟩ : Big).toInt.toNat = 2 ^ 40 + 1 := by decide
  have hodd : Odd (2 ^ 40 + 1) := by decide
  rw [hx, hy, hodd.neg_one_pow]
  decide

end BananaOS.Bigint
