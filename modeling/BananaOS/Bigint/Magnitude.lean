import BananaOS.Bigint.Arith
import BananaOS.Lib.Limbs
import Mathlib.Data.Int.Order.Basic
import Mathlib.Tactic.Linarith

/-!
# Magnitudes

What each loop over limbs does to the number that the limbs stand for (`Lib.val`).  The loops that
compare rely on the top limb not being zero; those that give a number leave it so.
-/

namespace BananaOS.Bigint

open Lib

theorem toNat_ofNat_carry (c : ℕ) : (UInt32.ofNat c).toNat + 2 ^ 32 * carry c = c := by
  rw [UInt32.toNat_ofNat']
  unfold carry
  omega

theorem carry_lt {c n : ℕ} (h : c < 2 ^ 32 * n) : carry c < n := by
  unfold carry
  omega

/-! ## Comparison -/

theorem cmpDown_eq_sign : ∀ {a b : List UInt32}, a.length = b.length →
    cmpDown a b = ((val a.reverse : ℤ) - val b.reverse).sign
  | [], [], _ => by simp [cmpDown]
  | x :: xs, y :: ys, h => by
    have hlen : xs.length = ys.length := by simpa using h
    have ih := cmpDown_eq_sign hlen
    have hx := val_lt xs.reverse
    have hy := val_lt ys.reverse
    simp only [List.length_reverse] at hx hy
    simp only [cmpDown, List.reverse_cons, val_append, val_cons, val_nil, List.length_reverse,
      Nat.mul_zero, Nat.add_zero]
    rw [← hlen] at hy ⊢
    split_ifs with hne hlt
    · have hlt' : x.toNat + 1 ≤ y.toNat := UInt32.lt_iff_toNat_lt.mp hlt
      have hle := Nat.mul_le_mul_left (2 ^ (32 * xs.length)) hlt'
      rw [eq_comm, Int.sign_eq_neg_one_iff_neg]
      rw [Nat.mul_add] at hle
      omega
    · have hgt : y.toNat + 1 ≤ x.toNat := by
        have h1 := UInt32.lt_iff_toNat_lt.not.mp hlt
        have h2 := UInt32.toNat_inj.not.mpr hne
        omega
      have hle := Nat.mul_le_mul_left (2 ^ (32 * xs.length)) hgt
      rw [eq_comm, Int.sign_eq_one_iff_pos]
      rw [Nat.mul_add] at hle
      omega
    · rw [not_not] at hne
      rw [ih, hne]
      congr 1
      omega

/-- `mag_cmp` compares the numbers. -/
theorem magCmp_eq_sign {a b : List UInt32} (ha : Trimmed a) (hb : Trimmed b) :
    magCmp a b = ((val a : ℤ) - val b).sign := by
  unfold magCmp
  split_ifs with hne hlt
  · have := hb.val_lt_of_length hlt
    rw [eq_comm, Int.sign_eq_neg_one_iff_neg]
    omega
  · have := ha.val_lt_of_length (show b.length < a.length by omega)
    rw [eq_comm, Int.sign_eq_one_iff_pos]
    omega
  · rw [not_not] at hne
    simpa using cmpDown_eq_sign (a := a.reverse) (b := b.reverse) (by simpa using hne)

/-! ## Addition and subtraction -/

theorem val_addLoop : ∀ {a b : List UInt32} {c : ℕ}, b.length ≤ a.length → c ≤ 1 →
    val (addLoop a b c) = val a + val b + c
  | [], b, c, hlen, hc => by
    have hb : b = [] := List.eq_nil_of_length_eq_zero (by simpa using hlen)
    subst hb
    simp only [addLoop, val_cons, val_nil, UInt32.toNat_ofNat']
    omega
  | x :: xs, b, c, hlen, hc => by
    have hx := x.toNat_lt
    have hy := (b.headD 0).toNat_lt
    have hcarry : carry (c + (x.toNat + (b.headD 0).toNat)) ≤ 1 :=
      Nat.le_of_lt_succ (carry_lt (by omega))
    have ih := val_addLoop (a := xs) (b := b.tail) (c := carry (c + (x.toNat + (b.headD 0).toNat)))
      (by simp at hlen ⊢; omega) hcarry
    have hsum := toNat_ofNat_carry (c + (x.toNat + (b.headD 0).toNat))
    have hb := toNat_headD b
    simp only [addLoop, val_cons, ih, val_tail]
    omega

theorem val_subLoop : ∀ {a b : List UInt32} {c : ℕ}, c ≤ 1 → val b + c ≤ val a →
    val (subLoop a b c) = val a - val b - c
  | [], b, br, hbr, hle => by
    simp only [subLoop, val_nil] at hle ⊢
    omega
  | x :: xs, b, br, hbr, hle => by
    have hx := x.toNat_lt
    have hy := (b.headD 0).toNat_lt
    have hb := toNat_headD b
    have htail := val_tail b
    rw [val_cons] at hle
    simp only [subLoop, val_cons]
    split_ifs with hneg h0 h0
    · have ih := val_subLoop (a := xs) (b := b.tail) (c := 1) le_rfl (by omega)
      rw [Nat.cast_one] at ih
      rw [ih, UInt32.ofInt]
      simp only [UInt32.toNat_ofNat']
      omega
    · exact absurd one_ne_zero h0
    · exact absurd rfl h0
    · have ih := val_subLoop (a := xs) (b := b.tail) (c := 0) (by omega) (by omega)
      rw [Nat.cast_zero] at ih
      rw [ih, UInt32.ofInt]
      simp only [UInt32.toNat_ofNat']
      omega

/-! ## Multiplication -/

theorem mulRow_spec (x : UInt32) : ∀ (b lo hi : List UInt32) (c : ℕ), lo.length = b.length →
    c < 2 ^ 32 → ∃ lo' : List UInt32, ∃ c' : UInt32, mulRow x b (lo ++ 0 :: hi) c = lo' ++ c' :: hi ∧
      lo'.length = b.length ∧
      val lo' + 2 ^ (32 * b.length) * c'.toNat = x.toNat * val b + val lo + c
  | [], lo, hi, c, hlen, hc => by
    have hlo : lo = [] := List.eq_nil_of_length_eq_zero hlen
    subst hlo
    refine ⟨[], UInt32.ofNat c, rfl, rfl, ?_⟩
    simp only [val_nil, UInt32.toNat_ofNat', List.length_nil]
    omega
  | y :: ys, lo, hi, c, hlen, hc => by
    obtain ⟨r, rs, rfl⟩ := List.exists_cons_of_length_eq_add_one (hlen.trans (List.length_cons ..))
    have hx := x.toNat_lt
    have hy := y.toNat_lt
    have hr := r.toNat_lt
    have hmul : x.toNat * y.toNat ≤ (2 ^ 32 - 1) * (2 ^ 32 - 1) :=
      Nat.mul_le_mul (by omega) (by omega)
    obtain ⟨t, ht⟩ : ∃ t, t = x.toNat * y.toNat + r.toNat + c := ⟨_, rfl⟩
    have hlt : t < 2 ^ 32 * 2 ^ 32 := by omega
    have hmod : (x.toNat * y.toNat + r.toNat + c) % 2 ^ 64 = t := by
      rw [ht]
      exact Nat.mod_eq_of_lt (by omega)
    obtain ⟨lo', c', hrow, hlen', hval⟩ := mulRow_spec x ys rs hi (carry t) (by simpa using hlen)
      (carry_lt hlt)
    refine ⟨UInt32.ofNat t :: lo', c', ?_, by simp [hlen'], ?_⟩
    · simp only [mulRow, List.cons_append, List.tail_cons, List.headD_cons, hmod]
      rw [hrow]
    · have hsum := toNat_ofNat_carry t
      simp only [val_cons, List.length_cons, pow_limbs_succ]
      calc (UInt32.ofNat t).toNat + 2 ^ 32 * val lo' + 2 ^ 32 * 2 ^ (32 * ys.length) * c'.toNat
          = (UInt32.ofNat t).toNat + 2 ^ 32 * (val lo' + 2 ^ (32 * ys.length) * c'.toNat) := by ring
        _ = (UInt32.ofNat t).toNat + 2 ^ 32 * carry t + 2 ^ 32 * (x.toNat * val ys + val rs) := by
            rw [hval]
            ring
        _ = x.toNat * (y.toNat + 2 ^ 32 * val ys) + (r.toNat + 2 ^ 32 * val rs) + c := by
            rw [hsum, ht]
            ring

theorem val_mulLoop : ∀ (a b lo : List UInt32), lo.length = b.length →
    val (mulLoop a b (lo ++ List.replicate a.length 0)) = val a * val b + val lo
  | [], b, lo, _ => by simp [mulLoop]
  | x :: xs, b, lo, hlen => by
    obtain ⟨lo', c', hrow, hlen', hval⟩ :=
      mulRow_spec x b lo (List.replicate xs.length 0) 0 hlen (by decide)
    have htop : val (lo' ++ [c']) = x.toNat * val b + val lo := by
      rw [val_append, hlen', val_cons, val_nil, Nat.mul_zero, Nat.add_zero, hval, Nat.add_zero]
    obtain ⟨h, t, ht⟩ : ∃ h t, lo' ++ [c'] = h :: t :=
      List.exists_cons_of_ne_nil (by simp)
    have htlen : t.length = b.length := by
      have := congrArg List.length ht
      simp only [List.length_append, List.length_cons, List.length_nil] at this
      omega
    have hr : mulRow x b (lo ++ List.replicate (x :: xs).length 0) 0 =
        h :: (t ++ List.replicate xs.length 0) := by
      rw [List.length_cons, List.replicate_succ, hrow, ← List.cons_append, ← ht, List.append_assoc,
        List.singleton_append]
    simp only [mulLoop, hr, List.headD_cons, List.tail_cons, val_cons]
    rw [val_mulLoop xs b t htlen]
    rw [ht, val_cons] at htop
    calc h.toNat + 2 ^ 32 * (val xs * val b + val t)
        = 2 ^ 32 * val xs * val b + (h.toNat + 2 ^ 32 * val t) := by ring
      _ = (x.toNat + 2 ^ 32 * val xs) * val b + val lo := by
          rw [htop]
          ring

/-! ## Division by a limb -/

theorem shiftLeft_or_limb (r : ℕ) (x : UInt32) : r <<< 32 ||| x.toNat = r * 2 ^ 32 + x.toNat := by
  rw [← Nat.shiftLeft_add_eq_or_of_lt x.toNat_lt, Nat.shiftLeft_eq]

theorem divsmallLoop_spec {m : ℕ} (hm : 0 < m) (hm' : m < 2 ^ 32) : ∀ a : List UInt32,
    val (divsmallLoop m a).1 * m + (divsmallLoop m a).2 = val a ∧ (divsmallLoop m a).2 < m
  | [] => by simpa [divsmallLoop] using hm
  | x :: xs => by
    obtain ⟨ih, hlt⟩ := divsmallLoop_spec hm hm' xs
    have hx := x.toNat_lt
    obtain ⟨r, hr⟩ : ∃ r, r = (divsmallLoop m xs).2 := ⟨_, rfl⟩
    obtain ⟨cur, hcur⟩ : ∃ cur, cur = r * 2 ^ 32 + x.toNat := ⟨_, rfl⟩
    rw [← hr] at ih hlt
    have hq : cur / m < 2 ^ 32 := by
      rw [Nat.div_lt_iff_lt_mul hm, hcur]
      nlinarith
    simp only [divsmallLoop, shiftLeft_or_limb, ← hr, ← hcur, val_cons, UInt32.toNat_ofNat',
      Nat.mod_eq_of_lt hq]
    refine ⟨?_, Nat.mod_lt _ hm⟩
    have hdm := Nat.div_add_mod cur m
    calc (cur / m + 2 ^ 32 * val (divsmallLoop m xs).1) * m + cur % m
        = (m * (cur / m) + cur % m) + 2 ^ 32 * (val (divsmallLoop m xs).1 * m) := by ring
      _ = x.toNat + 2 ^ 32 * (val (divsmallLoop m xs).1 * m + r) := by
          rw [hdm, hcur]
          ring
      _ = x.toNat + 2 ^ 32 * val xs := by rw [ih]

/-! ## Bits -/

theorem shiftRight_five (k : ℕ) : k >>> 5 = k / 32 := Nat.shiftRight_eq_div_pow k 5

theorem and_thirtyOne (k : ℕ) : k &&& 31 = k % 32 := Nat.and_two_pow_sub_one_eq_mod k 5

theorem pow_limbs_bits (k : ℕ) : 2 ^ (32 * (k / 32)) * 2 ^ (k % 32) = 2 ^ k := by
  rw [← pow_add, Nat.div_add_mod]

theorem toNat_shift_one {r : ℕ} (h : r < 32) : ((1 : UInt32) <<< UInt32.ofNat r).toNat = 2 ^ r := by
  have hr : (UInt32.ofNat r).toNat % 32 = r := by
    rw [UInt32.toNat_ofNat']
    omega
  rw [UInt32.toNat_shiftLeft, hr, UInt32.toNat_one, Nat.one_shiftLeft,
    Nat.mod_eq_of_lt (Nat.pow_lt_pow_right (by decide) h)]

theorem bitCount_spec (n : ℕ) : n < 2 ^ bitCount n ∧ (n ≠ 0 → 2 ^ bitCount n ≤ 2 * n) := by
  induction n using Nat.strong_induction_on with
  | _ n ih =>
    unfold bitCount
    split_ifs with h
    · simp [h]
    · obtain ⟨h1, h2⟩ := ih (n / 2) (by omega)
      rw [pow_succ]
      refine ⟨by omega, fun _ => ?_⟩
      rcases Nat.eq_zero_or_pos (n / 2) with h0 | h0
      · have hz : bitCount (n / 2) = 0 := by
          rw [h0]
          unfold bitCount
          simp
        rw [hz]
        omega
      · have := h2 (by omega)
        omega

/-- `mag_bits` is the number of bits. -/
theorem magBits_spec {a : List UInt32} (ha : Trimmed a) (hne : a ≠ []) (hshort : a.length < 2 ^ 27) :
    2 ^ magBits a ≤ 2 * val a ∧ val a < 2 ^ magBits a ∧ magBits a ≤ 32 * a.length := by
  obtain ⟨m, x, rfl⟩ := (List.eq_nil_or_concat a).resolve_left hne
  rw [List.concat_eq_append] at ha hshort ⊢
  have hx0 : x.toNat ≠ 0 := fun h0 => trimmed_concat.mp ha (UInt32.toNat_inj.mp h0)
  obtain ⟨h1, h2⟩ := bitCount_spec x.toNat
  have h2 := h2 hx0
  have hc : bitCount x.toNat ≤ 32 := by
    by_contra hc
    have := Nat.pow_le_pow_right (show 0 < 2 by decide) (show 33 ≤ bitCount x.toNat by omega)
    have := x.toNat_lt
    omega
  have hm := val_lt m
  simp only [List.length_append, List.length_cons, List.length_nil] at hshort
  have hbits : magBits (m ++ [x]) = 32 * m.length + bitCount x.toNat := by
    unfold magBits
    rw [List.getLast?_concat]
    simp only [List.length_append, List.length_cons, List.length_nil]
    rw [Nat.mod_eq_of_lt (by omega)]
    omega
  rw [hbits, val_append, val_cons, val_nil, pow_add, List.length_append, List.length_singleton]
  have hpos : 0 < 2 ^ (32 * m.length) := by positivity
  refine ⟨?_, ?_, by omega⟩
  · nlinarith
  · nlinarith

theorem toNat_magBit (a : List UInt32) (bit : ℕ) : (magBit a bit).toNat = val a / 2 ^ bit % 2 := by
  have hr : bit % 32 < 32 := Nat.mod_lt _ (by decide)
  have hshift : (UInt32.ofNat (bit % 32)).toNat % 32 = bit % 32 := by
    rw [UInt32.toNat_ofNat']
    omega
  have hsplit : 2 ^ 32 = 2 ^ (bit % 32) * 2 ^ (32 - bit % 32) := by
    rw [← pow_add]
    congr 1
    omega
  have hdvd : 2 ∣ 2 ^ (32 - bit % 32) := dvd_pow_self 2 (by omega)
  unfold magBit
  rw [shiftRight_five, and_thirtyOne, UInt32.toNat_and, UInt32.toNat_shiftRight, hshift,
    UInt32.toNat_one, Nat.and_one_is_mod, Nat.shiftRight_eq_div_pow, toNat_getD, hsplit,
    Nat.mod_mul_right_div_self, Nat.mod_mod_of_dvd _ hdvd, Nat.div_div_eq_div_mul, pow_limbs_bits]

/-- A bit that is clear, with all below it, is set. -/
theorem val_setBit (l : List UInt32) {bit : ℕ} (hbit : bit < 32 * l.length)
    (hclear : 2 ^ (bit + 1) ∣ val l) :
    val (l.modify (bit >>> 5) (· ||| 1 <<< UInt32.ofNat (bit &&& 31))) = val l + 2 ^ bit := by
  have hr : bit % 32 < 32 := Nat.mod_lt _ (by decide)
  rw [shiftRight_five, and_thirtyOne, val_modify l _ (by omega)]
  obtain ⟨y, hy⟩ : ∃ y, val l / 2 ^ (32 * (bit / 32)) % 2 ^ 32 = y * 2 ^ (bit % 32 + 1) := by
    have h1 : 2 ^ (bit % 32 + 1) ∣ val l / 2 ^ (32 * (bit / 32)) := by
      apply Nat.dvd_div_of_mul_dvd
      rwa [← pow_add, ← Nat.add_assoc, Nat.div_add_mod]
    have h2 : 2 ^ (bit % 32 + 1) ∣ 2 ^ 32 := pow_dvd_pow 2 (by omega)
    obtain ⟨y, hy⟩ := (Nat.dvd_mod_iff h2).mpr h1
    exact ⟨y, by rw [hy, Nat.mul_comm]⟩
  have hor : (l.getD (bit / 32) 0 ||| 1 <<< UInt32.ofNat (bit % 32)).toNat =
      val l / 2 ^ (32 * (bit / 32)) % 2 ^ 32 + 2 ^ (bit % 32) := by
    rw [UInt32.toNat_or, toNat_shift_one hr, toNat_getD, hy, ← Nat.shiftLeft_eq,
      Nat.shiftLeft_add_eq_or_of_lt (Nat.pow_lt_pow_right (by decide) (Nat.lt_succ_self _))]
  have htop : val l / 2 ^ (32 * (bit / 32 + 1)) = val l / 2 ^ (32 * (bit / 32)) / 2 ^ 32 := by
    rw [Nat.div_div_eq_div_mul, ← pow_add, Nat.mul_add]
  have hlow := Nat.div_add_mod (val l) (2 ^ (32 * (bit / 32)))
  have hlimb := Nat.mod_add_div (val l / 2 ^ (32 * (bit / 32))) (2 ^ 32)
  rw [hor, htop, ← pow_limbs_bits bit]
  calc _ = val l % 2 ^ (32 * (bit / 32)) + 2 ^ (32 * (bit / 32)) *
        (val l / 2 ^ (32 * (bit / 32)) % 2 ^ 32 +
          2 ^ 32 * (val l / 2 ^ (32 * (bit / 32)) / 2 ^ 32)) +
        2 ^ (32 * (bit / 32)) * 2 ^ (bit % 32) := by ring
    _ = _ := by
      rw [hlimb]
      omega

/-- The bits from `k` on cleared in the limb that `k` is in, the last one. -/
theorem val_maskTop (l : List UInt32) {q r : ℕ} (hlen : l.length = q + 1) {mask : UInt32}
    (hmask : mask.toNat = 2 ^ r - 1) :
    val (l.modify q (· &&& mask)) = val l % 2 ^ (32 * q) + 2 ^ (32 * q) *
      (val l / 2 ^ (32 * q) % 2 ^ r) := by
  have hlt : val l / 2 ^ (32 * (q + 1)) = 0 := by
    rw [← hlen]
    exact Nat.div_eq_of_lt (val_lt l)
  have hlimb : val l / 2 ^ (32 * q) < 2 ^ 32 := by
    rw [Nat.div_lt_iff_lt_mul (by positivity), ← pow_add]
    have := val_lt l
    rwa [hlen, Nat.mul_add, Nat.add_comm] at this
  rw [val_modify l _ (by omega), hlt, Nat.mul_zero, Nat.add_zero, UInt32.toNat_and, hmask,
    Nat.and_two_pow_sub_one_eq_mod, toNat_getD, Nat.mod_eq_of_lt hlimb]

theorem toNat_mask {r : ℕ} (h : r < 32) : (if r ≠ 0 then ((1 : UInt32) <<< UInt32.ofNat r) - 1 else 0).toNat = 2 ^ r - 1 := by
  split_ifs with h0
  · have hpos : 1 ≤ 2 ^ r := Nat.one_le_two_pow
    have hlt : 2 ^ r < 2 ^ 32 := Nat.pow_lt_pow_right (by decide) h
    rw [UInt32.toNat_sub, toNat_shift_one h, UInt32.toNat_one]
    omega
  · rw [not_not] at h0
    simp [h0]

theorem val_maskLow (a : List UInt32) (k : ℕ) : val (maskLow a k) = val a % 2 ^ k := by
  have hr : k % 32 < 32 := Nat.mod_lt _ (by decide)
  unfold maskLow
  rw [shiftRight_five, and_thirtyOne, val_maskTop _ (by simp) (toNat_mask hr), val_range_getD,
    ← pow_limbs_bits k, Nat.mod_mul]
  have hdvd : 2 ^ (32 * (k / 32)) ∣ 2 ^ (32 * (k / 32 + 1)) := pow_dvd_pow 2 (by omega)
  have hsplit : 2 ^ (32 * (k / 32 + 1)) = 2 ^ (32 * (k / 32)) * 2 ^ 32 := by
    rw [← pow_add, Nat.mul_add]
  have hdvd' : 2 ^ (k % 32) ∣ 2 ^ 32 := pow_dvd_pow 2 hr.le
  rw [Nat.mod_mod_of_dvd _ hdvd, hsplit, Nat.mod_mul_right_div_self, Nat.mod_mod_of_dvd _ hdvd']

/-! ## Shifts -/

theorem val_shlLoop {bs : ℕ} (hbs : bs < 32) : ∀ (a : List UInt32) (prev : UInt32),
    prev.toNat < 2 ^ bs → val (shlLoop bs a prev) = val a * 2 ^ bs + prev.toNat
  | [], prev, _ => by simp [shlLoop]
  | x :: xs, prev, hprev => by
    have hx := x.toNat_lt
    have hcarry : carry (x.toNat <<< bs) < 2 ^ bs := by
      apply carry_lt
      rw [Nat.shiftLeft_eq]
      exact Nat.mul_lt_mul_of_pos_right hx (by positivity)
    have hc32 : carry (x.toNat <<< bs) < 2 ^ 32 :=
      hcarry.trans (Nat.pow_lt_pow_right (by decide) hbs)
    have hnext : (0 ||| UInt32.ofNat (carry (x.toNat <<< bs))).toNat = carry (x.toNat <<< bs) := by
      rw [UInt32.toNat_or, UInt32.toNat_zero, Nat.zero_or, UInt32.toNat_ofNat',
        Nat.mod_eq_of_lt hc32]
    have hsplit : 2 ^ 32 = 2 ^ (32 - bs) * 2 ^ bs := by
      rw [← pow_add]
      congr 1
      omega
    have hlow : (prev ||| UInt32.ofNat (x.toNat <<< bs)).toNat =
        (UInt32.ofNat (x.toNat <<< bs)).toNat + prev.toNat := by
      have hmul : (UInt32.ofNat (x.toNat <<< bs)).toNat = (x.toNat % 2 ^ (32 - bs)) <<< bs := by
        rw [UInt32.toNat_ofNat', Nat.shiftLeft_eq, Nat.shiftLeft_eq, hsplit, Nat.mul_mod_mul_right]
      rw [UInt32.toNat_or, hmul, Nat.or_comm, Nat.shiftLeft_add_eq_or_of_lt hprev]
    have ih := val_shlLoop hbs xs (0 ||| UInt32.ofNat (carry (x.toNat <<< bs)))
      (by rw [hnext]; exact hcarry)
    simp only [shlLoop, val_cons, ih, hlow, hnext]
    have hsum := toNat_ofNat_carry (x.toNat <<< bs)
    rw [Nat.shiftLeft_eq] at hsum ⊢
    calc (UInt32.ofNat (x.toNat * 2 ^ bs)).toNat + prev.toNat +
          2 ^ 32 * (val xs * 2 ^ bs + carry (x.toNat * 2 ^ bs))
        = ((UInt32.ofNat (x.toNat * 2 ^ bs)).toNat + 2 ^ 32 * carry (x.toNat * 2 ^ bs)) +
          2 ^ 32 * val xs * 2 ^ bs + prev.toNat := by ring
      _ = (x.toNat + 2 ^ 32 * val xs) * 2 ^ bs + prev.toNat := by
          rw [hsum]
          ring

theorem val_shrLoop {bs : ℕ} (hbs : bs < 32) : ∀ a : List UInt32,
    val (shrLoop bs a) = val a / 2 ^ bs
  | [] => by simp [shrLoop]
  | lo :: rest => by
    have hsplit : 2 ^ 32 = 2 ^ bs * 2 ^ (32 - bs) := by
      rw [← pow_add]
      congr 1
      omega
    obtain ⟨v, hv⟩ : ∃ v, v = val rest := ⟨_, rfl⟩
    obtain ⟨u, hu⟩ : ∃ u, u = lo.toNat + 2 ^ 32 * v := ⟨_, rfl⟩
    -- the two limbs that the result limb is made of have the same bits as the whole number
    have hlimb : ((v % 2 ^ 32) * 2 ^ 32 + lo.toNat) / 2 ^ bs % 2 ^ 32 = u / 2 ^ bs % 2 ^ 32 := by
      have hmod : ((v % 2 ^ 32) * 2 ^ 32 + lo.toNat) % (2 ^ bs * 2 ^ 32) = u % (2 ^ bs * 2 ^ 32) := by
        have hle : 2 ^ bs * 2 ^ 32 ∣ 2 ^ 32 * 2 ^ 32 :=
          Nat.mul_dvd_mul_right (pow_dvd_pow 2 hbs.le) _
        have heq : u = ((v % 2 ^ 32) * 2 ^ 32 + lo.toNat) + 2 ^ 32 * 2 ^ 32 * (v / 2 ^ 32) := by
          have := Nat.mod_add_div v (2 ^ 32)
          rw [hu]
          omega
        obtain ⟨c, hc⟩ := hle
        rw [heq, hc, Nat.mul_assoc, Nat.add_mul_mod_self_left]
      have h1 := Nat.mod_mul_right_div_self ((v % 2 ^ 32) * 2 ^ 32 + lo.toNat) (2 ^ bs) (2 ^ 32)
      have h2 := Nat.mod_mul_right_div_self u (2 ^ bs) (2 ^ 32)
      rw [← h1, ← h2, hmod]
    have hrest : v / 2 ^ bs = u / 2 ^ bs / 2 ^ 32 := by
      rw [Nat.div_div_eq_div_mul, Nat.mul_comm, ← Nat.div_div_eq_div_mul]
      congr 1
      have := lo.toNat_lt
      omega
    simp only [shrLoop, val_cons, toNat_headD, shiftLeft_or_limb, UInt32.toNat_ofNat',
      Nat.shiftRight_eq_div_pow, val_shrLoop hbs rest, ← hv, ← hu, hlimb, hrest]
    exact Nat.mod_add_div _ _

/-! ## Long division -/

theorem toNat_shift_thirtyOne (x : UInt32) : (x >>> 31).toNat = x.toNat / 2 ^ 31 := by
  rw [UInt32.toNat_shiftRight, Nat.shiftRight_eq_div_pow]
  rfl

theorem toNat_double (x c : UInt32) (hc : c.toNat ≤ 1) :
    (x <<< 1 ||| c).toNat + 2 ^ 32 * (x >>> 31).toNat = 2 * x.toNat + c.toNat := by
  have hx := x.toNat_lt
  have hshl : (x <<< 1).toNat = (x.toNat % 2 ^ 31) <<< 1 := by
    rw [UInt32.toNat_shiftLeft, show (1 : UInt32).toNat % 32 = 1 from rfl, Nat.shiftLeft_eq,
      Nat.shiftLeft_eq]
    omega
  have hor : (x <<< 1 ||| c).toNat = 2 * (x.toNat % 2 ^ 31) + c.toNat := by
    rw [UInt32.toNat_or, hshl, ← Nat.shiftLeft_add_eq_or_of_lt (by omega), Nat.shiftLeft_eq]
    omega
  rw [hor, toNat_shift_thirtyOne]
  omega

theorem val_doubleLoop : ∀ (a : List UInt32) (c : UInt32), c.toNat ≤ 1 →
    val (doubleLoop a c) = 2 * val a + c.toNat
  | [], c, _ => by
    unfold doubleLoop
    split_ifs with h
    · simp
    · rw [not_not] at h
      simp [h]
  | x :: xs, c, hc => by
    have hx := x.toNat_lt
    have hnext : (x >>> 31).toNat ≤ 1 := by
      rw [toNat_shift_thirtyOne]
      omega
    have hd := toNat_double x c hc
    simp only [doubleLoop, val_cons, val_doubleLoop xs _ hnext]
    omega

theorem doubleLoop_shape : ∀ (a : List UInt32) (c : UInt32), ∃ body, body.length = a.length ∧
    (doubleLoop a c = body ∨ ∃ t, t ≠ 0 ∧ doubleLoop a c = body ++ [t])
  | [], c => by
    refine ⟨[], rfl, ?_⟩
    unfold doubleLoop
    split_ifs with h
    · exact Or.inr ⟨c, h, rfl⟩
    · exact Or.inl rfl
  | x :: xs, c => by
    obtain ⟨body, hlen, h | ⟨t, ht, h⟩⟩ := doubleLoop_shape xs (x >>> 31)
    · exact ⟨(x <<< 1 ||| c) :: body, by simp [hlen], Or.inl (by simp [doubleLoop, h])⟩
    · exact ⟨(x <<< 1 ||| c) :: body, by simp [hlen], Or.inr ⟨t, ht, by simp [doubleLoop, h]⟩⟩

theorem trimmed_doubleLoop {a : List UInt32} (ha : Trimmed a) {c : UInt32} (hc : c.toNat ≤ 1) :
    Trimmed (doubleLoop a c) := by
  obtain ⟨body, hlen, h | ⟨t, ht, h⟩⟩ := doubleLoop_shape a c
  · rcases List.eq_nil_or_concat a with rfl | ⟨m, x, rfl⟩
    · have hb : body = [] := List.eq_nil_of_length_eq_zero hlen
      rw [h, hb]
      exact trimmed_nil
    · -- the same number of limbs, and at least the same number
      have hle := ha.le_val (by simp)
      have hval := val_doubleLoop (m.concat x) c hc
      obtain ⟨m', x', hm'⟩ := (List.eq_nil_or_concat body).resolve_left (by
        rintro rfl
        simp at hlen)
      rw [h, hm', List.concat_eq_append] at hval ⊢
      refine trimmed_concat.mpr ?_
      rintro rfl
      rw [hm'] at hlen
      simp only [List.length_concat, Nat.add_sub_cancel] at hle hlen
      have hm := val_lt m'
      rw [val_append] at hval
      simp only [val_cons, val_nil, UInt32.toNat_zero, Nat.mul_zero, Nat.add_zero] at hval
      rw [show m'.length = m.length by omega] at hm
      omega
  · rw [h]
    exact trimmed_concat.mpr ht

/-- The long division: what is left of `a` above the current bit, divided. -/
theorem divLoop_spec {a b : List UInt32} (hb : Trimmed b) (hb0 : 0 < val b) :
    ∀ (bit : ℕ) (qq rr : List UInt32) (q : ℕ), bit ≤ 32 * qq.length → Trimmed rr →
      val rr < val b → val qq = q * 2 ^ bit → val a / 2 ^ bit = q * val b + val rr →
      val a = val (divLoop a b bit qq rr).1 * val b + val (divLoop a b bit qq rr).2 ∧
        val (divLoop a b bit qq rr).2 < val b ∧ Trimmed (divLoop a b bit qq rr).2
  | 0, qq, rr, q, _, hrr, hlt, hq, hdiv => by
    rw [pow_zero, Nat.mul_one] at hq
    rw [pow_zero, Nat.div_one] at hdiv
    exact ⟨by rw [hdiv]; simp only [divLoop, hq], hlt, hrr⟩
  | bit + 1, qq, rr, q, hlen, hrr, hlt, hq, hdiv => by
    have hbit : (magBit a bit).toNat ≤ 1 := by
      rw [toNat_magBit]
      omega
    obtain ⟨rr', hrr'⟩ : ∃ rr', rr' = doubleLoop rr (magBit a bit) := ⟨_, rfl⟩
    have htrim : Trimmed rr' := hrr' ▸ trimmed_doubleLoop hrr hbit
    have hval : val rr' = 2 * val rr + (magBit a bit).toNat := hrr' ▸ val_doubleLoop rr _ hbit
    have hstep : val a / 2 ^ bit = 2 * q * val b + val rr' := by
      have hhalf : val a / 2 ^ bit / 2 = val a / 2 ^ (bit + 1) := by
        rw [Nat.div_div_eq_div_mul, pow_succ]
      have hdm := Nat.div_add_mod (val a / 2 ^ bit) 2
      rw [hhalf, hdiv] at hdm
      rw [hval, toNat_magBit, Nat.mul_assoc]
      omega
    have hcmp := magCmp_eq_sign htrim hb
    simp only [divLoop, ← hrr']
    split_ifs with hge
    · have hle : val b ≤ val rr' := by
        rw [hcmp, ge_iff_le, Int.sign_nonneg_iff] at hge
        omega
      have hsub : val (subLoop rr' b 0) = val rr' - val b := by
        have := val_subLoop (a := rr') (b := b) (c := 0) (by omega) (by omega)
        simpa using this
      have hset : val (qq.modify (bit >>> 5) (· ||| 1 <<< UInt32.ofNat (bit &&& 31))) =
          (2 * q + 1) * 2 ^ bit := by
        rw [val_setBit qq (by omega) ⟨q, by rw [hq, Nat.mul_comm]⟩, hq, pow_succ]
        ring
      refine divLoop_spec hb hb0 bit _ _ (2 * q + 1) (by rw [List.length_modify]; omega)
        (trimmed_rdropWhile _) ?_ hset ?_
      · rw [val_rdropWhile, hsub]
        omega
      · rw [val_rdropWhile, hsub, hstep]
        have : (2 * q + 1) * val b = 2 * q * val b + val b := by ring
        omega
    · have hlt' : val rr' < val b := by
        rw [hcmp, ge_iff_le, Int.sign_nonneg_iff] at hge
        omega
      refine divLoop_spec hb hb0 bit qq rr' (2 * q) (by omega) htrim hlt' ?_ hstep
      rw [hq, pow_succ]
      ring

/-! ## The functions on magnitudes -/

/-- A magnitude that was trimmed and has no sign. -/
structure IsMag (r : Big) (v : ℕ) : Prop where
  trimmed : Trimmed r.d
  val : val r.d = v
  neg : r.neg = false

theorem isMag_norm (l : List UInt32) : IsMag (bigNorm ⟨false, l⟩) (val l) := by
  refine ⟨trimmed_rdropWhile l, val_rdropWhile l, ?_⟩
  simp [bigNorm]

theorem isMag_zero : IsMag ⟨false, []⟩ 0 := ⟨trimmed_nil, rfl, rfl⟩

theorem isMag_bigU64 {v : ℕ} (h : v < 2 ^ 64) : IsMag (bigU64 v false) v := by
  have hval : val [UInt32.ofNat v, UInt32.ofNat (carry v)] = v := by
    simp only [val_cons, val_nil, UInt32.toNat_ofNat', carry]
    omega
  have := isMag_norm [UInt32.ofNat v, UInt32.ofNat (carry v)]
  rwa [hval] at this

theorem magAdd_spec (a b : List UInt32) : IsMag (magAdd a b) (val a + val b) := by
  unfold magAdd
  split_ifs with h
  · have := isMag_norm (addLoop b a 0)
    rwa [val_addLoop h.le (by decide), Nat.add_zero, Nat.add_comm] at this
  · have := isMag_norm (addLoop a b 0)
    rwa [val_addLoop (not_lt.mp h) (by decide), Nat.add_zero] at this

theorem magSub_spec {a b : List UInt32} (h : val b ≤ val a) : IsMag (magSub a b) (val a - val b) := by
  have hval : val (subLoop a b 0) = val a - val b := by
    simpa using val_subLoop (a := a) (b := b) (c := 0) (by omega) (by omega)
  rw [← hval]
  exact isMag_norm _

theorem magMul_spec {a b : List UInt32} {r : Big} (h : magMul a b = .ok r) :
    IsMag r (val a * val b) := by
  unfold magMul at h
  split_ifs at h with hnil
  · obtain rfl := Except.ok.inj h
    have hz : val a * val b = 0 := by
      rcases hnil with rfl | rfl <;> simp
    rw [hz]
    exact isMag_zero
  · unfold tooBig at h
    split_ifs at h with hle
    · obtain rfl := Except.ok.inj h
      have hmul := val_mulLoop a b (List.replicate b.length 0) (by simp)
      rw [List.replicate_append_replicate, val_replicate_zero, Nat.add_zero,
        Nat.add_comm b.length] at hmul
      rw [← hmul]
      exact isMag_norm _
    · exact absurd h (by simp [bind, Except.bind])

theorem magShl_spec {a r : Big} {k : ℕ} (h : magShl a k = .ok r) :
    Trimmed r.d ∧ val r.d = val a.d * 2 ^ k ∧ r.neg = (decide (r.d ≠ []) && a.neg) := by
  unfold magShl at h
  split_ifs at h with hnil
  · obtain rfl := Except.ok.inj h
    exact ⟨trimmed_nil, by simp [hnil], rfl⟩
  · unfold tooBig at h
    simp only [shiftRight_five, and_thirtyOne] at h
    split_ifs at h with hle
    · obtain rfl := Except.ok.inj h
      refine ⟨trimmed_rdropWhile _, ?_, ?_⟩
      · simp only [bigNorm]
        rw [val_rdropWhile, val_append, val_replicate_zero, Nat.zero_add, List.length_replicate,
          val_shlLoop (Nat.mod_lt _ (by decide)) _ _ (by simp), UInt32.toNat_zero, Nat.add_zero,
          ← pow_limbs_bits k]
        ring
      · simp only [bigNorm]
        split_ifs with hd <;> simp [hd]
    · exact absurd h (by simp [bind, Except.bind])

theorem magShr_spec (a : List UInt32) (k : ℕ) : IsMag (magShr a k) (val a / 2 ^ k) := by
  unfold magShr
  simp only [shiftRight_five, and_thirtyOne]
  split_ifs with hls
  · have hlt : val a < 2 ^ k := (val_lt a).trans_le
      (Nat.pow_le_pow_right (by decide) (by omega))
    rw [Nat.div_eq_of_lt hlt]
    exact isMag_zero
  · have := isMag_norm (shrLoop (k % 32) (a.drop (k / 32)))
    rwa [val_shrLoop (Nat.mod_lt _ (by decide)), val_drop, Nat.div_div_eq_div_mul,
      pow_limbs_bits] at this

theorem exists_pow_of_and_pred {x : UInt32} (hx : x ≠ 0) (h : x &&& (x - 1) = 0) :
    ∃ j, x.toNat = 2 ^ j := by
  have hx0 : x.toNat ≠ 0 := fun h0 => hx (UInt32.toNat_inj.mp h0)
  have hlt := x.toNat_lt
  have hand : x.toNat &&& (x.toNat - 1) = 0 := by
    have hsub : (x - 1).toNat = x.toNat - 1 := by
      rw [UInt32.toNat_sub, UInt32.toNat_one]
      omega
    rw [← hsub, ← UInt32.toNat_and, h, UInt32.toNat_zero]
  exact (Nat.and_sub_one_eq_zero_iff_isPowerOfTwo hx0).mp hand

/-- The shortcut of `mag_divmod` is for the powers of two. -/
theorem val_eq_pow {b : List UInt32} (hb : Trimmed b) (hne : b ≠ []) (hshort : b.length < 2 ^ 27)
    (htop : b.getLastD 0 &&& (b.getLastD 0 - 1) = 0) (hlow : AllZero b.dropLast) :
    val b = 2 ^ (magBits b - 1) := by
  obtain ⟨h1, h2, -⟩ := magBits_spec hb hne hshort
  obtain ⟨m, x, rfl⟩ := (List.eq_nil_or_concat b).resolve_left hne
  rw [List.concat_eq_append] at *
  have hm : m = List.replicate m.length 0 := by
    rw [List.dropLast_concat] at hlow
    exact List.eq_replicate_iff.mpr ⟨rfl, hlow⟩
  have hlast : (m ++ [x]).getLastD 0 = x := by simp [List.getLastD_eq_getLast?]
  rw [hlast] at htop
  obtain ⟨j, hj⟩ := exists_pow_of_and_pred (trimmed_concat.mp hb) htop
  have hval : val (m ++ [x]) = 2 ^ (32 * m.length + j) := by
    rw [val_append, hm, val_replicate_zero, Nat.zero_add, List.length_replicate, val_cons, val_nil,
      Nat.mul_zero, Nat.add_zero, hj, pow_add]
  rw [hval] at h1 h2 ⊢
  rw [← pow_succ'] at h1
  have hle := (Nat.pow_le_pow_iff_right (by decide)).mp h1
  have hlt := (Nat.pow_lt_pow_iff_right (by decide)).mp h2
  congr 1
  omega

theorem magDivmod_spec {a b : List UInt32} (ha : Trimmed a) (hb : Trimmed b) (hne : b ≠ [])
    (hsa : a.length < 2 ^ 27) (hsb : b.length < 2 ^ 27) :
    IsMag (magDivmod a b).1 (val a / val b) ∧ IsMag (magDivmod a b).2 (val a % val b) := by
  have hb0 := hb.val_pos hne
  have hcmp := magCmp_eq_sign ha hb
  unfold magDivmod
  simp only
  split_ifs with hlt hone hpow
  · have hlt' : val a < val b := by
      rw [hcmp, Int.sign_neg_iff] at hlt
      omega
    rw [Nat.div_eq_of_lt hlt', Nat.mod_eq_of_lt hlt']
    exact ⟨isMag_zero, ha, rfl, rfl⟩
  · obtain ⟨m, rfl⟩ := List.length_eq_one_iff.mp hone
    have hm : val [m] = m.toNat := by simp
    rw [hm] at hb0
    obtain ⟨hdm, hr⟩ := divsmallLoop_spec hb0 m.toNat_lt a
    have hq : val (divsmallLoop m.toNat a).1 = val a / m.toNat := by
      rw [← hdm, Nat.add_comm, Nat.add_mul_div_right _ _ hb0, Nat.div_eq_of_lt hr, Nat.zero_add]
    have hmod : (divsmallLoop m.toNat a).2 = val a % m.toNat := by
      rw [← hdm, Nat.add_comm, Nat.add_mul_mod_self_right, Nat.mod_eq_of_lt hr]
    rw [hm]
    refine ⟨?_, ?_⟩
    · have := isMag_norm (divsmallLoop m.toNat a).1
      rw [hq] at this
      exact this
    · have hlt64 : (divsmallLoop m.toNat a).2 < 2 ^ 64 := by
        have := m.toNat_lt
        omega
      have := isMag_bigU64 hlt64
      rw [← hmod]
      exact this
  · have hval := val_eq_pow hb hne hsb hpow.1 hpow.2
    refine ⟨?_, ?_⟩
    · have := magShr_spec a (magBits b - 1)
      rwa [← hval] at this
    · have := isMag_norm (maskLow a (magBits b - 1))
      rwa [val_maskLow, ← hval] at this
  · have hne' : a ≠ [] := by
      rintro rfl
      rw [hcmp, Int.sign_neg_iff] at hlt
      simp at hlt
      omega
    obtain ⟨-, hbits, hlen⟩ := magBits_spec ha hne' hsa
    obtain ⟨h1, h2, h3⟩ := divLoop_spec (a := a) hb hb0 (magBits a) (List.replicate a.length 0) [] 0
      (by simpa using hlen) trimmed_nil hb0 (by simp) (by simp [Nat.div_eq_of_lt hbits])
    simp only
    refine ⟨?_, h3, ?_, rfl⟩
    · have := isMag_norm (divLoop a b (magBits a) (List.replicate a.length 0) []).1
      rwa [show val (divLoop a b (magBits a) (List.replicate a.length 0) []).1 = val a / val b by
        conv_rhs => rw [h1, Nat.add_comm, Nat.add_mul_div_right _ _ hb0, Nat.div_eq_of_lt h2,
          Nat.zero_add]] at this
    · conv_rhs => rw [h1, Nat.add_comm, Nat.add_mul_mod_self_right, Nat.mod_eq_of_lt h2]

end BananaOS.Bigint
