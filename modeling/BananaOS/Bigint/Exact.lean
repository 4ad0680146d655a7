import BananaOS.Bigint.Magnitude
import BananaOS.Lib.TwosComplement
import Mathlib.Algebra.Order.Floor.Ring

/-!
# BigInt arithmetic is exact

A `Big` stands for an integer (`Big.toInt`); `Big.Norm` is what the operations keep: no zero limb
at the top, and zero is not negative.  Each operation gives a number of that kind that stands for
the mathematical result, or throws.

The bit operations go through two's complement of a width that has room for the sign of both
operands, so that the bits from there on are the sign's (`testBit_of_le`) and the limbs below
decide everything.
-/

namespace BananaOS.Bigint

open Lib

namespace Big

/-- The integer that a BigInt stands for. -/
def toInt (b : Big) : ℤ := if b.neg then -(val b.d : ℤ) else val b.d

/-- No zero limb at the top, and zero is not negative. -/
structure Norm (b : Big) : Prop where
  trimmed : Trimmed b.d
  zero : b.d = [] → b.neg = false

/-- As long as a BigInt in the memory of a web worker can be. -/
def Short (b : Big) : Prop := b.d.length < 2 ^ 27

theorem natAbs_toInt (b : Big) : b.toInt.natAbs = val b.d := by
  unfold toInt
  split_ifs <;> simp

theorem toInt_of_neg {b : Big} (h : b.neg = true) : b.toInt = -(val b.d : ℤ) := if_pos h

theorem toInt_of_pos {b : Big} (h : b.neg = false) : b.toInt = val b.d := by
  simp [toInt, h]

theorem Norm.val_pos {b : Big} (h : b.Norm) (hneg : b.neg = true) : 0 < val b.d := by
  refine h.trimmed.val_pos fun hnil => ?_
  rw [h.zero hnil] at hneg
  exact absurd hneg (by simp)

theorem Norm.neg_iff {b : Big} (h : b.Norm) : b.neg = true ↔ b.toInt < 0 := by
  constructor
  · intro hneg
    have := h.val_pos hneg
    rw [toInt_of_neg hneg]
    omega
  · intro hlt
    by_contra hneg
    rw [toInt_of_pos (by simpa using hneg)] at hlt
    omega

end Big

open Big

/-! ## Signs -/

theorem IsMag.norm {r : Big} {v : ℕ} (h : IsMag r v) : r.Norm := ⟨h.trimmed, fun _ => h.neg⟩

theorem IsMag.toInt {r : Big} {v : ℕ} (h : IsMag r v) : r.toInt = v := by
  rw [toInt_of_pos h.neg, h.val]

theorem IsMag.withSign {r : Big} {v : ℕ} (h : IsMag r v) (neg : Bool) :
    (withSign r neg).Norm ∧ (withSign r neg).toInt = if neg then -(v : ℤ) else v := by
  refine ⟨⟨h.trimmed, fun hnil => ?_⟩, ?_⟩
  · have hnil' : r.d = [] := hnil
    simp [Bigint.withSign, hnil']
  · unfold Bigint.withSign Big.toInt
    by_cases hnil : r.d = []
    · have hv : v = 0 := by rw [← h.val, hnil, val_nil]
      simp [hnil, hv]
    · simp [hnil, h.val]

theorem bigNorm_spec (b : Big) : (bigNorm b).Norm ∧ (bigNorm b).toInt = b.toInt := by
  refine ⟨⟨trimmed_rdropWhile b.d, fun hnil => if_pos hnil⟩, ?_⟩
  have hval := val_rdropWhile b.d
  obtain ⟨d, hd⟩ : ∃ d, d = b.d.rdropWhile (· = 0) := ⟨_, rfl⟩
  rw [← hd] at hval
  unfold bigNorm toInt
  simp only [← hd]
  by_cases hnil : d = []
  · rw [hnil, val_nil] at hval
    simp [hnil, ← hval]
  · simp [hnil, hval]

theorem bigNeg_spec {a : Big} (ha : a.Norm) : (bigNeg a).Norm ∧ (bigNeg a).toInt = -a.toInt := by
  unfold bigNeg
  by_cases hnil : a.d = []
  · have hz := ha.zero hnil
    refine ⟨⟨ha.trimmed, fun _ => ?_⟩, ?_⟩
    · simp [hnil, hz]
    · simp [toInt, hnil, hz]
  · refine ⟨⟨ha.trimmed, fun h => absurd h hnil⟩, ?_⟩
    simp only [toInt, hnil, ne_eq, not_false_eq_true, if_true]
    cases a.neg <;> simp

theorem bigAdd_spec {a b : Big} (ha : a.Norm) (hb : b.Norm) :
    (bigAdd a b).Norm ∧ (bigAdd a b).toInt = a.toInt + b.toInt := by
  have hcmp := magCmp_eq_sign ha.trimmed hb.trimmed
  unfold bigAdd
  simp only
  split_ifs with hsign hzero hpos
  · obtain ⟨h1, h2⟩ := (magAdd_spec a.d b.d).withSign a.neg
    refine ⟨h1, h2.trans ?_⟩
    unfold toInt
    rw [← hsign]
    split_ifs <;> push_cast <;> ring
  · rw [hcmp, Int.sign_eq_zero_iff_zero] at hzero
    refine ⟨isMag_zero.norm, ?_⟩
    rw [isMag_zero.toInt]
    unfold toInt
    cases hna : a.neg <;> cases hnb : b.neg <;> simp_all <;> omega
  · rw [hcmp, gt_iff_lt, Int.sign_pos_iff] at hpos
    have hsub := magSub_spec (a := a.d) (b := b.d) (by omega)
    obtain ⟨h1, h2⟩ := bigNorm_spec { magSub a.d b.d with neg := a.neg }
    refine ⟨h1, h2.trans ?_⟩
    unfold toInt
    rw [hsub.val]
    cases hna : a.neg <;> cases hnb : b.neg <;> simp_all <;> omega
  · rw [hcmp, Int.sign_eq_zero_iff_zero] at hzero
    rw [hcmp, gt_iff_lt, Int.sign_pos_iff] at hpos
    have hsub := magSub_spec (a := b.d) (b := a.d) (by omega)
    obtain ⟨h1, h2⟩ := bigNorm_spec { magSub b.d a.d with neg := b.neg }
    refine ⟨h1, h2.trans ?_⟩
    unfold toInt
    rw [hsub.val]
    cases hna : a.neg <;> cases hnb : b.neg <;> simp_all <;> omega

theorem bigSub_spec {a b : Big} (ha : a.Norm) (hb : b.Norm) :
    (bigSub a b).Norm ∧ (bigSub a b).toInt = a.toInt - b.toInt := by
  obtain ⟨hn, hv⟩ := bigNeg_spec hb
  obtain ⟨h1, h2⟩ := bigAdd_spec ha hn
  refine ⟨h1, ?_⟩
  unfold bigSub
  rw [h2, hv]
  ring

/-- `big_cmp` compares the integers. -/
theorem bigCmp_eq_sign {a b : Big} (ha : a.Norm) (hb : b.Norm) :
    bigCmp a b = (a.toInt - b.toInt).sign := by
  have hcmp := magCmp_eq_sign ha.trimmed hb.trimmed
  unfold bigCmp
  cases hna : a.neg <;> cases hnb : b.neg
  · simp [hcmp, toInt, hna, hnb]
  · have := hb.val_pos hnb
    rw [eq_comm]
    simp [toInt, hna, hnb, Int.sign_eq_one_iff_pos]
    omega
  · have := ha.val_pos hna
    rw [eq_comm]
    simp [toInt, hna, hnb, Int.sign_eq_neg_one_iff_neg]
    omega
  · simp only [ne_eq, not_true_eq_false, if_false, if_true, hcmp, toInt, hna, hnb]
    rw [← Int.sign_neg]
    congr 1
    ring

/-! ## Two's complement -/

theorem length_decLoop : ∀ l : List UInt32, (decLoop l).length = l.length
  | [] => rfl
  | x :: xs => by
    unfold decLoop
    split_ifs
    · rfl
    · simp [length_decLoop xs]

theorem val_decLoop : ∀ {l : List UInt32}, 0 < val l → val (decLoop l) = val l - 1
  | [], h => absurd h (by simp)
  | x :: xs, h => by
    have hx := x.toNat_lt
    rw [val_cons] at h
    unfold decLoop
    rw [val_cons, UInt32.toNat_sub, UInt32.toNat_one]
    split_ifs with h0
    · have : x.toNat ≠ 0 := fun h' => h0 (UInt32.toNat_inj.mp h')
      rw [val_cons]
      omega
    · rw [not_not] at h0
      have hz : x.toNat = 0 := by rw [h0]; rfl
      rw [val_decLoop (by omega), val_cons]
      omega

theorem val_incLoop : ∀ {l : List UInt32}, val l + 1 < 2 ^ (32 * l.length) →
    val (incLoop l) = val l + 1
  | [], h => by simp at h
  | x :: xs, h => by
    have hx := x.toNat_lt
    have hadd : (x + 1).toNat = (x.toNat + 1) % 2 ^ 32 := by
      rw [UInt32.toNat_add, UInt32.toNat_one]
    have hzero : x + 1 = 0 ↔ x.toNat = 2 ^ 32 - 1 := by
      rw [← UInt32.toNat_inj, hadd, UInt32.toNat_zero]
      omega
    rw [val_cons, List.length_cons, pow_limbs_succ] at h
    unfold incLoop
    rw [val_cons, hadd]
    split_ifs with h1
    · rw [ne_eq, hzero] at h1
      rw [val_cons]
      omega
    · rw [not_not, hzero] at h1
      rw [val_incLoop (by omega), val_cons, h1]
      omega

theorem val_map_not (l : List UInt32) : val (l.map (~~~ ·)) + val l + 1 = 2 ^ (32 * l.length) := by
  induction l with
  | nil => rfl
  | cons x xs ih =>
    have hx := x.toNat_lt
    have hnot : (~~~x).toNat = 2 ^ 32 - 1 - x.toNat := UInt32.toNat_not x
    rw [List.map_cons, val_cons, val_cons, List.length_cons, pow_limbs_succ, ← ih, hnot]
    omega

theorem length_toTc (a : Big) (w : ℕ) : (toTc a w).length = w := by
  unfold toTc
  split_ifs <;> simp [length_decLoop]

/-- `to_tc` gives the residue. -/
theorem val_toTc {a : Big} (ha : a.Norm) {w : ℕ} (hw : a.d.length ≤ w) :
    (val (toTc a w) : ℤ) = a.toInt % 2 ^ (32 * w) := by
  have hlt : val a.d < 2 ^ (32 * w) :=
    (val_lt a.d).trans_le (Nat.pow_le_pow_right (by decide) (by omega))
  have hpad : val ((List.range w).map fun i => a.d.getD i 0) = val a.d := by
    rw [val_range_getD, Nat.mod_eq_of_lt hlt]
  unfold toTc
  simp only
  cases hneg : a.neg with
  | false =>
    rw [toInt_of_pos hneg]
    simp only [Bool.false_eq_true, if_false, hpad]
    exact (Int.emod_eq_of_lt (by omega) (by exact_mod_cast hlt)).symm
  | true =>
    have hpos := ha.val_pos hneg
    have hnot := val_map_not (decLoop ((List.range w).map fun i => a.d.getD i 0))
    rw [val_decLoop (by rw [hpad]; exact hpos), hpad, length_decLoop, List.length_map,
      List.length_range] at hnot
    rw [toInt_of_neg hneg, if_pos rfl]
    have hmod : (-(val a.d : ℤ)) % 2 ^ (32 * w) = 2 ^ (32 * w) - val a.d := by
      rw [← Int.add_emod_right, Int.emod_eq_of_lt]
      · ring
      · have : (val a.d : ℤ) < 2 ^ (32 * w) := by exact_mod_cast hlt
        omega
      · have : (0 : ℤ) < val a.d := by exact_mod_cast hpos
        omega
    rw [hmod]
    have : (val ((decLoop ((List.range w).map fun i => a.d.getD i 0)).map (~~~ ·)) : ℤ) +
        ((val a.d - 1 : ℕ) : ℤ) + 1 = 2 ^ (32 * w) := by exact_mod_cast hnot
    omega

/-- The sign bit of two's complement. -/
theorem sign_bit {v : List UInt32} (hne : v ≠ []) :
    (v.getLastD 0 >>> 31 &&& 1 ≠ 0) ↔ 2 ^ (32 * v.length) ≤ 2 * val v := by
  obtain ⟨m, x, rfl⟩ := (List.eq_nil_or_concat v).resolve_left hne
  rw [List.concat_eq_append]
  have hlast : (m ++ [x]).getLastD 0 = x := by simp [List.getLastD_eq_getLast?]
  have hx := x.toNat_lt
  have hm := val_lt m
  have hbit : (x >>> 31 &&& 1).toNat = x.toNat / 2 ^ 31 := by
    rw [UInt32.toNat_and, toNat_shift_thirtyOne, UInt32.toNat_one, Nat.and_one_is_mod]
    omega
  rw [hlast, ne_eq, ← UInt32.toNat_inj, hbit, UInt32.toNat_zero, val_append, val_cons, val_nil,
    List.length_append, List.length_singleton, pow_limbs_succ]
  constructor
  · intro h
    have hx' : 2 ^ 31 ≤ x.toNat := by omega
    nlinarith
  · intro h h0
    have hx' : x.toNat + 1 ≤ 2 ^ 31 := by omega
    nlinarith

/-- `from_tc` gives the number between `-2^(w-1)` and `2^(w-1)` with that residue. -/
theorem fromTc_spec {v : List UInt32} (hne : v ≠ []) : (fromTc v).Norm ∧
    (fromTc v).toInt = if 2 ^ (32 * v.length) ≤ 2 * val v then (val v : ℤ) - 2 ^ (32 * v.length)
      else val v := by
  unfold fromTc
  simp only [decide_eq_true_eq, sign_bit hne]
  split_ifs with h
  · have hnot := val_map_not v
    have hlen : 0 < v.length := List.length_pos_of_ne_nil hne
    have hpow : 2 ≤ 2 ^ (32 * v.length) :=
      Nat.le_self_pow (by omega) 2
    have hinc : val (incLoop (v.map (~~~ ·))) + val v = 2 ^ (32 * v.length) := by
      rw [val_incLoop (by rw [List.length_map]; omega)]
      omega
    obtain ⟨h1, h2⟩ := bigNorm_spec ⟨true, incLoop (v.map (~~~ ·))⟩
    refine ⟨h1, h2.trans ?_⟩
    rw [toInt_of_neg rfl]
    have : (val (incLoop (v.map (~~~ ·))) : ℤ) + val v = 2 ^ (32 * v.length) := by
      exact_mod_cast hinc
    simp only
    omega
  · exact ⟨(isMag_norm v).norm, (isMag_norm v).toInt⟩

/-! ## Bit operations -/

/-- What an operator does to a bit. -/
def bitBool (op : ArithOp) (x y : Bool) : Bool :=
  match op with
  | .band => x && y
  | .bor => x || y
  | _ => x ^^ y

theorem testBit_bitop (op : ArithOp) (x y : UInt32) (i : ℕ) :
    (bitop op x y).toNat.testBit i = bitBool op (x.toNat.testBit i) (y.toNat.testBit i) := by
  unfold bitop bitBool
  split <;> simp

theorem testBit_zipWith (op : ArithOp) : ∀ {x y : List UInt32}, x.length = y.length → ∀ i,
    (val (List.zipWith (bitop op) x y)).testBit i =
      bitBool op ((val x).testBit i) ((val y).testBit i)
  | [], [], _, i => by
    unfold bitBool
    split <;> simp
  | x :: xs, y :: ys, h, i => by
    have hcons : ∀ (z : UInt32) (zs : List UInt32), (val (z :: zs)).testBit i =
        if i < 32 then z.toNat.testBit i else (val zs).testBit (i - 32) := by
      intro z zs
      rw [val_cons, Nat.add_comm, Nat.testBit_two_pow_mul_add _ z.toNat_lt]
    rw [List.zipWith_cons_cons, hcons, hcons, hcons]
    split_ifs
    · exact testBit_bitop op x y i
    · exact testBit_zipWith op (by simpa using h) (i - 32)

theorem toInt_bounds (a : Big) : -2 ^ (32 * a.d.length) < a.toInt ∧ a.toInt < 2 ^ (32 * a.d.length) := by
  have : (val a.d : ℤ) < 2 ^ (32 * a.d.length) := by exact_mod_cast val_lt a.d
  unfold toInt
  split_ifs <;> constructor <;> omega

theorem bigBitop_spec (op : ArithOp) {a b : Big} (ha : a.Norm) (hb : b.Norm) :
    (bigBitop op a b).Norm ∧ ∀ i, (bigBitop op a b).toInt.testBit i =
      bitBool op (a.toInt.testBit i) (b.toInt.testBit i) := by
  obtain ⟨m, hm⟩ : ∃ m, m = max a.d.length b.d.length := ⟨_, rfl⟩
  have ham : a.d.length ≤ m := hm ▸ le_max_left ..
  have hbm : b.d.length ≤ m := hm ▸ le_max_right ..
  obtain ⟨v, hv⟩ : ∃ v, v = List.zipWith (bitop op) (toTc a (m + 1)) (toTc b (m + 1)) := ⟨_, rfl⟩
  have hlen : v.length = m + 1 := by rw [hv, List.length_zipWith, length_toTc, length_toTc, min_self]
  have hne : v ≠ [] := by
    rintro rfl
    simp at hlen
  obtain ⟨hnorm, hval⟩ := fromTc_spec hne
  have hop : bigBitop op a b = fromTc v := by
    unfold bigBitop
    rw [hv, hm]
  have hvlt := val_lt v
  obtain ⟨k, hk⟩ : ∃ k, 32 * (m + 1) = k + 1 := ⟨32 * m + 31, by omega⟩
  rw [hlen, hk, pow_succ] at hvlt
  rw [hlen, hk, pow_succ, pow_succ] at hval
  rw [hop]
  refine ⟨hnorm, testBit_combine (k := k) (n := val v) ?_ ?_ ?_ ?_ ?_⟩
  · have hle : (2 : ℤ) ^ (32 * a.d.length) ≤ 2 ^ k := by
      exact_mod_cast Nat.pow_le_pow_right (by decide) (by omega)
    have := toInt_bounds a
    omega
  · have hle : (2 : ℤ) ^ (32 * b.d.length) ≤ 2 ^ k := by
      exact_mod_cast Nat.pow_le_pow_right (by decide) (by omega)
    have := toInt_bounds b
    omega
  · have hlt : (val v : ℤ) < 2 ^ k * 2 := by exact_mod_cast hvlt
    rw [hval]
    split_ifs with h
    · have : (2 : ℤ) ^ k * 2 ≤ 2 * val v := by exact_mod_cast h
      omega
    · have : (2 : ℤ) * val v < 2 ^ k * 2 := by exact_mod_cast (not_le.mp h)
      omega
  · have hlt : (val v : ℤ) < 2 ^ k * 2 := by exact_mod_cast hvlt
    rw [hval, pow_succ]
    split_ifs with h
    · rw [Int.sub_emod_right, Int.emod_eq_of_lt (by omega) hlt]
    · rw [Int.emod_eq_of_lt (by omega) hlt]
  · intro i _
    rw [hv, testBit_zipWith op (by rw [length_toTc, length_toTc]), ← hk,
      ← val_toTc ha (by omega), ← val_toTc hb (by omega), Int.toNat_natCast, Int.toNat_natCast]

/-! ## Shifts -/

/-- `big_shr` rounds toward minus infinity. -/
theorem bigShr_spec {a : Big} (ha : a.Norm) (k : ℕ) :
    (bigShr a k).Norm ∧ (bigShr a k).toInt = a.toInt / 2 ^ k := by
  unfold bigShr
  cases hneg : a.neg with
  | false =>
    have h := magShr_spec a.d k
    refine ⟨h.norm, ?_⟩
    simp only [if_true]
    rw [h.toInt, toInt_of_pos hneg]
    norm_cast
  | true =>
    have hpos := ha.val_pos hneg
    have hone : IsMag (bigU64 1 false) 1 := isMag_bigU64 (by decide)
    have hsub := magSub_spec (a := a.d) (b := (bigU64 1 false).d) (by rw [hone.val]; omega)
    have hshr := magShr_spec (magSub a.d (bigU64 1 false).d).d k
    have hadd := magAdd_spec (magShr (magSub a.d (bigU64 1 false).d).d k).d (bigU64 1 false).d
    rw [hone.val] at hsub hadd
    rw [hsub.val] at hshr
    rw [hshr.val] at hadd
    simp only [Bool.true_eq_false, if_false]
    have hsign := hadd.withSign true
    unfold withSign at hsign
    simp only [Bool.and_true, if_true] at hsign
    refine ⟨hsign.1, hsign.2.trans ?_⟩
    obtain ⟨n, hn⟩ : ∃ n, val a.d = n + 1 := ⟨val a.d - 1, by omega⟩
    rw [toInt_of_neg hneg, hn]
    have hns : (-((n + 1 : ℕ) : ℤ)) = Int.negSucc n := by
      rw [Int.negSucc_eq]
      push_cast
      ring
    rw [hns, Int.negSucc_ediv _ (by positivity), Nat.add_sub_cancel]
    push_cast
    rfl

theorem ediv_pow_of_le {x : ℤ} {k i : ℕ} (hlo : -2 ^ k ≤ x) (hhi : x < 2 ^ k) (h : k ≤ i) :
    x / 2 ^ i = if x < 0 then -1 else 0 := by
  have hle : (2 : ℤ) ^ k ≤ 2 ^ i := by exact_mod_cast Nat.pow_le_pow_right (by decide) h
  split_ifs with hneg
  · rw [Int.ediv_eq_iff_of_pos (by positivity)]
    constructor <;> omega
  · exact Int.ediv_eq_zero_of_lt (by omega) (by omega)

/-- `big_toi64` is the number, up to `2^40`. -/
theorem bigToi64_spec {a : Big} (ha : a.Norm) :
    bigToi64 a = if a.toInt < 0 then -((min (val a.d) (2 ^ 40) : ℕ) : ℤ)
      else ((min (val a.d) (2 ^ 40) : ℕ) : ℤ) := by
  have hv : (if a.d.length > 2 ∨ ((a.d.getD 0 0).toNat ||| (a.d.getD 1 0).toNat <<< 32) > 2 ^ 40
      then 2 ^ 40 else ((a.d.getD 0 0).toNat ||| (a.d.getD 1 0).toNat <<< 32)) =
      min (val a.d) (2 ^ 40) := by
    rw [Nat.or_comm, shiftLeft_or_limb]
    rcases Nat.lt_or_ge 2 a.d.length with hlen | hlen
    · rw [if_pos (Or.inl hlen)]
      have hle := ha.trimmed.le_val (by rintro h; simp [h] at hlen)
      have hpow : 2 ^ 64 ≤ 2 ^ (32 * (a.d.length - 1)) :=
        Nat.pow_le_pow_right (by decide) (by omega)
      omega
    · have hval : val a.d = (a.d.getD 1 0).toNat * 2 ^ 32 + (a.d.getD 0 0).toNat := by
        match hd : a.d, hlen with
        | [], _ => rfl
        | [x], _ => simp
        | [x, y], _ =>
          simp
          ring
      rw [← hval]
      split_ifs <;> omega
  unfold bigToi64
  simp only [hv]
  have hsign := ha.neg_iff
  simp only [← hsign]

/-- A shift to the left, or to the right rounding toward minus infinity. -/
def shiftBy (x k : ℤ) : ℤ := if 0 ≤ k then x * 2 ^ k.toNat else x / 2 ^ (-k).toNat

theorem shiftBy_natCast (x : ℤ) (m : ℕ) : shiftBy x m = x * 2 ^ m := by
  simp [shiftBy]

theorem shiftBy_neg_natCast (x : ℤ) (m : ℕ) : shiftBy x (-(m : ℤ)) = x / 2 ^ m := by
  unfold shiftBy
  split_ifs with h0
  · have hz : m = 0 := by omega
    simp [hz]
  · simp

theorem shift_spec {x y r : Big} (hx : x.Norm) (hxs : x.Short) (hy : y.Norm) {shl : Bool}
    (h : biArith.shift x (bigToi64 y) shl = .ok r) :
    r.Norm ∧ r.toInt = shiftBy x.toInt (if shl then y.toInt else -y.toInt) := by
  have hk := bigToi64_spec hy
  have habs := y.natAbs_toInt
  obtain ⟨k, hkd⟩ : ∃ k, k = bigToi64 y := ⟨_, rfl⟩
  obtain ⟨m, hm⟩ : ∃ m, m = k.natAbs := ⟨_, rfl⟩
  rw [← hkd] at hk h
  have hmin : m = min (val y.d) (2 ^ 40) := by
    rw [hm, hk]
    split_ifs
    · rw [Int.natAbs_neg, Int.natAbs_natCast]
    · rw [Int.natAbs_natCast]
  have hge : decide (k ≥ 0) = decide (0 ≤ y.toInt) := by
    rw [hk]
    split_ifs with h0
    · have : 0 < val y.d := by omega
      simp only [decide_eq_decide]
      omega
    · simp only [decide_eq_decide]
      omega
  obtain ⟨e, he⟩ : ∃ e, e = if shl then y.toInt else -y.toInt := ⟨_, rfl⟩
  have heabs : e.natAbs = val y.d := by
    rw [he, ← habs]
    split_ifs <;> simp
  obtain ⟨c, hc⟩ : ∃ c, c = if m > 0xFFFFFFFF then 0xFFFFFFFF else m := ⟨_, rfl⟩
  rw [← he]
  unfold biArith.shift at h
  simp only [← hm, hge, ← hc] at h
  split_ifs at h with hleft hbig
  · -- to the left
    have hmy : m = val y.d := by
      unfold bigMaxLimbs at hbig
      omega
    have he0 : e = m := by
      rw [he]
      rw [beq_iff_eq] at hleft
      cases shl with
      | true =>
        have := of_decide_eq_true hleft.symm
        simp only [if_true]
        omega
      | false =>
        have := of_decide_eq_false hleft.symm
        simp only [Bool.false_eq_true, if_false]
        omega
    have hmod : m % 2 ^ 32 = m := Nat.mod_eq_of_lt (by unfold bigMaxLimbs at hbig; omega)
    rw [hmod] at h
    obtain ⟨h1, h2, h3⟩ := magShl_spec h
    refine ⟨⟨h1, fun hnil => by rw [h3, hnil]; rfl⟩, ?_⟩
    rw [he0, shiftBy_natCast]
    unfold toInt
    rw [h3, h2]
    by_cases hnil : r.d = []
    · have hz : val x.d * 2 ^ m = 0 := by rw [← h2, hnil, val_nil]
      have hz' : val x.d = 0 := by
        rcases Nat.mul_eq_zero.mp hz with h0 | h0
        · exact h0
        · exact absurd h0 (by positivity)
      simp [hnil, hz']
    · simp only [hnil, ne_eq, not_false_eq_true, decide_true, Bool.true_and]
      split_ifs <;> push_cast <;> ring
  · -- to the right
    obtain rfl := Except.ok.inj h
    have hle : e = -(val y.d : ℤ) := by
      rw [beq_iff_eq] at hleft
      rw [he] at heabs ⊢
      cases shl with
      | true =>
        have : ¬ 0 ≤ y.toInt := by simpa using hleft
        simp only [if_true] at heabs ⊢
        omega
      | false =>
        have : 0 ≤ y.toInt := by simpa using hleft
        simp only [Bool.false_eq_true, if_false] at heabs ⊢
        omega
    obtain ⟨h1, h2⟩ := bigShr_spec hx c
    refine ⟨h1, h2.trans ?_⟩
    rw [hle, shiftBy_neg_natCast]
    -- the count is exact, or both are more than there are bits
    have hcount : c = val y.d ∨ (32 * x.d.length ≤ c ∧ 32 * x.d.length ≤ val y.d) := by
      unfold Short at hxs
      rw [hc]
      split_ifs <;> omega
    rcases hcount with hcount | ⟨hcount, hcount'⟩
    · rw [hcount]
    · have hb := toInt_bounds x
      rw [ediv_pow_of_le hb.1.le hb.2 hcount, ediv_pow_of_le hb.1.le hb.2 hcount']

/-! ## Residues -/

theorem bigAsUint_spec {a r : Big} (ha : a.Norm) {bits : ℕ} (h : bigAsUint a bits = .ok r) :
    ∃ v, IsMag r v ∧ (v : ℤ) = a.toInt % 2 ^ bits := by
  obtain ⟨w, hw⟩ : ∃ w, w = if a.d.length + 1 > bits / 32 + 2 then a.d.length + 1
      else bits / 32 + 2 := ⟨_, rfl⟩
  have hwa : a.d.length ≤ w ∧ bits / 32 + 1 ≤ w := by
    rw [hw]
    split_ifs <;> omega
  have hr : bits % 32 < 32 := Nat.mod_lt _ (by decide)
  obtain ⟨l, hl⟩ : ∃ l, l = (toTc a w).take (bits / 32 + 1) := ⟨_, rfl⟩
  have hlen : l.length = bits / 32 + 1 := by
    rw [hl, List.length_take, length_toTc]
    omega
  -- clearing the top limb is masking it with nothing
  have hmask : (if bits % 32 ≠ 0 then
      l.modify (bits / 32) (· &&& (1 <<< UInt32.ofNat (bits % 32)) - 1)
      else l.set (bits / 32) 0) = l.modify (bits / 32)
        (· &&& if bits % 32 ≠ 0 then (1 <<< UInt32.ofNat (bits % 32)) - 1 else 0) := by
    split_ifs
    · rfl
    · simp only [UInt32.and_zero]
      have hlt : bits / 32 < l.length := by omega
      rw [List.set_eq_take_append_cons_drop, if_pos hlt, List.modify_eq_take_cons_drop hlt]
  unfold bigAsUint at h
  simp only [← hw, shiftRight_five, and_thirtyOne, ← hl, hmask] at h
  unfold tooBig at h
  by_cases hle : w ≤ bigMaxLimbs
  swap
  · rw [if_neg hle] at h
    exact absurd h (by simp [bind, Except.bind])
  rw [if_pos hle] at h
  obtain rfl := Except.ok.inj h
  have hval := val_maskTop l hlen (toNat_mask hr)
  rw [← Nat.mod_mul, pow_limbs_bits, hl, val_take] at hval
  have hdvd : 2 ^ bits ∣ 2 ^ (32 * (bits / 32 + 1)) := pow_dvd_pow 2 (by omega)
  have hdvd' : (2 : ℤ) ^ bits ∣ 2 ^ (32 * w) := pow_dvd_pow 2 (by omega)
  rw [Nat.mod_mod_of_dvd _ hdvd] at hval
  refine ⟨val (toTc a w) % 2 ^ bits, ?_, ?_⟩
  · rw [← hval, ← hl]
    exact isMag_norm _
  · push_cast
    rw [val_toTc ha hwa.1, Int.emod_emod_of_dvd _ hdvd']

/-- A number below `2^n` has `n` bits exactly when its top bit is set. -/
theorem magBits_eq_iff {u : List UInt32} (hu : Trimmed u) (hne : u ≠ []) {n : ℕ}
    (hn : n ≤ 1048576) (hlt : val u < 2 ^ n) : magBits u = n ↔ 2 ^ n ≤ 2 * val u := by
  have hshort : u.length < 2 ^ 27 := by
    have hle := (hu.le_val hne).trans_lt hlt
    have := (Nat.pow_lt_pow_iff_right (by decide)).mp hle
    omega
  obtain ⟨h1, h2, -⟩ := magBits_spec hu hne hshort
  constructor
  · rintro rfl
    exact h1
  · intro h
    have hle : 2 ^ magBits u < 2 ^ (n + 1) := by
      rw [pow_succ]
      omega
    have hge : 2 ^ n < 2 ^ (magBits u + 1) := by
      rw [pow_succ]
      omega
    have := (Nat.pow_lt_pow_iff_right (by decide)).mp hle
    have := (Nat.pow_lt_pow_iff_right (by decide)).mp hge
    omega

theorem bmod_two_pow {x : ℤ} {n v : ℕ} (hv : (v : ℤ) = x % 2 ^ n) :
    x.bmod (2 ^ n) = if 2 * (v : ℤ) < 2 ^ n then (v : ℤ) else v - 2 ^ n := by
  rw [Int.bmod_def, Nat.cast_pow, Nat.cast_ofNat, ← hv]
  generalize (2 : ℤ) ^ n = m
  split_ifs <;> omega

theorem bigAsN_spec {x r : Big} (hx : x.Norm) {bits : ℚ} {isSigned : Bool}
    (h : bigAsN bits x isSigned = .ok r) :
    r.Norm ∧ r.toInt = if isSigned then x.toInt.bmod (2 ^ ⌊bits⌋.toNat)
      else x.toInt % 2 ^ ⌊bits⌋.toNat := by
  unfold bigAsN at h
  split_ifs at h with hrange
  obtain ⟨n, hn⟩ : ∃ n, n = ⌊bits⌋.toNat := ⟨_, rfl⟩
  have hn' : n ≤ 1048576 := by
    have hle : ⌊bits⌋ ≤ ⌊(1048576 : ℚ)⌋ := Int.floor_le_floor (not_lt.mp fun hx => hrange (Or.inr hx))
    rw [show (1048576 : ℚ) = ((1048576 : ℤ) : ℚ) by norm_num, Int.floor_intCast] at hle
    omega
  rw [← hn] at h ⊢
  simp only at h
  cases hu : bigAsUint x n with
  | error e =>
    rw [hu] at h
    exact absurd h (by simp [bind, Except.bind])
  | ok u =>
    obtain ⟨v, hmag, hv⟩ := bigAsUint_spec hx hu
    have hlt : (v : ℤ) < 2 ^ n := hv ▸ Int.emod_lt_of_pos _ (by positivity)
    have hlt' : val u.d < 2 ^ n := by
      rw [hmag.val]
      exact_mod_cast hlt
    rw [hu] at h
    simp only [bind, Except.bind] at h
    split_ifs at h with hc
    · -- the top bit is set: minus 2^n
      obtain ⟨hs, hn0, hne, hbits⟩ := hc
      rw [magBits_eq_iff hmag.trimmed hne hn' hlt', hmag.val] at hbits
      cases hp : magShl (bigU64 1 false) n with
      | error e =>
        rw [hp] at h
        exact absurd h (by simp)
      | ok p =>
        rw [hp] at h
        obtain rfl := Except.ok.inj h
        have hone : IsMag (bigU64 1 false) 1 := isMag_bigU64 (by decide)
        obtain ⟨hp1, hp2, hp3⟩ := magShl_spec hp
        rw [hone.neg, Bool.and_false] at hp3
        rw [hone.val, Nat.one_mul] at hp2
        obtain ⟨h1, h2⟩ := bigSub_spec hmag.norm ⟨hp1, fun _ => hp3⟩
        refine ⟨h1, h2.trans ?_⟩
        have hbits' : (2 : ℤ) ^ n ≤ 2 * v := by exact_mod_cast hbits
        rw [hmag.toInt, toInt_of_pos hp3, hp2, if_pos hs, bmod_two_pow hv, if_neg (not_lt.mpr hbits')]
        push_cast
        rfl
    · obtain rfl := Except.ok.inj h
      refine ⟨hmag.norm, hmag.toInt.trans ?_⟩
      cases hs : isSigned with
      | false => simpa using hv
      | true =>
        have hsmall : 2 * (v : ℤ) < 2 ^ n := by
          by_cases hn0 : n = 0
          · subst hn0
            rw [pow_zero] at hlt ⊢
            omega
          by_cases hne : u.d = []
          · rw [← hmag.val, hne, val_nil]
            positivity
          have hnot : ¬ 2 ^ n ≤ 2 * v := by
            rw [← hmag.val, ← magBits_eq_iff hmag.trimmed hne hn' hlt']
            exact fun hb => hc ⟨hs, hn0, hne, hb⟩
          exact_mod_cast not_le.mp hnot
        rw [if_pos rfl, bmod_two_pow hv, if_pos hsmall]

/-! ## The operators -/

/-- The integer that an operator of two BigInts stands for: division truncates toward zero and the
remainder has the dividend's sign. -/
def ArithOp.meaning : ArithOp → ℤ → ℤ → ℤ
  | .add, x, y => x + y
  | .sub, x, y => x - y
  | .mul, x, y => x * y
  | .div, x, y => x.tdiv y
  | .mod, x, y => x.tmod y
  | .pow, x, y => x ^ y.toNat
  | .band, x, y => Int.land x y
  | .bor, x, y => Int.lor x y
  | .bxor, x, y => Int.xor x y
  | .shl, x, y => shiftBy x y
  | .shr, x, y => shiftBy x (-y)
  | .ushr, _, _ => 0

/-- The truth of a comparison of two BigInts. -/
def RelOp.meaning : RelOp → ℤ → ℤ → Bool
  | .seq, x, y => x = y
  | .sne, x, y => x ≠ y
  | .eq, x, y => x = y
  | .ne, x, y => x ≠ y
  | .lt, x, y => x < y
  | .gt, x, y => y < x
  | .le, x, y => x ≤ y
  | .ge, x, y => y ≤ x

/-- The integer that an operator of one BigInt stands for. -/
def UnaryOp.meaning : UnaryOp → ℤ → ℤ
  | .neg, x => -x
  | .bitnot, x => -x - 1
  | .plus, x => x

theorem toInt_eq_ite (x : Big) : x.toInt = if x.neg then -(val x.d : ℤ) else val x.d := rfl

theorem biArith_mul {x y r : Big} (h : biArith .mul x y = .ok r) :
    r.Norm ∧ r.toInt = x.toInt * y.toInt := by
  unfold biArith at h
  cases hm : magMul x.d y.d with
  | error e =>
    rw [hm] at h
    exact absurd h (by simp [bind, Except.bind])
  | ok m =>
    rw [hm] at h
    obtain rfl := Except.ok.inj h
    obtain ⟨h1, h2⟩ := (magMul_spec hm).withSign (x.neg != y.neg)
    refine ⟨h1, h2.trans ?_⟩
    rw [toInt_eq_ite x, toInt_eq_ite y]
    cases x.neg <;> cases y.neg <;> simp

theorem biArith_div {x y r : Big} (hx : x.Norm) (hy : y.Norm) (hxs : x.Short) (hys : y.Short)
    (h : biArith .div x y = .ok r) : r.Norm ∧ r.toInt = x.toInt.tdiv y.toInt := by
  simp only [biArith] at h
  split_ifs at h with hnil
  obtain rfl := Except.ok.inj h
  obtain ⟨h1, h2⟩ := (magDivmod_spec hx.trimmed hy.trimmed hnil hxs hys).1.withSign (x.neg != y.neg)
  refine ⟨h1, h2.trans ?_⟩
  rw [toInt_eq_ite x, toInt_eq_ite y]
  cases x.neg <;> cases y.neg <;> simp [Int.neg_tdiv, Int.tdiv_neg]

theorem biArith_mod {x y r : Big} (hx : x.Norm) (hy : y.Norm) (hxs : x.Short) (hys : y.Short)
    (h : biArith .mod x y = .ok r) : r.Norm ∧ r.toInt = x.toInt.tmod y.toInt := by
  simp only [biArith] at h
  split_ifs at h with hnil
  obtain rfl := Except.ok.inj h
  obtain ⟨h1, h2⟩ := (magDivmod_spec hx.trimmed hy.trimmed hnil hxs hys).2.withSign x.neg
  refine ⟨h1, h2.trans ?_⟩
  rw [toInt_eq_ite x, toInt_eq_ite y]
  cases x.neg <;> cases y.neg <;> simp [Int.neg_tmod, Int.tmod_neg, Int.tmod_eq_emod_of_nonneg]

theorem biArith_spec {x y r : Big} (hx : x.Norm) (hy : y.Norm) (hxs : x.Short) (hys : y.Short)
    {op : ArithOp} (hop : op ≠ .pow) (h : biArith op x y = .ok r) :
    r.Norm ∧ r.toInt = op.meaning x.toInt y.toInt := by
  cases op with
  | add =>
    obtain rfl := Except.ok.inj h
    exact bigAdd_spec hx hy
  | sub =>
    obtain rfl := Except.ok.inj h
    exact bigSub_spec hx hy
  | mul => exact biArith_mul h
  | div => exact biArith_div hx hy hxs hys h
  | mod => exact biArith_mod hx hy hxs hys h
  | pow => exact absurd rfl hop
  | band =>
    obtain rfl := Except.ok.inj h
    obtain ⟨h1, h2⟩ := bigBitop_spec .band hx hy
    exact ⟨h1, eq_of_testBit_eq fun i => (h2 i).trans (Int.testBit_land ..).symm⟩
  | bor =>
    obtain rfl := Except.ok.inj h
    obtain ⟨h1, h2⟩ := bigBitop_spec .bor hx hy
    exact ⟨h1, eq_of_testBit_eq fun i => (h2 i).trans (Int.testBit_lor ..).symm⟩
  | bxor =>
    obtain rfl := Except.ok.inj h
    obtain ⟨h1, h2⟩ := bigBitop_spec .bxor hx hy
    exact ⟨h1, eq_of_testBit_eq fun i => (h2 i).trans (Int.testBit_lxor ..).symm⟩
  | shl => exact shift_spec hx hxs hy h
  | shr => exact shift_spec hx hxs hy h
  | ushr => exact absurd h (by simp [biArith])

theorem biCompare_spec {x y : Big} (hx : x.Norm) (hy : y.Norm) (op : RelOp) :
    biCompare op x y = op.meaning x.toInt y.toInt := by
  have hcmp := bigCmp_eq_sign hx hy
  have h0 : bigCmp x y = 0 ↔ x.toInt = y.toInt := by
    rw [hcmp, Int.sign_eq_zero_iff_zero, sub_eq_zero]
  have hlt : bigCmp x y < 0 ↔ x.toInt < y.toInt := by
    rw [hcmp, Int.sign_neg_iff, sub_neg]
  have hgt : 0 < bigCmp x y ↔ y.toInt < x.toInt := by
    rw [hcmp, Int.sign_pos_iff, sub_pos]
  cases op <;> simp only [biCompare, RelOp.meaning, h0, gt_iff_lt, hlt, hgt, ge_iff_le, ← not_lt,
    decide_not, ne_eq]

theorem biUnary_spec {x r : Big} (hx : x.Norm) {op : UnaryOp} (h : biUnary op x = .ok r) :
    r.Norm ∧ r.toInt = op.meaning x.toInt := by
  obtain ⟨hn, hv⟩ := bigNeg_spec hx
  cases op with
  | neg =>
    obtain rfl := Except.ok.inj h
    exact ⟨hn, hv⟩
  | bitnot =>
    obtain rfl := Except.ok.inj h
    have hone : IsMag (bigU64 1 false) 1 := isMag_bigU64 (by decide)
    obtain ⟨h1, h2⟩ := bigSub_spec hn hone.norm
    refine ⟨h1, h2.trans ?_⟩
    rw [hv, hone.toInt]
    rfl
  | plus => exact absurd h (by simp [biUnary])

theorem biAddInt_spec {x : Big} (hx : x.Norm) {k : ℤ} (hk : k.natAbs < 2 ^ 31) :
    (biAddInt x k).Norm ∧ (biAddInt x k).toInt = x.toInt + k := by
  have hval : val [UInt32.ofNat k.natAbs, UInt32.ofNat (carry k.natAbs)] = k.natAbs := by
    simp only [val_cons, val_nil, UInt32.toNat_ofNat', carry]
    omega
  obtain ⟨h1, h2⟩ := bigNorm_spec ⟨decide (k < 0), [UInt32.ofNat k.natAbs, UInt32.ofNat (carry k.natAbs)]⟩
  obtain ⟨h3, h4⟩ := bigAdd_spec hx h1
  refine ⟨h3, h4.trans ?_⟩
  rw [h2, add_right_inj, toInt_eq_ite, hval]
  simp only [decide_eq_true_eq]
  split_ifs <;> omega

/-- **BigInt arithmetic is exact.**  On normalized BigInts every operator that gives a value gives
the mathematical integer as a normalized BigInt, and `big_cmp` orders normalized BigInts as
integers. -/
theorem bigint_exact {x y : Big} (hx : x.Norm) (hy : y.Norm) (hxs : x.Short) (hys : y.Short) :
    (∀ op v, op ≠ .pow → biBinary (.inr op) x y = .ok v →
      ∃ r, v = .big r ∧ r.Norm ∧ r.toInt = op.meaning x.toInt y.toInt) ∧
    (∀ op, biBinary (.inl op) x y = .ok (.bool (op.meaning x.toInt y.toInt))) ∧
    (∀ op r, biUnary op x = .ok r → r.Norm ∧ r.toInt = op.meaning x.toInt) ∧
    (∀ k : ℤ, k.natAbs < 2 ^ 31 → (biAddInt x k).Norm ∧ (biAddInt x k).toInt = x.toInt + k) ∧
    (∀ bits isSigned r, bigAsN bits x isSigned = .ok r → r.Norm ∧
      r.toInt = if isSigned then x.toInt.bmod (2 ^ ⌊bits⌋.toNat)
        else x.toInt % 2 ^ ⌊bits⌋.toNat) ∧
    ∀ a b : Big, a.Norm → b.Norm → bigCmp a b = (a.toInt - b.toInt).sign := by
  refine ⟨?_, ?_, ?_, ?_, ?_, ?_⟩
  · intro op v hop h
    cases hr : biArith op x y with
    | error e =>
      rw [biBinary, hr] at h
      exact absurd h (by simp [Except.map])
    | ok r =>
      rw [biBinary, hr] at h
      exact ⟨r, (Except.ok.inj h).symm, biArith_spec hx hy hxs hys hop hr⟩
  · intro op
    rw [biBinary, biCompare_spec hx hy]
  · exact fun op r h => biUnary_spec hx h
  · exact fun k hk => biAddInt_spec hx hk
  · exact fun bits isSigned r h => bigAsN_spec hx h
  · exact fun a b ha hb => bigCmp_eq_sign ha hb

/-- `-(2^32) % 3` is `-1`. -/
theorem bigint_exact_negative :
    let x : Big := ⟨true, [0, 1]⟩
    let y : Big := ⟨false, [3]⟩
    biBinary (.inr .mod) x y = .ok (.big ⟨true, [1]⟩) ∧
      (∃ r, Val.big ⟨true, [1]⟩ = .big r ∧ r.Norm ∧
        r.toInt = ArithOp.meaning .mod x.toInt y.toInt) := by
  have hx : (⟨true, [0, 1]⟩ : Big).Norm := ⟨by simp [Trimmed], by simp⟩
  have hy : (⟨false, [3]⟩ : Big).Norm := ⟨by simp [Trimmed], by simp⟩
  have hmod : biBinary (.inr .mod) ⟨true, [0, 1]⟩ ⟨false, [3]⟩ = .ok (.big ⟨true, [1]⟩) := by
    decide +kernel
  exact ⟨hmod, (bigint_exact hx hy (by simp [Short]) (by simp [Short])).1 .mod _ (by decide) hmod⟩

end BananaOS.Bigint
