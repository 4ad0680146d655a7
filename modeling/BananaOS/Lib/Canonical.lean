import Mathlib.Algebra.BigOperators.Group.Finset.Basic
import Mathlib.Algebra.Order.BigOperators.Group.Finset
import Mathlib.Data.Finset.Max
import Mathlib.Data.Nat.Bitwise
import Mathlib.Tactic.Common

/-!
# Canonical codes

Symbols have lengths, and every symbol has a code of so many bits.  The code stands for the words of `m` bits
that begin with it, an interval of `2 ^ (m - len i)` numbers.  A canonical code lays these intervals end to
end in the order of a key.

* `exists_slot`, `slot_unique`: intervals that lie end to end fill their sum, and they are disjoint.
* `IsCanonical.existsUnique_div`: with a Kraft sum of 1 every word begins with exactly one code.
* `testBit_revBits`: a code whose bits are sent in the other order.
* `IsCanonical.prefixFree`, `IsCanonical.complete`: the same for words that are read from the lowest bit.
-/

namespace BananaOS.Lib.Canonical

open Finset

variable {ι κ : Type*} [LinearOrder κ] {s : Finset ι} {key : ι → κ} {f len v : ι → ℕ} {i j : ι} {m y : ℕ}

/-! ## End to end -/

/-- What lies before `i`. -/
def before (s : Finset ι) (key : ι → κ) (f : ι → ℕ) (i : ι) : ℕ := ∑ j ∈ s with key j < key i, f j

theorem before_add_eq (hi : i ∈ s) (hinj : Set.InjOn key s) :
    before s key f i + f i = ∑ j ∈ s with key j ≤ key i, f j := by
  classical
  have hn : i ∉ {j ∈ s | key j < key i} := fun h => lt_irrefl _ (mem_filter.mp h).2
  rw [before, add_comm, ← sum_insert hn]
  refine sum_congr ?_ fun _ _ => rfl
  ext j
  rw [mem_insert, mem_filter, mem_filter]
  constructor
  · rintro (rfl | ⟨hj, hlt⟩)
    · exact ⟨hi, le_rfl⟩
    · exact ⟨hj, hlt.le⟩
  · rintro ⟨hj, hle⟩
    obtain hlt | heq := hle.lt_or_eq
    · exact .inr ⟨hj, hlt⟩
    · exact .inl (hinj hj hi heq)

theorem before_add_le_before (hi : i ∈ s) (hinj : Set.InjOn key s) (h : key i < key j) :
    before s key f i + f i ≤ before s key f j := by
  rw [before_add_eq hi hinj, before]
  refine sum_le_sum_of_subset fun k hk => ?_
  rw [mem_filter] at hk ⊢
  exact ⟨hk.1, hk.2.trans_lt h⟩

theorem before_add_le_sum (hi : i ∈ s) (hinj : Set.InjOn key s) : before s key f i + f i ≤ ∑ j ∈ s, f j := by
  rw [before_add_eq hi hinj]
  exact sum_le_sum_of_subset (filter_subset _ s)

theorem exists_slot (hinj : Set.InjOn key s) (hy : y < ∑ i ∈ s, f i) :
    ∃ i ∈ s, before s key f i ≤ y ∧ y < before s key f i + f i := by
  classical
  induction s using induction_on_max_value key with
  | empty => exact absurd hy (Nat.not_lt_zero y)
  | insert a s ha hmax ih =>
    have hsub : (s : Set ι) ⊆ (insert a s : Finset ι) := coe_subset.mpr (subset_insert a s)
    have hlt : ∀ x ∈ s, key x < key a := fun x hx => (hmax x hx).lt_of_ne fun heq =>
      ha (hinj (hsub hx) (mem_insert_self a s) heq ▸ hx)
    rw [sum_insert ha] at hy
    by_cases hy' : y < ∑ i ∈ s, f i
    · obtain ⟨i, hi, hle⟩ := ih (hinj.mono hsub) hy'
      have hbefore : before (insert a s) key f i = before s key f i := by
        rw [before, filter_insert, if_neg (hlt i hi).not_gt, before]
      rw [← hbefore] at hle
      exact ⟨i, mem_insert_of_mem hi, hle⟩
    · -- what is left after the others belongs to the last
      have hbefore : before (insert a s) key f a = ∑ i ∈ s, f i := by
        rw [before, filter_insert, if_neg (lt_irrefl _), filter_true_of_mem hlt]
      exact ⟨a, mem_insert_self a s, by omega⟩

theorem slot_unique (hinj : Set.InjOn key s) (hi : i ∈ s) (hj : j ∈ s) (h : before s key f i ≤ y)
    (h' : y < before s key f i + f i) (hle : before s key f j ≤ y) (hlt : y < before s key f j + f j) : i = j := by
  obtain hij | hij | hij := lt_trichotomy (key i) (key j)
  · exact absurd (before_add_le_before (f := f) hi hinj hij) (by omega)
  · exact hinj hi hj hij
  · exact absurd (before_add_le_before (f := f) hj hinj hij) (by omega)

/-! ## Codes -/

/-- The codes `v`, of lengths of at most `m`, lie end to end in the order of `key`. -/
structure IsCanonical (s : Finset ι) (key : ι → κ) (m : ℕ) (len v : ι → ℕ) : Prop where
  le : ∀ i ∈ s, len i ≤ m
  start : ∀ i ∈ s, v i * 2 ^ (m - len i) = before s key (fun j => 2 ^ (m - len j)) i

theorem IsCanonical.lt (h : IsCanonical s key m len v) (hinj : Set.InjOn key s)
    (hkraft : ∑ i ∈ s, 2 ^ (m - len i) ≤ 2 ^ m) (hi : i ∈ s) : v i < 2 ^ len i := by
  have hle := (before_add_le_sum (f := fun j => 2 ^ (m - len j)) hi hinj).trans hkraft
  have hpow : 2 ^ m = 2 ^ len i * 2 ^ (m - len i) := by rw [← pow_add, Nat.add_sub_cancel' (h.le i hi)]
  rw [← h.start i hi, ← Nat.succ_mul, hpow] at hle
  exact Nat.lt_of_succ_le (Nat.le_of_mul_le_mul_right hle (Nat.two_pow_pos _))

/-- With a Kraft sum of 1 every word of `m` bits begins with exactly one code. -/
theorem IsCanonical.existsUnique_div (h : IsCanonical s key m len v) (hinj : Set.InjOn key s)
    (hkraft : ∑ i ∈ s, 2 ^ (m - len i) = 2 ^ m) (hy : y < 2 ^ m) :
    ∃! i, i ∈ s ∧ y / 2 ^ (m - len i) = v i := by
  have hiff : ∀ i ∈ s, y / 2 ^ (m - len i) = v i ↔ before s key (fun j => 2 ^ (m - len j)) i ≤ y ∧
      y < before s key (fun j => 2 ^ (m - len j)) i + 2 ^ (m - len i) := fun i hi => by
    rw [Nat.div_eq_iff (Nat.two_pow_pos _), ← h.start i hi]
    have := Nat.two_pow_pos (m - len i)
    omega
  obtain ⟨i, hi, hslot⟩ := exists_slot (f := fun j => 2 ^ (m - len j)) hinj (hkraft ▸ hy)
  refine ⟨i, ⟨hi, (hiff i hi).mpr hslot⟩, fun j ⟨hj, hyj⟩ => ?_⟩
  have hslot' := (hiff j hj).mp hyj
  exact slot_unique hinj hj hi hslot'.1 hslot'.2 hslot.1 hslot.2

/-! ## The other order of bits -/

/-- The lowest `k` bits in the other order. -/
def revBits (k x : ℕ) : ℕ := (BitVec.ofNat k x).reverse.toNat

theorem testBit_revBits (k x i : ℕ) : (revBits k x).testBit i = (decide (i < k) && x.testBit (k - 1 - i)) := by
  rw [revBits, BitVec.testBit_toNat, BitVec.getLsbD_reverse, BitVec.getMsbD_eq_getLsbD, BitVec.getLsbD_ofNat]
  by_cases hi : i < k
  · rw [decide_eq_true (show k - 1 - i < k by omega), Bool.true_and]
  · rw [decide_eq_false hi, Bool.false_and, Bool.false_and]

theorem revBits_lt (k x : ℕ) : revBits k x < 2 ^ k := BitVec.isLt _

theorem revBits_revBits (k x : ℕ) : revBits k (revBits k x) = x % 2 ^ k := by
  refine Nat.eq_of_testBit_eq fun i => ?_
  rw [testBit_revBits, testBit_revBits, Nat.testBit_mod_two_pow]
  by_cases hi : i < k
  · rw [decide_eq_true hi, decide_eq_true (show k - 1 - i < k by omega), Bool.true_and, Bool.true_and,
      Bool.true_and]
    exact congrArg _ (by omega)
  · rw [decide_eq_false hi, Bool.false_and, Bool.false_and]

theorem revBits_div {k : ℕ} (h : k ≤ m) (x : ℕ) : revBits m x / 2 ^ (m - k) = revBits k x := by
  refine Nat.eq_of_testBit_eq fun j => ?_
  rw [← Nat.shiftRight_eq_div_pow, Nat.testBit_shiftRight, testBit_revBits, testBit_revBits]
  refine congrArg₂ and (decide_eq_decide.mpr (by omega)) (congrArg _ (by omega))

theorem revBits_eq_iff {k x y : ℕ} (hy : y < 2 ^ k) : revBits k x = y ↔ x % 2 ^ k = revBits k y := by
  constructor
  · rintro rfl
    exact (revBits_revBits k x).symm
  · intro h
    have hrev : revBits k (x % 2 ^ k) = y := by rw [h, revBits_revBits, Nat.mod_eq_of_lt hy]
    rw [← hrev]
    refine Nat.eq_of_testBit_eq fun i => ?_
    rw [testBit_revBits, testBit_revBits, Nat.testBit_mod_two_pow]
    by_cases hi : i < k
    · rw [decide_eq_true (show k - 1 - i < k by omega), Bool.true_and]
    · rw [decide_eq_false hi, Bool.false_and, Bool.false_and]

theorem revBits_succ (k x : ℕ) : revBits (k + 1) x = 2 ^ k * (x % 2) + revBits k (x / 2) := by
  refine Nat.eq_of_testBit_eq fun i => ?_
  rw [testBit_revBits, Nat.testBit_two_pow_mul_add _ (revBits_lt k _), testBit_revBits]
  split_ifs with hi
  · rw [decide_eq_true hi, decide_eq_true (show i < k + 1 by omega), Bool.true_and, Bool.true_and, Nat.testBit_div_two]
    exact congrArg _ (by omega)
  · by_cases hik : i = k
    · rw [hik, Nat.sub_self, decide_eq_true k.lt_succ_self, Bool.true_and]
      simp
    · rw [decide_eq_false (by omega), Bool.false_and]
      refine (Nat.testBit_lt_two_pow ?_).symm
      exact (Nat.mod_lt x Nat.two_pos).trans_le (Nat.pow_le_pow_right Nat.two_pos (show 1 ≤ i - k by omega))

/-- With a Kraft sum of 1 every number begins, at its lowest bit, with exactly one code. -/
theorem IsCanonical.existsUnique_mod (h : IsCanonical s key m len v) (hinj : Set.InjOn key s)
    (hkraft : ∑ i ∈ s, 2 ^ (m - len i) = 2 ^ m) (x : ℕ) :
    ∃! i, i ∈ s ∧ x % 2 ^ len i = revBits (len i) (v i) := by
  have hiff : ∀ i ∈ s, revBits m x / 2 ^ (m - len i) = v i ↔ x % 2 ^ len i = revBits (len i) (v i) :=
    fun i hi => by rw [revBits_div (h.le i hi), revBits_eq_iff (h.lt hinj hkraft.le hi)]
  obtain ⟨i, ⟨hi, hdiv⟩, huniq⟩ := h.existsUnique_div hinj hkraft (revBits_lt m x)
  exact ⟨i, ⟨hi, (hiff i hi).mp hdiv⟩, fun j ⟨hj, hmod⟩ => huniq j ⟨hj, (hiff j hj).mpr hmod⟩⟩

/-- No code begins with another one. -/
def PrefixFree (s : Finset ι) (len code : ι → ℕ) : Prop :=
  ∀ i ∈ s, ∀ j ∈ s, i ≠ j → len i ≤ len j → code j % 2 ^ len i ≠ code i

/-- Whatever bits there are, they begin with a code. -/
def Complete (s : Finset ι) (len code : ι → ℕ) : Prop := ∀ x, ∃ i ∈ s, x % 2 ^ len i = code i

theorem IsCanonical.prefixFree (h : IsCanonical s key m len v) (hinj : Set.InjOn key s)
    (hkraft : ∑ i ∈ s, 2 ^ (m - len i) = 2 ^ m) : PrefixFree s len fun i => revBits (len i) (v i) := by
  intro i hi j hj hij _ heq
  obtain ⟨k, -, huniq⟩ := h.existsUnique_mod hinj hkraft (revBits (len j) (v j))
  exact hij ((huniq i ⟨hi, heq⟩).trans (huniq j ⟨hj, Nat.mod_eq_of_lt (revBits_lt _ _)⟩).symm)

theorem IsCanonical.complete (h : IsCanonical s key m len v) (hinj : Set.InjOn key s)
    (hkraft : ∑ i ∈ s, 2 ^ (m - len i) = 2 ^ m) : Complete s len fun i => revBits (len i) (v i) := fun x => by
  obtain ⟨i, hi, -⟩ := h.existsUnique_mod hinj hkraft x
  exact ⟨i, hi⟩

end BananaOS.Lib.Canonical
