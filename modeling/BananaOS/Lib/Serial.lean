import Mathlib.Algebra.Order.Ring.Nat
import Mathlib.Data.Nat.Notation
import Mathlib.Data.BitVec

/-!
# Serial numbers

Numbers of 32 bits that go round, as sequence numbers and clocks do.  Two of them are compared by the
sign of their difference, which is an order only for numbers that are less than `2^31` apart.  What
makes the comparisons usable is one point to measure from: `dist b x` is how far `x` is ahead of `b`,
and `lt_iff`, `gt_iff` read each comparison as one of distances from a common point, wild numbers
included.  At a difference of exactly `2^31` both numbers are before the other and none is after.
-/

namespace BananaOS.Lib

/-- A number that goes round after `2^32`. -/
abbrev Serial := BitVec 32

namespace Serial

/-- `a` is before `b`. -/
def lt (a b : Serial) : Prop := (a - b).toInt < 0

/-- `a` is after `b`. -/
def gt (a b : Serial) : Prop := 0 < (a - b).toInt

/-- `a` is not after `b`. -/
def le (a b : Serial) : Prop := (a - b).toInt ≤ 0

/-- `a` is not before `b`. -/
def ge (a b : Serial) : Prop := 0 ≤ (a - b).toInt

instance (a b : Serial) : Decidable (lt a b) := inferInstanceAs (Decidable (_ < _))
instance (a b : Serial) : Decidable (gt a b) := inferInstanceAs (Decidable (_ < _))
instance (a b : Serial) : Decidable (le a b) := inferInstanceAs (Decidable (_ ≤ _))
instance (a b : Serial) : Decidable (ge a b) := inferInstanceAs (Decidable (_ ≤ _))

/-- How far `x` is ahead of `b`. -/
def dist (b x : Serial) : ℕ := (x - b).toNat

variable {a b x y : Serial}

theorem le_iff_not_gt : le a b ↔ ¬ gt a b := Int.not_lt.symm

theorem ge_iff_not_lt : ge a b ↔ ¬ lt a b := Int.not_lt.symm

theorem dist_lt (b x : Serial) : dist b x < 2 ^ 32 := (x - b).isLt

@[simp] theorem dist_self (b : Serial) : dist b b = 0 := by simp [dist]

theorem dist_inj : dist b x = dist b y ↔ x = y := by
  unfold dist
  constructor
  · intro h
    bv_omega
  · rintro rfl
    rfl

theorem dist_eq_zero : dist b x = 0 ↔ x = b := by
  rw [← dist_self b, dist_inj]

theorem dist_add (b x : Serial) (n : ℕ) :
    dist b (x + BitVec.ofNat 32 n) = (dist b x + n) % 2 ^ 32 := by
  unfold dist
  simp only [BitVec.toNat_sub, BitVec.toNat_add, BitVec.toNat_ofNat]
  omega

theorem dist_from (b x y : Serial) :
    dist x y = if dist b x ≤ dist b y then dist b y - dist b x else 2 ^ 32 + dist b y - dist b x := by
  unfold dist
  split <;> bv_omega

theorem dist_add_dist (b x y : Serial) :
    dist b x + dist x y = dist b y ∨ dist b x + dist x y = dist b y + 2 ^ 32 := by
  have hx := dist_lt b x
  rw [dist_from b x y]
  split <;> omega

theorem dist_ahead {u : Serial} (h : dist b u ≤ dist b x) : dist u x = dist b x - dist b u := by
  have h1 := dist_add_dist b u x
  have h2 := dist_lt u x
  have h3 := dist_lt b x
  omega

theorem dist_pred (b x : Serial) :
    dist b (x - 1) + 1 = dist b x ∨ (x = b ∧ dist b (x - 1) = 2 ^ 32 - 1) := by
  unfold dist
  bv_omega

theorem lt_iff_dist : lt a b ↔ 2 ^ 31 ≤ dist b a := by
  unfold lt dist
  rw [BitVec.toInt_eq_toNat_cond]
  have := (a - b).isLt
  split <;> omega

theorem gt_iff_dist : gt a b ↔ 0 < dist b a ∧ dist b a < 2 ^ 31 := by
  unfold gt dist
  rw [BitVec.toInt_eq_toNat_cond]
  have := (a - b).isLt
  split <;> omega

/-- *Before*, seen from any point. -/
theorem lt_iff (p : Serial) : lt a b ↔
    (dist p a < dist p b ∧ dist p b ≤ dist p a + 2 ^ 31) ∨ dist p b + 2 ^ 31 ≤ dist p a := by
  have ha := dist_lt p a
  have hb := dist_lt p b
  rw [lt_iff_dist, dist_from p b a]
  split <;> omega

/-- *After*, seen from any point. -/
theorem gt_iff (p : Serial) : gt a b ↔
    (dist p b < dist p a ∧ dist p a < dist p b + 2 ^ 31) ∨ dist p a + 2 ^ 31 < dist p b := by
  have ha := dist_lt p a
  have hb := dist_lt p b
  rw [gt_iff_dist, dist_from p b a]
  split <;> omega

theorem lt_near {p : Serial} (ha : dist p a < 2 ^ 31) (hb : dist p b ≤ 2 ^ 31) :
    lt a b ↔ dist p a < dist p b := by
  rw [lt_iff p]
  omega

theorem gt_near {p : Serial} (ha : dist p a < 2 ^ 31) (hb : dist p b ≤ 2 ^ 31) :
    gt a b ↔ dist p b < dist p a := by
  rw [gt_iff p]
  omega

theorem le_near {p : Serial} (ha : dist p a < 2 ^ 31) (hb : dist p b ≤ 2 ^ 31) :
    le a b ↔ dist p a ≤ dist p b := by
  rw [le_iff_not_gt, gt_near ha hb, Nat.not_lt]

end Serial

end BananaOS.Lib
