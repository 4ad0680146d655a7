import Mathlib.Data.List.DropRight
import Mathlib.Data.Nat.Size
import Mathlib.Algebra.Order.Ring.Nat
import Mathlib.Tactic.Common
import Mathlib.Tactic.Linarith
import Mathlib.Tactic.Ring

/-!
# Numbers in limbs

A natural number as a list of limbs of 32 bits, the lowest first.

* `val_append`, `val_take`, `val_drop`: cutting the list is dividing by a power of two.
* `Trimmed`: the top limb is not zero.  Then the number of limbs says how large the number is
  (`Trimmed.le_val`), and dropping zero limbs from the top makes any list so without changing its
  value (`trimmed_rdropWhile`, `val_rdropWhile`).
* `val_modify`: a change of one limb.
-/

namespace BananaOS.Lib

/-- The number that the limbs stand for. -/
def val : List UInt32 → ℕ
  | [] => 0
  | x :: xs => x.toNat + 2 ^ 32 * val xs

@[simp] theorem val_nil : val [] = 0 := rfl

@[simp] theorem val_cons (x : UInt32) (xs : List UInt32) :
    val (x :: xs) = x.toNat + 2 ^ 32 * val xs := rfl

theorem pow_limbs_succ (n : ℕ) : 2 ^ (32 * (n + 1)) = 2 ^ 32 * 2 ^ (32 * n) := by
  rw [Nat.mul_add, Nat.mul_one, pow_add, Nat.mul_comm]

theorem val_append (a b : List UInt32) : val (a ++ b) = val a + 2 ^ (32 * a.length) * val b := by
  induction a with
  | nil => simp
  | cons x xs ih =>
    rw [List.cons_append, val_cons, ih, val_cons, List.length_cons, pow_limbs_succ]
    ring

theorem val_lt (l : List UInt32) : val l < 2 ^ (32 * l.length) := by
  induction l with
  | nil => simp
  | cons x xs ih =>
    have hx := x.toNat_lt
    rw [val_cons, List.length_cons, pow_limbs_succ]
    nlinarith

@[simp] theorem val_replicate_zero (n : ℕ) : val (List.replicate n 0) = 0 := by
  induction n with
  | zero => rfl
  | succ n ih => simp [List.replicate_succ, ih]

theorem val_split (l : List UInt32) {k : ℕ} (h : k ≤ l.length) :
    val l = val (l.take k) + 2 ^ (32 * k) * val (l.drop k) := by
  conv_lhs => rw [← List.take_append_drop k l, val_append]
  rw [List.length_take, min_eq_left h]

theorem val_take (l : List UInt32) (k : ℕ) : val (l.take k) = val l % 2 ^ (32 * k) := by
  rcases le_total k l.length with h | h
  · have hlt := val_lt (l.take k)
    rw [List.length_take, min_eq_left h] at hlt
    rw [val_split l h, Nat.add_mul_mod_self_left, Nat.mod_eq_of_lt hlt]
  · have hlt : val l < 2 ^ (32 * k) :=
      (val_lt l).trans_le (Nat.pow_le_pow_right (by decide) (Nat.mul_le_mul_left 32 h))
    rw [List.take_of_length_le h, Nat.mod_eq_of_lt hlt]

theorem val_drop (l : List UInt32) (k : ℕ) : val (l.drop k) = val l / 2 ^ (32 * k) := by
  rcases le_total k l.length with h | h
  · have hlt := val_lt (l.take k)
    rw [List.length_take, min_eq_left h] at hlt
    rw [val_split l h, Nat.add_mul_div_left _ _ (by positivity), Nat.div_eq_of_lt hlt, Nat.zero_add]
  · have hlt : val l < 2 ^ (32 * k) :=
      (val_lt l).trans_le (Nat.pow_le_pow_right (by decide) (Nat.mul_le_mul_left 32 h))
    rw [List.drop_eq_nil_of_le h, Nat.div_eq_of_lt hlt, val_nil]

/-- The limb `k` as a digit. -/
theorem toNat_getD (l : List UInt32) (k : ℕ) :
    (l.getD k 0).toNat = val l / 2 ^ (32 * k) % 2 ^ 32 := by
  rw [← val_drop, List.getD_eq_getElem?_getD, ← List.head?_drop]
  cases l.drop k with
  | nil => rfl
  | cons x xs =>
    have hx := x.toNat_lt
    simp only [List.head?_cons, Option.getD_some, val_cons]
    omega

theorem toNat_headD (l : List UInt32) : (l.headD 0).toNat = val l % 2 ^ 32 := by
  cases l with
  | nil => rfl
  | cons x xs =>
    have hx := x.toNat_lt
    simp only [List.headD_cons, val_cons]
    omega

theorem val_tail (l : List UInt32) : val l.tail = val l / 2 ^ 32 := by
  rw [← List.drop_one, val_drop]

/-- The limbs below `w`, with zeros where there are none. -/
theorem val_range_getD (l : List UInt32) (w : ℕ) :
    val ((List.range w).map fun i => l.getD i 0) = val l % 2 ^ (32 * w) := by
  induction w with
  | zero => simp [Nat.mod_one]
  | succ w ih =>
    rw [List.range_succ, List.map_append, val_append, ih, List.length_map, List.length_range,
      List.map_singleton, val_cons, val_nil, toNat_getD, Nat.mul_add 32 w 1, Nat.mul_one, pow_add,
      Nat.mod_mul]
    ring

theorem val_modify (l : List UInt32) (f : UInt32 → UInt32) {k : ℕ} (h : k < l.length) :
    val (l.modify k f) = val l % 2 ^ (32 * k) +
      2 ^ (32 * k) * ((f (l.getD k 0)).toNat + 2 ^ 32 * (val l / 2 ^ (32 * (k + 1)))) := by
  have hmod : l.modify k f = l.take k ++ f (l.getD k 0) :: l.drop (k + 1) := by
    rw [List.modify_eq_take_cons_drop h, List.getElem_eq_getD 0]
  rw [hmod, val_append, val_cons, val_take, val_drop, List.length_take, min_eq_left h.le]

/-! ## The top limb -/

/-- The top limb is not zero. -/
def Trimmed (l : List UInt32) : Prop := l.getLast? ≠ some 0

theorem trimmed_nil : Trimmed [] := by simp [Trimmed]

theorem trimmed_concat {l : List UInt32} {x : UInt32} : Trimmed (l ++ [x]) ↔ x ≠ 0 := by
  simp [Trimmed]

theorem trimmed_cons {l : List UInt32} {x : UInt32} :
    Trimmed (x :: l) ↔ (l = [] → x ≠ 0) ∧ Trimmed l := by
  cases l <;> simp [Trimmed, List.getLast?_cons_cons]

theorem trimmed_rdropWhile (l : List UInt32) : Trimmed (l.rdropWhile (· = 0)) := by
  induction l using List.reverseRecOn with
  | nil => exact trimmed_nil
  | append_singleton l x ih =>
    rw [List.rdropWhile_concat]
    split_ifs with h
    · exact ih
    · exact trimmed_concat.mpr (by simpa using h)

theorem val_rdropWhile (l : List UInt32) : val (l.rdropWhile (· = 0)) = val l := by
  induction l using List.reverseRecOn with
  | nil => rfl
  | append_singleton l x ih =>
    rw [List.rdropWhile_concat]
    split_ifs with h
    · have hx : x = 0 := by simpa using h
      rw [ih, val_append, hx]
      simp
    · rfl

theorem Trimmed.le_val {l : List UInt32} (h : Trimmed l) (hne : l ≠ []) :
    2 ^ (32 * (l.length - 1)) ≤ val l := by
  obtain ⟨m, x, rfl⟩ := (List.eq_nil_or_concat l).resolve_left hne
  rw [List.concat_eq_append] at h ⊢
  have hx : 0 < x.toNat := by
    rcases Nat.eq_zero_or_pos x.toNat with h0 | h0
    · exact absurd (UInt32.toNat_inj.mp h0) (trimmed_concat.mp h)
    · exact h0
  rw [val_append, List.length_append, List.length_singleton, Nat.add_sub_cancel]
  simp only [val_cons, val_nil]
  nlinarith [Nat.pos_of_ne_zero (pow_ne_zero (32 * m.length) (show (2 : ℕ) ≠ 0 by decide))]

theorem Trimmed.val_pos {l : List UInt32} (h : Trimmed l) (hne : l ≠ []) : 0 < val l :=
  (Nat.pos_of_ne_zero (by positivity)).trans_le (h.le_val hne)

theorem Trimmed.val_eq_zero {l : List UInt32} (h : Trimmed l) : val l = 0 ↔ l = [] := by
  constructor
  · intro h0
    by_contra hne
    have := h.val_pos hne
    omega
  · rintro rfl
    rfl

theorem Trimmed.eq_of_val : ∀ {a b : List UInt32}, Trimmed a → Trimmed b → val a = val b → a = b
  | [], b, _, hb, h => (hb.val_eq_zero.mp h.symm).symm
  | x :: a, [], ha, _, h => ha.val_eq_zero.mp h
  | x :: a, y :: b, ha, hb, h => by
    have hx := x.toNat_lt
    have hy := y.toNat_lt
    rw [val_cons, val_cons] at h
    have hxy : x = y := UInt32.toNat_inj.mp (by omega)
    rw [hxy, Trimmed.eq_of_val (trimmed_cons.mp ha).2 (trimmed_cons.mp hb).2 (by omega)]

/-- The longer of two numbers with a top limb is the larger. -/
theorem Trimmed.val_lt_of_length {a b : List UInt32} (hb : Trimmed b) (h : a.length < b.length) :
    val a < val b := by
  have hne : b ≠ [] := by
    rintro rfl
    simp at h
  refine (val_lt a).trans_le (le_trans ?_ (hb.le_val hne))
  exact Nat.pow_le_pow_right (by decide) (Nat.mul_le_mul_left 32 (by omega))

end BananaOS.Lib
