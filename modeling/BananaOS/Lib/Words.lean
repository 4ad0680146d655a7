import Mathlib.Algebra.Order.Ring.Nat
import Mathlib.Tactic.Common

/-!
# Machine words that remember whether they wrapped

A `Word w` is a number of `w` bits together with a mark: whether every operation that led to it kept
its exact result.  A computation written over words is the machine's, and where the mark of its result
is still set it is the exact one too (`val_add`, `val_sub`, `val_mul`, `val_div`).
-/

namespace BananaOS.Lib

/-- A number of `w` bits, and whether nothing wrapped on the way to it. -/
@[ext] structure Word (w : ℕ) where
  val : ℕ
  kept : Bool
  lt : val < 2 ^ w
  deriving DecidableEq

namespace Word

variable {w : ℕ} {a b : Word w} {n : ℕ}

/-- What a word of `w` bits holds of `n`, where `kept` says whether all before it was exact. -/
def hold (w n : ℕ) (kept : Bool) : Word w :=
  ⟨n % 2 ^ w, kept && decide (n < 2 ^ w), Nat.mod_lt _ (Nat.two_pow_pos w)⟩

/-- A number that nothing was done to. -/
def ofNat (w n : ℕ) : Word w := hold w n true

instance : OfNat (Word w) n := ⟨ofNat w n⟩

instance : Add (Word w) := ⟨fun a b => hold w (a.val + b.val) (a.kept && b.kept)⟩

instance : Mul (Word w) := ⟨fun a b => hold w (a.val * b.val) (a.kept && b.kept)⟩

/-- Below zero it wraps. -/
instance : Sub (Word w) where
  sub a b := ⟨(a.val + (2 ^ w - b.val)) % 2 ^ w, a.kept && b.kept && decide (b.val ≤ a.val),
    Nat.mod_lt _ (Nat.two_pow_pos w)⟩

instance : Div (Word w) where
  div a b := ⟨a.val / b.val, a.kept && b.kept, (Nat.div_le_self ..).trans_lt a.lt⟩

/-! ## What is kept -/

theorem kept_ofNat : (ofNat w n).kept = true ↔ n < 2 ^ w := by
  simp [ofNat, hold]

theorem kept_add : (a + b).kept = true ↔
    (a.kept = true ∧ b.kept = true) ∧ a.val + b.val < 2 ^ w := by
  change (hold w (a.val + b.val) (a.kept && b.kept)).kept = true ↔ _
  simp [hold]

theorem kept_mul : (a * b).kept = true ↔
    (a.kept = true ∧ b.kept = true) ∧ a.val * b.val < 2 ^ w := by
  change (hold w (a.val * b.val) (a.kept && b.kept)).kept = true ↔ _
  simp [hold]

theorem kept_sub : (a - b).kept = true ↔ (a.kept = true ∧ b.kept = true) ∧ b.val ≤ a.val := by
  change (a.kept && b.kept && decide (b.val ≤ a.val)) = true ↔ _
  simp

theorem kept_div : (a / b).kept = true ↔ a.kept = true ∧ b.kept = true := by
  change (a.kept && b.kept) = true ↔ _
  simp

/-! ## The value -/

theorem val_sub_mod : (a - b).val = (a.val + (2 ^ w - b.val)) % 2 ^ w := rfl

@[simp] theorem val_div : (a / b).val = a.val / b.val := rfl

theorem val_ofNat (h : n < 2 ^ w) : (ofNat w n).val = n := Nat.mod_eq_of_lt h

theorem val_add (h : a.val + b.val < 2 ^ w) : (a + b).val = a.val + b.val := Nat.mod_eq_of_lt h

theorem val_mul (h : a.val * b.val < 2 ^ w) : (a * b).val = a.val * b.val := Nat.mod_eq_of_lt h

theorem val_sub (h : b.val ≤ a.val) : (a - b).val = a.val - b.val := by
  have hb := b.lt
  have ha := a.lt
  rw [val_sub_mod, show a.val + (2 ^ w - b.val) = a.val - b.val + 2 ^ w by omega, Nat.add_mod_right]
  exact Nat.mod_eq_of_lt (by omega)

end Word

end BananaOS.Lib
