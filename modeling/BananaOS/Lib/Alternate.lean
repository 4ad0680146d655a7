import Mathlib.Algebra.Order.Ring.Nat
import Mathlib.Order.Monotone.Basic
import Mathlib.Tactic.Common

/-!
# Rounds of an antitone map

A quantity that gets smaller as its estimate gets larger is found by going round: `F` of an estimate is
the next one.  If `F` is antitone the rounds go down and up in turns; started at the top, and once two
neighbours are at most one apart, they are at a fixed point or between two numbers for good
(`settle_or_swing`).  The one excludes the other (`ne_of_swing`).
-/

namespace BananaOS.Lib

variable {F : ℕ → ℕ} {x c : ℕ}

/-- Where `F` swings between two neighbours it has no fixed point. -/
theorem ne_of_swing (hF : Antitone F) (hup : F c = c + 1) (hdown : F (c + 1) = c) (y : ℕ) : F y ≠ y := by
  intro hy
  rcases Nat.lt_or_ge c y with hcy | hyc
  · have := hF (show c + 1 ≤ y from hcy)
    omega
  · have := hF hyc
    omega

/-- **After three rounds from the top the next one is the last, or one of two.** -/
theorem settle_or_swing (hF : Antitone F) (htop : ∀ y, F y ≤ x) (hnear : F (F x) ≤ F x + 1) :
    F (F (F (F x))) = F (F (F x)) ∨
      (F (F (F (F x))) = F (F (F x)) + 1 ∧ F (F (F (F x)) + 1) = F (F (F x))) := by
  have hup : F x ≤ F (F x) := hF (htop x)
  have hdown : F (F (F x)) ≤ F (F x) := hF hup
  have hlow : F x ≤ F (F (F x)) := hF (htop _)
  rcases Nat.lt_or_ge (F x) (F (F x)) with hlt | hge
  · have hb : F (F x) = F x + 1 := by omega
    rcases Nat.lt_or_ge (F x) (F (F (F x))) with h3 | h3
    · have hc : F (F (F x)) = F (F x) := by omega
      exact Or.inl (congrArg F hc)
    · have hc : F (F (F x)) = F x := by omega
      refine Or.inr ⟨by rw [hc, hb], ?_⟩
      rw [hc, ← hb, hc]
  · have hb : F (F x) = F x := by omega
    exact Or.inl (congrArg F (congrArg F hb))

end BananaOS.Lib
