import Mathlib.Algebra.Order.Ring.Nat
import Mathlib.Order.Defs.Unbundled
import Mathlib.Tactic.Common

/-!
# What a state program does to every state

A program over a state `σ` is a term of `StateM σ`.  `Along R x` relates the state before to the state
after by `R`, for every start: what a program leaves alone, or only adds to.  For a reflexive and
transitive `R` it composes.

There is nothing about failure or termination here: a program of `StateM` always returns.
-/

namespace BananaOS.Lib

variable {σ α β : Type}

/-- The program leads from every state to one that `R` relates to it. -/
def Along (R : σ → σ → Prop) (x : StateM σ α) : Prop :=
  ∀ s, R s (x s).2

section Along

variable {R : σ → σ → Prop} {x y : StateM σ α} {f : α → StateM σ β}

theorem Along.bind [IsTrans σ R] (hx : Along R x) (hf : ∀ a, Along R (f a)) : Along R (x >>= f) :=
  fun s => IsTrans.trans _ _ _ (hx s) (hf _ _)

theorem Along.pure [Std.Refl R] (a : α) : Along R (pure a : StateM σ α) :=
  fun s => refl s

theorem Along.ite {c : Prop} [Decidable c] (hx : Along R x) (hy : Along R y) :
    Along R (if c then x else y) := by
  by_cases hc : c
  · rw [if_pos hc]
    exact hx
  · rw [if_neg hc]
    exact hy

end Along

end BananaOS.Lib
