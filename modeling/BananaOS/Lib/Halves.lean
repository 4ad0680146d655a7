import Mathlib.Algebra.Order.Ring.Nat
import Mathlib.Data.Nat.Notation
import Mathlib.Logic.Function.Basic
import Mathlib.Tactic.Common

/-!
# Things that take two places

A row of places, some of which are the first half of a thing (`w i`) and some the second half
(`c i`).  `Whole w c` says that every first half is directly followed by a second half and every
second half directly follows a first one.  A second half stands exactly where its first half is one
place before, so one equation carries both directions.

An edit cuts the row in one or two places, and what keeps the halves together is always the same:
the place after a cut is no second half.  That is what `Whole.erase`, `Whole.openGap`,
`Whole.closeGap` and `Whole.cut` ask for.
-/

namespace BananaOS.Lib

/-- Every first half stands right before a second half, and the other way round. -/
structure Whole (w c : ℕ → Bool) : Prop where
  start : c 0 = false
  next : ∀ i, c (i + 1) = w i
  apart : ∀ i, w i = true → c i = false

namespace Halves

variable {w c : ℕ → Bool} {x m n x0 x1 : ℕ}

/-- The places from `x0` to before `x1` become empty. -/
def erase (x0 x1 : ℕ) (w : ℕ → Bool) (i : ℕ) : Bool := if x0 ≤ i ∧ i < x1 then false else w i

/-- From `x` on everything moves up by `n`. -/
def openGap (x n : ℕ) (w : ℕ → Bool) (i : ℕ) : Bool :=
  if i < x then w i else if i < x + n then false else w (i - n)

/-- From `x + n` on everything moves down by `n`. -/
def closeGap (x n : ℕ) (w : ℕ → Bool) (i : ℕ) : Bool := if i < x then w i else w (i + n)

/-- Nothing is left from `m` on. -/
def cut (m : ℕ) (w : ℕ → Bool) (i : ℕ) : Bool := if i < m then w i else false

/-- From `x` on everything moves up by `n`, and what was there stays there too. -/
def room (x n : ℕ) (w : ℕ → Bool) (i : ℕ) : Bool := if x + n ≤ i then w (i - n) else w i

/-- When `x` is written, its first half goes too. -/
def firstTouched (c : ℕ → Bool) (x : ℕ) : ℕ := if c x then x - 1 else x

/-- When the `n` places from `x` on are written, the second half of the last goes too. -/
def lastTouched (w : ℕ → Bool) (x n : ℕ) : ℕ := if w (x + n - 1) then x + n + 1 else x + n

/-- A half at `x`. -/
def mark (x : ℕ) (w : ℕ → Bool) (i : ℕ) : Bool := if i = x then true else w i

end Halves

open Halves

namespace Whole

variable {w c : ℕ → Bool} {x m n x0 x1 : ℕ}

theorem empty : Whole (fun _ => false) fun _ => false :=
  ⟨rfl, fun _ => rfl, fun _ h => absurd h (by decide)⟩

theorem before (h : Whole w c) (hc : c x = true) : ∃ y, x = y + 1 ∧ w y = true := by
  cases x with
  | zero => rw [h.start] at hc; cases hc
  | succ y => exact ⟨y, rfl, by rw [← h.next, hc]⟩

theorem not_wide (h : Whole w c) (hc : c x = true) : w x = false := by
  by_contra hw
  rw [h.apart x (by simpa using hw)] at hc
  cases hc

theorem erase (h : Whole w c) (h0 : c x0 = false) (h1 : c x1 = false) (hle : x0 ≤ x1) :
    Whole (Halves.erase x0 x1 w) (Halves.erase x0 x1 c) := by
  refine ⟨?_, fun i => ?_, fun i hi => ?_⟩
  · unfold Halves.erase
    rw [h.start, ite_self]
  · unfold Halves.erase
    rw [h.next]
    by_cases hi : x0 ≤ i ∧ i < x1
    · rw [if_pos hi]
      by_cases hi' : i + 1 < x1
      · rw [if_pos (by omega)]
      · obtain rfl : x1 = i + 1 := by omega
        rw [if_neg (by omega), ← h.next, h1]
    · rw [if_neg hi]
      by_cases hi' : x0 = i + 1
      · subst hi'
        rw [← h.next, h0, ite_self]
      · rw [if_neg (by omega)]
  · unfold Halves.erase at hi ⊢
    split_ifs at hi ⊢
    exact h.apart i hi

theorem openGap (h : Whole w c) (hx : c x = false) :
    Whole (Halves.openGap x n w) (Halves.openGap x n c) := by
  refine ⟨?_, fun i => ?_, fun i hi => ?_⟩
  · unfold Halves.openGap
    rw [Nat.zero_sub, h.start, ite_self, ite_self]
  · unfold Halves.openGap
    by_cases h1 : i + 1 < x
    · rw [if_pos h1, if_pos (by omega), h.next]
    · by_cases h2 : i + 1 = x
      · subst h2
        rw [if_neg (Nat.lt_irrefl _), if_pos i.lt_succ_self, ← h.next, hx]
        split_ifs with h3
        · rfl
        · rw [show i + 1 - n = i + 1 by omega, hx]
      · rw [if_neg h1]
        by_cases h3 : i + 1 < x + n
        · rw [if_pos h3, if_neg (by omega), if_pos (by omega)]
        · rw [if_neg h3, if_neg (show ¬ i < x by omega)]
          by_cases h4 : i + 1 = x + n
          · rw [h4, Nat.add_sub_cancel, hx, if_pos (by omega)]
          · rw [if_neg (by omega), show i + 1 - n = i - n + 1 by omega, h.next]
  · unfold Halves.openGap at hi ⊢
    split_ifs at hi ⊢
    · exact h.apart i hi
    · exact h.apart _ hi

theorem closeGap (h : Whole w c) (hx : c x = c (x + n)) :
    Whole (Halves.closeGap x n w) (Halves.closeGap x n c) := by
  refine ⟨?_, fun i => ?_, fun i hi => ?_⟩
  · unfold Halves.closeGap
    by_cases hx0 : 0 < x
    · rw [if_pos hx0, h.start]
    · obtain rfl : x = 0 := by omega
      rw [if_neg hx0, ← hx, h.start]
  · unfold Halves.closeGap
    by_cases h1 : i + 1 < x
    · rw [if_pos h1, if_pos (by omega), h.next]
    · by_cases h2 : i + 1 = x
      · subst h2
        rw [if_neg h1, if_pos i.lt_succ_self, ← hx, h.next]
      · rw [if_neg h1, if_neg (by omega), show i + 1 + n = i + n + 1 by omega, h.next]
  · unfold Halves.closeGap at hi ⊢
    split_ifs at hi ⊢
    · exact h.apart i hi
    · exact h.apart _ hi

theorem cut (h : Whole w c) (hm : c m = false) : Whole (Halves.cut m w) (Halves.cut m c) := by
  refine ⟨?_, fun i => ?_, fun i hi => ?_⟩
  · unfold Halves.cut
    rw [h.start, ite_self]
  · unfold Halves.cut
    rw [h.next]
    by_cases h1 : i + 1 < m
    · rw [if_pos h1, if_pos (by omega)]
    · rw [if_neg h1]
      by_cases h2 : i < m
      · obtain rfl : m = i + 1 := by omega
        rw [if_pos h2, ← h.next, hm]
      · rw [if_neg h2]
  · unfold Halves.cut at hi ⊢
    split_ifs at hi ⊢
    exact h.apart i hi

/-- Places are written over, with the halves that belong to them. -/
theorem write (h : Whole w c) (hn : 0 < n) :
    Whole (Halves.erase (firstTouched c x) (lastTouched w x n) w)
      (Halves.erase (firstTouched c x) (lastTouched w x n) c) := by
  have hnext : c (x + n) = w (x + n - 1) := by
    rw [← h.next]
    congr 1
    omega
  refine h.erase ?_ ?_ ?_
  · unfold firstTouched
    split_ifs with hc
    · obtain ⟨y, rfl, hw⟩ := h.before hc
      exact h.apart y hw
    · simpa using hc
  · unfold lastTouched
    split_ifs with hw
    · rw [h.next]
      exact h.not_wide (hnext.trans hw)
    · rw [hnext]
      simpa using hw
  · unfold firstTouched lastTouched
    split_ifs <;> omega

/-- One place is made room for and written, in a row that ends before `m`. -/
theorem write_one (h : Whole w c) (hm : x + 1 < m) (hw : ∀ k, m ≤ k → w k = false)
    (hc : ∀ k, m ≤ k → c k = false) (hx : c x = false)
    (hok : x + 2 = m ∨ w x = false ∧ c (m - 1) = false) :
    Whole (Halves.erase (firstTouched c x) (lastTouched w x 1) (Halves.cut m (room x 1 w)))
      (Halves.erase (firstTouched c x) (lastTouched w x 1) (Halves.cut m (room x 1 c))) := by
  have hfirst : firstTouched c x = x := by
    unfold firstTouched
    rw [hx, if_neg (by decide)]
  rw [hfirst]
  by_cases hlast : x + 2 = m
  · -- what moves is the last place, and is either empty or written over
    have hgone : ∀ p : ℕ → Bool, (∀ k, m ≤ k → p k = false) → (w x = true ∨ p x = false) →
        Halves.erase x (lastTouched w x 1) (Halves.cut m (room x 1 p)) = Halves.erase x m p := by
      intro p hp hpx
      funext k
      unfold Halves.erase Halves.cut room lastTouched
      grind
    rw [hgone w hw (by cases w x <;> simp), hgone c hc (Or.inr hx)]
    exact h.erase hx (hc m (Nat.le_refl _)) (by omega)
  · obtain ⟨hwx, hend⟩ := hok.resolve_left hlast
    have hgap : ∀ p : ℕ → Bool, Halves.erase x (lastTouched w x 1) (Halves.cut m (room x 1 p)) =
        Halves.cut m (Halves.openGap x 1 p) := by
      intro p
      funext k
      unfold Halves.erase Halves.cut room lastTouched Halves.openGap
      grind
    rw [hgap, hgap]
    refine (h.openGap hx).cut ?_
    unfold Halves.openGap
    rw [if_neg (by omega), if_neg (by omega)]
    exact hend

/-- Two places are made room for and written, in a row that ends before `m`.  A thing cut at `x` is
written over with the one after it. -/
theorem write_two (h : Whole w c) (hm : x + 2 < m) (hx : c x = true → w (x + 1) = true)
    (hend : c (m - 2) = false) :
    Whole (Halves.erase (firstTouched c x) (lastTouched w x 2) (Halves.cut m (room x 2 w)))
      (Halves.erase (firstTouched c x) (lastTouched w x 2) (Halves.cut m (room x 2 c))) := by
  by_cases hcx : c x = true
  · obtain ⟨y, rfl, hwy⟩ := h.before hcx
    have hw1 : w (y + 2) = true := hx hcx
    have hgap : ∀ p : ℕ → Bool, Halves.erase (firstTouched c (y + 1)) (lastTouched w (y + 1) 2)
        (Halves.cut m (room (y + 1) 2 p)) =
          Halves.cut m (Halves.openGap (y + 1) 2 (Halves.erase y (y + 2) p)) := by
      intro p
      funext k
      unfold Halves.erase Halves.cut room firstTouched lastTouched Halves.openGap
      grind
    rw [hgap, hgap]
    have he := h.erase (h.apart y hwy) (h.apart (y + 2) hw1) (by omega)
    refine (he.openGap ?_).cut ?_
    · unfold Halves.erase
      rw [if_pos (by omega)]
    · unfold Halves.openGap Halves.erase
      rw [if_neg (by omega), if_neg (by omega), hend, ite_self]
  · have hcx' : c x = false := by simpa using hcx
    have hgap : ∀ p : ℕ → Bool, (w (x + 1) = true → p x = false) →
        Halves.erase (firstTouched c x) (lastTouched w x 2) (Halves.cut m (room x 2 p)) =
          Halves.cut m (Halves.openGap x 2 p) := by
      intro p hp
      funext k
      unfold Halves.erase Halves.cut room firstTouched lastTouched Halves.openGap
      grind
    rw [hgap w fun hw => by rw [← h.next]; exact h.apart _ hw, hgap c fun _ => hcx']
    refine (h.openGap hcx').cut ?_
    unfold Halves.openGap
    rw [if_neg (by omega), if_neg (by omega)]
    exact hend

/-- A new thing is put into two empty places. -/
theorem mark (h : Whole w c) (hc : c x = false) (hw : w (x + 1) = false) :
    Whole (Halves.mark x w) (Halves.mark (x + 1) c) := by
  refine ⟨?_, fun i => ?_, fun i hi => ?_⟩
  · unfold Halves.mark
    rw [if_neg (by omega), h.start]
  · unfold Halves.mark
    rw [h.next]
    by_cases hi : i = x
    · rw [if_pos (by omega), if_pos hi]
    · rw [if_neg (by omega), if_neg hi]
  · unfold Halves.mark at hi ⊢
    by_cases hi' : i = x
    · rw [if_neg (by omega), hi', hc]
    · rw [if_neg hi'] at hi
      by_cases hi'' : i = x + 1
      · rw [hi'', hw] at hi
        cases hi
      · rw [if_neg hi'', h.apart i hi]

end Whole

end BananaOS.Lib
