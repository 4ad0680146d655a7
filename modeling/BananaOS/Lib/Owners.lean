import Mathlib.Algebra.Order.Ring.Nat
import Mathlib.Algebra.BigOperators.Group.Finset.Basic
import Mathlib.Algebra.BigOperators.Ring.Finset
import Mathlib.Data.Fintype.Basic
import Mathlib.Tactic.Common

/-!
# Bits shared out among owners, and tallies

* `Shares bits own`: the set bits are the disjoint union of what the owners have.  An allocator
  keeps this when an owner gets clear bits or gives some of its own back (`Shares.set`, with
  `Shares.grant` and `Shares.revoke` for all of them), and when one hands some of its bits to
  another (`Shares.hand`, `Shares.move`).
* `sum_update`: a sum over a table, after one entry of the table changed.
-/

namespace BananaOS.Lib

open Function

variable {α ι : Type*} [DecidableEq ι]

/-- The set bits are exactly what the owners have, and no two owners share one. -/
structure Shares (bits : α → Bool) (own : ι → Finset α) : Prop where
  mem : ∀ a, bits a = true ↔ ∃ o, a ∈ own o
  disjoint : ∀ o o', o ≠ o' → Disjoint (own o) (own o')

namespace Shares

variable {bits bits' : α → Bool} {own : ι → Finset α} {o o' : ι}

/-- An owner has `S` now: some of what it had, and bits that were clear. -/
theorem set (h : Shares bits own) {S : Finset α} (hS : ∀ a ∈ S, a ∈ own o ∨ bits a = false)
    (hb : ∀ a, bits' a = true ↔ bits a = true ∧ a ∉ own o ∨ a ∈ S) :
    Shares bits' (update own o S) := by
  have hne : ∀ i, i ≠ o → Disjoint (own i) S := by
    intro i hi
    refine Finset.disjoint_left.mpr fun a ha haS => ?_
    rcases hS a haS with hao | hclear
    · exact Finset.disjoint_left.mp (h.disjoint i o hi) ha hao
    · have := (h.mem a).mpr ⟨i, ha⟩
      rw [hclear] at this
      exact Bool.false_ne_true this
  constructor
  · intro a
    rw [hb, h.mem]
    constructor
    · rintro (⟨⟨i, hi⟩, hao⟩ | ha)
      · have hio : i ≠ o := fun hio => hao (hio ▸ hi)
        exact ⟨i, by rwa [update_of_ne hio]⟩
      · exact ⟨o, by rwa [update_self]⟩
    · rintro ⟨i, hi⟩
      rcases eq_or_ne i o with rfl | hio
      · rw [update_self] at hi
        exact Or.inr hi
      · rw [update_of_ne hio] at hi
        exact Or.inl ⟨⟨i, hi⟩, Finset.disjoint_left.mp (h.disjoint i o hio) hi⟩
  · intro i j hij
    rcases eq_or_ne i o with rfl | hio
    · rw [update_self, update_of_ne hij.symm]
      exact (hne j hij.symm).symm
    · rw [update_of_ne hio]
      rcases eq_or_ne j o with rfl | hjo
      · rw [update_self]
        exact hne i hio
      · rw [update_of_ne hjo]
        exact h.disjoint i j hij

theorem grant (h : Shares bits own) (ho : own o = ∅) {R : Finset α} (hR : ∀ a ∈ R, bits a = false)
    (hb : ∀ a, bits' a = true ↔ bits a = true ∨ a ∈ R) : Shares bits' (update own o R) :=
  h.set (fun a ha => Or.inr (hR a ha)) fun a => by simp [hb, ho]

theorem revoke (h : Shares bits own) (hb : ∀ a, bits' a = true ↔ bits a = true ∧ a ∉ own o) :
    Shares bits' (update own o ∅) :=
  h.set (fun a ha => absurd ha (Finset.notMem_empty a)) fun a => by simp [hb]

/-- An owner hands some of what it has to another. -/
theorem hand [DecidableEq α] (h : Shares bits own) (hne : o ≠ o') {R : Finset α}
    (hR : R ⊆ own o) : Shares bits (update (update own o (own o \ R)) o' (own o' ∪ R)) := by
  have h1 : Shares (fun a => bits a && decide (a ∉ R)) (update own o (own o \ R)) := by
    refine h.set (fun a ha => Or.inl (Finset.mem_sdiff.mp ha).1) fun a => ?_
    rw [Bool.and_eq_true, decide_eq_true_eq, Finset.mem_sdiff]
    constructor
    · rintro ⟨hb, ha⟩
      by_cases hao : a ∈ own o
      · exact Or.inr ⟨hao, ha⟩
      · exact Or.inl ⟨hb, hao⟩
    · rintro (⟨hb, hao⟩ | ⟨hao, ha⟩)
      · exact ⟨hb, fun ha => hao (hR ha)⟩
      · exact ⟨(h.mem a).mpr ⟨o, hao⟩, ha⟩
  refine h1.set (fun a ha => ?_) fun a => ?_
  · rw [update_of_ne hne.symm]
    rcases Finset.mem_union.mp ha with ha | ha
    · exact Or.inl ha
    · exact Or.inr (by simp [ha])
  · rw [update_of_ne hne.symm, Bool.and_eq_true, decide_eq_true_eq, Finset.mem_union]
    constructor
    · intro hb
      by_cases hao : a ∈ own o'
      · exact Or.inr (Or.inl hao)
      · by_cases haR : a ∈ R
        · exact Or.inr (Or.inr haR)
        · exact Or.inl ⟨⟨hb, haR⟩, hao⟩
    · rintro (⟨⟨hb, -⟩, -⟩ | ha | ha)
      · exact hb
      · exact (h.mem a).mpr ⟨o', ha⟩
      · exact (h.mem a).mpr ⟨o, hR ha⟩

theorem move [DecidableEq α] (h : Shares bits own) (hne : o ≠ o') (ho' : own o' = ∅) :
    Shares bits (update (update own o ∅) o' (own o)) := by
  have := h.hand hne (Finset.Subset.refl (own o))
  rwa [Finset.sdiff_self, ho', Finset.empty_union] at this

end Shares

/-- A tally over a table after one of its entries changed. -/
theorem sum_update {κ : Type*} {S : Finset ι} {i : ι} (hi : i ∈ S) (f : ι → κ) (c : κ)
    (w : κ → ℤ) :
    ∑ j ∈ S, w (update f i c j) = ∑ j ∈ S, w (f j) - w (f i) + w c := by
  have h1 : (fun j => w (update f i c j)) = update (fun j => w (f j)) i (w c) := by
    ext j
    rcases eq_or_ne j i with rfl | hj
    · rw [update_self, update_self]
    · rw [update_of_ne hj, update_of_ne hj]
  rw [h1, Finset.sum_update_of_mem hi, Finset.sdiff_singleton_eq_erase,
    ← Finset.add_sum_erase S (fun j => w (f j)) hi]
  omega

end BananaOS.Lib
