import Mathlib.Algebra.Order.Ring.Nat
import Mathlib.Data.List.Pairwise
import Mathlib.Data.List.Basic
import Mathlib.Order.Nat
import Mathlib.Tactic.Common

/-!
# Sorted lists of labelled ranges

A list of half-open ranges `[start, stop)` of naturals, each with a label, read as a partial
map from naturals to labels.

* `lookup`: the label of the first range that holds a point.
* `Sorted`: no range is empty and each one ends before the next ones start.
* `Tight`: two ranges that touch have different labels, so the list is the shortest one for
  its map.
* `lookup_eq_some_iff`: in a sorted list a point has the label of any range that holds it.
-/

namespace BananaOS.Lib

/-- The points from `start` up to (not including) `stop`, with a label. -/
structure Range (β : Type*) where
  start : ℕ
  stop : ℕ
  tag : β
  deriving DecidableEq, Repr

namespace Range

variable {β : Type*}

/-- `a` is a point of the range. -/
def Has (v : Range β) (a : ℕ) : Prop := v.start ≤ a ∧ a < v.stop

instance (v : Range β) (a : ℕ) : Decidable (v.Has a) :=
  inferInstanceAs (Decidable (v.start ≤ a ∧ a < v.stop))

/-- The label of the first range of the list that holds `a`. -/
def lookup : List (Range β) → ℕ → Option β
  | [], _ => none
  | v :: l, a => if v.Has a then some v.tag else lookup l a

@[simp] theorem lookup_nil (a : ℕ) : lookup ([] : List (Range β)) a = none := rfl

theorem lookup_cons (v : Range β) (l : List (Range β)) (a : ℕ) :
    lookup (v :: l) a = if v.start ≤ a ∧ a < v.stop then some v.tag else lookup l a := rfl

theorem lookup_append (l r : List (Range β)) (a : ℕ) :
    lookup (l ++ r) a = (lookup l a).or (lookup r a) := by
  induction l with
  | nil => simp
  | cons v l ih =>
    rw [List.cons_append, lookup_cons, lookup_cons, ih]
    split_ifs <;> simp

theorem lookup_eq_none_iff {l : List (Range β)} {a : ℕ} :
    lookup l a = none ↔ ∀ v ∈ l, ¬ v.Has a := by
  induction l with
  | nil => simp
  | cons v l ih =>
    rw [lookup_cons]
    split_ifs with h
    · simp [show v.Has a from h]
    · simp [ih, show ¬ v.Has a from h]

/-- A list cut at `c` is read on the side of the cut the point is on. -/
theorem lookup_split {l r : List (Range β)} {c : ℕ} (hl : ∀ v ∈ l, v.stop ≤ c)
    (hr : ∀ w ∈ r, c ≤ w.start) (a : ℕ) :
    lookup (l ++ r) a = if a < c then lookup l a else lookup r a := by
  rw [lookup_append]
  split_ifs with ha
  · have : lookup r a = none := lookup_eq_none_iff.mpr fun w hw h => by
      have h1 := hr w hw
      have h2 := h.1
      omega
    rw [this, Option.or_none]
  · have : lookup l a = none := lookup_eq_none_iff.mpr fun v hv h => by
      have h1 := hl v hv
      have h2 := h.2
      omega
    rw [this, Option.none_or]

/-- No range is empty, and each one ends before every later one starts. -/
structure Sorted (l : List (Range β)) : Prop where
  nonempty : ∀ v ∈ l, v.start < v.stop
  disjoint : l.Pairwise fun v w => v.stop ≤ w.start

/-- Ranges that touch carry different labels. -/
def Tight (l : List (Range β)) : Prop :=
  l.Pairwise fun v w => v.stop = w.start → v.tag ≠ w.tag

theorem Sorted.nil : Sorted ([] : List (Range β)) := ⟨by simp, List.Pairwise.nil⟩

theorem sorted_cons {v : Range β} {l : List (Range β)} :
    Sorted (v :: l) ↔ v.start < v.stop ∧ (∀ w ∈ l, v.stop ≤ w.start) ∧ Sorted l := by
  constructor
  · intro h
    refine ⟨h.nonempty v (List.mem_cons_self ..), (List.pairwise_cons.mp h.disjoint).1, ?_⟩
    exact ⟨fun w hw => h.nonempty w (List.mem_cons_of_mem _ hw),
      (List.pairwise_cons.mp h.disjoint).2⟩
  · rintro ⟨hv, hl, h⟩
    refine ⟨?_, List.pairwise_cons.mpr ⟨hl, h.disjoint⟩⟩
    intro w hw
    rcases List.mem_cons.mp hw with rfl | hw
    · exact hv
    · exact h.nonempty w hw

theorem tight_cons {v : Range β} {l : List (Range β)} :
    Tight (v :: l) ↔ (∀ w ∈ l, v.stop = w.start → v.tag ≠ w.tag) ∧ Tight l :=
  List.pairwise_cons

theorem sorted_append {l r : List (Range β)} :
    Sorted (l ++ r) ↔ Sorted l ∧ Sorted r ∧ ∀ v ∈ l, ∀ w ∈ r, v.stop ≤ w.start := by
  induction l with
  | nil => simp [Sorted.nil]
  | cons v l ih =>
    rw [List.cons_append, sorted_cons, ih, sorted_cons]
    constructor
    · rintro ⟨hv, hl, hs, hr, hlr⟩
      refine ⟨⟨hv, fun w hw => hl w (List.mem_append_left _ hw), hs⟩, hr, ?_⟩
      intro x hx w hw
      rcases List.mem_cons.mp hx with rfl | hx
      · exact hl w (List.mem_append_right _ hw)
      · exact hlr x hx w hw
    · rintro ⟨⟨hv, hl, hs⟩, hr, hlr⟩
      refine ⟨hv, ?_, hs, hr, fun x hx => hlr x (List.mem_cons_of_mem _ hx)⟩
      intro w hw
      rcases List.mem_append.mp hw with hw | hw
      · exact hl w hw
      · exact hlr v (List.mem_cons_self ..) w hw

theorem tight_append {l r : List (Range β)} :
    Tight (l ++ r) ↔
      Tight l ∧ Tight r ∧ ∀ v ∈ l, ∀ w ∈ r, v.stop = w.start → v.tag ≠ w.tag :=
  List.pairwise_append

/-- In a sorted list a point has the label of any range that holds it. -/
theorem Sorted.lookup_eq_some_iff {l : List (Range β)} (h : Sorted l) {a : ℕ} {b : β} :
    lookup l a = some b ↔ ∃ v ∈ l, v.Has a ∧ v.tag = b := by
  induction l with
  | nil => simp
  | cons v l ih =>
    obtain ⟨hv, hl, hs⟩ := sorted_cons.mp h
    rw [lookup_cons]
    split_ifs with hva
    · constructor
      · rintro ⟨⟩
        exact ⟨v, List.mem_cons_self .., hva, rfl⟩
      · rintro ⟨w, hw, hwa, rfl⟩
        rcases List.mem_cons.mp hw with rfl | hw
        · rfl
        · -- a later range starts at or after the end of `v`, so it cannot hold `a` too
          have h1 := hl w hw
          have h2 := hva.2
          have h3 := hwa.1
          omega
    · rw [ih hs]
      constructor
      · rintro ⟨w, hw, hwa⟩
        exact ⟨w, List.mem_cons_of_mem _ hw, hwa⟩
      · rintro ⟨w, hw, hwa, hb⟩
        rcases List.mem_cons.mp hw with rfl | hw
        · exact absurd hwa hva
        · exact ⟨w, hw, hwa, hb⟩

end Range

end BananaOS.Lib
