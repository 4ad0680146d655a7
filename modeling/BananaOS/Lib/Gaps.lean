import Mathlib.Algebra.Order.Ring.Nat
import Mathlib.Algebra.Order.Group.Nat
import Mathlib.Data.List.Basic

/-!
# What segments leave free

Segments of a line in order, none of them over another, and what lies between them: the `stretches` that
begin at a multiple of a unit and are a unit long at least.  A stretch meets no segment
(`apart_of_mem_stretches`) and lies between the ends that were given (`mem_stretches`).  It ends where
the next segment begins or the line does, and only what is whole of it, in units, is ever handed out
(`Extent.whole`).
-/

namespace BananaOS.Lib

/-- A piece of a line: `len` places from `base` on. -/
structure Extent where
  base : ℕ
  len : ℕ
  deriving DecidableEq, Repr

namespace Extent

/-- The place after the last one. -/
def stop (s : Extent) : ℕ := s.base + s.len

/-- Neither reaches into the other. -/
def Apart (s t : Extent) : Prop := s.stop ≤ t.base ∨ t.stop ≤ s.base

/-- One lies in the other. -/
def Within (s t : Extent) : Prop := t.base ≤ s.base ∧ s.stop ≤ t.stop

/-- The whole units of a segment. -/
def whole (n : ℕ) (s : Extent) : Extent := ⟨s.base, s.len / n * n⟩

instance (s t : Extent) : Decidable (s.Apart t) := inferInstanceAs (Decidable (_ ∨ _))
instance (s t : Extent) : Decidable (s.Within t) := inferInstanceAs (Decidable (_ ∧ _))

variable {s t u : Extent}

theorem Apart.symm (h : s.Apart t) : t.Apart s := Or.symm h

theorem Within.trans (h : s.Within t) (h' : t.Within u) : s.Within u :=
  ⟨h'.1.trans h.1, h.2.trans h'.2⟩

theorem Apart.mono (h : t.Apart u) (hs : s.Within t) : s.Apart u :=
  h.imp hs.2.trans fun h => h.trans hs.1

theorem whole_within (n : ℕ) (s : Extent) : (s.whole n).Within s :=
  ⟨le_rfl, Nat.add_le_add_left (Nat.div_mul_le_self _ _) _⟩

end Extent

/-- The first multiple of `n` from `a` on. -/
def alignUp (n a : ℕ) : ℕ := (a + (n - 1)) / n * n

theorem le_alignUp {n : ℕ} (hn : 0 < n) (a : ℕ) : a ≤ alignUp n a := by
  have h := Nat.div_add_mod (a + (n - 1)) n
  have hm := Nat.mod_lt (a + (n - 1)) hn
  rw [alignUp, Nat.mul_comm]
  omega

theorem alignUp_mono {n a b : ℕ} (h : a ≤ b) : alignUp n a ≤ alignUp n b :=
  Nat.mul_le_mul_right _ (Nat.div_le_div_right (Nat.add_le_add_right h _))

/-- The stretch from `a` on to the place `stop`, if it is long enough. -/
def stretch (n a stop : ℕ) : List Extent :=
  if alignUp n a < stop ∧ n ≤ stop - alignUp n a then [⟨alignUp n a, stop - alignUp n a⟩] else []

/-- The stretches that segments leave from `a` on to `hi`. -/
def stretches (n hi : ℕ) : ℕ → List Extent → List Extent
  | a, [] => stretch n a hi
  | a, p :: l => stretch n a p.base ++ stretches n hi (max a p.stop) l

variable {n hi a stop : ℕ} {s : Extent} {l : List Extent}

theorem mem_stretch (hn : 0 < n) (h : s ∈ stretch n a stop) :
    a ≤ s.base ∧ s.stop = stop ∧ n ≤ s.len := by
  unfold stretch at h
  split_ifs at h with hc
  · obtain rfl := List.mem_singleton.1 h
    exact ⟨le_alignUp hn a, Nat.add_sub_of_le hc.1.le, hc.2⟩
  · exact absurd h List.not_mem_nil

theorem mem_stretches (hn : 0 < n) (hl : ∀ p ∈ l, p.base ≤ hi) (h : s ∈ stretches n hi a l) :
    a ≤ s.base ∧ s.stop ≤ hi ∧ n ≤ s.len := by
  induction l generalizing a with
  | nil =>
    obtain ⟨ha, hs, hlen⟩ := mem_stretch hn h
    exact ⟨ha, hs.le, hlen⟩
  | cons p l ih =>
    rcases List.mem_append.1 h with h | h
    · obtain ⟨ha, hs, hlen⟩ := mem_stretch hn h
      exact ⟨ha, hs.le.trans (hl p List.mem_cons_self), hlen⟩
    · obtain ⟨ha, hs⟩ := ih (fun q hq => hl q (List.mem_cons_of_mem _ hq)) h
      exact ⟨(le_max_left _ _).trans ha, hs⟩

/-- **A stretch meets none of the segments**, when they are given in order. -/
theorem apart_of_mem_stretches (hn : 0 < n) (hl : l.Pairwise fun p q => p.base ≤ q.base)
    (h : s ∈ stretches n hi a l) {p : Extent} (hp : p ∈ l) (hhi : ∀ p ∈ l, p.base ≤ hi) : s.Apart p := by
  induction l generalizing a with
  | nil => exact absurd hp List.not_mem_nil
  | cons q l ih =>
    obtain ⟨hq, hrest⟩ := List.pairwise_cons.1 hl
    have hhi' : ∀ p ∈ l, p.base ≤ hi := fun p hp => hhi p (List.mem_cons_of_mem _ hp)
    rcases List.mem_append.1 h with h | h
    · obtain ⟨-, hs, -⟩ := mem_stretch hn h
      -- the stretch before the first segment ends where that one begins
      rcases List.mem_cons.1 hp with rfl | hp
      · exact .inl hs.le
      · exact .inl (hs.le.trans (hq p hp))
    · rcases List.mem_cons.1 hp with rfl | hp
      · exact .inr ((le_max_right _ _).trans (mem_stretches hn hhi' h).1)
      · exact ih hrest h hp hhi'

/-- From a place on whose next multiple lies behind the end there is no stretch. -/
theorem stretches_eq_nil (h : hi ≤ alignUp n a) (hl : ∀ p ∈ l, p.base ≤ hi) : stretches n hi a l = [] := by
  have hnil : ∀ b stop, a ≤ b → stop ≤ hi → stretch n b stop = [] := by
    intro b stop hb hs
    have := alignUp_mono (n := n) hb
    exact if_neg fun hc => by omega
  suffices h : ∀ b, a ≤ b → stretches n hi b l = [] from h a le_rfl
  induction l with
  | nil => exact fun b hb => hnil b hi hb le_rfl
  | cons p l ih =>
    intro b hb
    rw [stretches, hnil b _ hb (hl p List.mem_cons_self), List.nil_append]
    exact ih (fun q hq => hl q (List.mem_cons_of_mem _ hq)) _ (hb.trans (le_max_left _ _))

end BananaOS.Lib
