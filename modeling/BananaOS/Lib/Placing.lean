import Mathlib.Algebra.Order.Ring.Nat
import Mathlib.Algebra.BigOperators.Group.List.Basic
import Mathlib.Logic.Function.Basic
import Mathlib.Data.List.Pairwise
import Mathlib.Tactic.Common

/-!
# Placing things by counters that wrap

Things are placed one after the other, each at where the counter of its key stands, and move that
counter on, modulo `M`.  A thing need not move it by as much as it takes.  Of one key they come to lie in
order and apart exactly if each but the last moves the counter at least as far as it reaches, and the
counter does not wrap before the last (`FitsFrom`, `ordered_places_iff`); of many keys, exactly if this
is so of each (`ordered_placeAll_iff`).
-/

namespace BananaOS.Lib

variable {M s k : ℕ} {x y : ℕ × ℕ} {l : List (ℕ × ℕ)}

/-! ## One counter -/

/-- Where things lie, from where to where.  Of a thing: what it takes, and how far it moves the
counter. -/
def places (M : ℕ) : ℕ → List (ℕ × ℕ) → List (ℕ × ℕ)
  | _, [] => []
  | s, x :: l => (s, s + x.1) :: places M ((s + x.2) % M) l

/-- In order, and apart. -/
def Ordered (l : List (ℕ × ℕ)) : Prop := l.Pairwise fun a b => a.2 ≤ b.1

/-- Each but the last moves the counter as far as it reaches at least, and the counter, from `s` on,
stays below `M` till then. -/
def FitsFrom (M s : ℕ) (l : List (ℕ × ℕ)) : Prop :=
  ∀ before x behind, l = before ++ x :: behind → behind ≠ [] →
    x.1 ≤ x.2 ∧ s + (before.map Prod.snd).sum + x.2 < M

theorem fitsFrom_nil : FitsFrom M s [] := fun before x behind h => by
  simp at h

theorem fitsFrom_singleton : FitsFrom M s [x] := by
  intro before y behind h hne
  have hlen := congrArg List.length h
  simp only [List.length_append, List.length_cons, List.length_nil] at hlen
  exact absurd (List.eq_nil_of_length_eq_zero (by omega)) hne

theorem fitsFrom_cons_cons :
    FitsFrom M s (x :: y :: l) ↔ (x.1 ≤ x.2 ∧ s + x.2 < M) ∧ FitsFrom M (s + x.2) (y :: l) := by
  constructor
  · intro h
    refine ⟨by simpa using h [] x (y :: l) rfl (List.cons_ne_nil _ _), fun before z behind hz hne => ?_⟩
    have hmore := h (x :: before) z behind (by rw [hz]; rfl) hne
    rw [List.map_cons, List.sum_cons, ← Nat.add_assoc] at hmore
    exact hmore
  · rintro ⟨hx, h⟩ (_ | ⟨z, before⟩) w behind hz hne
    · obtain ⟨rfl, -⟩ := List.cons.inj hz
      simpa using hx
    · obtain ⟨rfl, hrest⟩ := List.cons.inj hz
      have hmore := h before w behind hrest hne
      rwa [List.map_cons, List.sum_cons, ← Nat.add_assoc]

/-- What fits is never placed before where the counter began. -/
theorem le_of_mem_places (h : FitsFrom M s l) {a : ℕ × ℕ} (ha : a ∈ places M s l) : s ≤ a.1 := by
  induction l generalizing s with
  | nil => cases ha
  | cons x l ih =>
    rcases List.mem_cons.mp ha with rfl | ha
    · exact Nat.le_refl _
    · cases l with
      | nil => cases ha
      | cons y l =>
        obtain ⟨⟨-, hlt⟩, hrest⟩ := fitsFrom_cons_cons.mp h
        rw [Nat.mod_eq_of_lt hlt] at ha
        exact (Nat.le_add_right _ _).trans (ih hrest ha)

/-- What fits comes to lie in order and apart, and nothing else does. -/
theorem ordered_places_iff (hs : s < M) (hl : ∀ a ∈ l, a.2 < M) :
    Ordered (places M s l) ↔ FitsFrom M s l := by
  induction l generalizing s with
  | nil => exact ⟨fun _ => fitsFrom_nil, fun _ => List.Pairwise.nil⟩
  | cons x l ih =>
    cases l with
    | nil => exact ⟨fun _ => fitsFrom_singleton, fun _ => List.pairwise_singleton _ _⟩
    | cons y l =>
      obtain ⟨hx, hl⟩ := List.forall_mem_cons.mp hl
      have hM : 0 < M := Nat.zero_lt_of_lt hs
      have hrest := ih (Nat.mod_lt (s + x.2) hM) hl
      rw [fitsFrom_cons_cons]
      change List.Pairwise _ ((s, s + x.1) :: places M ((s + x.2) % M) (y :: l)) ↔ _
      rw [List.pairwise_cons]
      constructor
      · rintro ⟨hhead, htail⟩
        -- where the counter wraps the next thing lies before this one
        have hnext : s + x.1 ≤ (s + x.2) % M := hhead ((s + x.2) % M, _) List.mem_cons_self
        have hlt : s + x.2 < M := by
          by_contra hge
          have hmod : (s + x.2) % M = s + x.2 - M := by
            rw [Nat.mod_eq_sub_mod (Nat.le_of_not_lt hge), Nat.mod_eq_of_lt (by omega)]
          omega
        rw [Nat.mod_eq_of_lt hlt] at hnext htail hrest
        exact ⟨⟨by omega, hlt⟩, hrest.mp htail⟩
      · rintro ⟨⟨hle, hlt⟩, hfits⟩
        rw [Nat.mod_eq_of_lt hlt] at hrest ⊢
        refine ⟨fun a ha => ?_, hrest.mpr hfits⟩
        have := le_of_mem_places hfits ha
        dsimp only
        omega

/-! ## A counter for each key -/

section Keys

variable {α κ : Type*} [DecidableEq κ] (key : α → κ) (size step : α → ℕ)

/-- Each thing with where it is placed. -/
def placeAll (M : ℕ) : (κ → ℕ) → List α → List (α × ℕ)
  | _, [] => []
  | at_, a :: l =>
    (a, at_ (key a)) ::
      placeAll M (Function.update at_ (key a) ((at_ (key a) + step a) % M)) l

/-- Where the counters stand after all things are placed. -/
def counters (M : ℕ) (at_ : κ → ℕ) (l : List α) : κ → ℕ :=
  l.foldl (fun at_ a => Function.update at_ (key a) ((at_ (key a) + step a) % M)) at_

variable {key size step} {at_ : κ → ℕ} {things : List α}

theorem placeAll_append (more : List α) :
    placeAll key step M at_ (things ++ more) =
      placeAll key step M at_ things ++
        placeAll key step M (counters key step M at_ things) more := by
  induction things generalizing at_ with
  | nil => rfl
  | cons a l ih => exact congrArg (_ :: ·) ih

/-- Nothing is placed at `M` or after it. -/
theorem lt_of_mem_placeAll (hat : ∀ i, at_ i < M) {a : α × ℕ}
    (ha : a ∈ placeAll key step M at_ things) : a.2 < M := by
  induction things generalizing at_ with
  | nil => cases ha
  | cons x l ih =>
    rcases List.mem_cons.mp ha with rfl | ha
    · exact hat _
    · refine ih (fun i => ?_) ha
      by_cases hi : i = key x
      · rw [hi, Function.update_self]
        exact Nat.mod_lt _ (Nat.zero_lt_of_lt (hat i))
      · rw [Function.update_of_ne hi]
        exact hat i

theorem take_placeAll (n : ℕ) :
    (placeAll key step M at_ things).take n = placeAll key step M at_ (things.take n) := by
  induction things generalizing at_ n with
  | nil => simp [placeAll]
  | cons a l ih =>
    cases n with
    | zero => rfl
    | succ n => exact congrArg (_ :: ·) (ih n)

theorem filter_placeAll (i : κ) :
    ((placeAll key step M at_ things).filter fun a => key a.1 = i).map
        (fun a => (a.2, a.2 + size a.1)) =
      places M (at_ i) ((things.filter fun a => key a = i).map fun a => (size a, step a)) := by
  induction things generalizing at_ with
  | nil => rfl
  | cons a l ih =>
    rw [placeAll]
    by_cases ha : key a = i
    · subst ha
      rw [List.filter_cons_of_pos (by simp), List.filter_cons_of_pos (by simp), List.map_cons,
        List.map_cons, ih, Function.update_self]
      rfl
    · rw [List.filter_cons_of_neg (by simpa using ha), List.filter_cons_of_neg (by simpa using ha), ih,
        Function.update_of_ne (Ne.symm ha)]

/-- Those of a key lie in order and apart, for each key, exactly if they fit. -/
theorem ordered_placeAll_iff (hat : ∀ i, at_ i < M) (hstep : ∀ a ∈ things, step a < M) :
    ((placeAll key step M at_ things).Pairwise fun a b =>
        key a.1 = key b.1 → a.2 + size a.1 ≤ b.2) ↔
      ∀ i, FitsFrom M (at_ i) ((things.filter fun a => key a = i).map fun a => (size a, step a)) := by
  have hone : ∀ i, Ordered (((placeAll key step M at_ things).filter fun a => key a.1 = i).map
        fun a => (a.2, a.2 + size a.1)) ↔
      FitsFrom M (at_ i) ((things.filter fun a => key a = i).map fun a => (size a, step a)) := by
    intro i
    rw [filter_placeAll]
    refine ordered_places_iff (hat i) fun a ha => ?_
    obtain ⟨b, hb, rfl⟩ := List.mem_map.mp ha
    exact hstep b (List.mem_of_mem_filter hb)
  simp only [← hone, Ordered, List.pairwise_map, List.pairwise_filter, decide_eq_true_eq]
  constructor
  · intro h i
    exact h.imp fun hab ha hb => hab (ha.trans hb.symm)
  · intro h
    clear hone
    generalize placeAll key step M at_ things = placed at h ⊢
    induction placed with
    | nil => exact List.Pairwise.nil
    | cons a l ih =>
      refine List.pairwise_cons.mpr ⟨fun b hb hab => ?_, ih fun i => (List.pairwise_cons.mp (h i)).2⟩
      exact (List.pairwise_cons.mp (h (key a.1))).1 b hb rfl hab.symm

end Keys

end BananaOS.Lib
