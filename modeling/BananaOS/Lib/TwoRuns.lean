import BananaOS.Lib.Checked

/-!
# Two runs side by side

What a program's results depend on is a property of two of its runs: `Both o o' R` says that both
return, with results that `R` relates.  There is one rule for each way a program is put together, and a
single run is the case of a run beside itself (`Both.left`).

The programs here work on arrays of a fixed number of cells, kept as functions.  `Cells.get` and
`Cells.set` return `none` outside the array; `Cells.Agree n s t` says that the first `n` cells are the
same, and `Cells.Grown` that two arrays were filled alike from the front and not touched behind.
-/

namespace BananaOS.Lib

variable {α α' β β' σ τ : Type}

/-- Both programs return, and `R` relates what they return. -/
def Both (o : Option α) (o' : Option α') (R : α → α' → Prop) : Prop :=
  ∃ a a', o = some a ∧ o' = some a' ∧ R a a'

namespace Both

variable {o : Option α} {o' : Option α'} {R Q : α → α' → Prop} {f : α → Option β} {f' : α' → Option β'}
  {S : β → β' → Prop}

theorem pure {a : α} {a' : α'} (h : R a a') : Both (some a) (some a') R := ⟨a, a', rfl, rfl, h⟩

theorem bind (ho : Both o o' R) (hf : ∀ a a', R a a' → Both (f a) (f' a') S) :
    Both (o >>= f) (o' >>= f') S := by
  obtain ⟨a, a', ha, ha', hR⟩ := ho
  obtain ⟨b, b', hb, hb', hS⟩ := hf a a' hR
  exact ⟨b, b', by rw [ha]; exact hb, by rw [ha']; exact hb', hS⟩

theorem mono (ho : Both o o' R) (h : ∀ a a', R a a' → Q a a') : Both o o' Q := by
  obtain ⟨a, a', ha, ha', hR⟩ := ho
  exact ⟨a, a', ha, ha', h a a' hR⟩

theorem ite {c : Prop} [Decidable c] {p : Option α} {p' : Option α'} (ho : c → Both o o' R)
    (hp : ¬ c → Both p p' R) : Both (if c then o else p) (if c then o' else p') R := by
  by_cases h : c
  · rw [if_pos h, if_pos h]
    exact ho h
  · rw [if_neg h, if_neg h]
    exact hp h

theorem of_eq {a : α} {a' : α'} (ho : Both o o' R) (h : o = some a) (h' : o' = some a') : R a a' := by
  obtain ⟨b, b', hb, hb', hR⟩ := ho
  obtain rfl : b = a := Option.some.inj (hb.symm.trans h)
  obtain rfl : b' = a' := Option.some.inj (hb'.symm.trans h')
  exact hR

/-- A loop that counts its rounds in `R`. -/
theorem times {f : σ → Option σ} {g : τ → Option τ} {R : ℕ → σ → τ → Prop} {s : σ} {t : τ} {k : ℕ}
    (n : ℕ) (h : R k s t) (hf : ∀ i s t, i < n → R (k + i) s t → Both (f s) (g t) (R (k + i + 1))) :
    Both (times f n s) (Lib.times g n t) (R (k + n)) := by
  induction n generalizing s t k with
  | zero => exact pure h
  | succ n ih =>
    refine bind (hf 0 s t n.succ_pos h) fun s' t' hst => ?_
    rw [show k + (n + 1) = k + 1 + n by omega]
    refine ih hst fun i s t hi hR => ?_
    have := hf (i + 1) s t (by omega)
    rw [show k + (i + 1) = k + 1 + i by omega] at this
    exact this hR

theorem upto {f : ℕ → σ → Option σ} {g : ℕ → τ → Option τ} {R : ℕ → σ → τ → Prop} {s : σ} {t : τ}
    (n : ℕ) (h : R 0 s t) (hf : ∀ i s t, i < n → R i s t → Both (f i s) (g i t) (R (i + 1))) :
    Both (upto f n s) (Lib.upto g n t) (R n) := by
  induction n with
  | zero => exact pure h
  | succ n ih =>
    exact bind (ih fun i s t hi => hf i s t (Nat.lt_succ_of_lt hi)) fun s' t' hst =>
      hf n s' t' n.lt_succ_self hst

end Both

namespace Cells

/-- The cell `i` of an array with `n` cells. -/
def get (n : ℕ) (s : ℕ → α) (i : ℤ) : Option α :=
  if 0 ≤ i ∧ i < n then some (s i.toNat) else none

/-- The cell `i` of an array with `n` cells becomes `a`. -/
def set (n : ℕ) (s : ℕ → α) (i : ℤ) (a : α) : Option (ℕ → α) :=
  if 0 ≤ i ∧ i < n then some fun k => if k = i.toNat then a else s k else none

/-- The first `n` cells are the same. -/
def Agree (n : ℕ) (s t : ℕ → α) : Prop := ∀ k < n, s k = t k

/-- From `s` and `t` two arrays were filled alike up to `i`, and not touched behind. -/
structure Grown (s t : ℕ → α) (i : ℕ) (s' t' : ℕ → α) : Prop where
  agree : Agree i s' t'
  left : ∀ k, i ≤ k → s' k = s k
  right : ∀ k, i ≤ k → t' k = t k

variable {n i j : ℕ} {s t s' t' : ℕ → α} {a : α}

theorem get_eq (h : i < n) : get n s i = some (s i) := if_pos ⟨Int.natCast_nonneg i, Int.ofNat_lt.mpr h⟩

theorem set_eq (a : α) (h : i < n) : set n s i a = some fun k => if k = i then a else s k :=
  if_pos ⟨Int.natCast_nonneg i, Int.ofNat_lt.mpr h⟩

theorem Agree.mono (h : Agree n s t) (hi : i ≤ n) : Agree i s t := fun k hk => h k (by omega)

theorem Grown.nil (s t : ℕ → α) : Grown s t 0 s t :=
  ⟨fun k hk => absurd hk k.not_lt_zero, fun _ _ => rfl, fun _ _ => rfl⟩

theorem Grown.set (h : Grown s t i s' t') (a : α) (hi : i < n) :
    Both (set n s' i a) (Cells.set n t' i a) (Grown s t (i + 1)) := by
  refine ⟨_, _, set_eq a hi, set_eq a hi, fun k hk => ?_, fun k hk => ?_, fun k hk => ?_⟩
  · split_ifs with hki
    · rfl
    · exact h.agree k (by omega)
  · rw [if_neg (by omega), h.left k (by omega)]
  · rw [if_neg (by omega), h.right k (by omega)]

end Cells

end BananaOS.Lib
