import Mathlib.Algebra.Order.Ring.Nat
import Mathlib.Algebra.BigOperators.Group.List.Basic
import Mathlib.Tactic.Common

/-!
# Records that tile a stretch

Records lie one after the other from an offset up to `stop`, each as long as it says itself.
`At o s` says that the record `s` is read at `o`; `Tiled At len o l stop`, that the records `l` lie
from `o` to `stop` without a gap.

* `tiled_append`, `tiled_cons_append`: a list of records is cut at a record.
* `Tiled.splice`: some of the records are replaced by others of the same length in all, and the
  rest stay as they are.
* `walk` goes from record to record until its body says stop; over records that tile,
  `walk_tiled` makes it a recursion over the list.
-/

namespace BananaOS.Lib

variable {S σ : Type*} {At At' : ℕ → S → Prop} {len : S → ℕ} {l l' r : List S} {s : S} {o stop : ℕ}

/-- The records `l` from `o` on end at `stop`. -/
def Tiled (At : ℕ → S → Prop) (len : S → ℕ) : ℕ → List S → ℕ → Prop
  | o, [], stop => o = stop
  | o, s :: l, stop => At o s ∧ Tiled At len (o + len s) l stop

/-- How long the records are in all. -/
def span (len : S → ℕ) (l : List S) : ℕ := (l.map len).sum

@[simp] theorem span_nil : span len [] = 0 := rfl

@[simp] theorem span_cons : span len (s :: l) = len s + span len l := by simp [span]

@[simp] theorem span_append : span len (l ++ l') = span len l + span len l' := by simp [span]

theorem Tiled.stop_eq (h : Tiled At len o l stop) : stop = o + span len l := by
  induction l generalizing o with
  | nil => exact h.symm
  | cons s l ih => rw [ih h.2, span_cons, Nat.add_assoc]

theorem tiled_append :
    Tiled At len o (l ++ l') stop ↔
      Tiled At len o l (o + span len l) ∧ Tiled At len (o + span len l) l' stop := by
  induction l generalizing o with
  | nil => simp [Tiled]
  | cons s l ih => simp only [List.cons_append, Tiled, ih, span_cons, and_assoc, Nat.add_assoc]

theorem tiled_cons_append :
    Tiled At len o (l ++ s :: r) stop ↔
      Tiled At len o l (o + span len l) ∧ At (o + span len l) s ∧
        Tiled At len (o + span len l + len s) r stop := tiled_append

theorem Tiled.imp (h : Tiled At len o l stop)
    (himp : ∀ o' s, s ∈ l → o ≤ o' → o' + len s ≤ stop → At o' s → At' o' s) :
    Tiled At' len o l stop := by
  induction l generalizing o with
  | nil => exact h
  | cons s l ih =>
    obtain ⟨h1, h2⟩ := h
    have hend := h2.stop_eq
    refine ⟨himp o s (List.mem_cons_self ..) (Nat.le_refl o) (by omega) h1, ih h2 fun o' t ht hle => ?_⟩
    exact himp o' t (List.mem_cons_of_mem _ ht) (by omega)

/-- The records `l'` are replaced by `new`; what is outside of them is read as before. -/
theorem Tiled.splice {new : List S} (h : Tiled At len o (l ++ l' ++ r) stop)
    (hnew : Tiled At' len (o + span len l) new (o + span len l + span len l'))
    (hout : ∀ o' s, o' + len s ≤ o + span len l ∨ o + span len l + span len l' ≤ o' →
      o' + len s ≤ stop → At o' s → At' o' s) :
    Tiled At' len o (l ++ new ++ r) stop := by
  rw [List.append_assoc, tiled_append, tiled_append] at h
  obtain ⟨h1, h2, h3⟩ := h
  have hspan : span len new = span len l' := by
    have := hnew.stop_eq
    omega
  have hstop := h3.stop_eq
  rw [List.append_assoc, tiled_append, tiled_append, hspan]
  refine ⟨h1.imp fun o' s _ _ hle => hout o' s (.inl hle) (by omega), hnew, ?_⟩
  exact h3.imp fun o' s _ hle => hout o' s (.inr hle)

/-! ## Walking along -/

/-- From record to record as long as there is a good one below `stop`, until the body `f` says stop;
within `n` rounds. -/
def walk (ok : ℕ → Bool) (next : ℕ → ℕ) (stop : ℕ) (f : σ → ℕ → σ × Bool) : ℕ → ℕ → σ → σ × Bool
  | 0, _, a => (a, false)
  | n + 1, o, a =>
    if o < stop ∧ ok o = true then
      if (f a o).2 then ((f a o).1, true) else walk ok next stop f n (o + next o) (f a o).1
    else (a, false)

/-- The body along a list of records, from offset `o` on. -/
def along (len : S → ℕ) (f : σ → ℕ → σ × Bool) : ℕ → List S → σ → σ × Bool
  | _, [], a => (a, false)
  | o, s :: l, a => if (f a o).2 then ((f a o).1, true) else along len f (o + len s) l (f a o).1

/-- Over records that tile, the walk passes each of them. -/
theorem walk_tiled {ok : ℕ → Bool} {next : ℕ → ℕ} {f : σ → ℕ → σ × Bool} {n : ℕ} {a : σ}
    (hat : ∀ o s, At o s → ok o = true ∧ next o = len s ∧ 0 < len s)
    (h : Tiled At len o l stop) (hn : stop - o ≤ n) :
    walk ok next stop f n o a = along len f o l a := by
  induction l generalizing o n a with
  | nil =>
    obtain rfl : o = stop := h
    cases n with
    | zero => rfl
    | succ n => rw [walk, if_neg (by omega), along]
  | cons s l ih =>
    obtain ⟨h1, h2⟩ := h
    obtain ⟨hok, hnext, hpos⟩ := hat o s h1
    have hend := h2.stop_eq
    cases n with
    | zero => omega
    | succ n =>
      rw [walk, if_pos ⟨by omega, hok⟩, along, hnext, ih h2 (by omega)]

end BananaOS.Lib
