import Mathlib.Algebra.Order.Ring.Nat
import Mathlib.Data.Int.Basic
import Mathlib.Data.List.Basic
import Mathlib.Data.List.Perm.Basic
import Mathlib.Tactic.Common

/-!
# Checked accesses

Programs that index arrays with signed integers.  An access outside the array is `none`, so a
program that returns made all its accesses inside: `Runs o Q` says that it does return, with a
result that `Q` holds of, and there is one rule for each way a program is put together.

`Checked.get` and `Checked.set` read and write one cell, `Checked.fill` writes a range and
`Checked.slide` moves one (it may overlap itself).  Each is described cell by cell through
`getElem?`, and `Checked.slide_up` and `Checked.slide_down` say what a list becomes when a
range of it moves by one and the cell left over is written.
-/

namespace BananaOS.Lib

variable {α β σ : Type}

/-- The program `o` returns, and `Q` holds of its result. -/
def Runs (o : Option α) (Q : α → Prop) : Prop := ∃ a, o = some a ∧ Q a

namespace Runs

variable {o : Option α} {Q Q' : α → Prop} {f : α → Option β} {R : β → Prop} {a : α}

theorem pure (h : Q a) : Runs (some a) Q := ⟨a, rfl, h⟩

theorem bind (ho : Runs o Q) (hf : ∀ a, o = some a → Q a → Runs (f a) R) : Runs (o >>= f) R := by
  obtain ⟨a, ha, hQ⟩ := ho
  obtain ⟨b, hb, hR⟩ := hf a ha hQ
  exact ⟨b, by rw [ha]; exact hb, hR⟩

theorem bind_eq (ho : o = some a) (hf : Runs (f a) R) : Runs (o >>= f) R := by
  obtain ⟨b, hb, hR⟩ := hf
  exact ⟨b, by rw [ho]; exact hb, hR⟩

theorem mono (ho : Runs o Q) (h : ∀ a, Q a → Q' a) : Runs o Q' := by
  obtain ⟨a, ha, hQ⟩ := ho
  exact ⟨a, ha, h a hQ⟩

theorem isSome (ho : Runs o Q) : o.isSome := by
  obtain ⟨a, ha, -⟩ := ho
  rw [ha]
  rfl

theorem of_eq_some (ho : Runs o Q) (h : o = some a) : Q a := by
  obtain ⟨b, hb, hQ⟩ := ho
  obtain rfl : b = a := Option.some.inj (hb.symm.trans h)
  exact hQ

theorem ite {c : Prop} [Decidable c] {o' : Option α} (ho : c → Runs o Q) (ho' : ¬ c → Runs o' Q) :
    Runs (if c then o else o') Q := by
  by_cases h : c
  · rw [if_pos h]
    exact ho h
  · rw [if_neg h]
    exact ho' h

end Runs

/-- `f` is run `n` times. -/
def times (f : σ → Option σ) : ℕ → σ → Option σ
  | 0, s => some s
  | n + 1, s => f s >>= times f n

/-- `f` is run for `0`, `1`, .. up to below `n`. -/
def upto (f : ℕ → σ → Option σ) : ℕ → σ → Option σ
  | 0, s => some s
  | n + 1, s => upto f n s >>= f n

theorem Runs.times {f : σ → Option σ} {Q : σ → Prop} {s : σ} (n : ℕ) (h : Q s)
    (hf : ∀ s, Q s → Runs (f s) Q) : Runs (times f n s) Q := by
  induction n generalizing s with
  | zero => exact Runs.pure h
  | succ n ih => exact Runs.bind (hf s h) fun s' _ hs' => ih hs'

theorem Runs.upto {f : ℕ → σ → Option σ} {Q : σ → Prop} {s : σ} (n : ℕ) (h : Q s)
    (hf : ∀ i s, i < n → Q s → Runs (f i s) Q) : Runs (upto f n s) Q := by
  induction n with
  | zero => exact Runs.pure h
  | succ n ih =>
    exact Runs.bind (ih fun i s hi => hf i s (Nat.lt_succ_of_lt hi)) fun s' _ hs' =>
      hf n s' n.lt_succ_self hs'

namespace Checked

/-- The cell `i`. -/
def get (l : List α) (i : ℤ) : Option α := if 0 ≤ i then l[i.toNat]? else none

/-- The cell `i` becomes `a`. -/
def set (l : List α) (i : ℤ) (a : α) : Option (List α) :=
  if 0 ≤ i ∧ i < l.length then some (l.set i.toNat a) else none

/-- The `n` cells from `i` on become `a`. -/
def fill (l : List α) (i n : ℤ) (a : α) : Option (List α) :=
  if n ≤ 0 then some l
  else if 0 ≤ i ∧ i + n ≤ l.length then
    some (l.take i.toNat ++ List.replicate n.toNat a ++ l.drop (i + n).toNat)
  else none

/-- The `n` cells from `src` on are copied to `dst`, as if through another array. -/
def slide (l : List α) (src dst n : ℤ) : Option (List α) :=
  if n = 0 then some l
  else if 0 < n ∧ 0 ≤ src ∧ src + n ≤ l.length ∧ 0 ≤ dst ∧ dst + n ≤ l.length then
    some (l.take dst.toNat ++ (l.drop src.toNat).take n.toNat ++ l.drop (dst + n).toNat)
  else none

variable {l : List α} {i n src dst : ℤ} {a : α} {k m : ℕ}

theorem get_runs (h0 : 0 ≤ i) (h : i < l.length) : Runs (get l i) fun a => l[i.toNat]? = some a := by
  have hk : i.toNat < l.length := by omega
  refine ⟨l[i.toNat], ?_, List.getElem?_eq_getElem hk⟩
  rw [get, if_pos h0, List.getElem?_eq_getElem hk]

theorem get_eq_some (h : get l i = some a) : 0 ≤ i ∧ l[i.toNat]? = some a := by
  unfold get at h
  split_ifs at h with h0
  exact ⟨h0, h⟩

theorem set_eq (h0 : 0 ≤ i) (h : i < l.length) : set l i a = some (l.set i.toNat a) := by
  rw [set, if_pos ⟨h0, h⟩]

theorem getElem?_set_of (h0 : 0 ≤ i) (h : i < l.length) (k : ℕ) :
    (l.set i.toNat a)[k]? = if (k : ℤ) = i then some a else l[k]? := by
  rw [List.getElem?_set]
  by_cases hk : (k : ℤ) = i
  · rw [if_pos (by omega), if_pos (by omega), if_pos hk]
  · rw [if_neg (by omega), if_neg hk]

theorem fill_runs (h0 : 0 ≤ i) (hn : 0 ≤ n) (h : i + n ≤ l.length) :
    Runs (fill l i n a) fun l' => l'.length = l.length ∧
      ∀ k : ℕ, l'[k]? = if i ≤ k ∧ (k : ℤ) < i + n then some a else l[k]? := by
  unfold fill
  by_cases hn0 : n ≤ 0
  · rw [if_pos hn0]
    refine Runs.pure ⟨rfl, fun k => ?_⟩
    rw [if_neg (by omega)]
  · rw [if_neg hn0, if_pos ⟨h0, h⟩]
    refine Runs.pure ⟨?_, fun k => ?_⟩
    · simp only [List.length_append, List.length_take, List.length_replicate, List.length_drop]
      omega
    · simp only [List.getElem?_append, List.length_append, List.length_take,
        List.length_replicate, List.getElem?_take, List.getElem?_replicate, List.getElem?_drop]
      by_cases h1 : i ≤ k ∧ (k : ℤ) < i + n
      · rw [if_pos h1, if_pos (by omega), if_neg (by omega), if_pos (by omega)]
      · rw [if_neg h1]
        by_cases h2 : (k : ℤ) < i
        · rw [if_pos (by omega), if_pos (by omega), if_pos (by omega)]
        · rw [if_neg (by omega)]
          congr 1
          omega

theorem fill_all (l : List α) (a : α) : fill l 0 l.length a = some (List.replicate l.length a) := by
  unfold fill
  by_cases hn : (l.length : ℤ) ≤ 0
  · have hl : l = [] := List.eq_nil_of_length_eq_zero (by omega)
    rw [if_pos hn, hl]
    rfl
  · rw [if_neg hn, if_pos (by omega), Int.zero_add, Int.toNat_natCast, List.drop_length,
      List.append_nil]
    rfl

theorem slide_runs (hn : 0 ≤ n) (hs : 0 ≤ src) (hs' : src + n ≤ l.length) (hd : 0 ≤ dst)
    (hd' : dst + n ≤ l.length) :
    Runs (slide l src dst n) fun l' => l'.length = l.length ∧
      ∀ k : ℕ, l'[k]? =
        if dst ≤ k ∧ (k : ℤ) < dst + n then l[(k - dst + src).toNat]? else l[k]? := by
  unfold slide
  by_cases hn0 : n = 0
  · rw [if_pos hn0]
    refine Runs.pure ⟨rfl, fun k => ?_⟩
    rw [if_neg (by omega)]
  · rw [if_neg hn0, if_pos ⟨by omega, hs, hs', hd, hd'⟩]
    refine Runs.pure ⟨?_, fun k => ?_⟩
    · simp only [List.length_append, List.length_take, List.length_drop]
      omega
    · simp only [List.getElem?_append, List.length_append, List.length_take, List.length_drop,
        List.getElem?_take, List.getElem?_drop]
      by_cases h1 : dst ≤ k ∧ (k : ℤ) < dst + n
      · rw [if_pos h1, if_pos (by omega), if_neg (by omega), if_pos (by omega)]
        congr 1
        omega
      · rw [if_neg h1]
        by_cases h2 : (k : ℤ) < dst
        · rw [if_pos (by omega), if_pos (by omega), if_pos (by omega)]
        · rw [if_neg (by omega)]
          congr 1
          omega

theorem eq_take_drop_drop (l : List α) (k m : ℕ) :
    l = l.take k ++ (l.drop k).take m ++ l.drop (k + m) := by
  rw [List.append_assoc, ← List.drop_drop, List.take_append_drop, List.take_append_drop]

/-- The cells after `i` up to `j` move up by one, and the last one is written. -/
theorem slide_up {i j : ℤ} (h0 : 0 ≤ i) (hij : i ≤ j) (hj : j < l.length) :
    ∃ ls A b B C, slide l (i + 1) i (j - i) = some ls ∧ get l i = some b ∧
      l = A ++ b :: B ++ C ∧ ∀ a, set ls j a = some (A ++ (B ++ a :: C)) := by
  have hi : i.toNat < l.length := by omega
  obtain ⟨ls, hs, hlen, hls⟩ :=
    @slide_runs _ l (j - i) (i + 1) i (by omega) (by omega) (by omega) h0
      (by omega)
  refine ⟨ls, l.take i.toNat, l[i.toNat], (l.drop (i.toNat + 1)).take (j - i).toNat,
    l.drop (j.toNat + 1), hs, ?_, ?_, fun a => ?_⟩
  · rw [get, if_pos h0, List.getElem?_eq_getElem hi]
  · have h1 := eq_take_drop_drop l i.toNat ((j - i).toNat + 1)
    rw [List.drop_eq_getElem_cons hi, List.take_succ_cons,
      show i.toNat + ((j - i).toNat + 1) = j.toNat + 1 by omega] at h1
    exact h1
  · rw [set_eq (by omega) (by omega)]
    congr 1
    apply List.ext_getElem?
    intro k
    rw [getElem?_set_of (by omega) (by omega), hls]
    simp only [List.getElem?_append, List.length_take, List.length_drop, List.getElem?_take,
      List.getElem?_drop]
    by_cases hkj : (k : ℤ) = j
    · rw [if_pos hkj, if_neg (by omega), if_neg (by omega), show k - min i.toNat l.length -
        min (j - i).toNat (l.length - (i.toNat + 1)) = 0 by omega, List.getElem?_cons_zero]
    · rw [if_neg hkj]
      by_cases hk : (k : ℤ) < i
      · rw [if_neg (by omega), if_pos (by omega), if_pos (by omega)]
      · rw [if_neg (show ¬ k < min i.toNat l.length by omega)]
        by_cases hk' : (k : ℤ) < j
        · rw [if_pos (by omega), if_pos (by omega), if_pos (by omega)]
          congr 1
          omega
        · obtain ⟨p, hp⟩ : ∃ p, k - min i.toNat l.length -
            min (j - i).toNat (l.length - (i.toNat + 1)) = p + 1 := ⟨k - j.toNat - 1, by omega⟩
          rw [if_neg (by omega), if_neg (by omega), hp, List.getElem?_cons_succ, List.getElem?_drop]
          congr 1
          omega

/-- The cells from `i` up to before `j` move down by one, and the first one is written. -/
theorem slide_down {i j : ℤ} (h0 : 0 ≤ i) (hij : i ≤ j) (hj : j < l.length) :
    ∃ ls A b B C, slide l i (i + 1) (j - i) = some ls ∧ get l j = some b ∧
      l = A ++ B ++ b :: C ∧ ∀ a, set ls i a = some (A ++ a :: (B ++ C)) := by
  have hj' : j.toNat < l.length := by omega
  obtain ⟨ls, hs, hlen, hls⟩ :=
    @slide_runs _ l (j - i) i (i + 1) (by omega) h0 (by omega) (by omega)
      (by omega)
  refine ⟨ls, l.take i.toNat, l[j.toNat], (l.drop i.toNat).take (j - i).toNat,
    l.drop (j.toNat + 1), hs, ?_, ?_, fun a => ?_⟩
  · rw [get, if_pos (by omega), List.getElem?_eq_getElem hj']
  · have h1 := eq_take_drop_drop l i.toNat (j - i).toNat
    rw [show i.toNat + (j - i).toNat = j.toNat by omega, List.drop_eq_getElem_cons hj'] at h1
    exact h1
  · rw [set_eq h0 (by omega)]
    congr 1
    apply List.ext_getElem?
    intro k
    rw [getElem?_set_of h0 (by omega), hls]
    simp only [List.getElem?_append, List.length_take, List.getElem?_take]
    by_cases hki : (k : ℤ) = i
    · rw [if_pos hki, if_neg (by omega), show k - min i.toNat l.length = 0 by omega,
        List.getElem?_cons_zero]
    · rw [if_neg hki]
      by_cases hk : (k : ℤ) < i
      · rw [if_neg (by omega), if_pos (by omega), if_pos (by omega)]
      · obtain ⟨p, hp⟩ : ∃ p, k - min i.toNat l.length = p + 1 := ⟨k - i.toNat - 1, by omega⟩
        rw [if_neg (show ¬ k < min i.toNat l.length by omega), hp, List.getElem?_cons_succ]
        simp only [List.getElem?_append, List.length_take, List.length_drop, List.getElem?_take,
          List.getElem?_drop]
        by_cases hk' : (k : ℤ) ≤ j
        · rw [if_pos (by omega), if_pos (by omega), if_pos (by omega)]
          congr 1
          omega
        · rw [if_neg (by omega), if_neg (by omega)]
          congr 1
          omega

end Checked

end BananaOS.Lib
