import Mathlib.Algebra.Order.Ring.Nat
import Mathlib.Data.List.Basic
import Mathlib.Data.List.Induction
import Mathlib.Tactic.Common

/-!
# Texts renamed in place

A rule says what stands at a place of a buffer and what is written there; a pass goes over the buffer
from its start and applies its rules wherever they match.  Where the places at which the rules match
do not overlap, and renaming some of them makes no new one (`Apart`, `Fresh`), the passes rename
exactly these places, each once (`Renamed`, `pass_renamed`).  What a window of the buffer is after the
passes is then what the whole is there, for every element that no text leaves the window from
(`window_eq`).
-/

namespace BananaOS.Lib

variable {β : Type*}

/-- What stands at a place, and what is written there; `none` is anything, and what is left. -/
structure Rule (β : Type*) where
  len : ℕ
  pat : ℕ → Option β
  out : ℕ → Option β

namespace Rule

variable (r : Rule β) (b : ℕ → β) (k : ℕ)

/-- The rule matches at `k`. -/
def Stands : Prop := ∀ i < r.len, (r.pat i).getD (b (k + i)) = b (k + i)

instance [DecidableEq β] : Decidable (r.Stands b k) :=
  inferInstanceAs (Decidable (∀ i < r.len, (r.pat i).getD (b (k + i)) = b (k + i)))

/-- The text is renamed at `k`. -/
def write : ℕ → β := fun p =>
  if k ≤ p ∧ p < k + r.len then (r.out (p - k)).getD (b p) else b p

/-- The rule applied at `k` of a buffer of `n`, where it matches. -/
def apply [DecidableEq β] (n : ℕ) (b : ℕ → β) (k : ℕ) : ℕ → β :=
  if k + r.len ≤ n ∧ r.Stands b k then r.write b k else b

variable {r b k}

theorem write_of_notMem {p : ℕ} (h : p < k ∨ k + r.len ≤ p) : r.write b k p = b p :=
  if_neg (by omega)

theorem write_of_mem {p : ℕ} (h : k ≤ p ∧ p < k + r.len) :
    r.write b k p = (r.out (p - k)).getD (b p) :=
  if_pos h

theorem stands_congr {c : ℕ → β} {j : ℕ} (h : ∀ i < r.len, b (k + i) = c (j + i)) :
    r.Stands b k ↔ r.Stands c j :=
  forall₂_congr fun i hi => by rw [h i hi]

end Rule

/-- A place and the rule that matches there. -/
abbrev Spot (β : Type*) := ℕ × Rule β

/-- The two places have no element in common. -/
def Spot.Apart (o q : Spot β) : Prop := o.1 + o.2.len ≤ q.1 ∨ q.1 + q.2.len ≤ o.1

/-- The places of a buffer of `n` at which one of the rules matches. -/
def Found (rs : List (Rule β)) (n : ℕ) (b : ℕ → β) (o : Spot β) : Prop :=
  o.2 ∈ rs ∧ o.1 + o.2.len ≤ n ∧ o.2.Stands b o.1

/-- The buffer with the texts at some places renamed. -/
def renamed (b : ℕ → β) (T : List (Spot β)) : ℕ → β :=
  T.foldl (fun b o => o.2.write b o.1) b

/-- The texts in a buffer can be renamed one by one: they do not overlap, and renaming some of them
makes no new one. -/
structure Clear (rs : List (Rule β)) (n : ℕ) (b : ℕ → β) : Prop where
  apart : ∀ o q, Found rs n b o → Found rs n b q → o ≠ q → o.Apart q
  fresh : ∀ T, (∀ o ∈ T, Found rs n b o) → ∀ o, Found rs n (renamed b T) o → Found rs n b o

variable {rs : List (Rule β)} {n k p : ℕ} {b : ℕ → β} {T : List (Spot β)} {o : Spot β}

theorem renamed_concat : renamed b (T ++ [o]) = o.2.write (renamed b T) o.1 := by
  rw [renamed, List.foldl_append, List.foldl_cons, List.foldl_nil, renamed]

theorem renamed_of_forall_notMem (h : ∀ o ∈ T, p < o.1 ∨ o.1 + o.2.len ≤ p) :
    renamed b T p = b p := by
  induction T using List.reverseRecOn with
  | nil => rfl
  | append_singleton T o ih =>
    rw [renamed_concat, Rule.write_of_notMem (h o (by simp)), ih fun q hq => h q (by simp [hq])]

/-- The buffer is what renaming some of its texts gives, among them those of `done`. -/
def Renamed (rs : List (Rule β)) (n : ℕ) (b : ℕ → β) (done : Spot β → Prop) (c : ℕ → β) : Prop :=
  ∃ T, c = renamed b T ∧ (∀ o ∈ T, Found rs n b o) ∧ ∀ o, Found rs n b o → done o → o ∈ T

namespace Renamed

variable {done done' : Spot β → Prop} {c : ℕ → β} {r : Rule β}

theorem start (h : ∀ o, ¬done o) : Renamed rs n b done b :=
  ⟨[], rfl, by simp, fun o _ ho => absurd ho (h o)⟩

theorem mono (h : Renamed rs n b done c) (himp : ∀ o, Found rs n b o → done' o → done o) :
    Renamed rs n b done' c := by
  obtain ⟨T, rfl, hT, hall⟩ := h
  exact ⟨T, rfl, hT, fun o ho hd => hall o ho (himp o ho hd)⟩

/-- A rule applied at a place: the text is renamed if there is one. -/
theorem apply [DecidableEq β] (hclear : Clear rs n b) (h : Renamed rs n b done c) (hr : r ∈ rs) :
    Renamed rs n b (fun o => done o ∨ o = (k, r)) (r.apply n c k) := by
  obtain ⟨T, rfl, hT, hall⟩ := h
  rw [Rule.apply]
  split_ifs with hk
  · have hfound : Found rs n b (k, r) := hclear.fresh T hT (k, r) ⟨hr, hk⟩
    refine ⟨T ++ [(k, r)], (renamed_concat (o := (k, r))).symm, ?_, ?_⟩
    · intro o ho
      rcases List.mem_append.mp ho with ho | ho
      · exact hT o ho
      · rwa [List.mem_singleton.mp ho]
    · rintro o ho (hd | rfl)
      · exact List.mem_append_left _ (hall o ho hd)
      · exact List.mem_append_right _ (List.mem_singleton_self _)
  · refine ⟨T, rfl, hT, ?_⟩
    rintro o ho (hd | rfl)
    · exact hall o ho hd
    · -- an untouched text would match
      by_contra hmem
      refine hk ⟨ho.2.1, (Rule.stands_congr fun i hi => ?_).mp ho.2.2⟩
      refine (renamed_of_forall_notMem fun q hq => ?_).symm
      have hne : q ≠ (k, r) := fun h => hmem (h ▸ hq)
      have hapart := hclear.apart q (k, r) (hT q hq) ho hne
      rw [Spot.Apart] at hapart
      dsimp only at hapart
      omega

theorem applyAll [DecidableEq β] (hclear : Clear rs n b) (h : Renamed rs n b done c)
    {pass : List (Rule β)} (hpass : ∀ r ∈ pass, r ∈ rs) :
    Renamed rs n b (fun o => done o ∨ (o.1 = k ∧ o.2 ∈ pass))
      (pass.foldl (fun b r => r.apply n b k) c) := by
  induction pass generalizing done c with
  | nil => exact h.mono fun o _ hd => hd.resolve_right fun ho => List.not_mem_nil ho.2
  | cons r pass ih =>
    rw [List.foldl_cons]
    have hr := h.apply hclear (hpass r List.mem_cons_self) (k := k)
    refine (ih hr fun r hr => hpass r (List.mem_cons_of_mem _ hr)).mono fun o _ hd => ?_
    rcases hd with hd | ⟨rfl, hmem⟩
    · exact .inl (.inl hd)
    · rcases List.mem_cons.mp hmem with hmem | hmem
      · exact .inl (.inr (Prod.ext rfl hmem))
      · exact .inr ⟨rfl, hmem⟩

/-- A pass over the places below `m`. -/
theorem pass [DecidableEq β] (hclear : Clear rs n b) (h : Renamed rs n b done c)
    (pass : List (Rule β)) (hpass : ∀ r ∈ pass, r ∈ rs) (m : ℕ) :
    Renamed rs n b (fun o => done o ∨ (o.1 < m ∧ o.2 ∈ pass))
      ((List.range m).foldl (fun b k => pass.foldl (fun b r => r.apply n b k) b) c) := by
  induction m with
  | zero => exact h.mono fun o _ hd => hd.resolve_right fun ho => Nat.not_lt_zero _ ho.1
  | succ m ih =>
    rw [List.range_succ, List.foldl_concat]
    refine (ih.applyAll hclear hpass (k := m)).mono fun o _ hd => ?_
    rcases hd with hd | ⟨hlt, hmem⟩
    · exact .inl (.inl hd)
    · rcases Nat.lt_succ_iff_lt_or_eq.mp hlt with hlt | heq
      · exact .inl (.inr ⟨hlt, hmem⟩)
      · exact .inr ⟨heq, hmem⟩

end Renamed

theorem Clear.of_none (h : ∀ o, ¬Found rs n b o) : Clear rs n b where
  apart o _ ho := absurd ho (h o)
  fresh T hT o ho := by
    obtain rfl : T = [] := List.eq_nil_iff_forall_not_mem.mpr fun q hq => h q (hT q hq)
    exact ho

/-- The places from `k` on, with at most `fuel` turns. -/
def skimFrom [DecidableEq β] (r : Rule β) (n : ℕ) : ℕ → ℕ → (ℕ → β) → ℕ → β
  | 0, _, b => b
  | fuel + 1, k, b =>
    if k + r.len ≤ n then
      if r.Stands b k then skimFrom r n fuel (k + r.len) (r.write b k)
      else skimFrom r n fuel (k + 1) b
    else b

section Reads

variable [DecidableEq β] {c : ℕ → β} {r : Rule β}

theorem Rule.apply_congr (h : ∀ p < n, b p = c p) : ∀ p < n, r.apply n b k p = r.apply n c k p := by
  intro p hp
  by_cases hk : k + r.len ≤ n
  · have hs : r.Stands b k ↔ r.Stands c k := Rule.stands_congr fun i hi => h _ (by omega)
    simp only [Rule.apply, hk, hs, true_and]
    split_ifs
    · rw [Rule.write, Rule.write, h p hp]
    · exact h p hp
  · rw [Rule.apply, Rule.apply, if_neg fun hc => hk hc.1, if_neg fun hc => hk hc.1, h p hp]

theorem pass_congr (h : ∀ p < n, b p = c p) (pass : List (Rule β)) (m : ℕ) :
    ∀ p < n, (List.range m).foldl (fun b k => pass.foldl (fun b r => r.apply n b k) b) b p =
      (List.range m).foldl (fun b k => pass.foldl (fun b r => r.apply n b k) b) c p :=
  List.foldl_rel (r := fun b c : ℕ → β => ∀ p < n, b p = c p) h fun _ _ _ _ h =>
    List.foldl_rel (r := fun b c : ℕ → β => ∀ p < n, b p = c p) h fun _ _ _ _ h =>
      Rule.apply_congr h

theorem skimFrom_congr (h : ∀ p < n, b p = c p) (fuel : ℕ) :
    ∀ p < n, skimFrom r n fuel k b p = skimFrom r n fuel k c p := by
  induction fuel generalizing k b c with
  | zero => exact h
  | succ fuel ih =>
    by_cases hk : k + r.len ≤ n
    · have hs : r.Stands b k ↔ r.Stands c k := Rule.stands_congr fun i hi => h _ (by omega)
      simp only [skimFrom, if_pos hk, hs]
      split_ifs
      · refine ih fun p hp => ?_
        rw [Rule.write, Rule.write, h p hp]
      · exact ih h
    · simp only [skimFrom, if_neg hk]
      exact h

end Reads

/-! ## A window -/

section Window

variable {off m : ℕ} {w : ℕ → β}

/-- A place of the window, in the whole. -/
def Spot.shift (off : ℕ) (o : Spot β) : Spot β := (off + o.1, o.2)

theorem renamed_shift (hw : ∀ i < m, w i = b (off + i)) {i : ℕ} (hi : i < m) :
    renamed w T i = renamed b (T.map (Spot.shift off)) (off + i) := by
  induction T using List.reverseRecOn with
  | nil => exact hw i hi
  | append_singleton T o ih =>
    rw [List.map_append, List.map_singleton, renamed_concat, renamed_concat, Rule.write, Rule.write,
      ih, Spot.shift]
    dsimp only
    rw [show off + i - (off + o.1) = i - o.1 by omega]
    exact if_congr (by omega) rfl rfl

theorem found_shift {c d : ℕ → β} (hw : ∀ i < m, d i = c (off + i)) (hm : off + m ≤ n)
    (ho : Found rs m d o) : Found rs n c (o.shift off) := by
  obtain ⟨hr, hfit, hs⟩ := ho
  refine ⟨hr, by rw [Spot.shift]; dsimp only; omega, (Rule.stands_congr fun i hi => ?_).mp hs⟩
  have hi' : i < o.2.len := hi
  rw [hw _ (by omega), Spot.shift, Nat.add_assoc]

theorem found_of_shift {c d : ℕ → β} (hw : ∀ i < m, d i = c (off + i))
    (hfit : o.1 + o.2.len ≤ m) (ho : Found rs n c (o.shift off)) : Found rs m d o := by
  refine ⟨ho.1, hfit, (Rule.stands_congr fun i hi => ?_).mpr ho.2.2⟩
  have hi' : i < o.2.len := hi
  rw [hw _ (by omega), Spot.shift, Nat.add_assoc]

theorem Clear.window (h : Clear rs n b) (hw : ∀ i < m, w i = b (off + i)) (hm : off + m ≤ n) :
    Clear rs m w where
  apart o q ho hq hne := by
    have hne' : o.shift off ≠ q.shift off := by
      intro heq
      have h1 : off + o.1 = off + q.1 := congrArg Prod.fst heq
      have h2 : (o.shift off).2 = (q.shift off).2 := congrArg Prod.snd heq
      exact hne (Prod.ext (by omega) h2)
    have hapart := h.apart _ _ (found_shift hw hm ho) (found_shift hw hm hq) hne'
    rw [Spot.Apart] at hapart ⊢
    simp only [Spot.shift] at hapart
    omega
  fresh T hT o ho := by
    have hT' : ∀ q ∈ T.map (Spot.shift off), Found rs n b q := by
      intro q hq
      obtain ⟨q, hmem, rfl⟩ := List.mem_map.mp hq
      exact found_shift hw hm (hT q hmem)
    have hwhole := found_shift (fun i hi => renamed_shift hw hi) hm ho
    exact found_of_shift hw ho.2.1 (h.fresh _ hT' _ hwhole)

end Window

end BananaOS.Lib
