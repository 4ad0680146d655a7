import Mathlib.Algebra.Order.Ring.Nat
import Mathlib.Order.Interval.Set.Basic
import Mathlib.Order.Monotone.Defs
import Mathlib.Data.List.Pairwise
import Mathlib.Data.List.TakeWhile
import Mathlib.Tactic.Order

/-!
# Spread ranges

A set kept as a list of ranges `[a, b)` in a linear order, lowest first, no two of them touching, so
that the list is the set's own: its ranges are the maximal runs of the set (`Spread`, `Covers`).  A new
range is put in by taking into it all that it touches (`absorb`, `insertUpTo`), with a limit on the
number of ranges that is kept by dropping the highest; what lies below a point is cut off (`trim`);
and the first gap from a point on is found by one walk (`firstGap`).
-/

namespace BananaOS.Lib

variable {α : Type*} [LinearOrder α]

/-- The ranges are not empty, and each ends before the next begins. -/
structure Spread (l : List (α × α)) : Prop where
  proper : ∀ r ∈ l, r.1 < r.2
  apart : l.Pairwise fun a b => a.2 < b.1

/-- One of the ranges holds `x`. -/
def Covers (l : List (α × α)) (x : α) : Prop := ∃ r ∈ l, r.1 ≤ x ∧ x < r.2

@[simp] theorem covers_cons (r : α × α) (l : List (α × α)) (x : α) :
    Covers (r :: l) x ↔ (r.1 ≤ x ∧ x < r.2) ∨ Covers l x := by
  simp [Covers]

@[simp] theorem covers_append (l l' : List (α × α)) (x : α) :
    Covers (l ++ l') x ↔ Covers l x ∨ Covers l' x := by
  simp [Covers, or_and_right, exists_or]

namespace Spread

variable {l l' : List (α × α)} {r : α × α}

theorem nil : Spread ([] : List (α × α)) := ⟨fun _ h => absurd h List.not_mem_nil, .nil⟩

theorem cons_iff : Spread (r :: l) ↔ r.1 < r.2 ∧ (∀ q ∈ l, r.2 < q.1) ∧ Spread l := by
  constructor
  · rintro ⟨h1, h2⟩
    obtain ⟨h3, h4⟩ := List.pairwise_cons.mp h2
    exact ⟨h1 r List.mem_cons_self, h3, fun q hq => h1 q (List.mem_cons_of_mem _ hq), h4⟩
  · rintro ⟨h1, h2, h3⟩
    refine ⟨fun q hq => ?_, List.pairwise_cons.mpr ⟨h2, h3.apart⟩⟩
    rcases List.mem_cons.mp hq with rfl | hq
    · exact h1
    · exact h3.proper q hq

theorem append_iff : Spread (l ++ l') ↔
    Spread l ∧ Spread l' ∧ ∀ a ∈ l, ∀ b ∈ l', a.2 < b.1 := by
  constructor
  · rintro ⟨h1, h2⟩
    obtain ⟨h3, h4, h5⟩ := List.pairwise_append.mp h2
    exact ⟨⟨fun r hr => h1 r (List.mem_append_left _ hr), h3⟩,
      ⟨fun r hr => h1 r (List.mem_append_right _ hr), h4⟩, h5⟩
  · rintro ⟨h1, h2, h3⟩
    refine ⟨fun r hr => ?_, List.pairwise_append.mpr ⟨h1.apart, h2.apart, h3⟩⟩
    rcases List.mem_append.mp hr with hr | hr
    · exact h1.proper r hr
    · exact h2.proper r hr

theorem sublist (h : Spread l) (hs : l'.Sublist l) : Spread l' :=
  ⟨fun r hr => h.proper r (hs.subset hr), h.apart.sublist hs⟩

theorem map {β : Type*} [LinearOrder β] (h : Spread l) {f : α → β} {s : Set α}
    (hf : StrictMonoOn f s) (hl : ∀ r ∈ l, r.1 ∈ s ∧ r.2 ∈ s) :
    Spread (l.map fun r => (f r.1, f r.2)) := by
  refine ⟨fun r hr => ?_, List.pairwise_map.mpr (List.Pairwise.imp_of_mem ?_ h.apart)⟩
  · obtain ⟨q, hq, rfl⟩ := List.mem_map.mp hr
    exact hf (hl q hq).1 (hl q hq).2 (h.proper q hq)
  · exact fun ha hb hab => hf (hl _ ha).2 (hl _ hb).1 hab

theorem covers_tail (h : Spread (r :: l)) {x : α} (hx : Covers l x) : r.2 < x := by
  obtain ⟨q, hq, hqx, -⟩ := hx
  exact ((cons_iff.mp h).2.1 q hq).trans_le hqx

end Spread

/-! ## Putting a range in -/

/-- The range `[s, e)` with the ranges at the front of the list that begin in it or where it ends, and
the rest of the list. -/
def absorb : (s e : α) → List (α × α) → α × α × List (α × α)
  | s, e, [] => (s, e, [])
  | s, e, r :: rest =>
    if r.1 ≤ e then absorb (if r.1 < s then r.1 else s) (if e < r.2 then r.2 else e) rest
    else (s, e, r :: rest)

/-- What `absorb` makes of a spread list of ranges that do not end before `s`. -/
structure Absorbed (s e : α) (l : List (α × α)) (m : α × α × List (α × α)) : Prop where
  proper : m.1 < m.2.1
  suffix : m.2.2 <:+ l
  behind : ∀ q ∈ m.2.2, m.2.1 < q.1
  /-- the lower end is that of the new range or of one it took in -/
  first : m.1 = s ∨ ∃ q ∈ l, m.1 = q.1
  last : m.2.1 = e ∨ ∃ q ∈ l, m.2.1 = q.2
  covers : ∀ x, Covers ((m.1, m.2.1) :: m.2.2) x ↔ (s ≤ x ∧ x < e) ∨ Covers l x

theorem absorb_absorbed {l : List (α × α)} (h : Spread l) {s e : α} (hse : s < e)
    (hl : ∀ r ∈ l, s ≤ r.2) : Absorbed s e l (absorb s e l) := by
  induction l generalizing s e with
  | nil =>
    exact ⟨hse, List.suffix_refl _, fun _ hq => absurd hq List.not_mem_nil, Or.inl rfl, Or.inl rfl,
      fun x => covers_cons _ _ _⟩
  | cons r rest ih =>
    obtain ⟨hr, hbehind, hrest⟩ := Spread.cons_iff.mp h
    unfold absorb
    split
    · rename_i hle
      have hs : (if r.1 < s then r.1 else s) < (if e < r.2 then r.2 else e) := by
        split <;> split <;> order
      have hlow : ∀ q ∈ rest, (if r.1 < s then r.1 else s) ≤ q.2 := by
        intro q hq
        have h1 := hl q (List.mem_cons_of_mem _ hq)
        split <;> order
      have hm := ih hrest hs hlow
      refine ⟨hm.proper, hm.suffix.trans (List.suffix_cons _ _), hm.behind, ?_, ?_, fun x => ?_⟩
      · rcases hm.first with h1 | ⟨q, hq, h1⟩
        · rw [h1]
          split
          · exact Or.inr ⟨r, List.mem_cons_self, rfl⟩
          · exact Or.inl rfl
        · exact Or.inr ⟨q, List.mem_cons_of_mem _ hq, h1⟩
      · rcases hm.last with h1 | ⟨q, hq, h1⟩
        · rw [h1]
          split
          · exact Or.inr ⟨r, List.mem_cons_self, rfl⟩
          · exact Or.inl rfl
        · exact Or.inr ⟨q, List.mem_cons_of_mem _ hq, h1⟩
      · -- the two ranges touch, so that the one around them holds nothing else
        have htouch : s ≤ r.2 := hl r List.mem_cons_self
        have hboth : ((if r.1 < s then r.1 else s) ≤ x ∧ x < (if e < r.2 then r.2 else e)) ↔
            (s ≤ x ∧ x < e) ∨ (r.1 ≤ x ∧ x < r.2) := by
          constructor
          · rintro ⟨h1, h2⟩
            rcases lt_or_ge x s with hx | hx
            · refine Or.inr ⟨?_, hx.trans_le htouch⟩
              split at h1 <;> order
            · rcases lt_or_ge x e with hx' | hx'
              · exact Or.inl ⟨hx, hx'⟩
              · refine Or.inr ⟨hle.trans hx', ?_⟩
                split at h2 <;> order
          · rintro (⟨h1, h2⟩ | ⟨h1, h2⟩) <;> constructor <;> split <;> order
        rw [hm.covers x, hboth, covers_cons, or_assoc]
    · rename_i hle
      refine ⟨hse, List.suffix_refl _, ?_, Or.inl rfl, Or.inl rfl, fun x => covers_cons _ _ _⟩
      intro q hq
      have hq' : r.1 ≤ q.1 := by
        rcases List.mem_cons.mp hq with rfl | hq
        · exact le_rfl
        · exact (hr.trans (hbehind q hq)).le
      exact (not_le.mp hle).trans_le hq'

omit [LinearOrder α] in
/-- A list is cut at the same place by conditions that agree on it. -/
theorem cut_congr {p q : α → Bool} {l : List α} (h : ∀ x ∈ l, p x = q x) :
    l.takeWhile p = l.takeWhile q ∧ l.dropWhile p = l.dropWhile q := by
  induction l with
  | nil => exact ⟨rfl, rfl⟩
  | cons x l ih =>
    obtain ⟨h1, h2⟩ := ih fun y hy => h y (List.mem_cons_of_mem _ hy)
    rw [List.takeWhile_cons, List.takeWhile_cons, List.dropWhile_cons, List.dropWhile_cons,
      h x List.mem_cons_self, h1, h2]
    exact ⟨rfl, rfl⟩

/-- `[s, e)` put in, among `n` ranges at most: one too many, and the highest goes. -/
def insertUpTo (n : ℕ) (l : List (α × α)) (s e : α) : List (α × α) :=
  let below := l.takeWhile fun r => r.2 < s
  let rest := l.dropWhile fun r => r.2 < s
  let m := absorb s e rest
  if m.2.2.length = rest.length ∧ l.length = n then
    if m.2.2 = [] then l else below ++ (m.1, m.2.1) :: m.2.2.dropLast
  else below ++ (m.1, m.2.1) :: m.2.2

section insertUpTo

variable {l : List (α × α)} (h : Spread l) {s e : α} (hse : s < e) (n : ℕ)

include h in
/-- Behind the first range that does not end before `s` none does. -/
theorem Spread.dropWhile_le : ∀ r ∈ l.dropWhile (fun r => r.2 < s), s ≤ r.2 := by
  induction l with
  | nil => exact fun _ hr => absurd hr List.not_mem_nil
  | cons q rest ih =>
    obtain ⟨-, hbehind, hrest⟩ := Spread.cons_iff.mp h
    intro r hr
    rw [List.dropWhile_cons] at hr
    split at hr
    · exact ih hrest r hr
    · rename_i hq
      have hq : s ≤ q.2 := by simpa using hq
      rcases List.mem_cons.mp hr with rfl | hr
      · exact hq
      · exact hq.trans ((hbehind r hr).le.trans (hrest.proper r hr).le)

include h hse

theorem Spread.absorbed : Absorbed s e (l.dropWhile fun r => r.2 < s)
    (absorb s e (l.dropWhile fun r => r.2 < s)) :=
  absorb_absorbed (h.sublist (List.dropWhile_sublist _)) hse h.dropWhile_le

omit hse in
/-- The ranges with the new one among them, no limit being set. -/
theorem Spread.inserted {m : α × α × List (α × α)}
    (hm : Absorbed s e (l.dropWhile fun r => r.2 < s) m) :
    Spread ((l.takeWhile fun r => r.2 < s) ++ (m.1, m.2.1) :: m.2.2) := by
  have hall : Spread ((l.takeWhile fun r => r.2 < s) ++ l.dropWhile fun r => r.2 < s) := by
    rw [List.takeWhile_append_dropWhile]
    exact h
  obtain ⟨hbelow, hrest, happart⟩ := Spread.append_iff.mp hall
  refine Spread.append_iff.mpr ⟨hbelow, Spread.cons_iff.mpr ⟨hm.proper, hm.behind,
    hrest.sublist hm.suffix.sublist⟩, fun a ha b hb => ?_⟩
  rcases List.mem_cons.mp hb with rfl | hb
  · rcases hm.first with h1 | ⟨q, hq, h1⟩
    · have ha' := List.mem_takeWhile_imp ha
      rw [h1]
      simpa using ha'
    · rw [h1]
      exact happart a ha q hq
  · exact happart a ha b (hm.suffix.subset hb)

theorem spread_insertUpTo : Spread (insertUpTo n l s e) := by
  have hm := h.absorbed hse
  unfold insertUpTo
  dsimp only
  split
  · split
    · exact h
    · exact (h.inserted hm).sublist
        ((List.Sublist.refl _).append ((List.dropLast_sublist _).cons_cons _))
  · exact h.inserted hm

/-- Nothing is put in but what was there and the new range. -/
theorem covers_insertUpTo {x : α} (hx : Covers (insertUpTo n l s e) x) :
    (s ≤ x ∧ x < e) ∨ Covers l x := by
  have hm := h.absorbed hse
  have hall : Covers ((l.takeWhile fun r => r.2 < s) ++
      ((absorb s e (l.dropWhile fun r => r.2 < s)).1,
        (absorb s e (l.dropWhile fun r => r.2 < s)).2.1) ::
        (absorb s e (l.dropWhile fun r => r.2 < s)).2.2) x →
      (s ≤ x ∧ x < e) ∨ Covers l x := by
    intro hx
    rw [covers_append, hm.covers] at hx
    rw [← List.takeWhile_append_dropWhile (p := fun r => r.2 < s) (l := l), covers_append]
    tauto
  unfold insertUpTo at hx
  dsimp only at hx
  split at hx
  · split at hx
    · exact Or.inr hx
    · refine hall ?_
      obtain ⟨r, hr, hrx⟩ := hx
      exact ⟨r, ((List.Sublist.refl _).append ((List.dropLast_sublist _).cons_cons _)).subset hr, hrx⟩
  · exact hall hx

theorem length_insertUpTo (hn : l.length ≤ n) : (insertUpTo n l s e).length ≤ n := by
  have hm := h.absorbed hse
  have hlen : (l.takeWhile fun r => r.2 < s).length + (l.dropWhile fun r => r.2 < s).length =
      l.length := by
    rw [← List.length_append, List.takeWhile_append_dropWhile]
  have hsuf := hm.suffix.length_le
  unfold insertUpTo
  dsimp only
  split
  · split
    · exact hn
    · rename_i hfull hne
      have := List.length_pos_iff.mpr hne
      rw [List.length_append, List.length_cons, List.length_dropLast]
      omega
  · rename_i hroom
    rw [List.length_append, List.length_cons]
    omega

/-- Each end of a range is an old one or one of the new range's. -/
theorem ends_insertUpTo {P : α → Prop} (hs : P s) (he : P e) (hl : ∀ r ∈ l, P r.1 ∧ P r.2) :
    ∀ r ∈ insertUpTo n l s e, P r.1 ∧ P r.2 := by
  have hm := h.absorbed hse
  have hrest : ∀ q ∈ l.dropWhile (fun r => r.2 < s), P q.1 ∧ P q.2 :=
    fun q hq => hl q ((List.dropWhile_sublist _).subset hq)
  have hall : ∀ r ∈ (l.takeWhile fun r => r.2 < s) ++
      ((absorb s e (l.dropWhile fun r => r.2 < s)).1,
        (absorb s e (l.dropWhile fun r => r.2 < s)).2.1) ::
        (absorb s e (l.dropWhile fun r => r.2 < s)).2.2, P r.1 ∧ P r.2 := by
    intro r hr
    rcases List.mem_append.mp hr with hr | hr
    · exact hl r ((List.takeWhile_sublist _).subset hr)
    · rcases List.mem_cons.mp hr with rfl | hr
      · constructor
        · rcases hm.first with h1 | ⟨q, hq, h1⟩
          · rw [h1]
            exact hs
          · rw [h1]
            exact (hrest q hq).1
        · rcases hm.last with h1 | ⟨q, hq, h1⟩
          · rw [h1]
            exact he
          · rw [h1]
            exact (hrest q hq).2
      · exact hrest r (hm.suffix.subset hr)
  intro r hr
  unfold insertUpTo at hr
  dsimp only at hr
  split at hr
  · split at hr
    · exact hl r hr
    · exact hall r (((List.Sublist.refl _).append ((List.dropLast_sublist _).cons_cons _)).subset hr)
  · exact hall r hr

end insertUpTo

/-! ## Merging sorted ranges -/

/-- Ranges, lowest first, with those that touch made one: the range at hand is `[s, e)`. -/
def mergeFrom : (s e : α) → List (α × α) → List (α × α)
  | s, e, [] => [(s, e)]
  | s, e, r :: rest =>
    if r.1 ≤ e then mergeFrom s (if e < r.2 then r.2 else e) rest
    else (s, e) :: mergeFrom r.1 r.2 rest

/-- What `mergeFrom` makes of ranges that may be empty: they are apart, and cover the same. -/
structure Merged (s e : α) (l m : List (α × α)) : Prop where
  ordered : ∀ r ∈ m, s ≤ r.1 ∧ r.1 ≤ r.2
  apart : m.Pairwise fun a b => a.2 < b.1
  covers : ∀ x, Covers m x ↔ (s ≤ x ∧ x < e) ∨ Covers l x

theorem mergeFrom_merged {l : List (α × α)} {s e : α} (hse : s ≤ e)
    (hl : ∀ r ∈ l, s ≤ r.1 ∧ r.1 ≤ r.2) (hsorted : l.Pairwise fun a b => a.1 ≤ b.1) :
    Merged s e l (mergeFrom s e l) := by
  induction l generalizing s e with
  | nil =>
    refine ⟨fun r hr => ?_, List.pairwise_singleton _ _, fun x => covers_cons _ _ _⟩
    rw [List.mem_singleton.mp hr]
    exact ⟨le_rfl, hse⟩
  | cons r rest ih =>
    obtain ⟨hr, hrest⟩ := List.forall_mem_cons.mp hl
    obtain ⟨hbehind, hsorted⟩ := List.pairwise_cons.mp hsorted
    unfold mergeFrom
    split
    · rename_i hle
      have hm := ih (e := if e < r.2 then r.2 else e) (by split <;> order) hrest hsorted
      refine ⟨hm.ordered, hm.apart, fun x => ?_⟩
      have hboth : (s ≤ x ∧ x < (if e < r.2 then r.2 else e)) ↔
          (s ≤ x ∧ x < e) ∨ (r.1 ≤ x ∧ x < r.2) := by
        obtain ⟨h1, h2⟩ := hr
        constructor
        · rintro ⟨h3, h4⟩
          rcases lt_or_ge x e with hx | hx
          · exact Or.inl ⟨h3, hx⟩
          · refine Or.inr ⟨hle.trans hx, ?_⟩
            split at h4 <;> order
        · rintro (⟨h3, h4⟩ | ⟨h3, h4⟩) <;> constructor <;> first | order | (split <;> order)
      rw [hm.covers, hboth, covers_cons, or_assoc]
    · rename_i hle
      have hm := ih hr.2 (fun q hq => ⟨hbehind q hq, (hrest q hq).2⟩) hsorted
      have hafter : ∀ q ∈ mergeFrom r.1 r.2 rest, e < q.1 :=
        fun q hq => (not_le.mp hle).trans_le (hm.ordered q hq).1
      refine ⟨fun q hq => ?_, List.pairwise_cons.mpr ⟨hafter, hm.apart⟩, fun x => ?_⟩
      · rcases List.mem_cons.mp hq with rfl | hq
        · exact ⟨le_rfl, hse⟩
        · exact ⟨hr.1.trans (hm.ordered q hq).1, (hm.ordered q hq).2⟩
      · rw [covers_cons, hm.covers, covers_cons]

/-- A merged range begins where one of the ranges did. -/
theorem mergeFrom_starts (s e : α) (l : List (α × α)) :
    ∀ r ∈ mergeFrom s e l, r.1 = s ∨ ∃ q ∈ l, r.1 = q.1 := by
  induction l generalizing s e with
  | nil =>
    intro r hr
    rw [List.mem_singleton.mp hr]
    exact Or.inl rfl
  | cons q rest ih =>
    have hmore : ∀ {r : α × α}, (r.1 = q.1 ∨ ∃ p ∈ rest, r.1 = p.1) → ∃ p ∈ q :: rest, r.1 = p.1 := by
      rintro r (h | ⟨p, hp, h⟩)
      · exact ⟨q, List.mem_cons_self, h⟩
      · exact ⟨p, List.mem_cons_of_mem _ hp, h⟩
    unfold mergeFrom
    split
    · exact fun r hr => (ih s _ r hr).imp_right fun h => hmore (Or.inr h)
    · exact List.forall_mem_cons.mpr ⟨Or.inl rfl, fun r hr => Or.inr (hmore (ih _ _ r hr))⟩

theorem mergeFrom_proper {l : List (α × α)} {s e : α} (hse : s < e) (hl : ∀ r ∈ l, r.1 < r.2) :
    ∀ r ∈ mergeFrom s e l, r.1 < r.2 := by
  induction l generalizing s e with
  | nil =>
    intro r hr
    rw [List.mem_singleton.mp hr]
    exact hse
  | cons q rest ih =>
    obtain ⟨hq, hrest⟩ := List.forall_mem_cons.mp hl
    unfold mergeFrom
    split
    · exact ih (by split <;> order) hrest
    · exact List.forall_mem_cons.mpr ⟨hse, ih hq hrest⟩

/-- The two ranges neither overlap nor touch. -/
def Apart (a b : α × α) : Prop := a.2 < b.1 ∨ b.2 < a.1

instance : Std.Symm (Apart : α × α → α × α → Prop) := ⟨fun _ _ => Or.symm⟩

namespace Merged

variable {s e : α} {l m : List (α × α)} (h : Merged s e l m)
include h

theorem distinct {a b : α × α} (ha : a ∈ m) (hb : b ∈ m) (hne : a ≠ b) : Apart a b :=
  (h.apart.imp (S := Apart) Or.inl).forall ha hb hne

theorem not_covers_stop {r : α × α} (hr : r ∈ m) : ¬ Covers m r.2 := by
  rintro ⟨q, hq, h1, h2⟩
  rcases h.distinct hr hq (by rintro rfl; exact lt_irrefl _ h2) with h3 | h3
  · order
  · have := (h.ordered r hr).2
    order

/-- Below a merged range there is something between it and all that is covered. -/
theorem below {r : α × α} (hr : r ∈ m) {x : α} (hx : x < r.1) (hc : Covers m x) :
    ∃ y, x < y ∧ y < r.1 ∧ ¬ Covers m y := by
  obtain ⟨q, hq, h1, h2⟩ := hc
  refine ⟨q.2, h2, ?_, h.not_covers_stop hq⟩
  rcases h.distinct hr hq (by rintro rfl; order) with h3 | h3
  · have := (h.ordered r hr).2
    order
  · exact h3

end Merged

/-! ## Cutting off what is below -/

/-- What lies below `k` is cut off. -/
def trim (k : α) (l : List (α × α)) : List (α × α) :=
  (l.filter fun r => ¬ r.2 ≤ k).map fun r => (if r.1 < k then k else r.1, r.2)

theorem mem_trim {k : α} {l : List (α × α)} {r : α × α} (hr : r ∈ trim k l) :
    ∃ q ∈ l, k < q.2 ∧ r = (max q.1 k, q.2) := by
  obtain ⟨q, hq, rfl⟩ := List.mem_map.mp hr
  obtain ⟨hq, hk⟩ := List.mem_filter.mp hq
  refine ⟨q, hq, by simpa using hk, Prod.ext ?_ rfl⟩
  dsimp only
  split <;> rename_i h
  · exact (max_eq_right h.le).symm
  · exact (max_eq_left (not_lt.mp h)).symm

theorem spread_trim {l : List (α × α)} (h : Spread l) (k : α) : Spread (trim k l) := by
  refine ⟨fun r hr => ?_, ?_⟩
  · obtain ⟨q, hq, hk, rfl⟩ := mem_trim hr
    exact max_lt (h.proper q hq) hk
  · refine List.pairwise_map.mpr (List.Pairwise.imp_of_mem (fun ha _ hab => ?_) (h.apart.filter _))
    have hk := (List.mem_filter.mp ha).2
    simp only [not_le, decide_eq_true_eq] at hk
    dsimp only
    split <;> order

/-! ## The first gap -/

/-- The first gap from `p` on that lies before a range. -/
def firstGap : List (α × α) → α → Option (α × α)
  | [], _ => none
  | r :: rest, p =>
    if p < r.1 then some (p, r.1) else firstGap rest (if p < r.2 then r.2 else p)

/-- `g` is the first gap at or after `p` below the highest range, if there is one. -/
def IsFirstGap (l : List (α × α)) (p : α) : Option (α × α) → Prop
  | none => ∀ x, p ≤ x → (∃ r ∈ l, x < r.2) → Covers l x
  | some (q, t) => p ≤ q ∧ q < t ∧ (∀ x, p ≤ x → x < q → Covers l x) ∧
      (∀ x, q ≤ x → x < t → ¬ Covers l x) ∧ ∃ r ∈ l, r.1 = t

theorem firstGap_isFirstGap {l : List (α × α)} (h : Spread l) (p : α) :
    IsFirstGap l p (firstGap l p) := by
  induction l generalizing p with
  | nil => exact fun _ _ hr => absurd hr.choose_spec.1 List.not_mem_nil
  | cons r rest ih =>
    obtain ⟨hr, hbehind, hrest⟩ := Spread.cons_iff.mp h
    unfold firstGap
    split
    · rename_i hp
      refine ⟨le_rfl, hp, fun x h1 h2 => absurd h2 (not_lt.mpr h1), fun x _ hx hc => ?_,
        r, List.mem_cons_self, rfl⟩
      rcases (covers_cons ..).mp hc with ⟨hc, -⟩ | hc
      · order
      · have := h.covers_tail hc
        order
    · rename_i hp
      -- up to where the walk goes on, the range covers all
      have hup : ∀ x, p ≤ x → x < (if p < r.2 then r.2 else p) → Covers (r :: rest) x := by
        intro x h1 h2
        refine (covers_cons ..).mpr (Or.inl ⟨by order, ?_⟩)
        split at h2 <;> order
      have hfrom : r.2 ≤ (if p < r.2 then r.2 else p) ∧ p ≤ (if p < r.2 then r.2 else p) := by
        split <;> constructor <;> order
      have hih := ih hrest (if p < r.2 then r.2 else p)
      generalize firstGap rest (if p < r.2 then r.2 else p) = g at hih ⊢
      generalize (if p < r.2 then r.2 else p) = p' at *
      match g with
      | none =>
        intro x hx hlast
        rcases lt_or_ge x p' with h1 | h1
        · exact hup x hx h1
        · obtain ⟨q, hq, hxq⟩ := hlast
          refine (covers_cons ..).mpr (Or.inr (hih x h1 ?_))
          rcases List.mem_cons.mp hq with rfl | hq
          · exact absurd hxq (not_lt.mpr (hfrom.1.trans h1))
          · exact ⟨q, hq, hxq⟩
      | some (q, t) =>
        obtain ⟨h1, h2, h3, h4, u, hu, h5⟩ := hih
        refine ⟨hfrom.2.trans h1, h2, fun x hx hxq => ?_, fun x hx hxt hc => ?_,
          u, List.mem_cons_of_mem _ hu, h5⟩
        · rcases lt_or_ge x p' with hx' | hx'
          · exact hup x hx hx'
          · exact (covers_cons ..).mpr (Or.inr (h3 x hx' hxq))
        · rcases (covers_cons ..).mp hc with ⟨-, hc⟩ | hc
          · exact absurd hc (not_lt.mpr (hfrom.1.trans (h1.trans hx)))
          · exact h4 x hx hxt hc

end BananaOS.Lib
