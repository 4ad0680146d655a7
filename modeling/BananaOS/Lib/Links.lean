import Mathlib.Algebra.Order.Ring.Nat
import Mathlib.Data.List.Basic
import Mathlib.Data.List.Nodup
import Mathlib.Tactic.Common

/-!
# Lists threaded through link fields

A program keeps a list by a field in each element: `next` for a list that is walked forward,
`next` and `prev` for one that elements leave from the middle.  The list itself is a ghost; these
predicates say that the fields spell it.

* `Path next h l q`: following `next` from `h` visits `l` and arrives at `q`.
* `Seg next prev p l q h t`: the same with back links.  `h` is the pointer into the list, `t` the
  pointer to its last element; the first element's back link is `p` and the last one's forward
  link is `q`, and for the empty list `h` is `q` and `t` is `p`.

`Path.push` and `Path.uncons` are the two operations of a stack.  `Seg.pushBack` adds at the end and
`Seg.unlink` takes an element out wherever it is.  Their hypotheses about the new links are pointwise, so that a program that keeps its links in records
can use them.
-/

namespace BananaOS.Lib

variable {α : Type*}

/-! ## Forward links -/

/-- Following `next` from `h` visits `l` and arrives at `q`. -/
def Path (next : α → α) : α → List α → α → Prop
  | h, [], q => h = q
  | h, x :: l, q => h = x ∧ Path next (next x) l q

section Path

variable {next next' : α → α} {h q : α} {l : List α}

theorem Path.congr (hp : Path next h l q) (heq : ∀ x ∈ l, next' x = next x) :
    Path next' h l q := by
  induction l generalizing h with
  | nil => exact hp
  | cons x l ih =>
    refine ⟨hp.1, ?_⟩
    rw [heq x (List.mem_cons_self ..)]
    exact ih hp.2 fun y hy => heq y (List.mem_cons_of_mem _ hy)

theorem Path.push (hp : Path next h l q) {x : α} (hx : next' x = h)
    (heq : ∀ y ∈ l, next' y = next y) : Path next' x (x :: l) q :=
  ⟨rfl, by rw [hx]; exact hp.congr heq⟩

theorem Path.uncons (hp : Path next h l q) (hne : h ≠ q) :
    ∃ l', l = h :: l' ∧ Path next (next h) l' q := by
  cases l with
  | nil => exact absurd hp hne
  | cons x l =>
    obtain ⟨rfl, hp⟩ := hp
    exact ⟨l, rfl, hp⟩

end Path

/-! ## Links both ways -/

/-- `h` leads through `l` by `next`, and `t` back through it by `prev`. -/
def Seg (next prev : α → α) : α → List α → α → α → α → Prop
  | p, [], q, h, t => h = q ∧ t = p
  | p, x :: l, q, h, t => h = x ∧ prev x = p ∧ Seg next prev x l q (next x) t

section Seg

variable {next prev next' prev' : α → α} {p q h t : α} {l l₁ l₂ : List α}

theorem seg_append :
    Seg next prev p (l₁ ++ l₂) q h t ↔
      ∃ m m', Seg next prev p l₁ m h m' ∧ Seg next prev m' l₂ q m t := by
  induction l₁ generalizing p h with
  | nil =>
    constructor
    · intro hs
      exact ⟨h, p, ⟨rfl, rfl⟩, hs⟩
    · rintro ⟨m, m', ⟨rfl, rfl⟩, hs⟩
      exact hs
  | cons x l₁ ih =>
    constructor
    · rintro ⟨h1, h2, hs⟩
      obtain ⟨m, m', hs1, hs2⟩ := ih.mp hs
      exact ⟨m, m', ⟨h1, h2, hs1⟩, hs2⟩
    · rintro ⟨m, m', ⟨h1, h2, hs1⟩, hs2⟩
      exact ⟨h1, h2, ih.mpr ⟨m, m', hs1, hs2⟩⟩

theorem Seg.congr (hs : Seg next prev p l q h t) (hn : ∀ x ∈ l, next' x = next x)
    (hp : ∀ x ∈ l, prev' x = prev x) : Seg next' prev' p l q h t := by
  induction l generalizing p h with
  | nil => exact hs
  | cons x l ih =>
    obtain ⟨h1, h2, hs⟩ := hs
    refine ⟨h1, (hp x (List.mem_cons_self ..)).trans h2, ?_⟩
    rw [hn x (List.mem_cons_self ..)]
    exact ih hs (fun y hy => hn y (List.mem_cons_of_mem _ hy))
      fun y hy => hp y (List.mem_cons_of_mem _ hy)

/-- The two pointers of a list that has elements point into it. -/
theorem Seg.mem (hs : Seg next prev p l q h t) (hl : l ≠ []) : h ∈ l ∧ t ∈ l := by
  induction l generalizing p h with
  | nil => exact absurd rfl hl
  | cons x l ih =>
    obtain ⟨rfl, -, hs⟩ := hs
    refine ⟨List.mem_cons_self .., ?_⟩
    rcases eq_or_ne l [] with rfl | hne
    · obtain ⟨-, rfl⟩ := hs
      exact List.mem_cons_self ..
    · exact List.mem_cons_of_mem _ (ih hs hne).2

theorem Seg.head_eq_iff (hs : Seg next prev p l q h t) (hq : q ∉ l) : h = q ↔ l = [] := by
  constructor
  · rintro rfl
    by_contra hl
    exact hq (hs.mem hl).1
  · rintro rfl
    exact hs.1

theorem Seg.tail_eq_iff (hs : Seg next prev p l q h t) (hp : p ∉ l) : t = p ↔ l = [] := by
  constructor
  · rintro rfl
    by_contra hl
    exact hp (hs.mem hl).2
  · rintro rfl
    exact hs.2

theorem Seg.link_ne (hs : Seg next prev p l q h t) (hnd : l.Nodup) (hp : p ∉ l) (hq : q ∉ l)
    {x : α} (hx : x ∈ l) : prev x ≠ x ∧ next x ≠ x := by
  obtain ⟨A, B, rfl⟩ := List.append_of_mem hx
  obtain ⟨-, hxB, hdis⟩ := List.nodup_append.mp hnd
  obtain ⟨m, a, hsA, rfl, rfl, hsB⟩ := seg_append.mp hs
  constructor
  · intro he
    rcases eq_or_ne A [] with rfl | hne
    · exact hp (hsA.2 ▸ he.symm ▸ hx)
    · exact hdis _ (hsA.mem hne).2 m (List.mem_cons_self ..) he
  · intro he
    rcases eq_or_ne B [] with rfl | hne
    · exact hq (hsB.1 ▸ he.symm ▸ hx)
    · exact (List.nodup_cons.mp hxB).1 (he ▸ (hsB.mem hne).1)

/-- The last element's forward link is turned to `q'`. -/
theorem Seg.setExit (hs : Seg next prev p l q h t) (hnd : l.Nodup) (hl : l ≠ []) {q' : α}
    (hn : ∀ x ∈ l, x ≠ t → next' x = next x) (ht : next' t = q') :
    Seg next' prev p l q' h t := by
  induction l generalizing p h with
  | nil => exact absurd rfl hl
  | cons x l ih =>
    obtain ⟨h1, h2, hs⟩ := hs
    refine ⟨h1, h2, ?_⟩
    rcases eq_or_ne l [] with rfl | hne
    · obtain ⟨-, rfl⟩ := hs
      exact ⟨ht, rfl⟩
    · have hxt : x ≠ t := fun hx => (List.nodup_cons.mp hnd).1 (hx ▸ (hs.mem hne).2)
      rw [hn x (List.mem_cons_self ..) hxt]
      exact ih hs (List.nodup_cons.mp hnd).2 hne
        fun y hy => hn y (List.mem_cons_of_mem _ hy)

/-- The first element's back link is turned to `p'`. -/
theorem Seg.setEntry (hs : Seg next prev p l q h t) (hnd : l.Nodup) (hl : l ≠ []) {p' : α}
    (hp : ∀ x ∈ l, x ≠ h → prev' x = prev x) (hh : prev' h = p') :
    Seg next prev' p' l q h t := by
  cases l with
  | nil => exact absurd rfl hl
  | cons x l =>
    obtain ⟨rfl, -, hs⟩ := hs
    refine ⟨rfl, hh, hs.congr (fun _ _ => rfl) fun y hy => ?_⟩
    exact hp y (List.mem_cons_of_mem _ hy) fun hy' => (List.nodup_cons.mp hnd).1 (hy' ▸ hy)

variable [DecidableEq α]

/-- A new last element, in a list whose ends are marked by `z`. -/
theorem Seg.pushBack {z x : α} (hs : Seg next prev z l z h t) (hnd : l.Nodup) (hz : z ∉ l)
    (hn : ∀ y ∈ l, y ≠ t → next' y = next y) (hnt : t ≠ z → next' t = x)
    (hnx : next' x = z) (hp : ∀ y ∈ l, prev' y = prev y) (hpx : prev' x = t) :
    Seg next' prev' z (l ++ [x]) z (if t ≠ z then h else x) x := by
  rw [seg_append]
  refine ⟨x, t, ?_, rfl, hpx, hnx, rfl⟩
  split_ifs with ht
  · have hl : l ≠ [] := fun hl => ht ((hs.tail_eq_iff hz).mpr hl)
    exact (hs.setExit hnd hl hn (hnt ht)).congr (fun _ _ => rfl) hp
  · rw [not_not] at ht
    obtain rfl := (hs.tail_eq_iff hz).mp ht
    exact ⟨rfl, ht⟩

/-- The element `x` leaves: its neighbours are linked to each other, and where it had none the
pointer on that side takes over its link. -/
theorem Seg.unlink {z x : α} (hs : Seg next prev z l z h t) (hnd : l.Nodup) (hz : z ∉ l)
    (hx : x ∈ l) (hn : ∀ y ∈ l, y ≠ x → y ≠ prev x → next' y = next y)
    (hna : prev x ≠ z → next' (prev x) = next x)
    (hp : ∀ y ∈ l, y ≠ x → y ≠ next x → prev' y = prev y)
    (hpb : next x ≠ z → prev' (next x) = prev x) :
    Seg next' prev' z (l.erase x) z (if prev x ≠ z then h else next x)
      (if next x ≠ z then t else prev x) := by
  obtain ⟨A, B, rfl⟩ := List.append_of_mem hx
  obtain ⟨hA, hxB, hdis⟩ := List.nodup_append.mp hnd
  obtain ⟨hxB, hB⟩ := List.nodup_cons.mp hxB
  have hxA : x ∉ A := fun hxA => hdis x hxA x (List.mem_cons_self ..) rfl
  have hAB : ∀ y ∈ A, y ∉ B := fun y hy hyB => hdis y hy y (List.mem_cons_of_mem _ hyB) rfl
  have hzA : z ∉ A := fun h => hz (List.mem_append_left _ h)
  have hzB : z ∉ B := fun h => hz (List.mem_append_right _ (List.mem_cons_of_mem _ h))
  have inA : ∀ y ∈ A, y ∈ A ++ x :: B := fun y hy => List.mem_append_left _ hy
  have inB : ∀ y ∈ B, y ∈ A ++ x :: B := fun y hy =>
    List.mem_append_right _ (List.mem_cons_of_mem _ hy)
  obtain ⟨m, a, hsA, rfl, hpx, hsB⟩ := seg_append.mp hs
  subst hpx
  rw [List.erase_append_right _ hxA, List.erase_cons_head, seg_append]
  -- the part before `x` now leads to what came after it, and the other way round
  have hA' : Seg next' prev z A (next m) (if prev m ≠ z then h else next m) (prev m) := by
    rcases eq_or_ne A [] with rfl | hne
    · rw [if_neg (not_not.mpr hsA.2)]
      exact ⟨rfl, hsA.2⟩
    · have ha : prev m ≠ z := fun ha => hne ((hsA.tail_eq_iff hzA).mp ha)
      rw [if_pos ha]
      exact hsA.setExit hA hne (fun y hy => hn y (inA y hy) fun h => hxA (h ▸ hy)) (hna ha)
  have hB' : Seg next prev' (prev m) B z (next m) (if next m ≠ z then t else prev m) := by
    rcases eq_or_ne B [] with rfl | hne
    · rw [if_neg (not_not.mpr hsB.1)]
      exact ⟨hsB.1, rfl⟩
    · have hb : next m ≠ z := fun hb => hne ((hsB.head_eq_iff hzB).mp hb)
      rw [if_pos hb]
      exact hsB.setEntry hB hne (fun y hy => hp y (inB y hy) fun h => hxB (h ▸ hy)) (hpb hb)
  refine ⟨next m, prev m, hA'.congr (fun _ _ => rfl) fun y hy => ?_,
    hB'.congr (fun y hy => ?_) fun _ _ => rfl⟩
  · refine hp y (inA y hy) (fun h => hxA (h ▸ hy)) fun h => ?_
    rcases eq_or_ne B [] with rfl | hne
    · exact hzA (hsB.1 ▸ h ▸ hy)
    · exact hAB y hy (h ▸ (hsB.mem hne).1)
  · refine hn y (inB y hy) (fun h => hxB (h ▸ hy)) fun h => ?_
    rcases eq_or_ne A [] with rfl | hne
    · exact hzB (hsA.2 ▸ h ▸ hy)
    · exact hAB (prev m) (hsA.mem hne).2 (h ▸ hy)

end Seg

end BananaOS.Lib
