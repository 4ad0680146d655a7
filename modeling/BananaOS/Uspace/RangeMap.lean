import BananaOS.Uspace.Ranges
import Mathlib.Data.List.TakeWhile

/-!
# The ranges are a page map

What the range list of `Uspace.Ranges` is for: a partial map from the pages of the mmap region
to protections.  `WF` is the shape `kernel/uspace.c` keeps the list in, `pageProt` the map it
stands for.

* `cutList` and `addAt` keep the shape, given an interval that is not empty, and change the
  map on that interval only.
* `findGap` stops at the lowest free address with room.
* The three calls are put together from these; a call whose length does not wrap when it is
  rounded up to pages (`NoWrap`) keeps the shape and changes exactly the pages it names.
* A length of more than `2 ^ 64 - 4096` rounds to `0`, and `uvm_unmap` and `uvm_protect`, which
  unlike `uvm_map` do not look at the length first, then split a range in two at `addr` or put
  an empty one there.
-/

namespace BananaOS.Uspace

open Lib Range

/-- The shape of the range list: sorted, not empty, disjoint, joined where it can be, on page
boundaries, inside the region. -/
structure WF (l : List Uvma) : Prop where
  sorted : Sorted l
  tight : Tight l
  aligned : ∀ v ∈ l, v.start % 4096 = 0 ∧ v.stop % 4096 = 0
  inside : ∀ v ∈ l, uvmBase ≤ v.start ∧ v.stop ≤ uvmBase + uvmSize

/-- The protection of page number `p`, `none` where nothing is mapped. -/
def pageProt (us : Us) (p : ℕ) : Option ℕ := lookup us.vma (p * 4096)

/-! ## Taking an interval out -/

/-- What is left of a range is part of it, and its new ends are the ends of the cut. -/
theorem mem_cutList {s e : ℕ} {l : List Uvma} {w : Uvma} (h : w ∈ cutList s e l) :
    ∃ v ∈ l, v.start ≤ w.start ∧ w.stop ≤ v.stop ∧ w.tag = v.tag ∧
      (w.start = v.start ∨ w.start = e) ∧ (w.stop = v.stop ∨ w.stop = s) ∧
      (v.start < v.stop → w.start < w.stop) := by
  induction l with
  | nil => simp [cutList] at h
  | cons v l ih =>
    have tail := fun hw : w ∈ cutList s e l =>
      (ih hw).imp fun x hx => And.imp_left (List.mem_cons_of_mem v) hx
    have here : ∀ {P : Uvma → Prop}, P v → ∃ x ∈ v :: l, P x :=
      fun hp => ⟨v, List.mem_cons_self .., hp⟩
    rw [cutList] at h
    split_ifs at h with h1 h2 h3 h4
    · rcases List.mem_cons.mp h with rfl | h
      · exact here ⟨le_rfl, le_rfl, rfl, Or.inl rfl, Or.inl rfl, id⟩
      · exact tail h
    · rcases List.mem_cons.mp h with rfl | h
      · exact here ⟨le_rfl, by simp; omega, rfl, Or.inl rfl, Or.inr rfl, fun _ => h2.1⟩
      · rcases List.mem_cons.mp h with rfl | h
        · exact here ⟨by simp; omega, le_rfl, rfl, Or.inr rfl, Or.inl rfl, fun _ => h2.2⟩
        · exact ⟨w, List.mem_cons_of_mem _ h, le_rfl, le_rfl, rfl, Or.inl rfl, Or.inl rfl, id⟩
    · rcases List.mem_cons.mp h with rfl | h
      · exact here ⟨le_rfl, by simp; omega, rfl, Or.inl rfl, Or.inr rfl, fun _ => h3⟩
      · exact tail h
    · rcases List.mem_cons.mp h with rfl | h
      · exact here ⟨by simp; omega, le_rfl, rfl, Or.inr rfl, Or.inl rfl, fun _ => h4⟩
      · exact tail h
    · exact tail h

/-- The cut leaves nothing in the interval. -/
theorem cutList_clear {s e : ℕ} {l : List Uvma} (hl : Sorted l) :
    ∀ w ∈ cutList s e l, w.stop ≤ s ∨ e ≤ w.start := by
  induction l with
  | nil => simp [cutList]
  | cons v l ih =>
    obtain ⟨hv, hvl, hs⟩ := sorted_cons.mp hl
    have ih := ih hs
    intro w hw
    rw [cutList] at hw
    split_ifs at hw with h1 h2 h3 h4
    · rcases List.mem_cons.mp hw with rfl | hw
      · omega
      · exact ih w hw
    · rcases List.mem_cons.mp hw with rfl | hw
      · exact Or.inl le_rfl
      · rcases List.mem_cons.mp hw with rfl | hw
        · exact Or.inr le_rfl
        · -- the rest lies behind `v`, which reaches past `e`
          have := hvl w hw
          omega
    · rcases List.mem_cons.mp hw with rfl | hw
      · exact Or.inl le_rfl
      · exact ih w hw
    · rcases List.mem_cons.mp hw with rfl | hw
      · exact Or.inr le_rfl
      · exact ih w hw
    · exact ih w hw

theorem sorted_cutList {s e : ℕ} (hse : s ≤ e) {l : List Uvma} (hl : Sorted l) :
    Sorted (cutList s e l) := by
  refine ⟨fun w hw => ?_, ?_⟩
  · obtain ⟨v, hv, -, -, -, -, -, hne⟩ := mem_cutList hw
    exact hne (hl.nonempty v hv)
  induction l with
  | nil => exact List.Pairwise.nil
  | cons v l ih =>
    obtain ⟨hv, hvl, hs⟩ := sorted_cons.mp hl
    have after : ∀ w ∈ cutList s e l, v.stop ≤ w.start := fun w hw => by
      obtain ⟨x, hx, hxw, -⟩ := mem_cutList hw
      exact (hvl x hx).trans hxw
    rw [cutList]
    split_ifs with h1 h2 h3 h4
    · exact List.pairwise_cons.mpr ⟨after, ih hs⟩
    · refine List.pairwise_cons.mpr ⟨fun w hw => ?_, List.pairwise_cons.mpr ⟨hvl, hs.disjoint⟩⟩
      rcases List.mem_cons.mp hw with rfl | hw
      · exact hse
      · have := hvl w hw
        simp only
        omega
    · refine List.pairwise_cons.mpr ⟨fun w hw => ?_, ih hs⟩
      have := after w hw
      simp only
      omega
    · exact List.pairwise_cons.mpr ⟨after, ih hs⟩
    · exact ih hs

theorem tight_cutList {s e : ℕ} (hse : s < e) {l : List Uvma} (hl : Sorted l) (ht : Tight l) :
    Tight (cutList s e l) := by
  induction l with
  | nil => exact List.Pairwise.nil
  | cons v l ih =>
    obtain ⟨hv, hvl, hs⟩ := sorted_cons.mp hl
    obtain ⟨htv, htl⟩ := tight_cons.mp ht
    have ih := ih hs htl
    -- a piece of `v` that touches a piece of a later range is where the two touched before
    have after : ∀ w ∈ cutList s e l, ∀ b, b ≤ v.stop → b = w.start → v.tag ≠ w.tag := by
      intro w hw b hb hbw
      obtain ⟨x, hx, hxw, -, htag, -⟩ := mem_cutList hw
      have hvx := hvl x hx
      rw [htag]
      exact htv x hx (by omega)
    rw [cutList]
    split_ifs with h1 h2 h3 h4
    · exact tight_cons.mpr ⟨fun w hw => after w hw _ le_rfl, ih⟩
    · refine tight_cons.mpr ⟨fun w hw => ?_, tight_cons.mpr ⟨htv, htl⟩⟩
      rcases List.mem_cons.mp hw with rfl | hw
      · intro h
        simp only at h
        omega
      · intro h
        have := hvl w hw
        simp only at h
        omega
    · exact tight_cons.mpr ⟨fun w hw => after w hw s (by omega), ih⟩
    · exact tight_cons.mpr ⟨fun w hw => after w hw _ le_rfl, ih⟩
    · exact ih

/-- The map after a cut. -/
theorem lookup_cutList {s e : ℕ} (hse : s < e) {l : List Uvma} (hl : Sorted l) (a : ℕ) :
    lookup (cutList s e l) a = if s ≤ a ∧ a < e then none else lookup l a := by
  by_cases ha : s ≤ a ∧ a < e
  · rw [if_pos ha, lookup_eq_none_iff]
    intro w hw hwa
    have := cutList_clear hl w hw
    have h1 := hwa.1
    have h2 := hwa.2
    omega
  · rw [if_neg ha]
    induction l with
    | nil => rfl
    | cons v l ih =>
      obtain ⟨hv, hvl, hs⟩ := sorted_cons.mp hl
      have ih := ih hs
      rw [cutList]
      split_ifs with h1 h2 h3 h4
      · rw [lookup_cons, lookup_cons, ih]
      · rw [lookup_cons, lookup_cons, lookup_cons]
        dsimp only
        split_ifs <;> first | rfl | omega
      · rw [lookup_cons, lookup_cons, ih]
        dsimp only
        split_ifs <;> first | rfl | omega
      · rw [lookup_cons, lookup_cons, ih]
        dsimp only
        split_ifs <;> first | rfl | omega
      · rw [lookup_cons, ih, if_neg]
        omega

theorem WF.cutList {s e : ℕ} (hse : s < e) (hs : s % 4096 = 0) (he : e % 4096 = 0)
    {l : List Uvma} (hl : WF l) : WF (cutList s e l) where
  sorted := sorted_cutList hse.le hl.sorted
  tight := tight_cutList hse hl.sorted hl.tight
  aligned w hw := by
    obtain ⟨v, hv, -, -, -, h1, h2, -⟩ := mem_cutList hw
    obtain ⟨h3, h4⟩ := hl.aligned v hv
    constructor
    · rcases h1 with h1 | h1 <;> rw [h1] <;> assumption
    · rcases h2 with h2 | h2 <;> rw [h2] <;> assumption
  inside w hw := by
    obtain ⟨v, hv, h1, h2, -⟩ := mem_cutList hw
    obtain ⟨h3, h4⟩ := hl.inside v hv
    exact ⟨h3.trans h1, h2.trans h4⟩

/-! ## Putting a range in -/

/-- What `vma_add` builds: the new range, grown over a neighbour of its protection on either
side. -/
theorem addAt_shape (s e prot : ℕ) (l r : List Uvma) :
    ∃ l' r' s' e', addAt s e prot l r = l' ++ ⟨s', e', prot⟩ :: r' ∧
      (l = l' ++ [⟨s', s, prot⟩] ∨
        l = l' ∧ s' = s ∧ ∀ p ∈ l.getLast?, p.stop = s → p.tag ≠ prot) ∧
      (r = ⟨e, e', prot⟩ :: r' ∨
        r = r' ∧ e' = e ∧ ∀ q ∈ r.head?, q.start = e → q.tag ≠ prot) := by
  have right : (∀ p ∈ l.getLast?, p.stop = s → p.tag ≠ prot) →
      ∃ l' r' s' e', addAt.addRight s e prot l r = l' ++ ⟨s', e', prot⟩ :: r' ∧
      (l = l' ++ [⟨s', s, prot⟩] ∨
        l = l' ∧ s' = s ∧ ∀ p ∈ l.getLast?, p.stop = s → p.tag ≠ prot) ∧
      (r = ⟨e, e', prot⟩ :: r' ∨
        r = r' ∧ e' = e ∧ ∀ q ∈ r.head?, q.start = e → q.tag ≠ prot) := by
    intro hl
    unfold addAt.addRight
    split
    next q r' =>
      split_ifs with hq
      · obtain ⟨rfl, rfl⟩ := hq
        exact ⟨l, r', s, q.stop, rfl, Or.inr ⟨rfl, rfl, hl⟩, Or.inl rfl⟩
      · refine ⟨l, q :: r', s, e, rfl, Or.inr ⟨rfl, rfl, hl⟩, Or.inr ⟨rfl, rfl, ?_⟩⟩
        rintro _ ⟨⟩ h1 h2
        exact hq ⟨h1, h2⟩
    next => exact ⟨l, [], s, e, rfl, Or.inr ⟨rfl, rfl, hl⟩, Or.inr ⟨rfl, rfl, by simp⟩⟩
  unfold addAt
  split
  next p hp =>
    have hl : l = l.dropLast ++ [p] := (List.dropLast_append_getLast? p hp).symm
    split_ifs with hps
    · obtain ⟨rfl, rfl⟩ := hps
      split
      next q r' =>
        split_ifs with hq
        · obtain ⟨rfl, hq⟩ := hq
          exact ⟨l.dropLast, r', p.start, q.stop, rfl, Or.inl hl, Or.inl (by rw [← hq])⟩
        · refine ⟨l.dropLast, q :: r', p.start, e, rfl, Or.inl hl, Or.inr ⟨rfl, rfl, ?_⟩⟩
          rintro _ ⟨⟩ h1 h2
          exact hq ⟨h1, h2⟩
      next => exact ⟨l.dropLast, [], p.start, e, rfl, Or.inl hl, Or.inr ⟨rfl, rfl, by simp⟩⟩
    · refine right ?_
      intro p' hp' h1 h2
      obtain rfl : p = p' := Option.some_inj.mp (hp.symm.trans hp')
      exact hps ⟨h1, h2⟩
  next hnone => exact right (by simp [hnone])

/-- The left part of what `vma_add` builds, with `s'` where the new range starts now. -/
theorem addAt_left {s s' prot : ℕ} {l l' : List Uvma} (hl : Sorted l) (ht : Tight l)
    (hs : ∀ v ∈ l, v.stop ≤ s)
    (h : l = l' ++ [⟨s', s, prot⟩] ∨
      l = l' ∧ s' = s ∧ ∀ p ∈ l.getLast?, p.stop = s → p.tag ≠ prot) :
    s' ≤ s ∧ Sorted l' ∧ Tight l' ∧ (∀ v ∈ l', v ∈ l) ∧ (∀ v ∈ l', v.stop ≤ s') ∧
      (∀ v ∈ l', v.stop = s' → v.tag ≠ prot) ∧ (s' = s ∨ ∃ v ∈ l, s' = v.start) ∧
      ∀ a < s, lookup l a = if a < s' then lookup l' a else some prot := by
  rcases h with rfl | ⟨rfl, rfl, hlast⟩
  · obtain ⟨h1, h2, h3⟩ := sorted_append.mp hl
    obtain ⟨h4, -, h5⟩ := tight_append.mp ht
    have hlt : s' < s := (sorted_cons.mp h2).1
    have hstop : ∀ v ∈ l', v.stop ≤ s' := fun v hv => h3 v hv _ (List.mem_cons_self ..)
    refine ⟨hlt.le, h1, h4, fun v hv => List.mem_append_left _ hv, hstop,
      fun v hv => h5 v hv _ (List.mem_cons_self ..),
      Or.inr ⟨⟨s', s, prot⟩, by simp, rfl⟩, fun a ha => ?_⟩
    rw [lookup_split hstop (by simp)]
    split_ifs with h6
    · rfl
    · rw [lookup_cons, if_pos (by dsimp only; omega)]
  · refine ⟨le_rfl, hl, ht, fun v hv => hv, hs, ?_, Or.inl rfl, fun a ha => by rw [if_pos ha]⟩
    -- only the last range can end at `s`: the others end where a later one starts, or before
    intro v hv hvs
    rcases hq : l.getLast? with _ | p
    · rw [List.getLast?_eq_none_iff] at hq
      simp [hq] at hv
    · have hlp : l.dropLast ++ [p] = l := List.dropLast_append_getLast? p hq
      rw [← hlp] at hv hl
      rcases List.mem_append.mp hv with hv | hv
      · obtain ⟨-, h2, h3⟩ := sorted_append.mp hl
        have h4 := h3 v hv p (List.mem_cons_self ..)
        have h5 := (sorted_cons.mp h2).1
        have h6 := hs p (List.mem_of_getLast? hq)
        omega
      · obtain rfl := List.mem_singleton.mp hv
        exact hlast v hq hvs

/-- The right part of what `vma_add` builds, with `e'` where the new range ends now. -/
theorem addAt_right {e e' prot : ℕ} {r r' : List Uvma} (hr : Sorted r) (ht : Tight r)
    (he : ∀ w ∈ r, e ≤ w.start)
    (h : r = ⟨e, e', prot⟩ :: r' ∨
      r = r' ∧ e' = e ∧ ∀ q ∈ r.head?, q.start = e → q.tag ≠ prot) :
    e ≤ e' ∧ Sorted r' ∧ Tight r' ∧ (∀ w ∈ r', w ∈ r) ∧ (∀ w ∈ r', e' ≤ w.start) ∧
      (∀ w ∈ r', e' = w.start → prot ≠ w.tag) ∧ (e' = e ∨ ∃ w ∈ r, e' = w.stop) ∧
      ∀ a, e ≤ a → lookup r a = if a < e' then some prot else lookup r' a := by
  rcases h with rfl | ⟨rfl, rfl, hhead⟩
  · obtain ⟨h1, h2, h3⟩ := sorted_cons.mp hr
    obtain ⟨h4, h5⟩ := tight_cons.mp ht
    refine ⟨h1.le, h3, h5, fun w hw => List.mem_cons_of_mem _ hw, h2, h4,
      Or.inr ⟨⟨e, e', prot⟩, by simp, rfl⟩, fun a ha => ?_⟩
    rw [lookup_cons]
    simp [ha]
  · refine ⟨le_rfl, hr, ht, fun w hw => hw, he, ?_, Or.inl rfl, fun a ha => ?_⟩
    · -- only the first range can start at `e`: the later ones start past its end
      intro w hw hwe
      rcases r with _ | ⟨q, r⟩
      · simp at hw
      · rcases List.mem_cons.mp hw with rfl | hw
        · exact (hhead w rfl hwe.symm).symm
        · obtain ⟨h1, h2, -⟩ := sorted_cons.mp hr
          have h3 := h2 w hw
          have h4 := he q (List.mem_cons_self ..)
          omega
    · rw [if_neg (by omega)]

/-- A range put where the list has a hole keeps the shape and changes the map there only. -/
theorem WF.addAt {s e : ℕ} (prot : ℕ) {l r : List Uvma} (h : WF (l ++ r)) (hse : s < e)
    (hl : ∀ v ∈ l, v.stop ≤ s) (hr : ∀ w ∈ r, e ≤ w.start)
    (hs : s % 4096 = 0) (he : e % 4096 = 0) (hsb : uvmBase ≤ s) (heb : e ≤ uvmBase + uvmSize) :
    WF (addAt s e prot l r) ∧
      ∀ a, lookup (addAt s e prot l r) a =
        if s ≤ a ∧ a < e then some prot else lookup (l ++ r) a := by
  obtain ⟨hsl, hsr, -⟩ := sorted_append.mp h.sorted
  obtain ⟨htl, htr, -⟩ := tight_append.mp h.tight
  obtain ⟨l', r', s', e', heq, hL, hR⟩ := addAt_shape s e prot l r
  obtain ⟨l1, l2, l3, l4, l5, l6, l7, l8⟩ := addAt_left hsl htl hl hL
  obtain ⟨r1, r2, r3, r4, r5, r6, r7, r8⟩ := addAt_right hsr htr hr hR
  have hs' : s' % 4096 = 0 ∧ uvmBase ≤ s' := by
    rcases l7 with rfl | ⟨v, hv, rfl⟩
    · exact ⟨hs, hsb⟩
    · exact ⟨(h.aligned v (List.mem_append_left _ hv)).1,
        (h.inside v (List.mem_append_left _ hv)).1⟩
  have he' : e' % 4096 = 0 ∧ e' ≤ uvmBase + uvmSize := by
    rcases r7 with rfl | ⟨w, hw, rfl⟩
    · exact ⟨he, heb⟩
    · exact ⟨(h.aligned w (List.mem_append_right _ hw)).2,
        (h.inside w (List.mem_append_right _ hw)).2⟩
  have mem : ∀ v ∈ l' ++ (⟨s', e', prot⟩ : Uvma) :: r', v = ⟨s', e', prot⟩ ∨ v ∈ l ++ r := by
    intro v hv
    rcases List.mem_append.mp hv with hv | hv
    · exact Or.inr (List.mem_append_left _ (l4 v hv))
    · rcases List.mem_cons.mp hv with rfl | hv
      · exact Or.inl rfl
      · exact Or.inr (List.mem_append_right _ (r4 v hv))
  rw [heq]
  refine ⟨⟨?_, ?_, fun v hv => ?_, fun v hv => ?_⟩, fun a => ?_⟩
  · refine sorted_append.mpr ⟨l2, sorted_cons.mpr ⟨by dsimp only; omega, r5, r2⟩, ?_⟩
    intro v hv w hw
    rcases List.mem_cons.mp hw with rfl | hw
    · exact l5 v hv
    · have h1 := l5 v hv
      have h2 := r5 w hw
      omega
  · refine tight_append.mpr ⟨l3, tight_cons.mpr ⟨r6, r3⟩, ?_⟩
    intro v hv w hw hvw
    rcases List.mem_cons.mp hw with rfl | hw
    · exact l6 v hv hvw
    · have h1 := l5 v hv
      have h2 := r5 w hw
      omega
  · rcases mem v hv with rfl | hv
    · exact ⟨hs'.1, he'.1⟩
    · exact h.aligned v hv
  · rcases mem v hv with rfl | hv
    · exact ⟨hs'.2, he'.2⟩
    · exact h.inside v hv
  · have hm : ∀ w ∈ (⟨s', e', prot⟩ : Uvma) :: r', s' ≤ w.start := by
      intro w hw
      rcases List.mem_cons.mp hw with rfl | hw
      · exact le_rfl
      · have := r5 w hw
        omega
    rw [lookup_split l5 hm, lookup_cons,
      lookup_split hl (fun w hw => hse.le.trans (hr w hw))]
    dsimp only
    by_cases h1 : a < s
    · rw [l8 a h1]
      split_ifs <;> first | rfl | omega
    · by_cases h2 : a < e
      · split_ifs <;> first | rfl | omega
      · rw [r8 a (by omega)]
        split_ifs <;> first | rfl | omega

/-! ## The array operations -/

theorem vmaRoom_vma {us us' : Us} {extra : ℕ} {mem : Bool}
    (h : vmaRoom us extra mem = some us') : us'.vma = us.vma := by
  unfold vmaRoom at h
  split_ifs at h <;> cases h <;> rfl

theorem vmaCut_vma {us us' : Us} {s e : ℕ} {mem : Bool} (h : vmaCut us s e mem = some us') :
    us'.vma = cutList s e us.vma := by
  obtain ⟨us₁, h1, rfl⟩ := Option.map_eq_some_iff.mp h
  rw [vmaRoom_vma h1]

theorem start_le_of_mem_dropWhile {s : ℕ} {l : List Uvma} (hl : Sorted l) :
    ∀ w ∈ l.dropWhile fun v => decide (v.start < s), s ≤ w.start := by
  induction l with
  | nil => simp
  | cons v l ih =>
    obtain ⟨hv, hvl, hs⟩ := sorted_cons.mp hl
    intro w hw
    rw [List.dropWhile_cons] at hw
    split_ifs at hw with h
    · exact ih hs w hw
    · have h1 : ¬ v.start < s := by simpa using h
      rcases List.mem_cons.mp hw with rfl | hw
      · omega
      · have := hvl w hw
        omega

theorem vmaAdd_spec {us us' : Us} {s e prot : ℕ} {mem : Bool} (h : WF us.vma)
    (hclear : ∀ v ∈ us.vma, v.stop ≤ s ∨ e ≤ v.start) (hse : s < e)
    (hs : s % 4096 = 0) (he : e % 4096 = 0) (hsb : uvmBase ≤ s) (heb : e ≤ uvmBase + uvmSize)
    (hadd : vmaAdd us s e prot mem = some us') :
    WF us'.vma ∧
      ∀ a, lookup us'.vma a = if s ≤ a ∧ a < e then some prot else lookup us.vma a := by
  unfold vmaAdd at hadd
  split_ifs at hadd
  obtain ⟨us₁, h1, rfl⟩ := Option.map_eq_some_iff.mp hadd
  have h2 := List.takeWhile_append_dropWhile (p := fun v : Uvma => decide (v.start < s))
    (l := us.vma)
  rw [← h2] at h
  have h3 := WF.addAt prot h hse ?_ ?_ hs he hsb heb
  · rw [h2] at h3
    simpa only [vmaRoom_vma h1] using h3
  · intro v hv
    have hstart : v.start < s := by simpa using List.mem_takeWhile_imp hv
    rcases hclear v ((List.takeWhile_sublist _).mem hv) with h4 | h4 <;> omega
  · intro w hw
    rw [h2] at h
    have hstart := start_le_of_mem_dropWhile h.sorted w hw
    have hmem := (List.dropWhile_sublist _).mem hw
    have hne := h.sorted.nonempty w hmem
    rcases hclear w hmem with h4 | h4 <;> omega

/-! ## Looking for free addresses -/

theorem inRegion_iff {a n : ℕ} :
    inRegion a n = true ↔ uvmBase ≤ a ∧ n ≤ uvmSize ∧ a + n ≤ uvmBase + uvmSize := by
  unfold inRegion
  simp only [Bool.and_eq_true, decide_eq_true_eq]
  omega

theorem u64_of_inRegion {a n : ℕ} (h : inRegion a n = true) : u64 (a + n) = a + n := by
  have := inRegion_iff.mp h
  unfold u64
  simp only [uvmBase, uvmSize] at this
  omega

/-- The gap search stops at a free address with room before the next range, at or below every
other such address. -/
theorem findGap_spec (len : ℕ) {l : List Uvma} (hl : Sorted l) (a : ℕ) :
    a ≤ findGap len l a ∧
      (findGap len l a = a ∨ ∃ v ∈ l, findGap len l a = v.stop) ∧
      (∀ v ∈ l, v.stop ≤ findGap len l a ∨ findGap len l a + len ≤ v.start) ∧
      ∀ c, a ≤ c → 0 < len → (∀ v ∈ l, v.stop ≤ c ∨ c + len ≤ v.start) →
        findGap len l a ≤ c := by
  induction l generalizing a with
  | nil => exact ⟨le_rfl, Or.inl rfl, by simp, fun c hc _ _ => hc⟩
  | cons v l ih =>
    obtain ⟨hv, hvl, hs⟩ := sorted_cons.mp hl
    rw [findGap]
    split_ifs with h1 h2
    · refine ⟨le_rfl, Or.inl rfl, fun w hw => Or.inr ?_, fun c hc _ _ => hc⟩
      rcases List.mem_cons.mp hw with rfl | hw
      · omega
      · have := hvl w hw
        omega
    · obtain ⟨i1, i2, i3, i4⟩ := ih hs v.stop
      refine ⟨by omega, Or.inr ?_, fun w hw => ?_, fun c hc h0 hfree => i4 c ?_ h0 ?_⟩
      · rcases i2 with i2 | ⟨w, hw, i2⟩
        · exact ⟨v, List.mem_cons_self .., i2⟩
        · exact ⟨w, List.mem_cons_of_mem _ hw, i2⟩
      · rcases List.mem_cons.mp hw with rfl | hw
        · exact Or.inl i1
        · exact i3 w hw
      · rcases hfree v (List.mem_cons_self ..) with h3 | h3 <;> omega
      · exact fun w hw => hfree w (List.mem_cons_of_mem _ hw)
    · obtain ⟨i1, i2, i3, i4⟩ := ih hs a
      refine ⟨i1, ?_, fun w hw => ?_, fun c hc h0 hfree => i4 c hc h0 ?_⟩
      · exact i2.imp_right fun ⟨w, hw, i2⟩ => ⟨w, List.mem_cons_of_mem _ hw, i2⟩
      · rcases List.mem_cons.mp hw with rfl | hw
        · exact Or.inl (by omega)
        · exact i3 w hw
      · exact fun w hw => hfree w (List.mem_cons_of_mem _ hw)

/-- What `vm_find` finds is free, on a page boundary and inside the region. -/
theorem vmFind_spec {us : Us} (h : WF us.vma) {len hint a : ℕ}
    (ha : vmFind us len hint = a) (ha0 : a ≠ 0) :
    a % 4096 = 0 ∧ inRegion a len = true ∧ ∀ v ∈ us.vma, v.stop ≤ a ∨ a + len ≤ v.start := by
  simp only [vmFind] at ha
  split_ifs at ha with h1 h2
  · obtain ⟨-, h2, h3, h4⟩ := h1
    rw [u64_of_inRegion h3] at h4
    refine ⟨ha ▸ h2, ha ▸ h3, fun v hv => ?_⟩
    by_contra hcon
    refine h4 (List.any_eq_true.mpr ⟨v, hv, ?_⟩)
    rw [Bool.and_eq_true, decide_eq_true_eq, decide_eq_true_eq]
    omega
  · obtain ⟨-, i2, i3, -⟩ := findGap_spec len h.sorted uvmBase
    rw [ha] at i2 i3 h2
    refine ⟨?_, h2, i3⟩
    rcases i2 with rfl | ⟨v, hv, rfl⟩
    · decide
    · exact (h.aligned v hv).2
  · exact absurd ha.symm ha0

/-- `vm_find` fails only when every place for `len` bytes in the region meets a range. -/
theorem vmFind_complete {us : Us} (h : WF us.vma) {len hint : ℕ} (hlen : 0 < len)
    (hfail : vmFind us len hint = 0) {c : ℕ} (hc : inRegion c len = true) :
    ∃ v ∈ us.vma, v.start < c + len ∧ c < v.stop := by
  simp only [vmFind] at hfail
  obtain ⟨i1, -, -, i4⟩ := findGap_spec len h.sorted uvmBase
  split_ifs at hfail with h1 h2
  · exact absurd hfail h1.1
  · have : 0 < uvmBase := by decide
    omega
  · by_contra hcon
    push Not at hcon
    have hc' := inRegion_iff.mp hc
    refine h2 (inRegion_iff.mpr ?_)
    have := i4 c hc'.1 hlen fun v hv => by
      by_contra hv'
      have := hcon v hv (by omega)
      omega
    omega

/-! ## The calls -/

/-- A call an app can make on its ranges, with what `kmalloc` answers during it. -/
inductive Call where
  | map (addr len prot : ℕ) (fixed : Bool) (mem : Bool × Bool)
  | unmap (addr len : ℕ) (mem : Bool)
  | protect (addr len prot : ℕ) (mem : Bool × Bool)
  deriving DecidableEq, Repr

namespace Call

/-- The call: the address it worked at (`none`: it failed) and the address space after it. -/
def exec (us : Us) : Call → Option ℕ × Us
  | map addr len prot fixed mem =>
    let r := uvmMap us addr len prot fixed mem
    (if r.1 = 0 then none else some r.1, r.2)
  | unmap addr len mem =>
    let r := uvmUnmap us addr len mem
    (if r.1 then some addr else none, r.2)
  | protect addr len prot mem =>
    let r := uvmProtect us addr len prot mem
    (if r.1 then some addr else none, r.2)

/-- The length asked for. -/
def len : Call → ℕ
  | map _ len _ _ _ => len
  | unmap _ len _ => len
  | protect _ len _ _ => len

/-- The protection the pages get, `none` when they are unmapped. -/
def newProt : Call → Option ℕ
  | map _ _ prot _ _ => some (prot &&& uvmRWX)
  | unmap _ _ _ => none
  | protect _ _ prot _ => some (prot &&& uvmRWX)

/-- The length does not wrap when it is rounded up to pages.  `uvm_map` refuses such a length
itself. -/
def NoWrap : Call → Prop
  | map _ _ _ _ _ => True
  | unmap _ len _ => len + 4095 < 2 ^ 64
  | protect _ len _ _ => len + 4095 < 2 ^ 64

end Call

/-- A length rounded up to whole pages, as a number of any size. -/
def wholePages (len : ℕ) : ℕ := (len + 4095) / 4096 * 4096

theorem roundPages_eq {len : ℕ} (h : len + 4095 < 2 ^ 64) : roundPages len = wholePages len := by
  unfold roundPages wholePages u64
  rw [Nat.mod_eq_of_lt h]

/-- What a successful call at `a` does to the page map: the pages of the interval get the new
protection, the others keep theirs. -/
def ExactAt (us us' : Us) (a len : ℕ) (prot : Option ℕ) : Prop :=
  ∀ p, pageProt us' p =
    if a ≤ p * 4096 ∧ p * 4096 < a + wholePages len then prot else pageProt us p

section Spec

variable {us us' : Us} {addr len prot : ℕ}

/-- A cut and an addition at the same interval, as `uvm_map` (fixed) and `uvm_protect` do
them. -/
theorem cut_add_spec {us₁ : Us} {n : ℕ} {m₁ : Bool} (h : WF us.vma)
    (ha : addr % 4096 = 0) (hn : n % 4096 = 0) (hn0 : 0 < n) (hreg : inRegion addr n = true)
    (hcut : vmaCut us addr (u64 (addr + n)) m₁ = some us₁) :
    WF us₁.vma ∧
      (∀ a, lookup us₁.vma a = if addr ≤ a ∧ a < addr + n then none else lookup us.vma a) ∧
      (∀ prot m₂ us₂, vmaAdd us₁ addr (u64 (addr + n)) prot m₂ = some us₂ →
        WF us₂.vma ∧ ∀ a, lookup us₂.vma a =
          if addr ≤ a ∧ a < addr + n then some prot else lookup us.vma a) := by
  rw [u64_of_inRegion hreg] at hcut ⊢
  have hr := inRegion_iff.mp hreg
  have hse : addr < addr + n := by omega
  have he : (addr + n) % 4096 = 0 := by omega
  have hvma := vmaCut_vma hcut
  have hwf : WF us₁.vma := hvma ▸ h.cutList hse ha he
  have hlook := fun a => hvma ▸ lookup_cutList hse h.sorted a
  refine ⟨hwf, hlook, fun prot m₂ us₂ hadd => ?_⟩
  have hclear : ∀ v ∈ us₁.vma, v.stop ≤ addr ∨ addr + n ≤ v.start :=
    hvma ▸ cutList_clear h.sorted
  obtain ⟨h1, h2⟩ := vmaAdd_spec hwf hclear hse ha he hr.1 (by omega) hadd
  refine ⟨h1, fun a => ?_⟩
  rw [h2, hlook]
  split_ifs <;> rfl

theorem wholePages_mod (len : ℕ) : wholePages len % 4096 = 0 := Nat.mul_mod_left _ _

theorem wholePages_pos (h : len ≠ 0) : 0 < wholePages len := by
  unfold wholePages
  omega

theorem uvmUnmap_spec (us : Us) (addr len : ℕ) (mem : Bool) (h : WF us.vma) (hw : len + 4095 < 2 ^ 64) :
    WF (uvmUnmap us addr len mem).2.vma ∧
      ((uvmUnmap us addr len mem).1 = true →
        ExactAt us (uvmUnmap us addr len mem).2 addr len none) := by
  unfold uvmUnmap
  rw [roundPages_eq hw]
  dsimp only
  split_ifs with h1 h2
  · exact ⟨h, by simp⟩
  · push Not at h1
    split
    next => exact ⟨h, by simp⟩
    next us₁ hcut =>
      obtain ⟨h3, h4, -⟩ := cut_add_spec h h1.1
        (wholePages_mod len) (wholePages_pos h1.2) h2 hcut
      exact ⟨h3, fun _ p => h4 _⟩
  · exact ⟨h, by simp⟩

theorem uvmProtect_spec (us : Us) (addr len prot : ℕ) (mem : Bool × Bool) (h : WF us.vma) (hw : len + 4095 < 2 ^ 64) :
    WF (uvmProtect us addr len prot mem).2.vma ∧
      ((uvmProtect us addr len prot mem).1 = true →
        ExactAt us (uvmProtect us addr len prot mem).2 addr len (some (prot &&& uvmRWX))) := by
  unfold uvmProtect
  rw [roundPages_eq hw]
  dsimp only
  split_ifs with h1 h2 h3
  · exact ⟨h, by simp⟩
  · push Not at h1
    split
    next => exact ⟨h, by simp⟩
    next us₁ hcut =>
      split
      next hadd =>
        obtain ⟨h3, -⟩ := cut_add_spec h h1.1
          (wholePages_mod len) (wholePages_pos h1.2) h2 hcut
        exact ⟨h3, by simp⟩
      next us₂ hadd =>
        obtain ⟨-, -, h5⟩ := cut_add_spec h h1.1 (wholePages_mod len) (wholePages_pos h1.2) h2 hcut
        obtain ⟨h6, h7⟩ := h5 _ _ _ hadd
        exact ⟨h6, fun _ p => h7 _⟩
  · exact ⟨h, by simp⟩
  · exact ⟨h, by simp⟩

theorem uvmMap_spec (us : Us) (addr len prot : ℕ) (fixed : Bool) (mem : Bool × Bool)
    (h : WF us.vma) :
    WF (uvmMap us addr len prot fixed mem).2.vma ∧
      ((uvmMap us addr len prot fixed mem).1 ≠ 0 →
        ExactAt us (uvmMap us addr len prot fixed mem).2
          (uvmMap us addr len prot fixed mem).1 len (some (prot &&& uvmRWX))) := by
  unfold uvmMap
  dsimp only
  split_ifs with h1 h2 h3 h4
  · exact ⟨h, by simp⟩
  · push Not at h1
    have hw : len + 4095 < 2 ^ 64 := by
      have := h1.2
      simp only [uvmSize] at this
      omega
    rw [roundPages_eq hw] at h3 ⊢
    split
    next => exact ⟨h, by simp⟩
    next us₁ hcut =>
      split
      next hadd =>
        obtain ⟨h3, -⟩ := cut_add_spec h h3.1
          (wholePages_mod len) (wholePages_pos h1.1) h3.2 hcut
        exact ⟨h3, by simp⟩
      next us₂ hadd =>
        obtain ⟨-, -, h5⟩ := cut_add_spec h h3.1 (wholePages_mod len) (wholePages_pos h1.1)
          h3.2 hcut
        obtain ⟨h6, h7⟩ := h5 _ _ _ hadd
        exact ⟨h6, fun _ p => h7 _⟩
  · exact ⟨h, by simp⟩
  · exact ⟨h, by simp⟩
  · push Not at h1
    have hw : len + 4095 < 2 ^ 64 := by
      have := h1.2
      simp only [uvmSize] at this
      omega
    rw [roundPages_eq hw] at h4 ⊢
    obtain ⟨f1, f2, f3⟩ := vmFind_spec h rfl h4
    have hr := inRegion_iff.mp f2
    have hn0 := wholePages_pos h1.1
    have hmod := wholePages_mod len
    rw [u64_of_inRegion f2]
    split
    next => exact ⟨h, by simp⟩
    next us₂ hadd =>
      obtain ⟨h6, h7⟩ := vmaAdd_spec h f3 (by omega) f1 (by omega) hr.1 (by omega) hadd
      exact ⟨h6, fun _ p => h7 _⟩

end Spec

/-- One call that does not wrap: the list keeps its shape, and if the call succeeds it changes
exactly the pages it names. -/
theorem Call.exec_spec {us : Us} (h : WF us.vma) {c : Call} (hc : c.NoWrap) :
    WF (c.exec us).2.vma ∧
      ∀ a, (c.exec us).1 = some a → ExactAt us (c.exec us).2 a c.len c.newProt := by
  cases c with
  | map addr len prot fixed mem =>
    obtain ⟨h1, h2⟩ := uvmMap_spec us addr len prot fixed mem h
    refine ⟨h1, fun a ha => ?_⟩
    simp only [Call.exec, ite_eq_iff, reduceCtorEq, and_false, false_or, Option.some.injEq] at ha
    obtain ⟨h3, rfl⟩ := ha
    exact h2 h3
  | unmap addr len mem =>
    obtain ⟨h1, h2⟩ := uvmUnmap_spec us addr len mem h hc
    refine ⟨h1, fun a ha => ?_⟩
    simp only [Call.exec, ite_eq_iff, reduceCtorEq, and_false, or_false, Option.some.injEq] at ha
    obtain ⟨h3, rfl⟩ := ha
    exact h2 h3
  | protect addr len prot mem =>
    obtain ⟨h1, h2⟩ := uvmProtect_spec us addr len prot mem h hc
    refine ⟨h1, fun a ha => ?_⟩
    simp only [Call.exec, ite_eq_iff, reduceCtorEq, and_false, or_false, Option.some.injEq] at ha
    obtain ⟨h3, rfl⟩ := ha
    exact h2 h3

/-! ## Runs -/

/-- The address space after a sequence of calls. -/
def runCalls (us : Us) (cs : List Call) : Us := cs.foldl (fun us c => (c.exec us).2) us

/-- Every run of calls that do not wrap keeps the shape of the list. -/
theorem wf_runCalls {us : Us} (h : WF us.vma) {cs : List Call} (hcs : ∀ c ∈ cs, c.NoWrap) :
    WF (runCalls us cs).vma := by
  induction cs generalizing us with
  | nil => exact h
  | cons c cs ih =>
    have h1 := (Call.exec_spec h (hcs c (List.mem_cons_self ..))).1
    exact ih h1 fun d hd => hcs d (List.mem_cons_of_mem _ hd)

theorem WF.nil : WF [] := ⟨Sorted.nil, List.Pairwise.nil, by simp, by simp⟩

/-- **The ranges are a page map.**  In every state a run of calls reaches from an empty address
space, with any limits on its ranges, the list has its shape; the next call, if it succeeds,
changes exactly the pages of its interval; and `vm_find` fails only when no gap is long
enough.  No call of the run, nor the next one, wraps its length. -/
theorem ranges_are_page_map (us : Us) (hus : us.vma = []) (cs : List Call)
    (hcs : ∀ c ∈ cs, c.NoWrap) :
    WF (runCalls us cs).vma ∧
      (∀ c : Call, c.NoWrap → ∀ a, (c.exec (runCalls us cs)).1 = some a →
        ExactAt (runCalls us cs) (c.exec (runCalls us cs)).2 a c.len c.newProt) ∧
      ∀ len hint, 0 < len → vmFind (runCalls us cs) len hint = 0 →
        ∀ c, inRegion c len = true →
          ∃ v ∈ (runCalls us cs).vma, v.start < c + len ∧ c < v.stop := by
  have h : WF (runCalls us cs).vma := wf_runCalls (hus ▸ WF.nil) hcs
  exact ⟨h, fun c hc a ha => (Call.exec_spec h hc).2 a ha,
    fun len hint hlen hf c hc => vmFind_complete h hlen hf hc⟩

/-- What `uspace_create` makes: nothing mapped, no limits. -/
def emptyUs : Us := ⟨[], 0, 0, 0⟩

/-- Two pages mapped, then the second one unmapped. -/
def mapUnmap : List Call :=
  [.map uvmBase 8192 3 true (true, true), .unmap (uvmBase + 4096) 4096 true]

theorem ranges_are_page_map_mapUnmap :
    (runCalls emptyUs mapUnmap).vma = [⟨uvmBase, uvmBase + 4096, 3⟩] ∧
      WF (runCalls emptyUs mapUnmap).vma :=
  ⟨by decide +kernel,
    (ranges_are_page_map emptyUs rfl mapUnmap (by simp [mapUnmap, Call.NoWrap])).1⟩

/-- With a length of `2 ^ 64 - 1` the rounded length is `0`: `uvm_unmap` succeeds, unmaps
nothing and leaves the range split in two that touch and have one protection; `uvm_protect`
succeeds and leaves an empty range. -/
theorem wrapped_length_breaks_ranges :
    ((Call.unmap (uvmBase + 4096) (2 ^ 64 - 1) true).exec
        (runCalls emptyUs [.map uvmBase 8192 3 true (true, true)])).1 = some (uvmBase + 4096) ∧
      ¬ Tight (runCalls emptyUs [.map uvmBase 8192 3 true (true, true),
          .unmap (uvmBase + 4096) (2 ^ 64 - 1) true]).vma ∧
      pageProt (runCalls emptyUs [.map uvmBase 8192 3 true (true, true),
          .unmap (uvmBase + 4096) (2 ^ 64 - 1) true]) (uvmBase / 4096 + 1) = some 3 ∧
      ¬ Sorted (runCalls emptyUs [.map uvmBase 8192 3 true (true, true),
          .protect (uvmBase + 4096) (2 ^ 64 - 1) 1 (true, true)]).vma := by
  have h1 : (runCalls emptyUs [.map uvmBase 8192 3 true (true, true),
      .unmap (uvmBase + 4096) (2 ^ 64 - 1) true]).vma =
      [⟨uvmBase, uvmBase + 4096, 3⟩, ⟨uvmBase + 4096, uvmBase + 8192, 3⟩] := by decide +kernel
  have h2 : (runCalls emptyUs [.map uvmBase 8192 3 true (true, true),
      .protect (uvmBase + 4096) (2 ^ 64 - 1) 1 (true, true)]).vma =
      [⟨uvmBase, uvmBase + 4096, 3⟩, ⟨uvmBase + 4096, uvmBase + 4096, 1⟩,
        ⟨uvmBase + 4096, uvmBase + 8192, 3⟩] := by decide +kernel
  refine ⟨by decide +kernel, ?_, by decide +kernel, ?_⟩
  · rw [h1, tight_cons]
    rintro ⟨h, -⟩
    exact h _ (List.mem_cons_self ..) rfl rfl
  · rw [h2]
    intro h
    have := h.nonempty ⟨uvmBase + 4096, uvmBase + 4096, 1⟩ (by simp)
    simp at this

end BananaOS.Uspace
