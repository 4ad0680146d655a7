import Mathlib.Algebra.Order.Ring.Nat
import Mathlib.Data.List.Basic
import Mathlib.Data.List.GetD
import Mathlib.Data.Nat.Basic
import Mathlib.Tactic.Common

/-!
# Lines and offsets

A text whose lines are joined by a separator, and the places in it.  A place is a line `y` and a
position `x` in it, or the number of elements before it (`offset`).

* `joined_eq`: the text around one line, and `take_offset`, `drop_offset`: the text before and
  after a place, in terms of the lines.  Every edit of a text at places is an edit of its lines
  through these two.
* `offset_lt_iff`: the order of two places.
* `joined_cut`, `joined_inserted`, `joined_broken`: what lies between two places is taken out, and
  elements or a line break are put in at a place.
* `splitOn_joined`, `splitOn_spec`: the lines can be had back from the text; `count_joined`: how many they are.
* `sinceSep_take_offset`, `untilSep_drop_offset`: what stands before and after a place in its
  line, seen in the text alone.
-/

namespace BananaOS.Lib.Lines

variable {α : Type*} {sep : α} {L A B : List (List α)} {l : List α} {x y x' y' : ℕ}

/-- Lines with the separator after each. -/
def closed (sep : α) (A : List (List α)) : List α := A.flatMap (· ++ [sep])

/-- Lines with the separator before each. -/
def opened (sep : α) (B : List (List α)) : List α := B.flatMap (sep :: ·)

/-- Lines with the separator between them. -/
def joined (sep : α) : List (List α) → List α
  | [] => []
  | l :: ls => l ++ opened sep ls

/-- The number of elements before the position `x` of line `y`. -/
def offset (sep : α) (L : List (List α)) (y x : ℕ) : ℕ := (closed sep (L.take y)).length + x

/-- No line holds the separator. -/
def Clean (sep : α) (L : List (List α)) : Prop := ∀ l ∈ L, sep ∉ l

/-- The position `x` of line `y` is in the text. -/
def Place (L : List (List α)) (y x : ℕ) : Prop := y < L.length ∧ x ≤ (L.getD y []).length

@[simp] theorem closed_nil : closed sep [] = [] := rfl

@[simp] theorem opened_nil : opened sep [] = [] := rfl

@[simp] theorem closed_cons : closed sep (l :: A) = l ++ sep :: closed sep A := by
  simp [closed]

@[simp] theorem opened_cons : opened sep (l :: B) = sep :: (l ++ opened sep B) := by
  simp [opened]

theorem closed_append : closed sep (A ++ B) = closed sep A ++ closed sep B := by
  simp [closed]

theorem joined_append_cons (A : List (List α)) (l : List α) (B : List (List α)) :
    joined sep (A ++ l :: B) = closed sep A ++ (l ++ opened sep B) := by
  induction A with
  | nil => rfl
  | cons a A ih =>
    have hsep : ∀ C : List (List α), C ≠ [] → opened sep C = sep :: joined sep C := by
      intro C hC
      cases C with
      | nil => exact absurd rfl hC
      | cons c C => rw [opened_cons, joined]
    rw [List.cons_append, joined, hsep _ (by simp), ih, closed_cons]
    simp

theorem eq_take_cons_drop (h : y < L.length) : L = L.take y ++ L.getD y [] :: L.drop (y + 1) := by
  conv_lhs => rw [← List.take_append_drop y L, List.drop_eq_getElem_cons h]
  rw [List.getD_eq_getElem _ _ h]

theorem joined_eq (h : y < L.length) :
    joined sep L = closed sep (L.take y) ++ (L.getD y [] ++ opened sep (L.drop (y + 1))) := by
  conv_lhs => rw [eq_take_cons_drop h]
  exact joined_append_cons _ _ _

theorem take_offset (h : Place L y x) :
    (joined sep L).take (offset sep L y x) = closed sep (L.take y) ++ (L.getD y []).take x := by
  rw [joined_eq h.1, offset, List.take_length_add_append, List.take_append_of_le_length h.2]

theorem drop_offset (h : Place L y x) :
    (joined sep L).drop (offset sep L y x)
      = (L.getD y []).drop x ++ opened sep (L.drop (y + 1)) := by
  rw [joined_eq h.1, offset, List.drop_length_add_append, List.drop_append_of_le_length h.2]

theorem offset_le (h : Place L y x) : offset sep L y x ≤ (joined sep L).length := by
  rw [joined_eq h.1, offset, List.length_append, List.length_append]
  have := h.2
  omega

theorem offset_eq_add : offset sep L y x = offset sep L y 0 + x := rfl

theorem offset_succ (h : y < L.length) :
    offset sep L (y + 1) 0 = offset sep L y (L.getD y []).length + 1 := by
  have ht : L.take (y + 1) = L.take y ++ [L.getD y []] := by
    rw [List.getD_eq_getElem _ _ h, List.take_succ_eq_append_getElem h]
  rw [offset, offset, ht, closed_append]
  simp
  omega

theorem offset_lt_of_line_lt (h : Place L y x) (hlt : y < y') (h' : y' < L.length) :
    offset sep L y x < offset sep L y' 0 := by
  induction y' with
  | zero => omega
  | succ k ih =>
    rw [offset_succ (by omega)]
    rcases Nat.lt_or_ge y k with hk | hk
    · have := ih hk (by omega)
      rw [offset_eq_add (x := (L.getD k []).length)]
      omega
    · obtain rfl : y = k := by omega
      have := h.2
      rw [offset_eq_add (x := x), offset_eq_add (x := (L.getD y []).length)]
      omega

/-- Places in the order of lines, and then of positions. -/
theorem offset_lt_iff (h : Place L y x) (h' : Place L y' x') :
    offset sep L y x < offset sep L y' x' ↔ y < y' ∨ (y = y' ∧ x < x') := by
  rcases Nat.lt_trichotomy y y' with hlt | rfl | hgt
  · have : offset sep L y x < offset sep L y' 0 := offset_lt_of_line_lt h hlt h'.1
    have hx : offset sep L y' x' = offset sep L y' 0 + x' := rfl
    omega
  · have h1 : offset sep L y x = offset sep L y 0 + x := rfl
    have h2 : offset sep L y x' = offset sep L y 0 + x' := rfl
    omega
  · have : offset sep L y' x' < offset sep L y 0 := offset_lt_of_line_lt h' hgt h.1
    have hx : offset sep L y x = offset sep L y 0 + x := rfl
    omega

theorem offset_inj (h : Place L y x) (h' : Place L y' x') :
    offset sep L y x = offset sep L y' x' ↔ x = x' ∧ y = y' := by
  have h1 : offset sep L y x < offset sep L y' x' ↔ _ := offset_lt_iff h h'
  have h2 : offset sep L y' x' < offset sep L y x ↔ _ := offset_lt_iff h' h
  omega

theorem Clean.getD (h : Clean sep L) (y : ℕ) : sep ∉ L.getD y [] := by
  rcases Nat.lt_or_ge y L.length with hy | hy
  · rw [List.getD_eq_getElem _ _ hy]
    exact h _ (List.getElem_mem hy)
  · rw [List.getD_eq_default _ _ hy]
    exact List.not_mem_nil

/-! ## Edits of lines -/

/-- The lines without what lies between two places. -/
def cut (L : List (List α)) (y x y' x' : ℕ) : List (List α) :=
  L.take y ++ ((L.getD y []).take x ++ (L.getD y' []).drop x') :: L.drop (y' + 1)

/-- The lines with `r` put in at a place. -/
def inserted (L : List (List α)) (y x : ℕ) (r : List α) : List (List α) :=
  L.set y ((L.getD y []).take x ++ r ++ (L.getD y []).drop x)

/-- The lines with one of them broken in two. -/
def broken (L : List (List α)) (y x : ℕ) : List (List α) :=
  L.take y ++ (L.getD y []).take x :: (L.getD y []).drop x :: L.drop (y + 1)

theorem take_append_of_eq {y : ℕ} (h : y ≤ L.length) (B : List (List α)) :
    (L.take y ++ B).take y = L.take y :=
  List.take_left' (List.length_take_of_le h)

theorem getD_append_of_eq {y : ℕ} (h : y ≤ L.length) (l : List α) (B : List (List α)) :
    (L.take y ++ l :: B).getD y [] = l := by
  have hy : (L.take y).length = y := List.length_take_of_le h
  rw [List.getD_append_right _ _ _ _ (Nat.le_of_eq hy), hy, Nat.sub_self, List.getD_cons_zero]

theorem joined_cut (h : Place L y x) (h' : Place L y' x') :
    joined sep (cut L y x y' x')
      = (joined sep L).take (offset sep L y x) ++ (joined sep L).drop (offset sep L y' x') := by
  rw [cut, joined_append_cons, take_offset h, drop_offset h']
  simp

theorem offset_cut (h : Place L y x) : offset sep (cut L y x y' x') y x = offset sep L y x := by
  rw [offset, cut, take_append_of_eq (Nat.le_of_lt h.1), offset]

theorem place_cut (h : Place L y x) : Place (cut L y x y' x') y x := by
  have hx := h.2
  refine ⟨?_, ?_⟩
  · have := h.1
    simp [cut]
    omega
  · rw [cut, getD_append_of_eq (Nat.le_of_lt h.1), List.length_append, List.length_take]
    omega

theorem Clean.cut (hc : Clean sep L) (y x y' x' : ℕ) : Clean sep (cut L y x y' x') := by
  intro l hl
  rw [Lines.cut, List.mem_append, List.mem_cons] at hl
  rcases hl with hl | rfl | hl
  · exact hc l (List.mem_of_mem_take hl)
  · rw [List.mem_append]
    rintro (hm | hm)
    · exact hc.getD y (List.mem_of_mem_take hm)
    · exact hc.getD y' (List.mem_of_mem_drop hm)
  · exact hc l (List.mem_of_mem_drop hl)

theorem joined_inserted (h : Place L y x) (r : List α) :
    joined sep (inserted L y x r)
      = (joined sep L).take (offset sep L y x)
        ++ (r ++ (joined sep L).drop (offset sep L y x)) := by
  rw [inserted, List.set_eq_take_append_cons_drop, if_pos h.1, joined_append_cons, take_offset h,
    drop_offset h]
  simp

theorem offset_inserted (r : List α) :
    offset sep (inserted L y x r) y (x + r.length) = offset sep L y x + r.length := by
  rw [offset, inserted, List.take_set_of_le le_rfl, offset]
  omega

theorem place_inserted (h : Place L y x) (r : List α) :
    Place (inserted L y x r) y (x + r.length) := by
  have hx := h.2
  refine ⟨by simpa [inserted] using h.1, ?_⟩
  rw [inserted, List.set_eq_take_append_cons_drop, if_pos h.1, getD_append_of_eq (Nat.le_of_lt h.1)]
  simp only [List.length_append, List.length_take, List.length_drop]
  omega

theorem Clean.inserted (hc : Clean sep L) {r : List α} (hr : sep ∉ r) (y x : ℕ) :
    Clean sep (inserted L y x r) := by
  intro l hl
  rcases List.mem_or_eq_of_mem_set hl with hl | rfl
  · exact hc l hl
  · simp only [List.mem_append, not_or]
    exact ⟨⟨fun hm => hc.getD y (List.mem_of_mem_take hm), hr⟩,
      fun hm => hc.getD y (List.mem_of_mem_drop hm)⟩

theorem joined_broken (h : Place L y x) :
    joined sep (broken L y x)
      = (joined sep L).take (offset sep L y x)
        ++ (sep :: (joined sep L).drop (offset sep L y x)) := by
  rw [broken, joined_append_cons, take_offset h, drop_offset h]
  simp

theorem offset_broken (h : Place L y x) :
    offset sep (broken L y x) (y + 1) 0 = offset sep L y x + 1 := by
  have hx := h.2
  have ht : (broken L y x).take (y + 1) = L.take y ++ [(L.getD y []).take x] := by
    rw [broken, List.append_cons]
    exact List.take_left' (by simp [(Nat.le_of_lt h.1)])
  rw [offset, ht, closed_append, offset]
  simp only [closed_cons, closed_nil, List.length_append, List.length_take, List.length_cons,
    List.length_nil]
  omega

theorem place_broken (h : Place L y x) : Place (broken L y x) (y + 1) 0 := by
  refine ⟨?_, Nat.zero_le _⟩
  have := h.1
  simp [broken]
  omega

theorem Clean.broken (hc : Clean sep L) (y x : ℕ) : Clean sep (broken L y x) := by
  intro l hl
  simp only [Lines.broken, List.mem_append, List.mem_cons] at hl
  rcases hl with hl | rfl | rfl | hl
  · exact hc l (List.mem_of_mem_take hl)
  · exact fun hm => hc.getD y (List.mem_of_mem_take hm)
  · exact fun hm => hc.getD y (List.mem_of_mem_drop hm)
  · exact hc l (List.mem_of_mem_drop hl)

section DecidableEq

variable [DecidableEq α]

theorem splitOn_joined (hne : L ≠ []) (h : Clean sep L) : (joined sep L).splitOn sep = L := by
  induction L with
  | nil => exact absurd rfl hne
  | cons l ls ih =>
    have hl : sep ∉ l := h l List.mem_cons_self
    cases ls with
    | nil => rw [joined, opened_nil, List.append_nil, List.splitOn_eq_singleton hl]
    | cons m ms =>
      have hrest : opened sep (m :: ms) = sep :: joined sep (m :: ms) := by
        rw [opened_cons, joined]
      rw [joined, hrest, List.splitOn_append_cons_self, List.splitOn_eq_singleton hl,
        ih (by simp) fun k hk => h k (List.mem_cons_of_mem _ hk)]
      rfl

/-- Every text is made of lines. -/
theorem splitOn_spec (sep : α) (s : List α) :
    s.splitOn sep ≠ [] ∧ Clean sep (s.splitOn sep) ∧ joined sep (s.splitOn sep) = s := by
  refine ⟨List.splitOn_ne_nil _ _, ?_⟩
  induction s with
  | nil =>
    rw [List.splitOn_nil]
    exact ⟨fun l hl => by simp [List.mem_singleton.mp hl], rfl⟩
  | cons b s ih =>
    obtain ⟨hc, hj⟩ := ih
    obtain ⟨l, ls, hls⟩ := List.exists_cons_of_ne_nil (List.splitOn_ne_nil sep s)
    rw [List.splitOn_cons_eq_if_modifyHead, hls]
    rw [hls] at hc hj
    split_ifs with hb
    · refine ⟨fun k hk => ?_, ?_⟩
      · rcases List.mem_cons.mp hk with rfl | hk
        · exact List.not_mem_nil
        · exact hc k hk
      · rw [← hj, beq_iff_eq.mp hb, joined, opened_cons, joined, List.nil_append]
    · refine ⟨fun k hk => ?_, ?_⟩
      · rcases List.mem_cons.mp hk with rfl | hk
        · rw [List.mem_cons, not_or]
          exact ⟨fun he => hb (beq_iff_eq.mpr he.symm), hc l List.mem_cons_self⟩
        · exact hc k (List.mem_cons_of_mem _ hk)
      · rw [List.modifyHead_cons, ← hj, joined, joined, List.cons_append]

theorem count_opened (h : Clean sep B) : (opened sep B).count sep = B.length := by
  induction B with
  | nil => rfl
  | cons l ls ih =>
    rw [opened_cons, List.count_cons_self, List.count_append,
      List.count_eq_zero_of_not_mem (h l List.mem_cons_self),
      ih fun k hk => h k (List.mem_cons_of_mem _ hk)]
    simp

theorem count_closed (h : Clean sep A) : (closed sep A).count sep = A.length := by
  induction A with
  | nil => rfl
  | cons l ls ih =>
    rw [closed_cons, List.count_append, List.count_cons_self,
      List.count_eq_zero_of_not_mem (h l List.mem_cons_self),
      ih fun k hk => h k (List.mem_cons_of_mem _ hk)]
    simp

/-- One line more than separators. -/
theorem count_joined (hne : L ≠ []) (h : Clean sep L) : (joined sep L).count sep + 1 = L.length := by
  cases L with
  | nil => exact absurd rfl hne
  | cons l ls =>
    rw [joined, List.count_append, List.count_eq_zero_of_not_mem (h l List.mem_cons_self),
      count_opened fun k hk => h k (List.mem_cons_of_mem _ hk)]
    simp

theorem count_take_offset (hc : Clean sep L) (h : Place L y x) :
    ((joined sep L).take (offset sep L y x)).count sep = y := by
  rw [take_offset h, List.count_append, count_closed fun l hl => hc l (List.mem_of_mem_take hl),
    List.count_eq_zero_of_not_mem fun hm => hc.getD y (List.mem_of_mem_take hm),
    List.length_take_of_le (Nat.le_of_lt h.1), Nat.add_zero]

/-- The elements since the last separator before a place. -/
def sinceSep (sep : α) (s : List α) : List α := (s.reverse.takeWhile (· ≠ sep)).reverse

/-- The elements up to the first separator after a place. -/
def untilSep (sep : α) (s : List α) : List α := s.takeWhile (· ≠ sep)

theorem untilSep_append_opened (h : sep ∉ l) : untilSep sep (l ++ opened sep B) = l := by
  have hall : ∀ b ∈ l, decide (b ≠ sep) = true := by
    intro b hb
    simpa using fun he : b = sep => h (he ▸ hb)
  rw [untilSep, List.takeWhile_append_of_pos hall]
  cases B with
  | nil => simp
  | cons b B => simp

theorem sinceSep_closed_append (h : sep ∉ l) : sinceSep sep (closed sep A ++ l) = l := by
  have hall : ∀ b ∈ l.reverse, decide (b ≠ sep) = true := by
    intro b hb
    simpa using fun he : b = sep => h (he ▸ List.mem_reverse.mp hb)
  rw [sinceSep, List.reverse_append, List.takeWhile_append_of_pos hall]
  rcases List.eq_nil_or_concat A with rfl | ⟨A', a, rfl⟩
  · simp
  · rw [List.concat_eq_append, closed_append]
    simp

theorem sinceSep_take_offset (hc : Clean sep L) (h : Place L y x) :
    sinceSep sep ((joined sep L).take (offset sep L y x)) = (L.getD y []).take x := by
  rw [take_offset h]
  exact sinceSep_closed_append fun hm => hc.getD y (List.mem_of_mem_take hm)

theorem untilSep_drop_offset (hc : Clean sep L) (h : Place L y x) :
    untilSep sep ((joined sep L).drop (offset sep L y x)) = (L.getD y []).drop x := by
  rw [drop_offset h]
  exact untilSep_append_opened fun hm => hc.getD y (List.mem_of_mem_drop hm)

end DecidableEq

end BananaOS.Lib.Lines
