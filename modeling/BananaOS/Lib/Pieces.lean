import Mathlib.Algebra.Order.Ring.Nat
import Mathlib.Tactic.Common

/-!
# Lists cut at a separator

`pieces sep l` are the pieces of `l` between separators that are not empty, and `joined sep cs` is the
list that has a separator before each of the pieces `cs`.

* `pieces_append_sep`, `pieces_append_joined`: pieces of what is put together.
* `take_joined`: the front of a joined list is joined again, its last piece cut.
-/

namespace BananaOS.Lib

variable {α : Type*} [BEq α] [LawfulBEq α] {sep : α} {a b l c : List α} {cs : List (List α)}

/-- The pieces between separators that are not empty. -/
def pieces (sep : α) (l : List α) : List (List α) := (l.splitOn sep).filter (· ≠ [])

omit [LawfulBEq α] in
@[simp] theorem pieces_nil : pieces sep ([] : List α) = [] := rfl

theorem pieces_append_sep (a b : List α) :
    pieces sep (a ++ sep :: b) = pieces sep a ++ pieces sep b := by
  rw [pieces, List.splitOn_append_cons_self, List.filter_append, pieces, pieces]

theorem pieces_append_singleton (l : List α) : pieces sep (l ++ [sep]) = pieces sep l := by
  rw [pieces_append_sep, pieces_nil, List.append_nil]

theorem pieces_of_notMem (hl : l ≠ []) (h : sep ∉ l) : pieces sep l = [l] := by
  rw [pieces, List.splitOn_eq_singleton h]
  exact List.filter_cons_of_pos (by simpa using hl)

theorem splitOn_forall_notMem : ∀ c ∈ l.splitOn sep, sep ∉ c := by
  induction l with
  | nil => simp
  | cons x l ih =>
    rw [List.splitOn_cons_eq_if_modifyHead]
    split_ifs with hx
    · simpa using ih
    · have hxs : sep ≠ x := fun h => hx (by simp [h])
      rcases hl : l.splitOn sep with - | ⟨d, ds⟩
      · simp
      · rw [hl] at ih
        obtain ⟨hd, hds⟩ := List.forall_mem_cons.mp ih
        refine List.forall_mem_cons.mpr ⟨?_, hds⟩
        exact List.not_mem_cons_of_ne_of_not_mem hxs hd

omit [LawfulBEq α] in
theorem subset_of_mem_splitOn (h : c ∈ l.splitOn sep) : c ⊆ l := by
  induction l generalizing c with
  | nil =>
    obtain rfl : c = [] := by simpa using h
    exact List.nil_subset _
  | cons x l ih =>
    rw [List.splitOn_cons_eq_if_modifyHead] at h
    split_ifs at h with hx
    · rcases List.mem_cons.mp h with rfl | h
      · exact List.nil_subset _
      · exact List.subset_cons_of_subset _ (ih h)
    · rcases hl : l.splitOn sep with - | ⟨d, ds⟩
      · rw [hl] at h
        exact absurd h List.not_mem_nil
      · rw [hl] at h ih
        rcases List.mem_cons.mp h with rfl | h
        · exact List.cons_subset_cons _ (ih List.mem_cons_self)
        · exact List.subset_cons_of_subset _ (ih (List.mem_cons_of_mem _ h))

/-! ## Joined pieces -/

omit [BEq α] [LawfulBEq α] in
/-- The pieces one after the other, a separator before each. -/
def joined (sep : α) (cs : List (List α)) : List α := cs.flatMap (sep :: ·)

omit [BEq α] [LawfulBEq α] in
@[simp] theorem joined_nil : joined sep [] = [] := rfl

omit [BEq α] [LawfulBEq α] in
@[simp] theorem joined_cons : joined sep (c :: cs) = sep :: (c ++ joined sep cs) := rfl

omit [BEq α] [LawfulBEq α] in
@[simp] theorem joined_append (ds : List (List α)) :
    joined sep (cs ++ ds) = joined sep cs ++ joined sep ds :=
  List.flatMap_append

theorem pieces_append_joined (h : ∀ c ∈ cs, c ≠ [] ∧ sep ∉ c) :
    pieces sep (a ++ joined sep cs) = pieces sep a ++ cs := by
  induction cs generalizing a with
  | nil => simp
  | cons c cs ih =>
    obtain ⟨hc, hsep⟩ := h c List.mem_cons_self
    have hrest := ih (a := a ++ sep :: c) fun d hd => h d (List.mem_cons_of_mem _ hd)
    rw [joined_cons, show a ++ sep :: (c ++ joined sep cs) = a ++ sep :: c ++ joined sep cs by simp,
      hrest, pieces_append_sep, pieces_of_notMem hc hsep, List.append_assoc, List.singleton_append]

omit [BEq α] [LawfulBEq α] in
/-- The front of a joined list: some of the pieces, and perhaps a part of the next. -/
theorem take_joined (n : ℕ) (cs : List (List α)) :
    (∃ init, init <+: cs ∧ (joined sep cs).take n = joined sep init) ∨
      ∃ init c p, init ++ [c] <+: cs ∧ p <+: c ∧
        (joined sep cs).take n = joined sep (init ++ [p]) := by
  induction cs generalizing n with
  | nil => exact .inl ⟨[], List.prefix_rfl, by simp⟩
  | cons c cs ih =>
    rcases n with - | n
    · exact .inl ⟨[], List.nil_prefix, by simp⟩
    rw [joined_cons, List.take_succ_cons, List.take_append]
    rcases Nat.lt_or_ge n c.length with hn | hn
    · refine .inr ⟨[], c, c.take n, by simp, List.take_prefix .., ?_⟩
      rw [Nat.sub_eq_zero_of_le (Nat.le_of_lt hn)]
      simp
    · rw [List.take_of_length_le hn]
      rcases ih (n - c.length) with ⟨init, hinit, htake⟩ | ⟨init, d, p, hinit, hp, htake⟩
      · exact .inl ⟨c :: init, List.cons_prefix_cons.mpr ⟨rfl, hinit⟩, by rw [htake, joined_cons]⟩
      · refine .inr ⟨c :: init, d, p, List.cons_prefix_cons.mpr ⟨rfl, hinit⟩, hp, ?_⟩
        rw [htake, List.cons_append, joined_cons]

end BananaOS.Lib
