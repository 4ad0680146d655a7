import Mathlib.Algebra.Order.Ring.Nat
import Mathlib.Logic.Function.Basic
import Mathlib.Data.List.Basic
import Mathlib.Data.Nat.ModEq
import Mathlib.Tactic.Ring

/-!
# Rings

A queue in an array of `N` cells: the first element is at `head`, the next ones follow, and after
the last cell comes the first.  `RingBuf.list` is the queue as a list; every operation is described by
what it does to that list.
-/

namespace BananaOS.Lib

/-- A queue in an array of cells. -/
structure RingBuf (α : Type*) where
  cell : ℕ → α
  head : ℕ
  len : ℕ

namespace RingBuf

variable {α : Type*} (N : ℕ) (r : RingBuf α)

/-- The element `i` from the front. -/
def nth (i : ℕ) : α := r.cell ((r.head + i) % N)

/-- The queue, from the front. -/
def list : List α := (List.range r.len).map (r.nth N)

/-- One more element at the back. -/
def put (a : α) : RingBuf α :=
  { r with cell := Function.update r.cell ((r.head + r.len) % N) a, len := r.len + 1 }

/-- The first `k` elements go. -/
def skip (k : ℕ) : RingBuf α := { r with head := (r.head + k) % N, len := r.len - k }

/-- Another first element. -/
def setFirst (a : α) : RingBuf α := { r with cell := Function.update r.cell r.head a }

/-- The second element becomes the first, and the first the last of a full queue. -/
def skipFull : RingBuf α := { r with head := (r.head + 1) % N }

/-- Nothing, at the first cell. -/
def clear : RingBuf α := { r with head := 0, len := 0 }

/-- The first `k` elements move up by one, over the next one. -/
def closeGap : ℕ → RingBuf α → RingBuf α
  | 0, r => r
  | k + 1, r =>
    closeGap k { r with cell := Function.update r.cell ((r.head + (k + 1)) % N) (r.nth N k) }

/-- The elements are put one by one, as long as there is room. -/
def putAll : RingBuf α → List α → RingBuf α
  | r, [] => r
  | r, a :: l => if r.len < N then putAll (r.put N a) l else r

@[simp] theorem length_list : (r.list N).length = r.len := by
  simp [list]

@[simp] theorem list_clear : (r.clear).list N = [] := by
  simp [list, clear]

@[simp] theorem put_len (a : α) : (r.put N a).len = r.len + 1 := rfl

@[simp] theorem skip_len (k : ℕ) : (r.skip N k).len = r.len - k := rfl

variable {N}

theorem cell_ne {h i j : ℕ} (hi : i < N) (hj : j < N) (hij : i ≠ j) : (h + i) % N ≠ (h + j) % N := by
  intro he
  have hm : i % N = j % N := Nat.ModEq.add_left_cancel' h he
  rw [Nat.mod_eq_of_lt hi, Nat.mod_eq_of_lt hj] at hm
  exact hij hm

theorem list_put (a : α) (h : r.len < N) : (r.put N a).list N = r.list N ++ [a] := by
  unfold list
  rw [put_len, List.range_succ, List.map_append, List.map_singleton]
  congr 1
  · apply List.map_congr_left
    intro i hi
    have hi' : i < r.len := List.mem_range.mp hi
    exact Function.update_of_ne (cell_ne (hi'.trans h) h hi'.ne) a r.cell
  · congr 1
    exact Function.update_self _ a r.cell

theorem list_skip (k : ℕ) : (r.skip N k).list N = (r.list N).drop k := by
  apply List.ext_getElem
  · simp
  · intro i h1 h2
    simp only [list, List.getElem_map, List.getElem_range, List.getElem_drop, nth, skip]
    congr 1
    rw [Nat.mod_add_mod]
    congr 1
    ring

theorem list_take {k : ℕ} (hk : k ≤ r.len) : (List.range k).map (r.nth N) = (r.list N).take k := by
  rw [list, ← List.map_take, List.take_range, min_eq_left hk]

theorem list_cons (hlen : 0 < r.len) (hh : r.head < N) :
    r.list N = r.cell r.head :: (r.list N).tail := by
  obtain ⟨n, hn⟩ : ∃ n, r.len = n + 1 := ⟨r.len - 1, by omega⟩
  unfold list
  rw [hn, List.range_succ_eq_map, List.map_cons, List.tail_cons]
  congr 1
  unfold nth
  rw [Nat.add_zero, Nat.mod_eq_of_lt hh]

theorem list_setFirst (a : α) (hlen : 0 < r.len) (hle : r.len ≤ N) (hh : r.head < N) :
    (r.setFirst a).list N = a :: (r.list N).tail := by
  have hc := list_cons (r.setFirst a) (N := N) hlen hh
  rw [hc]
  congr 1
  · exact Function.update_self _ a r.cell
  · apply List.ext_getElem
    · simp [setFirst]
    · intro i h1 h2
      simp only [List.length_tail, length_list] at h1 h2
      simp only [list, List.getElem_tail, List.getElem_map, List.getElem_range, nth, setFirst]
      refine Function.update_of_ne ?_ a r.cell
      have hne : (r.head + (i + 1)) % N ≠ (r.head + 0) % N := cell_ne (by omega) (by omega) (by omega)
      intro he
      apply hne
      rw [he, Nat.add_zero, Nat.mod_eq_of_lt hh]

/-- In a full queue the first element makes room for a new last one. -/
theorem list_setFirst_skipFull (a : α) (hlen : 0 < r.len) (hfull : r.len = N) (hh : r.head < N) :
    ((r.setFirst a).skipFull N).list N = (r.list N).tail ++ [a] := by
  have hput : (r.setFirst a).skipFull N = (r.skip N 1).put N a := by
    unfold setFirst skipFull skip put
    simp only [RingBuf.mk.injEq, true_and]
    refine ⟨?_, by omega⟩
    rw [Nat.mod_add_mod, show r.head + 1 + (r.len - 1) = r.head + N by omega, Nat.add_mod_right,
      Nat.mod_eq_of_lt hh]
  rw [hput, list_put _ _ (by rw [skip_len]; omega), list_skip, List.drop_one]

@[simp] theorem closeGap_len (k : ℕ) : (r.closeGap N k).len = r.len := by
  induction k generalizing r with
  | zero => rfl
  | succ k ih => rw [closeGap, ih]

theorem nth_closeGap {k i : ℕ} (hk : k < N) (hi : i < N) :
    (r.closeGap N k).nth N i = if 0 < i ∧ i ≤ k then r.nth N (i - 1) else r.nth N i := by
  induction k generalizing r with
  | zero => rw [closeGap, if_neg (by omega)]
  | succ k ih =>
    have hset : ∀ j < N, (RingBuf.mk (Function.update r.cell ((r.head + (k + 1)) % N) (r.nth N k))
        r.head r.len).nth N j = if j = k + 1 then r.nth N k else r.nth N j := by
      intro j hj
      unfold nth
      simp only
      split_ifs with hjk
      · rw [hjk, Function.update_self]
      · rw [Function.update_of_ne (cell_ne hj hk hjk)]
    rw [closeGap, ih _ (by omega), hset i hi, hset (i - 1) (by omega)]
    by_cases hik : i = k + 1
    · subst hik
      rw [if_neg (by omega), if_pos rfl, if_pos (by omega), Nat.add_sub_cancel]
    · by_cases h : 0 < i ∧ i ≤ k
      · rw [if_pos h, if_neg (by omega), if_pos (by omega)]
      · rw [if_neg h, if_neg hik, if_neg (by omega)]

/-- An element goes from the middle of the queue; the others keep their order. -/
theorem list_closeGap_skip {k : ℕ} (hk : k < r.len) (hle : r.len ≤ N) :
    ((r.closeGap N k).skip N 1).list N = (r.list N).eraseIdx k := by
  rw [list_skip]
  apply List.ext_getElem
  · rw [List.length_drop, List.length_eraseIdx, length_list, length_list, closeGap_len, if_pos hk]
  · intro i h1 h2
    rw [List.length_drop, length_list, closeGap_len] at h1
    rw [List.getElem_drop, List.getElem_eraseIdx]
    simp only [list, List.getElem_map, List.getElem_range]
    rw [nth_closeGap r (by omega) (by omega)]
    split_ifs with h3 h4 h5
    · rw [show 1 + i - 1 = i by omega]
    · omega
    · omega
    · rw [Nat.add_comm 1 i]

theorem putAll_len (l : List α) : (r.putAll N l).len = r.len + min l.length (N - r.len) := by
  induction l generalizing r with
  | nil => simp [putAll]
  | cons a l ih =>
    simp only [putAll]
    split_ifs with h
    · rw [ih, put_len, List.length_cons]
      omega
    · rw [List.length_cons]
      omega

theorem list_putAll (l : List α) :
    (r.putAll N l).list N = r.list N ++ l.take (N - r.len) := by
  induction l generalizing r with
  | nil => simp [putAll]
  | cons a l ih =>
    simp only [putAll]
    split_ifs with h
    · obtain ⟨n, hn⟩ : ∃ n, N - r.len = n + 1 := ⟨N - r.len - 1, by omega⟩
      rw [ih, list_put r a h, put_len, hn, List.take_succ_cons, List.append_assoc,
        List.singleton_append, show N - (r.len + 1) = n by omega]
    · rw [show N - r.len = 0 by omega, List.take_zero, List.append_nil]

@[simp] theorem putAll_head (l : List α) : (r.putAll N l).head = r.head := by
  induction l generalizing r with
  | nil => rfl
  | cons a l ih =>
    simp only [putAll]
    split_ifs
    · rw [ih]
      rfl
    · rfl

end RingBuf

end BananaOS.Lib
