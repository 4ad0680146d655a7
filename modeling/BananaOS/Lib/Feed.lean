import Mathlib.Algebra.Order.Ring.Nat
import Mathlib.Data.List.GetD
import Mathlib.Data.Vector.Basic
import Mathlib.Logic.Function.Iterate
import Mathlib.Tactic.Common

/-!
# Streams taken in by blocks

A step `f` takes in blocks of `B` elements.  `feed B f (s, r)` takes in a list one element after the
other, where `r` is what is there of the next block; so a list in pieces is taken in as the whole is
(`feed_append`), and the lemmas say what whole pieces do: one that does not fill the block
(`feed_short`), one that fills it (`feed_fill`), a list of whole blocks (`feed_blocks`).

* `overwrite`: `memcpy` into an array of fixed size.
* `repeatUntil`: a loop that ends at the first state that is as it should be.
-/

namespace BananaOS.Lib

variable {σ β γ : Type*} {B : ℕ} {f : σ → List β → σ} {s : σ} {r l : List β} {p : σ × List β}

/-- One more element of the next block. -/
def takeIn (B : ℕ) (f : σ → List β → σ) (p : σ × List β) (b : β) : σ × List β :=
  if p.2.length + 1 = B then (f p.1 (p.2 ++ [b]), []) else (p.1, p.2 ++ [b])

/-- A list taken in element by element. -/
def feed (B : ℕ) (f : σ → List β → σ) (p : σ × List β) (l : List β) : σ × List β :=
  l.foldl (takeIn B f) p

@[simp] theorem feed_nil : feed B f p [] = p := rfl

theorem feed_append (l m : List β) :
    feed B f p (l ++ m) = feed B f (feed B f p l) m :=
  List.foldl_append

theorem feed_short (h : r.length + l.length < B) : feed B f (s, r) l = (s, r ++ l) := by
  induction l generalizing r with
  | nil => simp
  | cons b l ih =>
    rw [List.length_cons] at h
    have hb : takeIn B f (s, r) b = (s, r ++ [b]) := if_neg (by dsimp only; omega)
    have hrest : (r ++ [b]).length + l.length < B := by
      rw [List.length_append, List.length_singleton]
      omega
    rw [feed, List.foldl_cons, hb, ← feed, ih hrest, List.append_assoc, List.singleton_append]

theorem feed_fill (hl : l ≠ []) (h : r.length + l.length = B) :
    feed B f (s, r) l = (f s (r ++ l), []) := by
  obtain ⟨init, b, rfl⟩ := (List.eq_nil_or_concat' l).resolve_left hl
  rw [List.length_append, List.length_singleton] at h
  have hinit : r.length + init.length < B := by omega
  rw [feed_append, feed_short hinit, feed, List.foldl_cons, List.foldl_nil, takeIn,
    if_pos (by dsimp only; rw [List.length_append]; omega), List.append_assoc]

/-- How much there is of the next block. -/
theorem length_feed (h : p.2.length < B) :
    (feed B f p l).2.length = (p.2.length + l.length) % B := by
  induction l generalizing p with
  | nil => exact (Nat.mod_eq_of_lt h).symm
  | cons b l ih =>
    rw [feed, List.foldl_cons, ← feed, List.length_cons]
    have htake : (takeIn B f p b).2.length = (p.2.length + 1) % B := by
      rw [takeIn]
      split_ifs with hb
      · rw [hb, Nat.mod_self, List.length_nil]
      · rw [List.length_append, List.length_singleton, Nat.mod_eq_of_lt (by omega)]
    rw [ih (htake ▸ Nat.mod_lt _ (Nat.zero_lt_of_lt h)), htake, Nat.mod_add_mod]
    congr 1
    omega

/-- The first `n` blocks of a list, one after the other. -/
def blocks (B : ℕ) (f : σ → List β → σ) (s : σ) (l : List β) (n : ℕ) : σ :=
  (List.range n).foldl (fun s i => f s ((l.drop (B * i)).take B)) s

theorem blocks_succ (n : ℕ) :
    blocks B f s l (n + 1) = f (blocks B f s l n) ((l.drop (B * n)).take B) := by
  rw [blocks, List.range_succ, List.foldl_append, List.foldl_cons, List.foldl_nil, blocks]

theorem feed_blocks (hB : 0 < B) {n : ℕ} (h : B * n ≤ l.length) :
    feed B f (s, []) (l.take (B * n)) = (blocks B f s l n, []) := by
  induction n with
  | zero => simp [blocks]
  | succ n ih =>
    rw [Nat.mul_succ] at h
    have hlen : ((l.drop (B * n)).take B).length = B := by
      rw [List.length_take, List.length_drop]
      omega
    have hne : (l.drop (B * n)).take B ≠ [] := List.ne_nil_of_length_pos (by omega)
    rw [Nat.mul_succ, List.take_add, feed_append, ih (by omega),
      feed_fill hne (by rw [hlen, List.length_nil, Nat.zero_add]), List.nil_append, blocks_succ]

/-- What holds between two steps holds between two streams. -/
theorem feed_rel {τ : Type*} {g : τ → List β → τ} {R : σ → τ → Prop} {t : τ}
    (hstep : ∀ s t b, b.length = B → R s t → R (f s b) (g t b)) (h : R s t) (l : List β) :
    R (feed B f (s, r) l).1 (feed B g (t, r) l).1 ∧
      (feed B f (s, r) l).2 = (feed B g (t, r) l).2 := by
  induction l generalizing s t r with
  | nil => exact ⟨h, rfl⟩
  | cons b l ih =>
    rw [feed, feed, List.foldl_cons, List.foldl_cons, takeIn, takeIn]
    dsimp only
    split_ifs with hb
    · exact ih (hstep s t _ (by rw [List.length_append, List.length_singleton, hb]) h)
    · exact ih h

/-- The loop `while (len >= B)`: the state after the whole blocks of a list, and what is left. -/
def wholeLoop (B : ℕ) (f : σ → List β → σ) (s : σ) (p : List β) : σ × List β :=
  if 0 < B ∧ B ≤ p.length then wholeLoop B f (f s (p.take B)) (p.drop B) else (s, p)
termination_by p.length
decreasing_by
  have := ‹0 < B ∧ B ≤ p.length›
  rw [List.length_drop]
  omega

theorem feed_first (hB : 0 < B) (h : B ≤ l.length) :
    feed B f (s, []) l = feed B f (f s (l.take B), []) (l.drop B) := by
  have hlen : (l.take B).length = B := by
    rw [List.length_take]
    exact min_eq_left h
  have hne : l.take B ≠ [] := List.ne_nil_of_length_pos (by omega)
  conv_lhs => rw [← List.take_append_drop B l, feed_append]
  rw [feed_fill hne (by rw [hlen, List.length_nil, Nat.zero_add]), List.nil_append]

theorem feed_wholeLoop (hB : 0 < B) (s : σ) (p : List β) :
    feed B f (s, []) p = wholeLoop B f s p ∧ (wholeLoop B f s p).2.length < B := by
  induction s, p using wholeLoop.induct (B := B) (f := f) with
  | case1 s p hp ih =>
    rw [wholeLoop, if_pos hp, feed_first hB hp.2]
    exact ih
  | case2 s p hp =>
    have hp' : p.length < B := by
      by_contra h
      exact hp ⟨hB, Nat.le_of_not_lt h⟩
    rw [wholeLoop, if_neg hp, feed_short (by simpa using hp'), List.nil_append]
    exact ⟨rfl, hp'⟩

/-! ## Arrays of fixed size -/

/-- `src` copied to `o`. -/
def overwrite {n : ℕ} (b : Vector β n) (o : ℕ) (src : List β) : Vector β n :=
  b.mapIdx fun i x => if o ≤ i then src.getD (i - o) x else x

theorem toList_overwrite {n o : ℕ} (b : Vector β n) (src : List β) (h : o + src.length ≤ n) :
    (overwrite b o src).toList = b.toList.take o ++ (src ++ b.toList.drop (o + src.length)) := by
  refine List.ext_getElem (by simp; omega) fun i h1 h2 => ?_
  rw [Vector.getElem_toList]
  simp only [overwrite, Vector.getElem_mapIdx]
  rcases Nat.lt_or_ge i o with ho | ho
  · rw [if_neg (by omega), List.getElem_append_left (by simp; omega),
      List.getElem_take, Vector.getElem_toList]
  rw [if_pos ho, List.getElem_append_right (by simp; omega)]
  rcases Nat.lt_or_ge (i - o) src.length with hsrc | hsrc
  · rw [List.getD_eq_getElem _ _ hsrc, List.getElem_append_left (by simp; omega)]
    congr 1
    simp
    omega
  · rw [List.getD_eq_default _ _ hsrc, List.getElem_append_right (by simp; omega),
      List.getElem_drop, Vector.getElem_toList]
    congr 1
    simp
    omega

theorem take_overwrite {n o : ℕ} (b : Vector β n) (src : List β) (h : o + src.length ≤ n) :
    (overwrite b o src).toList.take (o + src.length) = b.toList.take o ++ src := by
  have hlen : (b.toList.take o ++ src).length = o + src.length := by
    simp
    omega
  rw [toList_overwrite b src h, ← List.append_assoc, ← hlen, List.take_left]

/-! ## A loop with an end -/

/-- The loop `while (!done) step`, with at most `n` turns. -/
def repeatUntil (done : γ → Bool) (step : γ → γ) : ℕ → γ → Option γ
  | 0, c => if done c then some c else none
  | n + 1, c => if done c then some c else repeatUntil done step n (step c)

/-- The loop ends at the first state that is done. -/
theorem repeatUntil_eq {done : γ → Bool} {step : γ → γ} {n k : ℕ} {c : γ} (hk : k ≤ n)
    (hbefore : ∀ j < k, done (step^[j] c) = false) (hdone : done (step^[k] c) = true) :
    repeatUntil done step n c = some (step^[k] c) := by
  induction k generalizing n c with
  | zero =>
    have hc : done c = true := hdone
    cases n <;> rw [repeatUntil, if_pos hc, Function.iterate_zero_apply]
  | succ k ih =>
    obtain ⟨n, rfl⟩ : ∃ n', n = n' + 1 := ⟨n - 1, by omega⟩
    have hc : done c = false := hbefore 0 (by omega)
    rw [repeatUntil, hc, if_neg (by decide), Function.iterate_succ_apply]
    exact ih (by omega) (fun j hj => hbefore (j + 1) (by omega)) hdone

/-! ## Loops over blocks -/

/-- The loop `while (len)` that adds a stream of blocks `ks` to a text, from block `c` on. -/
def xorLoop (B : ℕ) (ks : ℕ → List UInt8) (c : ℕ) (p : List UInt8) : List UInt8 :=
  if 0 < B ∧ p ≠ [] then
    List.zipWith (· ^^^ ·) (p.take B) (ks c) ++ xorLoop B ks (c + 1) (p.drop B)
  else []
termination_by p.length
decreasing_by
  have := List.length_pos_iff.mpr ‹0 < B ∧ p ≠ []›.2
  rw [List.length_drop]
  omega

/-- The loop `while (len)` that takes in a text block by block, the last one as it is. -/
def blockLoop (B : ℕ) (f : σ → List β → σ) (s : σ) (p : List β) : σ :=
  if 0 < B ∧ p ≠ [] then blockLoop B f (f s (p.take B)) (p.drop B) else s
termination_by p.length
decreasing_by
  have := List.length_pos_iff.mpr ‹0 < B ∧ p ≠ []›.2
  rw [List.length_drop]
  omega

theorem blockLoop_nil (s : σ) : blockLoop B f s [] = s := by
  rw [blockLoop, if_neg fun h => h.2 rfl]

theorem blockLoop_step (hB : 0 < B) (s : σ) (h : l ≠ []) :
    blockLoop B f s l = blockLoop B f (f s (l.take B)) (l.drop B) := by
  rw [blockLoop, if_pos ⟨hB, h⟩]

/-- The loop takes in the whole blocks, and then what is left. -/
theorem blockLoop_eq_feed (hB : 0 < B) (s : σ) (p : List β) : blockLoop B f s p =
    if (feed B f (s, []) p).2 = [] then (feed B f (s, []) p).1
    else f (feed B f (s, []) p).1 (feed B f (s, []) p).2 := by
  induction hn : p.length using Nat.strong_induction_on generalizing s p with
  | _ n ih =>
    rcases eq_or_ne p [] with rfl | hp
    · rw [blockLoop_nil, feed_nil, if_pos rfl]
    · have hpos := List.length_pos_iff.mpr hp
      rw [blockLoop_step hB s hp]
      rcases Nat.lt_or_ge p.length B with h | h
      · rw [List.drop_eq_nil_of_le h.le, List.take_of_length_le h.le, blockLoop_nil,
          feed_short (by simpa using h), List.nil_append, if_neg hp]
      · rw [feed_first hB h]
        exact ih _ (by rw [List.length_drop]; omega) _ _ rfl

/-- The zeros behind a list up to a whole number of blocks of 16 bytes. -/
def padding (l : List UInt8) : List UInt8 := List.replicate ((16 - l.length % 16) % 16) 0

/-- Each byte has the byte of the stream at its place added. -/
theorem getElem?_xorLoop {ks : ℕ → List UInt8} (hB : 0 < B) (hks : ∀ c, (ks c).length = B) (c : ℕ)
    (p : List UInt8) (i : ℕ) :
    (xorLoop B ks c p)[i]? = p[i]?.map (· ^^^ (ks (c + i / B)).getD (i % B) 0) := by
  induction hn : p.length using Nat.strong_induction_on generalizing p c i with
  | _ n ih =>
    rw [xorLoop]
    split_ifs with h
    · have hpos := List.length_pos_iff.mpr h.2
      have hlen : (List.zipWith (· ^^^ ·) (p.take B) (ks c)).length = min B p.length := by
        rw [List.length_zipWith, List.length_take, hks, min_assoc, min_comm p.length, ← min_assoc,
          min_self]
      rcases Nat.lt_or_ge i (min B p.length) with hi | hi
      · have hiB : i < B := by omega
        have hip : i < p.length := by omega
        rw [List.getElem?_append_left (by rwa [hlen]), List.getElem?_eq_getElem (by rwa [hlen]),
          List.getElem_zipWith, List.getElem_take, List.getElem?_eq_getElem hip, Option.map_some,
          Nat.div_eq_of_lt hiB, Nat.mod_eq_of_lt hiB, Nat.add_zero,
          List.getD_eq_getElem _ _ (by rwa [hks])]
      · rw [List.getElem?_append_right (by rwa [hlen]), hlen,
          ih (p.drop B).length (by rw [List.length_drop]; omega) (c + 1) (p.drop B) _ rfl,
          List.getElem?_drop]
        rcases Nat.lt_or_ge p.length B with hp | hp
        · rw [List.getElem?_eq_none (by omega), List.getElem?_eq_none (by omega)]
          rfl
        · rw [min_eq_left hp] at hi ⊢
          obtain ⟨j, rfl⟩ : ∃ j, i = B + j := ⟨i - B, by omega⟩
          rw [Nat.add_sub_cancel_left, Nat.add_div_left _ hB, Nat.add_mod_left,
            show c + 1 + j / B = c + (j / B).succ by omega]
    · have hp : p = [] := by
        by_contra hp
        exact h ⟨hB, hp⟩
      rw [hp]
      rfl

theorem length_xorLoop {ks : ℕ → List UInt8} (hB : 0 < B) (hks : ∀ c, (ks c).length = B) (c : ℕ)
    (p : List UInt8) : (xorLoop B ks c p).length = p.length := by
  have h : ∀ i, (xorLoop B ks c p)[i]?.isSome = p[i]?.isSome := fun i => by
    rw [getElem?_xorLoop hB hks, Option.isSome_map]
  have h1 := h p.length
  have h2 := h (xorLoop B ks c p).length
  simp at h1 h2
  omega

/-- Added twice, the stream is gone. -/
theorem xorLoop_xorLoop {ks : ℕ → List UInt8} (hB : 0 < B) (hks : ∀ c, (ks c).length = B) (c : ℕ)
    (p : List UInt8) : xorLoop B ks c (xorLoop B ks c p) = p := by
  refine List.ext_getElem? fun i => ?_
  rw [getElem?_xorLoop hB hks, getElem?_xorLoop hB hks, Option.map_map]
  cases p[i]? with
  | none => rfl
  | some x => simp [UInt8.xor_assoc]

end BananaOS.Lib
