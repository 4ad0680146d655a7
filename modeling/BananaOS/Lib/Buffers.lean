import Mathlib.Algebra.Order.Ring.Nat
import Mathlib.Data.List.Basic
import Mathlib.Data.List.TakeDrop
import Mathlib.Order.Nat
import Mathlib.Tactic.Common

/-!
# Buffers with checked accesses

A program that reads and writes buffers of known size, where an access outside its buffer is an
outcome of its own.  `Res.fault` is such an access; `Res.fail` is the program's own way of
giving up (`return -1`).  "The program stays inside its buffers" is then the statement that the
outcome is never `fault`.

* `readAt`, `writeAt`: one element.
* `copyTo`: `memcpy` between two buffers.
* `copyBack`: the byte-by-byte copy inside one buffer from `off` places back, which repeats the
  last `off` elements when it overlaps itself.

The lemmas say what a buffer holds up to the place written last (`take`).
-/

namespace BananaOS.Lib

/-- The outcome of a program over checked buffers. -/
inductive Res (α : Type*) where
  | ok (a : α)
  | fail
  | fault
  deriving DecidableEq, Repr

namespace Res

universe u

variable {α β : Type u}

/-- Sequencing: the first outcome that is not `ok` is the outcome of the whole. -/
def bind (x : Res α) (f : α → Res β) : Res β :=
  match x with
  | ok a => f a
  | fail => fail
  | fault => fault

instance : Monad Res where
  pure := ok
  bind := bind

@[simp] theorem pure_eq (a : α) : (pure a : Res α) = ok a := rfl

@[simp] theorem ok_bind (a : α) (f : α → Res β) : (ok a >>= f) = f a := rfl

@[simp] theorem fail_bind (f : α → Res β) : ((fail : Res α) >>= f) = fail := rfl

@[simp] theorem fault_bind (f : α → Res β) : ((fault : Res α) >>= f) = fault := rfl

theorem bind_eq_ok {x : Res α} {f : α → Res β} {b : β} :
    (x >>= f) = ok b ↔ ∃ a, x = ok a ∧ f a = ok b := by
  cases x <;> simp

theorem bind_ne_fault {x : Res α} {f : α → Res β} (hx : x ≠ fault)
    (hf : ∀ a, x = ok a → f a ≠ fault) : (x >>= f) ≠ fault := by
  cases x with
  | ok a => exact hf a rfl
  | fail => simp
  | fault => exact absurd rfl hx

end Res

open Res

variable {β : Type*}

/-- `b[i]` -/
def readAt (b : List β) (i : ℕ) : Res β :=
  match b[i]? with
  | some x => ok x
  | none => fault

/-- `b[i] = x` -/
def writeAt (b : List β) (i : ℕ) (x : β) : Res (List β) :=
  if i < b.length then ok (b.set i x) else fault

/-- `memcpy(dst + d, src + s, n)` -/
def copyTo (dst : List β) (d : ℕ) (src : List β) (s n : ℕ) : Res (List β) :=
  if d + n ≤ dst.length ∧ s + n ≤ src.length then
    ok (dst.take d ++ (src.drop s).take n ++ dst.drop (d + n))
  else fault

/-- `for (k = 0; k < m; k++, o++) b[o] = b[o - off]` -/
def copyBack : ℕ → List β → ℕ → ℕ → Res (List β)
  | 0, b, _, _ => ok b
  | m + 1, b, o, off => do
    let x ← readAt b (o - off)
    let b ← writeAt b o x
    copyBack m b (o + 1) off

theorem readAt_of_some {b : List β} {i : ℕ} {x : β} (h : b[i]? = some x) : readAt b i = ok x := by
  rw [readAt, h]

theorem readAt_of_lt {b : List β} {i : ℕ} (h : i < b.length) : readAt b i = ok b[i] :=
  readAt_of_some (List.getElem?_eq_getElem h)

theorem writeAt_of_lt {b : List β} {i : ℕ} (x : β) (h : i < b.length) :
    writeAt b i x = ok (b.set i x) := if_pos h

theorem copyTo_of_le {dst src : List β} {d s n : ℕ} (hd : d + n ≤ dst.length)
    (hs : s + n ≤ src.length) :
    copyTo dst d src s n = ok (dst.take d ++ (src.drop s).take n ++ dst.drop (d + n)) :=
  if_pos ⟨hd, hs⟩

theorem writeAt_append {a b : List β} {i : ℕ} (x : β) (hi : i = a.length) (hb : b ≠ []) :
    writeAt (a ++ b) i x = ok (a ++ [x] ++ b.drop 1) := by
  subst hi
  obtain ⟨y, b, rfl⟩ := List.exists_cons_of_ne_nil hb
  rw [writeAt_of_lt _ (by simp), List.set_append_right _ _ le_rfl, Nat.sub_self, List.set_cons_zero,
    List.drop_one, List.tail_cons, List.append_assoc]
  rfl

theorem copyTo_append {a b src : List β} {i s n : ℕ} (hi : i = a.length) (hb : n ≤ b.length)
    (hs : s + n ≤ src.length) :
    copyTo (a ++ b) i src s n = ok (a ++ (src.drop s).take n ++ b.drop n) := by
  subst hi
  rw [copyTo_of_le (by rw [List.length_append]; omega) hs, List.take_left, List.drop_append,
    Nat.add_sub_cancel_left, List.drop_of_length_le (Nat.le_add_right _ _), List.nil_append]

theorem length_copyTo {dst src b : List β} {d s n : ℕ} (h : copyTo dst d src s n = ok b) :
    b.length = dst.length := by
  unfold copyTo at h
  split_ifs at h with hc
  cases h
  simp only [List.length_append, List.length_take, List.length_drop]
  omega

theorem readAt_append {a : List β} {x : β} {b : List β} {i : ℕ} (hi : i = a.length) :
    readAt (a ++ x :: b) i = ok x := by
  subst hi
  rw [readAt_of_lt (by simp), List.getElem_append_right le_rfl]
  simp

theorem take_set_succ {b : List β} {o : ℕ} (x : β) (h : o < b.length) :
    (b.set o x).take (o + 1) = b.take o ++ [x] := by
  rw [List.take_add_one, List.take_set_of_le le_rfl, List.getElem?_set_self h]
  rfl

theorem take_copyTo {dst src b : List β} {d s n : ℕ} (h : copyTo dst d src s n = ok b) :
    b.take (d + n) = dst.take d ++ (src.drop s).take n := by
  unfold copyTo at h
  split_ifs at h with hc
  cases h
  refine List.take_left' ?_
  rw [List.length_append, List.length_take, List.length_take, List.length_drop]
  omega

/-- The copy from `off` places back never leaves the buffer. -/
theorem copyBack_ne_fault {m : ℕ} {b : List β} {o : ℕ} (off : ℕ) (h : o + m ≤ b.length) (ho : 0 < off) :
    ∃ b', copyBack m b o off = ok b' ∧ b'.length = b.length := by
  induction m generalizing b o with
  | zero => exact ⟨b, rfl, rfl⟩
  | succ m ih =>
    rw [copyBack, readAt_of_lt (by omega), ok_bind, writeAt_of_lt _ (by omega), ok_bind]
    obtain ⟨b', h1, h2⟩ := ih (b := b.set o b[o - off]) (o := o + 1)
      (by rw [List.length_set]; omega)
    exact ⟨b', h1, by rw [h2, List.length_set]⟩

/-- If `p` repeats itself from `off` places back over `[o, o + m)`, the copy continues a buffer
that begins like `p`. -/
theorem copyBack_extends {p : List β} {m o off : ℕ} (ho : 0 < off) (hoff : off ≤ o)
    (hp : o + m ≤ p.length)
    (hrep : ∀ k (_ : k < m), p[o + k]? = p[o + k - off]?) (rest : List β) (hr : m ≤ rest.length) :
    copyBack m (p.take o ++ rest) o off = ok (p.take (o + m) ++ rest.drop m) := by
  induction m generalizing o rest with
  | zero => simp [copyBack]
  | succ m ih =>
    obtain ⟨x, rest, rfl⟩ := List.exists_cons_of_length_pos (l := rest) (by omega)
    have hlen : (p.take o).length = o := List.length_take_of_le (by omega)
    have h1 : (p.take o ++ x :: rest).length = o + rest.length + 1 := by
      rw [List.length_append, hlen, List.length_cons]
      omega
    obtain ⟨y, hy⟩ : ∃ y, p[o]? = some y := ⟨p[o], List.getElem?_eq_getElem (by omega)⟩
    have hx : (p.take o ++ x :: rest)[o - off]? = some y := by
      rw [List.getElem?_append_left (by omega), List.getElem?_take_of_lt (by omega), ← hy]
      exact (hrep 0 (by omega)).symm
    have hset : (p.take o ++ x :: rest).set o y = p.take (o + 1) ++ rest := by
      rw [List.set_append_right _ _ (by omega), hlen, Nat.sub_self, List.set_cons_zero,
        List.take_add_one, hy, List.append_assoc]
      rfl
    rw [copyBack, readAt_of_some hx, ok_bind, writeAt_of_lt _ (by omega), ok_bind, hset,
      ih (by omega) (by omega) ?_ rest ?_]
    · rw [List.drop_succ_cons, Nat.add_right_comm]
      rfl
    · intro k hk
      have := hrep (k + 1) (by omega)
      rwa [show o + (k + 1) = o + 1 + k by omega] at this
    · rw [List.length_cons] at hr
      omega

end BananaOS.Lib
