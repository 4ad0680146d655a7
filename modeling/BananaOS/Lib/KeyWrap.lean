import BananaOS.Lib.Aes
import BananaOS.Lib.Feed

/-!
# The key wrap of RFC 3394

Key data of `n` halves of a block is wrapped by six passes over them with a register `A`, each step a
call of a block cipher; the unwrapping goes back step by step.

* `unwrap_wrap`, `wrap_unwrap`: the two undo each other where the ciphers do.
-/

namespace BananaOS.Lib

theorem getElem_overwrite {β : Type*} {n o i : ℕ} (b : Vector β n) (src : List β) (hi : i < n) :
    (overwrite b o src)[i] = if o ≤ i then src.getD (i - o) b[i] else b[i] := by
  simp [overwrite]

namespace KeyWrap

/-- Half a block. -/
abbrev Half := Vector UInt8 8

/-- The register `A`, and the halves `R` one after the other. -/
@[ext] structure Registers (m : ℕ) where
  a : Half
  r : Vector UInt8 m

/-- The initial value. -/
def initialValue : Half := Vector.replicate 8 0xa6

variable {m : ℕ}

/-- Half `i`. -/
def half (r : Vector UInt8 m) (i : ℕ) : Half := Vector.ofFn fun k : Fin 8 => byteOf r (8 * i + k)

def setHalf (r : Vector UInt8 m) (i : ℕ) (h : Half) : Vector UInt8 m := overwrite r (8 * i) h.toList

/-- `A | R` -/
def join (a h : Half) : Block := Vector.ofFn fun k : Fin 16 => if k.val < 8 then byteOf a k else byteOf h (k - 8)

/-- `MSB(64, B)` -/
def msb (b : Block) : Half := Vector.ofFn fun k : Fin 8 => byteOf b k

/-- `LSB(64, B)` -/
def lsb (b : Block) : Half := Vector.ofFn fun k : Fin 8 => byteOf b (8 + k)

/-- `A ^ t` -/
def xorCount (a : Half) (t : ℕ) : Half := Vector.ofFn fun k : Fin 8 => byteOf a k ^^^ (bytesBE 8 t).getD k 0

/-- A step with the count `t`, for half `i`. -/
def wrapStep (E : Block → Block) (x : Registers m) (s : ℕ × ℕ) : Registers m :=
  let b := E (join x.a (half x.r s.2))
  ⟨xorCount (msb b) s.1, setHalf x.r s.2 (lsb b)⟩

def unwrapStep (D : Block → Block) (x : Registers m) (s : ℕ × ℕ) : Registers m :=
  let b := D (join (xorCount x.a s.1) (half x.r s.2))
  ⟨msb b, setHalf x.r s.2 (lsb b)⟩

/-- The counts and the halves of the steps, for `n` halves. -/
def steps (n : ℕ) : List (ℕ × ℕ) :=
  (List.range 6).flatMap fun j => (List.range n).map fun i => (n * j + (i + 1), i)

/-- The wrap of `r`. -/
def wrap (E : Block → Block) (r : Vector UInt8 m) : Registers m :=
  (steps (m / 8)).foldl (wrapStep E) ⟨initialValue, r⟩

/-- The unwrapping: the integrity value and the key data. -/
def unwrap (D : Block → Block) (x : Registers m) : Registers m :=
  (steps (m / 8)).reverse.foldl (unwrapStep D) x

/-! ## Halves -/

variable {r : Vector UInt8 m} {a h : Half} {b : Block} {i t : ℕ} {E D : Block → Block}

@[simp] theorem msb_join : msb (join a h) = a := by
  ext k hk
  simp [msb, join, byteOf_of_lt, show k < 16 by omega, hk]

@[simp] theorem lsb_join : lsb (join a h) = h := by
  ext k hk
  simp [lsb, join, byteOf_of_lt, show 8 + k < 16 by omega, hk]

@[simp] theorem join_msb_lsb : join (msb b) (lsb b) = b := by
  ext k hk
  simp only [join, Vector.getElem_ofFn]
  split_ifs with h8
  · rw [byteOf_of_lt _ h8, msb, Vector.getElem_ofFn, byteOf_of_lt _ hk]
  · rw [byteOf_of_lt _ (by omega), lsb, Vector.getElem_ofFn, byteOf_of_lt _ (by dsimp only; omega)]
    simp only [show 8 + (k - 8) = k by omega]

@[simp] theorem xorCount_xorCount : xorCount (xorCount a t) t = a := by
  ext k hk
  simp [xorCount, byteOf_of_lt, UInt8.xor_assoc]

theorem half_setHalf (hi : 8 * i + 8 ≤ m) : half (setHalf r i h) i = h := by
  ext k hk
  rw [half, Vector.getElem_ofFn, byteOf_of_lt _ (by dsimp only; omega), setHalf, getElem_overwrite,
    if_pos (Nat.le_add_right ..), Nat.add_sub_cancel_left,
    List.getD_eq_getElem _ _ (by simpa using hk), Vector.getElem_toList]

theorem setHalf_setHalf {h' : Half} : setHalf (setHalf r i h) i h' = setHalf r i h' := by
  ext k hk
  rw [setHalf, getElem_overwrite, setHalf, getElem_overwrite, setHalf, getElem_overwrite]
  split_ifs with h1
  · rcases Nat.lt_or_ge (k - 8 * i) 8 with h8 | h8
    · rw [List.getD_eq_getElem _ _ (by simpa using h8), List.getD_eq_getElem _ _ (by simpa using h8)]
    · rw [List.getD_eq_default _ _ (by simpa using h8), List.getD_eq_default _ _ (by simpa using h8),
        List.getD_eq_default _ _ (by simpa using h8)]
  · rfl

theorem setHalf_half : setHalf r i (half r i) = r := by
  ext k hk
  rw [setHalf, getElem_overwrite]
  split_ifs with h1
  · rcases Nat.lt_or_ge (k - 8 * i) 8 with h8 | h8
    · rw [List.getD_eq_getElem _ _ (by simpa using h8), Vector.getElem_toList, half, Vector.getElem_ofFn,
        byteOf_of_lt _ (by dsimp only; omega)]
      simp only [show 8 * i + (k - 8 * i) = k by omega]
    · rw [List.getD_eq_default _ _ (by simpa using h8)]
  · rfl

/-! ## The steps -/

theorem mem_steps {n : ℕ} {s : ℕ × ℕ} (hs : s ∈ steps n) : s.2 < n := by
  obtain ⟨j, -, hj⟩ := List.mem_flatMap.mp hs
  obtain ⟨i, hi, rfl⟩ := List.mem_map.mp hj
  exact List.mem_range.mp hi

theorem unwrapStep_wrapStep (hDE : ∀ b, D (E b) = b) {s : ℕ × ℕ} (hs : 8 * s.2 + 8 ≤ m)
    (x : Registers m) : unwrapStep D (wrapStep E x s) s = x := by
  rw [unwrapStep, wrapStep]
  dsimp only
  rw [xorCount_xorCount, half_setHalf hs, join_msb_lsb, hDE, msb_join, lsb_join, setHalf_setHalf,
    setHalf_half]

theorem wrapStep_unwrapStep (hED : ∀ b, E (D b) = b) {s : ℕ × ℕ} (hs : 8 * s.2 + 8 ≤ m)
    (x : Registers m) : wrapStep E (unwrapStep D x s) s = x := by
  rw [wrapStep, unwrapStep]
  dsimp only
  rw [half_setHalf hs, join_msb_lsb, hED, msb_join, lsb_join, xorCount_xorCount, setHalf_setHalf,
    setHalf_half]

/-- What was wrapped comes back, with the initial value. -/
theorem unwrap_wrap (hDE : ∀ b, D (E b) = b) (r : Vector UInt8 m) :
    unwrap D (wrap E r) = ⟨initialValue, r⟩ :=
  foldl_reverse_foldl (fun s hs => unwrapStep_wrapStep hDE (by have := mem_steps hs; omega)) _

/-- Whatever comes back with the initial value was wrapped. -/
theorem wrap_unwrap (hED : ∀ b, E (D b) = b) {x : Registers m} (hx : (unwrap D x).a = initialValue) :
    wrap E (unwrap D x).r = x := by
  have hrun := foldl_reverse_foldl (l := (steps (m / 8)).reverse) (f := unwrapStep D) (g := wrapStep E)
    (fun s hs => wrapStep_unwrapStep hED (by
      have := mem_steps (List.mem_reverse.mp hs)
      omega)) x
  rw [List.reverse_reverse] at hrun
  rw [wrap, ← hx]
  exact hrun

end KeyWrap

end BananaOS.Lib
