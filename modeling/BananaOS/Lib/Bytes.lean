import Mathlib.Algebra.Order.Ring.Nat
import Mathlib.Tactic.Common
import Mathlib.Tactic.Ring

/-!
# Words in memory

Memory is a function from addresses to bytes.  A word of `n` bytes at address `o` is read and
written with its most significant byte first (`getBE`, `putBE`) or last (`getLE`, `putLE`);
`blit` copies bytes.

* `getBE_putBE`, `getLE_putLE`: what is read back where it was written.
* `getBE_congr`, `getLE_congr`: a word depends on its own bytes only; `putBE_of_notMem`,
  `putLE_of_notMem`, `blit_of_notMem`: the bytes that a write leaves alone.
* `putBE_putBE`, `putLE_putLE`: of two writes in one place the second counts; `putBE_getBE`: a
  word written where it was read changes nothing.
-/

namespace BananaOS.Lib

variable {p q : ℕ → UInt8} {o n v : ℕ}

/-- The word of `n` bytes at `o`, the most significant byte first. -/
def getBE (p : ℕ → UInt8) (o : ℕ) : ℕ → ℕ
  | 0 => 0
  | n + 1 => getBE p o n * 256 + (p (o + n)).toNat

/-- The word of `n` bytes at `o`, the most significant byte last. -/
def getLE (p : ℕ → UInt8) (o : ℕ) : ℕ → ℕ
  | 0 => 0
  | n + 1 => getLE p o n + 256 ^ n * (p (o + n)).toNat

/-- `v` written at `o` in `n` bytes, the most significant byte first. -/
def putBE (p : ℕ → UInt8) (o n v : ℕ) : ℕ → UInt8 := fun i =>
  if o ≤ i ∧ i < o + n then UInt8.ofNat (v / 256 ^ (o + n - 1 - i)) else p i

/-- `v` written at `o` in `n` bytes, the most significant byte last. -/
def putLE (p : ℕ → UInt8) (o n v : ℕ) : ℕ → UInt8 := fun i =>
  if o ≤ i ∧ i < o + n then UInt8.ofNat (v / 256 ^ (i - o)) else p i

/-- `n` bytes of `q` from `o'` on copied to `o`. -/
def blit (p : ℕ → UInt8) (o : ℕ) (q : ℕ → UInt8) (o' n : ℕ) : ℕ → UInt8 := fun i =>
  if o ≤ i ∧ i < o + n then q (o' + (i - o)) else p i

theorem putBE_of_notMem {i : ℕ} (h : i < o ∨ o + n ≤ i) : putBE p o n v i = p i :=
  if_neg (by omega)

theorem putLE_of_notMem {i : ℕ} (h : i < o ∨ o + n ≤ i) : putLE p o n v i = p i :=
  if_neg (by omega)

theorem blit_of_notMem {o' i : ℕ} (h : i < o ∨ o + n ≤ i) : blit p o q o' n i = p i :=
  if_neg (by omega)

theorem getBE_congr (h : ∀ i, o ≤ i → i < o + n → p i = q i) : getBE p o n = getBE q o n := by
  induction n with
  | zero => rfl
  | succ n ih =>
    rw [getBE, getBE, ih fun i h1 h2 => h i h1 (by omega), h (o + n) (by omega) (by omega)]

theorem getLE_congr (h : ∀ i, o ≤ i → i < o + n → p i = q i) : getLE p o n = getLE q o n := by
  induction n with
  | zero => rfl
  | succ n ih =>
    rw [getLE, getLE, ih fun i h1 h2 => h i h1 (by omega), h (o + n) (by omega) (by omega)]

/-- The first `m` bytes of a word that was written. -/
theorem getBE_putBE_le {m : ℕ} (hm : m ≤ n) :
    getBE (putBE p o n v) o m = v / 256 ^ (n - m) % 256 ^ m := by
  induction m with
  | zero => rw [getBE, pow_zero, Nat.mod_one]
  | succ m ih =>
    have hbyte : (putBE p o n v (o + m)).toNat = v / 256 ^ (n - (m + 1)) % 256 := by
      rw [putBE, if_pos (by omega), UInt8.toNat_ofNat', show o + n - 1 - (o + m) = n - (m + 1) by omega]
    have hdiv : v / 256 ^ (n - m) = v / 256 ^ (n - (m + 1)) / 256 := by
      rw [Nat.div_div_eq_div_mul, ← pow_succ, show n - (m + 1) + 1 = n - m by omega]
    rw [getBE, ih (by omega), hbyte, hdiv, pow_succ', Nat.mod_mul]
    ring

theorem getBE_putBE : getBE (putBE p o n v) o n = v % 256 ^ n := by
  rw [getBE_putBE_le le_rfl, Nat.sub_self, pow_zero, Nat.div_one]

theorem getLE_putLE_le {m : ℕ} (hm : m ≤ n) : getLE (putLE p o n v) o m = v % 256 ^ m := by
  induction m with
  | zero => rw [getLE, pow_zero, Nat.mod_one]
  | succ m ih =>
    have hbyte : (putLE p o n v (o + m)).toNat = v / 256 ^ m % 256 := by
      rw [putLE, if_pos (by omega), UInt8.toNat_ofNat', show o + m - o = m by omega]
    rw [getLE, ih (by omega), hbyte, pow_succ, Nat.mod_mul]

theorem getLE_putLE : getLE (putLE p o n v) o n = v % 256 ^ n := getLE_putLE_le le_rfl

theorem getBE_lt : getBE p o n < 256 ^ n := by
  induction n with
  | zero => exact Nat.one_pos
  | succ n ih =>
    have hbyte := (p (o + n)).toNat_lt
    rw [getBE, pow_succ]
    omega

theorem getLE_lt : getLE p o n < 256 ^ n := by
  induction n with
  | zero => exact Nat.one_pos
  | succ n ih =>
    have hbyte := (p (o + n)).toNat_lt
    rw [getLE, pow_succ]
    calc getLE p o n + 256 ^ n * (p (o + n)).toNat
        < 256 ^ n + 256 ^ n * (p (o + n)).toNat := Nat.add_lt_add_right ih _
      _ = 256 ^ n * ((p (o + n)).toNat + 1) := by ring
      _ ≤ 256 ^ n * 256 := Nat.mul_le_mul_left _ hbyte

theorem getLE_mod {m : ℕ} (hm : m ≤ n) : getLE p o n % 256 ^ m = getLE p o m := by
  induction n with
  | zero =>
    obtain rfl : m = 0 := by omega
    rfl
  | succ n ih =>
    rcases Nat.lt_or_ge n m with h | h
    · obtain rfl : m = n + 1 := by omega
      exact Nat.mod_eq_of_lt getLE_lt
    · obtain ⟨k, rfl⟩ := Nat.exists_eq_add_of_le h
      rw [getLE, pow_add, mul_assoc, Nat.add_mul_mod_self_left, ih h]

theorem getBE_div {m : ℕ} (hm : m ≤ n) : getBE p o n / 256 ^ (n - m) = getBE p o m := by
  induction n, hm using Nat.le_induction with
  | base => rw [Nat.sub_self, pow_zero, Nat.div_one]
  | succ n hm ih =>
    have hbyte := (p (o + n)).toNat_lt
    rw [getBE, Nat.sub_add_comm hm, pow_succ', ← Nat.div_div_eq_div_mul]
    rw [show (getBE p o n * 256 + (p (o + n)).toNat) / 256 = getBE p o n by omega, ih]

/-- A word written where it was read changes nothing. -/
theorem putBE_getBE : putBE p o n (getBE p o n) = p := by
  ext1 i
  unfold putBE
  split_ifs with h
  · obtain ⟨k, rfl⟩ := Nat.exists_eq_add_of_le h.1
    rw [show o + n - 1 - (o + k) = n - (k + 1) by omega, getBE_div (by omega), getBE]
    rw [UInt8.ofNat_eq_iff_mod_eq_toNat]
    have hbyte := (p (o + k)).toNat_lt
    omega
  · rfl

theorem putBE_putBE {w : ℕ} : putBE (putBE p o n v) o n w = putBE p o n w := by
  ext1 i
  by_cases h : o ≤ i ∧ i < o + n
  · rw [putBE, if_pos h, putBE, if_pos h]
  · rw [putBE, if_neg h, putBE, if_neg h, putBE, if_neg h]

theorem putLE_putLE {w : ℕ} : putLE (putLE p o n v) o n w = putLE p o n w := by
  ext1 i
  by_cases h : o ≤ i ∧ i < o + n
  · rw [putLE, if_pos h, putLE, if_pos h]
  · rw [putLE, if_neg h, putLE, if_neg h, putLE, if_neg h]

/-! ## Records -/

/-- Fields written one after the other, each by where it begins, its length and its value. -/
def putFields (p : ℕ → UInt8) (fs : List (ℕ × ℕ × ℕ)) : ℕ → UInt8 :=
  fs.foldl (fun q f => putLE q f.1 f.2.1 f.2.2) p

theorem putFields_of_notMem {fs : List (ℕ × ℕ × ℕ)} {i : ℕ}
    (h : ∀ f ∈ fs, i < f.1 ∨ f.1 + f.2.1 ≤ i) : putFields p fs i = p i := by
  induction fs generalizing p with
  | nil => rfl
  | cons f fs ih =>
    have hrest := ih (p := putLE p f.1 f.2.1 f.2.2) fun g hg => h g (List.mem_cons_of_mem _ hg)
    exact hrest.trans (putLE_of_notMem (h f List.mem_cons_self))

/-- A field that no later one overwrites is read back. -/
theorem getLE_putFields {fs : List (ℕ × ℕ × ℕ)}
    (hfs : fs.Pairwise fun f g => f.1 + f.2.1 ≤ g.1 ∨ g.1 + g.2.1 ≤ f.1) (h : (o, n, v) ∈ fs) :
    getLE (putFields p fs) o n = v % 256 ^ n := by
  induction fs generalizing p with
  | nil => exact absurd h List.not_mem_nil
  | cons f fs ih =>
    obtain ⟨hhead, htail⟩ := List.pairwise_cons.mp hfs
    rcases List.mem_cons.mp h with rfl | hmem
    · rw [← getLE_putLE (p := p) (o := o) (n := n) (v := v)]
      refine getLE_congr fun i h1 h2 => putFields_of_notMem (p := putLE p o n v) fun g hg => ?_
      have hapart : o + n ≤ g.1 ∨ g.1 + g.2.1 ≤ o := hhead g hg
      omega
    · exact ih htail hmem

end BananaOS.Lib
