import Mathlib.Algebra.Order.Ring.Nat
import Mathlib.Data.Nat.Log
import Mathlib.Data.List.Nodup
import Mathlib.Logic.Function.Basic
import Mathlib.Order.Bounds.Defs

/-!
# The bins

The bins of the kernel's heap: the 25 levels of 16 lists in which the free blocks are, by size, and the
two levels of bitmaps that say which lists hold something.  A bin is two numbers, and the bins are in
the order of the sizes they are for; `binOf_le_iff` says where each begins, which is all that the search
needs.  `Bins.find` rounds up so far that the bin it begins at begins at what is needed or above it.

A list holds addresses of blocks.  What the code keeps in the payloads of free blocks, the links of the
lists, is here the lists themselves.
-/

namespace BananaOS.Kheap

/-- `SL_LOG` -/
def slLog : ℕ := 4

/-- `SL_N` -/
def slN : ℕ := 16

/-- `FL_SHIFT` -/
def flShift : ℕ := 8

/-- `FL_N` -/
def flN : ℕ := 25

/-- A number of 32 bits. -/
def u32 (n : ℕ) : ℕ := n % 2 ^ 32

theorem u32_eq {n : ℕ} (h : n < 2 ^ 32) : u32 n = n := Nat.mod_eq_of_lt h

/-- `bin_of` -/
def binOf (size : ℕ) : ℕ × ℕ :=
  if size < 2 ^ flShift then (0, size >>> (flShift - slLog))
  else
    let f := Nat.log2 size
    (f - (flShift - 1), (size >>> (f - slLog)) ^^^ slN)

/-- The bin is the one at hand or one for larger sizes. -/
def BinLe (p q : ℕ × ℕ) : Prop := p.1 < q.1 ∨ (p.1 = q.1 ∧ p.2 ≤ q.2)

/-- The step between the bins for sizes like `n`. -/
def grain (n : ℕ) : ℕ := if n < 2 ^ flShift then 16 else 2 ^ (Nat.log2 n - slLog)

/-- Where the bin for `n` begins. -/
def binStart (n : ℕ) : ℕ := n / grain n * grain n

/-! ## Where a bin begins -/

theorem grain_pos (n : ℕ) : 0 < grain n := by
  unfold grain
  split
  · decide
  · exact Nat.two_pow_pos _

theorem binStart_le (n : ℕ) : binStart n ≤ n := Nat.div_mul_le_self n _

theorem log2_bounds {n : ℕ} (h : 2 ^ flShift ≤ n) :
    8 ≤ Nat.log2 n ∧ 2 ^ Nat.log2 n ≤ n ∧ n < 2 ^ (Nat.log2 n + 1) := by
  have hne : n ≠ 0 := by
    have : (0 : ℕ) < 2 ^ flShift := by decide
    omega
  refine ⟨(Nat.le_log2 hne).mpr h, Nat.log2_self_le hne, Nat.lt_log2_self⟩

/-- The sizes of one level are sixteen steps long, and sixteen from 0. -/
theorem log2_grain {n : ℕ} (h : 2 ^ flShift ≤ n) : 2 ^ Nat.log2 n = 16 * grain n := by
  have h8 := (log2_bounds h).1
  unfold grain
  rw [if_neg (Nat.not_lt.mpr h)]
  obtain ⟨k, hk⟩ := Nat.exists_eq_add_of_le h8
  have hsub : 8 + k - slLog = k + 4 := by
    unfold slLog
    omega
  rw [hk, hsub, show 8 + k = 4 + (k + 4) by omega, Nat.pow_add]

theorem div_grain {n : ℕ} (h : 2 ^ flShift ≤ n) : 16 ≤ n / grain n ∧ n / grain n < 32 := by
  obtain ⟨-, h1, h2⟩ := log2_bounds h
  have hg := log2_grain h
  rw [Nat.pow_succ, hg] at h2
  rw [hg] at h1
  refine ⟨(Nat.le_div_iff_mul_le (grain_pos n)).mpr h1, (Nat.div_lt_iff_lt_mul (grain_pos n)).mpr ?_⟩
  omega

theorem binOf_small {n : ℕ} (h : n < 2 ^ flShift) : binOf n = (0, n / 16) := by
  unfold binOf
  rw [if_pos h, Nat.shiftRight_eq_div_pow]
  rfl

theorem xor_sixteen : ∀ k < 16, (16 + k) ^^^ 16 = k := by decide

theorem binOf_large {n : ℕ} (h : 2 ^ flShift ≤ n) :
    binOf n = (Nat.log2 n - 7, n / grain n - 16) := by
  obtain ⟨h1, h2⟩ := div_grain h
  obtain ⟨k, hk⟩ := Nat.exists_eq_add_of_le h1
  unfold binOf
  rw [if_neg (Nat.not_lt.mpr h)]
  dsimp only
  have hshift : n >>> (Nat.log2 n - slLog) = n / grain n := by
    rw [Nat.shiftRight_eq_div_pow]
    unfold grain
    rw [if_neg (Nat.not_lt.mpr h)]
  rw [hshift, hk]
  unfold slN flShift
  rw [xor_sixteen k (by omega), Nat.add_sub_cancel_left]

theorem binOf_lt {n : ℕ} (h : n < 2 ^ 32) : (binOf n).1 < flN ∧ (binOf n).2 < slN := by
  unfold flN slN
  rcases Nat.lt_or_ge n (2 ^ flShift) with hn | hn
  · rw [binOf_small hn]
    unfold flShift at hn
    dsimp only
    omega
  · obtain ⟨h1, h2⟩ := div_grain hn
    have hne : n ≠ 0 := by
      have := (log2_bounds hn).2.1
      have := Nat.two_pow_pos (Nat.log2 n)
      omega
    have hlog : Nat.log2 n < 32 := (Nat.log2_lt hne).mpr h
    rw [binOf_large hn]
    dsimp only
    omega

theorem grain_of_log2 {m n : ℕ} (hm : 2 ^ flShift ≤ m) (hn : 2 ^ flShift ≤ n)
    (h : Nat.log2 m = Nat.log2 n) : grain m = grain n := by
  unfold grain
  rw [if_neg (Nat.not_lt.mpr hm), if_neg (Nat.not_lt.mpr hn), h]

/-- **A size is in the bin of `v` or in a later one exactly if it is not below where that begins.** -/
theorem binOf_le_iff (v size : ℕ) : BinLe (binOf v) (binOf size) ↔ binStart v ≤ size := by
  have hstart := binStart_le v
  rcases Nat.lt_or_ge v (2 ^ flShift) with hv | hv
  · have hgv : grain v = 16 := if_pos hv
    rcases Nat.lt_or_ge size (2 ^ flShift) with hs | hs
    · rw [binOf_small hv, binOf_small hs]
      unfold BinLe binStart
      rw [hgv, ← Nat.le_div_iff_mul_le (by decide)]
      simp
    · have hlog := (log2_bounds hs).1
      rw [binOf_small hv, binOf_large hs]
      unfold BinLe
      dsimp only
      constructor
      · intro _
        omega
      · intro _
        exact Or.inl (by omega)
  · obtain ⟨hv8, hv1, hv2⟩ := log2_bounds hv
    obtain ⟨hd1, hd2⟩ := div_grain hv
    have hbase : 2 ^ Nat.log2 v ≤ binStart v := by
      rw [log2_grain hv]
      exact Nat.mul_le_mul_right _ hd1
    rcases Nat.lt_or_ge size (2 ^ flShift) with hs | hs
    · rw [binOf_small hs, binOf_large hv]
      unfold BinLe
      dsimp only
      have h256 : 2 ^ flShift ≤ 2 ^ Nat.log2 v := Nat.pow_le_pow_right (by decide) hv8
      constructor
      · intro h
        omega
      · intro h
        omega
    · obtain ⟨hs8, hs1, hs2⟩ := log2_bounds hs
      rw [binOf_large hv, binOf_large hs]
      unfold BinLe
      dsimp only
      rcases Nat.lt_trichotomy (Nat.log2 v) (Nat.log2 size) with hlt | heq | hgt
      · have hpow : 2 ^ (Nat.log2 v + 1) ≤ 2 ^ Nat.log2 size := Nat.pow_le_pow_right (by decide) hlt
        constructor
        · intro _
          omega
        · intro _
          exact Or.inl (by omega)
      · have hg := grain_of_log2 hv hs heq
        have hdiv : v / grain v ≤ size / grain v ↔ binStart v ≤ size :=
          Nat.le_div_iff_mul_le (grain_pos v)
        obtain ⟨hd3, hd4⟩ := div_grain hs
        rw [← hdiv, heq, ← hg]
        rw [← hg] at hd3
        omega
      · have hpow : 2 ^ (Nat.log2 size + 1) ≤ 2 ^ Nat.log2 v := Nat.pow_le_pow_right (by decide) hgt
        omega

/-! ## Rounding up -/

/-- What `bin_take` searches for: the size it is asked for, and from 256 on one less than a step more.
`none` where the sum wraps. -/
def want (need : ℕ) : Option ℕ :=
  if 2 ^ flShift ≤ need then
    let round := 2 ^ (Nat.log2 need - slLog) - 1
    if u32 (need + round) < need then none else some (u32 (need + round))
  else some need

/-- The beginning of a bin that is next at `need` or above it. -/
def roundUp (need : ℕ) : ℕ := (need + (grain need - 1)) / grain need * grain need

theorem le_roundUp (need : ℕ) : need ≤ roundUp need := by
  have hg := grain_pos need
  have h1 := Nat.div_add_mod (need + (grain need - 1)) (grain need)
  have h2 := Nat.mod_lt (need + (grain need - 1)) hg
  unfold roundUp
  rw [Nat.mul_comm]
  omega

theorem roundUp_small {need : ℕ} (h : need < 2 ^ flShift) (h16 : 16 ∣ need) : roundUp need = need := by
  have hg : grain need = 16 := if_pos h
  unfold roundUp
  rw [hg]
  omega

theorem grain_dvd {m n : ℕ} (h : m ≤ n) : grain m ∣ grain n := by
  unfold grain
  split
  · split
    · exact Nat.dvd_refl _
    · rename_i hn
      have h8 := (log2_bounds (Nat.not_lt.mp hn)).1
      have hpow : (16 : ℕ) = 2 ^ 4 := by decide
      rw [hpow]
      exact Nat.pow_dvd_pow 2 (by unfold slLog; omega)
  · rename_i hm
    rw [if_neg (by omega)]
    have hne : n ≠ 0 := by
      have : (0 : ℕ) < 2 ^ flShift := by decide
      omega
    have hlog : Nat.log2 m ≤ Nat.log2 n := by
      have hself := Nat.log2_self_le (n := m) (by
        have : (0 : ℕ) < 2 ^ flShift := by decide
        omega)
      exact (Nat.le_log2 hne).mpr (hself.trans h)
    exact Nat.pow_dvd_pow 2 (by omega)

theorem roundUp_least {need v : ℕ} (h : need ≤ binStart v) : roundUp need ≤ binStart v := by
  have hg := grain_pos need
  obtain ⟨k, hk⟩ : grain need ∣ binStart v :=
    Nat.dvd_trans (grain_dvd (h.trans (binStart_le v))) (Nat.dvd_mul_left _ _)
  rw [hk] at h ⊢
  unfold roundUp
  rw [Nat.mul_comm (grain need)] at h ⊢
  refine Nat.mul_le_mul_right _ (Nat.le_of_lt_succ ((Nat.div_lt_iff_lt_mul hg).mpr ?_))
  rw [Nat.succ_mul]
  omega

/-- One less than a step more is in the bin that begins there. -/
theorem binStart_add {need : ℕ} (hbig : 2 ^ flShift ≤ need) :
    binStart (need + (grain need - 1)) = roundUp need := by
  obtain ⟨h8, h1, h2⟩ := log2_bounds hbig
  have hlg := log2_grain hbig
  have hg := grain_pos need
  have hgle : grain need ≤ need := by omega
  generalize hw : need + (grain need - 1) = w
  unfold roundUp
  rw [hw]
  have hwbig : 2 ^ flShift ≤ w := by omega
  obtain ⟨hw8, hw1, hw2⟩ := log2_bounds hwbig
  have hlow : Nat.log2 need ≤ Nat.log2 w := (Nat.le_log2 (by omega)).mpr (by omega)
  have hhigh : Nat.log2 w < Nat.log2 need + 2 := (Nat.log2_lt (by omega)).mpr (by
    rw [Nat.pow_succ]
    omega)
  rcases Nat.lt_or_ge (Nat.log2 need) (Nat.log2 w) with hup | hsame
  · -- the rounding reached the next level, and the first bin of it
    have hlog : Nat.log2 w = Nat.log2 need + 1 := by omega
    have hgw : grain w = 2 * grain need := by
      have hlw := log2_grain hwbig
      rw [hlog, Nat.pow_succ] at hlw
      omega
    rw [hlog, Nat.pow_succ] at hw1
    have h32 : w / grain need = 32 := Nat.div_eq_of_lt_le (by omega) (by omega)
    have h16 : w / (2 * grain need) = 16 := Nat.div_eq_of_lt_le (by omega) (by omega)
    unfold binStart
    rw [hgw, h32, h16]
    omega
  · unfold binStart
    rw [grain_of_log2 hwbig hbig (by omega)]

theorem roundUp_isLeast {need : ℕ} (h16 : 16 ∣ need) :
    IsLeast {s | need ≤ s ∧ ∃ v, binStart v = s} (roundUp need) := by
  refine ⟨⟨le_roundUp need, ?_⟩, ?_⟩
  · rcases Nat.lt_or_ge need (2 ^ flShift) with hsmall | hbig
    · refine ⟨need, ?_⟩
      have hg : grain need = 16 := if_pos hsmall
      rw [roundUp_small hsmall h16]
      unfold binStart
      rw [hg]
      omega
    · exact ⟨_, binStart_add hbig⟩
  · rintro s ⟨hs, v, rfl⟩
    exact roundUp_least hs

/-- The bin for the rounded size begins there. -/
theorem binStart_want {need w : ℕ} (h16 : 16 ∣ need) (h : want need = some w) :
    binStart w = roundUp need := by
  unfold want at h
  split at h
  · rename_i hbig
    dsimp only at h
    have hgrain : 2 ^ (Nat.log2 need - slLog) = grain need := (if_neg (Nat.not_lt.mpr hbig)).symm
    rw [hgrain] at h
    have hlg := log2_grain hbig
    have hself := (log2_bounds hbig).2.1
    have hg := grain_pos need
    split at h
    · cases h
    · rename_i hwrap
      obtain rfl := Option.some.inj h
      have hno : need + (grain need - 1) < 2 ^ 32 := by
        by_contra hover
        unfold u32 at hwrap
        omega
      rw [u32_eq hno]
      exact binStart_add hbig
  · rename_i hsmall
    obtain rfl := Option.some.inj h
    have hsmall := Nat.not_le.mp hsmall
    have hg : grain need = 16 := if_pos hsmall
    rw [roundUp_small hsmall h16]
    unfold binStart
    rw [hg]
    omega

theorem want_lt {need w : ℕ} (hn : need < 2 ^ 32) (h : want need = some w) : w < 2 ^ 32 := by
  unfold want at h
  split at h
  · dsimp only at h
    split at h
    · cases h
    · rw [← Option.some.inj h]
      exact Nat.mod_lt _ (by decide)
  · rw [← Option.some.inj h]
    exact hn

/-- Where the sum wraps, no block has the size. -/
theorem want_none {need : ℕ} (hn : need < 2 ^ 32) (h : want need = none) : 2 ^ 32 ≤ roundUp need := by
  unfold want at h
  split at h
  · rename_i hbig
    dsimp only at h
    have hgrain : 2 ^ (Nat.log2 need - slLog) = grain need := (if_neg (Nat.not_lt.mpr hbig)).symm
    rw [hgrain] at h
    have hg := grain_pos need
    have hne : need ≠ 0 := by
      have : (0 : ℕ) < 2 ^ flShift := by decide
      omega
    have hlog : Nat.log2 need < 32 := (Nat.log2_lt hne).mpr hn
    split at h
    · rename_i hwrap
      have hover : 2 ^ 32 ≤ need + (grain need - 1) := by
        by_contra hno
        rw [u32_eq (Nat.not_le.mp hno)] at hwrap
        omega
      obtain ⟨k, hk⟩ : grain need ∣ 2 ^ 32 := by
        rw [← hgrain]
        exact Nat.pow_dvd_pow 2 (by omega)
      unfold roundUp
      rw [hk, Nat.mul_comm]
      exact Nat.mul_le_mul_right _ ((Nat.le_div_iff_mul_le hg).mpr (by rw [Nat.mul_comm, ← hk]; exact hover))
    · cases h
  · cases h

/-- No sum wraps up to the largest size that `kmalloc` lets through. -/
theorem want_some {need : ℕ} (hn : need ≤ 0xF0000000) : ∃ w, want need = some w ∧ w < 2 ^ 32 ∧
    need + (grain need - 1) < 2 ^ 32 := by
  have hround : need + (grain need - 1) < 2 ^ 32 := by
    unfold grain
    split
    · rename_i hsmall
      unfold flShift at hsmall
      omega
    · rename_i hbig
      have hne : need ≠ 0 := by
        have : (0 : ℕ) < 2 ^ flShift := by decide
        omega
      have hlog : Nat.log2 need < 32 := (Nat.log2_lt hne).mpr (by omega)
      have hpow : 2 ^ (Nat.log2 need - slLog) ≤ 2 ^ 27 :=
        Nat.pow_le_pow_right (by decide) (by unfold slLog; omega)
      omega
  unfold want
  split
  · rename_i hbig
    have hgrain : 2 ^ (Nat.log2 need - slLog) = grain need := (if_neg (Nat.not_lt.mpr hbig)).symm
    dsimp only
    rw [hgrain, u32_eq hround, if_neg (by omega)]
    exact ⟨_, rfl, hround, hround⟩
  · exact ⟨_, rfl, by omega, hround⟩

/-! ## The lists and the bitmaps -/

/-- `g_bin`, `g_flmap` and `g_slmap`. -/
structure Bins where
  bin : ℕ → ℕ → List ℕ
  flmap : BitVec 32
  slmap : ℕ → BitVec 32

/-- `1u << i` -/
def bit (i : ℕ) : BitVec 32 := 1#32 <<< i

/-- `~0u << i` -/
def fromBit (i : ℕ) : BitVec 32 := BitVec.allOnes 32 <<< i

/-- `__builtin_ctz` -/
def ctz (m : BitVec 32) : ℕ := m.ctz.toNat

namespace Bins

variable (s : Bins)

/-- No block is free. -/
def empty : Bins := ⟨fun _ _ => [], 0, fun _ => 0⟩

/-- One list is another. -/
def setBin (fl sl : ℕ) (l : List ℕ) : Bins :=
  { s with bin := Function.update s.bin fl (Function.update (s.bin fl) sl l) }

/-- A block comes to the front of its list. -/
def put (fl sl addr : ℕ) : Bins :=
  { s.setBin fl sl (addr :: s.bin fl sl) with
    flmap := s.flmap ||| bit fl
    slmap := Function.update s.slmap fl (s.slmap fl ||| bit sl) }

/-- A block leaves its list; the bits go with the last one. -/
def cut (fl sl addr : ℕ) : Bins :=
  let l := (s.bin fl sl).erase addr
  let m := if l = [] then s.slmap fl &&& ~~~bit sl else s.slmap fl
  { s.setBin fl sl l with
    flmap := if l = [] ∧ m = 0 then s.flmap &&& ~~~bit fl else s.flmap
    slmap := Function.update s.slmap fl m }

/-- `bin_insert`, the lists and the bitmaps. -/
def insert (size addr : ℕ) : Bins := s.put (binOf size).1 (binOf size).2 addr

/-- `bin_remove`, the lists and the bitmaps. -/
def remove (size addr : ℕ) : Bins := s.cut (binOf size).1 (binOf size).2 addr

/-- The search of `bin_take`: the bin whose first block it takes. -/
def find (need : ℕ) : Option (ℕ × ℕ) :=
  match want need with
  | none => none
  | some w =>
    let fl := (binOf w).1
    let slm := s.slmap fl &&& fromBit (binOf w).2
    let flm := if fl + 1 < 32 then s.flmap &&& fromBit (fl + 1) else 0
    if flN ≤ fl then none
    else if slm = 0 then
      if flm = 0 then none else some (ctz flm, ctz (s.slmap (ctz flm)))
    else some (fl, ctz slm)

end Bins

/-! ## The bitmaps -/

theorem getLsbD_bit {i j : ℕ} (hj : j < 32) : (bit i).getLsbD j = decide (i = j) := by
  unfold bit
  rw [BitVec.getLsbD_shiftLeft, BitVec.getLsbD_one]
  simp only [hj, decide_true, Bool.true_and]
  by_cases h : i = j
  · simp [h]
  · simp [h]
    omega

theorem getLsbD_fromBit {i j : ℕ} (hj : j < 32) : (fromBit i).getLsbD j = decide (i ≤ j) := by
  unfold fromBit
  rw [BitVec.getLsbD_shiftLeft, BitVec.getLsbD_allOnes]
  by_cases h : i ≤ j
  · simp [hj, h, Nat.not_lt.mpr h]
    omega
  · simp [h, Nat.not_le.mp h]

theorem ctz_spec {m : BitVec 32} (h : m ≠ 0) : ctz m < 32 ∧ m.getLsbD (ctz m) = true ∧
    ∀ j < ctz m, m.getLsbD j = false := by
  refine ⟨?_, BitVec.getLsbD_true_ctz_of_ne_zero h, fun j hj => BitVec.getLsbD_false_of_lt_ctz hj⟩
  have hlt := BitVec.ctz_lt_iff_ne_zero.mpr h
  have := BitVec.lt_def.mp hlt
  simpa [ctz] using this

theorem ne_zero_iff {m : BitVec 32} : m ≠ 0 ↔ ∃ j < 32, m.getLsbD j = true := by
  constructor
  · intro h
    obtain ⟨h1, h2, -⟩ := ctz_spec h
    exact ⟨_, h1, h2⟩
  · rintro ⟨j, -, hj⟩ rfl
    simp at hj

/-! ## The bins hold what is free -/

/-- The lists hold the blocks of `F`, given by address and size, each in the list of its size and
once, and the bitmaps are as the lists. -/
structure Filed (s : Bins) (F : ℕ → ℕ → Prop) : Prop where
  mem : ∀ fl sl a, a ∈ s.bin fl sl ↔ ∃ size, F a size ∧ binOf size = (fl, sl)
  nodup : ∀ fl sl, (s.bin fl sl).Nodup
  second : ∀ fl sl, sl < 32 → ((s.slmap fl).getLsbD sl = true ↔ s.bin fl sl ≠ [])
  first : ∀ fl, fl < 32 → (s.flmap.getLsbD fl = true ↔ s.slmap fl ≠ 0)

/-- Addresses and sizes that can be those of free blocks. -/
structure Sized (F : ℕ → ℕ → Prop) : Prop where
  lt : ∀ a n, F a n → n < 2 ^ 32
  unique : ∀ a m n, F a m → F a n → m = n

theorem binOf_lt32 {n : ℕ} (h : n < 2 ^ 32) : (binOf n).1 < 32 ∧ (binOf n).2 < 32 := by
  have := binOf_lt h
  unfold flN slN at this
  omega

namespace Filed

variable {s : Bins} {F : ℕ → ℕ → Prop}

theorem congr (h : Filed s F) {G : ℕ → ℕ → Prop} (hG : ∀ a n, F a n ↔ G a n) : Filed s G :=
  ⟨fun fl sl a => (h.mem fl sl a).trans (exists_congr fun n => and_congr_left' (hG a n)), h.nodup,
    h.second, h.first⟩

theorem empty : Filed Bins.empty fun _ _ => False where
  mem fl sl a := by simp [Bins.empty]
  nodup fl sl := List.nodup_nil
  second fl sl _ := by simp [Bins.empty]
  first fl _ := by simp [Bins.empty]

theorem bin_setBin (s : Bins) (fl sl : ℕ) (l : List ℕ) (i j : ℕ) :
    (s.setBin fl sl l).bin i j = if i = fl ∧ j = sl then l else s.bin i j := by
  unfold Bins.setBin
  by_cases hi : i = fl
  · subst hi
    by_cases hj : j = sl
    · subst hj
      simp
    · simp [hj]
  · simp [hi]

theorem insert (h : Filed s F) {addr size : ℕ} (hsize : size < 2 ^ 32) (hnew : ∀ n, ¬ F addr n) :
    Filed (s.insert size addr) fun a n => F a n ∨ (a = addr ∧ n = size) := by
  obtain ⟨hfl, hsl⟩ := binOf_lt32 hsize
  unfold Bins.insert
  generalize hb : binOf size = b at *
  have hbin : ∀ i j, (s.put b.1 b.2 addr).bin i j =
      if i = b.1 ∧ j = b.2 then addr :: s.bin b.1 b.2 else s.bin i j := bin_setBin s _ _ _
  have hslmap : ∀ i, (s.put b.1 b.2 addr).slmap i =
      if i = b.1 then s.slmap b.1 ||| bit b.2 else s.slmap i := by
    intro i
    show Function.update s.slmap b.1 _ i = _
    rw [Function.update_apply]
  have hbit : (s.slmap b.1 ||| bit b.2) ≠ 0 :=
    ne_zero_iff.mpr ⟨b.2, hsl, by rw [BitVec.getLsbD_or, getLsbD_bit hsl]; simp⟩
  refine ⟨fun i j a => ?_, fun i j => ?_, fun i j hj => ?_, fun i hi => ?_⟩
  · rw [hbin]
    split
    · rename_i hij
      obtain ⟨rfl, rfl⟩ := hij
      rw [List.mem_cons, h.mem]
      constructor
      · rintro (rfl | ⟨n, hn, hbn⟩)
        · exact ⟨size, Or.inr ⟨rfl, rfl⟩, hb⟩
        · exact ⟨n, Or.inl hn, hbn⟩
      · rintro ⟨n, hn | ⟨rfl, rfl⟩, hbn⟩
        · exact Or.inr ⟨n, hn, hbn⟩
        · exact Or.inl rfl
    · rename_i hij
      rw [h.mem]
      constructor
      · rintro ⟨n, hn, hbn⟩
        exact ⟨n, Or.inl hn, hbn⟩
      · rintro ⟨n, hn | ⟨rfl, rfl⟩, hbn⟩
        · exact ⟨n, hn, hbn⟩
        · rw [hb] at hbn
          exact absurd ⟨(congrArg Prod.fst hbn).symm, (congrArg Prod.snd hbn).symm⟩ hij
  · rw [hbin]
    split
    · refine List.nodup_cons.mpr ⟨fun hmem => ?_, h.nodup _ _⟩
      obtain ⟨n, hn, -⟩ := (h.mem _ _ _).mp hmem
      exact hnew n hn
    · exact h.nodup i j
  · rw [hbin, hslmap]
    by_cases hi : i = b.1
    · subst hi
      rw [if_pos rfl, BitVec.getLsbD_or, getLsbD_bit hj, Bool.or_eq_true, h.second _ _ hj]
      by_cases hj' : j = b.2
      · simp [hj']
      · simp [hj', Ne.symm hj']
    · rw [if_neg hi, if_neg (fun hc => hi hc.1)]
      exact h.second i j hj
  · rw [hslmap]
    show (s.flmap ||| bit b.1).getLsbD i = true ↔ _
    rw [BitVec.getLsbD_or, getLsbD_bit hi, Bool.or_eq_true, h.first i hi]
    by_cases hi' : i = b.1
    · rw [if_pos hi']
      exact iff_of_true (Or.inr (decide_eq_true hi'.symm)) hbit
    · rw [if_neg hi']
      simp [Ne.symm hi']

theorem remove (h : Filed s F) (hF : Sized F) {addr size : ℕ} (hmem : F addr size) :
    Filed (s.remove size addr) fun a n => F a n ∧ a ≠ addr := by
  obtain ⟨hfl, hsl⟩ := binOf_lt32 (hF.lt _ _ hmem)
  unfold Bins.remove
  generalize hb : binOf size = b at *
  generalize hl : (s.bin b.1 b.2).erase addr = l
  have hbin : ∀ i j, (s.cut b.1 b.2 addr).bin i j = if i = b.1 ∧ j = b.2 then l else s.bin i j := by
    intro i j
    rw [← hl]
    exact bin_setBin s _ _ _ i j
  generalize hm : (if l = [] then s.slmap b.1 &&& ~~~bit b.2 else s.slmap b.1) = m
  have hslmap : ∀ i, (s.cut b.1 b.2 addr).slmap i = if i = b.1 then m else s.slmap i := by
    intro i
    show Function.update s.slmap b.1 _ i = _
    rw [Function.update_apply, hl, hm]
  have hflmap : (s.cut b.1 b.2 addr).flmap = if l = [] ∧ m = 0 then s.flmap &&& ~~~bit b.1 else s.flmap := by
    show (if (s.bin b.1 b.2).erase addr = [] ∧ _ then _ else _) = _
    rw [hl, hm]
  have hl' : ∀ a, a ∈ l ↔ a ≠ addr ∧ a ∈ s.bin b.1 b.2 := fun a => by
    rw [← hl]
    exact (h.nodup _ _).mem_erase_iff
  refine ⟨fun i j a => ?_, fun i j => ?_, fun i j hj => ?_, fun i hi => ?_⟩
  · rw [hbin]
    split
    · rename_i hij
      obtain ⟨rfl, rfl⟩ := hij
      rw [hl', h.mem]
      constructor
      · rintro ⟨hne, n, hn, hbn⟩
        exact ⟨n, ⟨hn, hne⟩, hbn⟩
      · rintro ⟨n, ⟨hn, hne⟩, hbn⟩
        exact ⟨hne, n, hn, hbn⟩
    · rename_i hij
      rw [h.mem]
      constructor
      · rintro ⟨n, hn, hbn⟩
        refine ⟨n, ⟨hn, ?_⟩, hbn⟩
        rintro rfl
        obtain rfl := hF.unique _ _ _ hn hmem
        rw [hb] at hbn
        exact hij ⟨(congrArg Prod.fst hbn).symm, (congrArg Prod.snd hbn).symm⟩
      · rintro ⟨n, ⟨hn, -⟩, hbn⟩
        exact ⟨n, hn, hbn⟩
  · rw [hbin]
    split
    · rw [← hl]
      exact (h.nodup _ _).erase _
    · exact h.nodup i j
  · have hmbit : m.getLsbD j = true ↔ (if j = b.2 then l else s.bin b.1 j) ≠ [] := by
      rw [← hm]
      by_cases hempty : l = []
      · rw [if_pos hempty, BitVec.getLsbD_and, BitVec.getLsbD_not, getLsbD_bit hj]
        by_cases hj' : j = b.2
        · simp [hj', hempty]
        · rw [if_neg hj', ← h.second _ _ hj, decide_eq_false (Ne.symm hj')]
          simp [hj]
      · rw [if_neg hempty, h.second _ _ hj]
        by_cases hj' : j = b.2
        · subst hj'
          rw [if_pos rfl]
          refine iff_of_true ?_ hempty
          intro hnil
          rw [hnil] at hl
          exact hempty (by rw [← hl]; rfl)
        · rw [if_neg hj']
    rw [hbin, hslmap]
    by_cases hi : i = b.1
    · subst hi
      rw [if_pos rfl, hmbit]
      simp
    · rw [if_neg hi, if_neg (fun hc => hi hc.1)]
      exact h.second i j hj
  · rw [hslmap, hflmap]
    by_cases hi' : i = b.1
    · subst hi'
      rw [if_pos rfl]
      split
      · rename_i hc
        rw [BitVec.getLsbD_and, BitVec.getLsbD_not, getLsbD_bit hi, hc.2]
        simp
      · rename_i hc
        have hhas : s.bin b.1 b.2 ≠ [] := by
          have hin : addr ∈ s.bin b.1 b.2 := (h.mem _ _ _).mpr ⟨size, hmem, hb⟩
          exact List.ne_nil_of_mem hin
        have hfull : s.slmap b.1 ≠ 0 := ne_zero_iff.mpr ⟨b.2, hsl, (h.second _ _ hsl).mpr hhas⟩
        refine iff_of_true ((h.first _ hi).mpr hfull) ?_
        by_cases hempty : l = []
        · exact fun hz => hc ⟨hempty, hz⟩
        · rw [if_neg hempty] at hm
          rw [← hm]
          exact hfull
    · rw [if_neg hi']
      split
      · rw [← h.first i hi, BitVec.getLsbD_and, BitVec.getLsbD_not, getLsbD_bit hi,
          decide_eq_false (Ne.symm hi')]
        simp [hi]
      · exact h.first i hi

/-! ### The search -/

/-- The list the search ends at is not empty, and is that of the rounded size or a later one. -/
theorem find_some (h : Filed s F) {need w : ℕ} (hw : want need = some w) {p : ℕ × ℕ}
    (hp : s.find need = some p) : s.bin p.1 p.2 ≠ [] ∧ BinLe (binOf w) p := by
  unfold Bins.find at hp
  rw [hw] at hp
  dsimp only at hp
  split at hp
  · cases hp
  · rename_i hfl
    unfold flN at hfl
    rw [if_pos (show (binOf w).1 + 1 < 32 by omega)] at hp
    split at hp
    · split at hp
      · cases hp
      · rename_i hflm
        obtain rfl := Option.some.inj hp
        obtain ⟨h1, h2, -⟩ := ctz_spec hflm
        generalize ctz (s.flmap &&& fromBit ((binOf w).1 + 1)) = i at *
        rw [BitVec.getLsbD_and, getLsbD_fromBit h1, Bool.and_eq_true, decide_eq_true_iff,
          h.first i h1] at h2
        obtain ⟨h3, h4, -⟩ := ctz_spec h2.1
        exact ⟨(h.second _ _ h3).mp h4, Or.inl h2.2⟩
    · rename_i hslm
      obtain rfl := Option.some.inj hp
      obtain ⟨h1, h2, -⟩ := ctz_spec hslm
      rw [BitVec.getLsbD_and, getLsbD_fromBit h1, Bool.and_eq_true, decide_eq_true_iff,
        h.second _ _ h1] at h2
      exact ⟨h2.1, Or.inr ⟨rfl, h2.2⟩⟩

/-- If the search finds nothing, nothing is in these lists. -/
theorem find_none (h : Filed s F) (hF : Sized F) {need w : ℕ} (hw : want need = some w)
    (hlt : w < 2 ^ 32) (hp : s.find need = none) {a n : ℕ} (ha : F a n) :
    ¬ BinLe (binOf w) (binOf n) := by
  obtain ⟨hn1, hn2⟩ := binOf_lt32 (hF.lt a n ha)
  have hbin : s.bin (binOf n).1 (binOf n).2 ≠ [] :=
    List.ne_nil_of_mem ((h.mem _ _ _).mpr ⟨n, ha, rfl⟩)
  have hbit := (h.second _ _ hn2).mpr hbin
  have hlevel : s.slmap (binOf n).1 ≠ 0 := ne_zero_iff.mpr ⟨_, hn2, hbit⟩
  have hfl := (binOf_lt hlt).1
  unfold Bins.find at hp
  rw [hw] at hp
  dsimp only at hp
  rw [if_neg (Nat.not_le.mpr hfl)] at hp
  unfold flN at hfl
  rw [if_pos (show (binOf w).1 + 1 < 32 by omega)] at hp
  split at hp
  · rename_i hslm
    split at hp
    · rename_i hflm
      rintro (hlt' | ⟨heq, hle⟩)
      · refine ne_zero_iff.mpr ⟨(binOf n).1, hn1, ?_⟩ hflm
        rw [BitVec.getLsbD_and, getLsbD_fromBit hn1, Bool.and_eq_true, decide_eq_true_iff]
        exact ⟨(h.first _ hn1).mpr hlevel, hlt'⟩
      · refine ne_zero_iff.mpr ⟨(binOf n).2, hn2, ?_⟩ hslm
        rw [BitVec.getLsbD_and, getLsbD_fromBit hn2, Bool.and_eq_true, decide_eq_true_iff, heq]
        exact ⟨hbit, hle⟩
    · cases hp
  · cases hp

/-- **The search is sound and complete up to its rounding.**  What it ends at is a list of blocks that
are all big enough; where it ends at none, every block is smaller than the rounded size. -/
theorem find_spec (h : Filed s F) (hF : Sized F) {need : ℕ} (hn : need < 2 ^ 32) (h16 : 16 ∣ need) :
    match s.find need with
    | some p => s.bin p.1 p.2 ≠ [] ∧ ∀ a n, F a n → binOf n = p → roundUp need ≤ n
    | none => ∀ a n, F a n → n < roundUp need := by
  cases hw : want need with
  | none =>
    have hfind : s.find need = none := by
      unfold Bins.find
      rw [hw]
    rw [hfind]
    exact fun a n ha => (hF.lt a n ha).trans_le (want_none hn hw)
  | some w =>
    have hstart := binStart_want h16 hw
    have hle : ∀ n, BinLe (binOf w) (binOf n) ↔ roundUp need ≤ n := by
      intro n
      rw [binOf_le_iff, hstart]
    cases hp : s.find need with
    | none =>
      intro a n ha
      have hno := h.find_none hF hw (want_lt hn hw) hp ha
      rw [hle] at hno
      exact Nat.not_le.mp hno
    | some p =>
      obtain ⟨h1, h2⟩ := h.find_some hw hp
      refine ⟨h1, fun a n _ hbin => (hle n).mp ?_⟩
      rw [hbin]
      exact h2

end Filed

end BananaOS.Kheap
