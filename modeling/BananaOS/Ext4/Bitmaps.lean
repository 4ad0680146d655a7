import BananaOS.Ext4.Blocks
import Mathlib.Data.List.Range
import Mathlib.Logic.Function.Basic

/-!
# Blocks given out and taken back

`balloc` and `bfree` of `kernel/ext4.c` over a mounted volume.  `data b` is what `cget(b, 0)` shows
of block `b`: its cached copy, and what is on the disk where there is none.  The bitmap blocks are
kept apart from it, as one bit for each block of the volume, and of the group descriptors there is
the count of free blocks.

A bitmap block comes through the cache, and there may be no memory for it, or the disk may fail.
`had g` says whether the one of group `g` can be had during the call.  `bfree` then gives up without
a word, and `balloc` returns without having set `*got`: what the caller finds there is `junk`.
-/

namespace BananaOS.Ext4

open Function

/-- `BPG` -/
def bpg : ℕ := 32768

/-- A mounted volume: `g_nblocks`, the bit of each block in its bitmap, `bg_free_blocks_count` of
each group, and what the blocks hold, in the cache and on the disk. -/
structure Vol where
  nblocks : ℕ
  used : ℕ → Bool
  free : ℕ → ℕ
  data : ℕ → Blk
  disk : ℕ → Blk

namespace Vol

/-- `g_groups` -/
def groups (v : Vol) : ℕ := (v.nblocks + bpg - 1) / bpg

/-- `gblocks` -/
def gblocks (v : Vol) (g : ℕ) : ℕ := if g + 1 < v.groups then bpg else v.nblocks - g * bpg

/-- The first clear bit of a group from bit `i` up to `stop`; bytes of `0xFF` are passed over.  It
ends within `stop - i` rounds. -/
def scan (v : Vol) (g stop : ℕ) : ℕ → ℕ → Option ℕ
  | 0, _ => none
  | n + 1, i =>
    if i < stop then
      if i % 8 = 0 ∧ (∀ j < 8, v.used (g * bpg + i + j) = true) ∧ i + 8 ≤ stop then
        scan v g stop n (i + 8)
      else if v.used (g * bpg + i) then scan v g stop n (i + 1)
      else some i
    else none

/-- The loop that counts the clear bits from bit `i` on, at most `want`. -/
def runLen (v : Vol) (g want i : ℕ) : ℕ → ℕ → ℕ
  | 0, r => r
  | n + 1, r =>
    if i + r < v.gblocks g ∧ r < want ∧ v.used (g * bpg + (i + r)) = false then
      runLen v g want i n (r + 1)
    else r

/-- `r` blocks of group `g` from `b` on marked in use. -/
def take (v : Vol) (g b r : ℕ) : Vol :=
  { v with
    used := fun c => if b ≤ c ∧ c < b + r then true else v.used c
    free := update v.free g ((v.free g + 2 ^ 16 - r) % 2 ^ 16) }

/-- The loop of `balloc` over the groups, from round `k` on: the block, `*got` and the volume. -/
def ballocLoop (had : ℕ → Bool) (junk goal want : ℕ) (v : Vol) : ℕ → ℕ → (ℕ × ℕ) × Vol
  | 0, _ => ((0, 0), v)
  | n + 1, k =>
    let g := (goal / bpg + k) % v.groups
    if v.free g = 0 then ballocLoop had junk goal want v n (k + 1)
    else if had g = false then ((0, junk), v)
    else
      let start := if k = 0 then goal % bpg else 0
      match (v.scan g (v.gblocks g) (v.gblocks g) start).or (v.scan g start start 0) with
      | some i =>
        let r := v.runLen g want i want 0
        ((g * bpg + i, r), v.take g (g * bpg + i) r)
      | none => ballocLoop had junk goal want v n (k + 1)

/-- `balloc`: the first of up to `want` free blocks in a row, and `*got`, how many. -/
def balloc (had : ℕ → Bool) (junk goal want : ℕ) (v : Vol) : (ℕ × ℕ) × Vol :=
  ballocLoop had junk (if goal ≥ v.nblocks then 0 else goal) want v (v.groups + 1) 0

/-- The loop of `bfree` over a bitmap block: `k` blocks of group `g` from `blk` on; `cforget`
leaves what is on the disk. -/
def drop (v : Vol) (g blk k : ℕ) : Vol :=
  { v with
    used := fun b => if blk ≤ b ∧ b < blk + k then false else v.used b
    free := update v.free g
      ((v.free g + ((List.range k).filter fun j => v.used (blk + j)).length) % 2 ^ 16)
    data := fun b => if blk ≤ b ∧ b < blk + k then v.disk b else v.data b }

/-- The loop of `bfree`; it ends within `n` rounds. -/
def bfreeLoop (had : ℕ → Bool) : ℕ → ℕ → ℕ → Vol → Vol
  | 0, _, _, v => v
  | m + 1, blk, n, v =>
    if n = 0 then v
    else
      let g := blk / bpg
      let k := if bpg - blk % bpg < n then bpg - blk % bpg else n
      if had g = false then v
      else bfreeLoop had m (u32 (blk + k)) (n - k) (v.drop g blk k)

/-- `bfree`: `n` blocks from `blk` on are free. -/
def bfree (had : ℕ → Bool) (blk n : ℕ) (v : Vol) : Vol := bfreeLoop had n blk n v

/-! ## What `bfree` does -/

variable {had : ℕ → Bool} {v : Vol} {blk n : ℕ}

theorem bfreeLoop_used (hhad : ∀ g, had g = true) {m : ℕ} (hm : n ≤ m) (hend : blk + n < 2 ^ 32) :
    (bfreeLoop had m blk n v).used = fun b => if blk ≤ b ∧ b < blk + n then false else v.used b := by
  induction m generalizing blk n v with
  | zero =>
    funext b
    rw [bfreeLoop, if_neg (by omega)]
  | succ m ih =>
    rw [bfreeLoop]
    by_cases hn : n = 0
    · rw [if_pos hn]
      funext b
      rw [if_neg (by omega)]
    · rw [if_neg hn]
      simp only [hhad, Bool.true_eq_false, if_false]
      have hb : blk % bpg < bpg := Nat.mod_lt _ (by decide)
      have hk : ∃ k, (if bpg - blk % bpg < n then bpg - blk % bpg else n) = k ∧ 0 < k ∧ k ≤ n :=
        ⟨_, rfl, by split_ifs <;> omega, by split_ifs <;> omega⟩
      obtain ⟨k, hk, hpos, hle⟩ := hk
      rw [hk, u32_of_lt (by omega), ih (by omega) (by omega)]
      funext b
      simp only [drop]
      split_ifs with h1 h2 h3 h4 h5 <;> first | rfl | omega

/-- With its bitmap blocks at hand, `bfree` frees the blocks it is given. -/
theorem bfree_used (hhad : ∀ g, had g = true) (hend : blk + n < 2 ^ 32) :
    (v.bfree had blk n).used = fun b => if blk ≤ b ∧ b < blk + n then false else v.used b :=
  bfreeLoop_used hhad le_rfl hend

/-- What `bfree` leaves alone, whatever it can have. -/
theorem bfreeLoop_apart {m b : ℕ} (hend : blk + n < 2 ^ 32) (hb : b < blk ∨ blk + n ≤ b) :
    (bfreeLoop had m blk n v).used b = v.used b ∧ (bfreeLoop had m blk n v).data b = v.data b := by
  induction m generalizing blk n v with
  | zero => exact ⟨rfl, rfl⟩
  | succ m ih =>
    rw [bfreeLoop]
    by_cases hn : n = 0
    · rw [if_pos hn]
      exact ⟨rfl, rfl⟩
    · rw [if_neg hn]
      by_cases hg : had (blk / bpg) = false
      · simp only [hg, if_true, and_self]
      · have hk : ∃ k, (if bpg - blk % bpg < n then bpg - blk % bpg else n) = k ∧ k ≤ n :=
          ⟨_, rfl, by split_ifs <;> omega⟩
        obtain ⟨k, hk, hle⟩ := hk
        simp only [hk]
        rw [if_neg hg, u32_of_lt (by omega)]
        obtain ⟨h1, h2⟩ := @ih (v.drop (blk / bpg) blk k) (blk + k) (n - k)
          (by omega) (by omega)
        rw [h1, h2]
        simp only [drop]
        exact ⟨if_neg (by omega), if_neg (by omega)⟩

theorem bfree_apart {b : ℕ} (hend : blk + n < 2 ^ 32) (hb : b < blk ∨ blk + n ≤ b) :
    (v.bfree had blk n).used b = v.used b ∧ (v.bfree had blk n).data b = v.data b :=
  bfreeLoop_apart hend hb

/-! ## What `balloc` does -/

variable {g stop want goal i j r m k junk : ℕ}

theorem scan_some (h : v.scan g stop n i = some j) :
    i ≤ j ∧ j < stop ∧ v.used (g * bpg + j) = false := by
  induction n generalizing i with
  | zero => simp [scan] at h
  | succ n ih =>
    rw [scan] at h
    by_cases hi : i < stop
    · rw [if_pos hi] at h
      split_ifs at h with h8 hu
      · obtain ⟨h1, h2, h3⟩ := ih h
        exact ⟨by omega, h2, h3⟩
      · obtain ⟨h1, h2, h3⟩ := ih h
        exact ⟨by omega, h2, h3⟩
      · cases h
        exact ⟨le_rfl, hi, by simpa using hu⟩
    · rw [if_neg hi] at h
      cases h

theorem scan_none (hn : stop - i ≤ n) (h : v.scan g stop n i = none) (hij : i ≤ j) (hj : j < stop) :
    v.used (g * bpg + j) = true := by
  induction n generalizing i with
  | zero => omega
  | succ n ih =>
    rw [scan, if_pos (by omega)] at h
    split_ifs at h with h8 hu
    · rcases Nat.lt_or_ge j (i + 8) with hlt | hge
      · have := h8.2.1 (j - i) (by omega)
        rwa [show g * bpg + i + (j - i) = g * bpg + j by omega] at this
      · exact ih (by omega) h hge
    · rcases Nat.eq_or_lt_of_le hij with rfl | hlt
      · exact hu
      · exact ih (by omega) h hlt

/-- The bits counted are clear and inside the group. -/
theorem runLen_spec (hr : r ≤ want) (hg : i + r ≤ v.gblocks g)
    (hclear : ∀ j < r, v.used (g * bpg + (i + j)) = false) :
    r ≤ v.runLen g want i n r ∧ v.runLen g want i n r ≤ want ∧
      i + v.runLen g want i n r ≤ v.gblocks g ∧
      ∀ j < v.runLen g want i n r, v.used (g * bpg + (i + j)) = false := by
  induction n generalizing r with
  | zero => exact ⟨le_rfl, hr, hg, hclear⟩
  | succ n ih =>
    rw [runLen]
    split_ifs with h
    · obtain ⟨h1, h2, h3⟩ := h
      have := ih (r := r + 1) h2 (by omega) fun j hj => by
        rcases Nat.lt_succ_iff_lt_or_eq.mp hj with hj | rfl
        · exact hclear j hj
        · exact h3
      exact ⟨by omega, this.2⟩
    · exact ⟨le_rfl, hr, hg, hclear⟩

theorem runLen_pos (hi : i < v.gblocks g) (hw : 0 < want) (hclear : v.used (g * bpg + i) = false) :
    0 < v.runLen g want i want 0 := by
  obtain ⟨w, rfl⟩ : ∃ w, want = w + 1 := ⟨want - 1, by omega⟩
  rw [runLen, if_pos ⟨hi, hw, hclear⟩, Nat.zero_add]
  have := @runLen_spec v w g (w + 1) i 1 (by omega)
    (by omega) fun j hj => by
      obtain rfl : j = 0 := by omega
      exact hclear
  omega

theorem groups_spec (hv : 0 < v.nblocks) :
    0 < v.groups ∧ v.groups * bpg < v.nblocks + bpg ∧ v.nblocks ≤ v.groups * bpg := by
  unfold groups bpg
  omega

theorem gblocks_le (hg : g < v.groups) : g * bpg + v.gblocks g ≤ v.nblocks ∧ v.gblocks g ≤ bpg := by
  unfold gblocks
  unfold groups bpg at *
  split_ifs <;> omega

/-- What `balloc` may do: no block is free, as far as the counts say; or a bitmap block is not to be
had; or up to `want` free blocks in a row are in use from now on. -/
inductive Balloc (had : ℕ → Bool) (junk want : ℕ) (v : Vol) : (ℕ × ℕ) × Vol → Prop
  | full (h : ∀ g < v.groups, v.free g = 0 ∨ ∀ i < v.gblocks g, v.used (g * bpg + i) = true) :
    Balloc had junk want v ((0, 0), v)
  | cut {g : ℕ} (h : had g = false) : Balloc had junk want v ((0, junk), v)
  | given {b r : ℕ} (hr : 0 < r) (hw : r ≤ want) (hb : b + r ≤ v.nblocks)
    (hg : b % bpg + r ≤ bpg) (hclear : ∀ c, b ≤ c → c < b + r → v.used c = false) :
    Balloc had junk want v ((b, r), v.take (b / bpg) b r)

/-- Adding up to `groups` to a group number comes to each of them. -/
theorem exists_round {a n g : ℕ} (hg : g < n) : ∃ k < n, (a + k) % n = g := by
  refine ⟨(g + n - a % n) % n, Nat.mod_lt _ (by omega), ?_⟩
  have ha := Nat.mod_lt a (show 0 < n by omega)
  rw [Nat.add_mod, Nat.mod_mod, ← Nat.add_mod]
  conv_lhs => rw [Nat.add_mod]
  rcases Nat.lt_or_ge g (a % n) with h | h
  · rw [Nat.mod_eq_of_lt (show g + n - a % n < n by omega), show a % n + (g + n - a % n) = g + n by omega,
      Nat.add_mod_right, Nat.mod_eq_of_lt hg]
  · rw [show g + n - a % n = g - a % n + n by omega, Nat.add_mod_right,
      Nat.mod_eq_of_lt (show g - a % n < n by omega), show a % n + (g - a % n) = g by omega,
      Nat.mod_eq_of_lt hg]

/-- A round of `balloc`. -/
theorem ballocLoop_succ {had : ℕ → Bool} {junk goal want m k g start : ℕ} (hg : (goal / bpg + k) % v.groups = g)
    (hstart : (if k = 0 then goal % bpg else 0) = start) :
    ballocLoop had junk goal want v (m + 1) k =
      if v.free g = 0 then ballocLoop had junk goal want v m (k + 1)
      else if had g = false then ((0, junk), v)
      else
        match (v.scan g (v.gblocks g) (v.gblocks g) start).or (v.scan g start start 0) with
        | some i =>
          let r := v.runLen g want i want 0
          ((g * bpg + i, r), v.take g (g * bpg + i) r)
        | none => ballocLoop had junk goal want v m (k + 1) := by
  subst hg hstart
  rw [ballocLoop]

theorem ballocLoop_cases (hw : 0 < want) (hv : 0 < v.nblocks) (hgoal : goal < v.nblocks)
    (hdone : ∀ k' < k, let g := (goal / bpg + k') % v.groups
      v.free g = 0 ∨ ∀ i < v.gblocks g, v.used (g * bpg + i) = true) (hk : v.groups ≤ k + m) :
    Balloc had junk want v (ballocLoop had junk goal want v m k) := by
  induction m generalizing k with
  | zero =>
    refine .full fun g hg => ?_
    obtain ⟨k', hk', rfl⟩ := exists_round (a := goal / bpg) hg
    exact hdone k' (by omega)
  | succ m ih =>
    obtain ⟨hpos, -, -⟩ := groups_spec hv
    have hglt : (goal / bpg + k) % v.groups < v.groups := Nat.mod_lt _ hpos
    generalize hgdef : (goal / bpg + k) % v.groups = g at hglt
    generalize hst : (if k = 0 then goal % bpg else 0) = start
    rw [ballocLoop_succ hgdef hst]
    have hstep : (v.free g = 0 ∨ ∀ i < v.gblocks g, v.used (g * bpg + i) = true) →
        Balloc had junk want v (ballocLoop had junk goal want v m (k + 1)) := fun h =>
      ih (fun k' hk' => by
        rcases Nat.lt_succ_iff_lt_or_eq.mp hk' with hk' | rfl
        · exact hdone k' hk'
        · simp only [hgdef]
          exact h) (by omega)
    by_cases hfree : v.free g = 0
    · rw [if_pos hfree]
      exact hstep (.inl hfree)
    rw [if_neg hfree]
    by_cases hhad : had g = false
    · rw [if_pos hhad]
      exact .cut hhad
    rw [if_neg hhad]
    obtain ⟨hin, hgb⟩ := gblocks_le hglt
    have hstart : start ≤ v.gblocks g := by
      split_ifs at hst with hk0
      · subst hk0
        have hmod := Nat.div_add_mod goal bpg
        have hlt := Nat.mod_lt goal (show 0 < bpg by decide)
        have hgg : goal / bpg < v.groups := by
          unfold groups bpg at *
          omega
        rw [Nat.add_zero, Nat.mod_eq_of_lt hgg] at hgdef
        unfold gblocks
        split_ifs
        · omega
        · rw [← hgdef]
          rw [Nat.mul_comm]
          omega
      · omega
    cases hscan : (v.scan g (v.gblocks g) (v.gblocks g) start).or (v.scan g start start 0) with
    | none =>
      obtain ⟨h1, h2⟩ := Option.or_eq_none_iff.mp hscan
      refine hstep (.inr fun i hi => ?_)
      rcases Nat.lt_or_ge i start with h | h
      · exact scan_none (by omega) h2 (Nat.zero_le _) h
      · exact scan_none (by omega) h1 h hi
    | some i =>
      have hi : i < v.gblocks g ∧ v.used (g * bpg + i) = false := by
        rcases Option.or_eq_some_iff.mp hscan with h | ⟨-, h⟩
        · have := scan_some h
          exact ⟨this.2.1, this.2.2⟩
        · have := scan_some h
          exact ⟨by omega, this.2.2⟩
      obtain ⟨-, h2, h3, h4⟩ := runLen_spec (v := v) (g := g) (i := i) (n := want)
        (r := 0) (Nat.zero_le _) (by omega) (by simp)
      have h1 := runLen_pos hi.1 hw hi.2
      have hmod : (g * bpg + i) % bpg = i := by
        rw [Nat.mul_add_mod_self_right, Nat.mod_eq_of_lt (by omega)]
      have hdiv : (g * bpg + i) / bpg = g := by
        rw [Nat.add_comm, Nat.add_mul_div_right _ _ (by decide), Nat.div_eq_of_lt (by omega), Nat.zero_add]
      have := @Balloc.given had junk _ v (g * bpg + i) _ h1 h2 (by omega)
        (by omega) fun c hc1 hc2 => by
          have := h4 (c - (g * bpg + i)) (by omega)
          rwa [show g * bpg + (i + (c - (g * bpg + i))) = c by omega] at this
      rw [hdiv] at this
      exact this

theorem balloc_cases (hw : 0 < want) (hv : 0 < v.nblocks) :
    Balloc had junk want v (v.balloc had junk goal want) := by
  unfold balloc
  refine ballocLoop_cases hw hv ?_ (by simp) (by omega)
  split_ifs <;> omega

end Vol

end BananaOS.Ext4
