import BananaOS.Ext4.Inodes

/-!
# File data

`do_write` and `do_read` of `kernel/ext4.c`, with every request for memory and every access to the
disk granted: what is left to fail is `balloc`.  A round of either loop finds a block of the file in
the list of its extents and deals with a part of it, or with a run of whole blocks that bypasses the
cache.  `do_write` gives the file the blocks it misses, and makes written what was not.

The read-ahead of `do_read` brings into the cache what is on the disk, and `data` shows that already.
-/

namespace BananaOS.Ext4

open Lib

/-- A `uint64_t`. -/
def u64 (x : ℕ) : ℕ := x % 2 ^ 64

/-- `DIRECT_MIN` -/
def directMin : ℕ := 16

/-- `dev_write` of `n` blocks from `b` on; the cached copies follow. -/
def Vol.devWrite (v : Vol) (b n : ℕ) (buf : Blk) : Vol :=
  { v with
    data := fun c => if b ≤ c ∧ c < b + n then fun i => buf ((c - b) * bs + i) else v.data c
    disk := fun c => if b ≤ c ∧ c < b + n then fun i => buf ((c - b) * bs + i) else v.disk c }

/-! ## `do_write` -/

/-- What the loop of `do_write` changes: `done`, the list, `*changed` and the volume. -/
structure Writing where
  done : ℕ
  m : EMap
  changed : Bool
  vol : Vol

/-- `goal`: after the block before, or in the group of the inode. -/
def writeGoal (e : List Ext) (ipg ino lblk : ℕ) : ℕ :=
  let prev := if lblk ≠ 0 then (emapFind e (lblk - 1)).1 else 0
  let goal := if prev ≠ 0 then u32 (prev + 1) else 0
  if goal = 0 then u32 ((ino - 1) / ipg * bpg) else goal

/-- The block that a round writes to (where it is, how many are alike from it on, and whether it is
fresh), when the write still covers `span` blocks; `none`: there is no free block. -/
def writeBlock (ipg ino lblk span : ℕ) (s : Writing) : Option (ℕ × ℕ × Bool) × Writing :=
  let (pblk, unw, run) := emapFind s.m.e lblk
  if pblk = 0 then
    let need := if span < run then span else run
    let ((pblk, got), vol) := s.vol.give (writeGoal s.m.e ipg ino lblk) need
    if got = 0 then (none, { s with vol := vol })
    else (some (pblk, got, true),
      { s with m := addMap s.m lblk pblk got false, changed := true, vol := vol })
  else if unw then
    let n := if span < run then span else run
    (some (pblk, n, true),
      { s with m := addMap (cutMap s.m lblk n s.vol) lblk pblk n false, changed := true })
  else (some (pblk, run, false), s)

/-- What a round writes at `pos` of the file, the block being known: whole blocks in one go, or a
part of one through the cache.  A fresh block starts as zeros, and so does one past the old end. -/
def writeData (buf : Blk) (len oldSize pos pblk run : ℕ) (fresh : Bool) (s : Writing) : Writing :=
  let lblk := u32 (pos / bs)
  let boff := pos % bs
  let want := len - s.done
  let whole := if boff ≠ 0 then 0 else want / bs
  let whole := if whole > run then run else whole
  if whole ≥ directMin then
    let whole := if whole > 256 then 256 else whole
    { s with
      done := s.done + whole * bs
      vol := s.vol.devWrite pblk whole fun i => buf (s.done + i) }
  else
    let n := if bs - boff < want then bs - boff else want
    let zero := fresh || decide (boff = 0 ∧ n = bs) || decide (lblk * bs ≥ oldSize)
    { s with
      done := s.done + n
      vol := s.vol.set pblk (blit (if zero then zeros else s.vol.data pblk) boff buf s.done n) }

/-- A round of the loop of `do_write`; `false` is `-1`. -/
def writeRound (ipg ino off : ℕ) (buf : Blk) (len oldSize : ℕ) (s : Writing) : Bool × Writing :=
  let pos := u64 (off + s.done)
  let lblk := u32 (pos / bs)
  let span := u32 ((pos % bs + (len - s.done) + bs - 1) / bs)
  match writeBlock ipg ino lblk span s with
  | (none, s) => (false, s)
  | (some (pblk, run, fresh), s) => (true, writeData buf len oldSize pos pblk run fresh s)

/-- The loop of `do_write`; it ends within `len` rounds. -/
def writeLoop (ipg ino off : ℕ) (buf : Blk) (len oldSize : ℕ) : ℕ → Writing → Bool × Writing
  | 0, s => (true, s)
  | n + 1, s =>
    if s.done < len then
      match writeRound ipg ino off buf len oldSize s with
      | (false, s) => (false, s)
      | (true, s) => writeLoop ipg ino off buf len oldSize n s
    else (true, s)

/-- `do_write`: `0` or `-1`, the inode, the list, `*changed` and the volume. -/
def doWrite (ipg : ℕ) (r : Blk) (m : EMap) (ino off : ℕ) (buf : Blk) (len : ℕ) (v : Vol) :
    Bool × Blk × EMap × Bool × Vol :=
  let oldSize := iSize r
  let (rc, s) := writeLoop ipg ino off buf len oldSize len ⟨0, m, false, v⟩
  let r :=
    if rc then if u64 (off + len) > oldSize then setSize r (u64 (off + len)) else r
    else if s.done ≠ 0 ∧ u64 (off + s.done) > oldSize then setSize r (u64 (off + s.done)) else r
  (rc, r, s.m, s.changed, s.vol)

/-! ## `do_read` -/

/-- What a round of the loop of `do_read` reads. -/
def readRound (v : Vol) (e : List Ext) (off len done : ℕ) : List UInt8 :=
  let pos := u64 (off + done)
  let lblk := u32 (pos / bs)
  let boff := pos % bs
  let (pblk, unw, run) := emapFind e lblk
  let want := len - done
  if pblk = 0 ∨ unw = true then
    let span := run * bs - boff
    List.replicate (if span < want then span else want) 0
  else
    let whole := if boff ≠ 0 then 0 else want / bs
    let whole := if whole > run then run else whole
    if whole ≥ directMin then
      let whole := if whole > 256 then 256 else whole
      (List.range (whole * bs)).map fun i => v.data (pblk + i / bs) (i % bs)
    else
      let n := if bs - boff < want then bs - boff else want
      (List.range n).map fun i => v.data pblk (boff + i)

/-- The loop of `do_read`; it ends within `len` rounds. -/
def readLoop (v : Vol) (e : List Ext) (off len : ℕ) : ℕ → List UInt8 → List UInt8
  | 0, out => out
  | n + 1, out =>
    if out.length < len then readLoop v e off len n (out ++ readRound v e off len out.length) else out

/-- `do_read` -/
def doRead (v : Vol) (r : Blk) (e : List Ext) (off len : ℕ) : List UInt8 :=
  let size := iSize r
  if off ≥ size then []
  else
    let len := if len > size - off then u32 (size - off) else len
    if fastLink r then (List.range len).map fun i => r (0x28 + off + i)
    else readLoop v e off len len []

/-! ## What is read -/

/-- Byte `pos` of a file: that of the block the list has for it, or zero in a hole and in a block that
was never written. -/
def byteAt (v : Vol) (e : List Ext) (pos : ℕ) : UInt8 :=
  match emapAt e (pos / bs) with
  | some (b, false) => v.data b (pos % bs)
  | _ => 0

variable {v : Vol} {r : Blk} {e : List Ext} {off len done : ℕ}

/-- Bytes that one round has, and how far it gets. -/
def Piece (v : Vol) (e : List Ext) (pos want : ℕ) (l : List UInt8) : Prop :=
  ∃ n, 0 < n ∧ n ≤ want ∧ l = (List.range n).map fun i => byteAt v e (pos + i)

theorem Piece.of_eq {pos want n : ℕ} {f : ℕ → UInt8} (h0 : 0 < n) (hn : n ≤ want)
    (h : ∀ i < n, f i = byteAt v e (pos + i)) : Piece v e pos want ((List.range n).map f) :=
  ⟨n, h0, hn, List.map_congr_left fun i hi => h i (List.mem_range.mp hi)⟩

/-- Zeros, as far as nothing is written. -/
theorem Piece.zeros {pos want span : ℕ} (hspan : 0 < span) (hwant : 0 < want)
    (h : ∀ i < span, byteAt v e (pos + i) = 0) :
    Piece v e pos want (List.replicate (if span < want then span else want) 0) := by
  have hmap : ∀ n, List.replicate n (0 : UInt8) = (List.range n).map fun _ => 0 := fun n => by
    rw [List.map_const', List.length_range]
  rw [hmap]
  split_ifs with hlt
  · exact Piece.of_eq hspan hlt.le fun i hi => (h i hi).symm
  · exact Piece.of_eq hwant le_rfl fun i hi => (h i (by omega)).symm

/-- A byte some way behind a place in a block. -/
theorem byteAt_add (v : Vol) (e : List Ext) (l o i : ℕ) :
    byteAt v e (l * bs + o + i) = match emapAt e (l + (o + i) / bs) with
      | some (b, false) => v.data b ((o + i) % bs)
      | _ => 0 := by
  rw [byteAt, Nat.add_assoc, Nat.mul_add_mod', Nat.mul_comm, Nat.mul_add_div (by decide)]

theorem readRound_piece (hs : Sorted e) (hp : ∀ x ∈ e, 0 < x.pblk) (hlen : len < 2 ^ 32)
    (hend : off + len ≤ 2 ^ 32 * bs) (hdone : done < len) :
    Piece v e (off + done) (len - done) (readRound v e off len done) := by
  obtain ⟨l, o, hl, ho, hpos⟩ : ∃ l o, l < 2 ^ 32 ∧ o < bs ∧ off + done = l * bs + o :=
    ⟨(off + done) / bs, (off + done) % bs, by rw [bs] at *; omega, Nat.mod_lt _ (by decide),
      (Nat.div_add_mod' _ _).symm⟩
  obtain ⟨want, hwant, hwantlt⟩ : ∃ w, w = len - done ∧ w < 2 ^ 32 := ⟨_, rfl, by omega⟩
  have hwant0 : 0 < want := by omega
  have hu64 : u64 (l * bs + o) = l * bs + o := Nat.mod_eq_of_lt (by rw [bs] at *; omega)
  have hdiv : (l * bs + o) / bs = l := by rw [bs] at *; omega
  have hmod : (l * bs + o) % bs = o := by rw [bs] at *; omega
  rw [readRound, hpos, hu64, hdiv, hmod, u32_of_lt hl, ← hwant]
  dsimp only
  -- the bytes of blocks that nothing was written to
  have hzeros : ∀ run, 0 < run → (∀ k < run, ∀ b, emapAt e (l + k) ≠ some (b, false)) →
      Piece v e (l * bs + o) want
        (List.replicate (if run * bs - o < want then run * bs - o else want) 0) := by
    intro run hrun hnone
    have hspan : 0 < run * bs - o := by rw [bs] at *; omega
    refine Piece.zeros hspan hwant0 fun i hi => ?_
    have h := hnone ((o + i) / bs) (by rw [bs] at *; omega)
    rw [byteAt_add]
    split
    · exact absurd ‹_› (h _)
    · rfl
  rcases emapFind_faithful hs hl with
    ⟨x, hx, hhas, -, hfind⟩ | ⟨run, hfind, hnone, hrun, -⟩ | ⟨hfind, hnone⟩
  · -- in an extent
    have hpblk : x.pblk + (l - x.lblk) ≠ 0 := by have := hp x hx; omega
    obtain ⟨b, hb⟩ : ∃ b, b = x.pblk + (l - x.lblk) := ⟨_, rfl⟩
    obtain ⟨run, hrun⟩ : ∃ run, run = x.lblk + x.len - l := ⟨_, rfl⟩
    have hpos : 0 < run := by have := hhas.2; omega
    have hat : ∀ k < run, emapAt e (l + k) = some (b + k, x.unw) := fun k hk => by
      have hle := hhas.1
      rw [hs.emapAt_of_mem hx ⟨by omega, by omega⟩]
      exact congrArg some (Prod.ext (by dsimp only; omega) rfl)
    rw [hfind, ← hb, ← hrun]
    rw [← hb] at hpblk
    dsimp only
    cases hunw : x.unw with
    | true =>
      rw [if_pos (.inr rfl)]
      refine hzeros _ hpos fun k hk b => ?_
      rw [hat k hk, hunw]
      simp
    | false =>
      have hbyte : ∀ i, (o + i) / bs < run →
          byteAt v e (l * bs + o + i) = v.data (b + (o + i) / bs) ((o + i) % bs) := fun i hi => by
        rw [byteAt_add, hat _ hi, hunw]
      rw [if_neg (not_or.mpr ⟨hpblk, Bool.false_ne_true⟩)]
      obtain ⟨w, hw⟩ : ∃ w, w = if (if o ≠ 0 then 0 else want / bs) > run then run
        else if o ≠ 0 then 0 else want / bs := ⟨_, rfl⟩
      have hwhole : w ≤ run ∧ w * bs ≤ want ∧ (w ≠ 0 → o = 0) := by
        rw [bs] at *
        split_ifs at hw <;> omega
      have hcached : ∀ i, o + i < bs → byteAt v e (l * bs + o + i) = v.data b (o + i) := fun i hi => by
        rw [hbyte i (by rwa [Nat.div_eq_of_lt hi]), Nat.div_eq_of_lt hi, Nat.mod_eq_of_lt hi, Nat.add_zero]
      rw [← hw]
      split_ifs with h16 h256 hpart
      · have ho0 := hwhole.2.2 (by rw [directMin] at h16; omega)
        refine Piece.of_eq (by decide) (by rw [bs] at *; omega) fun i hi => ?_
        rw [hbyte i (by rw [bs] at *; omega), ho0, Nat.zero_add]
      · have ho0 := hwhole.2.2 (by rw [directMin] at h16; omega)
        refine Piece.of_eq (by rw [directMin] at h16; rw [bs]; omega) hwhole.2.1 fun i hi => ?_
        rw [hbyte i (by rw [bs] at *; omega), ho0, Nat.zero_add]
      · exact Piece.of_eq (by omega) hpart.le fun i hi => (hcached i (by omega)).symm
      · exact Piece.of_eq hwant0 le_rfl fun i hi => (hcached i (by omega)).symm
  · rw [hfind]
    dsimp only
    rw [if_pos (.inl rfl)]
    exact hzeros run hrun fun k hk b => by simp [hnone k hk]
  · rw [hfind]
    dsimp only
    rw [if_pos (.inl rfl)]
    exact hzeros _ (by decide) fun k hk b => by simp [hnone (l + k) (by omega)]

/-- The loop reads on from where it stands. -/
theorem readLoop_eq (hs : Sorted e) (hp : ∀ x ∈ e, 0 < x.pblk) (hlen : len < 2 ^ 32)
    (hend : off + len ≤ 2 ^ 32 * bs) {n k : ℕ} (hk : k ≤ len) (hn : len ≤ k + n) :
    readLoop v e off len n ((List.range k).map fun i => byteAt v e (off + i)) =
      (List.range len).map fun i => byteAt v e (off + i) := by
  induction n generalizing k with
  | zero => rw [readLoop, show k = len by omega]
  | succ n ih =>
    rw [readLoop, List.length_map, List.length_range]
    split_ifs with hlt
    · obtain ⟨m, hpos, hm, hround⟩ := readRound_piece (v := v) hs hp hlen hend hlt
      rw [hround, ← ih (k := k + m) (by omega) (by omega), List.range_add, List.map_append, List.map_map]
      simp only [Function.comp_def, Nat.add_assoc]
    · rw [show k = len by omega]

/-- **A file is read byte by byte.**  Whatever runs the loop takes at once, holes, blocks that were never
written, parts of blocks through the cache and whole ones past it, what `do_read` gives is each byte of
the file from `off` on, as many as are asked for and are there. -/
theorem doRead_reads {r : Blk} (hs : Sorted e) (hp : ∀ x ∈ e, 0 < x.pblk)
    (hsize : iSize r ≤ 2 ^ 32 * bs) (hlen : len < 2 ^ 32) (hlink : fastLink r = false) :
    doRead v r e off len = (List.range (min len (iSize r - off))).map fun i => byteAt v e (off + i) := by
  rw [doRead, hlink]
  dsimp only
  by_cases hoff : off ≥ iSize r
  · rw [if_pos hoff, Nat.sub_eq_zero_of_le hoff, Nat.min_zero]
    rfl
  obtain ⟨n, hn⟩ : ∃ n, n = min len (iSize r - off) := ⟨_, rfl⟩
  have hmin : (if len > iSize r - off then u32 (iSize r - off) else len) = n := by
    rw [hn]
    split_ifs with h
    · rw [u32_of_lt (by omega), min_eq_right h.le]
    · rw [min_eq_left (by omega)]
  rw [if_neg hoff, hmin, if_neg Bool.false_ne_true, ← hn]
  have hend : off + n ≤ 2 ^ 32 * bs := le_trans (by omega) hsize
  exact readLoop_eq (k := 0) hs hp (by omega) hend (Nat.zero_le n) (by omega)

/-- The last byte of a block, and the first of the hole behind it. -/
theorem doRead_reads_hole : doRead ⟨9, fun _ => true, fun _ => 0, fun _ _ => 7, fun _ _ => 7⟩
    (setSize zeros 8192) [⟨0, 5, 1, false⟩] 4095 2 = [7, 0] := by
  have hsize : iSize (setSize zeros 8192) = 8192 := by decide
  rw [doRead_reads (sorted_singleton.mpr ⟨by decide, by decide, by decide⟩) (by simp)
    (by rw [hsize]; decide) (by decide) (by decide), hsize]
  decide

end BananaOS.Ext4
