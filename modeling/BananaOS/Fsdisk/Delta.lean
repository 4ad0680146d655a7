import BananaOS.Fsdisk.Stream

/-!
# Writing what changed

An update compares the CRC-32C of every 64 KB piece of the image with the disk's table, gathers runs of
pieces that changed and writes a run when the next unchanged piece is met.  `sinkDelta` ends its loop
over a chunk at the first place behind it that is a multiple of the piece's size, so where the image is
not made of whole pieces the last run is not written: `streamImage_delta` says exactly when everything
that changed has been written.
-/

namespace BananaOS.Fsdisk

open Lib

/-! ## The code -/

def HASH_BLOCKS : ℕ := 32

def HTAB_MAX : ℕ := 16384

/-- `make_table`, one entry. -/
def crcEntry (i : UInt32) : UInt32 :=
  (List.range 8).foldl (fun c _ => if c &&& 1 ≠ 0 then (c >>> 1) ^^^ 0x82F63B78 else c >>> 1) i

/-- `crc32c` -/
def crc32c (crc : UInt32) (data : List UInt8) : UInt32 :=
  ~~~data.foldl (fun c b => crcEntry ((c ^^^ b.toUInt32) &&& 0xFF) ^^^ (c >>> 8)) (~~~crc)

/-- `htab_t` -/
structure Htab where
  tab : ℕ → UInt32
  n : ℕ
  valid : Bool
  n_le : n ≤ HTAB_MAX

/-- The blocks of the piece that begins with block `k` of a chunk. -/
def pieceLen (nblk k : ℕ) : ℕ := if nblk - k < HASH_BLOCKS then nblk - k else HASH_BLOCKS

/-- A turn of `hash_chunks`, for the piece at `k`. -/
def hashPiece (blk nblk : ℕ) (data : List UInt8) (t : Htab) (k : ℕ) : Htab :=
  if h : (blk + k) / HASH_BLOCKS < HTAB_MAX then
    { t with
      tab := Function.update t.tab ((blk + k) / HASH_BLOCKS)
        (crc32c 0 ((data.drop (k * 2048)).take (pieceLen nblk k * 2048)))
      n := max t.n ((blk + k) / HASH_BLOCKS + 1)
      n_le := max_le t.n_le h }
  else t

/-- `hash_chunks` -/
def hashChunks (blk nblk : ℕ) (data : List UInt8) (t : Htab) : Htab :=
  (List.range ((nblk + 31) / 32)).foldl (fun t j => hashPiece blk nblk data t (32 * j)) t

/-- A `disk_write` that succeeded. -/
structure Write where
  lba : ℕ
  data : List UInt8
  deriving DecidableEq

/-- `g_new`, and the writes so far. -/
structure Disk where
  new : Htab
  writes : List Write

/-- `disk_write` of `n` sectors; `dev` says which of the writes succeed. -/
def Disk.write (dev : ℕ → Bool) (d : Disk) (lba n : ℕ) (p : List UInt8) : Disk × Bool :=
  if dev d.writes.length then ({ d with writes := d.writes ++ [⟨lba, p.take (n * 512)⟩] }, true)
  else (d, false)

/-- The variables of `sink_delta`'s loop. -/
structure Gather where
  run : ℕ
  runLen : ℕ
  disk : Disk

/-- A turn of `sink_delta`'s loop, at `k`. -/
def gatherTurn (old : Htab) (dev : ℕ → Bool) (blk nblk : ℕ) (data : List UInt8) (g : Gather) (k : ℕ) :
    Gather × Bool :=
  let i := (blk + k) / HASH_BLOCKS
  if k < nblk ∧ ¬(old.valid = true ∧ i < old.n ∧ old.tab i = g.disk.new.tab i) then
    ({ g with
      run := if g.runLen = 0 then k else g.run
      runLen := g.runLen + pieceLen nblk k }, true)
  else if g.runLen ≠ 0 then
    let (d, ok) := g.disk.write dev ((blk + g.run) * 4) (g.runLen * 4) (data.drop (g.run * 2048))
    ({ g with runLen := if ok then 0 else g.runLen, disk := d }, ok)
  else (g, true)

/-- The loop of `sink_delta` over the turns `js`; a write that fails ends it. -/
def gather (old : Htab) (dev : ℕ → Bool) (blk nblk : ℕ) (data : List UInt8) :
    List ℕ → Gather → Gather × Bool
  | [], g => (g, true)
  | j :: js, g =>
    let (g, ok) := gatherTurn old dev blk nblk data g (32 * j)
    if ok then gather old dev blk nblk data js g else (g, false)

/-- `sink_delta` -/
def sinkDelta (old : Htab) (dev : ℕ → Bool) : Sink Disk := fun blk nblk data d =>
  let d := { d with new := hashChunks blk nblk data d.new }
  let (g, ok) := gather old dev blk nblk data (List.range (nblk / 32 + 1)) ⟨0, 0, d⟩
  (g.disk, ok)

/-- `need_changed`, with the table `cmp` of the comparison. -/
def needChanged (old cmp : Htab) (blk nblk : ℕ) : Bool :=
  (List.range' (blk / HASH_BLOCKS) ((blk + nblk + HASH_BLOCKS - 1) / HASH_BLOCKS - blk / HASH_BLOCKS)).any
    fun i => !(decide (i < old.n) && decide (i < cmp.n) && old.tab i == cmp.tab i)

/-! ## The pieces of the image -/

namespace Args

variable (a : Args)

/-- The new bytes of piece `i`. -/
def pieceBytes (i : ℕ) : List UInt8 :=
  ((a.chunkBytes (512 * (i / 16))).drop (i % 16 * 65536)).take 65536

/-- The piece is not the one that the old table has. -/
def Changed (old : Htab) (i : ℕ) : Prop :=
  ¬(old.valid = true ∧ i < old.n ∧ old.tab i = crc32c 0 (a.pieceBytes i))

/-- One of the writes put the new bytes of piece `i` in its place. -/
def Written (W : List Write) (i : ℕ) : Prop :=
  ∃ w ∈ W, w.lba * 512 ≤ i * 65536 ∧
    (w.data.drop (i * 65536 - w.lba * 512)).take (a.pieceBytes i).length = a.pieceBytes i

/-- No write touched the place of piece `i`. -/
def Untouched (W : List Write) (i : ℕ) : Prop :=
  ∀ w ∈ W, w.lba * 512 + w.data.length ≤ i * 65536 ∨
    i * 65536 + (a.pieceBytes i).length ≤ w.lba * 512

theorem length_chunkBytes (done : ℕ) : (a.chunkBytes done).length = a.blocks done * 2048 := by
  rw [chunkBytes, List.length_map, List.length_range]

variable {a} {old : Htab} {dev : ℕ → Bool} {W : List Write} {w : Write} {c i j r e : ℕ}

theorem length_pieceBytes_le : (a.pieceBytes i).length ≤ 65536 := List.length_take_le ..

theorem pieceBytes_eq (hj : j < 16) : a.pieceBytes (16 * c + j) =
    ((a.chunkBytes (512 * c)).drop (j * 65536)).take 65536 := by
  rw [pieceBytes, show (16 * c + j) / 16 = c by omega, show (16 * c + j) % 16 = j by omega]

theorem pieceBytes_pos (hi : 32 * i < a.total) : 0 < (a.pieceBytes i).length := by
  have hblocks : i % 16 * 32 < a.blocks (512 * (i / 16)) := by
    rw [blocks, READ_BLOCKS]
    split_ifs <;> omega
  rw [pieceBytes, List.length_take, List.length_drop, a.length_chunkBytes]
  omega

theorem Written.not_untouched (hi : 32 * i < a.total) (h : a.Written W i) : ¬a.Untouched W i := by
  obtain ⟨w, hw, hle, hdata⟩ := h
  intro hun
  have hpos := pieceBytes_pos hi
  have hlen := congrArg List.length hdata
  rw [List.length_take, List.length_drop] at hlen
  have := hun w hw
  omega

theorem Written.mono {V : List Write} (h : a.Written W i) : a.Written (W ++ V) i := by
  obtain ⟨w, hw, hrest⟩ := h
  exact ⟨w, List.mem_append_left _ hw, hrest⟩

theorem untouched_concat : a.Untouched (W ++ [w]) i ↔ a.Untouched W i ∧
    (w.lba * 512 + w.data.length ≤ i * 65536 ∨ i * 65536 + (a.pieceBytes i).length ≤ w.lba * 512) := by
  simp [Untouched, or_imp, forall_and]

/-! ## A run of pieces -/

/-- The pieces `r` to `e` of chunk `c`, as one write. -/
def runWrite (a : Args) (c r e : ℕ) : Write where
  lba := r * 128
  data := ((a.chunkBytes (512 * c)).drop ((r - 16 * c) * 65536)).take ((e - r) * 65536)

theorem length_runWrite (hr : 16 * c ≤ r) (hre : r ≤ e) (he : 32 * (e - 16 * c) ≤ a.blocks (512 * c)) :
    (runWrite a c r e).data.length = (e - r) * 65536 := by
  rw [runWrite, List.length_take, List.length_drop, a.length_chunkBytes]
  omega

/-- The pieces of the run have been written. -/
theorem written_runWrite (hr : 16 * c ≤ r) (he : 32 * (e - 16 * c) ≤ a.blocks (512 * c)) (hri : r ≤ i)
    (hie : i < e) : a.Written (W ++ [runWrite a c r e]) i := by
  have hle := a.blocks_le (512 * c)
  rw [READ_BLOCKS] at hle
  obtain ⟨j, rfl⟩ : ∃ j, i = 16 * c + j := ⟨i - 16 * c, by omega⟩
  have hpiece := pieceBytes_eq (a := a) (c := c) (show j < 16 by omega)
  have hlen : (a.pieceBytes (16 * c + j)).length = 65536 := by
    rw [hpiece, List.length_take, List.length_drop, a.length_chunkBytes]
    omega
  refine ⟨runWrite a c r e, by simp, ?_, ?_⟩
  · rw [runWrite]
    dsimp only
    omega
  · rw [hlen, hpiece, runWrite]
    dsimp only
    rw [List.drop_take, List.drop_drop, List.take_take, min_eq_left (by omega),
      show (r - 16 * c) * 65536 + ((16 * c + j) * 65536 - r * 128 * 512) = j * 65536 by omega]

theorem untouched_runWrite (hr : 16 * c ≤ r) (hre : r ≤ e)
    (he : 32 * (e - 16 * c) ≤ a.blocks (512 * c)) (hi : i < r ∨ e ≤ i) (h : a.Untouched W i) :
    a.Untouched (W ++ [runWrite a c r e]) i := by
  have hlen := length_pieceBytes_le (a := a) (i := i)
  rw [untouched_concat, length_runWrite hr hre he]
  refine ⟨h, ?_⟩
  rw [runWrite]
  dsimp only
  omega

/-! ## The checksums of a chunk -/

theorem hashPiece_tab {blk nblk : ℕ} {data : List UInt8} {t : Htab} {k : ℕ} :
    (hashPiece blk nblk data t k).tab i =
      if i = (blk + k) / 32 ∧ i < HTAB_MAX then
        crc32c 0 ((data.drop (k * 2048)).take (pieceLen nblk k * 2048))
      else t.tab i := by
  have hB : (blk + k) / HASH_BLOCKS = (blk + k) / 32 := rfl
  by_cases h : (blk + k) / HASH_BLOCKS < HTAB_MAX
  · rw [hashPiece, dif_pos h]
    dsimp only
    rw [Function.update_apply, hB]
    exact if_congr ⟨fun heq => ⟨heq, heq ▸ h⟩, And.left⟩ rfl rfl
  · rw [hashPiece, dif_neg h, if_neg fun hc => h (by rw [hB, ← hc.1]; exact hc.2)]

/-- The table after a chunk has the checksums of its pieces. -/
theorem hashChunks_tab {t : Htab} (hj : 32 * j < a.blocks (512 * c)) (hmax : 16 * c + j < HTAB_MAX) :
    (hashChunks (512 * c) (a.blocks (512 * c)) (a.chunkBytes (512 * c)) t).tab (16 * c + j) =
      crc32c 0 (a.pieceBytes (16 * c + j)) := by
  have hle := a.blocks_le (512 * c)
  rw [READ_BLOCKS] at hle
  have hslice : ((a.chunkBytes (512 * c)).drop (32 * j * 2048)).take
      (pieceLen (a.blocks (512 * c)) (32 * j) * 2048) = a.pieceBytes (16 * c + j) := by
    rw [pieceBytes_eq (by omega), show 32 * j * 2048 = j * 65536 by omega]
    have hlen : ((a.chunkBytes (512 * c)).drop (j * 65536)).length =
        a.blocks (512 * c) * 2048 - j * 65536 := by
      rw [List.length_drop, a.length_chunkBytes]
    rw [pieceLen, HASH_BLOCKS]
    split_ifs
    · rw [List.take_of_length_le (by omega), List.take_of_length_le (by omega)]
    · rfl
  have hfold : ∀ m, ((List.range m).foldl (fun t j => hashPiece (512 * c) (a.blocks (512 * c))
      (a.chunkBytes (512 * c)) t (32 * j)) t).tab (16 * c + j) =
        if j < m then crc32c 0 (a.pieceBytes (16 * c + j)) else t.tab (16 * c + j) := by
    intro m
    induction m with
    | zero => rfl
    | succ m ih =>
      rw [List.range_succ, List.foldl_concat, hashPiece_tab, ih]
      by_cases hjm : j = m
      · subst hjm
        rw [if_pos ⟨by omega, hmax⟩, hslice, if_pos (Nat.lt_succ_self _)]
      · rw [if_neg (by omega)]
        exact if_congr (by omega) rfl rfl
  rw [hashChunks, hfold, if_pos (by omega)]

/-! ## The loop over a chunk -/

/-- Pieces of the image up to `r` are as they should be, the others have not been touched. -/
structure Settled (a : Args) (old : Htab) (W : List Write) (r : ℕ) : Prop where
  written : ∀ i < r, a.Changed old i → a.Written W i
  spared : ∀ i < r, ¬a.Changed old i → a.Untouched W i
  above : ∀ i, r ≤ i → a.Untouched W i

/-- After `p` pieces of chunk `c`: those from `r` on have changed and are still to be written. -/
structure Gathered (a : Args) (old : Htab) (c p : ℕ) (g : Gather) (r : ℕ) : Prop where
  start : 16 * c ≤ r
  le : r ≤ 16 * c + p
  run : g.runLen ≠ 0 → g.run = 32 * (r - 16 * c)
  len : g.runLen = min (32 * p) (a.blocks (512 * c)) - 32 * (r - 16 * c)
  changed : ∀ i, r ≤ i → i < 16 * c + p → a.Changed old i
  tab : ∀ j, 32 * j < a.blocks (512 * c) → 16 * c + j < HTAB_MAX →
    g.disk.new.tab (16 * c + j) = crc32c 0 (a.pieceBytes (16 * c + j))
  settled : Settled a old g.disk.writes r

variable {g g' : Gather} {p : ℕ}

/-- The run is written, or there is none. -/
theorem Gathered.flush (h : Gathered a old c p g r) (dev : ℕ → Bool) (hp : 32 * p ≤ a.blocks (512 * c)) :
    (g.runLen = 0 → r = 16 * c + p) ∧ (g.runLen ≠ 0 →
      g.disk.write dev ((512 * c + g.run) * 4) (g.runLen * 4)
          ((a.chunkBytes (512 * c)).drop (g.run * 2048)) =
        if dev g.disk.writes.length then
          ({ g.disk with writes := g.disk.writes ++ [runWrite a c r (16 * c + p)] }, true)
        else (g.disk, false)) ∧
    Settled a old (g.disk.writes ++ [runWrite a c r (16 * c + p)]) (16 * c + p) := by
  have hlen := h.len
  have hstart := h.start
  have hle := h.le
  rw [min_eq_left hp] at hlen
  have he : 32 * (16 * c + p - 16 * c) ≤ a.blocks (512 * c) := by omega
  refine ⟨fun h0 => by omega, fun h0 => ?_, ?_⟩
  · have hrun := h.run h0
    have hwrite : runWrite a c r (16 * c + p) = ⟨(512 * c + g.run) * 4,
        ((a.chunkBytes (512 * c)).drop (g.run * 2048)).take (g.runLen * 4 * 512)⟩ := by
      rw [runWrite, hrun, hlen, show (512 * c + 32 * (r - 16 * c)) * 4 = r * 128 by omega,
        show 32 * (r - 16 * c) * 2048 = (r - 16 * c) * 65536 by omega,
        show (32 * p - 32 * (r - 16 * c)) * 4 * 512 = (16 * c + p - r) * 65536 by omega]
    rw [Disk.write, hwrite]
  · refine ⟨fun i hi hch => ?_, fun i hi hch => ?_, fun i hi => ?_⟩
    · rcases Nat.lt_or_ge i r with hir | hir
      · exact (h.settled.written i hir hch).mono
      · exact written_runWrite hstart he hir hi
    · rcases Nat.lt_or_ge i r with hir | hir
      · exact untouched_runWrite hstart hle he (.inl hir) (h.settled.spared i hir hch)
      · exact absurd (h.changed i hir hi) hch
    · exact untouched_runWrite hstart hle he (.inr hi) (h.settled.above i (by omega))

theorem Settled.skip (h : Settled a old W r) (hr : ¬a.Changed old r) : Settled a old W (r + 1) where
  written i hi hch := by
    rcases Nat.lt_succ_iff_lt_or_eq.mp hi with hlt | rfl
    · exact h.written i hlt hch
    · exact absurd hch hr
  spared i hi hch := by
    rcases Nat.lt_succ_iff_lt_or_eq.mp hi with hlt | rfl
    · exact h.spared i hlt hch
    · exact h.above i le_rfl
  above i hi := h.above i (by omega)

/-- Where nothing is to be written, the next piece did not change either. -/
theorem Gathered.next (h : Gathered a old c p g r) {d : Disk} (hd : d.new = g.disk.new)
    (hs : Settled a old d.writes (16 * c + p)) (hch : ¬a.Changed old (16 * c + p)) :
    Gathered a old c (p + 1) ⟨g.run, 0, d⟩ (16 * c + p + 1) where
  start := by omega
  le := by omega
  run h0 := absurd rfl h0
  len := by
    dsimp only
    omega
  changed i h1 h2 := by omega
  tab j hj hmax := by
    dsimp only
    rw [hd]
    exact h.tab j hj hmax
  settled := hs.skip hch

/-- A turn for a piece. -/
theorem Gathered.turn (h : Gathered a old c p g r) (hp : 32 * p < a.blocks (512 * c))
    (hturn : gatherTurn old dev (512 * c) (a.blocks (512 * c)) (a.chunkBytes (512 * c)) g (32 * p) =
      (g', true)) :
    ∃ r', Gathered a old c (p + 1) g' r' ∧ (a.Changed old (16 * c + p) → r' ≤ 16 * c + p) := by
  have hidx : (512 * c + 32 * p) / HASH_BLOCKS = 16 * c + p := by
    rw [HASH_BLOCKS]
    omega
  have hcond : (32 * p < a.blocks (512 * c) ∧ ¬(old.valid = true ∧ 16 * c + p < old.n ∧
      old.tab (16 * c + p) = g.disk.new.tab (16 * c + p))) ↔ a.Changed old (16 * c + p) := by
    have htab : 16 * c + p < old.n →
        g.disk.new.tab (16 * c + p) = crc32c 0 (a.pieceBytes (16 * c + p)) :=
      fun hn => h.tab p hp (hn.trans_le old.n_le)
    rw [Changed, and_iff_right hp]
    refine not_congr (and_congr_right fun _ => and_congr_right fun hn => ?_)
    rw [htab hn]
  rw [← hidx] at hcond
  obtain ⟨hnone, hwrite, hsettled⟩ := h.flush dev hp.le
  by_cases hch : a.Changed old (16 * c + p)
  · rw [gatherTurn, if_pos (hcond.mpr (hidx ▸ hch))] at hturn
    obtain rfl := congrArg Prod.fst hturn
    have hlen := h.len
    have hle := h.le
    have hstart := h.start
    refine ⟨r, ⟨hstart, by omega, fun _ => ?_, ?_, fun i h1 h2 => ?_, h.tab, h.settled⟩, fun _ => hle⟩
    · dsimp only
      split_ifs with h0
      · have := hnone h0
        omega
      · exact h.run h0
    · dsimp only
      rw [hlen, pieceLen, HASH_BLOCKS]
      split_ifs <;> omega
    · rcases Nat.lt_or_ge i (16 * c + p) with hlt | hge
      · exact h.changed i h1 hlt
      · rwa [show i = 16 * c + p by omega]
  · rw [gatherTurn, if_neg fun hc => hch (hidx ▸ hcond.mp hc)] at hturn
    by_cases h0 : g.runLen = 0
    · rw [if_neg (not_not.mpr h0)] at hturn
      obtain rfl : g = g' := congrArg Prod.fst hturn
      have hnext := h.next (d := g.disk) rfl (hnone h0 ▸ h.settled) hch
      rw [← h0] at hnext
      exact ⟨_, hnext, fun hc => absurd hc hch⟩
    · rw [if_pos h0, hwrite h0] at hturn
      split_ifs at hturn with hdev
      · obtain rfl := congrArg Prod.fst hturn
        exact ⟨_, h.next rfl hsettled hch, fun hc => absurd hc hch⟩
      · exact absurd (congrArg Prod.snd hturn) Bool.false_ne_true

/-- The turn behind the last piece, where the chunk is made of whole pieces. -/
theorem Gathered.finish (h : Gathered a old c p g r) (hp : 32 * p = a.blocks (512 * c))
    (hturn : gatherTurn old dev (512 * c) (a.blocks (512 * c)) (a.chunkBytes (512 * c)) g (32 * p) =
      (g', true)) : Settled a old g'.disk.writes (16 * c + p) := by
  obtain ⟨hnone, hwrite, hsettled⟩ := h.flush dev hp.le
  rw [gatherTurn, if_neg fun hc => absurd hc.1 (by omega)] at hturn
  by_cases h0 : g.runLen = 0
  · rw [if_neg (not_not.mpr h0)] at hturn
    obtain rfl : g = g' := congrArg Prod.fst hturn
    exact hnone h0 ▸ h.settled
  · rw [if_pos h0, hwrite h0] at hturn
    split_ifs at hturn with hdev
    · obtain rfl := congrArg Prod.fst hturn
      exact hsettled
    · exact absurd (congrArg Prod.snd hturn) Bool.false_ne_true

theorem gather_append {blk nblk : ℕ} {data : List UInt8} (js ks : List ℕ) (g : Gather) :
    gather old dev blk nblk data (js ++ ks) g =
      if (gather old dev blk nblk data js g).2 then
        gather old dev blk nblk data ks (gather old dev blk nblk data js g).1
      else gather old dev blk nblk data js g := by
  induction js generalizing g with
  | nil => rfl
  | cons j js ih =>
    rw [List.cons_append, gather, gather]
    dsimp only
    split_ifs <;> first | exact ih _ | simp_all

/-- The turns for some pieces of a chunk, one after the other. -/
theorem Gathered.pieces {m : ℕ} (h : Gathered a old c p g r)
    (hlast : ∀ i, 16 * c ≤ i → i + 1 = 16 * c + p → a.Changed old i → r ≤ i)
    (hm : m ≠ 0 → 32 * (p + m - 1) < a.blocks (512 * c))
    (hrun : gather old dev (512 * c) (a.blocks (512 * c)) (a.chunkBytes (512 * c)) (List.range' p m) g =
      (g', true)) :
    ∃ r', Gathered a old c (p + m) g' r' ∧
      ∀ i, 16 * c ≤ i → i + 1 = 16 * c + (p + m) → a.Changed old i → r' ≤ i := by
  induction m generalizing p g r with
  | zero =>
    obtain rfl : g = g' := congrArg Prod.fst hrun
    exact ⟨r, h, hlast⟩
  | succ m ih =>
    rw [List.range'_succ, gather] at hrun
    obtain ⟨g1, ok, hturn⟩ : ∃ g1 ok, gatherTurn old dev (512 * c) (a.blocks (512 * c))
      (a.chunkBytes (512 * c)) g (32 * p) = (g1, ok) := ⟨_, _, rfl⟩
    rw [hturn] at hrun
    cases ok with
    | false => exact absurd (congrArg Prod.snd hrun) Bool.false_ne_true
    | true =>
      have hlt := hm (Nat.succ_ne_zero m)
      obtain ⟨r1, hg1, hlast1⟩ := h.turn (by omega) hturn
      have hlast' : ∀ i, 16 * c ≤ i → i + 1 = 16 * c + (p + 1) → a.Changed old i → r1 ≤ i := by
        intro i _ hi hch
        obtain rfl : i = 16 * c + p := by omega
        exact hlast1 hch
      obtain ⟨r', hg', hend⟩ := ih hg1 hlast' (fun h0 => by
        rwa [show p + 1 + m - 1 = p + (m + 1) - 1 by omega]) hrun
      rw [show p + 1 + m = p + (m + 1) by omega] at hg' hend
      exact ⟨r', hg', hend⟩

/-- A chunk handed to `sink_delta`: its pieces are settled, but for the last run of a chunk that is not
made of whole pieces. -/
theorem sinkDelta_chunk {d d' : Disk} (hlt : 512 * c < a.total) (h : Settled a old d.writes (16 * c))
    (hok : sinkDelta old dev (512 * c) (a.blocks (512 * c)) (a.chunkBytes (512 * c)) d = (d', true)) :
    ∃ r, Settled a old d'.writes r ∧
      (a.blocks (512 * c) % 32 = 0 → 32 * r = 512 * c + a.blocks (512 * c)) ∧
      (a.blocks (512 * c) % 32 ≠ 0 →
        (¬a.Changed old ((512 * c + a.blocks (512 * c)) / 32) →
          r = (512 * c + a.blocks (512 * c)) / 32 + 1) ∧
        (a.Changed old ((512 * c + a.blocks (512 * c)) / 32) →
          r ≤ (512 * c + a.blocks (512 * c)) / 32)) := by
  have hpos := a.blocks_pos hlt
  obtain ⟨n, hn⟩ : ∃ n, n = a.blocks (512 * c) := ⟨_, rfl⟩
  obtain ⟨d0, hd0⟩ : ∃ d0 : Disk, d0 = { d with
    new := hashChunks (512 * c) (a.blocks (512 * c)) (a.chunkBytes (512 * c)) d.new } := ⟨_, rfl⟩
  have hstart : Gathered a old c 0 ⟨0, 0, d0⟩ (16 * c) := by
    refine ⟨le_rfl, by omega, fun h0 => absurd rfl h0, ?_, fun i h1 h2 => by omega, fun j hj hmax => ?_, ?_⟩
    · dsimp only
      omega
    · rw [hd0]
      exact hashChunks_tab hj hmax
    · rw [hd0]
      exact h
  have hlast0 : ∀ i, 16 * c ≤ i → i + 1 = 16 * c + 0 → a.Changed old i → 16 * c ≤ i :=
    fun i hi _ _ => hi
  rw [sinkDelta] at hok
  dsimp only at hok
  rw [← hd0] at hok
  rw [← hn] at hok hpos ⊢
  obtain ⟨g', ok, hg'⟩ : ∃ g' ok, gather old dev (512 * c) n (a.chunkBytes (512 * c))
      (List.range (n / 32 + 1)) ⟨0, 0, d0⟩ = (g', ok) := ⟨_, _, rfl⟩
  rw [hg'] at hok
  obtain rfl : g'.disk = d' := congrArg Prod.fst hok
  obtain rfl : ok = true := congrArg Prod.snd hok
  by_cases hmod : n % 32 = 0
  · -- one turn more, behind the last piece
    rw [List.range_succ, gather_append, List.range_eq_range'] at hg'
    split_ifs at hg' with hpieces
    · obtain ⟨g1, hg1⟩ : ∃ g1, gather old dev (512 * c) n (a.chunkBytes (512 * c))
        (List.range' 0 (n / 32)) ⟨0, 0, d0⟩ = (g1, true) := ⟨_, Prod.ext rfl hpieces⟩
      rw [hg1, gather] at hg'
      dsimp only at hg'
      obtain ⟨g2, ok, hturn⟩ : ∃ g2 ok, gatherTurn old dev (512 * c) n (a.chunkBytes (512 * c)) g1
        (32 * (n / 32)) = (g2, ok) := ⟨_, _, rfl⟩
      rw [hturn] at hg'
      cases ok with
      | false => exact absurd (congrArg Prod.snd hg') Bool.false_ne_true
      | true =>
        obtain rfl : g2 = g' := congrArg Prod.fst hg'
        rw [hn] at hg1 hturn
        obtain ⟨r, hg, -⟩ := hstart.pieces hlast0 (fun _ => by omega) hg1
        rw [Nat.zero_add] at hg
        have hset := hg.finish (by omega) hturn
        exact ⟨_, hset, fun _ => by omega, fun h0 => absurd hmod h0⟩
    · rw [hg'] at hpieces
      exact absurd rfl hpieces
  · rw [List.range_eq_range', hn] at hg'
    obtain ⟨r, hg, hlast⟩ := hstart.pieces hlast0 (fun _ => by omega) hg'
    rw [← hn] at hg hlast
    refine ⟨r, hg.settled, fun h0 => absurd h0 hmod, fun _ => ⟨fun hch => ?_, fun hch => ?_⟩⟩
    · by_contra hne
      have hle := hg.le
      exact hch (hg.changed _ (by omega) (by omega))
    · exact hlast _ (by omega) (by omega) hch

/-! ## The whole image -/

theorem Settled.skips (h : Settled a old W r) (hre : r ≤ e)
    (hno : ∀ i, r ≤ i → i < e → ¬a.Changed old i) : Settled a old W e := by
  induction e, hre using Nat.le_induction with
  | base => exact h
  | succ e hre ih =>
    exact (ih fun i h1 h2 => hno i h1 (by omega)).skip (hno e hre (by omega))

/-- The table was made of the pieces of this image, by a comparison. -/
def MadeFrom (cmp : Htab) : Prop := ∀ i < cmp.n, cmp.tab i = crc32c 0 (a.pieceBytes i)

/-- The chunks that are skipped: none, or those of which a comparison found every piece in the old
table. -/
def Skips (a : Args) (old : Htab) : Prop :=
  (∀ blk nblk, a.need blk nblk = true) ∨
    ∃ cmp : Htab, old.valid = true ∧ a.MadeFrom cmp ∧ a.need = needChanged old cmp

theorem Skips.not_changed (h : a.Skips old) {n : ℕ} (hneed : a.need (512 * c) n = false)
    (hi : 16 * c ≤ i) (hn : 32 * i < 512 * c + n) : ¬a.Changed old i := by
  rcases h with h | ⟨cmp, hvalid, hcmp, h⟩
  · rw [h] at hneed
    exact absurd hneed (by decide)
  · rw [h, needChanged, HASH_BLOCKS, List.any_eq_false] at hneed
    have hmem := hneed i (by rw [List.mem_range'_1]; omega)
    simp only [Bool.not_eq_true', Bool.not_eq_false, Bool.and_eq_true, decide_eq_true_eq,
      beq_iff_eq] at hmem
    obtain ⟨⟨hold, hlt⟩, heq⟩ := hmem
    rw [Changed, not_not]
    exact ⟨hvalid, hold, heq.trans (hcmp i hlt)⟩

/-- How far an update is after `done` blocks. -/
def Updated (a : Args) (old : Htab) (done : ℕ) (W : List Write) : Prop :=
  ∃ r, Settled a old W r ∧ (done = 32 * r ∨ (done = a.total ∧ a.total % 32 ≠ 0 ∧
    (¬a.Changed old (a.total / 32) → r = a.total / 32 + 1) ∧
    (a.Changed old (a.total / 32) → r ≤ a.total / 32)))

theorem updated_run {heap : Option (ℕ → UInt8)} {new : Htab} (hskips : a.Skips old)
    (hok : (a.streamImage (sinkDelta old dev) heap ⟨new, []⟩).2 = true) :
    Updated a old a.total (a.streamImage (sinkDelta old dev) heap ⟨new, []⟩).1.writes := by
  have hend : ∀ c, 512 * c < a.total → a.blocks (512 * c) % 32 ≠ 0 →
      512 * c + a.blocks (512 * c) = a.total := by
    intro c hlt hmod
    rw [blocks, READ_BLOCKS] at hmod ⊢
    split_ifs at hmod ⊢
    · omega
    · exact absurd rfl hmod
  refine a.stream_ind (P := fun done (d : Disk) => Updated a old done d.writes) ?_ ?_ ?_ hok
  · rintro _ d hlt ⟨c, rfl⟩ hneed ⟨r, hset, hr⟩
    rw [READ_BLOCKS] at *
    obtain rfl : r = 16 * c := by omega
    have hpos := a.blocks_pos hlt
    have hskip := hset.skips (e := 16 * c + (a.blocks (512 * c) + 31) / 32) (by omega)
      fun i h1 h2 => hskips.not_changed hneed h1 (by omega)
    refine ⟨_, hskip, ?_⟩
    by_cases hmod : a.blocks (512 * c) % 32 = 0
    · exact .inl (by omega)
    · have htotal := hend c hlt hmod
      refine .inr ⟨htotal, by omega, fun _ => by omega, fun hch => ?_⟩
      exact absurd hch (hskips.not_changed hneed (by omega) (by omega))
  · rintro _ d d' hlt ⟨c, rfl⟩ - ⟨r, hset, hr⟩ hsink
    rw [READ_BLOCKS] at *
    obtain rfl : r = 16 * c := by omega
    obtain ⟨r', hset', hwhole, hpart⟩ := sinkDelta_chunk hlt hset hsink
    refine ⟨r', hset', ?_⟩
    by_cases hmod : a.blocks (512 * c) % 32 = 0
    · exact .inl (hwhole hmod).symm
    · have htotal := hend c hlt hmod
      rw [htotal] at hpart ⊢
      exact .inr ⟨rfl, by omega, hpart hmod⟩
  · exact ⟨0, ⟨fun i hi => absurd hi (Nat.not_lt_zero i), fun i hi => absurd hi (Nat.not_lt_zero i),
      fun i _ w hw => absurd hw List.not_mem_nil⟩, .inl rfl⟩

/-- After an update that succeeded, every piece that changed has been written and no other one, if and
only if the image is made of whole pieces or its last piece did not change. -/
theorem streamImage_delta {heap : Option (ℕ → UInt8)} {new : Htab} (hskips : a.Skips old)
    (hok : (a.streamImage (sinkDelta old dev) heap ⟨new, []⟩).2 = true) :
    (∀ i, 32 * i < a.total →
      (a.Changed old i →
        a.Written (a.streamImage (sinkDelta old dev) heap ⟨new, []⟩).1.writes i) ∧
      (¬a.Changed old i →
        a.Untouched (a.streamImage (sinkDelta old dev) heap ⟨new, []⟩).1.writes i)) ↔
    (a.total % 32 = 0 ∨ ¬a.Changed old (a.total / 32)) := by
  obtain ⟨r, hset, hr⟩ := updated_run hskips hok
  have hall : a.total ≤ 32 * r → ∀ i, 32 * i < a.total →
      (a.Changed old i → a.Written _ i) ∧ (¬a.Changed old i → a.Untouched _ i) :=
    fun hle i hi => ⟨hset.written i (by omega), hset.spared i (by omega)⟩
  rcases hr with hr | ⟨-, hmod, hsame, hlast⟩
  · exact iff_of_true (hall hr.le) (.inl (by omega))
  · by_cases hch : a.Changed old (a.total / 32)
    · refine iff_of_false (fun h => ?_) (by rw [not_or, not_not]; exact ⟨hmod, hch⟩)
      have hi : 32 * (a.total / 32) < a.total := by omega
      exact ((h _ hi).1 hch).not_untouched hi (hset.above _ (hlast hch))
    · have := hsame hch
      exact iff_of_true (hall (by omega)) (.inr hch)

end Args

/-! ## An image that is not made of whole pieces -/

/-- A disk without a table. -/
def noTable : Htab := ⟨fun _ => 0, 0, false, Nat.zero_le _⟩

theorem changed_noTable {a : Args} {i : ℕ} : a.Changed noTable i := fun h => Bool.false_ne_true h.1

/-- With writes that never fail, `sink_delta` never does. -/
theorem sinkDelta_ok {old : Htab} (blk nblk : ℕ) (data : List UInt8) (d : Disk) :
    (sinkDelta old (fun _ => true) blk nblk data d).2 = true := by
  have hturn : ∀ g k, (gatherTurn old (fun _ => true) blk nblk data g k).2 = true := by
    intro g k
    rw [gatherTurn]
    dsimp only
    split
    · rfl
    · split
      · rfl
      · rfl
  have hloop : ∀ js g, (gather old (fun _ => true) blk nblk data js g).2 = true := by
    intro js
    induction js with
    | nil => exact fun _ => rfl
    | cons j js ih =>
      intro g
      rw [gather]
      dsimp only
      rw [if_pos (hturn g (32 * j))]
      exact ih _
  exact hloop _ _

/-- The blank CD with 32 blocks: one whole piece. -/
def whole : Args := { blank with iso_bytes := 65536 }

theorem streamImage_delta_whole :
    (whole.Changed noTable 0 → whole.Written (whole.streamImage (sinkDelta noTable fun _ => true)
      (some fun _ => 7) ⟨noTable, []⟩).1.writes 0) ∧
    (¬whole.Changed noTable 0 → whole.Untouched (whole.streamImage (sinkDelta noTable fun _ => true)
      (some fun _ => 7) ⟨noTable, []⟩).1.writes 0) :=
  (Args.streamImage_delta (.inl fun _ _ => rfl)
    (whole.streamImage_ok (fun _ _ => rfl) sinkDelta_ok _ _)).mpr (.inl (by decide)) 0 (by decide)

/-- The blank CD of one block: its only piece has changed, and an update that succeeds does not write
it. -/
theorem blank_not_written :
    (blank.streamImage (sinkDelta noTable fun _ => true) (some fun _ => 7) ⟨noTable, []⟩).2 = true ∧
    0 < blank.total ∧ blank.Changed noTable 0 ∧
    ¬blank.Written (blank.streamImage (sinkDelta noTable fun _ => true) (some fun _ => 7)
      ⟨noTable, []⟩).1.writes 0 := by
  have hok : (blank.streamImage (sinkDelta noTable fun _ => true) (some fun _ => 7)
      ⟨noTable, []⟩).2 = true := blank.streamImage_ok (fun _ _ => rfl) sinkDelta_ok _ _
  have htotal : blank.total = 1 := by decide
  refine ⟨hok, by decide, changed_noTable, fun hw => ?_⟩
  obtain ⟨r, hset, hr⟩ := Args.updated_run (.inl fun _ _ => rfl) hok
  rw [htotal] at hr
  rcases hr with hr | ⟨-, -, -, hlast⟩
  · omega
  · exact hw.not_untouched (by decide) (hset.above 0 (hlast changed_noTable))

end BananaOS.Fsdisk
