import BananaOS.Ext4.Journal

/-!
# What a transaction writes

The log of `jcommit` (`Journal.jcommit_log`): four windows, each closed by a flush.

* `windowA`: the journal's superblock, the flag in block 0, the descriptors and the copies;
* `windowB`: the commit block;
* `windowC`: the blocks in place;
* `windowD`: the journal's superblock and the flag again.

What `jw_put` is given goes out later, in runs: `Js.Adds` counts it in at once.
-/

namespace BananaOS.Ext4

open Lib Function

/-- Blocks in a row, with where each goes. -/
def inRow : ℕ → List Blk → List (ℕ × Blk)
  | _, [] => []
  | p, b :: l => (p, b) :: inRow (p + 1) l

theorem inRow_append (p : ℕ) (l l' : List Blk) :
    inRow p (l ++ l') = inRow p l ++ inRow (p + l.length) l' := by
  induction l generalizing p with
  | nil => rfl
  | cons b l ih =>
    rw [List.cons_append, inRow, inRow, ih, List.length_cons, List.cons_append, Nat.add_right_comm,
      Nat.add_assoc]

/-- A journal that `journal_open` accepts, on a disk that `mount_sb` accepts: `journal_open` reads
`jlen` and `jfirst`, and the journal's file has its blocks. -/
structure Journal.Ok (J : Journal) : Prop where
  first : 1 ≤ J.jfirst
  len : J.jfirst + 16 ≤ J.jlen
  lt : J.jlen < 2 ^ 32
  nblocks : J.nblocks ≤ 2 ^ 29
  map : ∀ i < J.jlen, J.jblk i ≠ 0
  inj : ∀ i < J.jlen, ∀ j < J.jlen, J.jblk i = J.jblk j → i = j

/-- Dirty blocks of the filesystem, no two the same and none of the journal, and room for them. -/
structure Journal.Tx (J : Journal) (a : List CBlk) : Prop where
  nodup : (a.map CBlk.blk).Nodup
  dirty : ∀ c ∈ a, c.dirty = true
  lt : ∀ c ∈ a, c.blk < J.nblocks
  out : ∀ c ∈ a, ∀ i < J.jlen, J.jblk i ≠ c.blk
  room : a.length ≤ J.jroom

/-- The blocks in place. -/
def inPlace (a : List CBlk) : List (ℕ × Blk) := a.map fun c => (c.blk, c.data)

/-- The copies of some blocks, from journal block `j` on. -/
def copies : List CBlk → ℕ → List (ℕ × Blk)
  | [], _ => []
  | c :: l, j => (j, c.copy) :: copies l (j + 1)

/-- What a transaction has in the journal before the commit block: journal blocks and contents. -/
def layout (sb : Blk) (tid : ℕ) : List CBlk → ℕ → List (ℕ × Blk)
  | [], _ => []
  | c :: a, j =>
    let l := (c :: a).take tagsPerDesc
    (j, descBlk sb tid l) :: copies l (j + 1) ++
      layout sb tid ((c :: a).drop tagsPerDesc) (j + 1 + l.length)
termination_by a => a.length
decreasing_by simp only [List.length_drop, List.length_cons, tagsPerDesc]; omega

/-- How many descriptors a transaction of `n` blocks has. -/
def ndesc (n : ℕ) : ℕ := (n + tagsPerDesc - 1) / tagsPerDesc

namespace Js

variable {s s' s'' : Js} {ws ws' : List (ℕ × Blk)}

/-- What `jw_put` has been given and not yet written. -/
def waiting (s : Js) : List (ℕ × Blk) := inRow s.jwFirst s.run

/-- From `s` to `s'` the device is told to write `ws`, or it is waiting. -/
structure Adds (s s' : Js) (ws : List (ℕ × Blk)) : Prop where
  log : s'.log ++ events s'.waiting = s.log ++ events (s.waiting ++ ws)
  disk : overlay s'.disk s'.waiting = overlay s.disk (s.waiting ++ ws)
  jsb : s'.jsb = s.jsb
  jseq : s'.jseq = s.jseq

theorem Adds.refl (s : Js) : Adds s s [] := ⟨by simp, by simp, rfl, rfl⟩

theorem Adds.trans (h : Adds s s' ws) (h' : Adds s' s'' ws') : Adds s s'' (ws ++ ws') := by
  refine ⟨?_, ?_, h'.jsb.trans h.jsb, h'.jseq.trans h.jseq⟩
  · rw [h'.log, events_append, ← List.append_assoc, h.log, List.append_assoc, ← events_append,
      List.append_assoc]
  · rw [h'.disk, overlay_append, h.disk, ← overlay_append, List.append_assoc]

theorem devWrite_eq (s : Js) (p : ℕ) (l : List Blk) : s.devWrite p l =
    { s with disk := overlay s.disk (inRow p l), log := s.log ++ events (inRow p l) } := by
  induction l generalizing s p with
  | nil => simp [devWrite, inRow, events]
  | cons b l ih => simp [devWrite, ih, inRow, events]

theorem adds_jwFlush (s : Js) : Adds s s.jwFlush [] ∧ s.jwFlush.run = [] := by
  unfold jwFlush
  split_ifs with h
  · exact ⟨.refl s, h⟩
  · rw [devWrite_eq]
    refine ⟨⟨?_, ?_, rfl, rfl⟩, rfl⟩
    · simp [waiting, inRow, events]
    · simp [waiting, inRow]

/-- After `jw_flush` all is told. -/
theorem Adds.flushed (h : Adds s s' ws) (hs : s.run = []) :
    s'.jwFlush.log = s.log ++ events ws ∧ s'.jwFlush.disk = overlay s.disk ws := by
  obtain ⟨hf, hr⟩ := s'.adds_jwFlush
  obtain ⟨hlog, hdisk, -, -⟩ := h.trans hf
  have hw : s'.jwFlush.waiting = [] := by rw [waiting, hr]; rfl
  have hw' : s.waiting = [] := by rw [waiting, hs]; rfl
  rw [hw, hw', List.append_nil, List.nil_append] at hlog hdisk
  exact ⟨by simpa [events] using hlog, hdisk⟩

end Js

namespace Journal

variable {J : Journal} {s : Js} {a l : List CBlk} {j tid : ℕ}

theorem jwPut_adds {b : Blk} (h : J.jblk j ≠ 0) :
    (J.jwPut j b s).1 = true ∧ Js.Adds s (J.jwPut j b s).2 [(J.jblk j, b)] := by
  unfold jwPut
  dsimp only
  rw [if_neg h]
  refine ⟨rfl, ?_⟩
  split_ifs with h1 h2 h2
  · -- the run goes out first
    have hput : Js.Adds s.jwFlush { s.jwFlush with jwFirst := J.jblk j, run := s.jwFlush.run ++ [b] }
        [(J.jblk j, b)] := by
      refine ⟨?_, ?_, rfl, rfl⟩ <;> simp [Js.waiting, h2, inRow]
    exact (s.adds_jwFlush.1).trans hput
  · exact absurd s.adds_jwFlush.2 h2
  · refine ⟨?_, ?_, rfl, rfl⟩
    · simp [Js.waiting, h2, inRow]
    · simp [Js.waiting, h2, inRow]
  · -- the block follows the run
    have hp : J.jblk j = s.jwFirst + s.run.length := by
      by_contra hne
      exact h1 ⟨h2, Or.inr hne⟩
    refine ⟨?_, ?_, rfl, rfl⟩
    · simp [Js.waiting, inRow_append, inRow, hp]
    · simp [Js.waiting, inRow_append, inRow, hp]

/-- Where the journal blocks of a list are on the disk. -/
def placed (J : Journal) (l : List (ℕ × Blk)) : List (ℕ × Blk) := l.map fun x => (J.jblk x.1, x.2)

theorem putCopies_adds (h : ∀ i, j ≤ i → i < j + l.length → J.jblk i ≠ 0) :
    (J.putCopies l j s).1 = true ∧ Js.Adds s (J.putCopies l j s).2 (J.placed (copies l j)) := by
  induction l generalizing j s with
  | nil => exact ⟨rfl, .refl s⟩
  | cons c l ih =>
    rw [List.length_cons] at h
    obtain ⟨hrc, hput⟩ := J.jwPut_adds (s := s) (b := c.copy) (h j le_rfl (by omega))
    obtain ⟨hrc', hrest⟩ := ih (j := j + 1) (s := (J.jwPut j c.copy s).2) fun i h1 h2 =>
      h i (by omega) (by omega)
    rw [putCopies, andThen, if_pos hrc]
    exact ⟨hrc', hput.trans hrest⟩

theorem length_copies (l : List CBlk) (j : ℕ) : (copies l j).length = l.length := by
  induction l generalizing j with
  | nil => rfl
  | cons c l ih => rw [copies, List.length_cons, List.length_cons, ih]

theorem layout_nil (sb : Blk) : layout sb tid [] j = [] := by rw [layout]

theorem layout_cons (sb : Blk) (c : CBlk) :
    layout sb tid (c :: a) j = (j, descBlk sb tid ((c :: a).take tagsPerDesc)) ::
      copies ((c :: a).take tagsPerDesc) (j + 1) ++
        layout sb tid ((c :: a).drop tagsPerDesc)
          (j + 1 + ((c :: a).take tagsPerDesc).length) := by
  rw [layout]

theorem length_drop_tags_lt (c : CBlk) (a : List CBlk) :
    ((c :: a).drop tagsPerDesc).length < (c :: a).length := by
  simp only [List.length_drop, List.length_cons, tagsPerDesc]
  omega

/-- A transaction of `n` blocks has `n` copies and the descriptors. -/
theorem length_layout (tid : ℕ) (sb : Blk) (a : List CBlk) (j : ℕ) :
    (layout sb tid a j).length = a.length + ndesc a.length := by
  induction hn : a.length using Nat.strong_induction_on generalizing a j with
  | _ n ih =>
    cases a with
    | nil => rw [layout_nil, ← hn]; rfl
    | cons c a =>
      rw [layout_cons, List.length_append, List.length_cons, length_copies,
        ih _ (hn ▸ length_drop_tags_lt c a) _ _ rfl, ← hn, List.length_take, List.length_drop]
      simp only [ndesc, tagsPerDesc, List.length_cons]
      omega

theorem putBlocks_adds (tid : ℕ) (h : ∀ i, j ≤ i → i < j + (layout J.sb tid a j).length → J.jblk i ≠ 0) :
    (J.putBlocks tid a j s).1 = j + (layout J.sb tid a j).length ∧
      (J.putBlocks tid a j s).2.1 = true ∧
      Js.Adds s (J.putBlocks tid a j s).2.2 (J.placed (layout J.sb tid a j)) := by
  induction hn : a.length using Nat.strong_induction_on generalizing a j s with
  | _ n ih =>
    cases a with
    | nil =>
      rw [putBlocks, layout_nil]
      exact ⟨rfl, rfl, .refl s⟩
    | cons c a =>
      rw [layout_cons, List.length_append, List.length_cons, length_copies] at h
      rw [putBlocks, layout_cons]
      generalize hl : (c :: a).take tagsPerDesc = l at h ⊢
      obtain ⟨hrc, hput⟩ := J.jwPut_adds (s := s) (b := descBlk J.sb tid l) (h j le_rfl (by omega))
      obtain ⟨hrc', hcopies⟩ := J.putCopies_adds (l := l) (j := j + 1)
        (s := (J.jwPut j (descBlk J.sb tid l) s).2) fun i h1 h2 => h i (by omega) (by omega)
      obtain ⟨hj, hrc'', hrest⟩ := ih _ (hn ▸ length_drop_tags_lt c a)
        (a := (c :: a).drop tagsPerDesc) (j := j + 1 + l.length)
        (s := (J.putCopies l (j + 1) (J.jwPut j (descBlk J.sb tid l) s).2).2)
        (fun i h1 h2 => h i (by omega) (by omega)) rfl
      rw [andThen, if_pos hrc, if_pos hrc']
      refine ⟨?_, hrc'', ?_⟩
      · rw [hj, List.length_append, List.length_cons, length_copies]
        omega
      · have := (hput.trans hcopies).trans hrest
        rw [placed, List.map_append, List.map_cons]
        exact this

end Journal

/-! ## In place -/

theorem inPlace_append (l l' : List CBlk) : inPlace l ++ inPlace l' = inPlace (l ++ l') :=
  List.map_append.symm

/-- A run is blocks in a row. -/
theorem inRow_runLen (first : ℕ) {k : ℕ} {l : List CBlk} (h : first + k + l.length < 2 ^ 32) :
    k ≤ runLen first k l ∧ inRow (first + k) ((l.take (runLen first k l - k)).map CBlk.data) =
      inPlace (l.take (runLen first k l - k)) := by
  induction l generalizing k with
  | nil =>
    rw [runLen, List.take_nil]
    exact ⟨le_rfl, rfl⟩
  | cons c l ih =>
    rw [List.length_cons] at h
    rw [runLen]
    split_ifs with hc
    · obtain ⟨hle, hrow⟩ := ih (k := k + 1) (by omega)
      refine ⟨by omega, ?_⟩
      have hblk : c.blk = first + k := hc.2.trans (u32_of_lt (by omega))
      rw [show runLen first (k + 1) l - k = runLen first (k + 1) l - (k + 1) + 1 by omega,
        List.take_succ_cons, List.map_cons, inRow, inPlace, List.map_cons, hblk]
      exact congrArg _ hrow
    · rw [Nat.sub_self, List.take_zero]
      exact ⟨le_rfl, rfl⟩

/-- `write_runs` writes each block in its place. -/
theorem writeRuns_eq (a : List CBlk) (s : Js) (hdirty : ∀ c ∈ a, c.dirty = true)
    (hlt : ∀ c ∈ a, c.blk + a.length < 2 ^ 32) : writeRuns a s =
      { s with disk := overlay s.disk (inPlace a), log := s.log ++ events (inPlace a) } := by
  induction hn : a.length using Nat.strong_induction_on generalizing a s with
  | _ n ih =>
    cases a with
    | nil => simp [writeRuns, inPlace, events]
    | cons c l =>
      have hc := hlt c List.mem_cons_self
      rw [List.length_cons] at hc
      obtain ⟨hle, hrow⟩ := inRow_runLen c.blk (k := 1) (l := l) (by omega)
      rw [writeRuns]
      split_ifs with hk
      · rw [ih l.length (by rw [← hn]; exact Nat.lt_succ_self _) l _
          (fun x hx => hdirty x (List.mem_cons_of_mem c hx))
          (fun x hx => lt_of_le_of_lt (by simp) (hlt x (List.mem_cons_of_mem c hx))) rfl,
          Js.writeBack, if_pos (hdirty c List.mem_cons_self), Js.devWrite_eq]
        simp [inRow, inPlace, events]
      · generalize runLen c.blk 1 l = k at hle hrow hk ⊢
        have hdrop : (l.drop (k - 1)).length < n := by
          rw [← hn, List.length_drop, List.length_cons]
          omega
        rw [ih _ hdrop (l.drop (k - 1)) _
          (fun x hx => hdirty x (List.mem_cons_of_mem c (List.mem_of_mem_drop hx)))
          (fun x hx => lt_of_le_of_lt (by simp; omega)
            (hlt x (List.mem_cons_of_mem c (List.mem_of_mem_drop hx)))) rfl, Js.devWrite_eq]
        have happ : inPlace (c :: l) =
            inRow c.blk ((c :: l.take (k - 1)).map CBlk.data) ++ inPlace (l.drop (k - 1)) := by
          rw [List.map_cons, inRow, hrow, List.cons_append, inPlace_append, List.take_append_drop]
          rfl
        rw [happ]
        simp [overlay_append, events_append]

/-! ## The log -/

/-- Block 0 when the transaction is in place. -/
def sbInPlace (a : List CBlk) (s : Js) : Blk :=
  overlay (update s.disk 0 (sbFlag true (s.disk 0))) (inPlace a) 0

namespace Journal

variable (J : Journal)

/-- The journal block of the commit block. -/
def jend (a : List CBlk) : ℕ := J.jfirst + (a.length + ndesc a.length)

/-- The journal's superblock while the transaction is in the journal. -/
def jsbBusy (s : Js) : Blk := pb32 (pb32 s.jsb 0x18 s.jseq) 0x1C J.jfirst

/-- The journal's superblock when the transaction is in place. -/
def jsbIdle (s : Js) : Blk := pb32 (pb32 (J.jsbBusy s) 0x18 (u32 (s.jseq + 1))) 0x1C 0

/-- Up to the first flush. -/
def windowA (a : List CBlk) (s : Js) : List (ℕ × Blk) :=
  (J.jblk 0, J.jsbBusy s) :: (0, sbFlag true (s.disk 0)) ::
    J.placed (layout J.sb s.jseq a J.jfirst)

/-- Up to the second. -/
def windowB (now : ℕ) (a : List CBlk) (s : Js) : List (ℕ × Blk) :=
  [(J.jblk (J.jend a), commitBlk s.jseq now)]

/-- After the third flush; between the second and the third are the blocks in place. -/
def windowD (a : List CBlk) (s : Js) : List (ℕ × Blk) :=
  [(J.jblk 0, J.jsbIdle s), (0, sbFlag false (sbInPlace a s))]

variable {J} {a : List CBlk} {s : Js} {now : ℕ}

theorem Ok.len_pos (h : J.Ok) : 0 < J.jlen := by
  have := h.len
  omega

theorem Tx.jend_lt (ht : J.Tx a) (h : J.Ok) : J.jend a < J.jlen := by
  have h1 := ht.room
  have h2 := h.len
  simp only [jroom, tagsPerDesc, jend, ndesc] at h1 ⊢
  omega

/-- The blocks of a transaction are numbers that can be added up. -/
theorem Tx.blk_lt (ht : J.Tx a) (h : J.Ok) {c : CBlk} (hc : c ∈ a) : c.blk + a.length < 2 ^ 32 := by
  have hsub : a.map CBlk.blk ⊆ List.range J.nblocks := by
    intro b hb
    obtain ⟨c', hc', rfl⟩ := List.mem_map.mp hb
    exact List.mem_range.mpr (ht.lt c' hc')
  have hlen := (ht.nodup.subperm hsub).length_le
  rw [List.length_map, List.length_range] at hlen
  have h1 := ht.lt c hc
  have h2 := h.nblocks
  omega

/-- What the transaction has in the journal is in its blocks up to the commit block. -/
theorem mem_copies {l : List CBlk} {j : ℕ} {x : ℕ × Blk} (hx : x ∈ copies l j) :
    j ≤ x.1 ∧ x.1 < j + l.length := by
  induction l generalizing j with
  | nil => exact absurd hx List.not_mem_nil
  | cons c l ih =>
    rw [copies, List.mem_cons] at hx
    rw [List.length_cons]
    rcases hx with rfl | hx
    · exact ⟨le_rfl, by omega⟩
    · have := ih hx
      omega

theorem mem_layout {sb : Blk} {tid j : ℕ} {a : List CBlk} {x : ℕ × Blk}
    (hx : x ∈ layout sb tid a j) : j ≤ x.1 ∧ x.1 < j + (a.length + ndesc a.length) := by
  rw [← length_layout tid sb a j]
  induction hn : a.length using Nat.strong_induction_on generalizing a j with
  | _ n ih =>
    cases a with
    | nil =>
      rw [layout_nil] at hx
      exact absurd hx List.not_mem_nil
    | cons c a =>
      rw [layout_cons] at hx ⊢
      rw [List.length_append, List.length_cons, length_copies]
      rcases List.mem_append.mp hx with hx | hx
      · rcases List.mem_cons.mp hx with rfl | hx
        · exact ⟨le_rfl, by omega⟩
        · have := mem_copies hx
          omega
      · have := ih _ (hn ▸ length_drop_tags_lt c a) hx rfl
        omega

/-- **What `jcommit` tells the device.** -/
theorem jcommit_log (h : J.Ok) (ht : J.Tx a) (hrun : s.run = []) :
    (J.jcommit true now a s).1 = true ∧
      (J.jcommit true now a s).2.log = s.log ++ (events (J.windowA a s) ++ .flush ::
        (events (J.windowB now a s) ++ .flush :: (events (inPlace a) ++ .flush ::
          (events (J.windowD a s) ++ [.flush])))) := by
  have h0 := h.map 0 h.len_pos
  have hend := ht.jend_lt h
  have hlay : ∀ x ∈ J.placed (layout J.sb s.jseq a J.jfirst), x.1 ≠ 0 := by
    intro x hx
    obtain ⟨y, hy, rfl⟩ := List.mem_map.mp hx
    have := (mem_layout hy).2
    exact h.map y.1 (lt_trans this hend)
  -- the first window
  have e1 : J.jsbWrite J.jfirst s.jseq s =
      (true, Js.devWrite { s with jsb := J.jsbBusy s } (J.jblk 0) [J.jsbBusy s]) := if_neg h0
  unfold jcommit
  rw [if_neg (by simp)]
  dsimp only
  rw [e1]
  dsimp only
  rw [if_pos rfl]
  have hadds := J.putBlocks_adds (a := a) (j := J.jfirst)
    (s := (Js.devWrite { s with jsb := J.jsbBusy s } (J.jblk 0) [J.jsbBusy s]).sbRecoverFlag true)
    s.jseq fun i h1 h2 => h.map i (by rw [length_layout] at h2; unfold jend at hend; omega)
  generalize hs0 : (Js.devWrite { s with jsb := J.jsbBusy s } (J.jblk 0)
    [J.jsbBusy s]).sbRecoverFlag true = s0 at hadds ⊢
  generalize J.putBlocks s.jseq a J.jfirst s0 = P at hadds ⊢
  obtain ⟨j, rc, s1⟩ := P
  obtain ⟨hj, hrc, hadd⟩ := hadds
  dsimp only at hj hrc hadd
  rw [hj, hrc, length_layout]
  have hs0run : s0.run = [] := by rw [← hs0]; exact hrun
  obtain ⟨hlogA, hdiskA⟩ := hadd.flushed hs0run
  have hjsbA : s1.jwFlush.jsb = J.jsbBusy s := by
    rw [s1.adds_jwFlush.1.jsb, hadd.jsb, ← hs0]
    rfl
  have hrunA := s1.adds_jwFlush.2
  simp only [andThen_true]
  generalize s1.jwFlush = s2 at hlogA hdiskA hjsbA hrunA ⊢
  -- the commit block
  obtain ⟨hrcB, haddB⟩ := J.jwPut_adds (s := s2.flush) (b := commitBlk s.jseq now) (h.map _ hend)
  generalize hput : J.jwPut (J.jend a) (commitBlk s.jseq now) s2.flush = r at hrcB haddB
  obtain ⟨rc', s3⟩ := r
  obtain rfl : rc' = true := hrcB
  obtain ⟨hlogB, hdiskB⟩ := haddB.flushed hrunA
  have hjsbB : s3.jwFlush.jsb = J.jsbBusy s := by
    rw [s3.adds_jwFlush.1.jsb]
    exact haddB.jsb.trans hjsbA
  unfold jend at hput
  simp only [hput, andThen_true]
  generalize s3.jwFlush = s4 at hlogB hdiskB hjsbB ⊢
  -- in place, and the journal empty again
  have hsb : overlay s4.disk (inPlace a) 0 = sbInPlace a s := by
    refine overlay_congr ?_ _
    have h1 : s4.disk 0 = s2.disk 0 := by
      rw [hdiskB]
      exact overlay_of_notMem (by simpa using (h.map _ hend).symm)
    have h2 : s2.disk 0 = s0.disk 0 := by
      rw [hdiskA]
      refine overlay_of_notMem fun hm => ?_
      obtain ⟨x, hx, hx0⟩ := List.mem_map.mp hm
      exact hlay x hx hx0
    rw [h1, h2, ← hs0, update_self]
    simp only [Js.sbRecoverFlag, Js.devWrite]
    rw [update_self, update_of_ne (h.map 0 h.len_pos).symm]
  rw [writeRuns_eq a _ ht.dirty fun c hc => ht.blk_lt h hc, jsbWrite, if_neg h0]
  simp only [andThen_true]
  refine ⟨trivial, ?_⟩
  simp only [Js.sbRecoverFlag, Js.devWrite, Js.flush]
  have hlog0 : s0.log = s.log ++
      events [(J.jblk 0, J.jsbBusy s), (0, sbFlag true (s.disk 0))] := by
    rw [← hs0]
    simp only [Js.sbRecoverFlag, Js.devWrite]
    rw [update_of_ne h0.symm]
    simp [events]
  rw [update_of_ne h0.symm, hsb, hjsbB, hlogB, Js.flush, hlogA, hlog0]
  simp [windowA, windowB, windowD, jsbIdle, events]

end Journal

end BananaOS.Ext4
