import BananaOS.Ext4.Blocks
import BananaOS.Lib.Device
import Mathlib.Logic.Function.Iterate

/-!
# The journal

`jcommit` and `jrecover` of `kernel/ext4.c`, with what they call, over a device that logs what it
is told.  `dev_write` of some blocks in a row is a write for each of them.  The device does not
fail; `jblk` may, and then what is called so far has returned `-1` (`false`).
-/

namespace BananaOS.Ext4

open Lib Function

/-- `JBD2_MAGIC` -/
def jbd2Magic : ℕ := 0xC03B3998

/-- `JBD2_DESCRIPTOR` -/
def jbd2Descriptor : ℕ := 1

/-- `JBD2_COMMIT` -/
def jbd2Commit : ℕ := 2

/-- `JBD2_REVOKE` -/
def jbd2Revoke : ℕ := 5

/-- `JF_ESCAPE` -/
def jfEscape : ℕ := 1

/-- `JF_SAME_UUID` -/
def jfSameUuid : ℕ := 2

/-- `JF_LAST_TAG` -/
def jfLastTag : ℕ := 8

/-- `TAGS_PER_DESC` -/
def tagsPerDesc : ℕ := 508

/-- `INCOMPAT_RECOVER` -/
def incompatRecover : ℕ := 4

/-- `RUN_MAX` -/
def runMax : ℕ := 16

/-- Where `s_feature_incompat` is in block 0. -/
def incompatAt : ℕ := 1024 + 0x60

/-- What does not change while the filesystem is mounted: `g_jmap`, `g_jlen`, `g_jfirst`, the
bytes of `g_sb` and `g_nblocks`. -/
structure Journal where
  jmap : List Ext
  jlen : ℕ
  jfirst : ℕ
  sb : Blk
  nblocks : ℕ

/-- The device with its log, `g_jsb`, `g_jseq`, and `g_jw_first` with the `g_jw_n` blocks in
`g_run`. -/
structure Js where
  disk : ℕ → Blk
  log : List (Ev ℕ Blk)
  jsb : Blk
  jseq : ℕ
  jwFirst : ℕ
  run : List Blk

/-- The superblock's block with the flag set or not. -/
def sbFlag (set : Bool) (b : Blk) : Blk :=
  let inc := g32 b incompatAt
  p32 b incompatAt (if set then inc ||| incompatRecover else inc &&& (2 ^ 32 - 1 - incompatRecover))

namespace Js

/-- `dev_write` of the blocks `l` from `blk` on -/
def devWrite (s : Js) (blk : ℕ) : List Blk → Js
  | [] => s
  | b :: l => devWrite { s with
      disk := update s.disk blk b, log := s.log ++ [.write blk b] } (blk + 1) l

/-- `g_dev.flush` -/
def flush (s : Js) : Js := { s with log := s.log ++ [.flush] }

/-- `sb_recover_flag` -/
def sbRecoverFlag (s : Js) (set : Bool) : Js := s.devWrite 0 [sbFlag set (s.disk 0)]

/-- `jw_flush` -/
def jwFlush (s : Js) : Js :=
  if s.run = [] then s else { s.devWrite s.jwFirst s.run with run := [] }

/-- `write_back` -/
def writeBack (s : Js) (c : CBlk) : Js := if c.dirty then s.devWrite c.blk [c.data] else s

end Js

/-- Go on while `rc == 0`. -/
def andThen (r : Bool × Js) (f : Js → Bool × Js) : Bool × Js := if r.1 then f r.2 else r

@[simp] theorem andThen_true (s : Js) (f : Js → Bool × Js) : andThen (true, s) f = f s := rfl

/-- The run from `first` on: the `k` blocks so far, and those of the list that follow. -/
def runLen (first : ℕ) : ℕ → List CBlk → ℕ
  | k, [] => k
  | k, c :: l => if k < runMax ∧ c.blk = u32 (first + k) then runLen first (k + 1) l else k

/-- `write_runs` -/
def writeRuns : List CBlk → Js → Js
  | [], s => s
  | c :: l, s =>
    let k := runLen c.blk 1 l
    if k = 1 then writeRuns l (s.writeBack c)
    else writeRuns (l.drop (k - 1)) (s.devWrite c.blk ((c :: l.take (k - 1)).map CBlk.data))
termination_by a => a.length

/-! ## A transaction -/

/-- The flags of a tag. -/
def tagFlags (first escape last : Bool) : ℕ :=
  (if first then 0 else jfSameUuid) ||| (if escape then jfEscape else 0) |||
    (if last then jfLastTag else 0)

/-- The block would look like one of the journal's. -/
def CBlk.escape (c : CBlk) : Bool := gb32 c.data 0 = jbd2Magic

/-- The tags of a descriptor block, the first `t` of them written; the last of the block has
`JF_LAST_TAG` (the last of all is the last of its block). -/
def putTags (sb : Blk) : List CBlk → ℕ → ℕ → Blk → Blk
  | [], _, _, d => d
  | c :: l, t, off, d =>
    let flags := tagFlags (t = 0) c.escape l.isEmpty
    let d := pb16 (pb16 (pb32 d off c.blk) (off + 4) 0) (off + 6) flags
    if t = 0 then putTags sb l 1 (off + 8 + 16) (blit d (off + 8) sb 0x68 16)
    else putTags sb l (t + 1) (off + 8) d

/-- The head of a block of the journal. -/
def jhead (type tid : ℕ) : Blk := pb32 (pb32 (pb32 zeros 0 jbd2Magic) 4 type) 8 tid

/-- The descriptor block for some blocks. -/
def descBlk (sb : Blk) (tid : ℕ) (l : List CBlk) : Blk :=
  putTags sb l 0 12 (jhead jbd2Descriptor tid)

/-- The copy of a block. -/
def CBlk.copy (c : CBlk) : Blk := if c.escape then pb32 c.data 0 0 else c.data

/-- The commit block. -/
def commitBlk (tid now : ℕ) : Blk := pb32 (jhead jbd2Commit tid) 0x34 now

namespace Journal

variable (J : Journal)

/-- `jblk` -/
def jblk (i : ℕ) : ℕ := (emapFind J.jmap i).1

/-- `jsb_write` -/
def jsbWrite (start seq : ℕ) (s : Js) : Bool × Js :=
  let s := { s with jsb := pb32 (pb32 s.jsb 0x18 seq) 0x1C start }
  if J.jblk 0 = 0 then (false, s) else (true, s.devWrite (J.jblk 0) [s.jsb])

/-- `jw_put` -/
def jwPut (jidx : ℕ) (b : Blk) (s : Js) : Bool × Js :=
  let p := J.jblk jidx
  if p = 0 then (false, s)
  else
    let s := if s.run ≠ [] ∧ (s.run.length = runMax ∨ p ≠ s.jwFirst + s.run.length) then s.jwFlush
      else s
    let s := if s.run = [] then { s with jwFirst := p } else s
    (true, { s with run := s.run ++ [b] })

/-- The copies of a descriptor's blocks, from journal block `j` on. -/
def putCopies : List CBlk → ℕ → Js → Bool × Js
  | [], _, s => (true, s)
  | c :: l, j, s => andThen (J.jwPut j c.copy s) (putCopies l (j + 1))

/-- The loop of `jcommit`: the descriptors and the copies; and the next journal block. -/
def putBlocks (tid : ℕ) : List CBlk → ℕ → Js → ℕ × Bool × Js
  | [], j, s => (j, true, s)
  | c :: a, j, s =>
    let l := (c :: a).take tagsPerDesc
    let r := andThen (J.jwPut j (descBlk J.sb tid l) s) (J.putCopies l (j + 1))
    if r.1 then putBlocks tid ((c :: a).drop tagsPerDesc) (j + 1 + l.length) r.2
    else (j + 1 + l.length, r)
termination_by a => a.length
decreasing_by simp only [List.length_drop, List.length_cons, tagsPerDesc]; omega

/-- `jcommit`; `mem`: there is memory for its two blocks. -/
def jcommit (mem : Bool) (now : ℕ) (a : List CBlk) (s : Js) : Bool × Js :=
  if ¬ mem then (false, s)
  else
    let tid := s.jseq
    let r := J.jsbWrite J.jfirst tid s
    let p := if r.1 then J.putBlocks tid a J.jfirst (r.2.sbRecoverFlag true) else (J.jfirst, r)
    let r := andThen p.2 fun s => (true, s.jwFlush.flush)
    let r := andThen r fun s => andThen (J.jwPut p.1 (commitBlk tid now) s) fun s =>
      (true, s.jwFlush.flush)
    let r := andThen r fun s => (true, (writeRuns a s).flush)
    let r := andThen r fun s =>
      andThen (J.jsbWrite 0 (u32 (tid + 1)) { s with jseq := u32 (tid + 1) }) fun s =>
        (true, (s.sbRecoverFlag false).flush)
    (r.1, { r.2 with run := [] })

/-- `jroom` -/
def jroom : ℕ :=
  let avail := J.jlen - J.jfirst - 1
  avail - (avail + tagsPerDesc) / (tagsPerDesc + 1) - 1

/-! ## Replaying it at mount -/

/-- `jnext` -/
def jnext (b : ℕ) : ℕ := if b + 1 ≥ J.jlen then J.jfirst else b + 1

/-- `jtags`: for each tag the block, the journal block of its copy, and the flags.  (A tag has 8
bytes or more, so there are at most 512.) -/
def jtags (d : Blk) : ℕ → ℕ → ℕ → List (ℕ × ℕ × ℕ)
  | 0, _, _ => []
  | n + 1, off, b =>
    if off + 8 ≤ bs then
      let flags := gb16 d (off + 6)
      let off' := if flags &&& jfSameUuid = 0 then off + 8 + 16 else off + 8
      (gb32 d off, J.jnext b, flags) ::
        if flags &&& jfLastTag ≠ 0 then [] else jtags d n off' (J.jnext b)
    else []

/-- What the passes of `jrecover` change: the device, `rc`, `end_seq` and the revoked blocks. -/
structure Rec where
  s : Js
  rc : Bool
  endSeq : ℕ
  rev : List (ℕ × ℕ)

/-- `replay_one` -/
def replayOne (seq : ℕ) (r : Rec) (tag : ℕ × ℕ × ℕ) : Rec :=
  if r.rc = false ∨ tag.1 ≥ J.nblocks then r
  else if r.rev.any fun x => decide (x.1 = tag.1 ∧ x.2 ≥ seq) then r
  else if J.jblk tag.2.1 = 0 then { r with rc := false }
  else
    let b := r.s.disk (J.jblk tag.2.1)
    let b := if tag.2.2 &&& jfEscape ≠ 0 then pb32 b 0 jbd2Magic else b
    { r with s := r.s.devWrite tag.1 [b] }

/-- The blocks that a revoke block names. -/
def revoked (b : Blk) : List ℕ :=
  (List.range ((min (gb32 b 12) bs - 16) / 4)).map fun i => gb32 b (16 + 4 * i)

/-- A pass of `jrecover` from journal block `blk` on, for `guard` more rounds. -/
def recPass (pass : ℕ) : ℕ → ℕ → ℕ → Rec → Rec
  | 0, _, _, r => r
  | guard + 1, blk, seq, r =>
    let b := r.s.disk (J.jblk blk)
    if pass ≠ 0 ∧ seq ≥ r.endSeq then r
    else if J.jblk blk = 0 ∨ gb32 b 0 ≠ jbd2Magic ∨ gb32 b 8 ≠ seq then r
    else if gb32 b 4 = jbd2Descriptor then
      let tags := J.jtags b 512 12 blk
      let r := if pass = 2 then tags.foldl (J.replayOne seq) r else r
      if r.rc then recPass pass guard (J.jnext^[tags.length + 1] blk) seq r else r
    else if gb32 b 4 = jbd2Commit then
      recPass pass guard (J.jnext blk) (u32 (seq + 1))
        (if pass = 0 then { r with endSeq := u32 (seq + 1) } else r)
    else if gb32 b 4 = jbd2Revoke then
      recPass pass guard (J.jnext blk) seq
        (if pass = 1 then { r with rev := r.rev ++ (revoked b).map fun x => (x, seq) } else r)
    else r

/-- `jrecover`; `mem`: there is memory for its blocks (and for what is revoked). -/
def jrecover (mem : Bool) (s : Js) : Bool × Js :=
  let start := gb32 s.jsb 0x1C
  let seq0 := gb32 s.jsb 0x18
  if start = 0 then (true, s)
  else if ¬ mem then (false, s)
  else
    let guard := u32 (J.jlen * 2)
    let r := J.recPass 0 guard start seq0 ⟨s, true, seq0, []⟩
    let r := if r.rc then J.recPass 1 guard start seq0 r else r
    let r := if r.rc then J.recPass 2 guard start seq0 r else r
    if r.rc then
      andThen (J.jsbWrite 0 r.endSeq { r.s.flush with jseq := r.endSeq }) fun s => (true, s.flush)
    else (false, r.s)

/-- A mount reads the journal's superblock from the disk `d`. -/
def mounted (d : ℕ → Blk) : Js :=
  ⟨d, [], d (J.jblk 0), gb32 (d (J.jblk 0)) 0x18, 0, []⟩

end Journal

end BananaOS.Ext4
