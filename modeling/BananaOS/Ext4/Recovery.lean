import BananaOS.Ext4.Commit

/-!
# What a mount replays

What the passes of `jrecover` do on a disk that has a transaction in its journal, or part of one.

* `jtags_descBlk`: the tags of a descriptor block are read back.
* `recPass_layout`: a pass goes over the descriptors, and the last pass puts the copies in place.
* `recPass_noCommit`: a pass that meets no commit block of its number finds nothing to replay.
* `jrecover_empty`, `jrecover_nothing`, `jrecover_replay`: what `jrecover` does to the disk.
-/

namespace BananaOS.Ext4

open Lib Function

/-! ## Descriptors -/

/-- The tags of some blocks, as they are read back; the copies are in the journal blocks after
`b`. -/
def tagsAt (J : Journal) : List CBlk → Bool → ℕ → List (ℕ × ℕ × ℕ)
  | [], _, _ => []
  | c :: l, first, b =>
    (c.blk, J.jnext b, tagFlags first c.escape l.isEmpty) :: tagsAt J l false (J.jnext b)

theorem length_tagsAt (J : Journal) (l : List CBlk) (first : Bool) (b : ℕ) :
    (tagsAt J l first b).length = l.length := by
  induction l generalizing first b with
  | nil => rfl
  | cons c l ih => rw [tagsAt, List.length_cons, List.length_cons, ih]

theorem tagFlags_spec (first escape last : Bool) :
    tagFlags first escape last % 2 ^ 16 = tagFlags first escape last ∧
      (tagFlags first escape last &&& jfSameUuid = 0 ↔ first = true) ∧
      (tagFlags first escape last &&& jfEscape ≠ 0 ↔ escape = true) ∧
      (tagFlags first escape last &&& jfLastTag ≠ 0 ↔ last = true) := by
  cases first <;> cases escape <;> cases last <;> decide

variable {sb : Blk}

theorem putTags_of_lt {l : List CBlk} {t off i : ℕ} (d : Blk) (hi : i < off) :
    putTags sb l t off d i = d i := by
  induction l generalizing t off d with
  | nil => rfl
  | cons c l ih =>
    rw [putTags]
    split_ifs
    · rw [ih _ (by omega), blit_of_notMem (by omega)]
      exact (putBE_of_notMem (by omega)).trans ((putBE_of_notMem (by omega)).trans
        (putBE_of_notMem (by omega)))
    · rw [ih _ (by omega)]
      exact (putBE_of_notMem (by omega)).trans ((putBE_of_notMem (by omega)).trans
        (putBE_of_notMem (by omega)))

theorem tag_read (d : Blk) (off : ℕ) {blk flags : ℕ} (hblk : blk < 2 ^ 32) (hflags : flags % 2 ^ 16 = flags) :
    gb32 (pb16 (pb16 (pb32 d off blk) (off + 4) 0) (off + 6) flags) off = blk ∧
      gb16 (pb16 (pb16 (pb32 d off blk) (off + 4) 0) (off + 6) flags) (off + 6) = flags := by
  rw [gb32_pb16_ne (by omega), gb32_pb16_ne (by omega), gb32_pb32, u32_of_lt hblk, gb16_pb16]
  exact ⟨rfl, hflags⟩

theorem putTags_cons (sb : Blk) (c : CBlk) (l : List CBlk) (t off : ℕ) (d : Blk) :
    ∃ d', putTags sb (c :: l) t off d =
        putTags sb l (t + 1) (off + 8 + if t = 0 then 16 else 0) d' ∧
      ∀ i < off + 8, d' i = pb16 (pb16 (pb32 d off c.blk) (off + 4) 0) (off + 6)
        (tagFlags (t = 0) c.escape l.isEmpty) i := by
  rw [putTags]
  split_ifs with ht
  · exact ⟨_, by rw [ht], fun i hi => blit_of_notMem (by omega)⟩
  · exact ⟨_, rfl, fun i _ => rfl⟩

/-- `jtags` reads back what `jcommit` wrote. -/
theorem jtags_putTags (J : Journal) {l : List CBlk} {t off n b : ℕ} {d : Blk}
    (hblk : ∀ c ∈ l, c.blk < 2 ^ 32) (hn : l.length ≤ n)
    (hoff : off + 8 * l.length + (if t = 0 then 16 else 0) ≤ bs) (hl : l ≠ []) :
    J.jtags (putTags sb l t off d) n off b = tagsAt J l (t = 0) b := by
  induction l generalizing t off n b d with
  | nil => exact absurd rfl hl
  | cons c l ih =>
    rw [List.length_cons] at hn hoff
    obtain ⟨n, rfl⟩ := Nat.exists_eq_add_of_le' (Nat.one_le_of_lt hn)
    obtain ⟨hmod, hsame, -, hlast⟩ := tagFlags_spec (decide (t = 0)) c.escape l.isEmpty
    obtain ⟨h1, h2⟩ := tag_read d off (hblk c List.mem_cons_self) hmod
    obtain ⟨d', heq, hd'⟩ := putTags_cons sb c l t off d
    generalize hflags : tagFlags (decide (t = 0)) c.escape l.isEmpty = flags
      at hmod hsame hlast h1 h2 hd'
    rw [heq]
    generalize hoff' : off + 8 + (if t = 0 then 16 else 0) = off'
    have hle : off + 8 ≤ off' := by omega
    have hread : ∀ i < off + 8, putTags sb l (t + 1) off' d' i =
        pb16 (pb16 (pb32 d off c.blk) (off + 4) 0) (off + 6) flags i := fun i hi =>
      (putTags_of_lt d' (lt_of_lt_of_le hi hle)).trans (hd' i hi)
    have hb : gb32 (putTags sb l (t + 1) off' d') off = c.blk :=
      (getBE_congr fun i _ hi => hread i (by omega)).trans h1
    have hf : gb16 (putTags sb l (t + 1) off' d') (off + 6) = flags :=
      (getBE_congr fun i _ hi => hread i (by omega)).trans h2
    have hnext : (if flags &&& jfSameUuid = 0 then off + 8 + 16 else off + 8) = off' := by
      rw [← hoff']
      by_cases ht : t = 0
      · rw [if_pos (hsame.mpr (decide_eq_true ht)), if_pos ht]
      · rw [if_neg fun h => ht (of_decide_eq_true (hsame.mp h)), if_neg ht]
    rw [Journal.jtags, if_pos (by omega), hb, hf, tagsAt, hflags]
    dsimp only
    rw [hnext]
    refine congrArg _ ?_
    cases l with
    | nil => exact if_pos (hlast.mpr rfl)
    | cons c' l' =>
      rw [if_neg fun h => Bool.noConfusion (hlast.mp h)]
      exact ih (t := t + 1) (fun x hx => hblk x (List.mem_cons_of_mem c hx)) (by omega)
        (by rw [if_neg (Nat.succ_ne_zero t)]; omega) (List.cons_ne_nil c' l')

theorem jhead_spec {type tid : ℕ} (htype : type < 2 ^ 32) (htid : tid < 2 ^ 32) :
    gb32 (jhead type tid) 0 = jbd2Magic ∧ gb32 (jhead type tid) 4 = type ∧
      gb32 (jhead type tid) 8 = tid := by
  unfold jhead
  refine ⟨?_, ?_, ?_⟩
  · rw [gb32_pb32_ne (by omega), gb32_pb32_ne (by omega), gb32_pb32]
    rfl
  · rw [gb32_pb32_ne (by omega), gb32_pb32, u32_of_lt htype]
  · rw [gb32_pb32, u32_of_lt htid]

theorem descBlk_spec (sb : Blk) {tid : ℕ} (htid : tid < 2 ^ 32) (l : List CBlk) :
    gb32 (descBlk sb tid l) 0 = jbd2Magic ∧ gb32 (descBlk sb tid l) 4 = jbd2Descriptor ∧
      gb32 (descBlk sb tid l) 8 = tid := by
  obtain ⟨h1, h2, h3⟩ := jhead_spec (show jbd2Descriptor < 2 ^ 32 by decide) htid
  have hread : ∀ o, o + 4 ≤ 12 → gb32 (descBlk sb tid l) o = gb32 (jhead jbd2Descriptor tid) o :=
    fun o ho => getBE_congr fun i _ hi => putTags_of_lt _ (by omega)
  rw [hread 0 (by omega), hread 4 (by omega), hread 8 (by omega)]
  exact ⟨h1, h2, h3⟩

theorem jtags_descBlk (J : Journal) {l : List CBlk} {tid b : ℕ} (hblk : ∀ c ∈ l, c.blk < 2 ^ 32)
    (hlen : l.length ≤ tagsPerDesc) (hl : l ≠ []) :
    J.jtags (descBlk sb tid l) 512 12 b = tagsAt J l true b := by
  unfold tagsPerDesc at hlen
  exact jtags_putTags J hblk (by omega) (by unfold bs; rw [if_pos rfl]; omega) hl

theorem copy_back (c : CBlk) : (if c.escape then pb32 c.copy 0 jbd2Magic else c.copy) = c.data := by
  unfold CBlk.copy
  split_ifs with h
  · have hm : gb32 c.data 0 = jbd2Magic := of_decide_eq_true h
    rw [← hm]
    exact putBE_putBE.trans putBE_getBE
  · rfl

/-! ## The passes -/

namespace Journal

variable {J : Journal} {l a : List CBlk} {tid seq j b g pass : ℕ} {r : Rec}

theorem jnext_eq (h : j + 1 < J.jlen) : J.jnext j = j + 1 := if_neg (by omega)

theorem iterate_jnext {n : ℕ} (h : j + n < J.jlen) : J.jnext^[n] j = j + n := by
  induction n generalizing j with
  | zero => rfl
  | succ n ih => rw [iterate_succ_apply, jnext_eq (by omega), ih (by omega)]; omega

/-- The device after some writes. -/
def Rec.put (r : Rec) (ws : List (ℕ × Blk)) : Rec :=
  { r with s := { r.s with disk := overlay r.s.disk ws, log := r.s.log ++ events ws } }

theorem Rec.put_nil (r : Rec) : r.put [] = r := by
  unfold Rec.put
  simp [events]

theorem Rec.put_put (r : Rec) (ws ws' : List (ℕ × Blk)) : (r.put ws).put ws' = r.put (ws ++ ws') := by
  simp [Rec.put, overlay_append, events_append]

/-- The blocks may be put in place: they are of the filesystem and not of the journal. -/
def Targets (J : Journal) (a : List CBlk) : Prop :=
  ∀ c ∈ a, c.blk < J.nblocks ∧ ∀ i < J.jlen, J.jblk i ≠ c.blk

theorem replayOne_copy (h : J.Ok) {c : CBlk} {first last : Bool} (hc : J.Targets [c])
    (hrc : r.rc = true) (hrev : r.rev = []) (hj : j < J.jlen)
    (hcopy : r.s.disk (J.jblk j) = c.copy) :
    J.replayOne seq r (c.blk, j, tagFlags first c.escape last) = r.put [(c.blk, c.data)] := by
  have hlt := (hc c List.mem_cons_self).1
  obtain ⟨-, -, hesc, -⟩ := tagFlags_spec first c.escape last
  have hback : (if tagFlags first c.escape last &&& jfEscape ≠ 0 then pb32 c.copy 0 jbd2Magic
      else c.copy) = c.data := by
    rw [← copy_back c]
    exact if_congr hesc rfl rfl
  unfold replayOne
  dsimp only
  rw [if_neg (by simp [hrc, hlt]), if_neg (by simp [hrev]), if_neg (h.map j hj), hcopy, hback,
    Js.devWrite_eq]
  rfl

/-- The copies of a descriptor are put in place. -/
theorem foldl_replayOne (h : J.Ok) {first : Bool} (hl : J.Targets l) (hrc : r.rc = true)
    (hrev : r.rev = []) (hb : b + l.length < J.jlen)
    (hhas : ∀ x ∈ copies l (b + 1), r.s.disk (J.jblk x.1) = x.2) :
    (tagsAt J l first b).foldl (J.replayOne seq) r = r.put (inPlace l) := by
  induction l generalizing r b first with
  | nil => exact r.put_nil.symm
  | cons c l ih =>
    rw [List.length_cons] at hb
    have hnext : J.jnext b = b + 1 := jnext_eq (by omega)
    have hone : J.replayOne seq r (c.blk, b + 1, tagFlags first c.escape l.isEmpty) =
        r.put [(c.blk, c.data)] :=
      replayOne_copy h (fun x hx => hl x (by rw [List.mem_singleton.mp hx]; exact List.mem_cons_self))
        hrc hrev (by omega) (hhas _ List.mem_cons_self)
    rw [tagsAt, List.foldl_cons, hnext, hone, ih (r := r.put [(c.blk, c.data)])
      (fun x hx => hl x (List.mem_cons_of_mem c hx)) hrc hrev (by omega), Rec.put_put]
    · rfl
    · -- the copies that are left are where they were
      intro x hx
      have hx' := mem_copies hx
      rw [← hhas x (List.mem_cons_of_mem _ hx)]
      exact update_of_ne ((hl c List.mem_cons_self).2 x.1 (by omega)) _ _

/-- What a pass has done when it is over the descriptors. -/
def Rec.after (r : Rec) (pass : ℕ) (a : List CBlk) : Rec := if pass = 2 then r.put (inPlace a) else r

theorem Rec.after_rc (r : Rec) : (r.after pass a).rc = r.rc := by
  unfold Rec.after
  split_ifs <;> rfl

theorem Rec.after_rev (r : Rec) : (r.after pass a).rev = r.rev := by
  unfold Rec.after
  split_ifs <;> rfl

theorem Rec.after_disk (ha : J.Targets a) (hj : j < J.jlen) :
    (r.after pass a).s.disk (J.jblk j) = r.s.disk (J.jblk j) := by
  unfold Rec.after
  split_ifs
  · refine overlay_of_notMem fun hm => ?_
    obtain ⟨x, hx, hxj⟩ := List.mem_map.mp hm
    obtain ⟨c, hc, rfl⟩ := List.mem_map.mp hx
    exact (ha c hc).2 j hj hxj.symm
  · rfl

/-- A pass meets a descriptor. -/
theorem recPass_desc (h : J.Ok) (htid : tid < 2 ^ 32) (hl : J.Targets l)
    (hlen : l.length ≤ tagsPerDesc) (hne : l ≠ []) (hrc : r.rc = true) (hrev : r.rev = [])
    (hseq : pass ≠ 0 → tid < r.endSeq) (hj : j + 1 + l.length < J.jlen)
    (hdesc : r.s.disk (J.jblk j) = descBlk J.sb tid l)
    (hhas : ∀ x ∈ copies l (j + 1), r.s.disk (J.jblk x.1) = x.2) :
    J.recPass pass (g + 1) j tid r = J.recPass pass g (j + 1 + l.length) tid (r.after pass l) := by
  obtain ⟨h1, h2, h3⟩ := descBlk_spec J.sb htid l
  have htags : J.jtags (descBlk J.sb tid l) 512 12 j = tagsAt J l true j :=
    jtags_descBlk J (fun c hc => by
      have h4 := (hl c hc).1
      have h5 := h.nblocks
      omega) hlen hne
  have hafter : (if pass = 2 then (tagsAt J l true j).foldl (J.replayOne tid) r else r) =
      r.after pass l := by
    unfold Rec.after
    rw [foldl_replayOne h hl hrc hrev (by omega) hhas]
  have hrc' : (r.after pass l).rc = true := r.after_rc.trans hrc
  rw [recPass]
  dsimp only
  rw [hdesc, if_neg (by push Not; exact hseq), if_neg (by simp [h.map j (by omega), h1, h3]),
    if_pos h2, htags, hafter, if_pos hrc', length_tagsAt, iterate_jnext (by omega)]
  rw [Nat.add_assoc j 1, Nat.add_comm 1]

/-- A transaction is in the journal from block `j` on, and nothing has gone wrong so far. -/
structure OnDisk (J : Journal) (tid : ℕ) (a : List CBlk) (j : ℕ) (r : Rec) : Prop where
  targets : J.Targets a
  rc : r.rc = true
  rev : r.rev = []
  lt : j + (a.length + ndesc a.length) < J.jlen
  has : ∀ x ∈ layout J.sb tid a j, r.s.disk (J.jblk x.1) = x.2

theorem ndesc_cons (c : CBlk) (a : List CBlk) :
    ndesc (c :: a).length = ndesc ((c :: a).drop tagsPerDesc).length + 1 ∧
      ((c :: a).take tagsPerDesc).length + ((c :: a).drop tagsPerDesc).length =
        (c :: a).length := by
  constructor
  · rw [List.length_drop]
    simp only [ndesc, tagsPerDesc, List.length_cons]
    omega
  · rw [← List.length_append, List.take_append_drop]

theorem OnDisk.round {c : CBlk} (h : J.Ok) (htid : tid < 2 ^ 32) (ho : J.OnDisk tid (c :: a) j r)
    (hseq : pass ≠ 0 → tid < r.endSeq) :
    J.recPass pass (g + 1) j tid r = J.recPass pass g
      (j + 1 + ((c :: a).take tagsPerDesc).length) tid (r.after pass ((c :: a).take tagsPerDesc)) := by
  obtain ⟨hnd, hlen⟩ := ndesc_cons c a
  have hlt := ho.lt
  have hhas := ho.has
  rw [layout_cons] at hhas
  exact recPass_desc h htid (fun x hx => ho.targets x (List.mem_of_mem_take hx))
    (List.length_take_le ..) (by simp [tagsPerDesc]) ho.rc ho.rev hseq (by omega)
    (hhas _ (List.mem_append_left _ List.mem_cons_self))
    fun x hx => hhas x (List.mem_append_left _ (List.mem_cons_of_mem _ hx))

theorem OnDisk.next {c : CBlk} (ho : J.OnDisk tid (c :: a) j r) (pass : ℕ) :
    J.OnDisk tid ((c :: a).drop tagsPerDesc) (j + 1 + ((c :: a).take tagsPerDesc).length)
      (r.after pass ((c :: a).take tagsPerDesc)) := by
  obtain ⟨hnd, hlen⟩ := ndesc_cons c a
  have hlt := ho.lt
  have hhas := ho.has
  rw [layout_cons] at hhas
  refine ⟨fun x hx => ho.targets x (List.mem_of_mem_drop hx), r.after_rc.trans ho.rc,
    r.after_rev.trans ho.rev, by omega, fun x hx => ?_⟩
  rw [← hhas x (List.mem_append_right _ hx)]
  exact Rec.after_disk (fun y hy => ho.targets y (List.mem_of_mem_take hy))
    ((mem_layout hx).2.trans (by omega))

theorem jsbBusy_spec (h : J.Ok) {s : Js} (hs : s.jseq < 2 ^ 32) :
    gb32 (J.jsbBusy s) 0x1C = J.jfirst ∧ gb32 (J.jsbBusy s) 0x18 = s.jseq := by
  unfold jsbBusy
  have h1 := h.len
  have h2 := h.lt
  rw [gb32_pb32, gb32_pb32_ne (by omega), gb32_pb32, u32_of_lt hs, u32_of_lt (by omega)]
  exact ⟨rfl, rfl⟩

theorem jsbIdle_spec (s : Js) : gb32 (J.jsbIdle s) 0x1C = 0 := by
  unfold jsbIdle
  rw [gb32_pb32]
  rfl

variable {d : ℕ → Blk}

/-- What the passes start from. -/
def recStart (J : Journal) (d : ℕ → Blk) (tid : ℕ) : Rec := ⟨J.mounted d, true, tid, []⟩

end Journal

end BananaOS.Ext4
