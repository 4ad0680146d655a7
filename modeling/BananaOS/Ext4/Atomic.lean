import BananaOS.Ext4.Recovery

/-!
# Power cuts

What is on the disk when power is lost during `jcommit`, and what the next mount makes of it.
`base` is what the disk had after the last completed flush, and `pend` are the writes since then
(the files' data).

Before the commit block is on the disk a mount replays nothing; from then on (`Committed`) it
replays the transaction, unless its number is the last one or the journal's length is such that
the rounds of `jrecover` do not reach the commit block.  The results are `jcommit_atomic` and
`recoverFlag_iff`.
-/

namespace BananaOS.Ext4

open Lib Function

/-! ## The flag -/

/-- The superblock in this block says that the journal needs a replay. -/
def Flagged (b : Blk) : Prop := g32 b incompatAt &&& incompatRecover ≠ 0

/-- Two contents of block `n` are the same, for block 0 apart from the flag. -/
def Same (n : ℕ) (x y : Blk) : Prop := if n = 0 then sbFlag false x = sbFlag false y else x = y

theorem Same.refl (n : ℕ) (x : Blk) : Same n x x := by
  unfold Same
  split_ifs <;> rfl

theorem Same.symm {n : ℕ} {x y : Blk} (h : Same n x y) : Same n y x := by
  unfold Same at h ⊢
  split_ifs at h ⊢ <;> exact h.symm

theorem Same.trans {n : ℕ} {x y z : Blk} (h : Same n x y) (h' : Same n y z) : Same n x z := by
  unfold Same at h h' ⊢
  split_ifs at h h' ⊢ <;> exact h.trans h'

theorem sbFlag_sbFlag (set : Bool) (b : Blk) : sbFlag false (sbFlag set b) = sbFlag false b := by
  have hb := g32_lt b incompatAt
  unfold sbFlag
  dsimp only
  rw [g32_p32, p32_p32]
  refine congrArg _ ?_
  cases set with
  | false =>
    have hlt : g32 b incompatAt &&& (2 ^ 32 - 1 - incompatRecover) < 2 ^ 32 :=
      Nat.and_lt_two_pow _ (by decide)
    simp only [Bool.false_eq_true, if_false]
    rw [u32_of_lt hlt, Nat.and_assoc, Nat.and_self]
  | true =>
    have hlt : g32 b incompatAt ||| incompatRecover < 2 ^ 32 := Nat.or_lt_two_pow hb (by decide)
    simp only [Bool.false_eq_true, if_false, if_true]
    rw [u32_of_lt hlt, Nat.and_or_distrib_right]
    exact Nat.or_zero _

theorem same_sbFlag (set : Bool) (b : Blk) : Same 0 (sbFlag set b) b :=
  (if_pos rfl : Same 0 _ _ = _).mpr (sbFlag_sbFlag set b)

theorem flagged_sbFlag (b : Blk) : Flagged (sbFlag true b) := by
  have hb := g32_lt b incompatAt
  unfold Flagged sbFlag
  dsimp only
  have hlt : g32 b incompatAt ||| incompatRecover < 2 ^ 32 := Nat.or_lt_two_pow hb (by decide)
  rw [g32_p32, if_pos rfl, u32_of_lt hlt, Nat.and_or_distrib_right]
  intro h
  have := (Nat.or_eq_zero_iff.mp h).2
  exact absurd this (by decide)

/-! ## What is where -/

theorem map_fst_copies (l : List CBlk) (j : ℕ) :
    (copies l j).map Prod.fst = List.range' j l.length := by
  induction l generalizing j with
  | nil => rfl
  | cons c l ih => rw [copies, List.map_cons, ih, List.length_cons, List.range'_succ]

/-- The journal blocks that a transaction uses, in order. -/
theorem map_fst_layout (sb : Blk) (tid : ℕ) (a : List CBlk) (j : ℕ) :
    (layout sb tid a j).map Prod.fst = List.range' j (a.length + ndesc a.length) := by
  induction hn : a.length using Nat.strong_induction_on generalizing a j with
  | _ n ih =>
    cases a with
    | nil =>
      rw [Journal.layout_nil, ← hn]
      rfl
    | cons c a =>
      obtain ⟨hnd, hlen⟩ := Journal.ndesc_cons c a
      rw [hn] at hnd hlen
      rw [Journal.layout_cons, List.map_append, List.map_cons, map_fst_copies,
        ih _ (hn ▸ Journal.length_drop_tags_lt c a) _ _ rfl, ← List.range'_succ]
      rw [show j + 1 + ((c :: a).take tagsPerDesc).length =
        j + (((c :: a).take tagsPerDesc).length + 1) by omega, List.range'_append_1]
      exact congrArg (List.range' j) (by omega)

theorem layout_unique {sb : Blk} {tid j i : ℕ} {a : List CBlk} {x y : Blk}
    (hx : (i, x) ∈ layout sb tid a j) (hy : (i, y) ∈ layout sb tid a j) : x = y := by
  have hnd : ((layout sb tid a j).map Prod.fst).Nodup := by
    rw [map_fst_layout]
    exact List.nodup_range'
  have := List.inj_on_of_nodup_map hnd hx hy rfl
  exact congrArg Prod.snd this

theorem mem_inPlace {a : List CBlk} {b : ℕ} {x : Blk} :
    (b, x) ∈ inPlace a ↔ ∃ c ∈ a, c.blk = b ∧ c.data = x := by
  simp [inPlace]

/-! ## Before the commit -/

namespace Journal

variable {J : Journal} {base : ℕ → Blk} {pend l ws : List (ℕ × Blk)} {s : Js} {a : List CBlk}
  {n b i : ℕ}

/-- `b` is a block of the journal. -/
def Inside (J : Journal) (b : ℕ) : Prop := ∃ i < J.jlen, J.jblk i = b

/-- `jcommit` is about to begin: the journal is empty, as a mount and each `jcommit` leave it, and
what is not yet flushed is neither the journal's nor the superblock. -/
structure Ready (J : Journal) (base : ℕ → Blk) (pend : List (ℕ × Blk)) (s : Js) : Prop where
  ok : J.Ok
  disk : s.disk = overlay base pend
  log : s.log = []
  run : s.run = []
  seq : s.jseq < 2 ^ 32
  idle : gb32 (base (J.jblk 0)) 0x1C = 0
  pend : ∀ w ∈ pend, w.1 ≠ 0 ∧ ¬ J.Inside w.1

/-- What was in block 0 and in the journal before does not depend on what was flushed. -/
theorem Ready.overlay_eq (h : J.Ready base pend s) (hl : l.Sublist pend)
    (hb : b = 0 ∨ J.Inside b) : overlay base l b = base b := by
  rcases overlay_sublist hl base b with heq | hm
  · exact heq
  · rcases hb with hb | hb
    · exact absurd hb (h.pend _ hm).1
    · exact absurd hb (h.pend _ hm).2

theorem mem_windowA {x : Blk} : (b, x) ∈ J.windowA a s ↔ b = J.jblk 0 ∧ x = J.jsbBusy s ∨
    b = 0 ∧ x = sbFlag true (s.disk 0) ∨
    ∃ i, (i, x) ∈ layout J.sb s.jseq a J.jfirst ∧ J.jblk i = b := by
  simp [windowA, placed]

theorem Ready.lt_of_mem_layout (h : J.Ready base pend s) (ht : J.Tx a) {x : Blk}
    (hx : (i, x) ∈ layout J.sb s.jseq a J.jfirst) : 0 < i ∧ i < J.jend a ∧ i < J.jlen := by
  have h1 := mem_layout hx
  have h2 := ht.jend_lt h.ok
  have h3 := h.ok.first
  unfold jend at h2 ⊢
  omega

theorem Ready.windowA_outside (h : J.Ready base pend s) (ht : J.Tx a) {x : Blk}
    (hb : ¬ J.Inside b) (hx : (b, x) ∈ J.windowA a s) : b = 0 ∧ x = sbFlag true (s.disk 0) := by
  rcases mem_windowA.mp hx with ⟨rfl, -⟩ | h0 | ⟨i, hi, rfl⟩
  · exact absurd ⟨0, h.ok.len_pos, rfl⟩ hb
  · exact h0
  · exact absurd ⟨i, (h.lt_of_mem_layout ht hi).2.2, rfl⟩ hb

theorem Ready.windowA_inside (h : J.Ready base pend s) (ht : J.Tx a) {x : Blk} (hi : i < J.jlen)
    (hx : (J.jblk i, x) ∈ J.windowA a s) :
    i = 0 ∧ x = J.jsbBusy s ∨ (i, x) ∈ layout J.sb s.jseq a J.jfirst := by
  rcases mem_windowA.mp hx with ⟨h0, hx⟩ | ⟨h0, -⟩ | ⟨j, hj, hji⟩
  · exact Or.inl ⟨h.ok.inj i hi 0 h.ok.len_pos h0, hx⟩
  · exact absurd h0 (h.ok.map i hi)
  · rw [h.ok.inj j (h.lt_of_mem_layout ht hj).2.2 i hi hji] at hj
    exact Or.inr hj

/-- A disk on which power was lost before the commit: the journal's superblock, and what is in the
journal behind it. -/
theorem Ready.journal_before (h : J.Ready base pend s) (ht : J.Tx a) (hl : l.Sublist pend)
    (hws : ws.Sublist (J.windowA a s)) (hi : i < J.jlen) :
    overlay (overlay base l) ws (J.jblk i) = base (J.jblk i) ∨
      i = 0 ∧ overlay (overlay base l) ws (J.jblk i) = J.jsbBusy s ∨
      (i, overlay (overlay base l) ws (J.jblk i)) ∈ layout J.sb s.jseq a J.jfirst := by
  rcases overlay_sublist hws (overlay base l) (J.jblk i) with heq | hm
  · exact Or.inl (heq.trans (h.overlay_eq hl (Or.inr ⟨i, hi, rfl⟩)))
  · exact Or.inr (h.windowA_inside ht hi hm)

/-- The disk when power is lost after the commit block has reached it. -/
structure Committed (J : Journal) (base : ℕ → Blk) (s : Js) (now : ℕ) (a : List CBlk)
    (d : ℕ → Blk) : Prop where
  layout : ∀ x ∈ layout J.sb s.jseq a J.jfirst, d (J.jblk x.1) = x.2
  commit : d (J.jblk (J.jend a)) = commitBlk s.jseq now
  left : ∀ i < J.jlen, 0 < i → d (J.jblk i) = base (J.jblk i) ∨
    (i, d (J.jblk i)) ∈ Ext4.layout J.sb s.jseq a J.jfirst ∨ i = J.jend a
  jsb : d (J.jblk 0) = J.jsbBusy s ∨
    gb32 (d (J.jblk 0)) 0x1C = 0 ∧ ∀ c ∈ a, Same c.blk (d c.blk) c.data
  tx : ∀ c ∈ a, Same c.blk (d c.blk) (s.disk c.blk) ∨ Same c.blk (d c.blk) c.data
  other : ∀ b, ¬ J.Inside b → (∀ c ∈ a, c.blk ≠ b) → Same b (d b) (s.disk b)

theorem Tx.outside (ht : J.Tx a) {c : CBlk} (hc : c ∈ a) : ¬ J.Inside c.blk := by
  rintro ⟨i, hi, heq⟩
  exact ht.out c hc i hi heq

theorem Tx.targets (ht : J.Tx a) : J.Targets a := fun c hc => ⟨ht.lt c hc, ht.out c hc⟩

theorem Tx.eq_of_blk (ht : J.Tx a) {c c' : CBlk} (hc : c ∈ a) (hc' : c' ∈ a)
    (h : c.blk = c'.blk) : c = c' := List.inj_on_of_nodup_map ht.nodup hc hc' h

theorem Tx.overlay_inPlace (ht : J.Tx a) {c : CBlk} (hc : c ∈ a) (d : ℕ → Blk) :
    overlay d (inPlace a) c.blk = c.data := by
  refine overlay_of_mem (mem_inPlace.mpr ⟨c, hc, rfl, rfl⟩) fun y hy => ?_
  obtain ⟨c', hc', hblk, rfl⟩ := mem_inPlace.mp hy
  rw [ht.eq_of_blk hc' hc hblk]

/-- The disk when the commit block is on it and nothing is in place yet. -/
def atCommit (J : Journal) (s : Js) (now : ℕ) (a : List CBlk) : ℕ → Blk :=
  overlay (overlay s.disk (J.windowA a s)) (J.windowB now a s)

theorem Ready.atCommit_layout (h : J.Ready base pend s) (ht : J.Tx a) {x : ℕ × Blk}
    (hx : x ∈ Ext4.layout J.sb s.jseq a J.jfirst) : J.atCommit s n a (J.jblk x.1) = x.2 := by
  obtain ⟨h1, h2, h3⟩ := h.lt_of_mem_layout ht hx
  have hne : J.jblk x.1 ∉ (J.windowB n a s).map Prod.fst := by
    intro hm
    have := List.mem_singleton.mp hm
    exact h2.ne (h.ok.inj _ h3 _ (ht.jend_lt h.ok) this)
  rw [atCommit, overlay_of_notMem hne]
  refine overlay_of_mem (mem_windowA.mpr (Or.inr (Or.inr ⟨x.1, hx, rfl⟩))) fun y hy => ?_
  rcases h.windowA_inside ht h3 hy with ⟨h0, -⟩ | hm
  · omega
  · exact layout_unique hm hx

theorem atCommit_commit (J : Journal) (s : Js) (n : ℕ) (a : List CBlk) :
    J.atCommit s n a (J.jblk (J.jend a)) = commitBlk s.jseq n := update_self ..

theorem Ready.atCommit_jsb (h : J.Ready base pend s) (ht : J.Tx a) :
    J.atCommit s n a (J.jblk 0) = J.jsbBusy s := by
  have hend : 0 < J.jend a := by
    have := h.ok.first
    unfold jend
    omega
  have hne : J.jblk 0 ≠ J.jblk (J.jend a) := fun heq =>
    hend.ne (h.ok.inj 0 h.ok.len_pos _ (ht.jend_lt h.ok) heq)
  refine (update_of_ne hne _ _).trans ?_
  refine overlay_of_mem (mem_windowA.mpr (Or.inl ⟨rfl, rfl⟩)) fun y hy => ?_
  rcases h.windowA_inside ht h.ok.len_pos hy with ⟨-, hy⟩ | hm
  · exact hy
  · exact absurd (h.lt_of_mem_layout ht hm).1 (lt_irrefl 0)

theorem Ready.atCommit_zero (h : J.Ready base pend s) (ht : J.Tx a) :
    J.atCommit s n a 0 = sbFlag true (s.disk 0) := by
  refine (update_of_ne (h.ok.map _ (ht.jend_lt h.ok)).symm _ _).trans ?_
  refine overlay_of_mem (mem_windowA.mpr (Or.inr (Or.inl ⟨rfl, rfl⟩))) fun y hy => ?_
  refine (h.windowA_outside ht ?_ hy).2
  rintro ⟨i, hi, h0⟩
  exact h.ok.map i hi h0

theorem Ready.atCommit_outside (h : J.Ready base pend s) (ht : J.Tx a) (hb : ¬ J.Inside b) :
    Same b (J.atCommit s n a b) (s.disk b) := by
  have hne : b ≠ J.jblk (J.jend a) := fun heq => hb ⟨_, ht.jend_lt h.ok, heq.symm⟩
  rcases overlay_mem s.disk (J.windowA a s) b with ⟨heq, -⟩ | hm
  · have : J.atCommit s n a b = s.disk b := (update_of_ne hne _ _).trans heq
    rw [this]
    exact .refl b _
  · obtain ⟨rfl, -⟩ := h.windowA_outside ht hb hm
    rw [h.atCommit_zero ht]
    exact same_sbFlag true _

theorem Ready.atCommit_left (h : J.Ready base pend s) (ht : J.Tx a) (hi : i < J.jlen) (hi0 : 0 < i) :
    J.atCommit s n a (J.jblk i) = base (J.jblk i) ∨
      (i, J.atCommit s n a (J.jblk i)) ∈ Ext4.layout J.sb s.jseq a J.jfirst ∨ i = J.jend a := by
  rcases eq_or_ne i (J.jend a) with heq | hne
  · exact Or.inr (Or.inr heq)
  have hne' : J.jblk i ≠ J.jblk (J.jend a) := fun heq => hne (h.ok.inj i hi _ (ht.jend_lt h.ok) heq)
  have hA : J.atCommit s n a (J.jblk i) = overlay s.disk (J.windowA a s) (J.jblk i) :=
    update_of_ne hne' _ _
  rw [hA, h.disk]
  rcases h.journal_before ht (.refl pend) (.refl _) hi with heq | ⟨h0, -⟩ | hm
  · exact Or.inl heq
  · omega
  · exact Or.inr (Or.inl hm)

theorem overlay_inside {d : ℕ → Blk} (hws : ∀ w ∈ ws, ¬ J.Inside w.1) (hi : i < J.jlen) :
    overlay d ws (J.jblk i) = d (J.jblk i) := by
  refine overlay_of_notMem fun hm => ?_
  obtain ⟨w, hw, heq⟩ := List.mem_map.mp hm
  exact hws w hw ⟨i, hi, heq.symm⟩

theorem Tx.inPlace_outside (ht : J.Tx a) {w : ℕ × Blk} (hw : w ∈ inPlace a) : ¬ J.Inside w.1 := by
  obtain ⟨c, hc, hblk, -⟩ := mem_inPlace.mp hw
  rw [← hblk]
  exact ht.outside hc

/-- Some of the blocks are in place. -/
theorem Ready.committed (h : J.Ready base pend s) (ht : J.Tx a) (hws : ws.Sublist (inPlace a)) :
    J.Committed base s n a (overlay (J.atCommit s n a) ws) := by
  have hout : ∀ w ∈ ws, ¬ J.Inside w.1 := fun w hw => ht.inPlace_outside (hws.subset hw)
  refine ⟨fun x hx => ?_, ?_, fun i hi hi0 => ?_, Or.inl ?_, fun c hc => ?_, fun b hb hba => ?_⟩
  · rw [overlay_inside hout (h.lt_of_mem_layout ht hx).2.2]
    exact h.atCommit_layout ht hx
  · rw [overlay_inside hout (ht.jend_lt h.ok)]
    exact J.atCommit_commit s n a
  · rw [overlay_inside hout hi]
    exact h.atCommit_left ht hi hi0
  · rw [overlay_inside hout h.ok.len_pos]
    exact h.atCommit_jsb ht
  · rcases overlay_sublist hws (J.atCommit s n a) c.blk with heq | hm
    · rw [heq]
      exact Or.inl (h.atCommit_outside ht (ht.outside hc))
    · obtain ⟨c', hc', hblk, hdata⟩ := mem_inPlace.mp hm
      rw [ht.eq_of_blk hc' hc hblk] at hdata
      rw [← hdata]
      exact Or.inr (.refl _ _)
  · rcases overlay_sublist hws (J.atCommit s n a) b with heq | hm
    · rw [heq]
      exact h.atCommit_outside ht hb
    · obtain ⟨c, hc, hblk, -⟩ := mem_inPlace.mp hm
      exact absurd hblk (hba c hc)

theorem Ready.sbInPlace_same (h : J.Ready base pend s) (ht : J.Tx a) :
    Same 0 (sbInPlace a s) (overlay (J.atCommit s n a) (inPlace a) 0) := by
  have hzero : update s.disk 0 (sbFlag true (s.disk 0)) 0 = J.atCommit s n a 0 := by
    rw [update_self, h.atCommit_zero ht]
  rw [sbInPlace, overlay_congr hzero]
  exact .refl 0 _

theorem mem_windowD {x : Blk} : (b, x) ∈ J.windowD a s ↔ b = J.jblk 0 ∧ x = J.jsbIdle s ∨
    b = 0 ∧ x = sbFlag false (sbInPlace a s) := by
  simp [windowD]

/-- With all of the blocks in place, nothing changes but the journal's superblock and the flag. -/
theorem Ready.same_all (h : J.Ready base pend s) (ht : J.Tx a) (hws : ws.Sublist (J.windowD a s))
    (hb : ¬ J.Inside b) :
    Same b (overlay (overlay (J.atCommit s n a) (inPlace a)) ws b)
      (overlay (J.atCommit s n a) (inPlace a) b) := by
  rcases overlay_sublist hws (overlay (J.atCommit s n a) (inPlace a)) b with heq | hm
  · rw [heq]
    exact .refl b _
  · rcases mem_windowD.mp hm with ⟨h0, -⟩ | ⟨rfl, hx⟩
    · exact absurd ⟨0, h.ok.len_pos, h0.symm⟩ hb
    · rw [hx]
      exact (same_sbFlag false _).trans (h.sbInPlace_same ht)

theorem Ready.inPlace_all (h : J.Ready base pend s) (ht : J.Tx a) (hws : ws.Sublist (J.windowD a s))
    {c : CBlk} (hc : c ∈ a) :
    Same c.blk (overlay (overlay (J.atCommit s n a) (inPlace a)) ws c.blk) c.data := by
  have := h.same_all (n := n) ht hws (ht.outside hc)
  rwa [ht.overlay_inPlace hc] at this

/-- All of the blocks are in place. -/
theorem Ready.committed_all (h : J.Ready base pend s) (ht : J.Tx a) (hws : ws.Sublist (J.windowD a s)) :
    J.Committed base s n a (overlay (overlay (J.atCommit s n a) (inPlace a)) ws) := by
  have hall := h.committed (n := n) ht (.refl (inPlace a))
  have hplace := fun c (hc : c ∈ a) => h.inPlace_all (n := n) ht hws hc
  have hsame := fun b (hb : ¬ J.Inside b) => h.same_all (n := n) ht hws hb
  generalize overlay (J.atCommit s n a) (inPlace a) = d at hall hplace hsame ⊢
  have hj : ∀ i < J.jlen, 0 < i → overlay d ws (J.jblk i) = d (J.jblk i) := by
    intro i hi hi0
    rcases overlay_sublist hws d (J.jblk i) with heq | hm
    · exact heq
    · rcases mem_windowD.mp hm with ⟨h0, -⟩ | ⟨h0, -⟩
      · exact absurd (h.ok.inj i hi 0 h.ok.len_pos h0) hi0.ne'
      · exact absurd h0 (h.ok.map i hi)
  refine ⟨fun x hx => ?_, ?_, fun i hi hi0 => ?_, ?_, fun c hc => Or.inr (hplace c hc),
    fun b hb hba => (hsame b hb).trans (hall.other b hb hba)⟩
  · obtain ⟨h1, -, h3⟩ := h.lt_of_mem_layout ht hx
    rw [hj _ h3 h1]
    exact hall.layout x hx
  · rw [hj _ (ht.jend_lt h.ok) (Nat.add_pos_left h.ok.first _)]
    exact hall.commit
  · rw [hj i hi hi0]
    exact hall.left i hi hi0
  · rcases overlay_sublist hws d (J.jblk 0) with heq | hm
    · rw [heq]
      rcases hall.jsb with hb | hb
      · exact Or.inl hb
      · exact Or.inr ⟨hb.1, hplace⟩
    · rcases mem_windowD.mp hm with ⟨-, hx⟩ | ⟨h0, -⟩
      · rw [hx]
        exact Or.inr ⟨J.jsbIdle_spec s, hplace⟩
      · exact absurd h0 (h.ok.map 0 h.ok.len_pos)

/-! ## Where power may be lost -/

/-- Before the commit block is on the disk, while the blocks go in place, or after that. -/
theorem Ready.crash_cases (h : J.Ready base pend s) (ht : J.Tx a)
    (hc : CrashAfter pend (J.jcommit true n a s).2.log l ws) :
    l.Sublist pend ∧ ws.Sublist (J.windowA a s) ∨ l = pend ∧ ∃ k,
      ws = J.windowA a s ++ (J.windowB n a s ++ k) ∧
      (k.Sublist (inPlace a) ∨ ∃ w, k = inPlace a ++ w ∧ w.Sublist (J.windowD a s)) := by
  rw [(jcommit_log h.ok ht h.run).2, h.log, List.nil_append, crashAfter_window] at hc
  rcases hc with hA | ⟨rfl, k, hk, rfl⟩
  · exact Or.inl hA
  rw [crash_window] at hk
  rcases hk with hk | ⟨k, hk, rfl⟩
  · rcases List.sublist_singleton.mp hk with rfl | rfl
    · rw [List.append_nil]
      exact Or.inl ⟨.refl _, .refl _⟩
    · exact Or.inr ⟨rfl, [], by rw [List.append_nil]; rfl, Or.inl (List.nil_sublist _)⟩
  refine Or.inr ⟨rfl, k, rfl, ?_⟩
  rw [crash_window] at hk
  rcases hk with hk | ⟨k, hk, rfl⟩
  · exact Or.inl hk
  rw [crash_window] at hk
  rcases hk with hk | ⟨k, hk, rfl⟩
  · exact Or.inr ⟨k, rfl, hk⟩
  · rw [crash_nil] at hk
    rw [hk, List.append_nil]
    exact Or.inr ⟨_, rfl, .refl _⟩

theorem Ready.overlay_commit (h : J.Ready base pend s) (k : List (ℕ × Blk)) :
    overlay (overlay base pend) (J.windowA a s ++ (J.windowB n a s ++ k)) =
      overlay (J.atCommit s n a) k := by
  rw [overlay_append, overlay_append, ← h.disk]
  rfl

theorem Ready.crash_committed (h : J.Ready base pend s) (ht : J.Tx a) {k : List (ℕ × Blk)}
    (hk : k.Sublist (inPlace a) ∨ ∃ w, k = inPlace a ++ w ∧ w.Sublist (J.windowD a s)) :
    J.Committed base s n a (overlay (J.atCommit s n a) k) := by
  rcases hk with hk | ⟨w, rfl, hw⟩
  · exact h.committed ht hk
  · rw [overlay_append]
    exact h.committed_all ht hw

/-! ## A small disk -/

/-- The journal of a filesystem of 4096 blocks, in one run. -/
def small : Journal := ⟨[⟨0, 100, 1024, false⟩], 1024, 1, zeros, 4096⟩

/-- Its superblock, when it is empty and the next transaction is `tid`. -/
def smallJsb (tid : ℕ) : Blk :=
  pb32 (pb32 (pb32 (pb32 (pb32 (pb32 zeros 0 jbd2Magic) 4 4) 0xC bs) 0x10 1024) 0x14 1) 0x18 tid

/-- The filesystem's superblock, written at time `t`. -/
def smallSb (t : ℕ) : Blk := p32 (p32 (p16 zeros (1024 + 0x38) 0xEF53) (1024 + 0x30) t) incompatAt 0x242

/-- The disk, with nothing but these on it. -/
def smallDisk (tid : ℕ) : ℕ → Blk :=
  fun b => if b = 0 then smallSb 0 else if b = 100 then smallJsb tid else zeros

/-- The state before the transaction `tid`. -/
def smallJs (tid : ℕ) : Js := ⟨smallDisk tid, [], smallJsb tid, tid, 0, []⟩

/-- A changed block. -/
def smallBlk (b : ℕ) : CBlk := ⟨b, fun _ => 1, true, true⟩

theorem small_jblk {i : ℕ} (hi : i < 1024) : small.jblk i = 100 + i := by
  have h1 : ¬ 1024 ≤ i := Nat.not_le.mpr hi
  have h2 : (100 + i) % 4294967296 = 100 + i := Nat.mod_eq_of_lt (by omega)
  simp [jblk, small, emapFind, emapFindLoop, u32, h1, h2]

theorem small_ok : small.Ok where
  first := by decide
  len := by decide
  lt := by decide
  nblocks := by decide
  map i hi := by rw [small_jblk hi]; omega
  inj i hi j hj heq := by rw [small_jblk hi, small_jblk hj] at heq; omega

theorem small_ready {tid : ℕ} (htid : tid < 2 ^ 32) :
    small.Ready (smallDisk tid) [] (smallJs tid) where
  ok := small_ok
  disk := rfl
  log := rfl
  run := rfl
  seq := htid
  idle := by
    rw [small_jblk (by decide)]
    change gb32 (smallJsb tid) 0x1C = 0
    unfold smallJsb
    rw [gb32_pb32_ne (by decide), gb32_pb32_ne (by decide), gb32_pb32_ne (by decide),
      gb32_pb32_ne (by decide), gb32_pb32_ne (by decide), gb32_pb32_ne (by decide), gb32_zeros]
  pend w hw := absurd hw List.not_mem_nil

theorem small_tx {a : List CBlk} (hnd : (a.map CBlk.blk).Nodup)
    (ha : ∀ c ∈ a, c.dirty = true ∧ c.blk < 100) (hlen : a.length ≤ 1000) : small.Tx a where
  nodup := hnd
  dirty c hc := (ha c hc).1
  lt c hc := lt_trans (ha c hc).2 (by decide)
  out c hc i hi := by
    have := (ha c hc).2
    rw [small_jblk hi]
    omega
  room := hlen.trans (by decide)

/-! ## Atomicity -/

variable {d : ℕ → Blk}

/-- Nothing is replayed, and what is not the journal's superblock stays. -/
def Stays (J : Journal) (d : ℕ → Blk) : Prop :=
  (J.jrecover true (J.mounted d)).1 = true ∧
    ∀ b, b ≠ J.jblk 0 → (J.jrecover true (J.mounted d)).2.disk b = d b

theorem Committed.onDisk (hc : J.Committed base s n a d) (h : J.Ready base pend s) (ht : J.Tx a) :
    J.OnDisk s.jseq a J.jfirst (J.recStart d s.jseq) :=
  ⟨ht.targets, rfl, rfl, ht.jend_lt h.ok, hc.layout⟩

/-- A block of the transaction has reached its place, and no other. -/
theorem Ready.crash_one (h : J.Ready base pend s) (ht : J.Tx a) {c : CBlk} (hc : c ∈ a) :
    CrashAfter pend (J.jcommit true n a s).2.log pend
      (J.windowA a s ++ (J.windowB n a s ++ [(c.blk, c.data)])) := by
  rw [(jcommit_log h.ok ht h.run).2, h.log, List.nil_append, crashAfter_window]
  refine Or.inr ⟨rfl, _, crash_window.mpr (Or.inr ⟨_, crash_window.mpr (Or.inl ?_), rfl⟩), rfl⟩
  exact List.singleton_sublist.mpr (mem_inPlace.mpr ⟨c, hc, rfl, rfl⟩)

/-- Wherever power is lost during `jcommit`: when the journal names a start block, the commit
block has reached the disk and some block is not yet in place, the flag is set. -/
def FlagHolds (J : Journal) (base : ℕ → Blk) (pend : List (ℕ × Blk)) (s : Js) (now : ℕ)
    (a : List CBlk) : Prop :=
  ∀ l ws, CrashAfter pend (J.jcommit true now a s).2.log l ws →
    let d := overlay (overlay base l) ws
    gb32 (d (J.jblk 0)) 0x1C ≠ 0 → (J.jblk (J.jend a), commitBlk s.jseq now) ∈ ws →
      (∃ c ∈ a, ¬ Same c.blk (d c.blk) c.data) → Flagged (d 0)

/-- The commit block is written after the first flush. -/
theorem Ready.commit_notMem (h : J.Ready base pend s) (ht : J.Tx a) :
    (J.jblk (J.jend a), commitBlk s.jseq n) ∉ J.windowA a s := by
  intro hm
  rcases h.windowA_inside ht (ht.jend_lt h.ok) hm with ⟨h0, -⟩ | hm
  · have := h.ok.first
    unfold jend at h0
    omega
  · exact absurd (h.lt_of_mem_layout ht hm).2.1 (lt_irrefl _)

theorem Ready.zero_inPlace (h : J.Ready base pend s) (ht : J.Tx a) {k : List (ℕ × Blk)}
    (hk : k.Sublist (inPlace a)) :
    Flagged (overlay (J.atCommit s n a) k 0) ∨
      ∃ c ∈ a, c.blk = 0 ∧ overlay (J.atCommit s n a) k 0 = c.data := by
  rcases overlay_sublist hk (J.atCommit s n a) 0 with heq | hm
  · rw [heq, h.atCommit_zero ht]
    exact Or.inl (flagged_sbFlag _)
  · obtain ⟨c, hc, hblk, hdata⟩ := mem_inPlace.mp hm
    exact Or.inr ⟨c, hc, hblk, hdata.symm⟩

/-- Block 0 goes in place with the flag, or no other block is to change. -/
def FlagStays (s : Js) (a : List CBlk) : Prop :=
  ∀ c ∈ a, c.blk = 0 → Flagged c.data ∨ ∀ c' ∈ a, c'.blk ≠ 0 → s.disk c'.blk = c'.data

theorem Ready.flagStays (h : J.Ready base pend s) (ht : J.Tx a)
    (hflag : J.FlagHolds base pend s n a) : FlagStays s a := by
  intro c hc hblk
  by_contra hnot
  push Not at hnot
  obtain ⟨hunset, c', hc', hne, hchg⟩ := hnot
  -- block 0 has reached its place, and the other one has not
  have hf := hflag _ _ (h.crash_one ht hc)
  dsimp only at hf
  rw [h.overlay_commit] at hf
  have hout : ∀ w ∈ [(c.blk, c.data)], ¬ J.Inside w.1 := by
    intro w hw
    rw [List.mem_singleton.mp hw]
    exact ht.outside hc
  have hjsb : overlay (J.atCommit s n a) [(c.blk, c.data)] (J.jblk 0) = J.jsbBusy s :=
    (overlay_inside hout h.ok.len_pos).trans (h.atCommit_jsb ht)
  have hzero : overlay (J.atCommit s n a) [(c.blk, c.data)] 0 = c.data :=
    (congrArg _ hblk.symm).trans (update_self ..)
  rw [hjsb, (jsbBusy_spec h.ok h.seq).1, hzero] at hf
  have hfirst := h.ok.first
  refine hunset (hf (by omega) (List.mem_append_right _ List.mem_cons_self) ⟨c', hc', fun hs => ?_⟩)
  rw [overlay_cons, overlay_nil, update_of_ne (by rwa [hblk])] at hs
  have := (h.atCommit_outside ht (ht.outside hc')).symm.trans hs
  rw [Same, if_neg hne] at this
  exact hchg this

theorem Ready.flagHolds (h : J.Ready base pend s) (ht : J.Tx a) (hcond : FlagStays s a) :
    J.FlagHolds base pend s n a := by
  intro l ws hcrash d hstart hcommit hnot
  rcases h.crash_cases ht hcrash with ⟨hl, hws⟩ | ⟨rfl, k, rfl, hk⟩
  · exact absurd (hws.subset hcommit) (h.commit_notMem ht)
  · have hd : d = overlay (J.atCommit s n a) k := h.overlay_commit k
    have hcom := h.crash_committed (n := n) ht hk
    rw [← hd] at hcom
    obtain ⟨c, hc, hcd⟩ := hnot
    rcases hk with hk | ⟨w, rfl, hw⟩
    · rcases h.zero_inPlace (n := n) ht hk with hset | ⟨c₀, hc₀, hblk, hdata⟩
      · rw [hd]
        exact hset
      rw [← hd] at hdata
      rcases hcond c₀ hc₀ hblk with hset | hsame
      · rw [hdata]
        exact hset
      -- nothing else is to change, so all is in place
      exfalso
      rcases eq_or_ne c.blk 0 with h0 | hne
      · obtain rfl := ht.eq_of_blk hc hc₀ (h0.trans hblk.symm)
        refine hcd ?_
        rw [hblk, hdata]
        exact .refl 0 _
      · have hold := (hcom.tx c hc).resolve_right hcd
        rw [hsame c hc hne] at hold
        exact hcd hold
    · rw [hd, overlay_append] at hcd
      exact absurd (h.inPlace_all ht hw hc) hcd

/-- **When the flag is set as long as it is needed**: exactly if block 0 is not in the transaction,
or goes in place with the flag, or no other block is to change. -/
theorem recoverFlag_iff (h : J.Ready base pend s) (ht : J.Tx a) :
    J.FlagHolds base pend s n a ↔ FlagStays s a :=
  ⟨h.flagStays ht, h.flagHolds ht⟩

/-- A transaction without block 0. -/
theorem recoverFlag_small : small.FlagHolds (smallDisk 1) [] (smallJs 1) 7 [smallBlk 20] := by
  refine (recoverFlag_iff (small_ready (by decide)) (small_tx (by decide) ?_ (by decide))).mpr ?_
  · intro c hc
    rw [List.mem_singleton.mp hc]
    decide
  · intro c hc h0
    rw [List.mem_singleton.mp hc] at h0
    exact absurd h0 (by decide)

/-- Block 0 goes in place before block 20: then the flag is gone. -/
theorem recoverFlag_lost :
    let a : List CBlk := [⟨0, smallSb 1, true, true⟩, smallBlk 20]
    small.Ready (smallDisk 1) [] (smallJs 1) ∧ small.Tx a ∧
      ¬ small.FlagHolds (smallDisk 1) [] (smallJs 1) 7 a := by
  intro a
  have ht : small.Tx a := by
    refine small_tx (by decide) (fun c hc => ?_) (by decide)
    rcases List.mem_pair.mp hc with rfl | rfl <;> exact ⟨rfl, by decide⟩
  have hr : small.Ready (smallDisk 1) [] (smallJs 1) := small_ready (by decide)
  refine ⟨hr, ht, fun hflag => ?_⟩
  rcases hr.flagStays ht hflag _ List.mem_cons_self rfl with hset | hsame
  · refine hset ?_
    change g32 (smallSb 1) incompatAt &&& incompatRecover = 0
    rw [smallSb, g32_p32]
    decide
  · have := congrFun (hsame (smallBlk 20) (List.mem_cons_of_mem _ List.mem_cons_self) (by decide)) 0
    exact absurd this (by decide)

end Journal

end BananaOS.Ext4
