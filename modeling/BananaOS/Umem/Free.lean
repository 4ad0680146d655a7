import BananaOS.Umem.Alloc

/-!
# What a free does to the blocks in use

`free_l` of an address where no block in use starts changes nothing at all (`freeL_dead`).  Of the
start of one it takes that block away and leaves the others (`freeL_live`): the pages of a run go
back to their block, a piece goes back to its slab, and a row becomes blocks of one frame each.  The
last needs memory for the new blocks.  When there is none, `split_big` keeps the rest as one row *in
use*, under an address that was freed and is counted no more; all that follows is about the runs in
which this does not happen.
-/

namespace BananaOS.Umem.Cfg

variable {c : Cfg}

/-! ## Pieces -/

theorem emptied_run {ch : Chunk} (i n j : ℕ) :
    (ch.emptied i n).run j = if j = i then 0 else ch.run j :=
  Chunk.runFree_run i j

/-- A slab with no piece in use goes. -/
theorem quiet_dropSlab (hf : c.Frames) (h : c.m.Ok) {s k i : ℕ} (hs : s ∈ c.m.slabs)
    (hh : c.m.Home s k i) (hall : ∀ r < (c.m.slab s).nobj, (c.m.slab s).map r = true) :
    Quiet c (c.dropSlab k s) := by
  have hok := ok_dropSlab hf h hs hh
  have hkept := kept_dropSlab (c := c) k s
  obtain ⟨hrun, hin, hn, hbr⟩ := home_plain h hs hh
  have hcls := clsSize_mem (h.slab s hs).cls
  have hof : ∀ a, (c.dropSlab k s).chunkOf a = c.chunkOf a := by
    intro a
    unfold chunkOf
    rw [hkept.id, hkept.dir]
  have hchunk : (c.dropSlab k s).m.chunk =
      Function.update c.m.chunk k ((c.m.chunk k).emptied i (c.m.slab s).pages) := by
    rw [dropSlab_eq h hs hh]
  have hslab : (c.dropSlab k s).m.slab =
      Function.update c.m.slab s { c.m.slab s with listed := false } := by
    rw [dropSlab_eq h hs hh]
  generalize c.dropSlab k s = c' at *
  -- the mark of the listing is not looked at
  have hpiece : ∀ t a, pieceAt (c'.m.slab t) a = pieceAt (c.m.slab t) a ∧
      (c'.m.slab t).cls = (c.m.slab t).cls := by
    intro t a
    rw [hslab]
    rcases eq_or_ne t s with rfl | ht
    · rw [Function.update_self]
      exact ⟨rfl, rfl⟩
    · rw [Function.update_of_ne ht]
      exact ⟨rfl, rfl⟩
  have hsame : ∀ ch ch' : Chunk, ∀ a, ch'.broken = ch.broken → ch'.nframes = ch.nframes →
      ch'.frame = ch.frame → ch'.bigUsed = ch.bigUsed →
      ch'.slab (pageOf a) = ch.slab (pageOf a) → ch'.run (pageOf a) = ch.run (pageOf a) →
      sizeAt c'.m.slab ch' a = sizeAt c.m.slab ch a := by
    intro ch ch' a h1 h2 h3 h4 h5 h6
    unfold sizeAt Chunk.base
    rw [h1, h2, h3, h4, h5, h6]
    cases ch.slab (pageOf a) with
    | none => rfl
    | some t =>
      dsimp only
      rw [(hpiece t a).1, (hpiece t a).2]
  refine ⟨hkept.frames hf, hok, fun a => ?_, fun a _ => ?_⟩
  · cases hka : c.chunkOf a with
    | none => rw [sizeL_of_none hka, sizeL_of_none ((hof a).trans hka)]
    | some l =>
      rw [sizeL_of hka, sizeL_of ((hof a).trans hka), hchunk]
      rcases eq_or_ne l k with rfl | hl
      · rw [Function.update_self]
        by_cases hx : i ≤ pageOf a ∧ pageOf a < i + (c.m.slab s).pages
        · have hgone : ((c.m.chunk l).emptied i (c.m.slab s).pages).slab (pageOf a) = none :=
            if_pos hx
          have hr0 : ((c.m.chunk l).emptied i (c.m.slab s).pages).run (pageOf a) = 0 := by
            rw [emptied_run]
            split_ifs with hpi
            · rfl
            · by_contra hr
              have := (h.chunk l hh.mem).apart i _ hrun hr (by omega)
              rw [hh.run] at this
              omega
          rw [sizeAt_run (by exact hn) (by exact hbr) hgone, if_pos (Or.inr hr0),
            sizeAt_piece hn hbr (hh.slab _ hx.1 hx.2)]
          have hle : (c.m.slab s).base ≤ a := by
            have hadr := addr_eq a
            rw [← hf.frame_eq hka hn] at hadr
            have := Nat.mul_le_mul_right page hx.1
            rw [hh.base]
            unfold Chunk.base
            omega
          cases hp : pieceAt (c.m.slab s) a with
          | none => rfl
          | some r =>
            obtain ⟨-, h2, h3⟩ := (pieceAt_eq_some (by omega) hle).mp hp
            rw [hall r h2] at h3
            exact absurd h3 (by simp)
        · refine hsame _ _ a rfl rfl rfl rfl (if_neg hx) ?_
          rw [emptied_run, if_neg]
          rintro hpi
          have hpos := slabPages_pos (c.m.slab s).cls
          have hpg := (h.slab s hs).pages
          exact hx ⟨hpi.ge, by omega⟩
      · rw [Function.update_of_ne hl]
        exact hsame _ _ a rfl rfl rfl rfl rfl rfl
  · unfold pinned
    rw [hof, hchunk]
    cases c.chunkOf a with
    | none => rfl
    | some l =>
      dsimp only
      rcases eq_or_ne l k with rfl | hl
      · rw [Function.update_self]
        rfl
      · rw [Function.update_of_ne hl]

theorem dropSlab_used (k s : ℕ) : (c.dropSlab k s).m.used = c.m.used := slabUnlist_used s

/-- What a free of the block at `a` does. -/
structure Taken (c c' : Cfg) (a : ℕ) : Prop extends Sized c c' a 0 where
  used : c'.m.used = sub32 c.m.used (c.sizeL a)

theorem freePiece_taken (hf : c.Frames) (h : c.m.Ok) {s k i j : ℕ} (hs : s ∈ c.m.slabs)
    (hh : c.m.Home s k i) (hj : j < (c.m.slab s).nobj) (hm : (c.m.slab s).map j = false) :
    Taken c (c.freePiece k s j) ((c.m.slab s).base + j * clsSize (c.m.slab s).cls) := by
  have hold := h.slab s hs
  have hcls := clsSize_mem hold.cls
  have hsize : c.sizeL ((c.m.slab s).base + j * clsSize (c.m.slab s).cls) =
      clsSize (c.m.slab s).cls := by
    obtain ⟨h1, h2⟩ := piece_addr hf h hs hh hj
    obtain ⟨-, -, hn, hbr⟩ := home_plain h hs hh
    rw [sizeL_of h1, sizeAt_piece hn hbr h2,
      (pieceAt_eq_some (by omega) (Nat.le_add_right _ _)).mpr ⟨rfl, hj, hm⟩]
  have hcard := card_free_update hj true hm
  simp only [if_true] at hcard
  have hok : ({ c.m.slab s with
      map := Function.update (c.m.slab s).map j true
      nfree := (c.m.slab s).nfree + 1 } : Slab).Ok := by
    refine ⟨hold.cls, hold.pages, hold.nobj, fun r hr => ?_, ?_⟩
    · rcases eq_or_ne r j with rfl | hrj
      · exact hj
      · refine hold.map r ?_
        have : Function.update (c.m.slab s).map j true r = true := hr
        rw [Function.update_of_ne hrj] at this
        exact this
    · have := hold.nfree
      dsimp only
      omega
  have hsz := sized_piece (j := j) hf h hs hok rfl rfl rfl rfl rfl hj
    (fun r hr => Function.update_of_ne hr _ _) (Function.update_self _ _ _)
  rw [if_pos rfl] at hsz
  unfold freePiece
  dsimp only
  have hq := quiet_subUsed hsz.frames hsz.ok (clsSize (c.m.slab s).cls)
  have h1 := hsz.quiet hq
  generalize hc1 : (c.setSlab s { c.m.slab s with
      map := Function.update (c.m.slab s).map j true
      nfree := (c.m.slab s).nfree + 1 }).subUsed (clsSize (c.m.slab s).cls) = c1 at h1
  have hused : c1.m.used = sub32 c.m.used (clsSize (c.m.slab s).cls) := by rw [← hc1]; rfl
  have hself : c1.m.slab s = { c.m.slab s with
      map := Function.update (c.m.slab s).map j true
      nfree := (c.m.slab s).nfree + 1 } := by
    rw [← hc1]
    exact Function.update_self _ _ _
  have hs1 : s ∈ c1.m.slabs := by
    rw [← hc1]
    exact hs
  have hh1 : c1.m.Home s k i := by
    have hm1 : c1.m.chunk = c.m.chunk ∧ c1.m.chunks = c.m.chunks := by
      rw [← hc1]
      exact ⟨rfl, rfl⟩
    refine ⟨?_, ?_, ?_, ?_⟩
    · rw [hm1.2]
      exact hh.mem
    · rw [hself, hm1.1]
      exact hh.base
    · rw [hself, hm1.1]
      exact hh.run
    · rw [hself, hm1.1]
      exact hh.slab
  split_ifs with hx hy
  · have hall : ∀ r < (c1.m.slab s).nobj, (c1.m.slab s).map r = true := by
      rw [hself]
      dsimp only
      intro r hr
      have hfull : ((Finset.range (c.m.slab s).nobj).filter
          fun k => Function.update (c.m.slab s).map j true k = true).card =
          (Finset.range (c.m.slab s).nobj).card := by
        rw [Finset.card_range]
        have := hold.nfree
        have := hx.1
        omega
      have := Finset.filter_card_eq hfull r (Finset.mem_range.mpr hr)
      exact this
    have hd := quiet_dropSlab h1.frames h1.ok hs1 hh1 hall
    refine ⟨h1.quiet hd, ?_⟩
    rw [dropSlab_used, hused, hsize]
  · exact ⟨h1, by rw [hused, hsize]⟩
  · have hl : (c1.m.slab s).listed = false := by
      rw [hself]
      simpa using hy
    have hd := quiet_slabList h1.frames h1.ok hs1 hl
    refine ⟨h1.quiet hd, ?_⟩
    show c1.m.used = _
    rw [hused, hsize]

/-! ## Rows -/

/-- What is left while the row `b` is split: the other blocks, and new ones with nothing on them. -/
structure Splintered (c c' : Cfg) (b : ℕ) : Prop where
  slab : c'.m.slab = c.m.slab
  slabs : c'.m.slabs = c.m.slabs
  partials : c'.m.partials = c.m.partials
  used : c'.m.used = c.m.used
  next : c.m.next ≤ c'.m.next
  kept : ∀ k ∈ c.m.chunks, k ≠ b → k ∈ c'.m.chunks ∧ c'.m.chunk k = c.m.chunk k
  new : ∀ k ∈ c'.m.chunks, k ∈ c.m.chunks ∧ k ≠ b ∧ c'.m.chunk k = c.m.chunk k ∨
    ∃ f, c'.m.chunk k = Chunk.new f 1 false

theorem splitBig_splintered (hf : c.Frames) {b : ℕ} (hb : b ∈ c.m.chunks) {e : Env}
    (hmem : ∀ k < (c.m.chunk b).nframes, e.splitMem k = true) : Splintered c (c.splitBig b e) b := by
  refine splitBig_rule (P := fun c' _ => Splintered c c' b) (Q := fun c' => Splintered c c' b) hf hb
    ?_ ?_ ?_ fun _ hx => hx
  · have hin : ∀ k, k ∈ c.m.chunks.erase b ↔ k ≠ b ∧ k ∈ c.m.chunks := fun k =>
      hf.nodup.mem_erase_iff
    refine ⟨rfl, rfl, rfl, rfl, le_rfl, fun k hk hne => ⟨(hin k).mpr ⟨hne, hk⟩, rfl⟩, fun k hk => ?_⟩
    obtain ⟨h1, h2⟩ := (hin k).mp hk
    exact Or.inl ⟨h2, h1, rfl⟩
  · intro c' j hs hsp hj _
    have hnew : c'.m.next ∉ c'.m.chunks := fun hx => (hs.fresh _ hx).false
    have hold : ∀ k ∈ c'.m.chunks, (c'.relinked c'.m.next
        (Chunk.new ((c.m.chunk b).frame + j) 1 false)).m.chunk k = c'.m.chunk k := fun k hk =>
      Function.update_of_ne (fun hx => hnew (by rw [← hx]; exact hk)) _ _
    refine ⟨hsp.slab, hsp.slabs, hsp.partials, hsp.used, ?_, fun k hk hne => ?_, fun k hk => ?_⟩
    · exact hsp.next.trans (le_max_left _ _)
    · obtain ⟨h1, h2⟩ := hsp.kept k hk hne
      exact ⟨List.mem_cons_of_mem _ h1, (hold k h1).trans h2⟩
    · rcases List.mem_cons.mp hk with rfl | hk
      · exact Or.inr ⟨_, Function.update_self _ _ _⟩
      · rw [hold k hk]
        exact hsp.new k hk
  · intro c' j _ _ hj hno
    rw [hmem j hj] at hno
    exact absurd hno (by simp)

/-- The row at `b` is no block in use any more. -/
theorem sized_split (hf : c.Frames) (h : c.m.Ok) {b : ℕ} (hb : b ∈ c.m.chunks)
    (hn : 1 < (c.m.chunk b).nframes) {e : Env}
    (hmem : ∀ k < (c.m.chunk b).nframes, e.splitMem k = true) :
    Sized c (c.splitBig b e) (c.m.chunk b).base 0 ∧ (c.splitBig b e).m.used = c.m.used := by
  have hf' := (hf.splitBig hb e).1
  have hsp := splitBig_splintered hf hb hmem
  generalize c.splitBig b e = c' at hf' hsp
  have hof : c.chunkOf (c.m.chunk b).base = some b := by
    refine hf.chunkOf_eq_some.mpr ⟨hb, ?_⟩
    unfold Chunk.Has Chunk.base
    rw [Nat.mul_div_cancel _ (show 0 < block by decide)]
    omega
  have hzero : ∀ k, (∃ f, c'.m.chunk k = Chunk.new f 1 false) →
      ∀ a, sizeAt c.m.slab (c'.m.chunk k) a = 0 := by
    rintro k ⟨f, hk⟩ a
    rw [hk]
    exact sizeAt_empty (Or.inr rfl) (fun _ => rfl) (fun _ => rfl) a
  have hnew : ∀ k ∈ c'.m.chunks, k ∈ c.m.chunks ∧ c'.m.chunk k = c.m.chunk k ∨
      ∀ a, sizeAt c.m.slab (c'.m.chunk k) a = 0 := by
    intro k hk
    rcases hsp.new k hk with ⟨h1, -, h2⟩ | hx
    · exact Or.inl ⟨h1, h2⟩
    · exact Or.inr (hzero k hx)
  have hview : ∀ a, a ≠ (c.m.chunk b).base → c'.sizeL a = c.sizeL a ∧
      (c.sizeL a ≠ 0 → c'.pinned a = c.pinned a) := by
    intro a ha
    refine sizeL_rechunk hf hf' hsp.slab hnew fun k hk hs => ?_
    obtain ⟨hkm, -⟩ := hf.chunkOf_eq_some.mp hk
    refine hsp.kept k hkm ?_
    rintro rfl
    obtain ⟨l, hl, -, -, hbase, -⟩ := (row_iff hk).mpr ⟨hs, hn⟩
    obtain rfl := Option.some.inj (hk.symm.trans hl)
    exact ha hbase
  refine ⟨⟨hf', ?_, ?_, fun a ha => (hview a ha).1, fun a ha => (hview a ha).2⟩, hsp.used⟩
  · refine ok_rechunk h hsp.slab hsp.slabs hsp.partials hsp.next (fun k hk i hi => ?_) fun k hk => ?_
    · refine hsp.kept k hk ?_
      rintro rfl
      have := ((h.chunk k hk).plain i hi).1
      omega
    · rcases hsp.new k hk with ⟨h1, -, h2⟩ | ⟨f, hx⟩
      · exact Or.inl ⟨h1, h2⟩
      · rw [hx]
        exact Or.inr ⟨Chunk.ok_new _ _ _, fun _ => rfl⟩
  · cases hk' : c'.chunkOf (c.m.chunk b).base with
    | none => exact sizeL_of_none hk'
    | some k =>
      obtain ⟨hkm, hhas⟩ := hf'.chunkOf_eq_some.mp hk'
      rw [sizeL_of hk', hsp.slab]
      rcases hsp.new k hkm with ⟨h1, h2, h3⟩ | hx
      · rw [h3] at hhas
        exact absurd (hf.apart h1 hb hhas (hf.chunkOf_eq_some.mp hof).2) h2
      · exact hzero k hx _

theorem sized_marked {c' : Cfg} {a k : ℕ} {ch : Chunk} {e : Env} (hmark : Sized c c' a 0)
    (hk : k ∈ c'.m.chunks) (hch : c'.m.chunk k = ch) (hn : 1 < ch.nframes) (hb : ch.base = a)
    (hmem : ∀ j < ch.nframes, e.splitMem j = true) :
    Sized c (c'.splitBig k e) a 0 ∧ (c'.splitBig k e).m.used = c'.m.used := by
  subst hch
  obtain ⟨hs, hu⟩ := sized_split hmark.frames hmark.ok hk hn hmem
  rw [hb] at hs
  exact ⟨hmark.sized hs, hu⟩

theorem sizeAt_row_free {slab : ℕ → Slab} {ch : Chunk} (hb : ch.broken = false)
    (hn : 1 < ch.nframes) (hu : ch.bigUsed = false) (a : ℕ) : sizeAt slab ch a = 0 := by
  unfold sizeAt
  rw [hb, hu, if_neg Bool.false_ne_true, if_pos hn, if_neg (by simp)]

/-! ## `free_l` -/

/-- **A free of an address where no block in use starts changes nothing.** -/
theorem freeL_dead (hf : c.Frames) (h : c.m.Ok) {a : ℕ} (ha : c.sizeL a = 0) (e : Env) :
    c.freeL a e = c := by
  unfold freeL
  cases hk : c.chunkOf a with
  | none => rfl
  | some k =>
    dsimp only
    obtain ⟨hkm, -⟩ := hf.chunkOf_eq_some.mp hk
    rw [sizeL_of hk] at ha
    unfold sizeAt at ha
    by_cases hb : (c.m.chunk k).broken = true
    · rw [if_pos hb]
    rw [if_neg hb] at ha ⊢
    by_cases hn : 1 < (c.m.chunk k).nframes
    · rw [if_pos hn] at ha ⊢
      rw [if_pos]
      by_contra hx
      rw [not_or, not_not, not_not] at hx
      rw [if_pos hx] at ha
      unfold block at ha
      omega
    rw [if_neg hn] at ha ⊢
    cases hs : (c.m.chunk k).slab (pageOf a) with
    | some s =>
      rw [hs] at ha
      dsimp only at ha ⊢
      cases hp : pieceAt (c.m.slab s) a with
      | none => rfl
      | some j =>
        rw [hp] at ha
        have := clsSize_mem (h.slab s (h.page k hkm _ s hs).1).cls
        have hz : clsSize (c.m.slab s).cls = 0 := ha
        omega
    | none =>
      rw [hs] at ha
      dsimp only at ha ⊢
      by_cases hx : a % page ≠ 0 ∨ (c.m.chunk k).run (pageOf a) = 0
      · rw [if_pos hx]
      · rw [if_neg hx] at ha
        rw [not_or] at hx
        unfold page at ha
        omega

/-- **A free of the start of a block in use takes that block away.** -/
theorem freeL_live (hf : c.Frames) (h : c.m.Ok) {a : ℕ} (ha : c.sizeL a ≠ 0)
    (hpin : c.pinned a = false) {e : Env}
    (hmem : c.Row a → ∀ k, k * block < c.sizeL a → e.splitMem k = true) :
    Taken c (c.freeL a e) a := by
  obtain ⟨k, hk⟩ := exists_chunk ha
  obtain ⟨hkm, -⟩ := hf.chunkOf_eq_some.mp hk
  have hpos := hf.pos k hkm
  by_cases hn : 1 < (c.m.chunk k).nframes
  · -- a row
    have hrow := (row_iff hk).mpr ⟨ha, hn⟩
    obtain ⟨l, hl, hb, -, hbase, hu⟩ := hrow
    obtain rfl := Option.some.inj (hk.symm.trans hl)
    have hsize : c.sizeL a = (c.m.chunk k).nframes * block := by
      rw [sizeL_of hk]
      unfold sizeAt
      rw [hb, if_neg Bool.false_ne_true, if_pos hn, if_pos ⟨hbase, hu⟩]
    have hfree : c.freeL a e = ((c.subUsed ((c.m.chunk k).nframes * block)).setChunk k
        { c.m.chunk k with bigUsed := false }).splitBig k e := by
      unfold freeL
      rw [hk]
      dsimp only
      rw [hb, if_neg Bool.false_ne_true, if_pos hn, if_neg]
      rw [not_or, not_not, not_not]
      exact ⟨hbase, hu⟩
    have hq := quiet_subUsed hf h ((c.m.chunk k).nframes * block)
    have hof : (c.subUsed ((c.m.chunk k).nframes * block)).chunkOf a = some k := by
      rw [chunkOf_subUsed]
      exact hk
    have hkm1 : k ∈ (c.subUsed ((c.m.chunk k).nframes * block)).m.chunks := by
      rw [subUsed_chunks]
      exact hkm
    have hch1 : (c.subUsed ((c.m.chunk k).nframes * block)).m.chunk k = c.m.chunk k := by
      rw [subUsed_chunk]
    have hu1 : (c.subUsed ((c.m.chunk k).nframes * block)).m.used =
        sub32 c.m.used ((c.m.chunk k).nframes * block) := subUsed_used _
    rw [hfree]
    generalize c.subUsed ((c.m.chunk k).nframes * block) = c1 at hq hof hkm1 hch1 hu1
    -- the row is marked as free, and then it is split
    have hoff : ∀ x, sizeAt c1.m.slab { c.m.chunk k with bigUsed := false } x = 0 := by
      intro x
      exact sizeAt_row_free (by exact hb) (by exact hn) (by rfl) x
    have hmark : Sized c1 (c1.setChunk k { c.m.chunk k with bigUsed := false }) a 0 := by
      have hold := hq.ok.chunk k hkm1
      rw [hch1] at hold
      refine ⟨frames_setChunk hq.frames k (by rw [hch1]) (by rw [hch1]),
        hq.ok.setChunk ⟨hold.inside, hold.used, hold.apart, hold.plain, hold.broken, hold.pin⟩
          (by rw [hch1]) (by rw [hch1]) (fun _ _ _ => by rw [hch1]), ?_, fun x hx => ?_,
        fun x _ _ => pinned_setChunk (by rw [hch1]) (by rw [hch1]) (by rw [hch1]) x⟩
      · rw [sizeL_setChunk, if_pos hof, hoff]
      · rw [sizeL_setChunk]
        split_ifs with hkx
        · rw [hoff]
          by_contra hne
          have hn1 : 1 < (c1.m.chunk k).nframes := by
            rw [hch1]
            exact hn
          obtain ⟨l, hl', -, -, hbase', -⟩ := (row_iff hkx).mpr ⟨Ne.symm hne, hn1⟩
          obtain rfl := Option.some.inj (hkx.symm.trans hl')
          rw [hch1] at hbase'
          exact hx (hbase'.trans hbase.symm)
        · rfl
    have hself : (c1.setChunk k { c.m.chunk k with bigUsed := false }).m.chunk k =
        { c.m.chunk k with bigUsed := false } := Function.update_self _ _ _
    have hm2 : ∀ j < (c.m.chunk k).nframes, e.splitMem j = true := by
      intro j hj
      refine hmem ((row_iff hk).mpr ⟨ha, hn⟩) j ?_
      rw [hsize]
      exact Nat.mul_lt_mul_of_pos_right hj (by decide)
    obtain ⟨hs, hu3⟩ := sized_marked hmark (by rw [setChunk_chunks]; exact hkm1) hself hn
      ((Chunk.base_congr rfl).trans hbase.symm) hm2
    exact ⟨hq.sized hs, by rw [hu3, setChunk_used, hu1, hsize]⟩
  · -- a run or a piece
    have hn1 : (c.m.chunk k).nframes = 1 := by omega
    have hkind := kind_of hf h hk ha
    cases hkind with
    | row hn' => exact absurd hn' hn
    | run i hn' hr hs hbase hsz =>
      have hok := h.chunk k hkm
      obtain ⟨-, hb⟩ := hok.plain i hr
      have hi : i < pages := by
        have := hok.inside i hr
        omega
      obtain ⟨-, hpo, hmod⟩ := addr_start (f := (c.m.chunk k).frame) hi
      have hpo' : pageOf a = i := by
        rw [hbase]
        exact hpo
      have hmod' : a % page = 0 := by
        rw [hbase]
        exact hmod
      have hpi : (c.m.chunk k).pin i = false := by
        rw [pinned_of hk, if_neg hn, hpo'] at hpin
        exact hpin
      have hfree : c.freeL a e = (c.subUsed ((c.m.chunk k).run i * page)).setChunk k
          ((c.m.chunk k).runFree i) := by
        unfold freeL
        rw [hk]
        dsimp only
        rw [hb, if_neg Bool.false_ne_true, if_neg hn, hpo', hs]
        dsimp only
        rw [if_neg (by simp [hmod', hr])]
      rw [hfree]
      have hq := quiet_subUsed hf h ((c.m.chunk k).run i * page)
      have hkm1 : k ∈ (c.subUsed ((c.m.chunk k).run i * page)).m.chunks := by
        rw [subUsed_chunks]
        exact hkm
      have hch1 : (c.subUsed ((c.m.chunk k).run i * page)).m.chunk k = c.m.chunk k := by
        rw [subUsed_chunk]
      have hu1 : (c.subUsed ((c.m.chunk k).run i * page)).m.used =
          sub32 c.m.used ((c.m.chunk k).run i * page) := subUsed_used _
      generalize c.subUsed ((c.m.chunk k).run i * page) = c1 at hq hkm1 hch1 hu1
      rw [← hch1] at hok hn1 hb hr hs hpi hbase
      have hrun := sized_run hq.frames hq.ok hkm1 (hok.runFree hr hpi) hn1 hb hi hs hn1 hb rfl rfl
        (fun j hj => by rw [Chunk.runFree_run, if_neg hj]) rfl rfl
      rw [Chunk.runFree_run, if_pos rfl, Nat.zero_mul, ← hbase] at hrun
      rw [← hch1]
      exact ⟨hq.sized hrun, by rw [setChunk_used, hu1, hsz]⟩
    | piece i s j hm hh hbase hj hfr hsz =>
      obtain ⟨-, -, -, hb⟩ := home_plain h hm hh
      obtain ⟨h1, h2⟩ := piece_addr hf h hm hh hj
      have hcls := clsSize_mem (h.slab s hm).cls
      have hfree : c.freeL a e = c.freePiece k s j := by
        unfold freeL
        rw [hk]
        dsimp only
        rw [hb, if_neg Bool.false_ne_true, if_neg hn, hbase, h2]
        dsimp only
        rw [(pieceAt_eq_some (by omega) (Nat.le_add_right _ _)).mpr ⟨rfl, hj, hfr⟩]
      rw [hfree, hbase]
      exact freePiece_taken hf h hm hh hj hfr

end BananaOS.Umem.Cfg
