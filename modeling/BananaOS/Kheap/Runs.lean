import BananaOS.Kheap.Fit

/-!
# Runs of the heap

`Reach.whole`: in every heap there can be the invariant holds, whatever was allocated, freed, resized
and added before.  With it come the results about the functions as they are called.

* `bin_take_complete`: `bin_take` finds a block whenever there is one, up to its rounding.
* `kmallocAligned_spots`: `kmalloc_aligned` fails only where no free block has a spot.  An alignment of
  4 GiB or more becomes 0 on the way, and then what the bins give has no spot (`roomy_of_zero`).
* `krealloc_resizes`: `krealloc` keeps what the block held, but takes a size for its low 32 bits: the
  block that it says is big enough need not be.
-/

namespace BananaOS.Kheap

variable {h : Heap} {pre post : List Block} {b c : Block}

/-! ## Aligned allocation -/

theorem Spot.round (hb : b.Fits) {size align a : ℕ} (hs : Spot b size align a) (h16 : 16 ∣ align)
    (h0 : size ≠ 0) (hsize : size ≤ maxAlloc) : Spot b (alignUp (u32 size)) align a := by
  obtain ⟨h1, h2, -, -⟩ := alignUp_spec h0 hsize
  have hstop := hs.stop
  have ha := Nat.dvd_trans h16 hs.dvd
  have haddr := hb.addr
  have hbs := hb.size
  have hup := dvd_alignUp (u32 size)
  refine ⟨hs.dvd, hs.front, ?_⟩
  unfold Block.stop hdr at *
  omega

theorem Spot.lt (hb : b.Fits) {size align a : ℕ} (hs : Spot b size align a) :
    a ≠ 0 ∧ a < 2 ^ 32 ∧ size ≤ maxAlloc := by
  have hstop := hs.stop
  have hfront := hs.front
  have hmax := hb.stop
  obtain ⟨-, hpay, -⟩ := hb.payload
  unfold heapMax at hmax
  unfold maxAlloc
  omega

/-- An alignment of which nothing is left. -/
theorem alignedSpot_zero (hb : b.Fits) (need : ℕ) : Heap.alignedSpot b need 0 = 0 := by
  obtain ⟨-, hpay, hlt⟩ := hb.payload
  unfold Heap.alignedSpot
  have hclear : clear (sub64 (b.payload + 0) 1) (sub32 0 1) = 0 := by
    have hand : (b.payload - 1) &&& (2 ^ 32 - 1) = b.payload - 1 := by
      rw [Nat.and_two_pow_sub_one_eq_mod]
      exact Nat.mod_eq_of_lt (by omega)
    have hone : sub32 0 1 = 2 ^ 32 - 1 := by decide
    rw [hone, sub64_eq (by omega) (by omega)]
    unfold clear
    rw [Nat.add_zero, hand, Nat.sub_self]
  have hloop : Heap.spotLoop b.payload 0 4 0 = 0 := by
    unfold Heap.spotLoop
    rw [if_neg]
    unfold sub64 u64 hdr minSplit
    omega
  rw [hclear, hloop]
  exact ite_self 0

theorem findSpot_zero (need : ℕ) : ∀ l : List Block, (∀ b ∈ l, b.Fits) → Heap.findSpot need 0 l = none
  | [], _ => rfl
  | c :: rest, hl => by
    unfold Heap.findSpot
    rw [if_pos (Or.inr (Or.inr (alignedSpot_zero (hl c (by simp)) need))),
      findSpot_zero need rest fun b hb => hl b (List.mem_cons_of_mem _ hb)]
    rfl

/-- **Of an alignment of which nothing is left nothing comes**, and a block that the bins give goes back
to them. -/
theorem Whole.findFitAligned_zero {need : ℕ} (hw : Whole h) (h16 : 16 ∣ need) :
    (h.findFitAligned need 0).2 = none ∧ Whole (h.findFitAligned need 0).1 ∧
      (h.findFitAligned need 0).1.blocks = h.blocks := by
  have hscan : ∀ {k : Heap}, k.blocks = h.blocks → k.scanAligned need 0 = (k, none) := by
    intro k hk
    unfold Heap.scanAligned
    rw [hk, findSpot_zero need _ hw.tiles.fits]
  cases hr : h.roomy need 0 with
  | none =>
    have hf : h.findFitAligned need 0 = (h, none) := by
      unfold Heap.findFitAligned
      rw [hr]
      exact hscan rfl
    rw [hf]
    exact ⟨rfl, hw, rfl⟩
  | some t =>
    obtain ⟨h1, pre, b, post⟩ := t
    have htake : h.blocks = pre ++ b :: post ∧ b.used = false ∧ h1 = h.binRemove b := by
      unfold Heap.roomy at hr
      split at hr
      · rename_i hroom
        unfold maxAlloc at hroom
        have hdvd : 16 ∣ Heap.room need 0 := by
          unfold Heap.room hdr minSplit
          omega
        have ht := hw.binTake (by omega) hdvd
        rw [hr] at ht
        exact ⟨ht.1, ht.2.1, ht.2.2.2⟩
      · cases hr
    obtain ⟨hblocks, hfree, rfl⟩ := htake
    have hfits := hw.tiles.fits b (by rw [hblocks]; simp)
    have hf : h.findFitAligned need 0 = ((h.binRemove b).binInsert b, none) := by
      unfold Heap.findFitAligned
      rw [hr]
      dsimp only
      rw [if_neg (not_not.mpr (alignedSpot_zero hfits need))]
      exact hscan rfl
    obtain ⟨hloose, -⟩ := hw.binRemove hblocks hfree
    obtain ⟨hfiled, -⟩ := hloose.binInsert hfree
    have hb : ((h.binRemove b).binInsert b).blocks = pre ++ b :: post := hblocks
    rw [hf]
    exact ⟨rfl, ⟨by rw [hb]; exact hloose.tiles, by rw [hb]; exact hfiled⟩, rfl⟩

/-- `kmalloc_aligned` for a power of two -/
theorem Whole.kmallocAligned (hw : Whole h) {k : ℕ} (h5 : 5 ≤ k) (size : ℕ) :
    match h.kmallocAligned size (2 ^ k) with
    | (h', some p) => Gave h h.blocks h' p size ∧ 2 ^ k ∣ p
    | (h', none) => Whole h' ∧ h'.blocks = h.blocks ∧
        (size = 0 ∨ ∀ b ∈ h.blocks, b.used = false → ∀ a, ¬ Spot b size (2 ^ k) a) := by
  have h32 : 32 ≤ 2 ^ k := Nat.pow_le_pow_right (n := 2) (by decide) h5
  have hand : 2 ^ k &&& (2 ^ k - 1) = 0 := by
    rw [Nat.and_two_pow_sub_one_eq_mod]
    exact Nat.mod_self _
  have hspot : size ≠ 0 → ∀ b ∈ h.blocks, ∀ a, Spot b size (2 ^ k) a →
      a ≠ 0 ∧ a < 2 ^ 32 ∧ Spot b (alignUp (u32 size)) (2 ^ k) a := fun h0 b hb a hs => by
    have hfits := hw.tiles.fits b hb
    obtain ⟨h1, h2, h3⟩ := hs.lt hfits
    exact ⟨h1, h2, hs.round hfits (sixteen_dvd h5) h0 h3⟩
  unfold Heap.kmallocAligned
  rw [if_neg (by omega)]
  by_cases hbad : h.blocks = [] ∨ size = 0 ∨ maxAlloc < size ∨ 2 ^ k &&& (2 ^ k - 1) ≠ 0
  · rw [if_pos hbad]
    refine ⟨hw, rfl, ?_⟩
    rcases hbad with hnil | h0 | hbig | hpow
    · rw [hnil]
      exact Or.inr fun b hb => absurd hb List.not_mem_nil
    · exact Or.inl h0
    · exact Or.inr fun b hb _ a hs => absurd (hs.lt (hw.tiles.fits b hb)).2.2 (Nat.not_le.mpr hbig)
    · exact absurd hand hpow
  · rw [if_neg hbad]
    simp only [not_or] at hbad
    obtain ⟨-, h0, hsize, -⟩ := hbad
    obtain ⟨h1, -, -, hne⟩ := alignUp_spec h0 (Nat.not_lt.mp hsize)
    have hdvd := dvd_alignUp (u32 size)
    have hlt := alignUp_lt (u32 size)
    rcases Nat.lt_or_ge k 32 with hk | hk
    · have hu : u32 (2 ^ k) = 2 ^ k := u32_eq (Nat.pow_lt_pow_right (by decide) hk)
      rw [hu]
      have hfit := hw.findFitAligned hdvd hne hlt h5 hk
      generalize h.findFitAligned (alignUp (u32 size)) (2 ^ k) = r at *
      obtain ⟨h', _ | p⟩ := r
      · obtain ⟨rfl, hno⟩ := hfit
        exact ⟨hw, rfl, Or.inr fun b hb hfree a hs => hno b hb hfree a (hspot h0 b hb a hs).2.2⟩
      · exact ⟨hfit.1.mono h1, hfit.2⟩
    · have hu : u32 (2 ^ k) = 0 := by
        obtain ⟨j, rfl⟩ := Nat.exists_eq_add_of_le hk
        rw [Nat.pow_add]
        exact Nat.mul_mod_right _ _
      rw [hu]
      obtain ⟨h2, h3, h4⟩ := hw.findFitAligned_zero hdvd
      generalize h.findFitAligned (alignUp (u32 size)) 0 = r at *
      obtain ⟨h', q⟩ := r
      obtain rfl : q = none := h2
      refine ⟨h3, h4, Or.inr fun b hb _ a hs => ?_⟩
      obtain ⟨ha0, hlt, -⟩ := hspot h0 b hb a hs
      have hle : 2 ^ 32 ≤ 2 ^ k := Nat.pow_le_pow_right (by decide) hk
      have := Nat.le_of_dvd (Nat.pos_of_ne_zero ha0) hs.dvd
      omega

/-! ## Freeing and resizing -/

theorem locate_block (hw : Whole h) (hb : b ∈ h.blocks) :
    ∃ pre post, locate (b.payload - hdr) h.blocks = some (pre, b, post) ∧ h.blocks = pre ++ b :: post := by
  have haddr : b.payload - hdr = b.addr := Nat.add_sub_cancel _ _
  obtain ⟨⟨pre, c, post⟩, hloc⟩ := locate_mem hb
  obtain ⟨hblocks, hc⟩ := locate_some hloc
  obtain rfl : c = b := hw.tiles.eq_of_addr (by rw [hblocks]; simp) hb hc
  exact ⟨pre, post, by rw [haddr]; exact hloc, hblocks⟩

/-- `kfree` of a pointer that is live -/
theorem Whole.kfree (hw : Whole h) (hb : b ∈ h.blocks) (hu : b.used = true) (hs : b.size ≠ 0) :
    Whole (h.kfree b.payload) ∧ ∃ pre post, h.blocks = pre ++ b :: post ∧
      Spares h (pre ++ post) (h.kfree b.payload) (h.kfree b.payload).blocks := by
  obtain ⟨pre, post, hloc, hblocks⟩ := locate_block hw hb
  have hr : h.kfree b.payload = h.release pre b post := by
    unfold Heap.kfree
    rw [if_neg (show ¬ b.payload < hdr from Nat.not_lt.mpr (Nat.le_add_left _ _)), hloc]
    exact if_pos hu
  obtain ⟨h1, h2⟩ := hw.release hblocks hu hs
  rw [hr]
  exact ⟨h1, pre, post, hblocks, h2⟩

/-- What is left of the heap when an allocation is tried the last time. -/
def Left (reclaim : Option (Heap → Heap)) (h k : Heap) : Prop := k = h ∨ ∃ f ∈ reclaim, k = f h

/-- `kmalloc` -/
theorem Whole.kmallocReclaim (hw : Whole h) {reclaim : Option (Heap → Heap)}
    (hf : ∀ f ∈ reclaim, Whole (f h)) (size : ℕ) : ∃ k, Left reclaim h k ∧
      match h.kmallocReclaim reclaim size with
      | (h', some p) => Gave k k.blocks h' p size
      | (h', none) => h' = k := by
  unfold Heap.kmallocReclaim
  by_cases hbad : h.blocks = [] ∨ size = 0 ∨ maxAlloc < size
  · rw [if_pos hbad]
    exact ⟨h, Or.inl rfl, rfl⟩
  · rw [if_neg hbad]
    simp only [not_or] at hbad
    obtain ⟨-, h0, hsize⟩ := hbad
    obtain ⟨h1, -, -, hne⟩ := alignUp_spec h0 (Nat.not_lt.mp hsize)
    have hdvd := dvd_alignUp (u32 size)
    have hlt := alignUp_lt (u32 size)
    have hfit := hw.findFit hdvd hne hlt
    cases hr : h.findFit (alignUp (u32 size)) with
    | mk h' q =>
      rw [hr] at hfit
      cases q with
      | some p => exact ⟨h, Or.inl rfl, hfit.mono h1⟩
      | none =>
        obtain rfl : h' = h := hfit
        cases reclaim with
        | none => exact ⟨h', Or.inl rfl, rfl⟩
        | some f =>
          have hfit' := (hf f rfl).findFit hdvd hne hlt
          refine ⟨f h', Or.inr ⟨f, rfl, rfl⟩, ?_⟩
          dsimp only
          generalize (f h').findFit (alignUp (u32 size)) = r at *
          obtain ⟨h2, _ | p⟩ := r
          · exact hfit'
          · exact hfit'.mono h1

/-- What a `krealloc` of the block is to do. -/
def Resized (reclaim : Option (Heap → Heap)) (h : Heap) (b : Block) (size : ℕ) : Heap × Option ℕ → Prop
  | (h', some q) => (∃ c ∈ h'.blocks, c.used = true ∧ c.payload = q ∧ size ≤ c.size) ∧
      ∀ i < min b.size size, h'.mem (q + i) = h.mem (b.payload + i)
  | (h', none) => b ∈ h'.blocks ∧ Agree h h' b ∧ Left reclaim h h'

theorem Whole.move (hw : Whole h) (hb : b ∈ h.blocks) (hu : b.used = true) (hs : b.size ≠ 0)
    {reclaim : Option (Heap → Heap)}
    (hf : ∀ f ∈ reclaim, Whole (f h) ∧ b ∈ (f h).blocks ∧ Agree h (f h) b) (size : ℕ) :
    Whole (h.move reclaim b.payload b.size size).1 ∧
      Resized reclaim h b size (h.move reclaim b.payload b.size size) := by
  have hleft : ∀ k, Left reclaim h k → Whole k ∧ b ∈ k.blocks ∧ Agree h k b := by
    rintro k (rfl | ⟨f, hfm, rfl⟩)
    · exact ⟨hw, hb, Agree.rfl⟩
    · exact hf f hfm
  obtain ⟨k, hk, hm⟩ := hw.kmallocReclaim (fun f hfm => (hf f hfm).1) size
  obtain ⟨hkw, hkb, hka⟩ := hleft k hk
  unfold Heap.move
  generalize h.kmallocReclaim reclaim size = r at *
  obtain ⟨h1, _ | np⟩ := r
  · obtain rfl : h1 = k := hm
    exact ⟨hkw, hkb, hka, hk⟩
  · obtain ⟨hw1, pre, c, post, hblocks, hcu, hcp, hcs, hspares⟩ := hm
    -- the old block is still there, and the new one is another
    have hb1 : b ∈ pre ++ post := (hspares.used b hu).mpr hkb
    have hlaid : Laid (pre ++ c :: post) := by
      rw [← hblocks]
      exact hw1.tiles.toLaid
    have hbc := hlaid.apart_mid hb1
    have hbin : b ∈ h1.blocks := by
      rw [hblocks]
      simp only [List.mem_append, List.mem_cons] at hb1 ⊢
      tauto
    have hw2 : Whole (h1.memcpy np b.payload b.size) := ⟨hw1.tiles, hw1.filed⟩
    obtain ⟨hw3, pre', post', hblocks', hspares'⟩ := hw2.kfree hbin hu hs
    have hcin : c ∈ pre' ++ post' := by
      have hc : c ∈ (h1.memcpy np b.payload b.size).blocks := by
        show c ∈ h1.blocks
        rw [hblocks]
        simp
      rw [hblocks'] at hc
      have hne : c ≠ b := by
        rintro rfl
        exact hbc.ne rfl
      simp only [List.mem_append, List.mem_cons] at hc ⊢
      tauto
    refine ⟨hw3, ⟨c, (hspares'.used c hcu).mpr hcin, hcu, hcp, hcs⟩, fun i hi => ?_⟩
    have hib : i < b.size := hi.trans_le (min_le_left _ _)
    have hic : i < c.size := hi.trans_le ((min_le_right _ _).trans hcs)
    have hnew : np ≤ np + i ∧ np + i < c.stop := by
      rw [← hcp]
      unfold Block.payload Block.stop
      omega
    have hold : b.payload ≤ b.payload + i ∧ b.payload + i < b.stop := by
      unfold Block.payload Block.stop
      omega
    calc ((h1.memcpy np b.payload b.size).kfree b.payload).mem (np + i)
        = (h1.memcpy np b.payload b.size).mem (np + i) :=
          hspares'.mem c hcin hcu _ (by rw [hcp]; exact hnew.1) hnew.2
      _ = h1.mem (b.payload + (np + i - np)) := if_pos ⟨hnew.1, Nat.add_lt_add_left hib np⟩
      _ = h1.mem (b.payload + i) := by rw [Nat.add_sub_cancel_left]
      _ = k.mem (b.payload + i) := hspares.mem b hkb hu _ hold.1 hold.2
      _ = h.mem (b.payload + i) := hka _ hold.1 hold.2

theorem Laid.place_unique (hl : Laid (pre ++ b :: post)) {pre' post' : List Block}
    (heq : pre ++ b :: post = pre' ++ b :: post') : post = post' := by
  have hl' : Laid (pre' ++ b :: post') := heq ▸ hl
  have hpre : b ∉ pre := fun hb => (hl.apart_mid (List.mem_append_left _ hb)).ne rfl
  have hpost : b ∉ post := fun hb => (hl.apart_mid (List.mem_append_right _ hb)).ne rfl
  exact ((List.append_cons_inj_of_notMem hpre hpost).mp heq).2.2

theorem le_alignUp {size : ℕ} (hsize : size ≤ 0xFFFFFFF0) : size ≤ alignUp (u32 size) := by
  have hs : u32 size = size := u32_eq (by omega)
  have hup : u32 (size + 15) = size + 15 := u32_eq (by omega)
  unfold alignUp
  rw [hs, hup]
  omega

/-- `krealloc` of a pointer that is live: the invariant, and when it does what it is to do. -/
theorem Whole.krealloc (hw : Whole h) (hb : b ∈ h.blocks) (hu : b.used = true) (hs : b.size ≠ 0)
    {reclaim : Option (Heap → Heap)}
    (hf : ∀ f ∈ reclaim, Whole (f h) ∧ b ∈ (f h).blocks ∧ Agree h (f h) b) {size : ℕ} (h0 : size ≠ 0) :
    Whole (h.krealloc reclaim b.payload size).1 ∧
      (Resized reclaim h b size (h.krealloc reclaim b.payload size) ↔ size ≤ 0xFFFFFFF0 ∨
        (b.size < alignUp (u32 size) ∧ ∀ pre post, h.blocks = pre ++ b :: post →
          Heap.canGrow b post (alignUp (u32 size)) = false)) := by
  obtain ⟨pre, post, hloc, hblocks⟩ := locate_block hw hb
  have hne := (hw.tiles.fits b hb).payload.2.1
  have hplace : ∀ {pre' post' : List Block}, h.blocks = pre' ++ b :: post' → post = post' := fun hp => by
    have hl := hw.tiles.toLaid
    rw [hblocks] at hl
    exact hl.place_unique (hblocks.symm.trans hp)
  -- a block that stays where it is does it if it is big enough
  have hstay : ∀ {k : Heap} {c : Block}, Whole k → c ∈ k.blocks → c.used = true →
      c.payload = b.payload → b.size ≤ c.size → alignUp (u32 size) ≤ c.size → Agree h k b →
      (Resized reclaim h b size (k, some b.payload) ↔ size ≤ 0xFFFFFFF0) := by
    intro k c hk hc hcu hcp hbc hcs hagree
    refine ⟨fun ⟨⟨d, hd, hdu, hdp, hds⟩, _⟩ => ?_, fun hsize => ⟨⟨c, hc, hcu, hcp, ?_⟩, fun i hi => ?_⟩⟩
    · have hmax := (hk.tiles.fits d hd).stop
      unfold Block.stop heapMax at hmax
      omega
    · exact (le_alignUp hsize).trans hcs
    · have hib : i < b.size := hi.trans_le (min_le_left _ _)
      refine hagree _ (Nat.le_add_right _ _) ?_
      unfold Block.payload Block.stop
      omega
  by_cases hfits : alignUp (u32 size) ≤ b.size
  · have hr : h.krealloc reclaim b.payload size = (h, some b.payload) := by
      unfold Heap.krealloc
      rw [if_neg hne, if_neg h0, hloc]
      dsimp only
      rw [if_neg (not_not.mpr hu), if_pos hfits]
    rw [hr]
    refine ⟨hw, (hstay hw hb hu rfl le_rfl hfits Agree.rfl).trans ?_⟩
    exact ⟨Or.inl, fun hor => hor.resolve_right fun hlt => absurd hlt.1 (Nat.not_lt.mpr hfits)⟩
  · rw [Nat.not_le] at hfits
    by_cases hg : Heap.canGrow b post (alignUp (u32 size)) = true
    · have hr : h.krealloc reclaim b.payload size =
          (h.grow pre b post (alignUp (u32 size)), some b.payload) := by
        unfold Heap.krealloc
        rw [if_neg hne, if_neg h0, hloc]
        dsimp only
        rw [if_neg (not_not.mpr hu), if_neg (Nat.not_le.mpr hfits), if_pos hg]
      rw [hr]
      obtain ⟨⟨hgw, pre', c, post', hblocks', hcu, hcp, hcs, -⟩, hagree⟩ :=
        hw.grow hblocks hu hs (dvd_alignUp _) hfits hg
      have hc : c ∈ (h.grow pre b post (alignUp (u32 size))).blocks := by
        rw [hblocks']
        simp
      refine ⟨hgw, (hstay hgw hc hcu hcp (hfits.le.trans hcs) hcs hagree).trans ?_⟩
      refine ⟨Or.inl, fun hor => hor.resolve_right fun hno => ?_⟩
      rw [hno.2 pre post hblocks] at hg
      cases hg
    · have hr : h.krealloc reclaim b.payload size = h.move reclaim b.payload b.size size := by
        unfold Heap.krealloc
        rw [if_neg hne, if_neg h0, hloc]
        dsimp only
        rw [if_neg (not_not.mpr hu), if_neg (Nat.not_le.mpr hfits), if_neg hg]
      rw [hr]
      obtain ⟨h1, h2⟩ := hw.move hb hu hs hf size
      refine ⟨h1, iff_of_true h2 (Or.inr ⟨hfits, fun pre' post' hp => ?_⟩)⟩
      rw [← hplace hp]
      exact Bool.eq_false_iff.mpr hg

/-! ## Memory -/

theorem Whole.init {lo hi : ℕ} (mem : ℕ → Option UInt8) (hlo : 16 ∣ lo) (hhi : 16 ∣ hi)
    (hle : lo + hdr + 16 ≤ hi) (hmax : hi ≤ heapMax) : Whole (Heap.init lo hi mem) := by
  have hsize : u32 (hi - lo - hdr) = hi - lo - hdr := u32_lt (by omega)
  let b : Block := ⟨lo, hi - lo - hdr, false⟩
  have hpos : b.size ≠ 0 := by
    dsimp only [b]
    omega
  have hb : b.Fits := by
    refine ⟨hlo, ?_, ?_, fun _ => hpos⟩
    · dsimp only [b]
      unfold hdr
      omega
    · show lo + hdr + (hi - lo - hdr) ≤ heapMax
      omega
  have hl : Loose ⟨[b], Bins.empty, mem, b.size, 0⟩ [] b [] := by
    refine ⟨⟨⟨by simpa using hb, List.pairwise_singleton _ _⟩, List.isChain_singleton _⟩, hpos, ?_⟩
    refine Filed.empty.congr fun x n => ?_
    unfold FreeIn
    simp
  obtain ⟨h1, -⟩ := hl.binInsert rfl
  unfold Heap.init
  rw [hsize]
  exact ⟨hl.tiles, h1⟩

theorem Whole.addRegion (hw : Whole h) {lo hi : ℕ} (hle : lo ≤ hi) (hmax : hi ≤ heapMax)
    (hout : ∀ b ∈ h.blocks, b.stop ≤ lo ∨ hi ≤ b.addr) : Whole (h.addRegion lo hi) := by
  have hlo : u64 (lo + 15) / 16 * 16 = (lo + 15) / 16 * 16 := by
    unfold heapMax at hmax
    unfold u64
    omega
  unfold Heap.addRegion
  rw [hlo]
  have hlo16 : 16 ∣ (lo + 15) / 16 * 16 := Nat.dvd_mul_left _ _
  have hhi16 : 16 ∣ hi / 16 * 16 := Nat.dvd_mul_left _ _
  have hlo' : lo ≤ (lo + 15) / 16 * 16 := by omega
  have hhi' : hi / 16 * 16 ≤ hi := by omega
  generalize (lo + 15) / 16 * 16 = l at *
  generalize hi / 16 * 16 = u at *
  dsimp only
  by_cases hbad : h.blocks = [] ∨ u ≤ l ∨ u - l < 3 * hdr + minSplit ∨ maxAlloc < u - l
  · rw [if_pos hbad]
    exact hw
  · rw [if_neg hbad]
    simp only [not_or] at hbad
    obtain ⟨-, hul, hroom, -⟩ := hbad
    have hdr32 : hdr = 32 := rfl
    have hmin : minSplit = 64 := rfl
    have hsize : u32 (u - hdr - (l + hdr) - hdr) = u - hdr - (l + hdr) - hdr := u32_lt (by omega)
    rw [hsize]
    let lead : Block := ⟨l, 0, true⟩
    let tail : Block := ⟨u - hdr, 0, true⟩
    let b : Block := ⟨l + hdr, u - hdr - (l + hdr) - hdr, false⟩
    have hlead : lead.stop = b.addr := rfl
    have hbtail : b.stop = tail.addr := by
      show l + hdr + hdr + (u - hdr - (l + hdr) - hdr) = u - hdr
      omega
    have htail : tail.stop = u := by
      show u - hdr + hdr + 0 = u
      omega
    have hpos : b.size ≠ 0 := by
      dsimp only [b]
      omega
    have hblt : lead.addr ≤ lead.stop ∧ b.addr ≤ b.stop ∧ tail.addr ≤ tail.stop := by
      unfold Block.stop
      omega
    have htiles : Tiles ((h.blocks ++ [lead]) ++ b :: [tail]) := by
      rw [List.append_assoc]
      refine ⟨⟨fun c hc => ?_, ?_⟩, ?_⟩
      · rcases List.mem_append.mp hc with hc | hc
        · exact hw.tiles.fits c hc
        · simp only [List.singleton_append, List.mem_cons, List.not_mem_nil, or_false] at hc
          rcases hc with rfl | rfl | rfl
          · exact ⟨hlo16, Nat.dvd_zero _, by omega, fun hu => by cases hu⟩
          · refine ⟨?_, ?_, by omega, fun _ => hpos⟩
            · dsimp only [b]
              omega
            · dsimp only [b]
              omega
          · refine ⟨?_, Nat.dvd_zero _, by omega, fun hu => by cases hu⟩
            dsimp only [tail]
            omega
      · refine List.pairwise_append.mpr ⟨hw.tiles.apart, ?_, fun c hc d hd => ?_⟩
        · refine List.Pairwise.cons (fun d hd => ?_) (List.pairwise_pair.mpr (Or.inl hbtail.le))
          rcases (List.mem_pair.mp hd) with rfl | rfl
          · exact Or.inl hlead.le
          · exact Or.inl (by omega)
        · have hl : lead.addr = l := rfl
          simp only [List.singleton_append, List.mem_cons, List.not_mem_nil, or_false] at hd
          unfold Block.Apart
          have hc' := hout c hc
          rcases hd with rfl | rfl | rfl
          · omega
          · omega
          · omega
      · refine List.isChain_append.mpr ⟨hw.tiles.next, ?_, fun x _ y hy => ?_⟩
        · exact List.IsChain.cons_cons (Or.inl hlead) (List.isChain_pair.mpr (Or.inl hbtail))
        · cases hy
          exact Or.inr ⟨rfl, rfl⟩
    have hfiled : Filed h.bins (FreeIn ((h.blocks ++ [lead]) ++ [tail])) := by
      refine hw.filed.congr fun x n => ?_
      rw [freeIn_used rfl, List.append_nil, freeIn_used rfl, List.append_nil]
    have hl : Loose { h with blocks := h.blocks ++ [lead, b, tail], total := u32 (h.total + b.size) }
        (h.blocks ++ [lead]) b [tail] := ⟨htiles, hpos, hfiled⟩
    obtain ⟨h1, -⟩ := hl.binInsert rfl
    rw [List.append_assoc] at htiles h1
    exact ⟨htiles, h1⟩

/-! ## Runs -/

theorem Gave.whole_of_match {r : Heap × Option ℕ} {size : ℕ}
    (hr : match r with
      | (h', some p) => Gave h h.blocks h' p size
      | (h', none) => h' = h) (hw : Whole h) : Whole r.1 := by
  obtain ⟨h', _ | p⟩ := r
  · obtain rfl : h' = h := hr
    exact hw
  · exact Gave.whole hr

/-- **The invariant holds in every heap there can be.** -/
theorem Reach.whole (hr : Reach h) : Whole h := by
  induction hr with
  | init lo hi mem hlo hhi hle hmax => exact Whole.init mem hlo hhi hle hmax
  | kmalloc size _ ih => exact Gave.whole_of_match (ih.kmalloc size) ih
  | @kmallocAligned h size align _ ih =>
    by_cases hsmall : align ≤ 16
    · have hk : h.kmallocAligned size align = h.kmalloc size := if_pos hsmall
      rw [hk]
      exact Gave.whole_of_match (ih.kmalloc size) ih
    · by_cases hpow : align &&& (align - 1) = 0
      · obtain ⟨k, rfl⟩ := (Nat.and_sub_one_eq_zero_iff_isPowerOfTwo (by omega)).mp hpow
        have h5 : 5 ≤ k := by
          by_contra hk
          have : 2 ^ k ≤ 2 ^ 4 := Nat.pow_le_pow_right (by decide) (by omega)
          omega
        have hfit := ih.kmallocAligned h5 size
        generalize h.kmallocAligned size (2 ^ k) = r at *
        obtain ⟨h', _ | p⟩ := r
        · exact hfit.1
        · exact hfit.1.whole
      · have hk : h.kmallocAligned size align = (h, none) := by
          unfold Heap.kmallocAligned
          rw [if_neg hsmall, if_pos (Or.inr (Or.inr (Or.inr hpow)))]
        rw [hk]
        exact ih
  | kfree _ hlive ih =>
    obtain ⟨b, hb, rfl, hu, hs⟩ := hlive
    exact (ih.kfree hb hu hs).1
  | krealloc size _ hlive h0 ih =>
    obtain ⟨b, hb, rfl, hu, hs⟩ := hlive
    exact (ih.krealloc hb hu hs (fun f hf => by cases hf) h0).1
  | addRegion lo hi _ hle hmax hout ih => exact ih.addRegion hle hmax hout
  | write mem _ _ _ _ ih => exact ⟨ih.tiles, ih.filed⟩

/-! ## Results -/

/-- The sums and shifts of `bin_take` are those of numbers without a limit, and its bin is in the
tables. -/
structure InRange (need w : ℕ) : Prop where
  want : want need = some w
  sum : w = need + if 2 ^ flShift ≤ need then 2 ^ (Nat.log2 need - slLog) - 1 else 0
  lt : w < 2 ^ 32
  needShift : 2 ^ flShift ≤ need → slLog ≤ Nat.log2 need ∧ Nat.log2 need < 32
  wantShift : 2 ^ flShift ≤ w → flShift - 1 ≤ Nat.log2 w ∧ slLog ≤ Nat.log2 w ∧ Nat.log2 w < 32
  first : (binOf w).1 < flN ∧ (binOf w).1 + 1 < 32
  second : (binOf w).2 < slN

theorem inRange {need : ℕ} (hn : need ≤ 0xF0000000) : ∃ w, InRange need w := by
  obtain ⟨w, hw, hlt, hround⟩ := want_some hn
  have hlog : ∀ {m : ℕ}, m < 2 ^ 32 → 2 ^ flShift ≤ m → 8 ≤ Nat.log2 m ∧ Nat.log2 m < 32 := by
    intro m hm hbig
    have h8 := (log2_bounds hbig).1
    have hne : m ≠ 0 := by
      rintro rfl
      simp [flShift] at hbig
    exact ⟨h8, (Nat.log2_lt hne).mpr hm⟩
  obtain ⟨h1, h2⟩ := binOf_lt hlt
  have hfl : flN = 25 := rfl
  refine ⟨w, hw, ?_, hlt, fun hbig => ?_, fun hbig => ?_, ⟨h1, by omega⟩, h2⟩
  · unfold Kheap.want at hw
    split at hw
    · rename_i hbig
      have hgrain : grain need = 2 ^ (Nat.log2 need - slLog) := if_neg (Nat.not_lt.mpr hbig)
      dsimp only at hw
      rw [← hgrain, u32_eq hround, if_neg (by omega)] at hw
      rw [if_pos hbig, ← hgrain]
      exact (Option.some.inj hw).symm
    · rename_i hsmall
      rw [if_neg hsmall]
      exact (Option.some.inj hw).symm
  · have := hlog (by omega) hbig
    unfold slLog
    omega
  · have := hlog hlt hbig
    unfold slLog flShift
    omega

/-- What `bin_take` is to return. -/
def Taken (h : Heap) (need : ℕ) : Option (Heap × List Block × Block × List Block) → Prop
  | some (_, pre, b, post) => h.blocks = pre ++ b :: post ∧ b.used = false ∧ need ≤ b.size
  | none => ∀ b ∈ h.blocks, b.used = false → b.size < roundUp need

/-- **`bin_take` finds a block up to its rounding.**  What it returns has `need` bytes; where it returns
nothing every free block is smaller than where the next bin begins; no bin is outside of the tables, and
nothing wraps. -/
theorem Reach.binTake_complete (hr : Reach h) (need : ℕ) (hn : need < 2 ^ 32) (h16 : 16 ∣ need) :
    Taken h need (h.binTake need) ∧
    IsLeast {s | need ≤ s ∧ ∃ v, binStart v = s} (roundUp need) ∧
    (need < 256 → roundUp need = need) ∧
    (∀ fl sl, h.bins.find need = some (fl, sl) → fl < flN ∧ sl < slN) ∧
    (∀ size < 2 ^ 32, (binOf size).1 < flN ∧ (binOf size).2 < slN) ∧
    (need ≤ 0xF0000000 → ∃ w, InRange need w) := by
  have hw := hr.whole
  refine ⟨?_, roundUp_isLeast h16, fun hsmall => roundUp_small hsmall h16, fun fl sl hfind => ?_,
    fun size hsize => binOf_lt hsize, inRange⟩
  · have htake := hw.binTake hn h16
    cases ht : h.binTake need with
    | none =>
      rw [ht] at htake
      exact htake
    | some t =>
      obtain ⟨h1, pre, b, post⟩ := t
      rw [ht] at htake
      exact ⟨htake.1, htake.2.1, (le_roundUp need).trans htake.2.2.1⟩
  · have hspec := hw.filed.find_spec hw.tiles.sized hn h16
    rw [hfind] at hspec
    obtain ⟨a, ha⟩ := List.exists_mem_of_ne_nil _ hspec.1
    obtain ⟨n, hfree, hbin⟩ := (hw.filed.mem _ _ _).mp ha
    have hlt := binOf_lt (hw.tiles.sized.lt a n hfree)
    rw [hbin] at hlt
    exact hlt

/-- A heap of one page.  It is for the kernel to compute with. -/
@[irreducible] def pageHeap : Heap := Heap.init 0x100000 0x101000 fun _ => none

theorem reach_pageHeap : Reach pageHeap := by
  unfold pageHeap
  exact Reach.init _ _ _ (by decide) (by decide) (by decide) (by decide)

theorem binTake_complete_pageHeap : Taken pageHeap 512 (pageHeap.binTake 512) :=
  (reach_pageHeap.binTake_complete 512 (by omega) (by omega)).1

/-- What `kmalloc_aligned` is to return: of a size that is not 0 nothing only where there is no spot. -/
def Placed (h : Heap) (size align : ℕ) : Heap × Option ℕ → Prop
  | (h', some p) => align ∣ p ∧ ∃ c ∈ h'.blocks, c.used = true ∧ c.payload = p ∧ size ≤ c.size
  | (_, none) => size ≠ 0 → ∀ b ∈ h.blocks, b.used = false → ∀ a, ¬ Spot b size align a

/-- **`kmalloc_aligned` fails only where there is no spot**, and what the bins give has one if 32 bits
hold the alignment. -/
theorem Reach.kmallocAligned_spots (hr : Reach h) (size k : ℕ) (hk : 16 < 2 ^ k) :
    Placed h size (2 ^ k) (h.kmallocAligned size (2 ^ k)) ∧
    (2 ^ k < 2 ^ 32 → ∀ h1 pre b post,
      h.roomy (alignUp (u32 size)) (u32 (2 ^ k)) = some (h1, pre, b, post) →
      Heap.alignedSpot b (alignUp (u32 size)) (u32 (2 ^ k)) ≠ 0) := by
  have hw := hr.whole
  have h5 : 5 ≤ k := by
    by_contra hlt
    have : 2 ^ k ≤ 2 ^ 4 := Nat.pow_le_pow_right (by decide) (by omega)
    omega
  refine ⟨?_, fun hlt h1 pre b post hroomy => ?_⟩
  · have hfit := hw.kmallocAligned h5 size
    generalize h.kmallocAligned size (2 ^ k) = r at *
    obtain ⟨h', _ | p⟩ := r
    · exact fun h0 => hfit.2.2.resolve_left h0
    · obtain ⟨⟨-, pre, c, post, hblocks, hu, hp, hs, -⟩, hdvd⟩ := hfit
      exact ⟨hdvd, c, by rw [hblocks]; simp, hu, hp, hs⟩
  · have hk32 : k < 32 := (Nat.pow_lt_pow_iff_right (by decide)).mp hlt
    rw [u32_eq hlt] at hroomy ⊢
    exact (hw.roomy (dvd_alignUp _) (alignUp_lt _) h5 hk32 hroomy).2.2.2

theorem kmallocAligned_spots_pageHeap : Placed pageHeap 100 (2 ^ 6) (pageHeap.kmallocAligned 100 (2 ^ 6)) :=
  (reach_pageHeap.kmallocAligned_spots 100 6 (by omega)).1

/-- Of size 0 there is `NULL` though there are spots, and with an alignment of 4 GiB what the bins give
has no spot. -/
theorem no_spot_taken : ∃ h, Reach h ∧
    ((h.kmallocAligned 0 32).2 = none ∧ ∃ b ∈ h.blocks, b.used = false ∧ ∃ a, Spot b 0 32 a) ∧
    ∃ h1 pre b post, h.roomy (alignUp (u32 16)) (u32 (2 ^ 32)) = some (h1, pre, b, post) ∧
      Heap.alignedSpot b (alignUp (u32 16)) (u32 (2 ^ 32)) = 0 := by
  refine ⟨pageHeap, reach_pageHeap, ⟨by decide +kernel, ⟨0x100000, 0xFE0, false⟩, by decide +kernel, rfl,
    0x100020, ⟨by decide, Or.inl rfl, by decide⟩⟩, ?_⟩
  have hspot : (pageHeap.roomy (alignUp (u32 16)) (u32 (2 ^ 32))).map
      (fun t => Heap.alignedSpot t.2.2.1 (alignUp (u32 16)) (u32 (2 ^ 32))) = some 0 := by
    decide +kernel
  obtain ⟨⟨h1, pre, b, post⟩, hroomy, hzero⟩ := Option.map_eq_some_iff.mp hspot
  exact ⟨h1, pre, b, post, hroomy, hzero⟩

/-- **`krealloc` does what it is to do exactly if the size is in range, or too large for the block even
by its low 32 bits.**  It is to return a block of `size` bytes with what the old one held, or `NULL` and
leave everything; `reclaim` leaves this block alone. -/
theorem Reach.krealloc_resizes (hr : Reach h) (hb : b ∈ h.blocks) (hu : b.used = true) (hs : b.size ≠ 0)
    {reclaim : Option (Heap → Heap)}
    (hf : ∀ f ∈ reclaim, Reach (f h) ∧ b ∈ (f h).blocks ∧ Agree h (f h) b) {size : ℕ} (h0 : size ≠ 0) :
    Resized reclaim h b size (h.krealloc reclaim b.payload size) ↔ size ≤ 0xFFFFFFF0 ∨
      (b.size < alignUp (u32 size) ∧ ∀ pre post, h.blocks = pre ++ b :: post →
        Heap.canGrow b post (alignUp (u32 size)) = false) :=
  (hr.whole.krealloc hb hu hs (fun f hfm => ⟨(hf f hfm).1.whole, (hf f hfm).2⟩) h0).2

/-- The page with 64 bytes handed out. -/
def usedPage : Heap := (pageHeap.kmalloc 64).1

/-- These bytes. -/
def usedBlock : Block := ⟨0x100000, 64, true⟩

theorem reach_usedPage : Reach usedPage := Reach.kmalloc 64 reach_pageHeap

theorem mem_usedPage : usedBlock ∈ usedPage.blocks := by decide +kernel

theorem krealloc_resizes_usedPage : Resized (some fun h => h) usedPage usedBlock 100
    (usedPage.krealloc (some fun h => h) usedBlock.payload 100) := by
  refine (reach_usedPage.krealloc_resizes mem_usedPage rfl (by decide) (fun f hf => ?_)
    (by decide)).mpr (Or.inl (by decide))
  obtain rfl := Option.some.inj hf
  exact ⟨reach_usedPage, mem_usedPage, Agree.rfl⟩

/-- Of 4 GiB nothing is left in 32 bits, and the block of 64 bytes is big enough for that. -/
theorem short_krealloc : ∃ h b, Reach h ∧ b ∈ h.blocks ∧ b.used = true ∧ b.size ≠ 0 ∧
    ¬ Resized none h b (2 ^ 32) (h.krealloc none b.payload (2 ^ 32)) := by
  refine ⟨usedPage, usedBlock, reach_usedPage, mem_usedPage, rfl, by decide, fun hres => ?_⟩
  have hsome : (usedPage.krealloc none usedBlock.payload (2 ^ 32)).2 = some usedBlock.payload := by
    decide +kernel
  have hblocks : ∀ c ∈ (usedPage.krealloc none usedBlock.payload (2 ^ 32)).1.blocks, c.size < 2 ^ 32 := by
    decide +kernel
  generalize usedPage.krealloc none usedBlock.payload (2 ^ 32) = r at *
  obtain ⟨h', q⟩ := r
  obtain rfl : q = some usedBlock.payload := hsome
  obtain ⟨⟨c, hc, -, -, hcs⟩, -⟩ := hres
  exact absurd (hblocks c hc) (Nat.not_lt.mpr hcs)

end BananaOS.Kheap
