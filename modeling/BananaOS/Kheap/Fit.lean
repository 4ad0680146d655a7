import BananaOS.Kheap.Steps
import Mathlib.Algebra.Order.Ring.Nat

/-!
# Finding room

`find_fit` and `find_fit_aligned`.  A spot is an address in a free block at which an aligned allocation
can be; `aligned_spot` ends at the first one there is (`alignedSpot_spec`), because it steps over
addresses of which none can be one, and a block with `room` bytes has a spot wherever it lies
(`Spot.of_room`).

All this is for alignments that 32 bits hold; of a larger one `find_fit_aligned` gets to see 0.
-/

namespace BananaOS.Kheap

variable {h : Heap} {l pre post : List Block} {b c : Block}

/-! ## Rounding a size -/

theorem dvd_alignUp (v : ℕ) : 16 ∣ alignUp v := Nat.dvd_mul_left _ _

theorem alignUp_lt (v : ℕ) : alignUp v < 2 ^ 32 := by
  have hlt : u32 (v + 15) < 2 ^ 32 := Nat.mod_lt _ (by decide)
  unfold alignUp
  omega

theorem alignUp_spec {size : ℕ} (h0 : size ≠ 0) (hsize : size ≤ maxAlloc) :
    size ≤ alignUp (u32 size) ∧ alignUp (u32 size) < size + 16 ∧ alignUp (u32 size) ≤ maxAlloc ∧
      alignUp (u32 size) ≠ 0 := by
  unfold maxAlloc at *
  have hs : u32 size = size := u32_eq (by omega)
  have hup : u32 (size + 15) = size + 15 := u32_eq (by omega)
  unfold alignUp
  rw [hs, hup]
  omega

/-! ## `find_fit` -/

theorem Whole.findFit {need : ℕ} (hw : Whole h) (h16 : 16 ∣ need) (h0 : need ≠ 0) (hn : need < 2 ^ 32) :
    match h.findFit need with
    | (h', some p) => Gave h h.blocks h' p need
    | (h', none) => h' = h := by
  have htake := hw.binTake hn h16
  unfold Heap.findFit
  cases ht : h.binTake need with
  | none => rfl
  | some t =>
    obtain ⟨h1, pre, b, post⟩ := t
    rw [ht] at htake
    obtain ⟨hblocks, hfree, hsize, rfl⟩ := htake
    obtain ⟨hloose, hspares⟩ := hw.binRemove hblocks hfree
    obtain ⟨hgave, hsome⟩ := hloose.handOut h16 h0 ((le_roundUp need).trans hsize)
    dsimp only
    generalize (h.binRemove b).handOut pre b post need = r at *
    obtain ⟨h2, p⟩ := r
    obtain rfl : p = some b.payload := hsome
    exact hgave.of_spares hspares

/-- `kmalloc` -/
theorem Whole.kmalloc (hw : Whole h) (size : ℕ) :
    match h.kmalloc size with
    | (h', some p) => Gave h h.blocks h' p size
    | (h', none) => h' = h := by
  unfold Heap.kmalloc
  by_cases hbad : h.blocks = [] ∨ size = 0 ∨ maxAlloc < size
  · rw [if_pos hbad]
  · rw [if_neg hbad]
    have h0 : size ≠ 0 := fun hz => hbad (Or.inr (Or.inl hz))
    obtain ⟨h1, -, -, hne⟩ := alignUp_spec h0 (Nat.not_lt.mp fun hz => hbad (Or.inr (Or.inr hz)))
    have hfit := hw.findFit (dvd_alignUp (u32 size)) hne (alignUp_lt _)
    generalize h.findFit (alignUp (u32 size)) = r at *
    obtain ⟨h', _ | p⟩ := r
    · exact hfit
    · exact hfit.mono h1

/-! ## Spots -/

/-- `size` bytes can be at `a`: the block begins there, or a front part is left that is worth keeping. -/
structure Spot (b : Block) (size align a : ℕ) : Prop where
  dvd : align ∣ a
  front : a = b.payload ∨ b.payload + (hdr + minSplit) ≤ a
  stop : a + size ≤ b.stop

/-- The loop ends at the first address that is one. -/
theorem spotLoop_spec {s align : ℕ} (h32 : 32 ≤ align) (hs : s < 2 ^ 32) (halign : align < 2 ^ 32) :
    ∀ fuel a, align ∣ a → s ≤ a → a < 2 ^ 34 → (a ≠ s → s + (hdr + minSplit) ≤ a + 32 * fuel) →
      align ∣ Heap.spotLoop s align fuel a ∧
      (Heap.spotLoop s align fuel a = s ∨ s + (hdr + minSplit) ≤ Heap.spotLoop s align fuel a) ∧
      ∀ x, align ∣ x → a ≤ x → (x = s ∨ s + (hdr + minSplit) ≤ x) → Heap.spotLoop s align fuel a ≤ x := by
  intro fuel
  induction fuel with
  | zero =>
    intro a ha hsa _ hfuel
    refine ⟨ha, ?_, fun x _ hx _ => hx⟩
    show a = s ∨ s + (hdr + minSplit) ≤ a
    omega
  | succ fuel ih =>
    intro a ha hsa hlt hfuel
    have hdist : sub64 a s = a - s := sub64_eq hsa (by omega)
    unfold Heap.spotLoop
    rw [hdist]
    by_cases hstep : a ≠ s ∧ a - s < hdr + minSplit
    · rw [if_pos hstep]
      obtain ⟨hne, hnear⟩ := hstep
      have hsmall : hdr + minSplit = 96 := rfl
      have hsum : u64 (a + align) = a + align := Nat.mod_eq_of_lt (by omega)
      rw [hsum]
      have hroom := hfuel hne
      obtain ⟨h1, h2, h3⟩ := ih (a + align) ((Nat.dvd_add_right ha).mpr dvd_rfl) (by omega) (by omega)
        (fun _ => by omega)
      refine ⟨h1, h2, fun x hx hax hspot => h3 x hx ?_ hspot⟩
      -- `a` itself is no spot, so that `x` is a step further at least
      obtain ⟨j, rfl⟩ := ha
      obtain ⟨k, rfl⟩ := hx
      have hjk : j < k := Nat.lt_of_mul_lt_mul_left (a := align) (by omega)
      calc align * j + align = align * (j + 1) := (Nat.mul_succ _ _).symm
        _ ≤ align * k := Nat.mul_le_mul_left _ hjk
    · rw [if_neg hstep]
      refine ⟨ha, ?_, fun x _ hx _ => hx⟩
      omega

theorem first_multiple (s : ℕ) {align : ℕ} (hpos : 0 < align) :
    align ∣ (s + align - 1) / align * align ∧ s ≤ (s + align - 1) / align * align ∧
      (s + align - 1) / align * align < s + align ∧
      ∀ x, align ∣ x → s ≤ x → (s + align - 1) / align * align ≤ x := by
  have hdiv := Nat.div_add_mod (s + align - 1) align
  have hmod := Nat.mod_lt (s + align - 1) hpos
  rw [Nat.mul_comm] at hdiv
  refine ⟨Nat.dvd_mul_left _ _, by omega, by omega, ?_⟩
  rintro x ⟨j, rfl⟩ hx
  rw [Nat.mul_comm align j]
  refine Nat.mul_le_mul_right _ (Nat.le_of_lt_succ ((Nat.div_lt_iff_lt_mul hpos).mpr ?_))
  rw [Nat.succ_mul, Nat.mul_comm]
  omega

theorem sixteen_dvd {k : ℕ} (h5 : 5 ≤ k) : 16 ∣ 2 ^ k := by
  obtain ⟨j, rfl⟩ := Nat.exists_eq_add_of_le h5
  rw [Nat.pow_add]
  exact Dvd.intro (2 * 2 ^ j) (by omega)

/-- The address that `aligned_spot` begins at. -/
theorem clear_eq {s k : ℕ} (hs : s < 2 ^ 32) (hk : k < 32) :
    clear (sub64 (s + 2 ^ k) 1) (sub32 (2 ^ k) 1) = (s + 2 ^ k - 1) / 2 ^ k * 2 ^ k := by
  have hpos := Nat.two_pow_pos k
  have hpow : 2 ^ k < 2 ^ 32 := Nat.pow_lt_pow_right (by decide) hk
  rw [sub64_eq (by omega) (by omega), sub32_eq hpos hpow]
  unfold clear
  rw [Nat.and_two_pow_sub_one_eq_mod]
  have hdiv := Nat.div_add_mod (s + 2 ^ k - 1) (2 ^ k)
  rw [Nat.mul_comm] at hdiv
  omega

theorem Block.Fits.payload (hb : b.Fits) : 16 ∣ b.payload ∧ b.payload ≠ 0 ∧ b.payload < 2 ^ 32 := by
  have haddr := hb.addr
  have hstop := hb.lt.2
  unfold Block.stop at hstop
  unfold Block.payload hdr at *
  omega

theorem Spot.of_room {need align : ℕ} (hpos : 0 < align) (hroom : Heap.room need align ≤ b.size) :
    ∃ a, Spot b need align a := by
  obtain ⟨h1, h2, h3, -⟩ := first_multiple (b.payload + (hdr + minSplit)) hpos
  refine ⟨_, h1, Or.inr h2, ?_⟩
  unfold Heap.room at hroom
  unfold Block.stop
  unfold Block.payload at *
  omega

/-- **`aligned_spot` finds a spot if there is one.** -/
theorem alignedSpot_spec (hb : b.Fits) {need k : ℕ} (hneed : need < 2 ^ 32) (h5 : 5 ≤ k) (hk : k < 32) :
    (Heap.alignedSpot b need (2 ^ k) ≠ 0 → Spot b need (2 ^ k) (Heap.alignedSpot b need (2 ^ k))) ∧
      (Heap.alignedSpot b need (2 ^ k) = 0 → ∀ a, ¬ Spot b need (2 ^ k) a) := by
  have hpos := Nat.two_pow_pos k
  have h32 : 32 ≤ 2 ^ k := Nat.pow_le_pow_right (n := 2) (by decide) h5
  have hpow : 2 ^ k < 2 ^ 32 := Nat.pow_lt_pow_right (by decide) hk
  have hstop := hb.lt.2
  obtain ⟨h16, hpay, hs⟩ := hb.payload
  obtain ⟨h1, h2, h3, hleast⟩ := first_multiple b.payload hpos
  have h16a : 16 ∣ (b.payload + 2 ^ k - 1) / 2 ^ k * 2 ^ k :=
    Nat.dvd_trans (sixteen_dvd h5) h1
  unfold Heap.alignedSpot
  rw [clear_eq hs hk]
  generalize (b.payload + 2 ^ k - 1) / 2 ^ k * 2 ^ k = a at *
  obtain ⟨h4, h5, h6⟩ := spotLoop_spec h32 hs hpow 4 a h1 h2 (by omega) (fun _ => by
    unfold hdr minSplit
    omega)
  obtain ⟨h7, h8, h9, -⟩ := first_multiple (b.payload + (hdr + minSplit)) hpos
  have hle := h6 _ h7 (hleast _ h7 (by omega)) (Or.inr h8)
  have hsmall : hdr + minSplit = 96 := rfl
  generalize Heap.spotLoop b.payload (2 ^ k) 4 a = r at *
  have hsum : u64 (r + need) = r + need := Nat.mod_eq_of_lt (by omega)
  dsimp only
  rw [hsum]
  split
  · rename_i hend
    exact ⟨fun _ => ⟨h4, h5, hend⟩, fun hz => by omega⟩
  · rename_i hend
    refine ⟨fun hne => absurd rfl hne, fun _ x hx => hend ?_⟩
    have hxs : b.payload ≤ x := by
      rcases hx.front with hf | hf
      · exact hf.ge
      · omega
    exact (Nat.add_le_add_right (h6 x hx.dvd (hleast x hx.dvd hxs) hx.front) need).trans hx.stop

/-! ## `find_fit_aligned` -/

theorem findSpot_some {need align a : ℕ} : ∀ {l pre post : List Block} {b : Block},
    Heap.findSpot need align l = some (pre, b, post, a) → l = pre ++ b :: post ∧ b.used = false ∧
      Heap.alignedSpot b need align = a ∧ a ≠ 0
  | [], _, _, _, hl => by cases hl
  | c :: rest, pre, post, b, hl => by
    unfold Heap.findSpot at hl
    split at hl
    · obtain ⟨⟨pre', b', post', a'⟩, hrest, heq⟩ := Option.map_eq_some_iff.mp hl
      cases heq
      obtain ⟨rfl, h2⟩ := findSpot_some hrest
      exact ⟨rfl, h2⟩
    · rename_i hc
      cases hl
      simp only [not_or, Bool.not_eq_true] at hc
      exact ⟨rfl, hc.1, rfl, hc.2.2⟩

theorem findSpot_none {need align : ℕ} : ∀ {l : List Block}, Heap.findSpot need align l = none →
    ∀ b ∈ l, b.used = false → need ≤ b.size → Heap.alignedSpot b need align = 0
  | c :: rest, hl, b, hb, hfree, hsize => by
    unfold Heap.findSpot at hl
    split at hl
    · rename_i hc
      rcases List.mem_cons.mp hb with rfl | hb
      · simpa [hfree, Nat.not_lt.mpr hsize] using hc
      · exact findSpot_none (Option.map_eq_none_iff.mp hl) b hb hfree hsize
    · cases hl

theorem Loose.takeSpot {need k : ℕ} (hl : Loose h pre b post) (hb : b.used = false) (h16 : 16 ∣ need)
    (h0 : need ≠ 0) (hneed : need < 2 ^ 32) (h5 : 5 ≤ k) (hk : k < 32)
    (hne : Heap.alignedSpot b need (2 ^ k) ≠ 0) :
    Gave h (pre ++ post) (h.takeAligned pre b post (Heap.alignedSpot b need (2 ^ k)) need).1
        (Heap.alignedSpot b need (2 ^ k)) need ∧
      (h.takeAligned pre b post (Heap.alignedSpot b need (2 ^ k)) need).2 =
        some (Heap.alignedSpot b need (2 ^ k)) ∧ 2 ^ k ∣ Heap.alignedSpot b need (2 ^ k) := by
  have hspot := (alignedSpot_spec (hl.tiles.fits b (by simp)) hneed h5 hk).1 hne
  have h16a := Nat.dvd_trans (sixteen_dvd h5) hspot.dvd
  obtain ⟨h1, h2⟩ := hl.takeAligned hb h16 h0 h16a hspot.front hspot.stop
  exact ⟨h1, h2, hspot.dvd⟩

theorem Whole.scanAligned {need k : ℕ} (hw : Whole h) (h16 : 16 ∣ need) (h0 : need ≠ 0)
    (hneed : need < 2 ^ 32) (h5 : 5 ≤ k) (hk : k < 32) :
    match h.scanAligned need (2 ^ k) with
    | (h', some p) => Gave h h.blocks h' p need ∧ 2 ^ k ∣ p
    | (h', none) => h' = h ∧ ∀ b ∈ h.blocks, b.used = false → ∀ a, ¬ Spot b need (2 ^ k) a := by
  cases hf : Heap.findSpot need (2 ^ k) h.blocks with
  | none =>
    have hr : h.scanAligned need (2 ^ k) = (h, none) := by
      unfold Heap.scanAligned
      rw [hf]
    rw [hr]
    refine ⟨rfl, fun b hb hfree a hspot => ?_⟩
    have hsize : need ≤ b.size := by
      have hstop := hspot.stop
      have hfront := hspot.front
      unfold Block.stop at hstop
      unfold Block.payload at hfront
      omega
    have hz := findSpot_none hf b hb hfree hsize
    exact (alignedSpot_spec (hw.tiles.fits b hb) hneed h5 hk).2 hz a hspot
  | some p =>
    obtain ⟨pre, b, post, a⟩ := p
    obtain ⟨hblocks, hfree, rfl, hne⟩ := findSpot_some hf
    obtain ⟨hloose, hspares⟩ := hw.binRemove hblocks hfree
    obtain ⟨h1, h2, h3⟩ := hloose.takeSpot hfree h16 h0 hneed h5 hk hne
    have hr : h.scanAligned need (2 ^ k) =
        (h.binRemove b).takeAligned pre b post (Heap.alignedSpot b need (2 ^ k)) need := by
      unfold Heap.scanAligned
      rw [hf]
    rw [hr]
    generalize (h.binRemove b).takeAligned pre b post (Heap.alignedSpot b need (2 ^ k)) need = r at *
    obtain ⟨h', q⟩ := r
    obtain rfl : q = some _ := h2
    exact ⟨h1.of_spares hspares, h3⟩

theorem dvd_room {need k : ℕ} (h16 : 16 ∣ need) (h5 : 5 ≤ k) : 16 ∣ Heap.room need (2 ^ k) := by
  have hk := sixteen_dvd h5
  unfold Heap.room hdr minSplit
  omega

/-- **What the bins give has a spot.** -/
theorem Whole.roomy {need k : ℕ} (hw : Whole h) (h16 : 16 ∣ need) (hneed : need < 2 ^ 32) (h5 : 5 ≤ k)
    (hk : k < 32) {h1 : Heap} (hr : h.roomy need (2 ^ k) = some (h1, pre, b, post)) :
    h.blocks = pre ++ b :: post ∧ b.used = false ∧ h1 = h.binRemove b ∧
      Heap.alignedSpot b need (2 ^ k) ≠ 0 := by
  unfold Heap.roomy at hr
  split at hr
  · rename_i hroom
    unfold maxAlloc at hroom
    have htake := hw.binTake (by omega) (dvd_room h16 h5)
    rw [hr] at htake
    obtain ⟨hblocks, hfree, hsize, hh⟩ := htake
    refine ⟨hblocks, hfree, hh, fun hz => ?_⟩
    obtain ⟨a, ha⟩ := Spot.of_room (Nat.two_pow_pos k) ((le_roundUp _).trans hsize)
    exact (alignedSpot_spec (hw.tiles.fits b (by rw [hblocks]; simp)) hneed h5 hk).2 hz a ha
  · cases hr

/-- `find_fit_aligned` -/
theorem Whole.findFitAligned {need k : ℕ} (hw : Whole h) (h16 : 16 ∣ need) (h0 : need ≠ 0)
    (hneed : need < 2 ^ 32) (h5 : 5 ≤ k) (hk : k < 32) :
    match h.findFitAligned need (2 ^ k) with
    | (h', some p) => Gave h h.blocks h' p need ∧ 2 ^ k ∣ p
    | (h', none) => h' = h ∧ ∀ b ∈ h.blocks, b.used = false → ∀ a, ¬ Spot b need (2 ^ k) a := by
  cases hr : h.roomy need (2 ^ k) with
  | none =>
    have hf : h.findFitAligned need (2 ^ k) = h.scanAligned need (2 ^ k) := by
      unfold Heap.findFitAligned
      rw [hr]
    rw [hf]
    exact hw.scanAligned h16 h0 hneed h5 hk
  | some t =>
    obtain ⟨h1, pre, b, post⟩ := t
    obtain ⟨hblocks, hfree, rfl, hne⟩ := hw.roomy h16 hneed h5 hk hr
    obtain ⟨hloose, hspares⟩ := hw.binRemove hblocks hfree
    obtain ⟨h1, h2, h3⟩ := hloose.takeSpot hfree h16 h0 hneed h5 hk hne
    have hf : h.findFitAligned need (2 ^ k) =
        (h.binRemove b).takeAligned pre b post (Heap.alignedSpot b need (2 ^ k)) need := by
      unfold Heap.findFitAligned
      rw [hr]
      exact if_pos hne
    rw [hf]
    generalize (h.binRemove b).takeAligned pre b post (Heap.alignedSpot b need (2 ^ k)) need = r at *
    obtain ⟨h', q⟩ := r
    obtain rfl : q = some _ := h2
    exact ⟨h1.of_spares hspares, h3⟩

end BananaOS.Kheap
