import BananaOS.Umem.Free

/-!
# The blocks an app holds

The blocks that were handed out and not freed are kept beside the memory: for each address the size
that was asked for, and whether the block is the system's (`umem_alloc_pages`).  `Cfg.Holds` says
that the memory agrees with them: the blocks in use are exactly these, each is long enough, the pins
are right, and `m->used` counts them, in 32 bits.  Every call keeps this, whatever sizes and
addresses it is given, as long as no row is split without the memory for its blocks.
-/

namespace BananaOS.Umem

namespace Cfg

variable {c : Cfg}

/-- The sizes of the blocks in use, together. -/
def total (c : Cfg) : ℕ := ∑ a ∈ Finset.range (frames * block), c.sizeL a

/-- What is held: the size that was asked for, and whether the block is the system's. -/
abbrev Held := ℕ → Option (ℕ × Bool)

/-- What is held when `p` was given for `size` bytes, or nothing was given. -/
def give (L : Held) (size : ℕ) (y : Bool) : Option ℕ → Held
  | some p => Function.update L p (some (size, y))
  | none => L

/-- The memory agrees with what is held. -/
structure Holds (c : Cfg) (L : Held) : Prop where
  frames : c.Frames
  ok : c.m.Ok
  live : ∀ a, c.sizeL a ≠ 0 ↔ L a ≠ none
  long : ∀ a n p, L a = some (n, p) → n ≤ c.sizeL a ∧ c.pinned a = p
  used : c.m.used = c.total % 2 ^ 32

/-! ## The sum -/

theorem lt_of_sizeL {a : ℕ} (ha : c.sizeL a ≠ 0) : a < Umem.frames * block := by
  obtain ⟨k, hk⟩ := exists_chunk ha
  unfold chunkOf at hk
  by_cases ht : Umem.frames ≤ a / block
  · rw [if_pos ht] at hk
    exact absurd hk (by simp)
  · exact (Nat.div_lt_iff_lt_mul (by decide)).mp (not_le.mp ht)

theorem Sized.total {c' : Cfg} {p n : ℕ} (h : Sized c c' p n) :
    c'.total + c.sizeL p = c.total + n := by
  unfold Cfg.total
  by_cases hp : p ∈ Finset.range (Umem.frames * block)
  · have h1 := Finset.sum_erase_add _ c'.sizeL hp
    have h2 := Finset.sum_erase_add _ c.sizeL hp
    have h3 : ∑ a ∈ (Finset.range (Umem.frames * block)).erase p, c'.sizeL a =
        ∑ a ∈ (Finset.range (Umem.frames * block)).erase p, c.sizeL a :=
      Finset.sum_congr rfl fun a ha => h.size a (Finset.ne_of_mem_erase ha)
    rw [h.self] at h1
    omega
  · have hout : ∀ d : Cfg, d.sizeL p = 0 := fun d => by
      by_contra hx
      exact hp (Finset.mem_range.mpr (lt_of_sizeL hx))
    have hn : n = 0 := h.self.symm.trans (hout c')
    rw [hout c, hn]
    refine congrArg (· + 0) (Finset.sum_congr rfl fun a ha => h.size a ?_)
    rintro rfl
    exact hp ha

theorem Quiet.total {c' : Cfg} (h : Quiet c c') : c'.total = c.total :=
  Finset.sum_congr rfl fun a _ => h.size a

/-! ## The steps -/

theorem Holds.quiet {L : Held} (h : c.Holds L) {c' : Cfg} (hq : Quiet c c')
    (hu : c'.m.used = c.m.used) : c'.Holds L := by
  refine ⟨hq.frames, hq.ok, fun a => ?_, fun a n p ha => ?_, ?_⟩
  · rw [hq.size]
    exact h.live a
  · obtain ⟨h1, h2⟩ := h.long a n p ha
    have hne : c.sizeL a ≠ 0 := (h.live a).mpr (by rw [ha]; simp)
    rw [hq.size, hq.pins a hne]
    exact ⟨h1, h2⟩
  · rw [hu, hq.total]
    exact h.used

theorem Holds.given {L : Held} (h : c.Holds L) {c' : Cfg} {p n size : ℕ} (hg : Given c c' p n)
    (hn : n ≠ 0) (hs : size ≤ n) : c'.Holds (Function.update L p (some (size, false))) := by
  refine ⟨hg.frames, hg.ok, fun a => ?_, fun a m b ha => ?_, ?_⟩
  · rcases eq_or_ne a p with rfl | hne
    · rw [Function.update_self, hg.self]
      simp [hn]
    · rw [Function.update_of_ne hne, hg.size a hne]
      exact h.live a
  · rcases eq_or_ne a p with rfl | hne
    · rw [Function.update_self] at ha
      obtain ⟨rfl, rfl⟩ := Prod.mk.inj (Option.some.inj ha)
      rw [hg.self]
      exact ⟨hs, hg.unpinned⟩
    · rw [Function.update_of_ne hne] at ha
      obtain ⟨h1, h2⟩ := h.long a m b ha
      have hlive : c.sizeL a ≠ 0 := (h.live a).mpr (by rw [ha]; simp)
      rw [hg.size a hne, hg.pins a hne hlive]
      exact ⟨h1, h2⟩
  · have ht := hg.toSized.total
    rw [hg.free] at ht
    have hu := h.used
    rw [hg.used, hu]
    unfold add32
    omega

theorem Holds.taken {L : Held} (h : c.Holds L) {c' : Cfg} {a : ℕ} (hg : Taken c c' a) :
    c'.Holds (Function.update L a none) := by
  refine ⟨hg.frames, hg.ok, fun x => ?_, fun x m b hx => ?_, ?_⟩
  · rcases eq_or_ne x a with rfl | hne
    · rw [Function.update_self, hg.self]
      simp
    · rw [Function.update_of_ne hne, hg.size x hne]
      exact h.live x
  · rcases eq_or_ne x a with rfl | hne
    · rw [Function.update_self] at hx
      exact absurd hx (by simp)
    · rw [Function.update_of_ne hne] at hx
      obtain ⟨h1, h2⟩ := h.long x m b hx
      have hlive : c.sizeL x ≠ 0 := (h.live x).mpr (by rw [hx]; simp)
      rw [hg.size x hne, hg.pins x hne hlive]
      exact ⟨h1, h2⟩
  · have ht := hg.toSized.total
    have hu := h.used
    rw [hg.used, hu]
    unfold sub32
    omega

theorem Holds.allocL {L : Held} (h : c.Holds L) (size : ℕ) (e : Env) :
    (c.allocL size e).1.Holds (give L size false (c.allocL size e).2) := by
  have ho := allocL_outcome h.frames h.ok size e
  obtain ⟨hle, hne⟩ := le_need size
  cases hr : c.allocL size e with
  | mk c' r =>
    rw [hr] at ho
    cases r with
    | none => exact h.quiet ho.1 ho.2
    | some p => exact h.given ho hne hle

/-! ## Pins -/

theorem setPin_used (a : ℕ) (y : Bool) : (c.setPin a y).m.used = c.m.used := by
  unfold setPin
  cases c.chunkOf a with
  | none => rfl
  | some k =>
    dsimp only
    split_ifs
    · exact setChunk_used _ _
    · exact setChunk_used _ _

theorem pinned_changed (k : ℕ) (ch : Chunk) (a : ℕ) : (c.setChunk k ch).pinned a =
    if c.chunkOf a = some k then (if 1 < ch.nframes then ch.pinned else ch.pin (pageOf a))
    else c.pinned a := by
  cases hka : c.chunkOf a with
  | none =>
    have hka' : (c.setChunk k ch).chunkOf a = none := by
      rw [chunkOf_setChunk]
      exact hka
    rw [if_neg (by simp)]
    unfold pinned
    rw [hka, hka']
  | some l =>
    have hka' : (c.setChunk k ch).chunkOf a = some l := by
      rw [chunkOf_setChunk]
      exact hka
    rw [pinned_of hka']
    show (if 1 < (Function.update c.m.chunk k ch l).nframes then
      (Function.update c.m.chunk k ch l).pinned else
      (Function.update c.m.chunk k ch l).pin (pageOf a)) = _
    rcases eq_or_ne l k with rfl | hl
    · rw [Function.update_self, if_pos rfl]
    · rw [Function.update_of_ne hl, if_neg fun hx => hl (Option.some.inj hx), pinned_of hka]

/-- The page where a block in use starts: it is the start of a run and no other block in use starts
there, or it is a page of a slab. -/
theorem page_alone (hf : c.Frames) (h : c.m.Ok) {a k : ℕ} (hk : c.chunkOf a = some k)
    (hn : (c.m.chunk k).nframes = 1) (ha : c.sizeL a ≠ 0) :
    ((c.m.chunk k).run (pageOf a) ≠ 0 ∧ (c.m.chunk k).slab (pageOf a) = none ∧
      ∀ b, c.chunkOf b = some k → c.sizeL b ≠ 0 → pageOf b = pageOf a → b = a) ∨
    c.sizeL a ≤ small ∧ (c.m.chunk k).pin (pageOf a) = false := by
  cases kind_of hf h hk ha with
  | row hn' => omega
  | run i _ hr hs hbase hsz =>
    have hi : i < pages := by
      have := (h.chunk k (hf.chunkOf_eq_some.mp hk).1).inside i hr
      omega
    have hpo : pageOf a = i := by
      rw [hbase]
      exact (addr_start (f := (c.m.chunk k).frame) hi).2.1
    rw [hpo]
    refine Or.inl ⟨hr, hs, fun b hkb hb hpb => ?_⟩
    -- on the same page, and not before the start of the run
    have hadr := addr_eq b
    rw [hpb, ← hf.frame_eq hkb hn] at hadr
    have hmod := Nat.mod_lt b (show 0 < page by decide)
    have hlen : page ≤ c.sizeL a := by
      rw [hsz]
      exact Nat.le_mul_of_pos_left page (Nat.pos_of_ne_zero hr)
    unfold Chunk.base at hbase
    rcases Nat.lt_trichotomy a b with hlt | heq | hlt
    · have := sizeL_apart hf h ha hb hlt
      omega
    · exact heq.symm
    · omega
  | piece i s j hm hh hbase hj hfr hsz =>
    have hcls := clsSize_mem (h.slab s hm).cls
    have hpin := piece_unpinned hf h hm hj
    rw [← hbase, pinned_of hk, if_neg (by omega)] at hpin
    refine Or.inr ⟨?_, hpin⟩
    rw [hsz]
    exact hcls.2

/-- The pin of a block in use that is not a piece, set or cleared. -/
theorem Holds.setPin {L : Held} (h : c.Holds L) {a n : ℕ} {p : Bool} (ha : L a = some (n, p))
    (y : Bool) (hy : y = true → small < c.sizeL a) :
    (c.setPin a y).Holds (Function.update L a (some (n, y))) := by
  have hlive : c.sizeL a ≠ 0 := (h.live a).mpr (by rw [ha]; simp)
  obtain ⟨k, hk⟩ := exists_chunk hlive
  obtain ⟨hkm, -⟩ := h.frames.chunkOf_eq_some.mp hk
  have hpos := h.frames.pos k hkm
  have hok := h.ok.chunk k hkm
  have hfr := (kept_setPin (c := c) a y).frames h.frames
  -- the tables, and the pins of this block and of the others
  have hmain : (c.setPin a y).m.Ok ∧ (c.setPin a y).pinned a = y ∧
      ∀ b, b ≠ a → c.sizeL b ≠ 0 → (c.setPin a y).pinned b = c.pinned b := by
    unfold Cfg.setPin
    rw [hk]
    dsimp only
    by_cases hn : 1 < (c.m.chunk k).nframes
    · rw [if_pos hn]
      refine ⟨h.ok.setChunk ⟨hok.inside, hok.used, hok.apart, hok.plain, hok.broken, hok.pin⟩ rfl rfl
        fun _ _ _ => rfl, ?_, fun b hb hbl => ?_⟩
      · rw [pinned_changed, if_pos hk]
        exact if_pos hn
      · rw [pinned_changed, if_neg]
        intro hkb
        have hbase : ∀ x, c.chunkOf x = some k → c.sizeL x ≠ 0 → x = (c.m.chunk k).base := by
          intro x hkx hx
          obtain ⟨l, hl, -, -, hb', -⟩ := (row_iff hkx).mpr ⟨hx, hn⟩
          obtain rfl := Option.some.inj (hkx.symm.trans hl)
          exact hb'
        exact hb ((hbase b hkb hbl).trans (hbase a hk hlive).symm)
    · rw [if_neg hn]
      have hpage := page_alone h.frames h.ok hk (by omega) hlive
      refine ⟨h.ok.setChunk ⟨hok.inside, hok.used, hok.apart, hok.plain, hok.broken, fun i hi => ?_⟩
        rfl rfl fun _ _ _ => rfl, ?_, fun b hb hbl => ?_⟩
      · have hi' : Function.update (c.m.chunk k).pin (pageOf a) y i = true := hi
        rcases eq_or_ne i (pageOf a) with rfl | hne
        · rw [Function.update_self] at hi'
          rcases hpage with ⟨h1, h2, -⟩ | ⟨h1, -⟩
          · exact ⟨h1, h2⟩
          · exact absurd (hy hi') (not_lt.mpr h1)
        · rw [Function.update_of_ne hne] at hi'
          exact hok.pin i hi'
      · rw [pinned_changed, if_pos hk]
        dsimp only
        rw [if_neg hn, Function.update_self]
      · rw [pinned_changed]
        by_cases hkb : c.chunkOf b = some k
        · rw [if_pos hkb]
          dsimp only
          rw [if_neg hn, pinned_of hkb, if_neg hn]
          rcases eq_or_ne (pageOf b) (pageOf a) with heq | hne
          · rcases hpage with ⟨-, -, h3⟩ | ⟨h1, h2⟩
            · exact absurd (h3 b hkb hbl heq) hb
            · rw [heq, Function.update_self, h2]
              cases y with
              | false => rfl
              | true => exact absurd (hy rfl) (not_lt.mpr h1)
          · rw [Function.update_of_ne hne]
        · rw [if_neg hkb]
  obtain ⟨hok', hself, hother⟩ := hmain
  refine ⟨hfr, hok', fun b => ?_, fun b m q hb => ?_, ?_⟩
  · rw [sizeL_setPin, h.live]
    rcases eq_or_ne b a with rfl | hne
    · rw [Function.update_self, ha]
      simp
    · rw [Function.update_of_ne hne]
  · rw [sizeL_setPin]
    rcases eq_or_ne b a with rfl | hne
    · rw [Function.update_self] at hb
      obtain ⟨rfl, rfl⟩ := Prod.mk.inj (Option.some.inj hb)
      exact ⟨(h.long b n p ha).1, hself⟩
    · rw [Function.update_of_ne hne] at hb
      have hbl : c.sizeL b ≠ 0 := (h.live b).mpr (by rw [hb]; simp)
      rw [hother b hne hbl]
      exact h.long b m q hb
  · rw [setPin_used, h.used]
    unfold Cfg.total
    rw [Finset.sum_congr rfl fun b _ => sizeL_setPin b a y]

/-! ## The calls -/

/-- A memory's address that a call is about. -/
def target : Call → Option ℕ
  | .free a => some a
  | .realloc a _ => some a
  | .freePages a => some a
  | _ => none

/-- A row that the call splits has memory for all its blocks. -/
def Whole (c : Cfg) (e : Env) (f : Call) : Prop :=
  c.Splits e f → ∀ a, target f = some a → ∀ k, k * block < c.sizeL a → e.splitMem k = true

/-- The system frees its blocks by the address that it was given. -/
def Owned (L : Held) : Call → Prop
  | .freePages a => ∃ n, L a = some (n, true)
  | _ => True

/-- What is held after a call: an app frees what is its own. -/
def held (c : Cfg) (e : Env) (L : Held) : Call → Held
  | .alloc size => give L size false (c.umemAlloc size e).2
  | .free a =>
    match L a with
    | some (_, false) => Function.update L a none
    | _ => L
  | .realloc a size =>
    if a = 0 then give L size false (c.umemRealloc a size e).2
    else match L a with
      | some (_, false) =>
        if size = 0 then Function.update L a none
        else match (c.umemRealloc a size e).2 with
          | some p => Function.update (Function.update L a none) p (some (size, false))
          | none => L
      | _ => L
  | .allocPages total => give L total true (c.umemAllocPages total e).2
  | .freePages a => Function.update L a none
  | _ => L

/-- Nothing is at `NULL`. -/
theorem sizeL_zero (hf : c.Frames) : c.sizeL 0 = 0 := by
  by_contra hx
  obtain ⟨k, hk⟩ := exists_chunk hx
  obtain ⟨hm, hhas⟩ := hf.chunkOf_eq_some.mp hk
  have := (hf.top k hm).1
  unfold Chunk.Has at hhas
  rw [Nat.zero_div] at hhas
  omega

/-- A free in the hands of an app: of an address that is not the start of a block of its own. -/
theorem Holds.not_own {L : Held} (h : c.Holds L) {a : ℕ} (ha : ∀ n, L a ≠ some (n, false)) :
    c.sizeL a = 0 ∨ c.pinned a = true := by
  cases hl : L a with
  | none =>
    left
    by_contra hx
    exact (h.live a).mp hx hl
  | some q =>
    obtain ⟨n, y⟩ := q
    cases y with
    | false => exact absurd hl (ha n)
    | true => exact Or.inr (h.long a n true hl).2

/-- **A free of an address that is not the start of a block the app holds changes nothing.** -/
theorem Holds.umemFree_same {L : Held} (h : c.Holds L) {a : ℕ} (ha : ∀ n, L a ≠ some (n, false))
    (e : Env) : c.umemFree a e = c := by
  unfold umemFree
  split_ifs with h0 hp
  · rfl
  · rfl
  · rcases h.not_own ha with hd | hp'
    · exact freeL_dead h.frames h.ok hd e
    · exact absurd hp' hp

theorem Holds.umemRealloc_same {L : Held} (h : c.Holds L) {a : ℕ} (h0 : a ≠ 0)
    (ha : ∀ n, L a ≠ some (n, false)) (size : ℕ) (e : Env) :
    c.umemRealloc a size e = (c, none) := by
  unfold umemRealloc
  by_cases hp : a ≠ 0 ∧ c.pinned a = true
  · rw [if_pos hp]
  rw [if_neg hp]
  have hd : c.sizeL a = 0 := by
    rcases h.not_own ha with hd | hp'
    · exact hd
    · exact absurd ⟨h0, hp'⟩ hp
  unfold reallocL
  rw [if_neg h0]
  by_cases hz : size = 0
  · rw [if_pos hz, freeL_dead h.frames h.ok hd e]
  · rw [if_neg hz]
    dsimp only
    rw [if_pos hd]

theorem Holds.umemRealloc {L : Held} (h : c.Holds L) {a n size : ℕ} {e : Env}
    (ha : L a = some (n, false)) (hw : c.Whole e (.realloc a size)) :
    (c.umemRealloc a size e).1.Holds (if size = 0 then Function.update L a none
      else match (c.umemRealloc a size e).2 with
        | some p => Function.update (Function.update L a none) p (some (size, false))
        | none => L) := by
  have hlive : c.sizeL a ≠ 0 := (h.live a).mpr (by rw [ha]; simp)
  have hpin := (h.long a n false ha).2
  have h0 : a ≠ 0 := by
    rintro rfl
    exact hlive (sizeL_zero h.frames)
  have hdef : c.umemRealloc a size e = c.reallocL a size e := by
    unfold Cfg.umemRealloc
    rw [if_neg]
    rw [hpin]
    simp
  rw [hdef]
  unfold reallocL
  rw [if_neg h0]
  by_cases hz : size = 0
  · rw [if_pos hz, if_pos hz]
    refine h.taken (freeL_live h.frames h.ok hlive hpin fun hr => ?_)
    exact hw ⟨h0, hpin, hr, Or.inl hz⟩ a rfl
  rw [if_neg hz, if_neg hz]
  dsimp only
  rw [if_neg hlive]
  by_cases hs : size ≤ c.sizeL a ∧ (c.sizeL a ≤ small ∨ c.sizeL a / 2 < size)
  · rw [if_pos hs]
    dsimp only
    -- in place: only what was asked for is different
    rw [Function.update_idem]
    refine ⟨h.frames, h.ok, fun x => ?_, fun x m y hx => ?_, h.used⟩
    · rw [h.live]
      rcases eq_or_ne x a with rfl | hne
      · rw [Function.update_self, ha]
        simp
      · rw [Function.update_of_ne hne]
    · rcases eq_or_ne x a with rfl | hne
      · rw [Function.update_self] at hx
        obtain ⟨rfl, rfl⟩ := Prod.mk.inj (Option.some.inj hx)
        exact ⟨hs.1, hpin⟩
      · rw [Function.update_of_ne hne] at hx
        exact h.long x m y hx
  rw [if_neg hs]
  have ho := allocL_outcome h.frames h.ok size e
  have hg := grown_allocL h.frames size e
  obtain ⟨hle, hne⟩ := le_need size
  cases hr : c.allocL size e with
  | mk c' r =>
    rw [hr] at ho hg
    cases r with
    | none => exact h.quiet ho.1 ho.2
    | some p =>
      have hgiv : Given c c' p (need size) := ho
      have hap : a ≠ p := by
        rintro rfl
        exact hlive hgiv.free
      have hsz : c'.sizeL a = c.sizeL a := hgiv.size a hap
      have hlive' : c'.sizeL a ≠ 0 := by
        rw [hsz]
        exact hlive
      have hpin' : c'.pinned a = false := (hgiv.pins a hap hlive).trans hpin
      have htaken := freeL_live hgiv.frames hgiv.ok hlive' hpin' (e := e) fun hrow k hk => by
        rw [hsz] at hk
        refine hw ⟨h0, hpin, hg.row h.frames hlive hrow, Or.inr ⟨hs, ?_⟩⟩ a rfl k hk
        rw [hr]
        simp
      have := (h.given hgiv hne hle).taken htaken
      rw [Function.update_comm hap.symm] at this
      exact this

/-- **Every call keeps the memory in agreement with what is held.** -/
theorem Holds.call {L : Held} (h : c.Holds L) {e : Env} {f : Call} (hw : c.Whole e f)
    (ho : Owned L f) : (c.call e f).Holds (c.held e L f) := by
  have hsame : ∀ c' : Cfg, c'.id = c.id → c'.dir = c.dir →
      (∃ l r, c'.m = { c.m with limit := l, reserved := r }) → c'.Holds L := by
    rintro c' hid hd ⟨l, r, hm⟩
    exact h.quiet (quiet_of_used h.frames h.ok hid hd ⟨_, _, _, hm⟩) (by rw [hm])
  cases f with
  | alloc size => exact h.allocL size e
  | free a =>
    show (c.umemFree a e).Holds (match L a with
      | some (_, false) => Function.update L a none
      | _ => L)
    by_cases hown : ∃ n, L a = some (n, false)
    · obtain ⟨n, ha⟩ := hown
      have hlive : c.sizeL a ≠ 0 := (h.live a).mpr (by rw [ha]; simp)
      have hpin := (h.long a n false ha).2
      have h0 : a ≠ 0 := by
        rintro rfl
        exact hlive (sizeL_zero h.frames)
      rw [ha]
      unfold umemFree
      rw [if_neg h0, hpin, if_neg Bool.false_ne_true]
      refine h.taken (freeL_live h.frames h.ok hlive hpin fun hr => ?_)
      exact hw ⟨h0, hpin, hr⟩ a rfl
    · rw [not_exists] at hown
      rw [h.umemFree_same hown]
      cases hl : L a with
      | none => exact h
      | some q =>
        obtain ⟨n, y⟩ := q
        cases y with
        | false => exact absurd hl (hown n)
        | true => exact h
  | realloc a size =>
    show (c.umemRealloc a size e).1.Holds (c.held e L (.realloc a size))
    unfold held
    dsimp only
    by_cases h0 : a = 0
    · rw [if_pos h0]
      have hdef : c.umemRealloc a size e = c.allocL size e := by
        unfold Cfg.umemRealloc reallocL
        rw [if_neg (by simp [h0]), if_pos h0]
      rw [hdef]
      exact h.allocL size e
    rw [if_neg h0]
    by_cases hown : ∃ n, L a = some (n, false)
    · obtain ⟨n, ha⟩ := hown
      rw [ha]
      exact h.umemRealloc ha hw
    · rw [not_exists] at hown
      rw [h.umemRealloc_same h0 hown]
      cases hl : L a with
      | none => exact h
      | some q =>
        obtain ⟨n, y⟩ := q
        cases y with
        | false => exact absurd hl (hown n)
        | true => exact h
  | allocPages total =>
    show (c.umemAllocPages total e).1.Holds (give L total true (c.umemAllocPages total e).2)
    unfold umemAllocPages
    have ho := allocL_outcome h.frames h.ok (if total < small + 1 then small + 1 else total) e
    obtain ⟨hle, hne⟩ := le_need (if total < small + 1 then small + 1 else total)
    have hsize : total ≤ (if total < small + 1 then small + 1 else total) ∧
        small < (if total < small + 1 then small + 1 else total) := by
      split_ifs <;> omega
    generalize (if total < small + 1 then small + 1 else total) = z at *
    cases hr : c.allocL z e with
    | mk c' r =>
      rw [hr] at ho
      cases r with
      | none => exact h.quiet ho.1 ho.2
      | some p =>
        have hg : Given c c' p (need z) := ho
        have hh := h.given hg hne (hsize.1.trans hle)
        have := hh.setPin (Function.update_self _ _ _) true fun _ => by
          rw [hg.self]
          omega
        rw [Function.update_idem] at this
        exact this
  | freePages a =>
    obtain ⟨n, ha⟩ := ho
    show ((c.setPin a false).freeL a e).Holds (Function.update L a none)
    have hlive : c.sizeL a ≠ 0 := (h.live a).mpr (by rw [ha]; simp)
    have hh := h.setPin ha false fun hx => absurd hx Bool.false_ne_true
    have hlive' : (c.setPin a false).sizeL a ≠ 0 := by
      rw [sizeL_setPin]
      exact hlive
    have hpin' := (hh.long a n false (Function.update_self _ _ _)).2
    have := hh.taken (freeL_live hh.frames hh.ok hlive' hpin' fun hr k hk => by
      rw [sizeL_setPin] at hk
      exact hw (row_setPin hr) a rfl k hk)
    rw [Function.update_idem] at this
    exact this
  | vmCharge bytes =>
    show (c.umemVmCharge bytes e.heapFree).1.Holds L
    unfold umemVmCharge
    split_ifs
    · exact h
    · exact h
    · dsimp only
      split_ifs
      · exact hsame _ rfl rfl ⟨_, _, rfl⟩
      · exact hsame _ rfl rfl ⟨_, _, rfl⟩
  | vmUncharge bytes =>
    show (c.umemVmUncharge bytes).Holds L
    unfold umemVmUncharge
    split_ifs
    · exact h
    · exact hsame _ rfl rfl ⟨_, _, rfl⟩
  | limit bytes =>
    show (c.umemLimit bytes e.heapFree).1.Holds L
    unfold umemLimit
    split_ifs
    · exact h
    · dsimp only
      split_ifs
      · have hall := poolAll_eq c.m.chunks { c.m with limit := bytes }
        refine h.quiet (quiet_of_accounts h.frames h.ok rfl rfl ?_ ?_ ?_ ?_ ?_ fun k =>
          ⟨decide (k ∈ c.m.chunks) || (c.m.chunk k).pooled, ?_⟩) ?_
        all_goals rw [hall]
      · exact hsame _ rfl rfl ⟨_, _, rfl⟩

end Cfg

/-! ## All memories -/

namespace Cfg

variable {c : Cfg}

/-- What a memory holds does not hang on the frames of the others. -/
theorem Holds.reframe {L : Held} (h : c.Holds L) {c' : Cfg} (hm : c'.m = c.m) (hf : c'.Frames) :
    c'.Holds L := by
  have hof : ∀ a, c'.chunkOf a = c.chunkOf a := by
    intro a
    ext k
    rw [hf.chunkOf_eq_some, h.frames.chunkOf_eq_some, hm]
  have hs : ∀ a, c'.sizeL a = c.sizeL a := by
    intro a
    unfold sizeL
    rw [hof, hm]
  have hp : ∀ a, c'.pinned a = c.pinned a := by
    intro a
    unfold pinned
    rw [hof, hm]
  refine h.quiet ⟨hf, ?_, hs, fun a _ => hp a⟩ (by rw [hm])
  rw [hm]
  exact h.ok

theorem holds_new {s : Sys} {id : ℕ} (hf : (s.cfg id umemCreate).Frames) :
    (s.cfg id umemCreate).Holds fun _ => none := by
  have hz : ∀ a, (s.cfg id umemCreate).sizeL a = 0 := by
    intro a
    by_contra hx
    obtain ⟨k, hk⟩ := exists_chunk hx
    exact absurd (hf.chunkOf_eq_some.mp hk).1 List.not_mem_nil
  refine ⟨hf, ?_, fun a => by simp [hz], fun a n p ha => absurd ha (by simp), ?_⟩
  · exact ⟨fun _ hk => absurd hk List.not_mem_nil, fun _ hk => absurd hk List.not_mem_nil,
      fun _ hk => absurd hk List.not_mem_nil, fun _ hk => absurd hk List.not_mem_nil,
      fun _ hk => absurd hk List.not_mem_nil, fun _ hk => absurd hk List.not_mem_nil,
      fun _ _ hk => absurd hk List.not_mem_nil, fun _ => List.nodup_nil, List.nodup_nil⟩
  · have ht : (s.cfg id umemCreate).total = 0 := Finset.sum_eq_zero fun a _ => hz a
    rw [ht]
    rfl

end Cfg

namespace Sys

open Cfg (Held)

/-- What the system can come to in any run, with what is held of each memory.  `ok` is what holds at
each call. -/
inductive Run (ok : Cfg → Env → Call → Prop) : Sys → (ℕ → Held) → Prop
  | boot : Run ok boot fun _ _ => none
  | create {s : Sys} {L : ℕ → Held} {id : ℕ} (h : Run ok s L) (hid : s.mem id = none) :
      Run ok (s.create id) L
  | call {s : Sys} {L : ℕ → Held} {id : ℕ} {m : Mem} {e : Env} {f : Call} (h : Run ok s L)
      (hid : s.mem id = some m) (ho : Cfg.Owned (L id) f) (hok : ok (s.cfg id m) e f) :
      Run ok (s.call id e f) (Function.update L id ((s.cfg id m).held e (L id) f))
  | destroy {s : Sys} {L : ℕ → Held} {id : ℕ} (h : Run ok s L) :
      Run ok (s.destroy id) (Function.update L id fun _ => none)

variable {s : Sys} {L : ℕ → Held}

/-- Every memory agrees with what is held of it. -/
structure Agrees (s : Sys) (L : ℕ → Held) : Prop extends s.Framed where
  holds : ∀ id m, s.mem id = some m → (s.cfg id m).Holds (L id)
  none_held : ∀ id, s.mem id = none → L id = fun _ => none

theorem Agrees.create (h : s.Agrees L) {id : ℕ} (hid : s.mem id = none) :
    (s.create id).Agrees L := by
  have hself : (s.create id).mem id = some umemCreate := Function.update_self _ _ _
  have hother : ∀ i, i ≠ id → (s.create id).mem i = s.mem i := fun i hi =>
    Function.update_of_ne hi _ _
  have hfr := h.toFramed.create hid
  refine ⟨hfr, fun i m hi => ?_, fun i hi => ?_⟩
  · have hf := hfr.frames i m hi
    rcases eq_or_ne i id with rfl | hne
    · rw [hself] at hi
      obtain rfl := Option.some.inj hi
      rw [h.none_held i hid]
      exact Cfg.holds_new hf
    · rw [hother i hne] at hi
      exact (h.holds i m hi).reframe rfl hf
  · have hne : i ≠ id := by
      rintro rfl
      rw [hself] at hi
      exact absurd hi (by simp)
    rw [hother i hne] at hi
    exact h.none_held i hi

theorem Agrees.call (h : s.Agrees L) {id : ℕ} {m : Mem} {e : Env} {f : Call}
    (hid : s.mem id = some m) (ho : Cfg.Owned (L id) f) (hw : (s.cfg id m).Whole e f) :
    (s.call id e f).Agrees (Function.update L id ((s.cfg id m).held e (L id) f)) := by
  have hh := (h.holds id m hid).call hw ho
  have hfr := h.toFramed.call hid e f
  obtain ⟨hself, hother, hcfg, -⟩ := h.toFramed.call_mem hid e f
  refine ⟨hfr, fun i m' hi => ?_, fun i hi => ?_⟩
  · have hf := hfr.frames i m' hi
    rcases eq_or_ne i id with rfl | hne
    · rw [hself] at hi
      obtain rfl := Option.some.inj hi
      rw [Function.update_self, hcfg]
      exact hh
    · rw [hother i hne] at hi
      rw [Function.update_of_ne hne]
      exact (h.holds i m' hi).reframe rfl hf
  · have hne : i ≠ id := by
      rintro rfl
      rw [hself] at hi
      exact absurd hi (by simp)
    rw [hother i hne] at hi
    rw [Function.update_of_ne hne]
    exact h.none_held i hi

theorem Agrees.destroy (h : s.Agrees L) (id : ℕ) :
    (s.destroy id).Agrees (Function.update L id fun _ => none) := by
  have hfr := h.toFramed.destroy id
  have hmem : (s.destroy id).mem = Function.update s.mem id none := by
    unfold Sys.destroy
    cases hid : s.mem id with
    | none => exact (Function.update_eq_self_iff.mpr hid.symm).symm
    | some m => rfl
  have hother : ∀ i, i ≠ id → (s.destroy id).mem i = s.mem i := by
    intro i hi
    rw [hmem, Function.update_of_ne hi]
  refine ⟨hfr, fun i m hi => ?_, fun i hi => ?_⟩
  · have hf := hfr.frames i m hi
    have hne : i ≠ id := by
      rintro rfl
      rw [hmem, Function.update_self] at hi
      exact absurd hi (by simp)
    rw [hother i hne] at hi
    rw [Function.update_of_ne hne]
    exact (h.holds i m hi).reframe rfl hf
  · rcases eq_or_ne i id with rfl | hne
    · rw [Function.update_self]
    · rw [hother i hne] at hi
      rw [Function.update_of_ne hne]
      exact h.none_held i hi

theorem Run.agrees (h : Run Cfg.Whole s L) : s.Agrees L := by
  induction h with
  | boot =>
    exact ⟨framed_boot, fun i m hi => absurd hi (by simp [Sys.boot]), fun _ _ => rfl⟩
  | create h hid ih => exact ih.create hid
  | call h hid ho hok ih => exact ih.call hid ho hok
  | destroy h ih => exact ih.destroy _

/-- **The allocator of a memory, in every run** in which each row that is split has memory for its
blocks.  A block that is held lies in one block of the memory and is as long as was asked for; no two
overlap; no other address has a size; `m->used` is the sum of their sizes exactly while that is less
than `2 ^ 32`; and a free (or a realloc) of an address that is not the start of a block the app holds
changes nothing. -/
theorem Run.allocator (h : Run Cfg.Whole s L) {id : ℕ} {m : Mem} (hid : s.mem id = some m) :
    (∀ a n p, L id a = some (n, p) → n ≤ (s.cfg id m).sizeL a ∧ 0 < (s.cfg id m).sizeL a ∧
      (s.cfg id m).pinned a = p ∧
      ∃ k ∈ m.chunks, ∀ x, a ≤ x → x < a + (s.cfg id m).sizeL a →
        (s.cfg id m).chunkOf x = some k) ∧
    (∀ a b, L id a ≠ none → L id b ≠ none → a < b → a + (s.cfg id m).sizeL a ≤ b) ∧
    (∀ a, L id a = none → (s.cfg id m).sizeL a = 0) ∧
    (m.used = (s.cfg id m).total ↔ (s.cfg id m).total < 2 ^ 32) ∧
    (∀ a e, (∀ n, L id a ≠ some (n, false)) → (s.cfg id m).umemFree a e = s.cfg id m ∧
      ∀ size, a ≠ 0 → (s.cfg id m).umemRealloc a size e = (s.cfg id m, none)) := by
  have hh := h.agrees.holds id m hid
  have hlive : ∀ a, L id a ≠ none → (s.cfg id m).sizeL a ≠ 0 := fun a ha => (hh.live a).mpr ha
  refine ⟨fun a n p ha => ?_, fun a b ha hb hab => ?_, fun a ha => ?_, ?_, fun a e ha => ?_⟩
  · have hne := hlive a (by rw [ha]; simp)
    obtain ⟨h1, h2⟩ := hh.long a n p ha
    obtain ⟨k, hk⟩ := Cfg.sizeL_inside hh.frames hh.ok hne
    have hka := hk a le_rfl (by omega)
    exact ⟨h1, Nat.pos_of_ne_zero hne, h2, k, (hh.frames.chunkOf_eq_some.mp hka).1, hk⟩
  · exact Cfg.sizeL_apart hh.frames hh.ok (hlive a ha) (hlive b hb) hab
  · by_contra hx
    exact (hh.live a).mp hx ha
  · have hu : m.used = (s.cfg id m).total % 2 ^ 32 := hh.used
    generalize (s.cfg id m).total = t at hu
    omega
  · exact ⟨hh.umemFree_same ha e, fun size h0 => hh.umemRealloc_same h0 ha size e⟩

/-- A memory with a block of `size` bytes. -/
def oneBlock (size : ℕ) : Sys := (boot.create 0).call 0 plenty (.alloc size)

theorem oneBlock_run {ok : Cfg → Env → Call → Prop} {size : ℕ}
    (hok : ok ((boot.create 0).cfg 0 umemCreate) plenty (.alloc size)) :
    Run ok (oneBlock size) (Function.update (fun _ _ => none) 0
      (((boot.create 0).cfg 0 umemCreate).held plenty (fun _ => none) (.alloc size))) := by
  have h0 : Run ok boot fun _ _ => none := Run.boot
  have h1 : Run ok (boot.create 0) fun _ _ => none := h0.create rfl
  exact h1.call rfl trivial hok

/-- A piece of 100 bytes: a free of an address inside it changes nothing. -/
theorem allocator_piece : ∃ m, (oneBlock 100).mem 0 = some m ∧
    ((oneBlock 100).cfg 0 m).sizeL (2048 * block) = 128 ∧
    ((oneBlock 100).cfg 0 m).umemFree (2048 * block + 16) plenty = (oneBlock 100).cfg 0 m := by
  have hrun : Run Cfg.Whole (oneBlock 100) _ := oneBlock_run fun hx => absurd hx not_false
  refine ⟨_, rfl, by decide +kernel, ((hrun.allocator rfl).2.2.2.2 (2048 * block + 16) plenty ?_).1⟩
  intro n
  have hnone : Function.update (fun _ _ => none) 0 (((boot.create 0).cfg 0 umemCreate).held plenty
      (fun _ => none) (.alloc 100)) 0 (2048 * block + 16) = (none : Option (ℕ × Bool)) := by
    decide +kernel
  rw [hnone]
  simp

/-- There is no memory for the blocks of a row that is split. -/
def scarce : Env := { plenty with splitMem := fun _ => false }

/-- A row of two blocks is freed while there is no memory to split it: the address is held no more,
and a second free of it still takes 4 MiB off the count. -/
theorem allocator_scarce : ∃ s L m, Run (fun _ _ _ => True) s L ∧ s.mem 0 = some m ∧
    L 0 (2048 * block) = none ∧ m.used = 0 ∧ (s.cfg 0 m).sizeL (2048 * block) = 0x400000 ∧
    ((s.cfg 0 m).umemFree (2048 * block) plenty).m.used = 2 ^ 32 - 0x400000 := by
  have h1 : Run (fun _ _ _ => True) (oneBlock 0x300000) _ := oneBlock_run trivial
  have h2 : Run (fun _ _ _ => True) ((oneBlock 0x300000).call 0 scarce (.free (2048 * block))) _ :=
    h1.call rfl trivial trivial
  refine ⟨_, _, _, h2, rfl, ?_, by decide +kernel, by decide +kernel, by decide +kernel⟩
  decide +kernel

end Sys

end BananaOS.Umem
