import BananaOS.Umem.Pool
import BananaOS.Umem.Tables

/-!
# What a call does to the blocks in use

`size_l` is the view of a memory that the rest of the kernel has: an address, and the size of the
block in use that starts there.  Here every function of the allocator is given by what it does to
that view: an allocation sets the size of one address that had none (`Sized`), a free clears the
size of the address it is given, and everything else leaves the view as it was (`Quiet`).
-/

namespace BananaOS.Umem.Cfg

variable {c : Cfg}

@[simp] theorem addUsed_used (n : ℕ) : (c.addUsed n).m.used = add32 c.m.used n := rfl

@[simp] theorem subUsed_used (n : ℕ) : (c.subUsed n).m.used = sub32 c.m.used n := rfl

@[simp] theorem setChunk_used (k : ℕ) (ch : Chunk) : (c.setChunk k ch).m.used = c.m.used := rfl

@[simp] theorem setChunk_chunks (k : ℕ) (ch : Chunk) : (c.setChunk k ch).m.chunks = c.m.chunks :=
  rfl

@[simp] theorem subUsed_chunk (n : ℕ) : (c.subUsed n).m.chunk = c.m.chunk := rfl

@[simp] theorem subUsed_chunks (n : ℕ) : (c.subUsed n).m.chunks = c.m.chunks := rfl

@[simp] theorem chunkOf_subUsed (n a : ℕ) : (c.subUsed n).chunkOf a = c.chunkOf a := rfl

/-! ## The view -/

/-- The tables are in order, and no block in use is different. -/
structure Quiet (c c' : Cfg) : Prop where
  frames : c'.Frames
  ok : c'.m.Ok
  size : ∀ a, c'.sizeL a = c.sizeL a
  pins : ∀ a, c.sizeL a ≠ 0 → c'.pinned a = c.pinned a

/-- The tables are in order, the block at `p` has the size `n`, and no other is different. -/
structure Sized (c c' : Cfg) (p n : ℕ) : Prop where
  frames : c'.Frames
  ok : c'.m.Ok
  self : c'.sizeL p = n
  size : ∀ a, a ≠ p → c'.sizeL a = c.sizeL a
  pins : ∀ a, a ≠ p → c.sizeL a ≠ 0 → c'.pinned a = c.pinned a

theorem Quiet.refl (hf : c.Frames) (h : c.m.Ok) : Quiet c c := ⟨hf, h, fun _ => rfl, fun _ _ => rfl⟩

theorem Quiet.trans {a b c : Cfg} (h : Quiet a b) (h' : Quiet b c) : Quiet a c :=
  ⟨h'.frames, h'.ok, fun x => (h'.size x).trans (h.size x), fun x hx =>
    (h'.pins x (by rw [h.size]; exact hx)).trans (h.pins x hx)⟩

theorem Quiet.sized {a b c : Cfg} {p n : ℕ} (h : Quiet a b) (h' : Sized b c p n) :
    Sized a c p n :=
  ⟨h'.frames, h'.ok, h'.self, fun x hx => (h'.size x hx).trans (h.size x), fun x hx hs =>
    (h'.pins x hx (by rw [h.size]; exact hs)).trans (h.pins x hs)⟩

theorem Sized.quiet {a b c : Cfg} {p n : ℕ} (h : Sized a b p n) (h' : Quiet b c) :
    Sized a c p n :=
  ⟨h'.frames, h'.ok, (h'.size p).trans h.self, fun x hx => (h'.size x).trans (h.size x hx),
    fun x hx hs => (h'.pins x (by rw [h.size x hx]; exact hs)).trans (h.pins x hx hs)⟩

theorem Sized.sized {a b c : Cfg} {p n n' : ℕ} (h : Sized a b p n) (h' : Sized b c p n') :
    Sized a c p n' :=
  ⟨h'.frames, h'.ok, h'.self, fun x hx => (h'.size x hx).trans (h.size x hx), fun x hx hs =>
    (h'.pins x hx (by rw [h.size x hx]; exact hs)).trans (h.pins x hx hs)⟩

theorem Sized.to_quiet {a b : Cfg} {p n : ℕ} (h : Sized a b p n) (hn : a.sizeL p = n)
    (h0 : n = 0) : Quiet a b := by
  refine ⟨h.frames, h.ok, fun x => ?_, fun x hs => ?_⟩
  · rcases eq_or_ne x p with rfl | hx
    · rw [h.self, hn]
    · exact h.size x hx
  · refine h.pins x ?_ hs
    rintro rfl
    exact hs (hn.trans h0)

/-- The accounts are not looked at: neither the counts nor the marks of the pool. -/
theorem quiet_of_accounts {c' : Cfg} (hf : c.Frames) (h : c.m.Ok) (hid : c'.id = c.id)
    (hd : c'.dir = c.dir) (hc : c'.m.chunks = c.m.chunks) (hp : c'.m.partials = c.m.partials)
    (hss : c'.m.slabs = c.m.slabs) (hsl : c'.m.slab = c.m.slab) (hn : c'.m.next = c.m.next)
    (hch : ∀ k, ∃ b, c'.m.chunk k = { c.m.chunk k with pooled := b }) : Quiet c c' := by
  have hof : ∀ a, c'.chunkOf a = c.chunkOf a := by
    intro a
    unfold chunkOf
    rw [hid, hd]
  have hhome : ∀ s k i, c.m.Home s k i → c'.m.Home s k i := by
    intro s k i hh
    obtain ⟨b, hb⟩ := hch k
    refine ⟨by rw [hc]; exact hh.mem, ?_, ?_, ?_⟩
    · rw [hsl, hb]
      exact hh.base
    · rw [hsl, hb]
      exact hh.run
    · rw [hsl, hb]
      exact hh.slab
  refine ⟨hf.frame hid hd hc hn.ge fun k _ => ?_, ?_, fun a => ?_, fun a _ => ?_⟩
  · obtain ⟨b, hb⟩ := hch k
    rw [hb]
    exact ⟨rfl, rfl⟩
  · refine ⟨fun k hk => ?_, ?_, ?_, fun s hs => ?_, fun k hk j s hj => ?_, ?_, ?_, ?_, ?_⟩
    · obtain ⟨b, hb⟩ := hch k
      rw [hc] at hk
      have hok := h.chunk k hk
      rw [hb]
      exact ⟨hok.inside, hok.used, hok.apart, hok.plain, hok.broken, hok.pin⟩
    · rw [hss, hsl]
      exact h.slab
    · rw [hss, hn]
      exact h.fresh
    · rw [hss] at hs
      obtain ⟨k, i, hh⟩ := h.home s hs
      exact ⟨k, i, hhome s k i hh⟩
    · obtain ⟨b, hb⟩ := hch k
      rw [hc] at hk
      rw [hb] at hj
      obtain ⟨hs, i, hh, h1⟩ := h.page k hk j s hj
      rw [hss, hsl]
      exact ⟨hs, i, hhome s k i hh, h1⟩
    · rw [hss, hsl, hp]
      exact h.listed
    · rw [hss, hsl, hp]
      exact h.partials
    · rw [hp]
      exact h.nodup
    · rw [hss]
      exact h.slabs
  · unfold sizeL
    rw [hof, hsl]
    cases c.chunkOf a with
    | none => rfl
    | some k =>
      obtain ⟨b, hb⟩ := hch k
      dsimp only
      rw [hb]
      rfl
  · unfold pinned
    rw [hof]
    cases c.chunkOf a with
    | none => rfl
    | some k =>
      obtain ⟨b, hb⟩ := hch k
      dsimp only
      rw [hb]

theorem quiet_of_used {c' : Cfg} (hf : c.Frames) (h : c.m.Ok) (hid : c'.id = c.id)
    (hd : c'.dir = c.dir) (hm : ∃ u l r, c'.m = { c.m with used := u, limit := l, reserved := r }) :
    Quiet c c' := by
  obtain ⟨u, l, r, hm⟩ := hm
  exact quiet_of_accounts hf h hid hd (by rw [hm]) (by rw [hm]) (by rw [hm]) (by rw [hm])
    (by rw [hm]) fun k => ⟨(c.m.chunk k).pooled, by rw [hm]⟩

theorem quiet_addUsed (hf : c.Frames) (h : c.m.Ok) (n : ℕ) : Quiet c (c.addUsed n) :=
  quiet_of_used hf h rfl rfl ⟨_, _, _, rfl⟩

theorem quiet_subUsed (hf : c.Frames) (h : c.m.Ok) (n : ℕ) : Quiet c (c.subUsed n) :=
  quiet_of_used hf h rfl rfl ⟨_, _, _, rfl⟩

theorem pinned_of {a k : ℕ} (hk : c.chunkOf a = some k) :
    c.pinned a = if 1 < (c.m.chunk k).nframes then (c.m.chunk k).pinned
      else (c.m.chunk k).pin (pageOf a) := by
  unfold pinned
  rw [hk]

/-! ## New blocks -/

theorem sizeAt_empty {slab : ℕ → Slab} {ch : Chunk} (hb : ch.broken = true ∨ ch.bigUsed = false)
    (hr : ∀ i, ch.run i = 0) (hs : ∀ i, ch.slab i = none) (a : ℕ) : sizeAt slab ch a = 0 := by
  unfold sizeAt
  rw [hs, hr]
  split_ifs with h1 h2 h3
  · rfl
  · rcases hb with hx | hx
    · exact absurd hx h1
    · rw [hx] at h3
      exact absurd h3.2 Bool.false_ne_true
  · rfl
  · rfl
  · exact Nat.zero_mul page

theorem sizeL_same {c' : Cfg} (hf : c.Frames) (hf' : c'.Frames) (hs : c'.m.slab = c.m.slab)
    {a k : ℕ} (hk : c.chunkOf a = some k) (hm : k ∈ c'.m.chunks)
    (hc : c'.m.chunk k = c.m.chunk k) :
    c'.chunkOf a = some k ∧ c'.sizeL a = c.sizeL a ∧ c'.pinned a = c.pinned a := by
  have hk' : c'.chunkOf a = some k := by
    refine hf'.chunkOf_eq_some.mpr ⟨hm, ?_⟩
    rw [hc]
    exact (hf.chunkOf_eq_some.mp hk).2
  refine ⟨hk', ?_, ?_⟩
  · rw [sizeL_of hk, sizeL_of hk', hc, hs]
  · rw [pinned_of hk, pinned_of hk', hc]

/-- Blocks come with nothing in use on them, and what has the block at `a` stays. -/
theorem sizeL_rechunk {c' : Cfg} (hf : c.Frames) (hf' : c'.Frames) (hs : c'.m.slab = c.m.slab)
    (hnew : ∀ k ∈ c'.m.chunks, k ∈ c.m.chunks ∧ c'.m.chunk k = c.m.chunk k ∨
      ∀ a, sizeAt c.m.slab (c'.m.chunk k) a = 0) {a : ℕ}
    (hkeep : ∀ k, c.chunkOf a = some k → c.sizeL a ≠ 0 →
      k ∈ c'.m.chunks ∧ c'.m.chunk k = c.m.chunk k) :
    c'.sizeL a = c.sizeL a ∧ (c.sizeL a ≠ 0 → c'.pinned a = c.pinned a) := by
  by_cases ha : c.sizeL a = 0
  · refine ⟨?_, fun hx => absurd ha hx⟩
    cases hk' : c'.chunkOf a with
    | none => rw [sizeL_of_none hk', ha]
    | some k =>
      obtain ⟨hm, hhas⟩ := hf'.chunkOf_eq_some.mp hk'
      rcases hnew k hm with ⟨hold, heq⟩ | hzero
      · have hk : c.chunkOf a = some k := by
          refine hf.chunkOf_eq_some.mpr ⟨hold, ?_⟩
          rw [← heq]
          exact hhas
        exact (sizeL_same hf hf' hs hk hm heq).2.1
      · rw [sizeL_of hk', hs, hzero, ha]
  · obtain ⟨k, hk⟩ := exists_chunk ha
    obtain ⟨hm, heq⟩ := hkeep k hk ha
    obtain ⟨-, h1, h2⟩ := sizeL_same hf hf' hs hk hm heq
    exact ⟨h1, fun _ => h2⟩

/-- A new row is quiet: it has nothing in use on it yet. -/
theorem quiet_newChunk (hf : c.Frames) (h : c.m.Ok) (n : ℕ) (e : Env) :
    Quiet c (c.newChunk n e).1 := by
  rcases newChunk_cases c n e with ⟨p, heq, -⟩ | ⟨b, p, hn0, -, hroom, htop, -, heq⟩
  · rw [heq]
    exact quiet_of_used hf h rfl rfl ⟨_, _, _, rfl⟩
  · rw [heq]
    dsimp only
    have hf' := hf.added (e := e) hn0 hroom htop p
    have hold : ∀ k ∈ c.m.chunks, (c.added n b e p).m.chunk k = c.m.chunk k := fun k hk =>
      Function.update_of_ne (hf.fresh k hk).ne _ _
    have hself : (c.added n b e p).m.chunk c.m.next = c.made n b e := Function.update_self _ _ _
    have hview : ∀ a, (c.added n b e p).sizeL a = c.sizeL a ∧
        (c.sizeL a ≠ 0 → (c.added n b e p).pinned a = c.pinned a) := by
      intro a
      refine sizeL_rechunk hf hf' rfl (fun k hk => ?_) fun k hk _ => ?_
      · rcases List.mem_cons.mp hk with rfl | hk
        · right
          rw [hself]
          refine sizeAt_empty ?_ ?_ (made_ok c n b e).2
          · unfold made
            split_ifs
            · exact Or.inr rfl
            · exact Or.inl rfl
          · intro i
            unfold made
            split_ifs <;> rfl
        · exact Or.inl ⟨hk, hold k hk⟩
      · have hm := (hf.chunkOf_eq_some.mp hk).1
        exact ⟨List.mem_cons_of_mem _ hm, hold k hm⟩
    exact ⟨hf', ok_added hf h n b e p, fun a => (hview a).1, fun a => (hview a).2⟩

theorem newChunk_same (c : Cfg) (n : ℕ) (e : Env) :
    (c.newChunk n e).1.m.used = c.m.used ∧ (c.newChunk n e).1.m.partials = c.m.partials := by
  rcases newChunk_cases c n e with ⟨p, heq, -⟩ | ⟨b, p, -, -, -, -, -, heq⟩
  · rw [heq]
    exact ⟨rfl, rfl⟩
  · rw [heq]
    exact ⟨rfl, rfl⟩

/-- The row that `new_chunk` gives. -/
theorem newChunk_some {n : ℕ} {e : Env} {c' : Cfg} {k : ℕ} (h : c.newChunk n e = (c', some k)) :
    k ∈ c'.m.chunks ∧ ∃ b p, c'.m.chunk k = Chunk.new b n p := by
  rcases newChunk_cases c n e with ⟨p, heq, -⟩ | ⟨b, p, hn0, -, hroom, htop, -, heq⟩
  · rw [heq] at h
    exact absurd (Prod.mk.inj h).2 (by simp)
  · rw [heq] at h
    obtain ⟨h1, h2⟩ := Prod.mk.inj h
    split_ifs at h2 with ho
    obtain rfl := Option.some.inj h2
    subst h1
    refine ⟨List.mem_cons_self, b, decide (c.m.limit ≠ 0), ?_⟩
    have : (c.added n b e p).m.chunk c.m.next = c.made n b e := Function.update_self _ _ _
    rw [this]
    unfold made
    rw [if_pos ho]

/-! ## A block changed -/

theorem chunkOf_setChunk (k : ℕ) (ch : Chunk) (a : ℕ) :
    (c.setChunk k ch).chunkOf a = c.chunkOf a := rfl

theorem sizeL_setChunk (k : ℕ) (ch : Chunk) (a : ℕ) : (c.setChunk k ch).sizeL a =
    if c.chunkOf a = some k then sizeAt c.m.slab ch a else c.sizeL a := by
  have hof : (c.setChunk k ch).chunkOf a = c.chunkOf a := rfl
  unfold sizeL
  rw [hof]
  cases hl : c.chunkOf a with
  | none => rfl
  | some l =>
    show sizeAt c.m.slab (Function.update c.m.chunk k ch l) a = _
    rcases eq_or_ne l k with rfl | hne
    · rw [Function.update_self, if_pos rfl]
    · rw [Function.update_of_ne hne, if_neg fun hx => hne (Option.some.inj hx)]

theorem pinned_setChunk {k : ℕ} {ch : Chunk} (hn : ch.nframes = (c.m.chunk k).nframes)
    (hp : ch.pinned = (c.m.chunk k).pinned) (hpin : ch.pin = (c.m.chunk k).pin) (a : ℕ) :
    (c.setChunk k ch).pinned a = c.pinned a := by
  have hof : (c.setChunk k ch).chunkOf a = c.chunkOf a := rfl
  unfold pinned
  rw [hof]
  cases hl : c.chunkOf a with
  | none => rfl
  | some l =>
    show (if 1 < (Function.update c.m.chunk k ch l).nframes then
      (Function.update c.m.chunk k ch l).pinned else
      (Function.update c.m.chunk k ch l).pin (pageOf a)) = _
    rcases eq_or_ne l k with rfl | hne
    · rw [Function.update_self, hn, hp, hpin]
    · rw [Function.update_of_ne hne]

theorem start_chunk (hf : c.Frames) {k i : ℕ} (hk : k ∈ c.m.chunks)
    (hn : (c.m.chunk k).nframes = 1) (hi : i < pages) :
    c.chunkOf ((c.m.chunk k).base + i * page) = some k := by
  refine hf.chunkOf_eq_some.mpr ⟨hk, ?_⟩
  unfold Chunk.Has Chunk.base
  rw [(addr_start (f := (c.m.chunk k).frame) hi).1]
  omega

/-- The run at one page of a block is taken, or freed. -/
theorem sized_run (hf : c.Frames) (h : c.m.Ok) {k i : ℕ} {ch : Chunk} (hk : k ∈ c.m.chunks)
    (hok : ch.Ok) (hn : (c.m.chunk k).nframes = 1) (hb : (c.m.chunk k).broken = false)
    (hi : i < pages) (hs : (c.m.chunk k).slab i = none) (hn' : ch.nframes = 1)
    (hb' : ch.broken = false) (hfr : ch.frame = (c.m.chunk k).frame)
    (hsl : ch.slab = (c.m.chunk k).slab) (hr : ∀ j, j ≠ i → ch.run j = (c.m.chunk k).run j)
    (hpn : ch.pinned = (c.m.chunk k).pinned) (hpin : ch.pin = (c.m.chunk k).pin) :
    Sized c (c.setChunk k ch) ((c.m.chunk k).base + i * page) (ch.run i * page) := by
  have hof := start_chunk hf hk hn hi
  have hst := addr_start (f := (c.m.chunk k).frame) hi
  have hpo : pageOf ((c.m.chunk k).base + i * page) = i := hst.2.1
  refine ⟨frames_setChunk hf k hfr (hn'.trans hn.symm), h.setChunk hok hfr hsl ?_, ?_, ?_,
    fun a _ _ => pinned_setChunk (hn'.trans hn.symm) hpn hpin a⟩
  · intro j s hj
    refine hr j ?_
    rintro rfl
    rw [hs] at hj
    exact absurd hj (by simp)
  · rw [sizeL_setChunk, if_pos hof, sizeAt_run hn' hb' (by rw [hpo, hsl]; exact hs), hpo]
    have hz : ((c.m.chunk k).base + i * page) % page = 0 := hst.2.2
    rw [hz]
    by_cases h0 : ch.run i = 0
    · rw [if_pos (Or.inr h0), h0, Nat.zero_mul]
    · rw [if_neg (by simp [h0])]
  · intro a ha
    rw [sizeL_setChunk]
    split_ifs with hka
    · rw [sizeL_of hka]
      cases hsa : (c.m.chunk k).slab (pageOf a) with
      | some s =>
        rw [sizeAt_piece hn' hb' (by rw [hsl]; exact hsa), sizeAt_piece hn hb hsa]
      | none =>
        rw [sizeAt_run hn' hb' (by rw [hsl]; exact hsa), sizeAt_run hn hb hsa]
        by_cases hpa : pageOf a = i
        · have hmod : a % page ≠ 0 := by
            intro hz
            have hadr := addr_eq a
            rw [hpa, hz, ← hf.frame_eq hka hn, Nat.add_zero] at hadr
            exact ha hadr
          rw [if_pos (Or.inl hmod), if_pos (Or.inl hmod)]
        · rw [hr _ hpa]
    · rfl

theorem clear_slab (h : c.m.Ok) {k i : ℕ} (hk : k ∈ c.m.chunks)
    (hu : (c.m.chunk k).used i = false) : (c.m.chunk k).slab i = none := by
  cases hs : (c.m.chunk k).slab i with
  | none => rfl
  | some s =>
    obtain ⟨hm, i', hh, h1, h2⟩ := h.page k hk i s hs
    have hrun := (home_plain h hm hh).1
    have := (h.chunk k hk).used i' i hrun h1 (by rw [hh.run]; exact h2)
    rw [hu] at this
    exact absurd this Bool.false_ne_true

/-- A run of pages that were not in use. -/
theorem sized_takeRun (hf : c.Frames) (h : c.m.Ok) {k i n : ℕ} (hk : k ∈ c.m.chunks)
    (hn : (c.m.chunk k).nframes = 1) (hb : (c.m.chunk k).broken = false) (h0 : 0 < n)
    (hle : i + n ≤ pages) (hfree : ∀ j, i ≤ j → j < i + n → (c.m.chunk k).used j = false) :
    Sized c (c.setChunk k ((c.m.chunk k).takeRun i n)) ((c.m.chunk k).base + i * page) (n * page) ∧
      c.sizeL ((c.m.chunk k).base + i * page) = 0 ∧
      (c.setChunk k ((c.m.chunk k).takeRun i n)).pinned ((c.m.chunk k).base + i * page) = false := by
  have hu := hfree i le_rfl (by omega)
  have hs := clear_slab h hk hu
  obtain ⟨hr0, hp0⟩ := (h.chunk k hk).clear hu
  have hof := start_chunk hf hk hn (show i < pages by omega)
  have hst := addr_start (f := (c.m.chunk k).frame) (show i < pages by omega)
  have hpo : pageOf ((c.m.chunk k).base + i * page) = i := hst.2.1
  refine ⟨?_, ?_, ?_⟩
  · have := sized_run hf h hk ((h.chunk k hk).takeRun hn hb h0 hle hfree) hn hb (by omega) hs hn hb
      rfl rfl (fun j hj => by rw [Chunk.takeRun_run, if_neg hj]) rfl rfl
    rw [Chunk.takeRun_run, if_pos rfl] at this
    exact this
  · rw [sizeL_of hof, sizeAt_run hn hb (by rw [hpo]; exact hs), hpo, if_pos (Or.inr hr0)]
  · rw [pinned_setChunk (by rfl) (by rfl) (by rfl), pinned_of hof, if_neg (by omega), hpo, hp0]

theorem findPages_some {n k i : ℕ} {l : List ℕ} (h : c.findPages n l = some (k, i)) :
    k ∈ l ∧ (c.m.chunk k).nframes = 1 ∧ n ≤ (c.m.chunk k).freePages ∧
      (c.m.chunk k).findRun n = some i := by
  induction l with
  | nil => simp [findPages] at h
  | cons a l ih =>
    unfold findPages at h
    by_cases hx : (c.m.chunk a).nframes ≠ 1 ∨ (c.m.chunk a).freePages < n
    · rw [if_pos hx] at h
      obtain ⟨h1, h2⟩ := ih h
      exact ⟨List.mem_cons_of_mem _ h1, h2⟩
    rw [if_neg hx] at h
    rw [not_or, not_not, not_lt] at hx
    cases hr : (c.m.chunk a).findRun n with
    | none =>
      rw [hr] at h
      obtain ⟨h1, h2⟩ := ih h
      exact ⟨List.mem_cons_of_mem _ h1, h2⟩
    | some j =>
      rw [hr] at h
      obtain ⟨rfl, rfl⟩ := Prod.mk.inj (Option.some.inj h)
      exact ⟨List.mem_cons_self, hx.1, hx.2, hr⟩

/-- `pages_alloc`: nothing, or a run of `n` pages of one block with nothing on them before. -/
theorem pagesAlloc_spec (hf : c.Frames) (h : c.m.Ok) {n : ℕ} (h0 : 0 < n) (hn : n ≤ pages)
    (e : Env) : (∃ c', c.pagesAlloc n e = (c', none) ∧ Quiet c c' ∧ c'.m.used = c.m.used) ∨
      ∃ c' k i, c'.m.used = c.m.used ∧ c'.m.partials = c.m.partials ∧ Quiet c c' ∧
        k ∈ c'.m.chunks ∧ (c'.m.chunk k).nframes = 1 ∧ (c'.m.chunk k).broken = false ∧
        i + n ≤ pages ∧ (∀ j, i ≤ j → j < i + n → (c'.m.chunk k).used j = false) ∧
        c.pagesAlloc n e = (c'.setChunk k ((c'.m.chunk k).takeRun i n),
          some ((c'.m.chunk k).base + i * page)) := by
  unfold pagesAlloc
  cases hp : c.findPages n c.m.chunks with
  | some p =>
    obtain ⟨k, i⟩ := p
    obtain ⟨hk, hn1, hfp, hrun⟩ := findPages_some hp
    obtain ⟨hle, hfree⟩ := Chunk.findRun_some hrun
    refine Or.inr ⟨c, k, i, rfl, rfl, Quiet.refl hf h, hk, hn1, ?_, hle, hfree, rfl⟩
    cases hb : (c.m.chunk k).broken with
    | false => rfl
    | true =>
      have := (h.chunk k hk).broken hb
      omega
  | none =>
    dsimp only
    have hq := quiet_newChunk hf h 1 e
    cases hr : c.newChunk 1 e with
    | mk c' r =>
      obtain ⟨hu, hpt⟩ := newChunk_same c 1 e
      rw [hr] at hq hu hpt
      cases r with
      | none => exact Or.inl ⟨c', rfl, hq, hu⟩
      | some k =>
        obtain ⟨hk, b, p, hch⟩ := newChunk_some hr
        refine Or.inr ⟨c', k, 0, hu, hpt, hq, hk, ?_, ?_, by omega, fun j _ _ => ?_, rfl⟩
        · rw [hch]
          rfl
        · rw [hch]
          rfl
        · rw [hch]
          rfl

/-! ## A slab changed -/

/-- The address of a piece is on the pages of its slab. -/
theorem piece_addr (hf : c.Frames) (h : c.m.Ok) {s k i j : ℕ} (hs : s ∈ c.m.slabs)
    (hh : c.m.Home s k i) (hj : j < (c.m.slab s).nobj) :
    c.chunkOf ((c.m.slab s).base + j * clsSize (c.m.slab s).cls) = some k ∧
      (c.m.chunk k).slab (pageOf ((c.m.slab s).base + j * clsSize (c.m.slab s).cls)) = some s := by
  obtain ⟨-, hin, hn, -⟩ := home_plain h hs hh
  have hle := (h.slab s hs).piece_le hj
  have hcls := clsSize_mem (h.slab s hs).cls
  generalize hoff : j * clsSize (c.m.slab s).cls = off at hle
  have hdm := Nat.div_add_mod off page
  have hlt : off / page < (c.m.slab s).pages :=
    (Nat.div_lt_iff_lt_mul (by decide)).mpr (by omega)
  have hadr : (c.m.slab s).base + off =
      (c.m.chunk k).frame * block + (i + off / page) * page + off % page := by
    rw [hh.base, Nat.add_mul]
    unfold Chunk.base
    rw [Nat.mul_comm] at hdm
    omega
  obtain ⟨h1, h2, -⟩ := addr_parts (f := (c.m.chunk k).frame) (i := i + off / page)
    (r := off % page) (by omega) (Nat.mod_lt _ (by decide))
  rw [hadr]
  refine ⟨hf.chunkOf_eq_some.mpr ⟨hh.mem, ?_⟩, ?_⟩
  · unfold Chunk.Has
    rw [h1]
    omega
  · rw [h2]
    exact hh.slab _ (Nat.le_add_right _ _) (by omega)

/-- One piece of a slab is taken, or comes back. -/
theorem sized_piece (hf : c.Frames) (h : c.m.Ok) {s j : ℕ} {sl : Slab} {b : Bool}
    (hs : s ∈ c.m.slabs)
    (hok : sl.Ok) (hb : sl.base = (c.m.slab s).base) (hp : sl.pages = (c.m.slab s).pages)
    (hc : sl.cls = (c.m.slab s).cls) (ho : sl.nobj = (c.m.slab s).nobj)
    (hl : sl.listed = (c.m.slab s).listed) (hj : j < sl.nobj)
    (hm : ∀ r, r ≠ j → sl.map r = (c.m.slab s).map r) (hmj : sl.map j = b) :
    Sized c (c.setSlab s sl) (sl.base + j * clsSize sl.cls)
      (if b then 0 else clsSize sl.cls) := by
  obtain ⟨k, i, hh⟩ := h.home s hs
  obtain ⟨-, hin, hn, hbr⟩ := home_plain h hs hh
  have hcls := clsSize_mem hok.cls
  have haddr := piece_addr hf h hs hh (ho ▸ hj)
  rw [← hb, ← hc] at haddr
  have hself : (c.setSlab s sl).m.slab s = sl := Function.update_self _ _ _
  refine ⟨hf.frame rfl rfl rfl le_rfl fun _ _ => ⟨rfl, rfl⟩, h.setSlab hok hb hp hc hl, ?_,
    fun a ha => ?_, fun a _ _ => rfl⟩
  · rw [sizeL_of (c := c.setSlab s sl) haddr.1]
    show sizeAt (c.setSlab s sl).m.slab (c.m.chunk k) _ = _
    rw [sizeAt_piece hn hbr haddr.2, hself]
    cases b with
    | true =>
      have : pieceAt sl (sl.base + j * clsSize sl.cls) = none := by
        cases hx : pieceAt sl (sl.base + j * clsSize sl.cls) with
        | none => rfl
        | some r =>
          obtain ⟨h1, -, h3⟩ := (pieceAt_eq_some (by omega) (Nat.le_add_right _ _)).mp hx
          have hrj : j = r := Nat.eq_of_mul_eq_mul_right (by omega) (Nat.add_left_cancel h1)
          rw [← hrj, hmj] at h3
          exact absurd h3 (by simp)
      rw [this]
      rfl
    | false =>
      have : pieceAt sl (sl.base + j * clsSize sl.cls) = some j :=
        (pieceAt_eq_some (by omega) (Nat.le_add_right _ _)).mpr ⟨rfl, hj, hmj⟩
      rw [this]
      rfl
  · cases hka : c.chunkOf a with
    | none => rw [sizeL_of_none hka, sizeL_of_none (c := c.setSlab s sl) hka]
    | some l =>
      rw [sizeL_of hka, sizeL_of (c := c.setSlab s sl) hka]
      show sizeAt (Function.update c.m.slab s sl) (c.m.chunk l) a = _
      by_cases hsa : (c.m.chunk l).slab (pageOf a) = some s
      · obtain ⟨hlm, -⟩ := hf.chunkOf_eq_some.mp hka
        obtain ⟨-, i', hh', h1, h2⟩ := h.page l hlm _ s hsa
        obtain ⟨-, -, hn', hbr'⟩ := home_plain h hs hh'
        rw [sizeAt_piece hn' hbr' hsa, sizeAt_piece hn' hbr' hsa, Function.update_self, hc]
        have hle : (c.m.slab s).base ≤ a := by
          have hadr := addr_eq a
          rw [← hf.frame_eq hka hn'] at hadr
          have := Nat.mul_le_mul_right page h1
          rw [hh'.base]
          unfold Chunk.base
          omega
        have hsame : pieceAt sl a = pieceAt (c.m.slab s) a := by
          ext r
          rw [pieceAt_eq_some (by omega) (by omega), pieceAt_eq_some (by rw [← hc]; omega) hle, hb, hc,
            ho]
          by_cases hrj : r = j
          · subst hrj
            rw [← hb, ← hc]
            exact ⟨fun hx => absurd hx.1 ha, fun hx => absurd hx.1 ha⟩
          · rw [hm r hrj]
        rw [hsame]
      · unfold sizeAt
        cases hsl : (c.m.chunk l).slab (pageOf a) with
        | none => rfl
        | some t =>
          have hts : t ≠ s := by
            rintro rfl
            exact hsa hsl
          dsimp only
          rw [Function.update_of_ne hts]

/-- The pieces of a slab that are free are the set bits of its map. -/
theorem card_free_update {sl : Slab} {j : ℕ} (hj : j < sl.nobj) (b : Bool)
    (hb : sl.map j = !b) :
    ((Finset.range sl.nobj).filter fun k => Function.update sl.map j b k = true).card +
      (if b then 0 else 1) = ((Finset.range sl.nobj).filter fun k => sl.map k = true).card +
      (if b then 1 else 0) := by
  cases b with
  | true =>
    have : ((Finset.range sl.nobj).filter fun k => Function.update sl.map j true k = true) =
        insert j ((Finset.range sl.nobj).filter fun k => sl.map k = true) := by
      ext k
      rcases eq_or_ne k j with rfl | hk
      · simp [hj]
      · simp [hk]
    rw [this, Finset.card_insert_of_notMem (by simp [hb])]
    rfl
  | false =>
    have : ((Finset.range sl.nobj).filter fun k => sl.map k = true) =
        insert j ((Finset.range sl.nobj).filter fun k => Function.update sl.map j false k = true) := by
      ext k
      rcases eq_or_ne k j with rfl | hk
      · simp [hj, hb]
      · simp [hk]
    rw [this, Finset.card_insert_of_notMem (by simp)]
    rfl

/-- The lists of slabs with room are not looked at. -/
theorem quiet_relist (hf : c.Frames) {s : ℕ} {p : ℕ → List ℕ} {b : Bool}
    (hok : ({ c.m with
      partials := p, slab := Function.update c.m.slab s { c.m.slab s with listed := b } } :
      Mem).Ok) :
    Quiet c { c with m := { c.m with
      partials := p, slab := Function.update c.m.slab s { c.m.slab s with listed := b } } } := by
  refine ⟨hf.frame rfl rfl rfl le_rfl fun _ _ => ⟨rfl, rfl⟩, hok, fun a => ?_, fun a _ => rfl⟩
  cases hka : c.chunkOf a with
  | none =>
    rw [sizeL_of_none hka]
    exact sizeL_of_none hka
  | some l =>
    rw [sizeL_of hka]
    refine Eq.trans (sizeL_of hka) ?_
    dsimp only
    unfold sizeAt
    cases (c.m.chunk l).slab (pageOf a) with
    | none => rfl
    | some t =>
      dsimp only
      rcases eq_or_ne t s with rfl | ht
      · rw [Function.update_self]
        rfl
      · rw [Function.update_of_ne ht]

theorem quiet_slabUnlist (hf : c.Frames) (h : c.m.Ok) {s : ℕ} (hs : s ∈ c.m.slabs) :
    Quiet c (c.slabUnlist s) := by
  have hok := ok_slabUnlist h hs
  rw [slabUnlist_eq h hs] at hok ⊢
  exact quiet_relist hf hok

theorem quiet_slabList (hf : c.Frames) (h : c.m.Ok) {s : ℕ} (hs : s ∈ c.m.slabs)
    (hl : (c.m.slab s).listed = false) : Quiet c (c.slabList s) :=
  quiet_relist hf (ok_slabList h hs hl)

theorem slabUnlist_used (s : ℕ) : (c.slabUnlist s).m.used = c.m.used := by
  unfold slabUnlist
  dsimp only
  split_ifs <;> rfl

/-- The pages of a slab have no pin. -/
theorem piece_unpinned (hf : c.Frames) (h : c.m.Ok) {s j : ℕ} (hs : s ∈ c.m.slabs)
    (hj : j < (c.m.slab s).nobj) :
    c.pinned ((c.m.slab s).base + j * clsSize (c.m.slab s).cls) = false := by
  obtain ⟨k, i, hh⟩ := h.home s hs
  obtain ⟨-, -, hn, -⟩ := home_plain h hs hh
  obtain ⟨h1, h2⟩ := piece_addr hf h hs hh hj
  rw [pinned_of h1, if_neg (by omega)]
  generalize pageOf ((c.m.slab s).base + j * clsSize (c.m.slab s).cls) = r at h2
  cases hp : (c.m.chunk k).pin r with
  | false => rfl
  | true =>
    rw [((h.chunk k hh.mem).pin r hp).2] at h2
    exact absurd h2 (by simp)

/-- What a call that gives an address does to the blocks in use. -/
structure Given (c c' : Cfg) (p n : ℕ) : Prop extends Sized c c' p n where
  free : c.sizeL p = 0
  used : c'.m.used = add32 c.m.used n
  unpinned : c'.pinned p = false

theorem takePiece_spec (hf : c.Frames) (h : c.m.Ok) {ci s : ℕ} (hs : s ∈ c.m.slabs)
    (hci : (c.m.slab s).cls = ci) : c.takePiece ci s = (c, none) ∨
      ∃ p, (c.takePiece ci s).2 = some p ∧ Given c (c.takePiece ci s).1 p (clsSize ci) := by
  subst hci
  unfold takePiece
  dsimp only
  cases hfind : (List.range 256).find? (c.m.slab s).map with
  | none => exact Or.inl rfl
  | some j =>
    right
    dsimp only
    have hmj := List.find?_some hfind
    have hj := (h.slab s hs).map j hmj
    have hcls := clsSize_mem (h.slab s hs).cls
    obtain ⟨k, i, hh⟩ := h.home s hs
    have hcard := card_free_update hj false hmj
    have hpos : 0 < ((Finset.range (c.m.slab s).nobj).filter
        fun k => (c.m.slab s).map k = true).card :=
      Finset.card_pos.mpr ⟨j, by simp [hj, hmj]⟩
    have hok : ({ c.m.slab s with
        map := Function.update (c.m.slab s).map j false
        nfree := (c.m.slab s).nfree - 1 } : Slab).Ok := by
      have hold := h.slab s hs
      refine ⟨hold.cls, hold.pages, hold.nobj, fun r hr => ?_, ?_⟩
      · rcases eq_or_ne r j with rfl | hrj
        · exact hj
        · refine hold.map r ?_
          have : Function.update (c.m.slab s).map j false r = true := hr
          rw [Function.update_of_ne hrj] at this
          exact this
      · have := hold.nfree
        dsimp only
        simp only [Bool.false_eq_true, if_false] at hcard
        omega
    have hsz := sized_piece (j := j) hf h hs hok rfl rfl rfl rfl rfl hj
      (fun r hr => Function.update_of_ne hr _ _) (Function.update_self _ _ _)
    rw [if_neg Bool.false_ne_true] at hsz
    have hmem' : s ∈ (c.setSlab s { c.m.slab s with
        map := Function.update (c.m.slab s).map j false
        nfree := (c.m.slab s).nfree - 1 }).m.slabs := hs
    have hfree : c.sizeL ((c.m.slab s).base + j * clsSize (c.m.slab s).cls) = 0 := by
      obtain ⟨h1, h2⟩ := piece_addr hf h hs hh hj
      obtain ⟨-, -, hn, hbr⟩ := home_plain h hs hh
      rw [sizeL_of h1, sizeAt_piece hn hbr h2]
      cases hp : pieceAt (c.m.slab s) ((c.m.slab s).base + j * clsSize (c.m.slab s).cls) with
      | none => rfl
      | some r =>
        obtain ⟨h3, -, h5⟩ := (pieceAt_eq_some (by omega) (Nat.le_add_right _ _)).mp hp
        have hrj : j = r := Nat.eq_of_mul_eq_mul_right (by omega) (Nat.add_left_cancel h3)
        rw [← hrj, hmj] at h5
        exact absurd h5 (by simp)
    have hpin := piece_unpinned hf h hs hj
    have hne : clsSize (c.m.slab s).cls ≠ 0 := by omega
    refine ⟨_, rfl, ?_⟩
    generalize hc1 : c.setSlab s { c.m.slab s with
        map := Function.update (c.m.slab s).map j false
        nfree := (c.m.slab s).nfree - 1 } = c1 at hsz hmem'
    have hused1 : c1.m.used = c.m.used := by rw [← hc1]; rfl
    have hpin1 : c1.pinned ((c.m.slab s).base + j * clsSize (c.m.slab s).cls) = false := by
      rw [← hc1]
      exact hpin
    split_ifs with hz
    · have hq := quiet_slabUnlist hsz.frames hsz.ok hmem'
      have hq2 := hq.trans (quiet_addUsed hq.frames hq.ok (clsSize (c.m.slab s).cls))
      refine ⟨hsz.quiet hq2, hfree, ?_, ?_⟩
      · show add32 (c1.slabUnlist s).m.used _ = _
        rw [slabUnlist_used, hused1]
      · rw [hq2.pins _ (by rw [hsz.self]; exact hne), hpin1]
    · have hq := quiet_addUsed hsz.frames hsz.ok (clsSize (c.m.slab s).cls)
      refine ⟨hsz.quiet hq, hfree, ?_, ?_⟩
      · show add32 c1.m.used _ = _
        rw [hused1]
      · rw [hq.pins _ (by rw [hsz.self]; exact hne), hpin1]

/-- A new slab has no piece in use. -/
theorem quiet_makeSlab (hf : c.Frames) (h : c.m.Ok) {ci k i : ℕ} (hci : ci < 17)
    (hk : k ∈ c.m.chunks) (hi : i + slabPages ci ≤ pages)
    (hrun : (c.m.chunk k).run i = slabPages ci)
    (hclear : ∀ j, i ≤ j → j < i + slabPages ci →
      (c.m.chunk k).slab j = none ∧ (c.m.chunk k).pin j = false ∧ (j ≠ i → (c.m.chunk k).run j = 0))
    (hp : c.m.partials ci = []) :
    Sized c (c.makeSlab ci (slabPages ci) ((c.m.chunk k).base + i * page) k)
      ((c.m.chunk k).base + i * page) 0 := by
  have hpos := slabPages_pos ci
  have hrun0 : (c.m.chunk k).run i ≠ 0 := by omega
  obtain ⟨hn, hbr⟩ := (h.chunk k hk).plain i hrun0
  have hpg : pageOf ((c.m.chunk k).base + i * page) = i :=
    (addr_start (f := (c.m.chunk k).frame) (show i < pages by omega)).2.1
  have hcls := clsSize_mem hci
  have hok := ok_makeSlab h hci hk hi hrun (fun j h1 h2 => ⟨(hclear j h1 h2).1, (hclear j h1 h2).2.1⟩)
    hp
  have hkept := kept_makeSlab (c := c) ci (slabPages ci) ((c.m.chunk k).base + i * page) k
  generalize hc' : c.makeSlab ci (slabPages ci) ((c.m.chunk k).base + i * page) k = c' at hok hkept
  have hof : ∀ a, c'.chunkOf a = c.chunkOf a := by
    intro a
    unfold chunkOf
    rw [hkept.id, hkept.dir]
  have hother : ∀ l, l ≠ k → c'.m.chunk l = c.m.chunk l := by
    intro l hl
    rw [← hc']
    exact Function.update_of_ne hl _ _
  have hself : c'.m.chunk k = { c.m.chunk k with
      slab := fun j => if i ≤ j ∧ j < i + slabPages ci then some c.m.next
        else (c.m.chunk k).slab j } := by
    rw [← hc']
    unfold makeSlab
    dsimp only
    rw [Function.update_self, hpg]
  have hslab : ∀ t, t ≠ c.m.next → c'.m.slab t = c.m.slab t := by
    intro t ht
    rw [← hc']
    exact Function.update_of_ne ht _ _
  have hnew : c'.m.slab c.m.next = ⟨(c.m.chunk k).base + i * page, ci,
      slabPages ci * page / clsSize ci, slabPages ci * page / clsSize ci, slabPages ci,
      fun j => decide (j < slabPages ci * page / clsSize ci), true⟩ := by
    rw [← hc']
    exact Function.update_self _ _ _
  -- on the new slab's pages nothing is in use
  have hin : ∀ a, c.chunkOf a = some k → i ≤ pageOf a → pageOf a < i + slabPages ci →
      c'.sizeL a = 0 := by
    intro a hka h1 h2
    have hsl : (c'.m.chunk k).slab (pageOf a) = some c.m.next := by
      rw [hself]
      exact if_pos ⟨h1, h2⟩
    rw [sizeL_of (c := c') ((hof a).trans hka), sizeAt_piece (by rw [hself]; exact hn)
      (by rw [hself]; exact hbr) hsl, hnew]
    have hle : (c.m.chunk k).base + i * page ≤ a := by
      have hadr := addr_eq a
      rw [← hf.frame_eq hka hn] at hadr
      have := Nat.mul_le_mul_right page h1
      unfold Chunk.base
      omega
    cases hpa : pieceAt (⟨(c.m.chunk k).base + i * page, ci, slabPages ci * page / clsSize ci,
        slabPages ci * page / clsSize ci, slabPages ci,
        fun j => decide (j < slabPages ci * page / clsSize ci), true⟩ : Slab) a with
    | none => rfl
    | some r =>
      obtain ⟨-, h4, h5⟩ := (pieceAt_eq_some (show 0 < clsSize ci by omega) hle).mp hpa
      exact absurd h4 (of_decide_eq_false h5)
  refine ⟨hkept.frames hf, hok, ?_, fun a ha => ?_, fun a _ _ => ?_⟩
  · exact hin _ (start_chunk hf hk hn (by omega)) hpg.ge (by rw [hpg]; omega)
  · cases hka : c.chunkOf a with
    | none => rw [sizeL_of_none hka, sizeL_of_none ((hof a).trans hka)]
    | some l =>
      rcases eq_or_ne l k with rfl | hl
      · by_cases hx : i ≤ pageOf a ∧ pageOf a < i + slabPages ci
        · rw [hin a hka hx.1 hx.2, sizeL_of hka]
          obtain ⟨h1, -, h3⟩ := hclear _ hx.1 hx.2
          rw [sizeAt_run hn hbr h1, if_pos]
          by_cases hpa : pageOf a = i
          · left
            intro hz
            have hadr := addr_eq a
            rw [hpa, hz, ← hf.frame_eq hka hn, Nat.add_zero] at hadr
            exact ha hadr
          · exact Or.inr (h3 hpa)
        · rw [sizeL_of hka, sizeL_of (c := c') ((hof a).trans hka), hself]
          unfold sizeAt
          dsimp only
          rw [if_neg hx]
          cases hsa : (c.m.chunk l).slab (pageOf a) with
          | none => rfl
          | some t =>
            have hm := (h.page l hk _ t hsa).1
            dsimp only
            rw [hslab t fun hx => (h.fresh t hm).ne hx]
            rfl
      · obtain ⟨hlm, -⟩ := hf.chunkOf_eq_some.mp hka
        rw [sizeL_of hka, sizeL_of (c := c') ((hof a).trans hka), hother l hl]
        unfold sizeAt
        cases hsa : (c.m.chunk l).slab (pageOf a) with
        | none => rfl
        | some t =>
          have hm := (h.page l hlm _ t hsa).1
          dsimp only
          rw [hslab t fun hx => (h.fresh t hm).ne hx]
  · unfold pinned
    rw [hof]
    cases hka : c.chunkOf a with
    | none => rfl
    | some l =>
      dsimp only
      rcases eq_or_ne l k with rfl | hl
      · rw [hself]
      · rw [hother l hl]

/-- The pages that were found are given back when there is no memory for the slab. -/
theorem quiet_giveBack {c' : Cfg} {k i a n : ℕ} (hsz : Sized c c' a n) (hzero : c.sizeL a = 0)
    (hk : k ∈ c'.m.chunks) (ha : a = (c'.m.chunk k).base + i * page)
    (hrun : (c'.m.chunk k).run i ≠ 0) (hs : (c'.m.chunk k).slab i = none)
    (hp : (c'.m.chunk k).pin i = false) :
    Quiet c (c'.setChunk k ((c'.m.chunk k).runFree i)) := by
  have hok := hsz.ok.chunk k hk
  obtain ⟨hn, hb⟩ := hok.plain i hrun
  have hi : i < pages := by
    have := hok.inside i hrun
    omega
  have hfree := sized_run hsz.frames hsz.ok hk (hok.runFree hrun hp) hn hb hi hs hn hb rfl rfl
    (fun j hj => by rw [Chunk.runFree_run, if_neg hj]) rfl rfl
  rw [Chunk.runFree_run, if_pos rfl, Nat.zero_mul, ← ha] at hfree
  exact (hsz.sized hfree).to_quiet hzero rfl

theorem quiet_newSlab {c' : Cfg} {ci k i a n : ℕ} (hsz : Sized c c' a n) (hzero : c.sizeL a = 0)
    (hci : ci < 17) (hk : k ∈ c'.m.chunks) (ha : a = (c'.m.chunk k).base + i * page)
    (hi : i + slabPages ci ≤ pages) (hrun : (c'.m.chunk k).run i = slabPages ci)
    (hclear : ∀ j, i ≤ j → j < i + slabPages ci → (c'.m.chunk k).slab j = none ∧
      (c'.m.chunk k).pin j = false ∧ (j ≠ i → (c'.m.chunk k).run j = 0))
    (hp : c'.m.partials ci = []) : Quiet c (c'.makeSlab ci (slabPages ci) a k) := by
  have hmk := quiet_makeSlab hsz.frames hsz.ok hci hk hi hrun hclear hp
  rw [← ha] at hmk
  exact (hsz.sized hmk).to_quiet hzero rfl

/-- The outcomes of an allocation of `n` bytes. -/
def Outcome (c : Cfg) (r : Cfg × Option ℕ) (n : ℕ) : Prop :=
  match r.2 with
  | none => Quiet c r.1 ∧ r.1.m.used = c.m.used
  | some p => Given c r.1 p n

theorem Outcome.of_quiet {c' : Cfg} {r : Cfg × Option ℕ} {n : ℕ} (hq : Quiet c c')
    (hu : c'.m.used = c.m.used) (h : Outcome c' r n) : Outcome c r n := by
  obtain ⟨d, p⟩ := r
  cases p with
  | none =>
    obtain ⟨h1, h2⟩ := h
    exact ⟨hq.trans h1, h2.trans hu⟩
  | some p =>
    have hg : Given c' d p n := h
    refine (⟨hq.sized hg.toSized, ?_, ?_, hg.unpinned⟩ : Given c d p n)
    · rw [← hq.size]
      exact hg.free
    · rw [hg.used, hu]

theorem takePiece_outcome (hf : c.Frames) (h : c.m.Ok) {ci s : ℕ} (hs : s ∈ c.m.slabs)
    (hci : (c.m.slab s).cls = ci) : Outcome c (c.takePiece ci s) (clsSize ci) := by
  rcases takePiece_spec hf h hs hci with hno | ⟨p, hp, hg⟩
  · rw [hno]
    exact ⟨Quiet.refl hf h, rfl⟩
  · unfold Outcome
    rw [hp]
    exact hg

/-- The pages that `pages_alloc` found become a slab. -/
theorem slabOn_outcome {c' : Cfg} {ci k i a n : ℕ} (hsz : Sized c c' a n) (hzero : c.sizeL a = 0)
    (hu : c'.m.used = c.m.used) (hci : ci < 17) (hk : k ∈ c'.m.chunks)
    (hof : c'.chunkOf a = some k) (ha : a = (c'.m.chunk k).base + i * page)
    (hi : i + slabPages ci ≤ pages) (hrun : (c'.m.chunk k).run i = slabPages ci)
    (hclear : ∀ j, i ≤ j → j < i + slabPages ci → (c'.m.chunk k).slab j = none ∧
      (c'.m.chunk k).pin j = false ∧ (j ≠ i → (c'.m.chunk k).run j = 0))
    (hp : c'.m.partials ci = []) (e : Env) :
    Outcome c (c'.slabOn ci (slabPages ci) a e) (clsSize ci) := by
  have hpos := slabPages_pos ci
  have hpo : pageOf a = i := by
    rw [ha]
    exact (addr_start (f := (c'.m.chunk k).frame) (show i < pages by omega)).2.1
  obtain ⟨hs0, hp0, -⟩ := hclear i le_rfl (by omega)
  unfold slabOn
  rw [hof, hpo]
  dsimp only
  by_cases hm : e.slabMem = true
  · rw [if_neg (not_not_intro hm)]
    have hnew := quiet_newSlab hsz hzero hci hk ha hi hrun hclear hp
    refine Outcome.of_quiet hnew hu (takePiece_outcome hnew.frames hnew.ok List.mem_cons_self ?_)
    show (Function.update c'.m.slab c'.m.next _ c'.m.next).cls = ci
    rw [Function.update_self]
  · rw [if_pos hm]
    exact ⟨quiet_giveBack hsz hzero hk ha (by omega) hs0 hp0, hu⟩

/-- `small_alloc`: nothing, or one piece of the class -/
theorem smallAlloc_outcome (hf : c.Frames) (h : c.m.Ok) {ci : ℕ} (hci : ci < 17) (e : Env) :
    Outcome c (c.smallAlloc ci e) (clsSize ci) := by
  unfold smallAlloc
  cases hpt : c.m.partials ci with
  | cons s l =>
    obtain ⟨hs, hcls⟩ := h.partials ci s (by rw [hpt]; exact List.mem_cons_self)
    exact takePiece_outcome hf h hs hcls
  | nil =>
    dsimp only
    rw [show (if clsSize ci ≤ 256 then 1 else 4) = slabPages ci from rfl]
    have hpos := slabPages_pos ci
    have hmax : slabPages ci ≤ pages := by
      unfold pages
      omega
    rcases pagesAlloc_spec hf h hpos.1 hmax e with
      ⟨c', heq, hq, hu⟩ | ⟨c1, k, i, hu, hpt1, hq, hk, hn, hbr, hle, hfree, heq⟩
    · rw [heq]
      exact ⟨hq, hu⟩
    rw [heq]
    have hlt : i < pages := by omega
    obtain ⟨hsz, hzero, -⟩ := sized_takeRun hq.frames hq.ok hk hn hbr hpos.1 hle hfree
    have hch : (c1.setChunk k ((c1.m.chunk k).takeRun i (slabPages ci))).m.chunk k =
        (c1.m.chunk k).takeRun i (slabPages ci) := Function.update_self _ _ _
    refine Outcome.of_quiet hq hu (slabOn_outcome hsz hzero rfl hci hk ?_ ?_ hle ?_ ?_ ?_ e)
    · rw [chunkOf_setChunk]
      exact start_chunk hq.frames hk hn hlt
    · unfold Chunk.base
      rw [hch, Chunk.takeRun_frame]
    · rw [hch, Chunk.takeRun_run, if_pos rfl]
    · intro j h1 h2
      have hfj := hfree j h1 h2
      obtain ⟨hr, hp⟩ := (hq.ok.chunk k hk).clear hfj
      rw [hch]
      refine ⟨clear_slab hq.ok hk hfj, hp, fun hj => ?_⟩
      rw [Chunk.takeRun_run, if_neg hj]
      exact hr
    · show c1.m.partials ci = []
      rw [hpt1, hpt]

/-! ## Allocations -/

theorem runAlloc_outcome (hf : c.Frames) (h : c.m.Ok) {n : ℕ} (h0 : 0 < n) (hn : n ≤ pages)
    (e : Env) : Outcome c (c.runAlloc n e) (n * page) := by
  unfold runAlloc
  rcases pagesAlloc_spec hf h h0 hn e with
    ⟨c', heq, hq, hu⟩ | ⟨c1, k, i, hu, -, hq, hk, hn1, hbr, hle, hfree, heq⟩
  · rw [heq]
    exact ⟨hq, hu⟩
  rw [heq]
  obtain ⟨hsz, hzero, hpin⟩ := sized_takeRun hq.frames hq.ok hk hn1 hbr h0 hle hfree
  have hadd := quiet_addUsed hsz.frames hsz.ok (n * page)
  have hne : (c1.setChunk k ((c1.m.chunk k).takeRun i n)).sizeL
      ((c1.m.chunk k).base + i * page) ≠ 0 := by
    rw [hsz.self]
    unfold page
    omega
  refine Outcome.of_quiet hq hu (?_ : Given c1 _ _ _)
  refine ⟨hsz.quiet hadd, hzero, rfl, ?_⟩
  rw [hadd.pins _ hne]
  exact hpin

/-- A row that is not in use is taken. -/
theorem sized_row (hf : c.Frames) (h : c.m.Ok) {k b n : ℕ} {p : Bool} (hk : k ∈ c.m.chunks)
    (hch : c.m.chunk k = Chunk.new b n p) (hn : 1 < n) :
    Sized c (c.setChunk k { c.m.chunk k with bigUsed := true }) (c.m.chunk k).base (n * block) ∧
      c.sizeL (c.m.chunk k).base = 0 ∧
      (c.setChunk k { c.m.chunk k with bigUsed := true }).pinned (c.m.chunk k).base = false := by
  have hnf : (c.m.chunk k).nframes = n := by
    rw [hch]
    rfl
  have hof : c.chunkOf (c.m.chunk k).base = some k := by
    refine hf.chunkOf_eq_some.mpr ⟨hk, ?_⟩
    unfold Chunk.Has Chunk.base
    rw [Nat.mul_div_cancel _ (show 0 < block by decide)]
    omega
  have hsize : ∀ ch : Chunk, ch.broken = false → ch.nframes = n → ∀ a, sizeAt c.m.slab ch a =
      if a = ch.base ∧ ch.bigUsed = true then ch.nframes * block else 0 := by
    intro ch hb hn' a
    unfold sizeAt
    rw [hb, if_neg Bool.false_ne_true, if_pos (by omega)]
  have hbr : (c.m.chunk k).broken = false := by
    rw [hch]
    rfl
  have hbu : (c.m.chunk k).bigUsed = false := by
    rw [hch]
    rfl
  refine ⟨⟨frames_setChunk hf k rfl rfl, h.setChunk ?_ rfl rfl (fun _ _ _ => rfl), ?_, fun a ha => ?_,
    fun a _ _ => pinned_setChunk (by rfl) (by rfl) (by rfl) a⟩, ?_, ?_⟩
  · have hok := h.chunk k hk
    exact ⟨hok.inside, hok.used, hok.apart, hok.plain, hok.broken, hok.pin⟩
  · rw [sizeL_setChunk, if_pos hof, hsize _ (by exact hbr) (by exact hnf)]
    dsimp only
    rw [if_pos ⟨rfl, rfl⟩, hnf]
  · rw [sizeL_setChunk]
    split_ifs with hka
    · rw [sizeL_of hka, hsize _ (by exact hbr) (by exact hnf), hsize _ hbr hnf, hbu]
      rw [if_neg (by rintro ⟨h1, -⟩; exact ha h1), if_neg (by simp)]
    · rfl
  · rw [sizeL_of hof, hsize _ hbr hnf, hbu, if_neg (by simp)]
  · rw [pinned_setChunk (by rfl) (by rfl) (by rfl), pinned_of hof, if_pos (by omega), hch]
    rfl

theorem rowAlloc_outcome (hf : c.Frames) (h : c.m.Ok) {n : ℕ} (hn : 1 < n) (e : Env) :
    Outcome c (c.rowAlloc n e) (n * block) := by
  unfold rowAlloc
  have hq := quiet_newChunk hf h n e
  obtain ⟨hu, -⟩ := newChunk_same c n e
  cases hr : c.newChunk n e with
  | mk c' r =>
    rw [hr] at hq hu
    cases r with
    | none => exact ⟨hq, hu⟩
    | some k =>
      obtain ⟨hk, b, p, hch⟩ := newChunk_some hr
      obtain ⟨hsz, hzero, hpin⟩ := sized_row hq.frames hq.ok hk hch hn
      have hadd := quiet_addUsed hsz.frames hsz.ok (n * block)
      have hne : (c'.setChunk k { c'.m.chunk k with bigUsed := true }).sizeL (c'.m.chunk k).base ≠
          0 := by
        rw [hsz.self]
        unfold block
        omega
      refine Outcome.of_quiet hq hu (?_ : Given c' _ _ _)
      refine ⟨hsz.quiet hadd, hzero, rfl, ?_⟩
      rw [hadd.pins _ hne]
      exact hpin

/-- The length of the block for a size: a class, pages, or blocks. -/
def need (size : ℕ) : ℕ :=
  if size ≤ small then clsSize (clsOf (if size = 0 then 1 else size))
  else if size ≤ block then (size + page - 1) / page * page
  else (size + block - 1) / block * block

theorem clsOf_spec {size : ℕ} (h : size ≤ small) : clsOf size < 17 ∧ size ≤ clsSize (clsOf size) := by
  have hex : ∃ x ∈ gCls, decide (size ≤ x) = true :=
    ⟨2048, by decide, decide_eq_true h⟩
  have hlt : clsOf size < gCls.length := List.findIdx_lt_length_of_exists hex
  refine ⟨hlt, ?_⟩
  have := List.findIdx_getElem (w := hlt)
  unfold clsSize
  rw [List.getD_eq_getElem?_getD, List.getElem?_eq_getElem hlt]
  exact of_decide_eq_true this

theorem le_need (size : ℕ) : size ≤ need size ∧ need size ≠ 0 := by
  unfold need
  split_ifs with h1 h2 h3
  · have h1 : 1 ≤ small := by decide
    have := clsSize_mem (clsOf_spec h1).1
    omega
  · have hs := clsOf_spec h1
    have := clsSize_mem hs.1
    omega
  · unfold page
    unfold small at h1
    omega
  · unfold block at h3 ⊢
    omega

/-- **An allocation gives nothing and changes nothing, or it gives a block that is long enough.** -/
theorem allocL_outcome (hf : c.Frames) (h : c.m.Ok) (size : ℕ) (e : Env) :
    Outcome c (c.allocL size e) (need size) := by
  unfold allocL
  by_cases hbig : 2 ^ 30 < size
  · rw [if_pos hbig]
    exact ⟨Quiet.refl hf h, rfl⟩
  rw [if_neg hbig]
  unfold sizedAlloc need
  by_cases h1 : size ≤ small
  · rw [if_pos h1]
    have hle : (if size = 0 then 1 else size) ≤ small := by
      split_ifs
      · decide
      · exact h1
    rw [if_pos hle]
    exact smallAlloc_outcome hf h (clsOf_spec hle).1 e
  have h0 : (if size = 0 then 1 else size) = size := by
    rw [if_neg]
    rintro rfl
    exact h1 (by decide)
  rw [if_neg h1, h0, if_neg h1]
  by_cases h2 : size ≤ block
  · rw [if_pos h2, if_pos h2]
    refine runAlloc_outcome hf h ?_ ?_ e
    · unfold page
      unfold small at h1
      omega
    · unfold page pages
      unfold block at h2
      omega
  · rw [if_neg h2, if_neg h2]
    refine rowAlloc_outcome hf h ?_ e
    unfold block at h2 ⊢
    omega

end BananaOS.Umem.Cfg
