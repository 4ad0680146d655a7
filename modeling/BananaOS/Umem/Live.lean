import BananaOS.Umem.Frames
import Mathlib.Data.Finset.Card
import Mathlib.Algebra.Order.Group.Nat
import Mathlib.Tactic.Ring

/-!
# The blocks in use

A memory hands out rows of blocks, runs of pages and pieces of slabs.  `Mem.Ok` is what its tables
keep to: the runs of a block do not overlap and their pages are marked, every slab sits on a run of
its own and the pages of the run name it, the count of free pieces is right, and the lists of slabs
with room hold what they say.

From it follows what an app relies on: what `size_l` calls a block in use lies in one block of the
memory (`Cfg.sizeL_inside`), and two of them do not overlap (`Cfg.sizeL_apart`).
-/

namespace BananaOS.Umem

/-! ## Classes -/

theorem clsSize_mem {i : ℕ} (h : i < 17) : 16 ≤ clsSize i ∧ clsSize i ≤ 2048 := by
  have hall : ∀ j < 17, 16 ≤ clsSize j ∧ clsSize j ≤ 2048 := by decide
  exact hall i h

/-- The pages of a slab of the class. -/
def slabPages (ci : ℕ) : ℕ := if clsSize ci ≤ 256 then 1 else 4

theorem slabPages_pos (ci : ℕ) : 0 < slabPages ci ∧ slabPages ci ≤ 4 := by
  unfold slabPages
  split_ifs <;> omega

/-! ## What the tables keep to -/

/-- The runs of a block. -/
structure Chunk.Ok (ch : Chunk) : Prop where
  inside : ∀ i, ch.run i ≠ 0 → i + ch.run i ≤ pages
  used : ∀ i j, ch.run i ≠ 0 → i ≤ j → j < i + ch.run i → ch.used j = true
  apart : ∀ i j, ch.run i ≠ 0 → ch.run j ≠ 0 → i < j → i + ch.run i ≤ j
  plain : ∀ i, ch.run i ≠ 0 → ch.nframes = 1 ∧ ch.broken = false
  broken : ch.broken = true → ch.freePages = 0
  pin : ∀ i, ch.pin i = true → ch.run i ≠ 0 ∧ ch.slab i = none

/-- The pieces of a slab. -/
structure Slab.Ok (sl : Slab) : Prop where
  cls : sl.cls < 17
  pages : sl.pages = slabPages sl.cls
  nobj : sl.nobj = sl.pages * page / clsSize sl.cls
  map : ∀ k, sl.map k = true → k < sl.nobj
  nfree : sl.nfree = ((Finset.range sl.nobj).filter fun k => sl.map k = true).card

namespace Mem

/-- The slab `s` sits on the run of the block `k` that starts at its page `i`. -/
structure Home (m : Mem) (s k i : ℕ) : Prop where
  mem : k ∈ m.chunks
  base : (m.slab s).base = (m.chunk k).base + i * page
  run : (m.chunk k).run i = (m.slab s).pages
  slab : ∀ j, i ≤ j → j < i + (m.slab s).pages → (m.chunk k).slab j = some s

/-- What the tables of a memory keep to. -/
structure Ok (m : Mem) : Prop where
  chunk : ∀ k ∈ m.chunks, (m.chunk k).Ok
  slab : ∀ s ∈ m.slabs, (m.slab s).Ok
  fresh : ∀ s ∈ m.slabs, s < m.next
  home : ∀ s ∈ m.slabs, ∃ k i, m.Home s k i
  page : ∀ k ∈ m.chunks, ∀ j s, (m.chunk k).slab j = some s →
    s ∈ m.slabs ∧ ∃ i, m.Home s k i ∧ i ≤ j ∧ j < i + (m.slab s).pages
  listed : ∀ s ∈ m.slabs, (m.slab s).listed = true ↔ s ∈ m.partials (m.slab s).cls
  partials : ∀ ci s, s ∈ m.partials ci → s ∈ m.slabs ∧ (m.slab s).cls = ci
  nodup : ∀ ci, (m.partials ci).Nodup
  slabs : m.slabs.Nodup

end Mem

/-! ## Addresses -/

theorem Chunk.base_congr {ch ch' : Chunk} (h : ch'.frame = ch.frame) : ch'.base = ch.base := by
  unfold Chunk.base
  rw [h]

theorem block_eq : block = pages * page := rfl

theorem pageOf_lt (a : ℕ) : Cfg.pageOf a < pages := by
  unfold Cfg.pageOf block pages page
  omega

theorem addr_eq (a : ℕ) : a = a / block * block + Cfg.pageOf a * page + a % page := by
  unfold Cfg.pageOf block page
  omega

theorem addr_parts {f i r : ℕ} (hi : i < pages) (hr : r < page) :
    (f * block + i * page + r) / block = f ∧ Cfg.pageOf (f * block + i * page + r) = i ∧
      (f * block + i * page + r) % page = r := by
  unfold Cfg.pageOf block pages page at *
  omega

theorem addr_start {f i : ℕ} (hi : i < pages) : (f * block + i * page) / block = f ∧
    Cfg.pageOf (f * block + i * page) = i ∧ (f * block + i * page) % page = 0 := by
  unfold Cfg.pageOf block pages page at *
  omega

namespace Cfg

variable {c : Cfg}

theorem sizeL_of {a k : ℕ} (hk : c.chunkOf a = some k) :
    c.sizeL a = sizeAt c.m.slab (c.m.chunk k) a := by
  unfold sizeL
  rw [hk]

theorem sizeL_of_none {a : ℕ} (hk : c.chunkOf a = none) : c.sizeL a = 0 := by
  unfold sizeL
  rw [hk]

theorem exists_chunk {a : ℕ} (ha : c.sizeL a ≠ 0) : ∃ k, c.chunkOf a = some k := by
  cases hk : c.chunkOf a with
  | none => exact absurd (sizeL_of_none hk) ha
  | some k => exact ⟨k, rfl⟩

theorem Frames.frame_eq (h : c.Frames) {a k : ℕ} (hk : c.chunkOf a = some k)
    (hn : (c.m.chunk k).nframes = 1) : (c.m.chunk k).frame = a / block := by
  have hhas := (h.chunkOf_eq_some.mp hk).2
  unfold Chunk.Has at hhas
  omega

theorem pieceAt_eq_some {sl : Slab} {a j : ℕ} (hc : 0 < clsSize sl.cls) (ha : sl.base ≤ a) :
    pieceAt sl a = some j ↔
      a = sl.base + j * clsSize sl.cls ∧ j < sl.nobj ∧ sl.map j = false := by
  unfold pieceAt
  dsimp only
  constructor
  · intro h
    split_ifs at h with hx
    · rw [not_or, not_or, not_not, not_le, Bool.not_eq_true] at hx
      obtain ⟨hm, hlt, hfree⟩ := hx
      obtain rfl := Option.some.inj h
      refine ⟨?_, hlt, hfree⟩
      have := Nat.div_add_mod (a - sl.base) (clsSize sl.cls)
      rw [hm, Nat.add_zero, Nat.mul_comm] at this
      omega
  · rintro ⟨h1, h2, h3⟩
    have hoff : a - sl.base = j * clsSize sl.cls := by omega
    rw [hoff, Nat.mul_div_cancel _ hc, Nat.mul_mod_left, if_neg]
    rw [not_or, not_or, not_not, not_le, h3]
    exact ⟨rfl, h2, by simp⟩

theorem sizeAt_run {slab : ℕ → Slab} {ch : Chunk} {a : ℕ} (hn : ch.nframes = 1)
    (hb : ch.broken = false) (hs : ch.slab (pageOf a) = none) :
    sizeAt slab ch a =
      if a % page ≠ 0 ∨ ch.run (pageOf a) = 0 then 0 else ch.run (pageOf a) * page := by
  unfold sizeAt
  rw [hb, if_neg (by simp), if_neg (by omega), hs]

theorem sizeAt_piece {slab : ℕ → Slab} {ch : Chunk} {a s : ℕ} (hn : ch.nframes = 1)
    (hb : ch.broken = false) (hs : ch.slab (pageOf a) = some s) :
    sizeAt slab ch a = match pieceAt (slab s) a with
      | some _ => clsSize (slab s).cls
      | none => 0 := by
  have hone : ¬ ch.nframes > 1 := by omega
  simp only [sizeAt, hb, hone, hs, Bool.false_eq_true, if_false] <;> rfl

end Cfg

/-! ## Where a block in use is -/

theorem Slab.Ok.piece_le {sl : Slab} (h : sl.Ok) {j : ℕ} (hj : j < sl.nobj) :
    j * clsSize sl.cls + clsSize sl.cls ≤ sl.pages * page := by
  have hle : (j + 1) * clsSize sl.cls ≤ sl.nobj * clsSize sl.cls := Nat.mul_le_mul_right _ hj
  rw [h.nobj] at hle
  have := Nat.div_mul_le_self (sl.pages * page) (clsSize sl.cls)
  rw [Nat.add_mul, Nat.one_mul] at hle
  omega

namespace Cfg

variable {c : Cfg}

theorem home_plain (h : c.m.Ok) {s k i : ℕ} (hs : s ∈ c.m.slabs) (hh : c.m.Home s k i) :
    (c.m.chunk k).run i ≠ 0 ∧ i + (c.m.slab s).pages ≤ pages ∧ (c.m.chunk k).nframes = 1 ∧
      (c.m.chunk k).broken = false := by
  have hpos := slabPages_pos (c.m.slab s).cls
  have hne : (c.m.chunk k).run i ≠ 0 := by
    rw [hh.run, (h.slab s hs).pages]
    omega
  have hin := (h.chunk k hh.mem).inside i hne
  rw [hh.run] at hin
  exact ⟨hne, hin, (h.chunk k hh.mem).plain i hne⟩

/-- The three kinds of blocks in use, in the block `k`. -/
inductive Kind (c : Cfg) (a k : ℕ) : Prop
  | row (hn : 1 < (c.m.chunk k).nframes) (ha : a = (c.m.chunk k).base)
      (hs : c.sizeL a = (c.m.chunk k).nframes * block)
  | run (i : ℕ) (hn : (c.m.chunk k).nframes = 1) (hr : (c.m.chunk k).run i ≠ 0)
      (hp : (c.m.chunk k).slab i = none) (ha : a = (c.m.chunk k).base + i * page)
      (hs : c.sizeL a = (c.m.chunk k).run i * page)
  | piece (i s j : ℕ) (hm : s ∈ c.m.slabs) (hh : c.m.Home s k i)
      (ha : a = (c.m.slab s).base + j * clsSize (c.m.slab s).cls) (hj : j < (c.m.slab s).nobj)
      (hf : (c.m.slab s).map j = false) (hs : c.sizeL a = clsSize (c.m.slab s).cls)

theorem kind_of (hf : c.Frames) (h : c.m.Ok) {a k : ℕ} (hk : c.chunkOf a = some k)
    (ha : c.sizeL a ≠ 0) : Kind c a k := by
  have hmem := (hf.chunkOf_eq_some.mp hk).1
  have hpos := hf.pos k hmem
  have hsz := sizeL_of hk
  by_cases hn : 1 < (c.m.chunk k).nframes
  · obtain ⟨l, hl, hb, -, hbase, hu⟩ := (row_iff hk).mpr ⟨ha, hn⟩
    obtain rfl := Option.some.inj (hk.symm.trans hl)
    refine Kind.row hn hbase ?_
    rw [hsz]
    unfold sizeAt
    rw [hb, if_neg (by simp), if_pos hn, if_pos ⟨hbase, hu⟩]
  have hn1 : (c.m.chunk k).nframes = 1 := by omega
  have hframe := hf.frame_eq hk hn1
  have hbroken : (c.m.chunk k).broken = false := by
    cases hb : (c.m.chunk k).broken with
    | false => rfl
    | true =>
      rw [hsz] at ha
      unfold sizeAt at ha
      rw [hb, if_pos rfl] at ha
      exact absurd rfl ha
  have haddr := addr_eq a
  have hplt := pageOf_lt a
  rw [← hframe] at haddr
  cases hs : (c.m.chunk k).slab (pageOf a) with
  | none =>
    rw [sizeAt_run hn1 hbroken hs] at hsz
    by_cases hx : a % page ≠ 0 ∨ (c.m.chunk k).run (pageOf a) = 0
    · rw [if_pos hx] at hsz
      exact absurd hsz ha
    · rw [if_neg hx] at hsz
      rw [not_or, not_not] at hx
      refine Kind.run (pageOf a) hn1 hx.2 hs ?_ hsz
      unfold Chunk.base
      omega
  | some s =>
    rw [sizeAt_piece hn1 hbroken hs] at hsz
    obtain ⟨hm, i, hh, h1, h2⟩ := h.page k hmem _ s hs
    have hcls := clsSize_mem (h.slab s hm).cls
    have hle : (c.m.slab s).base ≤ a := by
      rw [hh.base]
      unfold Chunk.base
      have := Nat.mul_le_mul_right page h1
      omega
    cases hp : pieceAt (c.m.slab s) a with
    | none =>
      rw [hp] at hsz
      exact absurd hsz ha
    | some j =>
      rw [hp] at hsz
      obtain ⟨g1, g2, g3⟩ := (pieceAt_eq_some (by omega) hle).mp hp
      exact Kind.piece i s j hm hh g1 g2 g3 hsz

/-- A block that is not a row lies on one run of its block: it is all of it, or a piece of the slab
that sits there. -/
theorem Kind.on_run (h : c.m.Ok) {a k : ℕ} (hk : Kind c a k)
    (hn : (c.m.chunk k).nframes = 1) : ∃ i, (c.m.chunk k).run i ≠ 0 ∧
      (c.m.chunk k).base + i * page ≤ a ∧
      a + c.sizeL a ≤ (c.m.chunk k).base + (i + (c.m.chunk k).run i) * page ∧
      ((c.m.chunk k).slab i = none ∧ a = (c.m.chunk k).base + i * page ∨
        ∃ s j, (c.m.chunk k).slab i = some s ∧
          a = (c.m.slab s).base + j * clsSize (c.m.slab s).cls ∧
          c.sizeL a = clsSize (c.m.slab s).cls) := by
  cases hk with
  | row hn' => omega
  | run i hn' hr hp ha hs =>
    refine ⟨i, hr, ha.ge, ?_, Or.inl ⟨hp, ha⟩⟩
    rw [hs, ha, Nat.add_mul]
    omega
  | piece i s j hm hh ha hj hf hs =>
    have hpos := slabPages_pos (c.m.slab s).cls
    have hpg := (h.slab s hm).pages
    refine ⟨i, (home_plain h hm hh).1, ?_, ?_, Or.inr ⟨s, j, ?_, ha, hs⟩⟩
    · rw [ha, hh.base]
      omega
    · have := (h.slab s hm).piece_le hj
      rw [hs, hh.run, Nat.add_mul]
      have hb := hh.base
      omega
    · exact hh.slab i le_rfl (by omega)

/-- **A block in use lies in one block of the memory.** -/
theorem sizeL_inside (hf : c.Frames) (h : c.m.Ok) {a : ℕ} (ha : c.sizeL a ≠ 0) :
    ∃ k, ∀ x, a ≤ x → x < a + c.sizeL a → c.chunkOf x = some k := by
  obtain ⟨k, hk⟩ := exists_chunk ha
  have hmem := (hf.chunkOf_eq_some.mp hk).1
  have hpos := hf.pos k hmem
  have hkind := kind_of hf h hk ha
  refine ⟨k, fun x h1 h2 => hf.chunkOf_eq_some.mpr ⟨hmem, ?_⟩⟩
  have hin : (c.m.chunk k).base ≤ a ∧
      a + c.sizeL a ≤ (c.m.chunk k).base + (c.m.chunk k).nframes * block := by
    by_cases hn : (c.m.chunk k).nframes = 1
    · obtain ⟨i, hr, hlo, hhi, -⟩ := hkind.on_run h hn
      have hle := (h.chunk k hmem).inside i hr
      have := Nat.mul_le_mul_right page hle
      rw [hn, block_eq]
      omega
    · cases hkind with
      | row hn' ha' hs =>
        rw [hs]
        omega
      | run i hn' => exact absurd hn' hn
      | piece i s j hm hh => exact absurd (home_plain h hm hh).2.2.1 hn
  unfold Chunk.base at hin
  rw [← Nat.add_mul] at hin
  unfold Chunk.Has
  have hb : 0 < block := by decide
  constructor
  · exact (Nat.le_div_iff_mul_le hb).mpr (by omega)
  · exact (Nat.div_lt_iff_lt_mul hb).mpr (by omega)

/-- **No two blocks in use overlap.** -/
theorem sizeL_apart (hf : c.Frames) (h : c.m.Ok) {a b : ℕ} (ha : c.sizeL a ≠ 0)
    (hb : c.sizeL b ≠ 0) (hab : a < b) : a + c.sizeL a ≤ b := by
  by_contra hno
  obtain ⟨k, hk⟩ := sizeL_inside hf h ha
  have hka := hk a le_rfl (by omega)
  have hkb := hk b hab.le (by omega)
  have hmem := (hf.chunkOf_eq_some.mp hka).1
  have kinda := kind_of hf h hka ha
  have kindb := kind_of hf h hkb hb
  by_cases hn : (c.m.chunk k).nframes = 1
  swap
  · -- both are the row
    have hbase : ∀ x, Kind c x k → x = (c.m.chunk k).base := by
      intro x hx
      cases hx with
      | row _ hx' => exact hx'
      | run i hn' => exact absurd hn' hn
      | piece i s j hm hh => exact absurd (home_plain h hm hh).2.2.1 hn
    have h1 := hbase a kinda
    have h2 := hbase b kindb
    omega
  obtain ⟨i, hri, hloa, hhia, hwha⟩ := kinda.on_run h hn
  obtain ⟨i', hri', hlob, hhib, hwhb⟩ := kindb.on_run h hn
  have hok := h.chunk k hmem
  rcases Nat.lt_trichotomy i i' with hlt | rfl | hlt
  · have := Nat.mul_le_mul_right page (hok.apart i i' hri hri' hlt)
    omega
  · rcases hwha with ⟨hsa, ha'⟩ | ⟨s, j, hsa, ha', hza⟩
    · rcases hwhb with ⟨-, hb'⟩ | ⟨s', j', hsb, -⟩
      · omega
      · rw [hsa] at hsb
        exact absurd hsb (by simp)
    · rcases hwhb with ⟨hsb, -⟩ | ⟨s', j', hsb, hb', -⟩
      · rw [hsa] at hsb
        exact absurd hsb (by simp)
      · rw [hsa] at hsb
        obtain rfl := Option.some.inj hsb
        -- two pieces of one slab
        have hjj : j < j' := by
          by_contra hx
          have := Nat.mul_le_mul_right (clsSize (c.m.slab s).cls) (not_lt.mp hx)
          omega
        have := Nat.mul_le_mul_right (clsSize (c.m.slab s).cls) (Nat.succ_le_of_lt hjj)
        rw [Nat.succ_mul] at this
        omega
  · have := Nat.mul_le_mul_right page (hok.apart i' i hri' hri hlt)
    omega

end Cfg

end BananaOS.Umem
