import BananaOS.Umem.Blocks
import Mathlib.Algebra.BigOperators.Group.List.Basic
import Mathlib.Algebra.Order.Group.Nat
import Mathlib.Data.List.Perm.Basic

/-!
# Whose frame is it

`g_dir` names, for each frame of physical memory, the block that holds it.  `Cfg.Frames` says that
it names the blocks of a memory exactly: their frames and no others (the first frame, where `NULL`
is, belongs to none).  This is what lets `chunk_of`
tell a memory's addresses from all the others, and it is kept by the two places that change it, the
making of new blocks and the splitting of a row.  A call on one memory leaves the frames of the
others alone (`Own`).
-/

namespace BananaOS.Umem

/-- `c` became `c'` in a call on its memory: what `g_dir` says of the other memories is the same. -/
structure Own (c c' : Cfg) : Prop where
  id : c'.id = c.id
  dir : ∀ f p, p.1 ≠ c.id → (c'.dir f = some p ↔ c.dir f = some p)

theorem Own.refl (c : Cfg) : Own c c := ⟨rfl, fun _ _ _ => Iff.rfl⟩

theorem Own.trans {a b c : Cfg} (h : Own a b) (h' : Own b c) : Own a c :=
  ⟨h'.id.trans h.id, fun f p hp => (h'.dir f p (by rw [h.id]; exact hp)).trans (h.dir f p hp)⟩

theorem Own.of_dir {c c' : Cfg} (hid : c'.id = c.id) (hd : c'.dir = c.dir) : Own c c' :=
  ⟨hid, fun f p _ => by rw [hd]⟩

/-- The frame `f` is one of the block's. -/
def Chunk.Has (ch : Chunk) (f : ℕ) : Prop := ch.frame ≤ f ∧ f < ch.frame + ch.nframes

instance (ch : Chunk) (f : ℕ) : Decidable (ch.Has f) := inferInstanceAs (Decidable (_ ∧ _))

namespace Cfg

/-- `g_dir` names the memory's blocks exactly. -/
structure Frames (c : Cfg) : Prop where
  dir : ∀ f k, c.dir f = some (c.id, k) ↔ k ∈ c.m.chunks ∧ (c.m.chunk k).Has f
  nodup : c.m.chunks.Nodup
  fresh : ∀ k ∈ c.m.chunks, k < c.m.next
  pos : ∀ k ∈ c.m.chunks, 0 < (c.m.chunk k).nframes
  top : ∀ k ∈ c.m.chunks, 0 < (c.m.chunk k).frame ∧
    (c.m.chunk k).frame + (c.m.chunk k).nframes ≤ frames

section
variable {c : Cfg}

/-- A change that moves no block. -/
theorem Frames.frame (h : c.Frames) {c' : Cfg} (hid : c'.id = c.id) (hd : c'.dir = c.dir)
    (hc : c'.m.chunks = c.m.chunks) (hn : c.m.next ≤ c'.m.next)
    (hk : ∀ k ∈ c.m.chunks, (c'.m.chunk k).frame = (c.m.chunk k).frame ∧
      (c'.m.chunk k).nframes = (c.m.chunk k).nframes) : c'.Frames := by
  refine ⟨fun f k => ?_, by rw [hc]; exact h.nodup, fun k hk' => ?_, fun k hk' => ?_, fun k hk' => ?_⟩
  · rw [hd, hid, h.dir, hc]
    refine and_congr_right fun hm => ?_
    unfold Chunk.Has
    rw [(hk k hm).1, (hk k hm).2]
  · rw [hc] at hk'
    exact (h.fresh k hk').trans_le hn
  · rw [hc] at hk'
    rw [(hk k hk').2]
    exact h.pos k hk'
  · rw [hc] at hk'
    rw [(hk k hk').1, (hk k hk').2]
    exact h.top k hk'

/-- No frame is two blocks'. -/
theorem Frames.apart (h : c.Frames) {k l f : ℕ} (hk : k ∈ c.m.chunks) (hl : l ∈ c.m.chunks)
    (hkf : (c.m.chunk k).Has f) (hlf : (c.m.chunk l).Has f) : k = l := by
  have h1 := (h.dir f k).mpr ⟨hk, hkf⟩
  have h2 := (h.dir f l).mpr ⟨hl, hlf⟩
  rw [h1] at h2
  exact (Prod.mk.inj (Option.some.inj h2)).2

theorem Frames.chunkOf_eq_some (h : c.Frames) {a k : ℕ} :
    c.chunkOf a = some k ↔ k ∈ c.m.chunks ∧ (c.m.chunk k).Has (a / block) := by
  have hk : c.chunkOf a = some k ↔ a / block < frames ∧ c.dir (a / block) = some (c.id, k) := by
    unfold chunkOf
    by_cases ht : frames ≤ a / block
    · rw [if_pos ht]
      constructor
      · intro hx
        exact absurd hx (by simp)
      · rintro ⟨hx, -⟩
        omega
    · rw [if_neg ht]
      cases hd : c.dir (a / block) with
      | none => simp
      | some p =>
        obtain ⟨id, l⟩ := p
        by_cases hid : id = c.id
        · subst hid
          simp only [if_true, Option.some.injEq, Prod.mk.injEq, true_and]
          exact ⟨fun hx => ⟨by omega, hx⟩, fun hx => hx.2⟩
        · simp only [if_neg hid, Option.some.injEq, Prod.mk.injEq, reduceCtorEq, false_iff]
          exact fun hx => hid hx.2.1
  rw [hk, h.dir]
  refine ⟨fun hx => hx.2, fun hx => ⟨?_, hx⟩⟩
  have htop := h.top k hx.1
  have hhas := hx.2.2
  omega

theorem frames_setChunk (h : c.Frames) (k : ℕ) {ch : Chunk} (hf : ch.frame = (c.m.chunk k).frame)
    (hn : ch.nframes = (c.m.chunk k).nframes) : (c.setChunk k ch).Frames := by
  refine h.frame rfl rfl rfl le_rfl fun l _ => ?_
  simp only [setChunk, Function.update_apply]
  split_ifs with hl
  · subst hl
    exact ⟨hf, hn⟩
  · exact ⟨rfl, rfl⟩

/-! ## New blocks -/

theorem room_some {n b : ℕ} {e : Env} (h : c.room n e = some b) :
    b ≠ 0 ∧ ∀ f, b ≤ f → f < b + n → c.dir f = none := by
  unfold room at h
  rw [Option.filter_eq_some_iff] at h
  have hall := h.2
  rw [Bool.and_eq_true, List.all_eq_true, decide_eq_true_eq] at hall
  refine ⟨hall.1, fun f h1 h2 => ?_⟩
  have hx := hall.2 (f - b) (List.mem_range.mpr (by omega))
  rw [show b + (f - b) = f by omega] at hx
  simpa using hx

/-- The block that `new_chunk` makes of the row at `b`. -/
def made (c : Cfg) (n b : ℕ) (e : Env) : Chunk :=
  if e.opened then Chunk.new b n (decide (c.m.limit ≠ 0))
  else { Chunk.new b n (decide (c.m.limit ≠ 0)) with freePages := 0, broken := true }

theorem made_frame (c : Cfg) (n b : ℕ) (e : Env) : (c.made n b e).frame = b := by
  unfold made
  split_ifs <;> rfl

theorem made_nframes (c : Cfg) (n b : ℕ) (e : Env) : (c.made n b e).nframes = n := by
  unfold made
  split_ifs <;> rfl

theorem made_pooled (c : Cfg) (n b : ℕ) (e : Env) :
    (c.made n b e).pooled = decide (c.m.limit ≠ 0) := by
  unfold made
  split_ifs <;> rfl

/-- The memory with the row at `b` added. -/
def added (c : Cfg) (n b : ℕ) (e : Env) (p : Pool) : Cfg where
  id := c.id
  m := { c.m with
    chunk := Function.update c.m.chunk c.m.next (c.made n b e), chunks := c.m.next :: c.m.chunks
    next := c.m.next + 1, reserved := add32 c.m.reserved (n * block) }
  dir := fun f => if b ≤ f ∧ f < b + n then some (c.id, c.m.next) else c.dir f
  pool := p

/-- `new_chunk` gives nothing, with what it took from the pool given back, or it adds a row. -/
theorem newChunk_cases (c : Cfg) (n : ℕ) (e : Env) :
    (∃ p, c.newChunk n e = ({ c with pool := p }, none) ∧
      (p = c.pool ∨ c.m.limit ≠ 0 ∧ (p = (c.pool.take (n * block) e.heapFree).1 ∧
          (c.pool.take (n * block) e.heapFree).2 = false ∨
        (c.pool.take (n * block) e.heapFree).2 = true ∧
          p = (c.pool.take (n * block) e.heapFree).1.give (n * block)))) ∨
    (∃ b p, n ≠ 0 ∧ (c.m.limit ≠ 0 → c.m.reserved + n * block ≤ c.m.limit) ∧
      c.room n e = some b ∧ b + n ≤ frames ∧
      (c.m.limit = 0 ∧ p = c.pool ∨ c.m.limit ≠ 0 ∧
        c.pool.take (n * block) e.heapFree = (p, true)) ∧
      c.newChunk n e = (c.added n b e p, if e.opened then some c.m.next else none)) := by
  unfold newChunk
  by_cases h1 : n = 0 ∨ ((decide (c.m.limit ≠ 0)) = true ∧ c.m.limit < c.m.reserved + n * block)
  · refine Or.inl ⟨c.pool, ?_, Or.inl rfl⟩
    simp only [if_pos h1]
  simp only [if_neg h1]
  rw [not_or, not_and, not_lt, decide_eq_true_eq] at h1
  by_cases hl : c.m.limit = 0
  · have hres : decide (c.m.limit ≠ 0) = false := by simp [hl]
    simp only [hres, Bool.false_eq_true, if_false, not_true_eq_false]
    by_cases hm : e.chunkMem = true
    swap
    · simp only [if_pos hm]
      exact Or.inl ⟨c.pool, rfl, Or.inl rfl⟩
    · simp only [hm, not_true_eq_false, if_false]
      cases hr : c.room n e with
      | none =>
        exact Or.inl ⟨c.pool, rfl, Or.inl rfl⟩
      | some b =>
        dsimp only
        by_cases hb : frames < b + n ∨ ¬e.tables = true
        · rw [if_pos hb]
          exact Or.inl ⟨c.pool, rfl, Or.inl rfl⟩
        · rw [if_neg hb]
          rw [not_or, not_lt] at hb
          refine Or.inr ⟨b, c.pool, h1.1, fun hx => absurd hl hx, rfl, hb.1, Or.inl ⟨hl, rfl⟩, ?_⟩
          unfold added made linkChunk
          cases e.opened <;> simp [hl, Chunk.new]
  · have hres : decide (c.m.limit ≠ 0) = true := by simp [hl]
    simp only [hres, if_true]
    cases ht : c.pool.take (n * block) e.heapFree with
    | mk p ok =>
      cases ok with
      | false =>
        refine Or.inl ⟨p, ?_, Or.inr ⟨hl, Or.inl ⟨rfl, rfl⟩⟩⟩
        simp
      | true =>
        simp only [not_true_eq_false, if_false]
        have hrel : ∀ b, p.release (Chunk.new b n true) = p.give (n * block) := fun _ => rfl
        have hback : ∃ p', ({ c with pool := p.give (n * block) }, (none : Option ℕ)) =
            ({ c with pool := p' }, none) ∧ (p' = c.pool ∨ c.m.limit ≠ 0 ∧
              (p' = p ∧ true = false ∨ True ∧ p' = p.give (n * block))) :=
          ⟨p.give (n * block), rfl, Or.inr ⟨hl, Or.inr ⟨trivial, rfl⟩⟩⟩
        by_cases hm : e.chunkMem = true
        swap
        · simp only [if_pos hm]
          exact Or.inl hback
        · simp only [hm, not_true_eq_false, if_false]
          have hroom : room { c with pool := p } n e = c.room n e := rfl
          cases hr : c.room n e with
          | none =>
            rw [hroom, hr]
            simp only [hrel]
            exact Or.inl hback
          | some b =>
            rw [hroom, hr]
            simp only [hrel]
            by_cases hb : frames < b + n ∨ ¬e.tables = true
            · rw [if_pos hb]
              exact Or.inl hback
            · rw [if_neg hb]
              rw [not_or, not_lt] at hb
              refine Or.inr ⟨b, p, h1.1, fun hx => h1.2 hx, rfl, hb.1, Or.inr ⟨hl, rfl⟩, ?_⟩
              unfold added made linkChunk
              cases e.opened <;> simp [hl, Chunk.new]

theorem Frames.added (h : c.Frames) {n b : ℕ} {e : Env} (hn : n ≠ 0) (hr : c.room n e = some b)
    (ht : b + n ≤ frames) (p : Pool) : (c.added n b e p).Frames := by
  obtain ⟨hb, hfree⟩ := room_some hr
  have hne : ∀ k ∈ c.m.chunks, k ≠ c.m.next := fun k hk => (h.fresh k hk).ne
  have hold : ∀ k ∈ c.m.chunks,
      (c.added n b e p).m.chunk k = c.m.chunk k := fun k hk => Function.update_of_ne (hne k hk) _ _
  have hnew : (c.added n b e p).m.chunk c.m.next = c.made n b e := Function.update_self _ _ _
  have hhas : ∀ f, (c.made n b e).Has f ↔ b ≤ f ∧ f < b + n := by
    intro f
    unfold Chunk.Has
    rw [made_frame, made_nframes]
  refine ⟨fun f k => ?_, ?_, ?_, ?_, ?_⟩
  · show (if b ≤ f ∧ f < b + n then some (c.id, c.m.next) else c.dir f) = some (c.id, k) ↔
      k ∈ c.m.next :: c.m.chunks ∧ _
    rw [List.mem_cons]
    split_ifs with hf
    · constructor
      · intro hx
        obtain rfl := (Prod.mk.inj (Option.some.inj hx)).2
        rw [hnew, hhas]
        exact ⟨Or.inl rfl, hf⟩
      · rintro ⟨rfl | hk, hx⟩
        · rfl
        · rw [hold k hk] at hx
          have := (h.dir f k).mpr ⟨hk, hx⟩
          rw [hfree f hf.1 hf.2] at this
          exact absurd this (by simp)
    · rw [h.dir]
      constructor
      · rintro ⟨hk, hx⟩
        rw [hold k hk]
        exact ⟨Or.inr hk, hx⟩
      · rintro ⟨rfl | hk, hx⟩
        · rw [hnew, hhas] at hx
          exact absurd hx hf
        · rw [hold k hk] at hx
          exact ⟨hk, hx⟩
  · exact List.nodup_cons.mpr ⟨fun hx => hne _ hx rfl, h.nodup⟩
  · intro k hk
    show k < c.m.next + 1
    rcases List.mem_cons.mp hk with rfl | hk
    · omega
    · have := h.fresh k hk
      omega
  · intro k hk
    rcases List.mem_cons.mp hk with rfl | hk
    · rw [hnew, made_nframes]
      omega
    · rw [hold k hk]
      exact h.pos k hk
  · intro k hk
    rcases List.mem_cons.mp hk with rfl | hk
    · rw [hnew, made_frame, made_nframes]
      omega
    · rw [hold k hk]
      exact h.top k hk

theorem own_added {n b : ℕ} {e : Env} (hr : c.room n e = some b) (p : Pool) :
    Own c (c.added n b e p) := by
  obtain ⟨-, hfree⟩ := room_some hr
  refine ⟨rfl, fun f q hq => ?_⟩
  show (if b ≤ f ∧ f < b + n then some (c.id, c.m.next) else c.dir f) = some q ↔ _
  split_ifs with hf
  · rw [hfree f hf.1 hf.2]
    constructor
    · intro hx
      exact absurd (congrArg Prod.fst (Option.some.inj hx)).symm hq
    · intro hx
      exact absurd hx (by simp)
  · rfl

/-! ## A row split -/

/-- The row `b`, that was `big`, is out of the list, and from its block `j` on its frames are named
for it still. -/
structure Splitting (c : Cfg) (big : Chunk) (b j : ℕ) : Prop where
  dir : ∀ f k, c.dir f = some (c.id, k) ↔ k ∈ c.m.chunks ∧ (c.m.chunk k).Has f ∨
    k = b ∧ big.frame + j ≤ f ∧ f < big.frame + big.nframes
  nodup : c.m.chunks.Nodup
  fresh : ∀ k ∈ c.m.chunks, k < c.m.next
  pos : ∀ k ∈ c.m.chunks, 0 < (c.m.chunk k).nframes
  top : ∀ k ∈ c.m.chunks, 0 < (c.m.chunk k).frame ∧
    (c.m.chunk k).frame + (c.m.chunk k).nframes ≤ frames
  gone : b ∉ c.m.chunks
  old : b < c.m.next
  ends : 0 < big.frame ∧ big.frame + big.nframes ≤ frames

/-- The memory with the row out of its list. -/
def unlinked (c : Cfg) (b : ℕ) : Cfg := { c with m := { c.m with chunks := c.m.chunks.erase b } }

theorem Frames.unlinked (h : c.Frames) {b : ℕ} (hb : b ∈ c.m.chunks) :
    (c.unlinked b).Splitting (c.m.chunk b) b 0 := by
  have hmem : ∀ k, k ∈ c.m.chunks.erase b ↔ k ≠ b ∧ k ∈ c.m.chunks := fun k =>
    h.nodup.mem_erase_iff
  refine ⟨fun f k => ?_, h.nodup.erase b, fun k hk => h.fresh k ((hmem k).mp hk).2,
    fun k hk => h.pos k ((hmem k).mp hk).2, fun k hk => h.top k ((hmem k).mp hk).2,
    fun hx => ((hmem b).mp hx).1 rfl, h.fresh b hb, h.top b hb⟩
  show c.dir f = some (c.id, k) ↔ k ∈ c.m.chunks.erase b ∧ (c.m.chunk k).Has f ∨ _
  rw [h.dir, hmem]
  by_cases hkb : k = b
  · subst hkb
    simp [Chunk.Has, hb]
  · simp [hkb]

/-- One more block of the row, or all that is left of it, under the name `l`. -/
def relinked (c : Cfg) (l : ℕ) (ch : Chunk) : Cfg :=
  { c.linkChunk l ch with m := { (c.linkChunk l ch).m with next := max c.m.next (l + 1) } }

theorem Splitting.relinked {big : Chunk} {b j : ℕ} (h : c.Splitting big b j) (l : ℕ) (ch : Chunk)
    (hl : l ∉ c.m.chunks) (hf : ch.frame = big.frame + j) (hn : 0 < ch.nframes)
    (hend : j + ch.nframes ≤ big.nframes) (hlb : l = b → j + ch.nframes = big.nframes) :
    (c.relinked l ch).Splitting big b (j + ch.nframes) ∨ l = b ∧ (c.relinked l ch).Frames := by
  have hold : ∀ k ∈ c.m.chunks, (c.relinked l ch).m.chunk k = c.m.chunk k := fun k hk =>
    Function.update_of_ne (fun hx => hl (by rw [← hx]; exact hk)) _ _
  have hnew : (c.relinked l ch).m.chunk l = ch := Function.update_self _ _ _
  have hne : ∀ k ∈ c.m.chunks, k ≠ l := fun k hk hx => hl (by rw [← hx]; exact hk)
  have hdir : ∀ f k, (c.relinked l ch).dir f = some (c.id, k) ↔
      k ∈ l :: c.m.chunks ∧ ((c.relinked l ch).m.chunk k).Has f ∨
        k = b ∧ big.frame + (j + ch.nframes) ≤ f ∧ f < big.frame + big.nframes := by
    intro f k
    show (if ch.frame ≤ f ∧ f < ch.frame + ch.nframes then some (c.id, l) else c.dir f) = _ ↔ _
    by_cases hin : ch.frame ≤ f ∧ f < ch.frame + ch.nframes
    · rw [if_pos hin]
      constructor
      · intro hx
        obtain rfl := (Prod.mk.inj (Option.some.inj hx)).2
        exact Or.inl ⟨List.mem_cons_self, by rw [hnew]; exact hin⟩
      · rintro (⟨hk, hx⟩ | ⟨-, hx, -⟩)
        · rcases List.mem_cons.mp hk with rfl | hk
          · rfl
          · rw [hold k hk] at hx
            have h1 := (h.dir f k).mpr (Or.inl ⟨hk, hx⟩)
            have h2 := (h.dir f b).mpr (Or.inr ⟨rfl, by omega, by omega⟩)
            rw [h1] at h2
            obtain rfl := (Prod.mk.inj (Option.some.inj h2)).2
            exact absurd hk h.gone
        · omega
    · rw [if_neg hin, h.dir]
      constructor
      · rintro (⟨hk, hx⟩ | ⟨rfl, h1, h2⟩)
        · exact Or.inl ⟨List.mem_cons_of_mem _ hk, by rw [hold k hk]; exact hx⟩
        · exact Or.inr ⟨rfl, by omega, h2⟩
      · rintro (⟨hk, hx⟩ | ⟨rfl, h1, h2⟩)
        · rcases List.mem_cons.mp hk with rfl | hk
          · rw [hnew] at hx
            exact absurd hx hin
          · rw [hold k hk] at hx
            exact Or.inl ⟨hk, hx⟩
        · exact Or.inr ⟨rfl, by omega, h2⟩
  have hnodup : (l :: c.m.chunks).Nodup := List.nodup_cons.mpr ⟨hl, h.nodup⟩
  have hfresh : ∀ k ∈ l :: c.m.chunks, k < max c.m.next (l + 1) := by
    intro k hk
    rcases List.mem_cons.mp hk with rfl | hk
    · omega
    · have := h.fresh k hk
      omega
  have hpos : ∀ k ∈ l :: c.m.chunks, 0 < ((c.relinked l ch).m.chunk k).nframes := by
    intro k hk
    rcases List.mem_cons.mp hk with rfl | hk
    · rw [hnew]
      exact hn
    · rw [hold k hk]
      exact h.pos k hk
  have htop : ∀ k ∈ l :: c.m.chunks, 0 < ((c.relinked l ch).m.chunk k).frame ∧
      ((c.relinked l ch).m.chunk k).frame + ((c.relinked l ch).m.chunk k).nframes ≤ frames := by
    intro k hk
    rcases List.mem_cons.mp hk with rfl | hk
    · rw [hnew]
      have := h.ends
      omega
    · rw [hold k hk]
      exact h.top k hk
  by_cases hb : l = b
  · refine Or.inr ⟨hb, fun f k => ?_, hnodup, hfresh, hpos, htop⟩
    refine (hdir f k).trans ⟨?_, Or.inl⟩
    rintro (hx | ⟨-, h1, h2⟩)
    · exact hx
    · have := hlb hb
      omega
  · refine Or.inl ⟨hdir, hnodup, hfresh, hpos, htop, ?_, ?_, h.ends⟩
    · intro hx
      rcases List.mem_cons.mp hx with hx | hx
      · exact hb hx.symm
      · exact h.gone hx
    · show b < max c.m.next (l + 1)
      have := h.old
      omega

theorem linkChunk_next {l : ℕ} (ch : Chunk) (hl : l < c.m.next) :
    c.relinked l ch = c.linkChunk l ch := by
  unfold relinked
  rw [max_eq_left hl]
  rfl

theorem linkChunk_fresh (ch : Chunk) :
    { c.linkChunk c.m.next ch with
      m := { (c.linkChunk c.m.next ch).m with next := c.m.next + 1 } } =
      c.relinked c.m.next ch := by
  unfold relinked
  rw [max_eq_right (Nat.le_succ _)]

theorem own_relinked {big : Chunk} {b j l : ℕ} {ch : Chunk} (h : c.Splitting big b j)
    (hf : ch.frame = big.frame + j) (hend : j + ch.nframes ≤ big.nframes) :
    Own c (c.relinked l ch) := by
  refine ⟨rfl, fun f q hq => ?_⟩
  show (if ch.frame ≤ f ∧ f < ch.frame + ch.nframes then some (c.id, l) else c.dir f) = some q ↔ _
  split_ifs with hin
  · rw [(h.dir f b).mpr (Or.inr ⟨rfl, by omega, by omega⟩)]
    constructor
    · intro hx
      exact absurd (congrArg Prod.fst (Option.some.inj hx)).symm hq
    · intro hx
      exact absurd (congrArg Prod.fst (Option.some.inj hx)).symm hq
  · rfl

/-- What a split does, one block at a time: `P` holds of the memory when the row is out of its list,
and of every state of the loop. -/
theorem splitFrom_rule {big : Chunk} {b : ℕ} {e : Env} {P : Cfg → ℕ → Prop} {Q : Cfg → Prop}
    (hstep : ∀ c j, c.Splitting big b j → P c j → j < big.nframes → e.splitMem j = true →
      P (c.relinked c.m.next (Chunk.new (big.frame + j) 1 false)) (j + 1))
    (hstop : ∀ c j, c.Splitting big b j → P c j → j < big.nframes → e.splitMem j = false →
      Q (c.relinked b { big with
        frame := big.frame + j, nframes := big.nframes - j, bigUsed := true }))
    (hdone : ∀ c, P c big.nframes → Q c) :
    ∀ (left j : ℕ) (c : Cfg), c.Splitting big b j → P c j → j + left = big.nframes →
      Q (splitFrom big b e c j left) := by
  intro left
  induction left with
  | zero =>
    intro j c _ hp hj
    rw [Nat.add_zero] at hj
    subst hj
    exact hdone c hp
  | succ left ih =>
    intro j c hs hp hj
    unfold splitFrom
    cases hm : e.splitMem j with
    | true =>
      rw [if_pos rfl]
      have hnew : c.m.next ∉ c.m.chunks := fun hx => (hs.fresh _ hx).false
      have hne : c.m.next ≠ b := hs.old.ne'
      have hs' : (c.relinked c.m.next (Chunk.new (big.frame + j) 1 false)).Splitting big b
          (j + 1) := by
        rcases hs.relinked _ (Chunk.new (big.frame + j) 1 false) hnew rfl Nat.one_pos
          (show j + 1 ≤ big.nframes by omega) (fun hx => absurd hx hne) with hx | hx
        · exact hx
        · exact absurd hx.1 hne
      have hp' := hstep c j hs hp (by omega) hm
      rw [← linkChunk_fresh] at hs' hp'
      exact ih (j + 1) _ hs' hp' (by omega)
    | false =>
      rw [if_neg (by simp)]
      have hq := hstop c j hs hp (by omega) hm
      rw [linkChunk_next _ hs.old] at hq
      exact hq

theorem splitBig_rule {b : ℕ} {e : Env} {P : Cfg → ℕ → Prop} {Q : Cfg → Prop} (h : c.Frames)
    (hb : b ∈ c.m.chunks) (hstart : P (c.unlinked b) 0)
    (hstep : ∀ c' j, c'.Splitting (c.m.chunk b) b j → P c' j → j < (c.m.chunk b).nframes →
      e.splitMem j = true →
      P (c'.relinked c'.m.next (Chunk.new ((c.m.chunk b).frame + j) 1 false)) (j + 1))
    (hstop : ∀ c' j, c'.Splitting (c.m.chunk b) b j → P c' j → j < (c.m.chunk b).nframes →
      e.splitMem j = false →
      Q (c'.relinked b { c.m.chunk b with
        frame := (c.m.chunk b).frame + j, nframes := (c.m.chunk b).nframes - j, bigUsed := true }))
    (hdone : ∀ c', P c' (c.m.chunk b).nframes → Q c') : Q (c.splitBig b e) :=
  splitFrom_rule hstep hstop hdone _ 0 _ (h.unlinked hb) hstart (Nat.zero_add _)

/-- A split keeps the frames in order, and touches no other memory's. -/
theorem Frames.splitBig (h : c.Frames) {b : ℕ} (hb : b ∈ c.m.chunks) (e : Env) :
    (c.splitBig b e).Frames ∧ Own c (c.splitBig b e) := by
  refine splitBig_rule (P := fun c' j => c'.Splitting (c.m.chunk b) b j ∧ Own c c')
    (Q := fun c' => c'.Frames ∧ Own c c') h hb ⟨h.unlinked hb, Own.of_dir rfl rfl⟩ ?_ ?_ ?_
  · rintro c' j hs ⟨-, ho⟩ hj -
    refine ⟨?_, ho.trans (own_relinked hs rfl (by simp only [Chunk.new]; omega))⟩
    have hne : c'.m.next ≠ b := hs.old.ne'
    rcases hs.relinked c'.m.next (Chunk.new ((c.m.chunk b).frame + j) 1 false)
      (fun hx => (hs.fresh _ hx).false) rfl Nat.one_pos
      (show j + 1 ≤ (c.m.chunk b).nframes by omega) (fun hx => absurd hx hne) with hx | hx
    · exact hx
    · exact absurd hx.1 hne
  · rintro c' j hs ⟨-, ho⟩ hj -
    refine ⟨?_, ho.trans (own_relinked hs rfl (by dsimp only; omega))⟩
    rcases hs.relinked b { c.m.chunk b with
        frame := (c.m.chunk b).frame + j, nframes := (c.m.chunk b).nframes - j, bigUsed := true }
      hs.gone rfl (by dsimp only; omega) (by dsimp only; omega) (fun _ => by dsimp only; omega)
      with hx | hx
    · refine absurd hx.gone ?_
      exact not_not_intro List.mem_cons_self
    · exact hx.2
  · rintro c' ⟨hs, ho⟩
    refine ⟨⟨fun f k => (hs.dir f k).trans ⟨?_, Or.inl⟩, hs.nodup, hs.fresh, hs.pos, hs.top⟩, ho⟩
    rintro (hx | ⟨-, h1, h2⟩)
    · exact hx
    · omega

/-! ## What a call can do to the blocks -/

/-- No block comes, goes or moves, and no account changes. -/
structure Kept (c c' : Cfg) : Prop where
  id : c'.id = c.id
  dir : c'.dir = c.dir
  pool : c'.pool = c.pool
  chunks : c'.m.chunks = c.m.chunks
  limit : c'.m.limit = c.m.limit
  reserved : c'.m.reserved = c.m.reserved
  next : c.m.next ≤ c'.m.next
  frame : ∀ k, (c'.m.chunk k).frame = (c.m.chunk k).frame
  nframes : ∀ k, (c'.m.chunk k).nframes = (c.m.chunk k).nframes
  pooled : ∀ k, (c'.m.chunk k).pooled = (c.m.chunk k).pooled

theorem Kept.refl (c : Cfg) : Kept c c :=
  ⟨rfl, rfl, rfl, rfl, rfl, rfl, le_rfl, fun _ => rfl, fun _ => rfl, fun _ => rfl⟩

theorem Kept.trans {a b c : Cfg} (h : Kept a b) (h' : Kept b c) : Kept a c :=
  ⟨h'.id.trans h.id, h'.dir.trans h.dir, h'.pool.trans h.pool, h'.chunks.trans h.chunks,
    h'.limit.trans h.limit, h'.reserved.trans h.reserved, h.next.trans h'.next,
    fun k => (h'.frame k).trans (h.frame k), fun k => (h'.nframes k).trans (h.nframes k),
    fun k => (h'.pooled k).trans (h.pooled k)⟩

theorem Kept.frames {c' : Cfg} (hk : Kept c c') (h : c.Frames) : c'.Frames :=
  h.frame hk.id hk.dir hk.chunks hk.next fun k _ => ⟨hk.frame k, hk.nframes k⟩

theorem Kept.own {c' : Cfg} (hk : Kept c c') : Own c c' := Own.of_dir hk.id hk.dir

theorem kept_setChunk (k : ℕ) {ch : Chunk} (hf : ch.frame = (c.m.chunk k).frame)
    (hn : ch.nframes = (c.m.chunk k).nframes) (hp : ch.pooled = (c.m.chunk k).pooled) :
    Kept c (c.setChunk k ch) := by
  refine ⟨rfl, rfl, rfl, rfl, rfl, rfl, le_rfl, fun l => ?_, fun l => ?_, fun l => ?_⟩
  all_goals
    rcases eq_or_ne l k with rfl | hl
    · simpa [setChunk] using by assumption
    · simp [setChunk, hl]

theorem kept_setSlab (s : ℕ) (sl : Slab) : Kept c (c.setSlab s sl) :=
  ⟨rfl, rfl, rfl, rfl, rfl, rfl, le_rfl, fun _ => rfl, fun _ => rfl, fun _ => rfl⟩

theorem kept_partials (p : ℕ → List ℕ) : Kept c { c with m := { c.m with partials := p } } :=
  ⟨rfl, rfl, rfl, rfl, rfl, rfl, le_rfl, fun _ => rfl, fun _ => rfl, fun _ => rfl⟩

theorem kept_addUsed (n : ℕ) : Kept c (c.addUsed n) :=
  ⟨rfl, rfl, rfl, rfl, rfl, rfl, le_rfl, fun _ => rfl, fun _ => rfl, fun _ => rfl⟩

theorem kept_subUsed (n : ℕ) : Kept c (c.subUsed n) :=
  ⟨rfl, rfl, rfl, rfl, rfl, rfl, le_rfl, fun _ => rfl, fun _ => rfl, fun _ => rfl⟩

theorem kept_slabUnlist (s : ℕ) : Kept c (c.slabUnlist s) := by
  unfold slabUnlist
  by_cases hl : (c.m.slab s).listed = true
  · simp only [hl, if_true]
    exact (kept_partials _).trans (kept_setSlab _ _)
  · simp only [if_neg hl]
    exact Kept.refl c

theorem kept_slabList (s : ℕ) : Kept c (c.slabList s) := (kept_partials _).trans (kept_setSlab _ _)

theorem kept_takePiece (ci s : ℕ) : Kept c (c.takePiece ci s).1 := by
  unfold takePiece
  dsimp only
  cases (List.range 256).find? (c.m.slab s).map with
  | none => exact Kept.refl c
  | some k =>
    dsimp only
    split_ifs
    · exact ((kept_setSlab _ _).trans (kept_slabUnlist _)).trans (kept_addUsed _)
    · exact (kept_setSlab _ _).trans (kept_addUsed _)

theorem kept_runFree (k i : ℕ) : Kept c (c.setChunk k ((c.m.chunk k).runFree i)) :=
  kept_setChunk k rfl rfl rfl

theorem kept_takeRun (k i n : ℕ) : Kept c (c.takeRun k i n).1 := kept_setChunk k rfl rfl rfl

theorem kept_makeSlab (ci n base k : ℕ) : Kept c (c.makeSlab ci n base k) := by
  refine ⟨rfl, rfl, rfl, rfl, rfl, rfl, Nat.le_succ _, fun l => ?_, fun l => ?_, fun l => ?_⟩
  all_goals
    rcases eq_or_ne l k with rfl | hl
    · simp [makeSlab]
    · simp [makeSlab, hl]

theorem kept_dropSlab (k s : ℕ) : Kept c (c.dropSlab k s) := by
  have hu := kept_slabUnlist (c := c) s
  unfold dropSlab
  generalize c.slabUnlist s = c' at hu
  refine hu.trans ⟨rfl, rfl, rfl, rfl, rfl, rfl, le_rfl, fun l => ?_, fun l => ?_, fun l => ?_⟩
  all_goals
    rcases eq_or_ne l k with rfl | hl
    · simp [Chunk.emptied, Chunk.runFree, Chunk.mark]
    · simp [hl]

theorem kept_freePiece (k s j : ℕ) : Kept c (c.freePiece k s j) := by
  unfold freePiece
  dsimp only
  have h1 := kept_setSlab (c := c) s
    { c.m.slab s with
      map := Function.update (c.m.slab s).map j true, nfree := (c.m.slab s).nfree + 1 }
  have h2 := h1.trans (kept_subUsed (clsSize (c.m.slab s).cls))
  split_ifs
  · exact h2.trans (kept_dropSlab _ _)
  · exact h2
  · exact h2.trans (kept_slabList _)

theorem kept_setPin (a : ℕ) (b : Bool) : Kept c (c.setPin a b) := by
  unfold setPin
  cases c.chunkOf a with
  | none => exact Kept.refl c
  | some k =>
    dsimp only
    split_ifs
    · exact kept_setChunk k rfl rfl rfl
    · exact kept_setChunk k rfl rfl rfl

section
variable {P : Cfg → Prop} (hkept : ∀ c c', Kept c c' → P c → P c')
  (hnew : ∀ c n e, 0 < n → n ≤ 512 → P c → P (c.newChunk n e).1)
include hkept hnew

theorem pagesAlloc_rule (hc : P c) (n : ℕ) (e : Env) : P (c.pagesAlloc n e).1 := by
  unfold pagesAlloc
  cases c.findPages n c.m.chunks with
  | some p => exact hkept _ _ (kept_takeRun _ _ _) hc
  | none =>
    have h1 := hnew c 1 e Nat.one_pos (by omega) hc
    cases hr : c.newChunk 1 e with
    | mk c' r =>
      rw [hr] at h1
      cases r with
      | none => exact h1
      | some k => exact hkept _ _ (kept_takeRun _ _ _) h1

omit hnew in
theorem slabOn_rule (hc : P c) (ci n base : ℕ) (e : Env) : P (c.slabOn ci n base e).1 := by
  unfold slabOn
  cases c.chunkOf base with
  | none => exact hc
  | some k =>
    dsimp only
    by_cases hm : e.slabMem = true
    · rw [if_neg (not_not_intro hm)]
      exact hkept _ _ ((kept_makeSlab _ _ _ _).trans (kept_takePiece _ _)) hc
    · rw [if_pos hm]
      exact hkept _ _ (kept_runFree _ _) hc

theorem smallAlloc_rule (hc : P c) (ci : ℕ) (e : Env) : P (c.smallAlloc ci e).1 := by
  unfold smallAlloc
  cases c.m.partials ci with
  | cons s l => exact hkept _ _ (kept_takePiece _ _) hc
  | nil =>
    dsimp only
    have h1 := pagesAlloc_rule hkept hnew hc (if clsSize ci ≤ 256 then 1 else 4) e
    cases hr : c.pagesAlloc (if clsSize ci ≤ 256 then 1 else 4) e with
    | mk c' r =>
      rw [hr] at h1
      cases r with
      | none => exact h1
      | some base => exact slabOn_rule hkept h1 _ _ _ _

theorem runAlloc_rule (hc : P c) (n : ℕ) (e : Env) : P (c.runAlloc n e).1 := by
  unfold runAlloc
  have hp := pagesAlloc_rule hkept hnew hc n e
  cases hr : c.pagesAlloc n e with
  | mk c' r =>
    rw [hr] at hp
    cases r with
    | none => exact hp
    | some p => exact hkept _ _ (kept_addUsed _) hp

theorem rowAlloc_rule (hc : P c) {n : ℕ} (hn : 0 < n)
    (hn' : n ≤ 512) (e : Env) : P (c.rowAlloc n e).1 := by
  unfold rowAlloc
  have hp := hnew c n e hn hn' hc
  cases hr : c.newChunk n e with
  | mk c' r =>
    rw [hr] at hp
    cases r with
    | none => exact hp
    | some k =>
      have h1 : Kept c' (c'.setChunk k { c'.m.chunk k with bigUsed := true }) :=
        kept_setChunk k rfl rfl rfl
      exact hkept _ _ (h1.trans (kept_addUsed _)) hp

/-- An allocation makes blocks, and no more. -/
theorem allocL_rule (hc : P c) (size : ℕ) (e : Env) : P (c.allocL size e).1 := by
  unfold allocL
  by_cases hbig : 2 ^ 30 < size
  · rw [if_pos hbig]
    exact hc
  rw [if_neg hbig]
  have hz : (if size = 0 then 1 else size) ≤ 2 ^ 30 := by
    split_ifs <;> omega
  revert hz
  generalize (if size = 0 then 1 else size) = z
  intro hz
  unfold sizedAlloc
  by_cases h1 : z ≤ small
  · rw [if_pos h1]
    exact smallAlloc_rule hkept hnew hc _ _
  rw [if_neg h1]
  by_cases h2 : z ≤ block
  · rw [if_pos h2]
    exact runAlloc_rule hkept hnew hc _ _
  rw [if_neg h2]
  have hn : 0 < (z + block - 1) / block ∧ (z + block - 1) / block ≤ 512 := by
    unfold block at h2 ⊢
    omega
  exact rowAlloc_rule hkept hnew hc hn.1 hn.2 e

end

/-- A row in use is at `a`: a block of more than 2 MiB. -/
def Row (c : Cfg) (a : ℕ) : Prop :=
  ∃ k, c.chunkOf a = some k ∧ (c.m.chunk k).broken = false ∧ 1 < (c.m.chunk k).nframes ∧
    a = (c.m.chunk k).base ∧ (c.m.chunk k).bigUsed = true

theorem row_iff {a k : ℕ} (hk : c.chunkOf a = some k) :
    c.Row a ↔ c.sizeL a ≠ 0 ∧ 1 < (c.m.chunk k).nframes := by
  unfold Row sizeL
  rw [hk]
  dsimp only
  unfold sizeAt
  constructor
  · rintro ⟨l, hl, hb, hn, ha, hu⟩
    obtain rfl := Option.some.inj hl
    rw [hb, if_neg (by simp), if_pos hn, if_pos ⟨ha, hu⟩]
    refine ⟨?_, hn⟩
    unfold block
    omega
  · rintro ⟨hs, hn⟩
    by_cases hb : (c.m.chunk k).broken = true
    · rw [if_pos hb] at hs
      exact absurd rfl hs
    rw [if_neg hb, if_pos hn] at hs
    by_cases ha : a = (c.m.chunk k).base ∧ (c.m.chunk k).bigUsed = true
    · exact ⟨k, rfl, by simpa using hb, hn, ha.1, ha.2⟩
    · rw [if_neg ha] at hs
      exact absurd rfl hs

/-- A free makes no block, or splits the row at its address. -/
theorem freeL_cases (c : Cfg) (a : ℕ) (e : Env) : Kept c (c.freeL a e) ∨
    c.Row a ∧ ∃ k c', c.chunkOf a = some k ∧ Kept c c' ∧ c.freeL a e = c'.splitBig k e := by
  unfold freeL
  cases hk : c.chunkOf a with
  | none => exact Or.inl (Kept.refl c)
  | some k =>
    dsimp only
    by_cases hb : (c.m.chunk k).broken = true
    · rw [if_pos hb]
      exact Or.inl (Kept.refl c)
    rw [if_neg hb]
    by_cases hn : 1 < (c.m.chunk k).nframes
    · rw [if_pos hn]
      by_cases ha : a ≠ (c.m.chunk k).base ∨ ¬(c.m.chunk k).bigUsed = true
      · rw [if_pos ha]
        exact Or.inl (Kept.refl c)
      · rw [if_neg ha]
        rw [not_or, not_not, not_not] at ha
        have hrow : c.Row a := ⟨k, hk, by simpa using hb, hn, ha.1, ha.2⟩
        have h1 := kept_subUsed (c := c) ((c.m.chunk k).nframes * block)
        refine Or.inr ⟨hrow, k, (c.subUsed ((c.m.chunk k).nframes * block)).setChunk k
          { c.m.chunk k with bigUsed := false }, rfl, h1.trans ?_, rfl⟩
        exact kept_setChunk k rfl rfl rfl
    · rw [if_neg hn]
      left
      cases (c.m.chunk k).slab (pageOf a) with
      | some s =>
        dsimp only
        cases pieceAt (c.m.slab s) a with
        | none => exact Kept.refl c
        | some j => exact kept_freePiece _ _ _
      | none =>
        dsimp only
        by_cases hr : a % page ≠ 0 ∨ (c.m.chunk k).run (pageOf a) = 0
        · rw [if_pos hr]
          exact Kept.refl c
        · rw [if_neg hr]
          have h1 := kept_subUsed (c := c) ((c.m.chunk k).run (pageOf a) * page)
          exact h1.trans (kept_setChunk k rfl rfl rfl)

end

end Cfg

end BananaOS.Umem
