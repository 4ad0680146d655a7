import BananaOS.Lib.Owners
import BananaOS.Umem.Shared
import Mathlib.Algebra.Order.BigOperators.Group.Finset

/-!
# What the pool has given out

Restricted memories share a pool.  A memory's blocks are charged to it when they are made, or all at
once when the memory becomes a restricted one, and each block carries a mark (`pooled`) that says
that its frames are to be given back when it is released.  Pages that a memory maps are charged by
themselves (`umem_vm_charge`).

`Mem.owed` is what a memory has of the pool, and `Cfg.Books` says that the pool's count is that and
what the others have.  It is kept by everything but the split of a row: `split_big` makes its blocks
new, without the mark, and so their frames are not given back when the memory goes.  The other
exception is in the numbers: `reserved` has 32 bits, so that a memory that has more when it becomes a
restricted one is charged for less.
-/

namespace BananaOS.Umem

/-! ## Numbers of 32 bits -/

theorem add32_eq {a b : ℕ} (h : a + b < 2 ^ 32) : add32 a b = a + b := Nat.mod_eq_of_lt h

theorem sub32_eq {a b : ℕ} (h : b ≤ a) (ha : a < 2 ^ 32) : sub32 a b = a - b := by
  unfold sub32
  rw [Nat.mod_eq_of_lt (h.trans_lt ha)]
  omega

namespace Pool

/-- The pool has given out no more than it has. -/
structure Ok (p : Pool) : Prop where
  used : p.used ≤ p.limit
  top : p.limit ≤ 2 ^ 30

variable {p : Pool}

/-- `pool_take` takes the bytes, or it takes nothing. -/
theorem Ok.take_cases (h : p.Ok) (bytes heapFree : ℕ) : ∃ l, p.used ≤ l ∧ l ≤ 2 ^ 30 ∧
    (p.used + bytes ≤ l ∧ p.take bytes heapFree = (⟨l, p.used + bytes⟩, true) ∨
      p.take bytes heapFree = (⟨l, p.used⟩, false)) := by
  have hl : p.used ≤ (if p.limit = 0 then min (heapFree / 2) (1024 <<< 20) else p.limit) ∧
      (if p.limit = 0 then min (heapFree / 2) (1024 <<< 20) else p.limit) ≤ 2 ^ 30 := by
    have h1 := h.used
    have h2 := h.top
    split_ifs with h0
    · have : (1024 <<< 20 : ℕ) = 2 ^ 30 := by decide
      omega
    · exact ⟨h1, h2⟩
  refine ⟨_, hl.1, hl.2, ?_⟩
  unfold Pool.take
  dsimp only
  rw [sub32_eq hl.1 (by omega)]
  generalize (if p.limit = 0 then min (heapFree / 2) (1024 <<< 20) else p.limit) = l at hl
  by_cases hb : bytes ≤ l - p.used
  · rw [if_pos hb, add32_eq (by omega)]
    exact Or.inl ⟨by omega, rfl⟩
  · rw [if_neg hb]
    exact Or.inr rfl

theorem Ok.take (h : p.Ok) (bytes heapFree : ℕ) :
    (p.take bytes heapFree).1.Ok ∧ (p.take bytes heapFree).1.used =
      if (p.take bytes heapFree).2 then p.used + bytes else p.used := by
  obtain ⟨l, h1, h2, ⟨h3, heq⟩ | heq⟩ := h.take_cases bytes heapFree
  · rw [heq]
    exact ⟨⟨h3, h2⟩, rfl⟩
  · rw [heq]
    exact ⟨⟨h1, h2⟩, rfl⟩

/-- `pool_give`, of bytes that were taken -/
theorem Ok.give (h : p.Ok) {bytes : ℕ} (hb : bytes ≤ p.used) :
    (p.give bytes).Ok ∧ (p.give bytes).used = p.used - bytes := by
  have h1 := h.used
  have h2 := h.top
  have hs : sub32 p.used bytes = p.used - bytes := sub32_eq hb (by omega)
  refine ⟨⟨?_, h2⟩, hs⟩
  show sub32 p.used bytes ≤ p.limit
  omega

end Pool

/-! ## The accounts of one memory -/

/-- The frames of a memory's blocks. -/
def Mem.rows (m : Mem) : ℕ := (m.chunks.map fun k => (m.chunk k).nframes).sum

/-- What a memory has of the pool, with `q` bytes of pages charged to it. -/
def Mem.owed (m : Mem) (q : ℕ) : ℕ := if m.limit = 0 then 0 else m.rows * block + q

/-- The accounts of a memory with `q` bytes of pages charged. -/
structure Mem.Acct (m : Mem) (q : ℕ) : Prop where
  pooled : ∀ k ∈ m.chunks, (m.chunk k).pooled = decide (m.limit ≠ 0)
  free : m.limit = 0 → m.reserved = m.rows * block % 2 ^ 32 ∧ q = 0
  tied : m.limit ≠ 0 → m.reserved = m.rows * block + q ∧ m.reserved ≤ m.limit
  top : m.limit < 2 ^ 32

theorem Mem.Acct.frame {m m' : Mem} {q : ℕ} (h : m.Acct q) (hc : m'.chunks = m.chunks)
    (hl : m'.limit = m.limit) (hr : m'.reserved = m.reserved)
    (hn : ∀ k, (m'.chunk k).nframes = (m.chunk k).nframes)
    (hp : ∀ k, (m'.chunk k).pooled = (m.chunk k).pooled) : m'.Acct q ∧ m'.owed q = m.owed q := by
  have hrows : m'.rows = m.rows := by
    unfold Mem.rows
    rw [hc]
    simp only [hn]
  refine ⟨⟨fun k hk => ?_, ?_, ?_, ?_⟩, ?_⟩
  · rw [hp, hl]
    exact h.pooled k (hc ▸ hk)
  · rw [hl, hr, hrows]
    exact h.free
  · rw [hl, hr, hrows]
    exact h.tied
  · rw [hl]
    exact h.top
  · unfold Mem.owed
    rw [hl, hrows]

namespace Cfg

/-- The pool has given out what the memory has of it, and `rest` to the others. -/
structure Books (c : Cfg) (q rest : ℕ) : Prop where
  frames : c.Frames
  acct : c.m.Acct q
  pool : c.pool.Ok
  used : c.pool.used = rest + c.m.owed q

variable {c : Cfg} {q rest : ℕ}

theorem Books.kept (h : c.Books q rest) {c' : Cfg} (hk : Kept c c') : c'.Books q rest := by
  obtain ⟨ha, ho⟩ := h.acct.frame hk.chunks hk.limit hk.reserved hk.nframes hk.pooled
  refine ⟨hk.frames h.frames, ha, ?_, ?_⟩
  · rw [hk.pool]
    exact h.pool
  · rw [hk.pool, ho]
    exact h.used

theorem Books.pooled (h : c.Books q rest) {p : Pool} (hp : p.Ok) (hu : p.used = c.pool.used) :
    ({ c with pool := p } : Cfg).Books q rest :=
  ⟨h.frames.frame rfl rfl rfl le_rfl fun _ _ => ⟨rfl, rfl⟩, h.acct, hp, hu.trans h.used⟩

theorem rows_added (h : c.Frames) (n b : ℕ) (e : Env) (p : Pool) :
    (c.added n b e p).m.rows = n + c.m.rows := by
  show (List.map _ (c.m.next :: c.m.chunks)).sum = _
  rw [List.map_cons, List.sum_cons]
  have hnew : (c.added n b e p).m.chunk c.m.next = c.made n b e := Function.update_self _ _ _
  rw [hnew, made_nframes]
  congr 2
  refine List.map_congr_left fun k hk => ?_
  have : (c.added n b e p).m.chunk k = c.m.chunk k :=
    Function.update_of_ne (h.fresh k hk).ne _ _
  rw [this]

/-- A new row: charged to the pool when the memory is a restricted one. -/
theorem Books.newChunk (h : c.Books q rest) {n : ℕ} (hn : n ≤ 512) (e : Env) :
    (c.newChunk n e).1.Books q rest := by
  have htake := h.pool.take (n * block) e.heapFree
  rcases newChunk_cases c n e with ⟨p, heq, hp⟩ | ⟨b, p, hn0, hlim, hroom, htop, hp, heq⟩
  · rw [heq]
    rcases hp with rfl | ⟨-, ⟨rfl, hno⟩ | ⟨hyes, rfl⟩⟩
    · exact h
    · refine h.pooled htake.1 ?_
      rw [htake.2, hno]
      rfl
    · have hu := htake.2
      rw [hyes, if_pos rfl] at hu
      have hle : n * block ≤ (c.pool.take (n * block) e.heapFree).1.used := by omega
      obtain ⟨hok, hgive⟩ := htake.1.give hle
      exact h.pooled hok (by omega)
  · rw [heq]
    have hrows := rows_added h.frames n b e p
    have hb : n * block ≤ 2 ^ 30 := by
      unfold block
      omega
    refine ⟨h.frames.added hn0 hroom htop p, ⟨?_, ?_, ?_, h.acct.top⟩, ?_, ?_⟩
    · intro k hk
      rcases List.mem_cons.mp hk with rfl | hk
      · show (Function.update c.m.chunk c.m.next (c.made n b e) c.m.next).pooled = _
        rw [Function.update_self, made_pooled]
        rfl
      · show (Function.update c.m.chunk c.m.next (c.made n b e) k).pooled = _
        rw [Function.update_of_ne (h.frames.fresh k hk).ne]
        exact h.acct.pooled k hk
    · intro hl
      obtain ⟨hr, hq⟩ := h.acct.free hl
      refine ⟨?_, hq⟩
      show add32 c.m.reserved (n * block) = _
      rw [hr, hrows]
      unfold add32
      rw [Nat.mod_add_mod, Nat.add_mul, Nat.add_comm]
    · intro hl
      obtain ⟨hr, hle⟩ := h.acct.tied hl
      have hfit := hlim hl
      have hlt := h.acct.top
      have hadd : add32 c.m.reserved (n * block) = c.m.reserved + n * block :=
        add32_eq (by omega)
      show add32 c.m.reserved (n * block) = _ ∧ add32 c.m.reserved (n * block) ≤ c.m.limit
      rw [hadd, hrows, Nat.add_mul]
      omega
    · rcases hp with ⟨-, rfl⟩ | ⟨-, hp⟩
      · exact h.pool
      · have := htake.1
        rw [hp] at this
        exact this
    · have howed : (c.added n b e p).m.owed q =
          if c.m.limit = 0 then 0 else (c.added n b e p).m.rows * block + q := rfl
      show p.used = _
      rw [howed, hrows]
      have hu := h.used
      unfold Mem.owed at hu
      rcases hp with ⟨hl, rfl⟩ | ⟨hl, hp⟩
      · rw [if_pos hl] at hu ⊢
        exact hu
      · rw [if_neg hl] at hu ⊢
        have := htake.2
        rw [hp, if_pos rfl] at this
        rw [this, hu, Nat.add_mul]
        omega

/-! ## A row split -/

/-- The frames of the blocks while a row is split: its first `j` are blocks again. -/
theorem rows_relinked {l : ℕ} (hl : l ∉ c.m.chunks) (ch : Chunk) :
    (c.relinked l ch).m.rows = ch.nframes + c.m.rows := by
  show (List.map _ (l :: c.m.chunks)).sum = _
  rw [List.map_cons, List.sum_cons]
  have hnew : (c.relinked l ch).m.chunk l = ch := Function.update_self _ _ _
  rw [hnew]
  congr 2
  refine List.map_congr_left fun k hk => ?_
  have : (c.relinked l ch).m.chunk k = c.m.chunk k :=
    Function.update_of_ne (fun hx => hl (by rw [← hx]; exact hk)) _ _
  rw [this]

theorem rows_unlinked {b : ℕ} (hb : b ∈ c.m.chunks) :
    (c.unlinked b).m.rows + (c.m.chunk b).nframes = c.m.rows := by
  have hperm := List.perm_cons_erase hb
  have hsum := (hperm.map fun k => (c.m.chunk k).nframes).sum_eq
  rw [List.map_cons, List.sum_cons] at hsum
  show (List.map _ (c.m.chunks.erase b)).sum + _ = (List.map _ c.m.chunks).sum
  rw [hsum]
  exact Nat.add_comm _ _

/-- What a split changes in the accounts: the mark of the new blocks is clear. -/
structure Resplit (c c' : Cfg) (big : Chunk) (b j : ℕ) : Prop where
  rows : c'.m.rows + big.nframes = c.m.rows + j
  limit : c'.m.limit = c.m.limit
  reserved : c'.m.reserved = c.m.reserved
  pool : c'.pool = c.pool
  pooled : ∀ k ∈ c'.m.chunks,
    (c'.m.chunk k).pooled = decide (c.m.limit ≠ 0) ∨ j ≠ 0 ∧ (c'.m.chunk k).pooled = false

/-- **A split keeps the accounts of a memory that is not restricted**, and of any memory when there
is no memory for the first of the new blocks. -/
theorem Books.splitBig (h : c.Books q rest) {b : ℕ} (hb : b ∈ c.m.chunks) {e : Env}
    (hok : c.m.limit = 0 ∨ e.splitMem 0 = false) : (c.splitBig b e).Books q rest := by
  have hpos := h.frames.pos b hb
  have hfr := (h.frames.splitBig hb e).1
  suffices hx : (c.splitBig b e).m.rows = c.m.rows ∧ (c.splitBig b e).m.limit = c.m.limit ∧
      (c.splitBig b e).m.reserved = c.m.reserved ∧ (c.splitBig b e).pool = c.pool ∧
      ∀ k ∈ (c.splitBig b e).m.chunks,
        ((c.splitBig b e).m.chunk k).pooled = decide (c.m.limit ≠ 0) by
    obtain ⟨h1, h2, h3, h4, h5⟩ := hx
    refine ⟨hfr, ⟨?_, ?_, ?_, ?_⟩, ?_, ?_⟩
    · rw [h2]
      exact h5
    · rw [h1, h2, h3]
      exact h.acct.free
    · rw [h1, h2, h3]
      exact h.acct.tied
    · rw [h2]
      exact h.acct.top
    · rw [h4]
      exact h.pool
    · unfold Mem.owed
      rw [h1, h2, h4]
      exact h.used
  refine splitBig_rule (P := fun c' j => Resplit c c' (c.m.chunk b) b j ∧
      (j ≠ 0 → e.splitMem 0 = true))
    (Q := fun c' => c'.m.rows = c.m.rows ∧ c'.m.limit = c.m.limit ∧
      c'.m.reserved = c.m.reserved ∧ c'.pool = c.pool ∧
      ∀ k ∈ c'.m.chunks, (c'.m.chunk k).pooled = decide (c.m.limit ≠ 0)) h.frames hb ?_ ?_ ?_ ?_
  · refine ⟨⟨rows_unlinked hb, rfl, rfl, rfl, fun k hk => Or.inl ?_⟩, fun hx => absurd rfl hx⟩
    exact h.acct.pooled k (List.mem_of_mem_erase hk)
  · rintro c' j hs ⟨hr, hj0⟩ hj hm
    have hnew : c'.m.next ∉ c'.m.chunks := fun hx => (hs.fresh _ hx).false
    refine ⟨⟨?_, hr.limit, hr.reserved, hr.pool, fun k hk => ?_⟩, fun _ => ?_⟩
    · rw [rows_relinked hnew]
      have := hr.rows
      simp only [Chunk.new]
      omega
    · rcases List.mem_cons.mp hk with rfl | hk
      · right
        refine ⟨by omega, ?_⟩
        show (Function.update c'.m.chunk c'.m.next _ c'.m.next).pooled = false
        rw [Function.update_self]
        rfl
      · have hold : ((c'.relinked c'.m.next
            (Chunk.new ((c.m.chunk b).frame + j) 1 false)).m.chunk k) = c'.m.chunk k :=
          Function.update_of_ne (fun hx => hnew (by rw [← hx]; exact hk)) _ _
        rw [hold]
        rcases hr.pooled k hk with hp | ⟨-, hp⟩
        · exact Or.inl hp
        · exact Or.inr ⟨by omega, hp⟩
    · rcases Nat.eq_zero_or_pos j with rfl | hpos
      · exact hm
      · exact hj0 (by omega)
  · rintro c' j hs ⟨hr, hj0⟩ hj hm
    refine ⟨?_, hr.limit, hr.reserved, hr.pool, fun k hk => ?_⟩
    · rw [rows_relinked hs.gone]
      have := hr.rows
      dsimp only
      omega
    · rcases List.mem_cons.mp hk with rfl | hk
      · show (Function.update c'.m.chunk k _ k).pooled = _
        rw [Function.update_self]
        exact h.acct.pooled k hb
      · have hold : ((c'.relinked b { c.m.chunk b with
            frame := (c.m.chunk b).frame + j, nframes := (c.m.chunk b).nframes - j,
            bigUsed := true }).m.chunk k) = c'.m.chunk k :=
          Function.update_of_ne (fun hx => hs.gone (by rw [← hx]; exact hk)) _ _
        rw [hold]
        rcases hr.pooled k hk with hp | ⟨hj', hp⟩
        · exact hp
        · rcases hok with hl | hno
          · rw [hp, hl]
            rfl
          · rw [hj0 hj'] at hno
            exact absurd hno (by simp)
  · rintro c' ⟨hr, hj0⟩
    have hrows := hr.rows
    refine ⟨by omega, hr.limit, hr.reserved, hr.pool, fun k hk => ?_⟩
    rcases hr.pooled k hk with hp | ⟨hj', hp⟩
    · exact hp
    · rcases hok with hl | hno
      · rw [hp, hl]
        rfl
      · rw [hj0 hj'] at hno
        exact absurd hno (by simp)

/-! ## The calls -/

theorem Books.allocL (h : c.Books q rest) (size : ℕ) (e : Env) :
    (c.allocL size e).1.Books q rest :=
  allocL_rule (P := fun c => c.Books q rest) (fun _ _ hk hb => hb.kept hk)
    (fun _ _ e _ hn hb => hb.newChunk hn e) h size e

/-- A free, of anything but a row of a restricted memory that can be split -/
theorem Books.freeL (h : c.Books q rest) {a : ℕ} {e : Env}
    (hok : c.m.limit ≠ 0 → e.splitMem 0 = true → ¬c.Row a) : (c.freeL a e).Books q rest := by
  rcases freeL_cases c a e with hk | ⟨hrow, k, c', hk, hkept, heq⟩
  · exact h.kept hk
  · rw [heq]
    have hmem : k ∈ c'.m.chunks := by
      rw [hkept.chunks]
      exact (h.frames.chunkOf_eq_some.mp hk).1
    refine (h.kept hkept).splitBig hmem ?_
    rw [hkept.limit]
    by_contra hno
    rw [not_or, Bool.not_eq_false] at hno
    exact hok hno.1 hno.2 hrow

/-- The rows of a memory stay rows while blocks are made. -/
structure Grown (c c' : Cfg) : Prop where
  frames : c'.Frames
  id : c'.id = c.id
  limit : c'.m.limit = c.m.limit
  chunks : ∀ k ∈ c.m.chunks, k ∈ c'.m.chunks ∧ (c'.m.chunk k).frame = (c.m.chunk k).frame ∧
    (c'.m.chunk k).nframes = (c.m.chunk k).nframes

theorem Grown.kept {a b : Cfg} (h : Grown c a) (hk : Kept a b) : Grown c b := by
  refine ⟨hk.frames h.frames, hk.id.trans h.id, hk.limit.trans h.limit, fun k hm => ?_⟩
  obtain ⟨h1, h2, h3⟩ := h.chunks k hm
  rw [hk.chunks, hk.frame, hk.nframes]
  exact ⟨h1, h2, h3⟩

theorem Grown.newChunk {a : Cfg} (h : Grown c a) (n : ℕ) (e : Env) :
    Grown c (a.newChunk n e).1 := by
  rcases newChunk_cases a n e with ⟨p, heq, -⟩ | ⟨b, p, hn0, -, hroom, htop, -, heq⟩
  · rw [heq]
    exact ⟨h.frames.frame rfl rfl rfl le_rfl fun _ _ => ⟨rfl, rfl⟩, h.id, h.limit, h.chunks⟩
  · rw [heq]
    refine ⟨h.frames.added hn0 hroom htop p, h.id, h.limit, fun k hm => ?_⟩
    obtain ⟨h1, h2, h3⟩ := h.chunks k hm
    have hold : (a.added n b e p).m.chunk k = a.m.chunk k :=
      Function.update_of_ne (h.frames.fresh k h1).ne _ _
    dsimp only
    rw [hold]
    exact ⟨List.mem_cons_of_mem _ h1, h2, h3⟩

theorem grown_allocL (h : c.Frames) (size : ℕ) (e : Env) : Grown c (c.allocL size e).1 :=
  allocL_rule (P := fun c' => Grown c c') (fun _ _ hk hb => hb.kept hk)
    (fun _ n e _ _ hb => hb.newChunk n e) ⟨h, rfl, rfl, fun _ hk => ⟨hk, rfl, rfl⟩⟩ size e

/-- What is a row after blocks were made was one before, if it was in use. -/
theorem Grown.row {c' : Cfg} (h : c.Frames) (hg : Grown c c') {a : ℕ} (ha : c.sizeL a ≠ 0)
    (hr : c'.Row a) : c.Row a := by
  cases hk : c.chunkOf a with
  | none =>
    unfold sizeL at ha
    rw [hk] at ha
    exact absurd rfl ha
  | some k =>
    obtain ⟨hm, hhas⟩ := h.chunkOf_eq_some.mp hk
    obtain ⟨hm', hf, hn⟩ := hg.chunks k hm
    have hk' : c'.chunkOf a = some k := by
      refine hg.frames.chunkOf_eq_some.mpr ⟨hm', ?_⟩
      unfold Chunk.Has
      rw [hf, hn]
      exact hhas
    have := (row_iff hk').mp hr
    rw [hn] at this
    exact (row_iff hk).mpr ⟨ha, this.2⟩

theorem sizeL_setPin (a b : ℕ) (y : Bool) : (c.setPin b y).sizeL a = c.sizeL a := by
  unfold setPin
  cases c.chunkOf b with
  | none => rfl
  | some k =>
    have hof : ∀ ch, (c.setChunk k ch).chunkOf a = c.chunkOf a := fun _ => rfl
    dsimp only
    split_ifs
    all_goals
      unfold sizeL
      rw [hof]
      cases c.chunkOf a with
      | none => rfl
      | some l =>
        rcases eq_or_ne l k with rfl | hl
        · show sizeAt c.m.slab (Function.update c.m.chunk l _ l) a = _
          rw [Function.update_self]
          rfl
        · show sizeAt c.m.slab (Function.update c.m.chunk k _ l) a = _
          rw [Function.update_of_ne hl]

theorem row_setPin {a b : ℕ} {y : Bool} (hr : (c.setPin b y).Row a) : c.Row a := by
  have hof : (c.setPin b y).chunkOf a = c.chunkOf a := by
    unfold chunkOf
    rw [(kept_setPin (c := c) b y).id, (kept_setPin (c := c) b y).dir]
  have hrow := hr
  obtain ⟨k, hk, -⟩ := hrow
  have hn := ((row_iff hk).mp hr).2
  rw [(kept_setPin (c := c) b y).nframes] at hn
  have hs := ((row_iff hk).mp hr).1
  rw [sizeL_setPin] at hs
  rw [hof] at hk
  exact (row_iff hk).mpr ⟨hs, hn⟩

/-- A call that frees a row in use. -/
def Splits (c : Cfg) (e : Env) : Call → Prop
  | .free a => a ≠ 0 ∧ c.pinned a = false ∧ c.Row a
  | .realloc a size => a ≠ 0 ∧ c.pinned a = false ∧ c.Row a ∧
      (size = 0 ∨ ¬(size ≤ c.sizeL a ∧ (c.sizeL a ≤ small ∨ c.sizeL a / 2 < size)) ∧
        (c.allocL size e).2 ≠ none)
  | .freePages a => c.Row a
  | _ => False

/-- No row of a restricted memory is split by the call, and no memory becomes a restricted one with
`2 ^ 32` bytes of blocks or more. -/
structure Sound (c : Cfg) (e : Env) (f : Call) : Prop where
  split : c.m.limit ≠ 0 → e.splitMem 0 = true → ¬c.Splits e f
  fits : ∀ bytes, f = .limit bytes → (c.umemLimit bytes e.heapFree).2 = true →
    c.m.rows * block < 2 ^ 32

/-- What the callers keep to: no more is given back than was charged, and a limit has 32 bits. -/
def Asked (c : Cfg) (q : ℕ) : Call → Prop
  | .vmUncharge bytes => c.m.limit ≠ 0 → bytes ≤ q
  | .limit bytes => bytes < 2 ^ 32
  | _ => True

/-- The bytes of pages that are charged to the memory after the call. -/
def charged (c : Cfg) (e : Env) (q : ℕ) : Call → ℕ
  | .vmCharge bytes =>
    if c.m.limit ≠ 0 ∧ (c.umemVmCharge bytes e.heapFree).2 = true then q + bytes else q
  | .vmUncharge bytes => if c.m.limit = 0 then q else q - bytes
  | _ => q

theorem Books.reallocL (h : c.Books q rest) {a size : ℕ} {e : Env} (ha : a ≠ 0)
    (hok : c.m.limit ≠ 0 → e.splitMem 0 = true → c.Row a → ¬(size = 0 ∨
      ¬(size ≤ c.sizeL a ∧ (c.sizeL a ≤ small ∨ c.sizeL a / 2 < size)) ∧
        (c.allocL size e).2 ≠ none)) : (c.reallocL a size e).1.Books q rest := by
  unfold Cfg.reallocL
  rw [if_neg ha]
  by_cases hz : size = 0
  · rw [if_pos hz]
    exact h.freeL fun hl hm hr => hok hl hm hr (Or.inl hz)
  rw [if_neg hz]
  dsimp only
  by_cases ho : c.sizeL a = 0
  · rw [if_pos ho]
    exact h
  rw [if_neg ho]
  by_cases hs : size ≤ c.sizeL a ∧ (c.sizeL a ≤ small ∨ c.sizeL a / 2 < size)
  · rw [if_pos hs]
    exact h
  rw [if_neg hs]
  have hal := h.allocL size e
  have hg := grown_allocL h.frames size e
  cases hr : c.allocL size e with
  | mk c' r =>
    rw [hr] at hal hg
    cases r with
    | none => exact hal
    | some n =>
      refine Books.freeL hal fun hl hm hrow => ?_
      have hrow' := hg.row h.frames ho hrow
      rw [hg.limit] at hl
      exact hok hl hm hrow' (Or.inr ⟨hs, by rw [hr]; simp⟩)

theorem Books.vmCharge (h : c.Books q rest) (bytes heapFree : ℕ) :
    (c.umemVmCharge bytes heapFree).1.Books
      (if c.m.limit ≠ 0 ∧ (c.umemVmCharge bytes heapFree).2 = true then q + bytes else q) rest := by
  unfold umemVmCharge
  by_cases hl : c.m.limit = 0
  · simp only [hl, ne_eq, not_true_eq_false, false_and, if_false, if_true]
    exact h
  simp only [if_neg hl]
  obtain ⟨hr, hle⟩ := h.acct.tied hl
  have htop := h.acct.top
  by_cases hfit : sub32 c.m.limit c.m.reserved < bytes
  · simp only [if_pos hfit, Bool.false_eq_true, and_false, if_false]
    exact h
  simp only [if_neg hfit]
  rw [sub32_eq hle htop] at hfit
  have hu := h.used
  unfold Mem.owed at hu
  rw [if_neg hl] at hu
  obtain ⟨l, h1, h2, ⟨h3, heq⟩ | heq⟩ := h.pool.take_cases bytes heapFree
  · rw [heq]
    simp only [not_true_eq_false, if_false, and_true, hl, ne_eq, not_false_eq_true, if_true]
    have hadd : add32 c.m.reserved bytes = c.m.reserved + bytes := add32_eq (by omega)
    refine ⟨h.frames.frame rfl rfl rfl le_rfl fun _ _ => ⟨rfl, rfl⟩,
      ⟨h.acct.pooled, fun hx => absurd hx hl, fun _ => ?_, htop⟩, ⟨h3, h2⟩, ?_⟩
    · show add32 c.m.reserved bytes = c.m.rows * block + (q + bytes) ∧
        add32 c.m.reserved bytes ≤ c.m.limit
      omega
    · show c.pool.used + bytes = rest + if c.m.limit = 0 then 0 else c.m.rows * block + (q + bytes)
      rw [if_neg hl]
      omega
  · rw [heq]
    simp only [Bool.false_eq_true, not_false_eq_true, if_true, and_false, if_false]
    exact h.pooled ⟨h1, h2⟩ rfl

theorem Books.vmUncharge (h : c.Books q rest) {bytes : ℕ} (hb : c.m.limit ≠ 0 → bytes ≤ q) :
    (c.umemVmUncharge bytes).Books (if c.m.limit = 0 then q else q - bytes) rest := by
  unfold umemVmUncharge
  by_cases hl : c.m.limit = 0
  · rw [if_pos (Or.inl hl), if_pos hl]
    exact h
  rw [if_neg hl]
  by_cases h0 : bytes = 0
  · rw [if_pos (Or.inr h0), h0]
    exact h
  rw [if_neg (not_or.mpr ⟨hl, h0⟩)]
  have hq := hb hl
  obtain ⟨hr, hle⟩ := h.acct.tied hl
  have htop := h.acct.top
  have hu := h.used
  unfold Mem.owed at hu
  rw [if_neg hl] at hu
  obtain ⟨hok, hgive⟩ := h.pool.give (show bytes ≤ c.pool.used by omega)
  have hsub : sub32 c.m.reserved bytes = c.m.reserved - bytes := sub32_eq (by omega) (by omega)
  refine ⟨h.frames.frame rfl rfl rfl le_rfl fun _ _ => ⟨rfl, rfl⟩,
    ⟨h.acct.pooled, fun hx => absurd hx hl, fun _ => ?_, htop⟩, hok, ?_⟩
  · show sub32 c.m.reserved bytes = c.m.rows * block + (q - bytes) ∧
      sub32 c.m.reserved bytes ≤ c.m.limit
    omega
  · show (c.pool.give bytes).used =
      rest + if c.m.limit = 0 then 0 else c.m.rows * block + (q - bytes)
    rw [if_neg hl]
    omega

theorem Books.limit (h : c.Books q rest) {bytes heapFree : ℕ} (hb : bytes < 2 ^ 32)
    (hfits : (c.umemLimit bytes heapFree).2 = true → c.m.rows * block < 2 ^ 32) :
    (c.umemLimit bytes heapFree).1.Books q rest := by
  revert hfits
  unfold umemLimit
  by_cases hno : c.m.limit ≠ 0 ∨ bytes = 0 ∨ bytes < c.m.reserved
  · rw [if_pos hno]
    exact fun _ => h
  rw [if_neg hno]
  rw [not_or, not_or, not_not, not_lt] at hno
  obtain ⟨hl, hb0, hres⟩ := hno
  obtain ⟨hr, hq⟩ := h.acct.free hl
  have hu := h.used
  unfold Mem.owed at hu
  rw [if_pos hl] at hu
  dsimp only
  obtain ⟨l, h1, h2, ⟨h3, heq⟩ | heq⟩ := h.pool.take_cases c.m.reserved heapFree
  · rw [heq]
    simp only [not_true_eq_false, if_false, forall_const]
    intro hfits
    rw [Nat.mod_eq_of_lt hfits] at hr
    have hall := poolAll_eq c.m.chunks { c.m with limit := bytes }
    have p1 : (poolAll { c.m with limit := bytes } c.m.chunks).chunks = c.m.chunks := by rw [hall]
    have p2 : (poolAll { c.m with limit := bytes } c.m.chunks).limit = bytes := by rw [hall]
    have p3 : (poolAll { c.m with limit := bytes } c.m.chunks).reserved = c.m.reserved := by
      rw [hall]
    have p4 : (poolAll { c.m with limit := bytes } c.m.chunks).next = c.m.next := by rw [hall]
    have p5 : ∀ k, (poolAll { c.m with limit := bytes } c.m.chunks).chunk k =
        { c.m.chunk k with pooled := decide (k ∈ c.m.chunks) || (c.m.chunk k).pooled } := by
      intro k
      rw [hall]
    have hrows : (poolAll { c.m with limit := bytes } c.m.chunks).rows = c.m.rows := by
      unfold Mem.rows
      rw [p1]
      simp only [p5]
    refine ⟨h.frames.frame rfl rfl p1 p4.ge fun k _ => by rw [p5 k]; exact ⟨rfl, rfl⟩,
      ⟨fun k hk => ?_, fun hx => ?_, fun _ => ?_, ?_⟩, ⟨h3, h2⟩, ?_⟩
    · rw [p1] at hk
      rw [p5 k, p2]
      simp [hb0, show k ∈ c.m.chunks from hk]
    · exact absurd (p2.symm.trans hx) hb0
    · rw [p2, p3, hrows]
      show c.m.reserved = _ ∧ c.m.reserved ≤ bytes
      omega
    · rw [p2]
      exact hb
    · unfold Mem.owed
      rw [p2, hrows]
      show c.pool.used + c.m.reserved = rest + if bytes = 0 then 0 else c.m.rows * block + q
      rw [if_neg hb0]
      omega
  · rw [heq]
    simp only [Bool.false_eq_true, not_false_eq_true, if_true]
    exact fun _ => h.pooled ⟨h1, h2⟩ rfl

/-- **A call keeps the books of its memory.** -/
theorem Books.call (h : c.Books q rest) {e : Env} {f : Call} (hs : c.Sound e f)
    (ha : c.Asked q f) : (c.call e f).Books (c.charged e q f) rest := by
  cases f with
  | alloc size => exact h.allocL size e
  | free a =>
    show (c.umemFree a e).Books q rest
    unfold umemFree
    by_cases h0 : a = 0
    · rw [if_pos h0]
      exact h
    rw [if_neg h0]
    by_cases hp : c.pinned a = true
    · rw [if_pos hp]
      exact h
    · rw [if_neg hp]
      exact h.freeL fun hl hm hr => hs.split hl hm ⟨h0, by simpa using hp, hr⟩
  | realloc a size =>
    show (c.umemRealloc a size e).1.Books q rest
    unfold umemRealloc
    by_cases hp : a ≠ 0 ∧ c.pinned a = true
    · rw [if_pos hp]
      exact h
    rw [if_neg hp]
    by_cases h0 : a = 0
    · unfold Cfg.reallocL
      rw [if_pos h0]
      exact h.allocL size e
    · refine h.reallocL h0 fun hl hm hr hx => hs.split hl hm ⟨h0, ?_, hr, hx⟩
      rw [not_and] at hp
      simpa using hp h0
  | allocPages total =>
    show (c.umemAllocPages total e).1.Books q rest
    unfold umemAllocPages
    have hal := h.allocL (if total < small + 1 then small + 1 else total) e
    cases hr : c.allocL (if total < small + 1 then small + 1 else total) e with
    | mk c' r =>
      rw [hr] at hal
      cases r with
      | none => exact hal
      | some p => exact Books.kept hal (kept_setPin p true)
  | freePages a =>
    show (c.umemFreePages a e).Books q rest
    have hk := kept_setPin (c := c) a false
    refine (h.kept hk).freeL fun hl hm hr => ?_
    rw [hk.limit] at hl
    exact hs.split hl hm (row_setPin hr)
  | vmCharge bytes => exact h.vmCharge bytes e.heapFree
  | vmUncharge bytes => exact h.vmUncharge ha
  | limit bytes => exact h.limit ha (hs.fits bytes rfl)

/-! ## The end of a memory -/

/-- The blocks of the list are released, and the pool has what they took of it. -/
theorem releaseAll_pool (l : List ℕ) (c : Cfg) :
    (c.pool.Ok → (∀ k ∈ l, (c.m.chunk k).pooled = true) →
      (l.map fun k => (c.m.chunk k).nframes).sum * block ≤ c.pool.used →
      (c.releaseAll l).pool.Ok ∧ (c.releaseAll l).pool.used =
        c.pool.used - (l.map fun k => (c.m.chunk k).nframes).sum * block) ∧
    ((∀ k ∈ l, (c.m.chunk k).pooled = false) → (c.releaseAll l).pool = c.pool) := by
  induction l generalizing c with
  | nil => simp [releaseAll]
  | cons a l ih =>
    unfold releaseAll
    dsimp only
    obtain ⟨h3, h4⟩ := ih { c with
      dir := fun f => if (c.m.chunk a).frame ≤ f ∧
        f < (c.m.chunk a).frame + (c.m.chunk a).nframes then none else c.dir f
      pool := c.pool.release (c.m.chunk a) }
    refine ⟨fun hok hp hs => ?_, fun hp => ?_⟩
    · rw [List.map_cons, List.sum_cons, Nat.add_mul] at hs
      have hrel : c.pool.release (c.m.chunk a) = c.pool.give ((c.m.chunk a).nframes * block) := by
        unfold Pool.release
        rw [if_pos (hp a List.mem_cons_self)]
      obtain ⟨hok', hu⟩ := hok.give (show (c.m.chunk a).nframes * block ≤ c.pool.used by omega)
      dsimp only at h3
      rw [hrel] at h3 ⊢
      obtain ⟨g1, g2⟩ := h3 hok' (fun k hk => hp k (List.mem_cons_of_mem _ hk)) (by omega)
      refine ⟨g1, ?_⟩
      rw [g2, hu, List.map_cons, List.sum_cons, Nat.add_mul]
      omega
    · have hrel : c.pool.release (c.m.chunk a) = c.pool := by
        unfold Pool.release
        rw [hp a List.mem_cons_self]
        rfl
      dsimp only at h4
      rw [hrel] at h4 ⊢
      exact h4 fun k hk => hp k (List.mem_cons_of_mem _ hk)

end Cfg

/-! ## All memories -/

namespace Sys

/-- What the system can come to in any run, with the bytes of pages charged to each memory.  A memory
goes when its pages have been given back.  `ok` is what holds at each call. -/
inductive Reach (ok : Cfg → Env → Call → Prop) : Sys → (ℕ → ℕ) → Prop
  | boot : Reach ok boot fun _ => 0
  | create {s : Sys} {q : ℕ → ℕ} {id : ℕ} (h : Reach ok s q) (hid : s.mem id = none) :
      Reach ok (s.create id) q
  | call {s : Sys} {q : ℕ → ℕ} {id : ℕ} {m : Mem} {e : Env} {f : Call} (h : Reach ok s q)
      (hid : s.mem id = some m) (ha : (s.cfg id m).Asked (q id) f) (hok : ok (s.cfg id m) e f) :
      Reach ok (s.call id e f) (Function.update q id ((s.cfg id m).charged e (q id) f))
  | destroy {s : Sys} {q : ℕ → ℕ} {id : ℕ} (h : Reach ok s q) (hq : q id = 0) :
      Reach ok (s.destroy id) q

/-- What the memory `id` has of the pool. -/
def owed (s : Sys) (q : ℕ → ℕ) (id : ℕ) : ℕ :=
  match s.mem id with
  | none => 0
  | some m => m.owed (q id)

/-- The books of all memories; `S` are those that live. -/
structure Inv (s : Sys) (q : ℕ → ℕ) (S : Finset ℕ) : Prop extends s.Framed where
  living : ∀ id, id ∈ S ↔ s.mem id ≠ none
  acct : ∀ id m, s.mem id = some m → m.Acct (q id)
  uncharged : ∀ id, s.mem id = none → q id = 0
  pool : s.pool.Ok
  used : s.pool.used = ∑ id ∈ S, s.owed q id

variable {s : Sys} {q : ℕ → ℕ} {S : Finset ℕ}

theorem sum_owed {s s' : Sys} {q q' : ℕ → ℕ} {id : ℕ} (hid : id ∈ S)
    (hm : ∀ i, i ≠ id → s'.mem i = s.mem i) (hq : ∀ i, i ≠ id → q' i = q i) :
    ∑ i ∈ S, s'.owed q' i = ∑ i ∈ S.erase id, s.owed q i + s'.owed q' id := by
  rw [← Finset.sum_erase_add S _ hid]
  congr 1
  refine Finset.sum_congr rfl fun i hi => ?_
  have hne := Finset.ne_of_mem_erase hi
  unfold owed
  rw [hm i hne, hq i hne]

theorem Inv.books (h : s.Inv q S) {id : ℕ} {m : Mem} (hid : s.mem id = some m) :
    (s.cfg id m).Books (q id) (∑ i ∈ S.erase id, s.owed q i) := by
  have hmem : id ∈ S := (h.living id).mpr (by rw [hid]; simp)
  refine ⟨h.frames id m hid, h.acct id m hid, h.pool, ?_⟩
  have hu := h.used
  rw [sum_owed hmem (fun _ _ => rfl) fun _ _ => rfl] at hu
  unfold owed at hu ⊢
  rw [hid] at hu
  exact hu

theorem Inv.call (h : s.Inv q S) {id : ℕ} {m : Mem} {e : Env} {f : Call}
    (hid : s.mem id = some m) (ha : (s.cfg id m).Asked (q id) f) (hok : (s.cfg id m).Sound e f) :
    (s.call id e f).Inv (Function.update q id ((s.cfg id m).charged e (q id) f)) S := by
  have hb := (h.books hid).call hok ha
  have hfr := h.toFramed.call hid e f
  obtain ⟨hself, hother, -⟩ := h.toFramed.call_mem hid e f
  have hmem : id ∈ S := (h.living id).mpr (by rw [hid]; simp)
  have hpool : (s.call id e f).pool = ((s.cfg id m).call e f).pool := by
    unfold Sys.call
    rw [hid]
    rfl
  generalize (s.cfg id m).call e f = c at hb hself hpool
  generalize (s.cfg id m).charged e (q id) f = y at hb
  have hq : ∀ i, i ≠ id → Function.update q id y i = q i := fun i hi => Function.update_of_ne hi _ _
  refine ⟨hfr, fun i => ?_, fun i m' hi => ?_, fun i hi => ?_, ?_, ?_⟩
  · rcases eq_or_ne i id with rfl | hne
    · rw [hself]
      simp [hmem]
    · rw [hother i hne]
      exact h.living i
  · rcases eq_or_ne i id with rfl | hne
    · rw [hself] at hi
      obtain rfl := Option.some.inj hi
      rw [Function.update_self]
      exact hb.acct
    · rw [hother i hne] at hi
      rw [hq i hne]
      exact h.acct i m' hi
  · have hne : i ≠ id := by
      rintro rfl
      rw [hself] at hi
      exact absurd hi (by simp)
    rw [hother i hne] at hi
    rw [hq i hne]
    exact h.uncharged i hi
  · rw [hpool]
    exact hb.pool
  · rw [sum_owed hmem hother hq, hpool]
    unfold owed
    rw [hself, Function.update_self]
    exact hb.used

theorem Inv.create (h : s.Inv q S) {id : ℕ} (hid : s.mem id = none) :
    (s.create id).Inv q (insert id S) := by
  have hself : (s.create id).mem id = some umemCreate := Function.update_self _ _ _
  have hother : ∀ i, i ≠ id → (s.create id).mem i = s.mem i := fun i hi =>
    Function.update_of_ne hi _ _
  have hnot : id ∉ S := fun hx => (h.living id).mp hx hid
  refine ⟨h.toFramed.create hid, fun i => ?_, fun i m hi => ?_, fun i hi => ?_, h.pool, ?_⟩
  · rcases eq_or_ne i id with rfl | hne
    · rw [hself]
      simp
    · rw [hother i hne, Finset.mem_insert, or_iff_right hne]
      exact h.living i
  · rcases eq_or_ne i id with rfl | hne
    · rw [hself] at hi
      obtain rfl := Option.some.inj hi
      refine ⟨fun k hk => absurd hk List.not_mem_nil, fun _ => ⟨rfl, h.uncharged i hid⟩,
        fun hx => absurd rfl hx, ?_⟩
      show 0 < 2 ^ 32
      omega
    · rw [hother i hne] at hi
      exact h.acct i m hi
  · have hne : i ≠ id := by
      rintro rfl
      rw [hself] at hi
      exact absurd hi (by simp)
    rw [hother i hne] at hi
    exact h.uncharged i hi
  · rw [Finset.sum_insert hnot]
    have hzero : (s.create id).owed q id = 0 := by
      unfold owed
      rw [hself]
      rfl
    rw [hzero, Nat.zero_add]
    show s.pool.used = _
    rw [h.used]
    refine Finset.sum_congr rfl fun i hi => ?_
    unfold owed
    rw [hother i fun hx => hnot (hx ▸ hi)]

theorem Inv.destroy (h : s.Inv q S) {id : ℕ} (hq : q id = 0) :
    ∃ S', (s.destroy id).Inv q S' := by
  have hfr := h.toFramed.destroy id
  cases hid : s.mem id with
  | none =>
    have : s.destroy id = s := by
      unfold Sys.destroy
      rw [hid]
    rw [this]
    exact ⟨S, h⟩
  | some m =>
    have hb := h.books hid
    have hac := h.acct id m hid
    obtain ⟨hpool, hsame⟩ := Cfg.releaseAll_pool m.chunks (s.cfg id m)
    have hused : ((s.cfg id m).releaseAll m.chunks).pool.Ok ∧
        ((s.cfg id m).releaseAll m.chunks).pool.used = ∑ i ∈ S.erase id, s.owed q i := by
      have hu := hb.used
      by_cases hl : m.limit = 0
      · have hclear : ∀ k ∈ m.chunks, ((s.cfg id m).m.chunk k).pooled = false := by
          intro k hk
          have hp := hac.pooled k hk
          rw [hl] at hp
          exact hp
        rw [hsame hclear]
        refine ⟨h.pool, ?_⟩
        have hz : (s.cfg id m).m.owed (q id) = 0 := if_pos hl
        omega
      · have ho : (s.cfg id m).m.owed (q id) = m.rows * block + q id := if_neg hl
        have hset : ∀ k ∈ m.chunks, ((s.cfg id m).m.chunk k).pooled = true := by
          intro k hk
          have hp := hac.pooled k hk
          rw [decide_eq_true hl] at hp
          exact hp
        obtain ⟨h1, h2⟩ := hpool h.pool hset
          (show m.rows * block ≤ (s.cfg id m).pool.used by omega)
        refine ⟨h1, ?_⟩
        have hr : (m.chunks.map fun k => ((s.cfg id m).m.chunk k).nframes).sum = m.rows := rfl
        rw [hr] at h2
        omega
    have hd : (s.destroy id).mem = Function.update s.mem id none ∧
        (s.destroy id).pool = ((s.cfg id m).releaseAll m.chunks).pool := by
      unfold Sys.destroy
      rw [hid]
      exact ⟨rfl, rfl⟩
    generalize s.destroy id = t at hfr hd
    obtain ⟨hm, hp⟩ := hd
    have hself : t.mem id = none := by
      rw [hm, Function.update_self]
    have hother : ∀ i, i ≠ id → t.mem i = s.mem i := by
      intro i hi
      rw [hm, Function.update_of_ne hi]
    refine ⟨S.erase id, hfr, fun i => ?_, fun i m' hi => ?_, fun i hi => ?_, ?_, ?_⟩
    · rcases eq_or_ne i id with rfl | hne
      · rw [hself]
        simp
      · rw [hother i hne, Finset.mem_erase, and_iff_right hne]
        exact h.living i
    · have hne : i ≠ id := by
        rintro rfl
        rw [hself] at hi
        exact absurd hi (by simp)
      rw [hother i hne] at hi
      exact h.acct i m' hi
    · rcases eq_or_ne i id with rfl | hne
      · exact hq
      · rw [hother i hne] at hi
        exact h.uncharged i hi
    · rw [hp]
      exact hused.1
    · rw [hp, hused.2]
      refine Finset.sum_congr rfl fun i hi => ?_
      unfold owed
      rw [hother i (Finset.ne_of_mem_erase hi)]

theorem Reach.inv (h : Reach Cfg.Sound s q) : ∃ S, s.Inv q S := by
  induction h with
  | boot =>
    refine ⟨∅, framed_boot, fun i => by simp [Sys.boot], fun i m hi => ?_, fun i _ => rfl,
      ⟨le_rfl, Nat.zero_le _⟩, rfl⟩
    exact absurd hi (by simp [Sys.boot])
  | create h hid ih =>
    obtain ⟨S, hi⟩ := ih
    exact ⟨_, hi.create hid⟩
  | call h hid ha hok ih =>
    obtain ⟨S, hi⟩ := ih
    exact ⟨S, hi.call hid ha hok⟩
  | destroy h hq ih =>
    obtain ⟨S, hi⟩ := ih
    exact hi.destroy hq

/-- **The pool has given out what the living restricted memories have**: 2 MiB for each frame of their
blocks, and the pages charged to them.  With none of them left it has given out nothing.  This is so
in every run in which no row of a restricted memory is split and no memory becomes a restricted one
with `2 ^ 32` bytes of blocks. -/
theorem Reach.pool_used (h : Reach Cfg.Sound s q) :
    (∃ S : Finset ℕ, (∀ id, id ∈ S ↔ s.mem id ≠ none) ∧
      s.pool.used = ∑ id ∈ S, match s.mem id with
        | none => 0
        | some m => if m.limit = 0 then 0 else m.rows * block + q id) ∧
    ((∀ id m, s.mem id = some m → m.limit = 0) → s.pool.used = 0) := by
  obtain ⟨S, hi⟩ := h.inv
  refine ⟨⟨S, hi.living, hi.used⟩, fun hnone => ?_⟩
  rw [hi.used]
  refine Finset.sum_eq_zero fun i _ => ?_
  unfold owed
  cases hm : s.mem i with
  | none => rfl
  | some m => exact if_pos (hnone i m hm)

/-- A kernel that has all the memory that is asked for, above 4 GiB. -/
def plenty : Env where
  heapFree := 2 ^ 30
  chunkMem := true
  row := some 2048
  tables := true
  opened := true
  slabMem := true
  splitMem := fun _ => true

/-- The system with one memory, restricted to 16 MiB. -/
def restricted : Sys := (boot.create 0).call 0 plenty (.limit 0x1000000)

theorem charged_zero {c : Cfg} {e : Env} {f : Call} (h : c.charged e 0 f = 0) :
    Function.update (fun _ : ℕ => 0) 0 (c.charged e 0 f) = fun _ => 0 := by
  rw [h]
  exact Function.update_eq_self 0 _

theorem Reach.call_zero {ok : Cfg → Env → Call → Prop} {e : Env} {f : Call}
    (h : Reach ok s fun _ => 0) {m : Mem} (hid : s.mem 0 = some m) (ha : (s.cfg 0 m).Asked 0 f)
    (hok : ok (s.cfg 0 m) e f) (hz : (s.cfg 0 m).charged e 0 f = 0) :
    Reach ok (s.call 0 e f) fun _ => 0 := by
  have := h.call hid ha hok
  rw [charged_zero hz] at this
  exact this

theorem restricted_reach {ok : Cfg → Env → Call → Prop}
    (hok : ok ((boot.create 0).cfg 0 umemCreate) plenty (.limit 0x1000000)) :
    Reach ok restricted fun _ => 0 := by
  have h0 : Reach ok boot fun _ => 0 := Reach.boot
  have h1 : Reach ok (boot.create 0) fun _ => 0 := h0.create rfl
  exact h1.call_zero rfl (show 0x1000000 < 2 ^ 32 by omega) hok rfl

/-- A restricted memory with a piece of 100 bytes in a block of its own. -/
theorem pool_used_piece :
    (restricted.call 0 plenty (.alloc 100)).pool.used = 0x200000 ∧
    ∃ S : Finset ℕ, (∀ id, id ∈ S ↔ (restricted.call 0 plenty (.alloc 100)).mem id ≠ none) ∧
      (restricted.call 0 plenty (.alloc 100)).pool.used =
        ∑ id ∈ S, match (restricted.call 0 plenty (.alloc 100)).mem id with
          | none => 0
          | some m => if m.limit = 0 then 0 else m.rows * block + 0 := by
  have h1 : Reach Cfg.Sound restricted fun _ => 0 := by
    refine restricted_reach ⟨fun hl => absurd rfl hl, fun _ _ _ => ?_⟩
    show 0 * block < 2 ^ 32
    omega
  have h2 : Reach Cfg.Sound (restricted.call 0 plenty (.alloc 100)) fun _ => 0 := by
    refine h1.call_zero rfl trivial ⟨fun _ _ => not_false, fun b hb => ?_⟩ rfl
    exact absurd hb (by simp)
  exact ⟨by decide +kernel, h2.pool_used.1⟩

/-- A restricted memory that frees a row of two blocks, and goes, leaves 4 MiB of the pool given
out. -/
theorem pool_used_split : ∃ s q, Reach (fun _ _ _ => True) s q ∧ (∀ id, s.mem id = none) ∧
    s.pool.used = 0x400000 := by
  have h1 : Reach (fun _ _ _ => True) restricted fun _ => 0 := restricted_reach trivial
  have h2 : Reach (fun _ _ _ => True) (restricted.call 0 plenty (.alloc 0x300000)) fun _ => 0 :=
    h1.call_zero rfl trivial trivial rfl
  have h3 : Reach (fun _ _ _ => True) ((restricted.call 0 plenty (.alloc 0x300000)).call 0 plenty
      (.free (2048 * block))) fun _ => 0 := h2.call_zero rfl trivial trivial rfl
  have h4 : Reach (fun _ _ _ => True) (Sys.destroy ((restricted.call 0 plenty
      (.alloc 0x300000)).call 0 plenty (.free (2048 * block))) 0) fun _ => 0 := h3.destroy rfl
  refine ⟨_, _, h4, fun id => ?_, by decide +kernel⟩
  cases id with
  | zero => rfl
  | succ n => rfl

end Sys

end BananaOS.Umem
