import BananaOS.Umem.Frames

/-!
# Memories side by side

All memories share `g_dir`.  A call on one of them keeps its own frames in order and leaves those of
the others alone, a new memory has none, and a memory that goes gives up all of its own.  So in every
state of the system `g_dir` names the blocks of each memory exactly (`Sys.Framed`).
-/

namespace BananaOS.Umem

namespace Cfg

variable {c : Cfg}

/-- Every block of the list has the mark of the pool, and nothing else is different. -/
theorem poolAll_eq (l : List ℕ) (m : Mem) : poolAll m l = { m with
    chunk := fun k => { m.chunk k with pooled := decide (k ∈ l) || (m.chunk k).pooled } } := by
  induction l generalizing m with
  | nil => simp [poolAll]
  | cons a l ih =>
    unfold poolAll
    rw [ih]
    congr 1
    ext k
    all_goals
      rcases eq_or_ne k a with rfl | hk
      · simp
      · simp [hk]

/-! ## The frames of the others -/

theorem own_allocL (h : c.Frames) (size : ℕ) (e : Env) :
    (c.allocL size e).1.Frames ∧ Own c (c.allocL size e).1 := by
  refine allocL_rule (P := fun c' => c'.Frames ∧ Own c c')
    (fun _ _ hk hb => ⟨hk.frames hb.1, hb.2.trans hk.own⟩) ?_ ⟨h, Own.refl c⟩ size e
  rintro a n e - - ⟨hf, ho⟩
  rcases newChunk_cases a n e with ⟨p, heq, -⟩ | ⟨b, p, hn0, -, hroom, htop, -, heq⟩
  · rw [heq]
    exact ⟨hf.frame rfl rfl rfl le_rfl fun _ _ => ⟨rfl, rfl⟩, ho.trans (Own.of_dir rfl rfl)⟩
  · rw [heq]
    exact ⟨hf.added hn0 hroom htop p, ho.trans (own_added hroom p)⟩

theorem own_freeL (h : c.Frames) (a : ℕ) (e : Env) :
    (c.freeL a e).Frames ∧ Own c (c.freeL a e) := by
  rcases freeL_cases c a e with hk | ⟨-, k, c', hk, hkept, heq⟩
  · exact ⟨hk.frames h, hk.own⟩
  · rw [heq]
    have hmem : k ∈ c'.m.chunks := by
      rw [hkept.chunks]
      exact (h.chunkOf_eq_some.mp hk).1
    obtain ⟨h1, h2⟩ := (hkept.frames h).splitBig hmem e
    exact ⟨h1, hkept.own.trans h2⟩

theorem own_reallocL (h : c.Frames) (a size : ℕ) (e : Env) :
    (c.reallocL a size e).1.Frames ∧ Own c (c.reallocL a size e).1 := by
  unfold reallocL
  by_cases ha : a = 0
  · rw [if_pos ha]
    exact own_allocL h size e
  rw [if_neg ha]
  by_cases hz : size = 0
  · rw [if_pos hz]
    exact own_freeL h a e
  rw [if_neg hz]
  dsimp only
  split_ifs
  · exact ⟨h, Own.refl c⟩
  · exact ⟨h, Own.refl c⟩
  · have hal := own_allocL h size e
    cases hr : c.allocL size e with
    | mk c' r =>
      rw [hr] at hal
      cases r with
      | none => exact hal
      | some n =>
        obtain ⟨h1, h2⟩ := own_freeL hal.1 a e
        exact ⟨h1, hal.2.trans h2⟩

/-- A call keeps the frames of its memory in order, and leaves those of the others alone. -/
theorem own_call (h : c.Frames) (e : Env) (f : Call) :
    (c.call e f).Frames ∧ Own c (c.call e f) := by
  have hsame : ∀ c' : Cfg, c'.id = c.id → c'.dir = c.dir → c'.m.chunks = c.m.chunks →
      c'.m.next = c.m.next → (∀ k, (c'.m.chunk k).frame = (c.m.chunk k).frame ∧
        (c'.m.chunk k).nframes = (c.m.chunk k).nframes) → c'.Frames ∧ Own c c' :=
    fun c' h1 h2 h3 h4 h5 => ⟨h.frame h1 h2 h3 h4.ge fun k _ => h5 k, Own.of_dir h1 h2⟩
  cases f with
  | alloc size => exact own_allocL h size e
  | free a =>
    show (c.umemFree a e).Frames ∧ Own c (c.umemFree a e)
    unfold umemFree
    split_ifs
    · exact ⟨h, Own.refl c⟩
    · exact ⟨h, Own.refl c⟩
    · exact own_freeL h a e
  | realloc a size =>
    show (c.umemRealloc a size e).1.Frames ∧ Own c (c.umemRealloc a size e).1
    unfold umemRealloc
    by_cases hp : a ≠ 0 ∧ c.pinned a = true
    · rw [if_pos hp]
      exact ⟨h, Own.refl c⟩
    · rw [if_neg hp]
      exact own_reallocL h a size e
  | allocPages total =>
    show (c.umemAllocPages total e).1.Frames ∧ Own c (c.umemAllocPages total e).1
    unfold umemAllocPages
    have hal := own_allocL h (if total < small + 1 then small + 1 else total) e
    cases hr : c.allocL (if total < small + 1 then small + 1 else total) e with
    | mk c' r =>
      rw [hr] at hal
      cases r with
      | none => exact hal
      | some p =>
        have hk := kept_setPin (c := c') p true
        exact ⟨hk.frames hal.1, hal.2.trans hk.own⟩
  | freePages a =>
    have hk := kept_setPin (c := c) a false
    obtain ⟨h1, h2⟩ := own_freeL (hk.frames h) a e
    exact ⟨h1, hk.own.trans h2⟩
  | vmCharge bytes =>
    show (c.umemVmCharge bytes e.heapFree).1.Frames ∧ Own c (c.umemVmCharge bytes e.heapFree).1
    unfold umemVmCharge
    split_ifs
    · exact ⟨h, Own.refl c⟩
    · exact ⟨h, Own.refl c⟩
    · dsimp only
      split_ifs
      · exact hsame _ rfl rfl rfl rfl fun _ => ⟨rfl, rfl⟩
      · exact hsame _ rfl rfl rfl rfl fun _ => ⟨rfl, rfl⟩
  | vmUncharge bytes =>
    show (c.umemVmUncharge bytes).Frames ∧ Own c (c.umemVmUncharge bytes)
    unfold umemVmUncharge
    split_ifs
    · exact ⟨h, Own.refl c⟩
    · exact hsame _ rfl rfl rfl rfl fun _ => ⟨rfl, rfl⟩
  | limit bytes =>
    show (c.umemLimit bytes e.heapFree).1.Frames ∧ Own c (c.umemLimit bytes e.heapFree).1
    have hall := poolAll_eq c.m.chunks { c.m with limit := bytes }
    unfold umemLimit
    split_ifs
    · exact ⟨h, Own.refl c⟩
    · dsimp only
      split_ifs
      · exact hsame _ rfl rfl (by rw [hall]) (by rw [hall]) fun k => by rw [hall]; exact ⟨rfl, rfl⟩
      · exact hsame _ rfl rfl rfl rfl fun _ => ⟨rfl, rfl⟩

/-- The frames of the blocks that are released are nobody's. -/
theorem releaseAll_dir (l : List ℕ) (c : Cfg) : ∀ f, (c.releaseAll l).dir f =
    if ∃ k ∈ l, (c.m.chunk k).Has f then none else c.dir f := by
  induction l generalizing c with
  | nil => simp [releaseAll]
  | cons a l ih =>
    intro f
    unfold releaseAll
    dsimp only
    rw [ih]
    simp only [List.mem_cons, exists_eq_or_imp]
    by_cases hx : ∃ k ∈ l, (c.m.chunk k).Has f
    · rw [if_pos hx, if_pos (Or.inr hx)]
    · rw [if_neg hx]
      by_cases ha : (c.m.chunk a).Has f
      · rw [if_pos (Or.inl ha)]
        exact if_pos ha
      · rw [if_neg (not_or.mpr ⟨ha, hx⟩)]
        exact if_neg ha

end Cfg

namespace Sys

/-- `g_dir` names the blocks of each memory exactly. -/
structure Framed (s : Sys) : Prop where
  frames : ∀ id m, s.mem id = some m → (s.cfg id m).Frames
  gone : ∀ id, s.mem id = none → ∀ f k, s.dir f ≠ some (id, k)

variable {s : Sys}

theorem framed_boot : boot.Framed :=
  ⟨fun _ _ hi => absurd hi (by simp [boot]), fun _ _ f k => by simp [boot]⟩

theorem Framed.create (h : s.Framed) {id : ℕ} (hid : s.mem id = none) : (s.create id).Framed := by
  have hself : (s.create id).mem id = some umemCreate := Function.update_self _ _ _
  have hother : ∀ i, i ≠ id → (s.create id).mem i = s.mem i := fun i hi =>
    Function.update_of_ne hi _ _
  constructor
  · intro i m hi
    rcases eq_or_ne i id with rfl | hne
    · rw [hself] at hi
      obtain rfl := Option.some.inj hi
      refine ⟨fun f k => ?_, List.nodup_nil, ?_, ?_, ?_⟩
      · exact ⟨fun hx => absurd hx (h.gone i hid f k), fun hx => absurd hx.1 List.not_mem_nil⟩
      all_goals
        intro k hk
        exact absurd hk List.not_mem_nil
    · rw [hother i hne] at hi
      have hf := h.frames i m hi
      exact ⟨hf.dir, hf.nodup, hf.fresh, hf.pos, hf.top⟩
  · intro i hi
    have hne : i ≠ id := by
      rintro rfl
      rw [hself] at hi
      exact absurd hi (by simp)
    rw [hother i hne] at hi
    exact h.gone i hi

/-- What a call changes: its memory, and the frames of no other. -/
theorem Framed.call_mem (h : s.Framed) {id : ℕ} {m : Mem} (hid : s.mem id = some m) (e : Env)
    (f : Call) : (s.call id e f).mem id = some ((s.cfg id m).call e f).m ∧
      (∀ i, i ≠ id → (s.call id e f).mem i = s.mem i) ∧
      (s.call id e f).cfg id ((s.cfg id m).call e f).m = (s.cfg id m).call e f ∧
      ∀ g i k, i ≠ id → ((s.call id e f).dir g = some (i, k) ↔ s.dir g = some (i, k)) := by
  obtain ⟨-, ho⟩ := Cfg.own_call (h.frames id m hid) e f
  have hcall : s.call id e f = s.put ((s.cfg id m).call e f) := by
    unfold Sys.call
    rw [hid]
  rw [hcall]
  generalize (s.cfg id m).call e f = c at ho
  have hcid : c.id = id := ho.id
  refine ⟨?_, fun i hi => ?_, ?_, fun g i k hi => ho.dir g (i, k) hi⟩
  · show Function.update s.mem c.id (some c.m) id = some c.m
    rw [hcid, Function.update_self]
  · show Function.update s.mem c.id (some c.m) i = s.mem i
    rw [hcid, Function.update_of_ne hi]
  · show (⟨id, c.m, c.dir, c.pool⟩ : Cfg) = c
    rw [← hcid]

theorem Framed.call (h : s.Framed) {id : ℕ} {m : Mem} (hid : s.mem id = some m) (e : Env)
    (f : Call) : (s.call id e f).Framed := by
  obtain ⟨hf, -⟩ := Cfg.own_call (h.frames id m hid) e f
  obtain ⟨hself, hother, hcfg, hdir⟩ := h.call_mem hid e f
  constructor
  · intro i m' hi
    rcases eq_or_ne i id with rfl | hne
    · rw [hself] at hi
      obtain rfl := Option.some.inj hi
      rw [hcfg]
      exact hf
    · rw [hother i hne] at hi
      have hfi := h.frames i m' hi
      exact ⟨fun g k => (hdir g i k hne).trans (hfi.dir g k), hfi.nodup, hfi.fresh, hfi.pos, hfi.top⟩
  · intro i hi
    have hne : i ≠ id := by
      rintro rfl
      rw [hself] at hi
      exact absurd hi (by simp)
    rw [hother i hne] at hi
    exact fun g k hx => h.gone i hi g k ((hdir g i k hne).mp hx)

theorem Framed.destroy (h : s.Framed) (id : ℕ) : (s.destroy id).Framed := by
  unfold Sys.destroy
  cases hid : s.mem id with
  | none => exact h
  | some m =>
    have hf := h.frames id m hid
    have hdir := Cfg.releaseAll_dir m.chunks (s.cfg id m)
    dsimp only
    generalize (s.cfg id m).releaseAll m.chunks = c at hdir
    have hself : Function.update s.mem id none id = none := Function.update_self _ _ _
    have hother : ∀ i, i ≠ id → Function.update s.mem id none i = s.mem i := fun i hi =>
      Function.update_of_ne hi _ _
    -- a frame named for another memory is not among those released
    have hkeep : ∀ f i k, i ≠ id → (c.dir f = some (i, k) ↔ s.dir f = some (i, k)) := by
      intro f i k hne
      rw [hdir f]
      split_ifs with hx
      · obtain ⟨l, hl, hhas⟩ := hx
        have hown := (hf.dir f l).mpr ⟨hl, hhas⟩
        constructor
        · intro hy
          exact absurd hy (by simp)
        · intro hy
          have hy' : (s.cfg id m).dir f = some (i, k) := hy
          rw [hown] at hy'
          exact absurd (Prod.mk.inj (Option.some.inj hy')).1.symm hne
      · rfl
    constructor
    · intro i m' hi
      dsimp only at hi
      have hne : i ≠ id := by
        rintro rfl
        rw [hself] at hi
        exact absurd hi (by simp)
      rw [hother i hne] at hi
      have hfi := h.frames i m' hi
      exact ⟨fun f k => (hkeep f i k hne).trans (hfi.dir f k), hfi.nodup, hfi.fresh, hfi.pos,
        hfi.top⟩
    · intro i hi f k
      show c.dir f ≠ some (i, k)
      rcases eq_or_ne i id with rfl | hne
      · rw [hdir f]
        split_ifs with hx
        · simp
        · intro hy
          exact hx ⟨k, (hf.dir f k).mp hy⟩
      · dsimp only at hi
        rw [hother i hne] at hi
        exact fun hx => h.gone i hi f k ((hkeep f i k hne).mp hx)

end Sys

end BananaOS.Umem
