import BananaOS.Umem.Live
import Mathlib.Data.Finset.Max

/-!
# The tables under each step

Each step of the allocator changes one thing: a run is taken or freed, a slab is made on a run or
dropped from it, a piece of a slab is handed out or comes back, a slab enters or leaves the list of
its class.  For each of them: the tables keep to `Mem.Ok`.
-/

namespace BananaOS.Umem

/-! ## Runs -/

theorem findRunFrom_some {used : ℕ → Bool} {n left i len r : ℕ}
    (h : findRunFrom used n left i len = some r) (hle : len ≤ i)
    (hfree : ∀ j, i - len ≤ j → j < i → used j = false) :
    r + n ≤ i + left ∧ ∀ j, r ≤ j → j < r + n → used j = false := by
  induction left generalizing i len with
  | zero => simp [findRunFrom] at h
  | succ left ih =>
    unfold findRunFrom at h
    by_cases hu : used i = true
    · rw [if_pos hu] at h
      obtain ⟨h1, h2⟩ := ih h (Nat.zero_le _) (fun j hj hj' => by omega)
      exact ⟨by omega, h2⟩
    rw [if_neg hu] at h
    have hfree' : ∀ j, i - len ≤ j → j < i + 1 → used j = false := by
      intro j hj hj'
      rcases Nat.lt_succ_iff_lt_or_eq.mp hj' with hlt | rfl
      · exact hfree j hj hlt
      · simpa using hu
    by_cases hn : len + 1 = n
    · rw [if_pos hn] at h
      obtain rfl := Option.some.inj h
      exact ⟨by omega, fun j hj hj' => hfree' j (by omega) (by omega)⟩
    · rw [if_neg hn] at h
      obtain ⟨h1, h2⟩ := ih h (by omega) (fun j hj hj' => hfree' j (by omega) hj')
      exact ⟨by omega, h2⟩

namespace Chunk

variable {ch : Chunk}

theorem findRun_some {n i : ℕ} (h : ch.findRun n = some i) :
    i + n ≤ pages ∧ ∀ j, i ≤ j → j < i + n → ch.used j = false := by
  obtain ⟨h1, h2⟩ := findRunFrom_some h le_rfl (fun j hj hj' => by omega)
  exact ⟨by omega, h2⟩

theorem ok_new (f n : ℕ) (p : Bool) : (Chunk.new f n p).Ok :=
  ⟨fun _ hx => absurd rfl hx, fun _ _ hx => absurd rfl hx, fun _ _ hx => absurd rfl hx,
    fun _ hx => absurd rfl hx, fun hx => absurd hx Bool.false_ne_true,
    fun _ hx => absurd hx Bool.false_ne_true⟩

theorem Ok.clear (h : ch.Ok) {i : ℕ} (hi : ch.used i = false) : ch.run i = 0 ∧ ch.pin i = false := by
  have hrun : ch.run i = 0 := by
    by_contra hx
    have := h.used i i hx le_rfl (by omega)
    rw [hi] at this
    exact Bool.false_ne_true this
  refine ⟨hrun, ?_⟩
  cases hp : ch.pin i with
  | false => rfl
  | true => exact absurd hrun (h.pin i hp).1

theorem takeRun_frame (i n : ℕ) : (ch.takeRun i n).frame = ch.frame := rfl

theorem takeRun_run (i n j : ℕ) : (ch.takeRun i n).run j = if j = i then n else ch.run j := by
  show Function.update ch.run i n j = _
  rw [Function.update_apply]

theorem runFree_run (i j : ℕ) : (ch.runFree i).run j = if j = i then 0 else ch.run j := by
  show Function.update ch.run i 0 j = _
  rw [Function.update_apply]

theorem Ok.takeRun (h : ch.Ok) {i n : ℕ} (hn : ch.nframes = 1) (hb : ch.broken = false)
    (h0 : 0 < n) (hle : i + n ≤ pages) (hfree : ∀ j, i ≤ j → j < i + n → ch.used j = false) :
    (ch.takeRun i n).Ok := by
  have hused : ∀ j, (ch.takeRun i n).used j = if i ≤ j ∧ j < i + n then true else ch.used j :=
    fun _ => rfl
  -- an old run does not meet the new one
  have hmiss : ∀ j, ch.run j ≠ 0 → j + ch.run j ≤ i ∨ i + n ≤ j := by
    intro j hj
    by_contra hx
    rw [not_or, not_le, not_le] at hx
    have hu := h.used j (max i j) hj (le_max_right _ _) (by omega)
    rw [hfree (max i j) (le_max_left _ _) (by omega)] at hu
    exact Bool.false_ne_true hu
  refine ⟨fun j hj => ?_, fun j l hj h1 h2 => ?_, fun j l hj hl hlt => ?_, fun j hj => ⟨hn, hb⟩,
    fun hx => ?_, fun j hj => ?_⟩
  · rw [takeRun_run] at hj ⊢
    split_ifs at hj ⊢ with hji
    · subst hji
      exact hle
    · exact h.inside j hj
  · rw [hused]
    rw [takeRun_run] at hj h2
    split_ifs at hj h2 with hji
    · subst hji
      rw [if_pos ⟨h1, h2⟩]
    · split_ifs
      · rfl
      · exact h.used j l hj h1 h2
  · rw [takeRun_run] at hj hl ⊢
    by_cases hji : j = i
    · rw [if_pos hji]
      rw [if_neg (by omega)] at hl
      have := hmiss l hl
      omega
    · rw [if_neg hji] at hj ⊢
      by_cases hli : l = i
      · have := hmiss j hj
        omega
      · rw [if_neg hli] at hl
        exact h.apart j l hj hl hlt
  · have : ch.broken = true := hx
    rw [hb] at this
    exact absurd this Bool.false_ne_true
  · obtain ⟨h1, h2⟩ := h.pin j hj
    refine ⟨?_, h2⟩
    rw [takeRun_run]
    split_ifs
    · omega
    · exact h1

theorem Ok.runFree (h : ch.Ok) {i : ℕ} (hr : ch.run i ≠ 0) (hp : ch.pin i = false) :
    (ch.runFree i).Ok := by
  have hused : ∀ j, (ch.runFree i).used j =
      if i ≤ j ∧ j < i + ch.run i then false else ch.used j := fun _ => rfl
  have hold : ∀ j, (ch.runFree i).run j ≠ 0 → j ≠ i ∧ ch.run j ≠ 0 ∧
      (ch.runFree i).run j = ch.run j := by
    intro j hj
    rw [runFree_run] at hj ⊢
    split_ifs at hj ⊢ with hji
    · exact absurd rfl hj
    · exact ⟨hji, hj, rfl⟩
  refine ⟨fun j hj => ?_, fun j l hj h1 h2 => ?_, fun j l hj hl hlt => ?_, fun j hj => ?_,
    fun hx => ?_, fun j hj => ?_⟩
  · obtain ⟨-, h1, h2⟩ := hold j hj
    rw [h2]
    exact h.inside j h1
  · obtain ⟨hne, hj', heq⟩ := hold j hj
    rw [heq] at h2
    rw [hused, if_neg]
    · exact h.used j l hj' h1 h2
    · rcases Nat.lt_or_gt_of_ne hne with hlt | hlt
      · have := h.apart j i hj' hr hlt
        omega
      · have := h.apart i j hr hj' hlt
        omega
  · obtain ⟨-, hj', heq⟩ := hold j hj
    obtain ⟨-, hl', -⟩ := hold l hl
    rw [heq]
    exact h.apart j l hj' hl' hlt
  · obtain ⟨-, hj', -⟩ := hold j hj
    exact h.plain j hj'
  · have hb := (h.plain i hr).2
    have hx' : ch.broken = true := hx
    rw [hb] at hx'
    exact absurd hx' Bool.false_ne_true
  · have hne : j ≠ i := by
      rintro rfl
      have hj' : ch.pin j = true := hj
      rw [hp] at hj'
      exact Bool.false_ne_true hj'
    obtain ⟨h1, h2⟩ := h.pin j hj
    refine ⟨?_, h2⟩
    rw [runFree_run, if_neg hne]
    exact h1

theorem Ok.emptied (h : ch.Ok) {i : ℕ} (hr : ch.run i ≠ 0) (hp : ch.pin i = false) (n : ℕ) :
    (ch.emptied i n).Ok := by
  have hok : ({ ch with slab := fun j => if i ≤ j ∧ j < i + n then none else ch.slab j } :
      Chunk).Ok := by
    refine ⟨h.inside, h.used, h.apart, h.plain, h.broken, fun j hj => ⟨(h.pin j hj).1, ?_⟩⟩
    dsimp only
    split_ifs
    · rfl
    · exact (h.pin j hj).2
  exact hok.runFree hr hp

end Chunk

/-! ## The tables -/

namespace Mem

variable {m : Mem}

theorem Ok.page_of_home (h : m.Ok) {s k i : ℕ} (hs : s ∈ m.slabs) (hh : m.Home s k i) :
    (m.chunk k).slab i = some s := by
  have := slabPages_pos (m.slab s).cls
  exact hh.slab i le_rfl (by rw [(h.slab s hs).pages]; omega)

/-- A block changed, but for its place and its slabs. -/
theorem Ok.setChunk (h : m.Ok) {k : ℕ} {ch : Chunk} (hok : ch.Ok)
    (hf : ch.frame = (m.chunk k).frame) (hs : ch.slab = (m.chunk k).slab)
    (hr : ∀ i s, (m.chunk k).slab i = some s → ch.run i = (m.chunk k).run i) :
    ({ m with chunk := Function.update m.chunk k ch } : Mem).Ok := by
  have hslab : ∀ l, (Function.update m.chunk k ch l).slab = (m.chunk l).slab := by
    intro l
    rcases eq_or_ne l k with rfl | hl
    · rw [Function.update_self, hs]
    · rw [Function.update_of_ne hl]
  have hhome : ∀ s l i, s ∈ m.slabs → m.Home s l i →
      ({ m with chunk := Function.update m.chunk k ch } : Mem).Home s l i := by
    intro s l i hm hh
    have hpg := h.page_of_home hm hh
    refine ⟨hh.mem, ?_, ?_, fun j h1 h2 => ?_⟩
    · show (m.slab s).base = (Function.update m.chunk k ch l).base + i * Umem.page
      rw [hh.base]
      rcases eq_or_ne l k with rfl | hl
      · rw [Function.update_self]
        unfold Chunk.base
        rw [hf]
      · rw [Function.update_of_ne hl]
    · show (Function.update m.chunk k ch l).run i = (m.slab s).pages
      rw [← hh.run]
      rcases eq_or_ne l k with rfl | hl
      · rw [Function.update_self]
        exact hr i s hpg
      · rw [Function.update_of_ne hl]
    · show (Function.update m.chunk k ch l).slab j = some s
      rw [hslab]
      exact hh.slab j h1 h2
  refine ⟨fun l hl => ?_, h.slab, h.fresh, fun s hm => ?_, fun l hl j s hj => ?_, h.listed,
    h.partials, h.nodup, h.slabs⟩
  · show (Function.update m.chunk k ch l).Ok
    rcases eq_or_ne l k with rfl | hl'
    · rw [Function.update_self]
      exact hok
    · rw [Function.update_of_ne hl']
      exact h.chunk l hl
  · obtain ⟨l, i, hh⟩ := h.home s hm
    exact ⟨l, i, hhome s l i hm hh⟩
  · have hj' : (Function.update m.chunk k ch l).slab j = some s := hj
    rw [hslab] at hj'
    obtain ⟨hm, i, hh, h1, h2⟩ := h.page l hl j s hj'
    exact ⟨hm, i, hhome s l i hm hh, h1, h2⟩

/-- A slab changed, but for its place and its listing. -/
theorem Ok.setSlab (h : m.Ok) {s : ℕ} {sl : Slab} (hok : sl.Ok) (hb : sl.base = (m.slab s).base)
    (hp : sl.pages = (m.slab s).pages) (hc : sl.cls = (m.slab s).cls)
    (hl : sl.listed = (m.slab s).listed) :
    ({ m with slab := Function.update m.slab s sl } : Mem).Ok := by
  have hsame : ∀ t, (Function.update m.slab s sl t).base = (m.slab t).base ∧
      (Function.update m.slab s sl t).pages = (m.slab t).pages ∧
      (Function.update m.slab s sl t).cls = (m.slab t).cls ∧
      (Function.update m.slab s sl t).listed = (m.slab t).listed := by
    intro t
    rcases eq_or_ne t s with rfl | ht
    · rw [Function.update_self]
      exact ⟨hb, hp, hc, hl⟩
    · rw [Function.update_of_ne ht]
      exact ⟨rfl, rfl, rfl, rfl⟩
  have hhome : ∀ t k i, m.Home t k i →
      ({ m with slab := Function.update m.slab s sl } : Mem).Home t k i := by
    intro t k i hh
    refine ⟨hh.mem, (hsame t).1.trans hh.base, hh.run.trans (hsame t).2.1.symm, fun j h1 h2 => ?_⟩
    have h2' : j < i + (Function.update m.slab s sl t).pages := h2
    rw [(hsame t).2.1] at h2'
    exact hh.slab j h1 h2'
  refine ⟨h.chunk, fun t ht => ?_, h.fresh, fun t ht => ?_, fun k hk j t hj => ?_, fun t ht => ?_,
    fun ci t ht => ?_, h.nodup, h.slabs⟩
  · show (Function.update m.slab s sl t).Ok
    rcases eq_or_ne t s with rfl | hne
    · rw [Function.update_self]
      exact hok
    · rw [Function.update_of_ne hne]
      exact h.slab t ht
  · obtain ⟨k, i, hh⟩ := h.home t ht
    exact ⟨k, i, hhome t k i hh⟩
  · obtain ⟨hm, i, hh, h1, h2⟩ := h.page k hk j t hj
    refine ⟨hm, i, hhome t k i hh, h1, ?_⟩
    show j < i + (Function.update m.slab s sl t).pages
    rw [(hsame t).2.1]
    exact h2
  · show (Function.update m.slab s sl t).listed = true ↔
      t ∈ m.partials (Function.update m.slab s sl t).cls
    rw [(hsame t).2.2.1, (hsame t).2.2.2]
    exact h.listed t ht
  · obtain ⟨h1, h2⟩ := h.partials ci t ht
    exact ⟨h1, (hsame t).2.2.1.trans h2⟩

/-- A slab enters or leaves the list of its class. -/
theorem Ok.relist (h : m.Ok) {s : ℕ} (hs : s ∈ m.slabs) {l : List ℕ} {b : Bool} (hl : l.Nodup)
    (hb : b = true ↔ s ∈ l) (ht : ∀ t, t ≠ s → (t ∈ l ↔ t ∈ m.partials (m.slab s).cls)) :
    ({ m with
      partials := Function.update m.partials (m.slab s).cls l
      slab := Function.update m.slab s { m.slab s with listed := b } } : Mem).Ok := by
  have hsame : ∀ t, (Function.update m.slab s { m.slab s with listed := b } t).base =
      (m.slab t).base ∧ (Function.update m.slab s { m.slab s with listed := b } t).pages =
      (m.slab t).pages ∧ (Function.update m.slab s { m.slab s with listed := b } t).cls =
      (m.slab t).cls := by
    intro t
    rcases eq_or_ne t s with rfl | ht
    · rw [Function.update_self]
      exact ⟨rfl, rfl, rfl⟩
    · rw [Function.update_of_ne ht]
      exact ⟨rfl, rfl, rfl⟩
  have hhome : ∀ t k i, m.Home t k i → ({ m with
      partials := Function.update m.partials (m.slab s).cls l
      slab := Function.update m.slab s { m.slab s with listed := b } } : Mem).Home t k i := by
    intro t k i hh
    refine ⟨hh.mem, (hsame t).1.trans hh.base, hh.run.trans (hsame t).2.1.symm, fun j h1 h2 => ?_⟩
    have h2' : j < i + (Function.update m.slab s { m.slab s with listed := b } t).pages := h2
    rw [(hsame t).2.1] at h2'
    exact hh.slab j h1 h2'
  have hold : ∀ t, t ∈ l → t ∈ m.slabs ∧ (m.slab t).cls = (m.slab s).cls := by
    intro t htl
    rcases eq_or_ne t s with rfl | hne
    · exact ⟨hs, rfl⟩
    · exact h.partials _ t ((ht t hne).mp htl)
  refine ⟨h.chunk, fun t htm => ?_, h.fresh, fun t htm => ?_, fun k hk j t hj => ?_,
    fun t htm => ?_, fun ci t htm => ?_, fun ci => ?_, h.slabs⟩
  · show (Function.update m.slab s { m.slab s with listed := b } t).Ok
    rcases eq_or_ne t s with rfl | hne
    · rw [Function.update_self]
      exact ⟨(h.slab t htm).cls, (h.slab t htm).pages, (h.slab t htm).nobj, (h.slab t htm).map,
        (h.slab t htm).nfree⟩
    · rw [Function.update_of_ne hne]
      exact h.slab t htm
  · obtain ⟨k, i, hh⟩ := h.home t htm
    exact ⟨k, i, hhome t k i hh⟩
  · obtain ⟨hm, i, hh, h1, h2⟩ := h.page k hk j t hj
    refine ⟨hm, i, hhome t k i hh, h1, ?_⟩
    show j < i + (Function.update m.slab s { m.slab s with listed := b } t).pages
    rw [(hsame t).2.1]
    exact h2
  · show (Function.update m.slab s { m.slab s with listed := b } t).listed = true ↔
      t ∈ Function.update m.partials (m.slab s).cls l
        (Function.update m.slab s { m.slab s with listed := b } t).cls
    rw [(hsame t).2.2]
    rcases eq_or_ne t s with rfl | hne
    · rw [Function.update_self, Function.update_self]
      exact hb
    · rw [Function.update_of_ne hne, h.listed t htm]
      by_cases hc : (m.slab t).cls = (m.slab s).cls
      · rw [hc, Function.update_self]
        exact (ht t hne).symm
      · rw [Function.update_of_ne hc]
  · have htm' : t ∈ Function.update m.partials (m.slab s).cls l ci := htm
    have hcls : t ∈ m.slabs ∧ (m.slab t).cls = ci := by
      by_cases hc : ci = (m.slab s).cls
      · rw [hc, Function.update_self] at htm'
        rw [hc]
        exact hold t htm'
      · rw [Function.update_of_ne hc] at htm'
        exact h.partials ci t htm'
    exact ⟨hcls.1, (hsame t).2.2.trans hcls.2⟩
  · show (Function.update m.partials (m.slab s).cls l ci).Nodup
    by_cases hc : ci = (m.slab s).cls
    · rw [hc, Function.update_self]
      exact hl
    · rw [Function.update_of_ne hc]
      exact h.nodup ci

end Mem

namespace Cfg

variable {c : Cfg}

/-! ## Slabs -/

/-- `slab_unlist`, in one case: what is not in the list is not taken out of it. -/
theorem slabUnlist_eq (h : c.m.Ok) {s : ℕ} (hs : s ∈ c.m.slabs) :
    c.slabUnlist s = { c with m := { c.m with
      partials := Function.update c.m.partials (c.m.slab s).cls
        ((c.m.partials (c.m.slab s).cls).erase s)
      slab := Function.update c.m.slab s { c.m.slab s with listed := false } } } := by
  unfold slabUnlist
  dsimp only
  by_cases hl : (c.m.slab s).listed = true
  · rw [if_pos hl]
    rfl
  · rw [if_neg hl]
    have hnot : s ∉ c.m.partials (c.m.slab s).cls := fun hx => hl ((h.listed s hs).mpr hx)
    have hf : ({ c.m.slab s with listed := false } : Slab) = c.m.slab s := by
      rw [← Bool.eq_false_of_not_eq_true hl]
    rw [List.erase_of_not_mem hnot, Function.update_eq_self, hf, Function.update_eq_self]

theorem ok_slabUnlist (h : c.m.Ok) {s : ℕ} (hs : s ∈ c.m.slabs) : (c.slabUnlist s).m.Ok := by
  rw [slabUnlist_eq h hs]
  have hnd := h.nodup (c.m.slab s).cls
  refine h.relist hs (hnd.erase s) ⟨fun hx => absurd hx Bool.false_ne_true, fun hx => ?_⟩
    fun t hne => ?_
  · exact absurd rfl (hnd.mem_erase_iff.mp hx).1
  · rw [hnd.mem_erase_iff, and_iff_right hne]

theorem ok_slabList (h : c.m.Ok) {s : ℕ} (hs : s ∈ c.m.slabs) (hl : (c.m.slab s).listed = false) :
    (c.slabList s).m.Ok := by
  have hnot : s ∉ c.m.partials (c.m.slab s).cls := by
    intro hx
    rw [(h.listed s hs).mpr hx] at hl
    exact Bool.false_ne_true hl.symm
  refine h.relist hs (List.nodup_cons.mpr ⟨hnot, h.nodup _⟩) ⟨fun _ => List.mem_cons_self, fun _ => rfl⟩
    fun t hne => ?_
  rw [List.mem_cons, or_iff_right hne]

/-- A new slab on a run that has nothing on it. -/
theorem ok_makeSlab (h : c.m.Ok) {ci k i : ℕ} (hci : ci < 17) (hk : k ∈ c.m.chunks)
    (hi : i + slabPages ci ≤ pages) (hrun : (c.m.chunk k).run i = slabPages ci)
    (hclear : ∀ j, i ≤ j → j < i + slabPages ci →
      (c.m.chunk k).slab j = none ∧ (c.m.chunk k).pin j = false)
    (hp : c.m.partials ci = []) :
    (c.makeSlab ci (slabPages ci) ((c.m.chunk k).base + i * page) k).m.Ok := by
  have hpos := slabPages_pos ci
  have hpg : pageOf ((c.m.chunk k).base + i * page) = i :=
    (addr_start (f := (c.m.chunk k).frame) (show i < pages by omega)).2.1
  have hnew : c.m.next ∉ c.m.slabs := fun hx => (h.fresh _ hx).false
  generalize hm' : (c.makeSlab ci (slabPages ci) ((c.m.chunk k).base + i * page) k).m = m'
  have hch : ∀ l, (m'.chunk l).slab = (if l = k then fun j => if i ≤ j ∧ j < i + slabPages ci
      then some c.m.next else (c.m.chunk k).slab j else (c.m.chunk l).slab) ∧
      (m'.chunk l).frame = (c.m.chunk l).frame ∧ (m'.chunk l).run = (c.m.chunk l).run := by
    intro l
    subst hm'
    unfold makeSlab
    dsimp only
    rw [hpg]
    rcases eq_or_ne l k with rfl | hl
    · rw [Function.update_self, if_pos rfl]
      exact ⟨rfl, rfl, rfl⟩
    · rw [Function.update_of_ne hl, if_neg hl]
      exact ⟨rfl, rfl, rfl⟩
  have hslab : ∀ t, t ≠ c.m.next → m'.slab t = c.m.slab t := by
    intro t ht
    subst hm'
    exact Function.update_of_ne ht _ _
  have hself : m'.slab c.m.next = ⟨(c.m.chunk k).base + i * page, ci,
      slabPages ci * page / clsSize ci, slabPages ci * page / clsSize ci, slabPages ci,
      fun j => decide (j < slabPages ci * page / clsSize ci), true⟩ := by
    subst hm'
    exact Function.update_self _ _ _
  have hbase : ∀ l, (m'.chunk l).base = (c.m.chunk l).base := by
    intro l
    unfold Chunk.base
    rw [(hch l).2.1]
  have hchunks : m'.chunks = c.m.chunks := by rw [← hm']; rfl
  have hslabs : m'.slabs = c.m.next :: c.m.slabs := by rw [← hm']; rfl
  have hpart : m'.partials = Function.update c.m.partials ci [c.m.next] := by rw [← hm']; rfl
  have hnext : m'.next = c.m.next + 1 := by rw [← hm']; rfl
  have hcok : ∀ l ∈ c.m.chunks, (m'.chunk l).Ok := by
    intro l hl
    rcases eq_or_ne l k with rfl | hne
    · have hold := h.chunk l hk
      subst hm'
      unfold makeSlab
      dsimp only
      rw [Function.update_self, hpg]
      refine ⟨hold.inside, hold.used, hold.apart, hold.plain, hold.broken, fun j hj => ?_⟩
      obtain ⟨h1, h2⟩ := hold.pin j hj
      refine ⟨h1, ?_⟩
      dsimp only
      rw [if_neg]
      · exact h2
      · rintro ⟨h3, h4⟩
        rw [(hclear j h3 h4).2] at hj
        exact Bool.false_ne_true hj
    · have : m'.chunk l = c.m.chunk l := by
        subst hm'
        exact Function.update_of_ne hne _ _
      rw [this]
      exact h.chunk l hl
  have hhome : ∀ t l j, t ∈ c.m.slabs → c.m.Home t l j → m'.Home t l j := by
    intro t l j ht hh
    have hne : t ≠ c.m.next := fun hx => hnew (hx ▸ ht)
    refine ⟨hchunks ▸ hh.mem, ?_, ?_, fun r h1 h2 => ?_⟩
    · rw [hslab t hne, hbase]
      exact hh.base
    · rw [hslab t hne, (hch l).2.2]
      exact hh.run
    · rw [hslab t hne] at h2
      have hr := hh.slab r h1 h2
      rw [(hch l).1]
      split_ifs with hl
      · subst hl
        dsimp only
        rw [if_neg]
        · exact hr
        · rintro ⟨h3, h4⟩
          rw [(hclear r h3 h4).1] at hr
          exact absurd hr (by simp)
      · exact hr
  have hmine : m'.Home c.m.next k i := by
    refine ⟨hchunks ▸ hk, ?_, ?_, fun r h1 h2 => ?_⟩
    · rw [hself, hbase]
    · rw [hself, (hch k).2.2]
      exact hrun
    · rw [hself] at h2
      rw [(hch k).1, if_pos rfl]
      exact if_pos ⟨h1, h2⟩
  refine ⟨?_, ?_, ?_, ?_, ?_, ?_, ?_, ?_, ?_⟩
  · rw [hchunks]
    exact hcok
  · intro t ht
    rw [hslabs] at ht
    rcases List.mem_cons.mp ht with rfl | ht
    · rw [hself]
      refine ⟨hci, rfl, rfl, fun j hj => of_decide_eq_true hj, ?_⟩
      dsimp only
      rw [Finset.filter_true_of_mem, Finset.card_range]
      intro j hj
      exact decide_eq_true (Finset.mem_range.mp hj)
    · rw [hslab t fun hx => hnew (hx ▸ ht)]
      exact h.slab t ht
  · intro t ht
    rw [hnext]
    rw [hslabs] at ht
    rcases List.mem_cons.mp ht with rfl | ht
    · omega
    · have := h.fresh t ht
      omega
  · intro t ht
    rw [hslabs] at ht
    rcases List.mem_cons.mp ht with rfl | ht
    · exact ⟨k, i, hmine⟩
    · obtain ⟨l, j, hh⟩ := h.home t ht
      exact ⟨l, j, hhome t l j ht hh⟩
  · intro l hl j t hj
    rw [hchunks] at hl
    rw [hslabs]
    rw [(hch l).1] at hj
    have hold : (c.m.chunk l).slab j = some t → t ∈ c.m.next :: c.m.slabs ∧
        ∃ i', m'.Home t l i' ∧ i' ≤ j ∧ j < i' + (m'.slab t).pages := by
      intro hx
      obtain ⟨hm, i', hh, h1, h2⟩ := h.page l hl j t hx
      refine ⟨List.mem_cons_of_mem _ hm, i', hhome t l i' hm hh, h1, ?_⟩
      rw [hslab t fun hx => hnew (hx ▸ hm)]
      exact h2
    split_ifs at hj with hlk
    · subst hlk
      dsimp only at hj
      split_ifs at hj with hin
      · obtain rfl := Option.some.inj hj
        refine ⟨List.mem_cons_self, i, hmine, hin.1, ?_⟩
        rw [hself]
        exact hin.2
      · exact hold hj
    · exact hold hj
  · intro t ht
    rw [hslabs] at ht
    rw [hpart]
    rcases List.mem_cons.mp ht with rfl | ht
    · rw [hself]
      dsimp only
      rw [Function.update_self]
      simp
    · have hne : t ≠ c.m.next := fun hx => hnew (hx ▸ ht)
      rw [hslab t hne, h.listed t ht]
      by_cases hc : (c.m.slab t).cls = ci
      · rw [hc, Function.update_self, hp]
        simp [hne]
      · rw [Function.update_of_ne hc]
  · intro cj t ht
    rw [hpart] at ht
    rw [hslabs]
    by_cases hc : cj = ci
    · rw [hc, Function.update_self, List.mem_singleton] at ht
      subst ht
      rw [hself]
      exact ⟨List.mem_cons_self, hc.symm⟩
    · rw [Function.update_of_ne hc] at ht
      obtain ⟨h1, h2⟩ := h.partials cj t ht
      rw [hslab t fun hx => hnew (hx ▸ h1)]
      exact ⟨List.mem_cons_of_mem _ h1, h2⟩
  · intro cj
    rw [hpart]
    by_cases hc : cj = ci
    · rw [hc, Function.update_self]
      exact List.nodup_singleton _
    · rw [Function.update_of_ne hc]
      exact h.nodup cj
  · rw [hslabs]
    exact List.nodup_cons.mpr ⟨hnew, h.slabs⟩

/-- A slab is in one place. -/
theorem home_unique (hf : c.Frames) (h : c.m.Ok) {s k k' i i' : ℕ} (hs : s ∈ c.m.slabs)
    (hh : c.m.Home s k i) (hh' : c.m.Home s k' i') : k = k' ∧ i = i' := by
  obtain ⟨-, hin, hn, -⟩ := home_plain h hs hh
  obtain ⟨-, hin', hn', -⟩ := home_plain h hs hh'
  have hpos := slabPages_pos (c.m.slab s).cls
  have hpg := (h.slab s hs).pages
  have hb := hh.base.symm.trans hh'.base
  unfold Chunk.base at hb
  obtain ⟨h1, h2, -⟩ := addr_start (f := (c.m.chunk k).frame) (show i < pages by omega)
  obtain ⟨h1', h2', -⟩ := addr_start (f := (c.m.chunk k').frame) (show i' < pages by omega)
  rw [hb, h1'] at h1
  rw [hb, h2'] at h2
  refine ⟨hf.apart hh.mem hh'.mem (f := (c.m.chunk k).frame) ?_ ?_, h2.symm⟩
  · unfold Chunk.Has
    omega
  · unfold Chunk.Has
    omega

theorem dropSlab_eq (h : c.m.Ok) {s k i : ℕ} (hs : s ∈ c.m.slabs) (hh : c.m.Home s k i) :
    c.dropSlab k s = { c with m := { c.m with
      partials := Function.update c.m.partials (c.m.slab s).cls
        ((c.m.partials (c.m.slab s).cls).erase s)
      slab := Function.update c.m.slab s { c.m.slab s with listed := false }
      slabs := c.m.slabs.erase s
      chunk := Function.update c.m.chunk k ((c.m.chunk k).emptied i (c.m.slab s).pages) } } := by
  have hin := home_plain h hs hh
  have hpos := slabPages_pos (c.m.slab s).cls
  have hpg := (h.slab s hs).pages
  have hpo : pageOf (c.m.slab s).base = i := by
    rw [hh.base]
    exact (addr_start (f := (c.m.chunk k).frame) (show i < pages by omega)).2.1
  unfold dropSlab
  rw [slabUnlist_eq h hs]
  dsimp only
  rw [Function.update_self]
  dsimp only
  rw [hpo]

theorem ok_dropSlab (hf : c.Frames) (h : c.m.Ok) {s k i : ℕ} (hs : s ∈ c.m.slabs) (hh : c.m.Home s k i) :
    (c.dropSlab k s).m.Ok := by
  have hu := ok_slabUnlist h hs
  rw [slabUnlist_eq h hs] at hu
  rw [dropSlab_eq h hs hh]
  obtain ⟨hrun, hin, -, -⟩ := home_plain h hs hh
  have hpi := h.page_of_home hs hh
  have hpin : (c.m.chunk k).pin i = false := by
    cases hp : (c.m.chunk k).pin i with
    | false => rfl
    | true =>
      rw [((h.chunk k hh.mem).pin i hp).2] at hpi
      exact absurd hpi (by simp)
  have hnd := h.slabs
  have hchunk : ∀ l, l ≠ k → Function.update c.m.chunk k
      ((c.m.chunk k).emptied i (c.m.slab s).pages) l = c.m.chunk l := fun l hl =>
    Function.update_of_ne hl _ _
  have hslab : ∀ t, t ≠ s →
      Function.update c.m.slab s { c.m.slab s with listed := false } t = c.m.slab t := fun t ht =>
    Function.update_of_ne ht _ _
  -- the pages of another slab are not the ones that are emptied
  have hother : ∀ t l j, t ≠ s → c.m.Home t l j → t ∈ c.m.slabs →
      ({ c.m with
        partials := Function.update c.m.partials (c.m.slab s).cls
          ((c.m.partials (c.m.slab s).cls).erase s)
        slab := Function.update c.m.slab s { c.m.slab s with listed := false }
        slabs := c.m.slabs.erase s
        chunk := Function.update c.m.chunk k
          ((c.m.chunk k).emptied i (c.m.slab s).pages) } : Mem).Home t l j := by
    intro t l j hts hth htm
    have htp := h.page_of_home htm hth
    rcases eq_or_ne l k with rfl | hl
    · have hij : j ≠ i := by
        rintro rfl
        rw [hpi] at htp
        exact hts (Option.some.inj htp).symm
      refine ⟨hth.mem, ?_, ?_, fun r h1 h2 => ?_⟩
      · dsimp only
        rw [hslab t hts, Function.update_self]
        exact hth.base
      · dsimp only
        rw [hslab t hts, Function.update_self]
        show ((_ : Chunk).runFree i).run j = _
        rw [Chunk.runFree_run, if_neg hij]
        exact hth.run
      · dsimp only at h2 ⊢
        rw [hslab t hts] at h2
        rw [Function.update_self]
        have hr := hth.slab r h1 h2
        show (if i ≤ r ∧ r < i + (c.m.slab s).pages then none else (c.m.chunk l).slab r) = some t
        rw [if_neg]
        · exact hr
        · rintro ⟨h3, h4⟩
          rw [hh.slab r h3 h4] at hr
          exact hts (Option.some.inj hr).symm
    · refine ⟨hth.mem, ?_, ?_, fun r h1 h2 => ?_⟩
      · dsimp only
        rw [hslab t hts, hchunk l hl]
        exact hth.base
      · dsimp only
        rw [hslab t hts, hchunk l hl]
        exact hth.run
      · dsimp only at h2 ⊢
        rw [hslab t hts] at h2
        rw [hchunk l hl]
        exact hth.slab r h1 h2
  refine ⟨fun l hl => ?_, fun t ht => ?_, fun t ht => ?_, fun t ht => ?_, fun l hl j t hj => ?_,
    fun t ht => ?_, fun ci t ht => ?_, hu.nodup, hnd.erase s⟩
  · dsimp only
    rcases eq_or_ne l k with rfl | hne
    · rw [Function.update_self]
      exact (h.chunk l hl).emptied hrun hpin _
    · rw [hchunk l hne]
      exact h.chunk l hl
  · exact hu.slab t (List.mem_of_mem_erase ht)
  · exact h.fresh t (List.mem_of_mem_erase ht)
  · obtain ⟨hne, htm⟩ := hnd.mem_erase_iff.mp ht
    obtain ⟨l, j, hth⟩ := h.home t htm
    exact ⟨l, j, hother t l j hne hth htm⟩
  · dsimp only at hj ⊢
    -- the slab has no page but those of its run
    have hgone : (c.m.chunk l).slab j = some s →
        l = k ∧ i ≤ j ∧ j < i + (c.m.slab s).pages := by
      intro hx
      obtain ⟨-, i', hth, h1, h2⟩ := h.page l hl j s hx
      obtain ⟨rfl, rfl⟩ := home_unique hf h hs hth hh
      exact ⟨rfl, h1, h2⟩
    have hold : t ≠ s ∧ (c.m.chunk l).slab j = some t := by
      rcases eq_or_ne l k with rfl | hlk
      · rw [Function.update_self] at hj
        have hj' : (if i ≤ j ∧ j < i + (c.m.slab s).pages then none
          else (c.m.chunk l).slab j) = some t := hj
        split_ifs at hj' with hin'
        refine ⟨?_, hj'⟩
        rintro rfl
        exact hin' (hgone hj').2
      · rw [hchunk l hlk] at hj
        refine ⟨?_, hj⟩
        rintro rfl
        exact hlk (hgone hj).1
    obtain ⟨hm, i', hth, h1, h2⟩ := h.page l hl j t hold.2
    refine ⟨hnd.mem_erase_iff.mpr ⟨hold.1, hm⟩, i', hother t l i' hold.1 hth hm, h1, ?_⟩
    rw [hslab t hold.1]
    exact h2
  · obtain ⟨hne, htm⟩ := hnd.mem_erase_iff.mp ht
    exact hu.listed t htm
  · obtain ⟨h1, h2⟩ := hu.partials ci t ht
    refine ⟨hnd.mem_erase_iff.mpr ⟨?_, h1⟩, h2⟩
    rintro rfl
    dsimp only at ht h2
    rw [Function.update_self] at h2
    have hc : (c.m.slab t).cls = ci := h2
    rw [← hc, Function.update_self] at ht
    exact absurd rfl ((h.nodup _).mem_erase_iff.mp ht).1

/-! ## Blocks that come and go -/

/-- Blocks with nothing on them come, and blocks with no run go. -/
theorem ok_rechunk {m m' : Mem} (h : m.Ok) (hslab : m'.slab = m.slab) (hslabs : m'.slabs = m.slabs)
    (hpart : m'.partials = m.partials) (hnext : m.next ≤ m'.next)
    (hkeep : ∀ k ∈ m.chunks, ∀ i, (m.chunk k).run i ≠ 0 →
      k ∈ m'.chunks ∧ m'.chunk k = m.chunk k)
    (hnew : ∀ k ∈ m'.chunks, k ∈ m.chunks ∧ m'.chunk k = m.chunk k ∨
      (m'.chunk k).Ok ∧ ∀ j, (m'.chunk k).slab j = none) : m'.Ok := by
  have hhome : ∀ s k i, s ∈ m.slabs → m.Home s k i → m'.Home s k i := by
    intro s k i hs hh
    have hpos := slabPages_pos (m.slab s).cls
    have hrun : (m.chunk k).run i ≠ 0 := by
      rw [hh.run, (h.slab s hs).pages]
      omega
    obtain ⟨hm, heq⟩ := hkeep k hh.mem i hrun
    refine ⟨hm, ?_, ?_, fun j h1 h2 => ?_⟩
    · rw [hslab, heq]
      exact hh.base
    · rw [hslab, heq]
      exact hh.run
    · rw [hslab] at h2
      rw [heq]
      exact hh.slab j h1 h2
  refine ⟨fun k hk => ?_, ?_, fun s hs => ?_, fun s hs => ?_, fun k hk j s hj => ?_, ?_, ?_, ?_, ?_⟩
  · rcases hnew k hk with ⟨hm, heq⟩ | ⟨hok, -⟩
    · rw [heq]
      exact h.chunk k hm
    · exact hok
  · rw [hslab, hslabs]
    exact h.slab
  · rw [hslabs] at hs
    exact (h.fresh s hs).trans_le hnext
  · rw [hslabs] at hs
    obtain ⟨k, i, hh⟩ := h.home s hs
    exact ⟨k, i, hhome s k i hs hh⟩
  · rcases hnew k hk with ⟨hm, heq⟩ | ⟨-, hnone⟩
    · rw [heq] at hj
      obtain ⟨hs, i, hh, h1, h2⟩ := h.page k hm j s hj
      rw [hslab, hslabs]
      exact ⟨hs, i, hhome s k i hs hh, h1, h2⟩
    · rw [hnone j] at hj
      exact absurd hj (by simp)
  · rw [hslab, hslabs, hpart]
    exact h.listed
  · rw [hslab, hslabs, hpart]
    exact h.partials
  · rw [hpart]
    exact h.nodup
  · rw [hslabs]
    exact h.slabs

theorem made_ok (c : Cfg) (n b : ℕ) (e : Env) :
    (c.made n b e).Ok ∧ ∀ j, (c.made n b e).slab j = none := by
  unfold made
  split_ifs
  · exact ⟨Chunk.ok_new _ _ _, fun _ => rfl⟩
  · exact ⟨⟨fun _ hx => absurd rfl hx, fun _ _ hx => absurd rfl hx, fun _ _ hx => absurd rfl hx,
      fun _ hx => absurd rfl hx, fun _ => rfl, fun _ hx => absurd hx Bool.false_ne_true⟩,
      fun _ => rfl⟩

theorem ok_added (hf : c.Frames) (h : c.m.Ok) (n b : ℕ) (e : Env) (p : Pool) :
    (c.added n b e p).m.Ok := by
  have hold : ∀ k ∈ c.m.chunks, (c.added n b e p).m.chunk k = c.m.chunk k := fun k hk =>
    Function.update_of_ne (hf.fresh k hk).ne _ _
  refine ok_rechunk h rfl rfl rfl (Nat.le_succ _)
    (fun k hk i _ => ⟨List.mem_cons_of_mem _ hk, hold k hk⟩) fun k hk => ?_
  rcases List.mem_cons.mp hk with rfl | hk
  · right
    have : (c.added n b e p).m.chunk c.m.next = c.made n b e := Function.update_self _ _ _
    rw [this]
    exact made_ok c n b e
  · exact Or.inl ⟨hk, hold k hk⟩

end Cfg

end BananaOS.Umem
