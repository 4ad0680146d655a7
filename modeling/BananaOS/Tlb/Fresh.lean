import BananaOS.Tlb.Tags
import Mathlib.Tactic.Tauto

/-!
# No stale entry is used after a load

What `tlb_load` leaves to be used: of the space's own entries, those made since its last recorded
change; of the kernel's pages, none older than the last recorded change of the page.

A core forgets everything for a change of the kernel's tables that another core recorded, and for
its own ones with `tlb_kernel_changed(0)`.  For its own with `others_only` the caller forgot the
pages that changed, and every other entry is kept: these may be older than the change.

The invariant `Cpu.Ok` is about one core.  Its slots (`slots`) say for which space a PCID is and
since which change its entries were made; `plain` says the same of the only PCID there is without
PCIDs, `kernel0` of PCID 0 with them, and `kern` of the kernel's pages.
-/

namespace BananaOS.Tlb

/-! ## Counters of 32 bits -/

/-- Two counts that are less than `2^32` apart are the same if their low 32 bits are. -/
theorem eq_of_u32_eq {m n : ℕ} (h : u32 m = u32 n) (hle : m ≤ n) (hlt : n - m < 2 ^ 32) :
    m = n := by
  unfold u32 at h
  omega

theorem u32_succ (n : ℕ) : u32 (u32 n + 1) = u32 (n + 1) := by
  unfold u32
  omega

/-! ## The invariant -/

/-- The generations are the low bits of the counts. -/
structure Shared.Ok (g : Shared) : Prop where
  kgen : g.kgen = u32 g.kchanges
  gen : ∀ id, g.gen id = u32 (g.changes id)
  zero : g.changes 0 = 0
  page : ∀ p, g.pageAt p ≤ g.kchanges

namespace Cpu

/-- The entries under a PCID, all but the global ones. -/
def Under (p : Cpu) (n : ℕ) (e : Entry) : Prop := e ∈ p.tlb ∧ e.glob = false ∧ e.pcid = n

/-- No entry is older than the change of the kernel's tables that it has to be younger than. -/
def KernFresh (g : Shared) (p : Cpu) : Prop :=
  ∀ e ∈ p.tlb, p.owed ≤ e.kmade ∧ (e.kern = true → g.pageAt e.page ≤ e.kmade)

/-- What is true of a core. -/
structure Ok (kernelCr3 : ℕ) (g : Shared) (p : Cpu) : Prop where
  pge : p.pcide = true → p.pge = true
  looked : p.pcide = true → g.pcid ≠ none
  one : p.pcide = false → ∀ e ∈ p.tlb, e.pcid = 0
  glob : ∀ e ∈ p.tlb, e.glob = (e.kern && p.pge)
  made : ∀ e ∈ p.tlb, e.made ≤ g.changes e.id
  seen : ∀ id n, p.seen id = some n → n ≤ g.changes id
  owed : p.owed ≤ g.kchanges
  kern : ∃ n, p.kseen ≤ n ∧ n ≤ g.kchanges ∧ p.k.kgen = u32 n ∧
    (g.kchanges - p.kseen < 2 ^ 32 → n = g.kchanges → KernFresh g p)
  plain : ∀ id, p.k.id = some id → p.tlbHasPcid g = false ∧ p.pcid = 0 ∧ p.loaded = id ∧
    (∀ e, p.Under 0 e → e.id = id ∧ e.addr = p.cr3.addr) ∧
    (0 < id → ∃ n, p.seen id = some n ∧ p.k.gen = u32 n ∧ ∀ e, p.Under 0 e → n ≤ e.made)
  kernel0 : p.tlbHasPcid g = true → p.k.dirty0 = false →
    (∀ e, p.Under 0 e → e.id = 0 ∧ e.addr = kernelCr3) ∧
      (p.pcid = 0 → p.loaded = 0 ∧ p.cr3.addr = kernelCr3)
  next : p.k.next < nSlot
  slots : p.tlbHasPcid g = true → ∀ i, i < nSlot → 0 < (p.k.slot i).id →
    ∃ n, p.seen (p.k.slot i).id = some n ∧ (p.k.slot i).gen = u32 n ∧
      (∀ e, p.Under (i + 1) e → e.id = (p.k.slot i).id ∧ n ≤ e.made) ∧
      (p.pcid = i + 1 → p.loaded = (p.k.slot i).id)
  apart : p.tlbHasPcid g = true → ∀ i j, i < nSlot → j < nSlot → 0 < (p.k.slot i).id →
    (p.k.slot i).id = (p.k.slot j).id → i = j

/-- What a load of `cr3` with `tag` leaves of the space's own entries. -/
def Fresh (g : Shared) (p : Cpu) (cr3 : ℕ) (tag : Option ℕ) : Prop :=
  ∀ e, p.Under p.pcid e →
    e.id = tag.getD 0 ∧ e.made = g.changes (tag.getD 0) ∧ (tag = none → e.addr = cr3)

section
variable {kernelCr3 : ℕ} {g : Shared} {p : Cpu}

/-! ## Losing entries -/

/-- A core with fewer entries. -/
theorem Ok.lose (h : p.Ok kernelCr3 g) {t : List Entry} (ht : ∀ e ∈ t, e ∈ p.tlb) :
    { p with tlb := t }.Ok kernelCr3 g := by
  have hu : ∀ n e, Under { p with tlb := t } n e → p.Under n e :=
    fun n e he => ⟨ht e he.1, he.2⟩
  refine ⟨h.pge, h.looked, fun hp e he => h.one hp e (ht e he), fun e he => h.glob e (ht e he),
    fun e he => h.made e (ht e he), h.seen, h.owed, ?_, ?_, ?_, h.next, ?_, h.apart⟩
  · obtain ⟨n, h1, h2, h3, h4⟩ := h.kern
    exact ⟨n, h1, h2, h3, fun hk hn e he => h4 hk hn e (ht e he)⟩
  · intro id hid
    obtain ⟨h1, h2, h3, h4, h5⟩ := h.plain id hid
    refine ⟨h1, h2, h3, fun e he => h4 e (hu 0 e he), fun hpos => ?_⟩
    obtain ⟨n, hn, hg, he⟩ := h5 hpos
    exact ⟨n, hn, hg, fun e he' => he e (hu 0 e he')⟩
  · intro hp hd
    obtain ⟨h1, h2⟩ := h.kernel0 hp hd
    exact ⟨fun e he => h1 e (hu 0 e he), h2⟩
  · intro hp i hi hid
    obtain ⟨n, hn, hg, he, hl⟩ := h.slots hp i hi hid
    exact ⟨n, hn, hg, fun e he' => he e (hu _ e he'), hl⟩

/-- Everything is forgotten, also where there are no global pages. -/
theorem tlbFlushAll_eq (hpge : p.pcide = true → p.pge = true)
    (hone : p.pcide = false → ∀ e ∈ p.tlb, e.pcid = 0)
    (hglob : ∀ e ∈ p.tlb, e.glob = (e.kern && p.pge)) :
    p.tlbFlushAll = { p with tlb := [] } := by
  unfold tlbFlushAll
  split_ifs with hp
  · rfl
  · have hc : p.pcide = false := by
      cases hpc : p.pcide
      · rfl
      · exact absurd (hpge hpc) hp
    have ht : p.tlb.filter (fun e => e.glob || decide (e.pcid ≠ p.pcid)) = [] := by
      rw [List.filter_eq_nil_iff]
      intro e he
      simp [hglob e he, hone hc e he, hp, pcid, hc]
    unfold wrCr3
    simp only [Bool.false_eq_true, if_false]
    exact congrArg (fun t => { p with tlb := t }) ht

/-- After the core caught up with the kernel's tables it owes none of their changes. -/
theorem Ok.catchUp (hg : g.Ok) (h : p.Ok kernelCr3 g) (hk : g.kchanges - p.kseen < 2 ^ 32) :
    (p.catchUp g).Ok kernelCr3 g ∧ (p.catchUp g).k.kgen = g.kgen ∧
      KernFresh g (p.catchUp g) := by
  unfold Cpu.catchUp
  obtain ⟨n, h1, h2, h3, h4⟩ := h.kern
  split_ifs with hne
  · rw [tlbFlushAll_eq (p := { p with k := { p.k with kgen := g.kgen } }) h.pge h.one h.glob]
    have hl := h.lose (t := []) (by simp)
    refine ⟨⟨hl.pge, hl.looked, hl.one, hl.glob, hl.made, hl.seen, hl.owed, ?_, hl.plain, hl.kernel0, hl.next,
      hl.slots, hl.apart⟩, rfl, by intro e he; simp at he⟩
    exact ⟨g.kchanges, le_trans h1 h2, le_rfl, hg.kgen, fun _ _ e he => by simp at he⟩
  · have hkg : p.k.kgen = g.kgen := not_not.mp hne
    have hn : n = g.kchanges := by
      apply eq_of_u32_eq _ h2 (by omega)
      rw [← h3, hkg, hg.kgen]
    exact ⟨h, hkg, h4 hk hn⟩

/-! ## Loads -/

/-- The part of the invariant that every way to load keeps: CR3 is written, some entries go, and
`core_t` changes but for its `kgen`. -/
theorem Ok.loaded (hg : g.Ok) (h : p.Ok kernelCr3 g) (hkg : p.k.kgen = g.kgen)
    (hkf : KernFresh g p) {v : Cr3} {t : List Entry} {k : Core} {tag : Option ℕ} {q : Cpu}
    (hq : q = noteLoad { p with cr3 := v, tlb := t, k := k } g tag)
    (ht : ∀ e ∈ t, e ∈ p.tlb) (hk : k.kgen = p.k.kgen) (hnext : k.next < nSlot)
    (plain : ∀ id, q.k.id = some id → q.tlbHasPcid g = false ∧ q.pcid = 0 ∧ q.loaded = id ∧
      (∀ e, q.Under 0 e → e.id = id ∧ e.addr = q.cr3.addr) ∧
      (0 < id → ∃ n, q.seen id = some n ∧ q.k.gen = u32 n ∧ ∀ e, q.Under 0 e → n ≤ e.made))
    (kernel0 : q.tlbHasPcid g = true → q.k.dirty0 = false →
      (∀ e, q.Under 0 e → e.id = 0 ∧ e.addr = kernelCr3) ∧
        (q.pcid = 0 → q.loaded = 0 ∧ q.cr3.addr = kernelCr3))
    (slots : q.tlbHasPcid g = true → ∀ i, i < nSlot → 0 < (q.k.slot i).id →
      ∃ n, q.seen (q.k.slot i).id = some n ∧ (q.k.slot i).gen = u32 n ∧
        (∀ e, q.Under (i + 1) e → e.id = (q.k.slot i).id ∧ n ≤ e.made) ∧
        (q.pcid = i + 1 → q.loaded = (q.k.slot i).id))
    (apart : q.tlbHasPcid g = true → ∀ i j, i < nSlot → j < nSlot → 0 < (q.k.slot i).id →
      (q.k.slot i).id = (q.k.slot j).id → i = j) :
    q.Ok kernelCr3 g ∧ KernFresh g q := by
  subst hq
  have hf : KernFresh g (noteLoad { p with cr3 := v, tlb := t, k := k } g tag) :=
    fun e he => hkf e (ht e he)
  refine ⟨⟨h.pge, h.looked, fun hp e he => h.one hp e (ht e he), fun e he => h.glob e (ht e he),
    fun e he => h.made e (ht e he), ?_, h.owed, ?_, plain, kernel0, hnext, slots, apart⟩, hf⟩
  · intro id n hn
    simp only [noteLoad, Function.update_apply] at hn
    split_ifs at hn with hid
    · subst hid
      exact le_of_eq (Option.some.inj hn).symm
    · exact h.seen id n hn
  · refine ⟨g.kchanges, le_rfl, le_rfl, ?_, fun _ _ => hf⟩
    change k.kgen = _
    rw [hk, hkg, hg.kgen]

theorem not_under_of_flush {e : Entry} {q : Cpu} (n : ℕ)
    (hq : q.tlb = p.tlb.filter fun e => e.glob || decide (e.pcid ≠ n)) : ¬q.Under n e := by
  rintro ⟨he, hglob, hpc⟩
  rw [hq, List.mem_filter] at he
  simp [hglob, hpc] at he

/-- The entries that a core without PCIDs in use has under PCID 0 when it loads the space that
is loaded, unchanged. -/
theorem Ok.loadPlain (hg : g.Ok) (h : p.Ok kernelCr3 g) (hkg : p.k.kgen = g.kgen)
    (hkf : KernFresh g p) (hpc : p.tlbHasPcid g = false) (cr3 : ℕ) (tag : Option ℕ)
    (htag : ∀ id, tag = some id → 0 < id ∧ ∀ n, p.seen id = some n → g.changes id - n < 2 ^ 32) :
    ((p.loadPlain g cr3 tag).noteLoad g tag).Ok kernelCr3 g ∧
      KernFresh g ((p.loadPlain g cr3 tag).noteLoad g tag) ∧
      Fresh g ((p.loadPlain g cr3 tag).noteLoad g tag) cr3 tag := by
  have hgen : (tag.map g.gen).getD 0 = u32 (g.changes (tag.getD 0)) := by
    cases tag with
    | none => simp [hg.zero, u32]
    | some id => exact hg.gen id
  have hoff : ∀ {x : Prop}, p.tlbHasPcid g = true → x := by
    intro x hx
    rw [hpc] at hx
    exact absurd hx (by simp)
  unfold Cpu.loadPlain
  simp only
  split_ifs with hkeep
  · -- kept: the same tables, the same space, no change of it since
    obtain ⟨haddr, hid, hgn⟩ := hkeep
    obtain ⟨-, hp0, hld, hent, hmade⟩ := h.plain _ hid
    have hall : ∀ e, p.Under 0 e → e.made = g.changes (tag.getD 0) := by
      intro e he
      have hle := h.made e he.1
      rw [(hent e he).1] at hle
      cases tag with
      | none =>
        simp only [Option.getD_none, hg.zero] at hle ⊢
        omega
      | some id =>
        obtain ⟨hpos, hlt⟩ := htag id rfl
        obtain ⟨n, hn, hgn', hn'⟩ := hmade hpos
        have hnc : n = g.changes id := by
          apply eq_of_u32_eq _ (h.seen id n hn) (hlt n hn)
          rw [← hgn', hgn]
          exact hg.gen id
        have := hn' e he
        simp only [Option.getD_some] at hle ⊢
        omega
    have hok := h.loaded hg hkg hkf (v := p.cr3) (t := p.tlb) (k := p.k)
      (q := p.noteLoad g tag) rfl (fun _ he => he) rfl h.next ?_ (fun hx => hoff hx)
      (fun hx => hoff hx) (fun hx => hoff hx)
    · refine ⟨hok.1, hok.2, ?_⟩
      intro e he
      have he0 : p.Under 0 e := by
        have : (p.noteLoad g tag).pcid = 0 := hp0
        rw [this] at he
        exact he
      refine ⟨(hent e he0).1, hall e he0, fun _ => ?_⟩
      rw [(hent e he0).2, haddr]
    · intro id hid'
      have hide : tag.getD 0 = id := by
        have : p.k.id = some id := hid'
        rw [hid] at this
        exact Option.some.inj this
      subst hide
      refine ⟨hpc, hp0, rfl, hent, fun hpos => ?_⟩
      refine ⟨g.changes (tag.getD 0), ?_, ?_, ?_⟩
      · simp [noteLoad]
      · exact hgn.trans hgen
      · intro e he
        exact le_of_eq (hall e he).symm
  · -- another space, or this one changed: nothing but global entries are left
    suffices hs : ∀ q : Cpu, q = noteLoad { p with
        cr3 := ⟨cr3, 0⟩, tlb := p.tlb.filter fun e => e.glob || decide (e.pcid ≠ 0)
        k := { p.k with id := some (tag.getD 0), gen := (tag.map g.gen).getD 0 } } g tag →
        q.Ok kernelCr3 g ∧ KernFresh g q ∧ Fresh g q cr3 tag by
      apply hs
      simp [noteLoad, wrCr3, pcid]
    intro q hq
    have hpcid : q.pcid = 0 := by simp [hq, noteLoad, pcid]
    have hnone : ∀ e, ¬q.Under 0 e := fun e => not_under_of_flush (p := p) 0 (by rw [hq]; rfl)
    have hoff' : ∀ {x : Prop}, q.tlbHasPcid g = true → x := by
      rw [hq]
      exact hoff
    have hok := h.loaded hg hkg hkf hq (fun e he => (List.mem_filter.mp he).1) rfl h.next ?_
      (fun hx => hoff' hx) (fun hx => hoff' hx) (fun hx => hoff' hx)
    · refine ⟨hok.1, hok.2, fun e he => ?_⟩
      rw [hpcid] at he
      exact absurd he (hnone e)
    · intro id hid'
      have hide : tag.getD 0 = id := by
        rw [hq] at hid'
        exact Option.some.inj hid'
      subst hide
      refine ⟨?_, hpcid, ?_, fun e he => absurd he (hnone e), fun hpos => ?_⟩
      · rw [hq]
        exact hpc
      · rw [hq]
        rfl
      · refine ⟨g.changes (tag.getD 0), ?_, ?_, fun e he => absurd he (hnone e)⟩
        · simp [hq, noteLoad]
        · rw [hq]
          exact hgen

/-- The kernel's own tables, or tables of nobody's, under PCID 0. -/
theorem Ok.loadKernel (hg : g.Ok) (h : p.Ok kernelCr3 g) (hkg : p.k.kgen = g.kgen)
    (hkf : KernFresh g p) (hpc : p.tlbHasPcid g = true) (cr3 : ℕ) :
    ((p.loadKernel kernelCr3 cr3).noteLoad g none).Ok kernelCr3 g ∧
      KernFresh g ((p.loadKernel kernelCr3 cr3).noteLoad g none) ∧
      Fresh g ((p.loadKernel kernelCr3 cr3).noteLoad g none) cr3 none := by
  have hid : p.k.id = none := by
    cases hx : p.k.id with
    | none => rfl
    | some id => simpa [hpc] using (h.plain id hx).1
  -- the slots stay, and PCID 0 is none of theirs
  suffices hs : ∀ (t : List Entry) (d : Bool) (q : Cpu), (∀ e ∈ t, e ∈ p.tlb) →
      q = noteLoad { p with cr3 := ⟨cr3, 0⟩, tlb := t, k := { p.k with dirty0 := d } } g none →
      (d = false → cr3 = kernelCr3) →
      (∀ e, q.Under 0 e → e.id = 0 ∧ e.addr = cr3) →
      q.Ok kernelCr3 g ∧ KernFresh g q ∧ Fresh g q cr3 none by
    unfold Cpu.loadKernel
    split_ifs with hd hne
    · refine hs (p.tlb.filter fun e => e.glob || decide (e.pcid ≠ 0)) (decide (cr3 ≠ kernelCr3)) _
        (fun e he => (List.mem_filter.mp he).1) ?_ (by simp) ?_
      · simp [noteLoad, wrCr3, pcid]
      · intro e he
        refine absurd he (not_under_of_flush (p := p) 0 ?_)
        simp [noteLoad, wrCr3, pcid]
    · have hd' : p.k.dirty0 = false ∧ cr3 = kernelCr3 := by simpa using hd
      refine hs p.tlb p.k.dirty0 _ (fun e he => he) rfl (fun _ => hd'.2) ?_
      intro e he
      have := (h.kernel0 hpc hd'.1).1 e he
      rw [hd'.2]
      exact this
    · have hd' : p.k.dirty0 = false ∧ cr3 = kernelCr3 := by simpa using hd
      have hcr : p.cr3 = ⟨cr3, 0⟩ := not_not.mp hne
      refine hs p.tlb p.k.dirty0 _ (fun e he => he) ?_ (fun _ => hd'.2) ?_
      · rw [← hcr]
      · intro e he
        have := (h.kernel0 hpc hd'.1).1 e he
        rw [hd'.2]
        exact this
  intro t d q ht hq hd hent
  have hpcid : q.pcid = 0 := by simp [hq, noteLoad, pcid]
  have hok := h.loaded hg hkg hkf hq ht rfl h.next ?_ ?_ ?_ ?_
  · refine ⟨hok.1, hok.2, ?_⟩
    intro e he
    rw [hpcid] at he
    have hle := hok.1.made e he.1
    rw [(hent e he).1, hg.zero] at hle
    refine ⟨(hent e he).1, ?_, fun _ => (hent e he).2⟩
    simp only [Option.getD_none, hg.zero]
    omega
  · intro id hid'
    rw [hq] at hid'
    exact absurd (hid.symm.trans hid') (by simp)
  · intro _ hd'
    rw [hq] at hd'
    have hk := hd hd'
    refine ⟨fun e he => hk ▸ hent e he, fun _ => ?_⟩
    rw [hq]
    exact ⟨rfl, hk⟩
  · intro _ i hi hpos
    have hslot : q.k.slot i = p.k.slot i := by rw [hq]; rfl
    rw [hslot] at hpos ⊢
    obtain ⟨n, h1, h2, h3, -⟩ := h.slots hpc i hi hpos
    refine ⟨n, ?_, h2, ?_, fun hx => by rw [hpcid] at hx; omega⟩
    · rw [hq]
      simp only [noteLoad, Option.getD_none]
      rw [Function.update_of_ne (by omega)]
      exact h1
    · intro e he
      rw [hq] at he
      exact h3 e ⟨ht e he.1, he.2⟩
  · intro _
    rw [hq]
    exact h.apart hpc

theorem findSlot_some {k : Core} {id i : ℕ} (h : findSlot k id = some i) :
    i < nSlot ∧ (k.slot i).id = id := by
  unfold findSlot at h
  have h1 := List.mem_of_find?_eq_some h
  have h2 := List.find?_some h
  exact ⟨List.mem_range.mp h1, by simpa using h2⟩

theorem findSlot_none {k : Core} {id : ℕ} (h : findSlot k id = none) :
    ∀ i < nSlot, (k.slot i).id ≠ id := by
  unfold findSlot at h
  rw [List.find?_eq_none] at h
  intro i hi
  simpa using h i (List.mem_range.mpr hi)

/-- A space with a tag, once it has the slot `i`: all that is left under its PCID is the space's,
and made since its last change. -/
theorem Ok.slotLoaded (hg : g.Ok) (h : p.Ok kernelCr3 g) (hkg : p.k.kgen = g.kgen)
    (hkf : KernFresh g p) (hpc : p.tlbHasPcid g = true) {cr3 id i x : ℕ} {t : List Entry}
    {q : Cpu} (hi : i < nSlot) (hnx : x < nSlot) (ht : ∀ e ∈ t, e ∈ p.tlb)
    (hq : q = noteLoad { p with
      cr3 := ⟨cr3, i + 1⟩, tlb := t
      k := { p.k with next := x, slot := Function.update p.k.slot i ⟨id, g.gen id⟩ } } g (some id))
    (hother : ∀ j, j < nSlot → j ≠ i → (p.k.slot j).id ≠ id)
    (hent : ∀ e, q.Under (i + 1) e → e.id = id ∧ e.made = g.changes id) :
    q.Ok kernelCr3 g ∧ KernFresh g q ∧ Fresh g q cr3 (some id) := by
  have hide : p.pcide = true := by
    unfold tlbHasPcid at hpc
    exact (Bool.and_eq_true_iff.mp hpc).2
  have hpcid : q.pcid = i + 1 := by simp [hq, noteLoad, pcid, hide]
  have hnone : p.k.id = none := by
    cases hx : p.k.id with
    | none => rfl
    | some id => simpa [hpc] using (h.plain id hx).1
  have hself : q.k.slot i = ⟨id, g.gen id⟩ := by simp [hq, noteLoad]
  have hslot : ∀ j, j ≠ i → q.k.slot j = p.k.slot j := by
    intro j hj
    simp [hq, noteLoad, hj]
  have hu : ∀ n e, q.Under n e → p.Under n e := by
    intro n e he
    rw [hq] at he
    exact ⟨ht e he.1, he.2⟩
  have hok := h.loaded hg hkg hkf hq ht rfl hnx ?_ ?_ ?_ ?_
  · refine ⟨hok.1, hok.2, ?_⟩
    intro e he
    rw [hpcid] at he
    exact ⟨(hent e he).1, (hent e he).2, fun hx => absurd hx (by simp)⟩
  · intro id' hid'
    rw [hq] at hid'
    exact absurd (hnone.symm.trans hid') (by simp)
  · intro _ hd
    have hd' : p.k.dirty0 = false := by
      rw [hq] at hd
      exact hd
    refine ⟨fun e he => (h.kernel0 hpc hd').1 e (hu 0 e he), fun hx => ?_⟩
    rw [hpcid] at hx
    omega
  · intro _ j hj hpos
    by_cases hji : j = i
    · subst hji
      rw [hself]
      refine ⟨g.changes id, ?_, hg.gen id, ?_, fun _ => by rw [hq]; rfl⟩
      · simp [hq, noteLoad]
      · intro e he
        exact ⟨(hent e he).1, le_of_eq (hent e he).2.symm⟩
    · rw [hslot j hji] at hpos ⊢
      obtain ⟨n, h1, h2, h3, -⟩ := h.slots hpc j hj hpos
      refine ⟨n, ?_, h2, fun e he => h3 e (hu _ e he), fun hx => by rw [hpcid] at hx; omega⟩
      rw [hq]
      simp only [noteLoad, Option.getD_some]
      rw [Function.update_of_ne (hother j hj hji)]
      exact h1
  · intro _ j l hj hl hpos hjl
    by_cases hji : j = i
    · by_cases hli : l = i
      · rw [hji, hli]
      · rw [hji, hself, hslot l hli] at hjl
        exact absurd hjl.symm (hother l hl hli)
    · rw [hslot j hji] at hpos hjl
      by_cases hli : l = i
      · rw [hli, hself] at hjl
        exact absurd hjl (hother j hj hji)
      · rw [hslot l hli] at hjl
        exact h.apart hpc j l hj hl hpos hjl

/-- The slot's generation is the space's: what is under its PCID was made since the last change. -/
theorem Ok.kept_made (hg : g.Ok) (h : p.Ok kernelCr3 g) (hpc : p.tlbHasPcid g = true) {id i : ℕ}
    (hi : i < nSlot) (hid : 0 < id) (hsid : (p.k.slot i).id = id)
    (hlt : ∀ n, p.seen id = some n → g.changes id - n < 2 ^ 32)
    (hgen : (p.k.slot i).gen = g.gen id) {e : Entry} (he : p.Under (i + 1) e) :
    e.id = id ∧ e.made = g.changes id := by
  obtain ⟨n, hn, hgn, hent, -⟩ := h.slots hpc i hi (by omega)
  rw [hsid] at hn hent
  have hnc : n = g.changes id := by
    apply eq_of_u32_eq _ (h.seen id n hn) (hlt n hn)
    rw [← hgn, hgen, hg.gen]
  obtain ⟨h1, h2⟩ := hent e he
  have hle := h.made e he.1
  rw [h1] at hle
  exact ⟨h1, by omega⟩

/-- A space with a tag, on a core that uses PCIDs. -/
theorem Ok.loadTagged (hg : g.Ok) (h : p.Ok kernelCr3 g) (hkg : p.k.kgen = g.kgen)
    (hkf : KernFresh g p) (hpc : p.tlbHasPcid g = true) (cr3 : ℕ) {id : ℕ} (hid : 0 < id)
    (hlt : ∀ n, p.seen id = some n → g.changes id - n < 2 ^ 32) :
    ((p.loadTagged g cr3 id).noteLoad g (some id)).Ok kernelCr3 g ∧
      KernFresh g ((p.loadTagged g cr3 id).noteLoad g (some id)) ∧
      Fresh g ((p.loadTagged g cr3 id).noteLoad g (some id)) cr3 (some id) := by
  have hide : p.pcide = true := by
    unfold tlbHasPcid at hpc
    exact (Bool.and_eq_true_iff.mp hpc).2
  unfold Cpu.loadTagged
  cases hf : findSlot p.k id with
  | none =>
    -- the oldest slot goes to it, with nothing under its PCID
    refine h.slotLoaded hg hkg hkf hpc (i := p.k.next) (x := (p.k.next + 1) % nSlot)
      (t := p.tlb.filter fun e => e.glob || decide (e.pcid ≠ p.k.next + 1))
      h.next (Nat.mod_lt _ (by decide)) (fun e he => (List.mem_filter.mp he).1) ?_ ?_ ?_
    · simp [noteLoad, wrCr3, pcid, hide]
    · exact fun j hj _ => findSlot_none hf j hj
    · intro e he
      refine absurd he (not_under_of_flush (p := p) (p.k.next + 1) ?_)
      simp [noteLoad, wrCr3, pcid, hide]
  | some i =>
    obtain ⟨hi, hsid⟩ := findSlot_some hf
    have hother : ∀ j, j < nSlot → j ≠ i → (p.k.slot j).id ≠ id := by
      intro j hj hji hx
      exact hji (h.apart hpc j i hj hi (by omega) (by rw [hx, hsid]))
    simp only
    split_ifs with hfresh hne
    · -- kept: no change was recorded since the core loaded it last
      refine h.slotLoaded hg hkg hkf hpc (i := i) (x := p.k.next) (t := p.tlb) hi h.next
        (fun e he => he) rfl hother ?_
      intro e he
      exact h.kept_made hg hpc hi hid hsid hlt (by simpa using hfresh) he
    · refine h.slotLoaded hg hkg hkf hpc (i := i) (x := p.k.next) (t := p.tlb) hi h.next
        (fun e he => he) ?_ hother ?_
      · rw [← not_not.mp hne]
      · intro e he
        exact h.kept_made hg hpc hi hid hsid hlt (by simpa using hfresh) he
    · refine h.slotLoaded hg hkg hkf hpc (i := i) (x := p.k.next)
        (t := p.tlb.filter fun e => e.glob || decide (e.pcid ≠ i + 1)) hi h.next
        (fun e he => (List.mem_filter.mp he).1) ?_ hother ?_
      · simp [noteLoad, wrCr3, pcid, hide]
      · intro e he
        refine absurd he (not_under_of_flush (p := p) (i + 1) ?_)
        simp [noteLoad, wrCr3, pcid, hide]

/-- `tlb_load` on a core that has its `core_t`. -/
theorem Ok.loadOn (hg : g.Ok) (h : p.Ok kernelCr3 g) (cr3 : ℕ) (tag : Option ℕ)
    (hk : g.kchanges - p.kseen < 2 ^ 32)
    (htag : ∀ id, tag = some id → 0 < id ∧ ∀ n, p.seen id = some n → g.changes id - n < 2 ^ 32) :
    ((p.loadOn g kernelCr3 cr3 tag).noteLoad g tag).Ok kernelCr3 g ∧
      KernFresh g ((p.loadOn g kernelCr3 cr3 tag).noteLoad g tag) ∧
      Fresh g ((p.loadOn g kernelCr3 cr3 tag).noteLoad g tag) cr3 tag := by
  obtain ⟨hq, hkg, hkf⟩ := h.catchUp hg hk
  have hseen : (p.catchUp g).seen = p.seen := by
    unfold Cpu.catchUp tlbFlushAll wrCr3
    split_ifs <;> rfl
  rw [← hseen] at htag
  unfold Cpu.loadOn
  simp only
  split_ifs with hpc
  · cases tag with
    | none => exact hq.loadKernel hg hkg hkf hpc cr3
    | some id => exact hq.loadTagged hg hkg hkf hpc cr3 (htag id rfl).1 (htag id rfl).2
  · exact hq.loadPlain hg hkg hkf (by simpa using hpc) cr3 tag htag

/-! ## The other steps -/

/-- What other cores record: changes of spaces, and that there are no PCIDs after all. -/
theorem Ok.mono (h : p.Ok kernelCr3 g) {g' : Shared} (hk : g'.kchanges = g.kchanges)
    (hp : g'.pageAt = g.pageAt) (hc : ∀ id, g.changes id ≤ g'.changes id)
    (hl : g.pcid ≠ none → g'.pcid ≠ none)
    (hpc : g.pcid ≠ none → g'.pcid = some true → g.pcid = some true) : p.Ok kernelCr3 g' := by
  have hhas : p.tlbHasPcid g' = true → p.tlbHasPcid g = true := by
    intro hx
    simp only [tlbHasPcid, Bool.and_eq_true, beq_iff_eq] at hx ⊢
    exact ⟨hpc (h.looked hx.2) hx.1, hx.2⟩
  refine ⟨h.pge, fun hx => hl (h.looked hx), h.one, h.glob,
    fun e he => (h.made e he).trans (hc _), fun id n hn => (h.seen id n hn).trans (hc _), ?_, ?_, ?_,
    fun hx => h.kernel0 (hhas hx), h.next, fun hx => h.slots (hhas hx), fun hx => h.apart (hhas hx)⟩
  · rw [hk]
    exact h.owed
  · unfold KernFresh
    rw [hk, hp]
    exact h.kern
  · intro id hid
    obtain ⟨h1, h2⟩ := h.plain id hid
    refine ⟨?_, h2⟩
    cases hx : p.tlbHasPcid g'
    · rfl
    · rw [hhas hx] at h1
      exact absurd h1 (by simp)

/-- The processor makes an entry of what is loaded. -/
theorem Ok.touch (hg : g.Ok) (h : p.Ok kernelCr3 g) {e : Entry} (hpc : e.pcid = p.pcid)
    (hgl : e.glob = (e.kern && p.pge)) (hid : e.id = p.loaded) (had : e.addr = p.cr3.addr)
    (hm : e.made = g.changes p.loaded) (hkm : e.kmade = g.kchanges) :
    { p with tlb := e :: p.tlb }.Ok kernelCr3 g := by
  have hu : ∀ n x, Under { p with tlb := e :: p.tlb } n x → (x = e ∧ p.pcid = n) ∨ p.Under n x := by
    rintro n x ⟨hx, hx'⟩
    rcases List.mem_cons.mp hx with rfl | hx
    · exact Or.inl ⟨rfl, by rw [← hpc]; exact hx'.2⟩
    · exact Or.inr ⟨hx, hx'⟩
  refine ⟨h.pge, h.looked, ?_, ?_, ?_, h.seen, h.owed, ?_, ?_, ?_, h.next, ?_, h.apart⟩
  · intro hx x he
    rcases List.mem_cons.mp he with rfl | he
    · rw [hpc]
      unfold Cpu.pcid
      simp only [show p.pcide = false from hx, Bool.false_eq_true, if_false]
    · exact h.one hx x he
  · intro x he
    rcases List.mem_cons.mp he with rfl | he
    · exact hgl
    · exact h.glob x he
  · intro x he
    rcases List.mem_cons.mp he with rfl | he
    · rw [hm, hid]
    · exact h.made x he
  · obtain ⟨n, h1, h2, h3, h4⟩ := h.kern
    refine ⟨n, h1, h2, h3, fun hk hn x he => ?_⟩
    rcases List.mem_cons.mp he with rfl | he
    · rw [hkm]
      exact ⟨h.owed, fun _ => hg.page _⟩
    · exact h4 hk hn x he
  · intro id hid'
    obtain ⟨h1, h2, h3, h4, h5⟩ := h.plain id hid'
    refine ⟨h1, h2, h3, fun x he => ?_, fun hpos => ?_⟩
    · rcases hu 0 x he with ⟨rfl, -⟩ | he
      · exact ⟨hid.trans h3, had⟩
      · exact h4 x he
    · obtain ⟨n, hn, hgn, hx⟩ := h5 hpos
      refine ⟨n, hn, hgn, fun x he => ?_⟩
      rcases hu 0 x he with ⟨rfl, -⟩ | he
      · rw [hm, h3]
        exact h.seen id n hn
      · exact hx x he
  · intro hx hd
    obtain ⟨h1, h2⟩ := h.kernel0 hx hd
    refine ⟨fun x he => ?_, h2⟩
    rcases hu 0 x he with ⟨rfl, h0⟩ | he
    · rw [hid, had]
      exact h2 h0
    · exact h1 x he
  · intro hx i hi hpos
    obtain ⟨n, hn, hgn, h1, h2⟩ := h.slots hx i hi hpos
    refine ⟨n, hn, hgn, fun x he => ?_, h2⟩
    rcases hu (i + 1) x he with ⟨rfl, h0⟩ | he
    · rw [hm, hid, h2 h0]
      exact ⟨rfl, h.seen _ n hn⟩
    · exact h1 x he

/-- After `invlpg` no entry of the kernel's is left for the pages: the kernel's entries are global,
or there is only one PCID. -/
theorem Ok.invlpg_kern (h : p.Ok kernelCr3 g) (pages : List ℕ) :
    ∀ e ∈ (p.invlpg pages).tlb, e.kern = true → ¬pages.contains e.page = true := by
  intro e he hk hc
  obtain ⟨he, hx⟩ := List.mem_filter.mp he
  have huse : p.Uses e := by
    cases hp : p.pge
    · have hpc : p.pcide = false := by
        cases hpc : p.pcide
        · rfl
        · rw [h.pge hpc] at hp
          exact absurd hp (by simp)
      right
      rw [h.one hpc e he]
      simp [Cpu.pcid, hpc]
    · left
      rw [h.glob e he, hk, hp]
      rfl
  simp [huse] at hx
  exact absurd (List.contains_iff_mem.mp hc) hx

/-- A change of the kernel's tables, with the counters of one core after it. -/
theorem Ok.kernelCounted (h : p.Ok kernelCr3 g) {g' : Shared} {k o : ℕ} {t : List Entry}
    (hpc : g'.pcid = g.pcid) (hc : g'.changes = g.changes) (hkc : g'.kchanges = g.kchanges + 1)
    (ht : ∀ e ∈ t, e ∈ p.tlb) (ho : o ≤ g.kchanges + 1)
    (hk : ∃ n, p.kseen ≤ n ∧ n ≤ g.kchanges + 1 ∧ k = u32 n ∧
      (g.kchanges + 1 - p.kseen < 2 ^ 32 → n = g.kchanges + 1 →
        KernFresh g' { p with k := { p.k with kgen := k }, owed := o, tlb := t })) :
    { p with k := { p.k with kgen := k }, owed := o, tlb := t }.Ok kernelCr3 g' := by
  have hl := h.lose ht
  have hhas : p.tlbHasPcid g' = p.tlbHasPcid g := by
    unfold tlbHasPcid
    rw [hpc]
  refine ⟨hl.pge, ?_, hl.one, hl.glob, ?_, ?_, ?_, ?_, ?_, ?_, hl.next, ?_, ?_⟩
  · rw [hpc]
    exact hl.looked
  · rw [hc]
    exact hl.made
  · rw [hc]
    exact hl.seen
  · rw [hkc]
    exact ho
  · rw [hkc]
    exact hk
  · intro id hid
    have := hl.plain id hid
    exact ⟨hhas.trans this.1, this.2⟩
  · exact fun hx => hl.kernel0 (hhas.symm.trans hx)
  · exact fun hx => hl.slots (hhas.symm.trans hx)
  · exact fun hx => hl.apart (hhas.symm.trans hx)

/-- `tlb_kernel_changed` on the core that calls it, after it forgot the pages that changed if it
says so. -/
theorem Ok.kernelChanged (hg : g.Ok) (h : p.Ok kernelCr3 g) (c : ℕ) (othersOnly : Bool) {touched : ℕ → Bool} {g' : Shared} (hpc : g'.pcid = g.pcid)
    (hch : g'.changes = g.changes) (hkc : g'.kchanges = g.kchanges + 1)
    (hpage : ∀ x, g'.pageAt x = if touched x then g.kchanges + 1 else g.pageAt x)
    (hclean : othersOnly = true → ∀ e ∈ p.tlb, e.kern = true → ¬touched e.page = true) :
    (p.kernelChanged g c othersOnly).Ok kernelCr3 g' := by
  obtain ⟨n, h1, h2, h3, h4⟩ := h.kern
  have hsame : p.k.kgen = g.kgen → g.kchanges - p.kseen < 2 ^ 32 → n = g.kchanges := by
    intro hk hlt
    apply eq_of_u32_eq _ h2 (by omega)
    rw [← h3, hk, hg.kgen]
  have hnew : u32 (g.kgen + 1) = u32 (g.kchanges + 1) := by rw [hg.kgen, u32_succ]
  unfold Cpu.kernelChanged
  cases othersOnly with
  | true =>
    simp only [if_true]
    split_ifs with hk
    · refine h.kernelCounted hpc hch hkc (k := u32 (g.kgen + 1)) (o := p.owed) (t := p.tlb)
        (fun e he => he) (h.owed.trans (Nat.le_succ _)) ?_
      refine ⟨g.kchanges + 1, by omega, le_rfl, hnew, fun hlt _ e he => ?_⟩
      obtain ⟨h5, h6⟩ := h4 (by omega) (hsame hk.2 (by omega)) e he
      refine ⟨h5, fun hkern => ?_⟩
      rw [hpage, if_neg (hclean rfl e he hkern)]
      exact h6 hkern
    · refine h.kernelCounted hpc hch hkc (k := p.k.kgen) (o := p.owed) (t := p.tlb)
        (fun e he => he) (h.owed.trans (Nat.le_succ _)) ?_
      exact ⟨n, h1, by omega, h3, fun _ hn => by omega⟩
  | false =>
    have hflush := tlbFlushAll_eq h.pge h.one h.glob
    have hf : ∀ k, KernFresh g'
        { p with k := { p.k with kgen := k }, owed := g.kchanges + 1, tlb := [] } := by
      intro k e he
      simp at he
    simp only [Bool.false_eq_true, if_false, hflush]
    split_ifs with hk
    · refine h.kernelCounted hpc hch hkc (k := u32 (g.kgen + 1)) (o := g.kchanges + 1) (t := [])
        (by simp) le_rfl ?_
      exact ⟨g.kchanges + 1, by omega, le_rfl, hnew, fun _ _ => hf _⟩
    · refine h.kernelCounted hpc hch hkc (k := p.k.kgen) (o := g.kchanges + 1) (t := [])
        (by simp) le_rfl ?_
      exact ⟨n, h1, by omega, h3, fun _ hn => by omega⟩

theorem Ok.kernelOwed (h : p.Ok kernelCr3 g) {g' : Shared} (hpc : g'.pcid = g.pcid)
    (hch : g'.changes = g.changes) (hkc : g'.kchanges = g.kchanges + 1) :
    { p with owed := g.kchanges + 1 }.Ok kernelCr3 g' := by
  obtain ⟨n, h1, h2, h3, -⟩ := h.kern
  exact h.kernelCounted hpc hch hkc (k := p.k.kgen) (o := g.kchanges + 1) (t := p.tlb)
    (fun e he => he) le_rfl ⟨n, h1, by omega, h3, fun _ hn => by omega⟩

/-- A core that was started, or woke. -/
theorem Ok.tlbCpuInit (hg : g.Ok) (h : p.Ok kernelCr3 g) (pge pcid : Bool) (v : Cr3) (id : ℕ)
    {g' : Shared} (hpc : g'.pcid = some (gPcid g (pcid && pge))) (hch : g'.changes = g.changes)
    (hkc : g'.kchanges = g.kchanges) :
    (p.tlbCpuInit g pge pcid v id).Ok kernelCr3 g' := by
  have hnone : ∀ n e, ¬Under (p.tlbCpuInit g pge pcid v id) n e := by
    rintro n e ⟨he, -⟩
    exact absurd he (List.not_mem_nil)
  have hno : ∀ e, ¬e ∈ (p.tlbCpuInit g pge pcid v id).tlb := fun e he => List.not_mem_nil he
  have hslot : ∀ i, ((p.tlbCpuInit g pge pcid v id).k.slot i).id = 0 := fun i => rfl
  refine ⟨?_, ?_, fun _ e he => absurd he (hno e), fun e he => absurd he (hno e),
    fun e he => absurd he (hno e), ?_, ?_, ?_, ?_, ?_, h.next, ?_, ?_⟩
  · intro hx
    simp only [Cpu.tlbCpuInit, gPcid, Bool.and_eq_true] at hx
    show pge = true
    split_ifs at hx with hn
    · exact (Bool.and_eq_true_iff.mp hx.1).2
    · exact (Bool.and_eq_true_iff.mp (Bool.and_eq_true_iff.mp hx.1).2).2
  · rw [hpc]
    simp
  · rw [hch]
    exact h.seen
  · exact le_of_eq hkc.symm
  · refine ⟨g.kchanges, le_rfl, le_of_eq hkc.symm, hg.kgen, fun _ _ e he => absurd he (hno e)⟩
  · intro id' hid
    exact absurd hid (by simp [Cpu.tlbCpuInit])
  · intro _ hd
    exact absurd hd (by simp [Cpu.tlbCpuInit])
  · intro _ i _ hpos
    rw [hslot] at hpos
    exact absurd hpos (lt_irrefl 0)
  · intro _ i j _ _ hpos
    rw [hslot] at hpos
    exact absurd hpos (lt_irrefl 0)

end

end Cpu

/-! ## Runs -/

namespace St

variable {kernelCr3 : ℕ} {s : St}

/-- Every core that has its `core_t` is as it should be. -/
structure Ok (kernelCr3 : ℕ) (s : St) : Prop where
  g : s.g.Ok
  cpu : ∀ c < smpMaxCpus, (s.cpu c).Ok kernelCr3 s.g

theorem Ok.start (h : s.Start) : s.Ok kernelCr3 := by
  obtain ⟨h1, h2, h3, h4, h5, h6, h7⟩ := h
  refine ⟨⟨by rw [h1, h5]; rfl, fun id => by rw [h2, h4]; rfl, h4 0, fun p => by rw [h6]; omega⟩,
    fun c _ => ?_⟩
  obtain ⟨hpge, hpc, ht, hs, hnx, hkg, hid, hgn, hd, hl, hsn, hks, ho⟩ := h7 c
  have hno : ∀ e, ¬e ∈ (s.cpu c).tlb := fun e he => by rw [ht] at he; exact List.not_mem_nil he
  have hhas : (s.cpu c).tlbHasPcid s.g = false := by simp [Cpu.tlbHasPcid, hpc]
  have hoff : ∀ {x : Prop}, (s.cpu c).tlbHasPcid s.g = true → x := by
    intro x hx
    rw [hhas] at hx
    exact absurd hx (by simp)
  refine ⟨fun hx => ?_, fun hx => ?_, fun _ e he => absurd he (hno e),
    fun e he => absurd he (hno e), fun e he => absurd he (hno e), fun id n hn => ?_, by omega, ?_,
    ?_, fun hx => hoff hx, by rw [hnx]; decide, fun hx => hoff hx, fun hx => hoff hx⟩
  · rw [hpc] at hx
    exact absurd hx (by simp)
  · rw [hpc] at hx
    exact absurd hx (by simp)
  · rw [hsn] at hn
    exact absurd hn (by simp)
  · exact ⟨0, by omega, by omega, by rw [hkg]; rfl, fun _ _ e he => absurd he (hno e)⟩
  · intro id hid'
    have h0 : 0 = id := Option.some.inj (hid.symm.trans hid')
    subst h0
    refine ⟨hhas, by simp [Cpu.pcid, hpc], hl, fun e he => absurd he.1 (hno e), fun hx => ?_⟩
    exact absurd hx (lt_irrefl 0)

theorem Ok.setCpu (h : s.Ok kernelCr3) {c : ℕ} {p : Cpu}
    (hp : c < smpMaxCpus → p.Ok kernelCr3 s.g) : (s.setCpu c p).Ok kernelCr3 := by
  refine ⟨h.g, fun d hd => ?_⟩
  show Cpu.Ok kernelCr3 s.g (Function.update s.cpu c p d)
  by_cases hdc : d = c
  · subst hdc
    rw [Function.update_self]
    exact hp hd
  · rw [Function.update_of_ne hdc]
    exact h.cpu d hd

theorem Ok.kernelChange (h : s.Ok kernelCr3) {c : ℕ} {othersOnly : Bool} {touched : ℕ → Bool}
    (hclean : othersOnly = true → c < smpMaxCpus →
      ∀ e ∈ (s.cpu c).tlb, e.kern = true → ¬touched e.page = true) :
    (s.kernelChange c othersOnly touched).Ok kernelCr3 := by
  refine ⟨⟨?_, h.g.gen, h.g.zero, ?_⟩, fun d hd => ?_⟩
  · show u32 (s.g.kgen + 1) = u32 (s.g.kchanges + 1)
    rw [h.g.kgen, u32_succ]
  · intro p
    have := h.g.page p
    simp only [St.kernelChange]
    split_ifs <;> omega
  · show Cpu.Ok kernelCr3 _ (if d = c then _ else _)
    split_ifs with hdc
    · subst hdc
      exact (h.cpu d hd).kernelChanged h.g d othersOnly rfl rfl rfl (fun _ => rfl)
        (fun ho => hclean ho hd)
    · exact (h.cpu d hd).kernelOwed rfl rfl rfl

/-- One step of one core keeps what is true of all. -/
theorem Ok.step (h : s.Ok kernelCr3) (a : Act) (ha : s.Allowed a) :
    (s.step kernelCr3 a).Ok kernelCr3 := by
  cases a with
  | touch c page kern =>
    exact h.setCpu fun hc => (h.cpu c hc).touch h.g rfl rfl rfl rfl rfl rfl
  | lose c keeps =>
    exact h.setCpu fun hc => (h.cpu c hc).lose fun e he => (List.mem_filter.mp he).1
  | load c cr3 tag =>
    refine h.setCpu fun hc => ?_
    rw [Cpu.tlbLoad, if_pos hc]
    exact ((h.cpu c hc).loadOn h.g cr3 tag ha.1 ha.2).1
  | spaceChanged id =>
    refine ⟨⟨h.g.kgen, fun x => ?_, ?_, h.g.page⟩, fun c hc => ?_⟩
    · simp only [St.step, Function.update_apply]
      split_ifs with hx
      · rw [h.g.gen, u32_succ]
      · exact h.g.gen x
    · simp only [St.step, Function.update_apply]
      rw [if_neg (Nat.ne_of_lt ha)]
      exact h.g.zero
    · refine (h.cpu c hc).mono rfl rfl (fun x => ?_) (fun hx => hx) (fun _ hx => hx)
      simp only [St.step, Function.update_apply]
      split_ifs with hx
      · rw [hx]
        omega
      · exact le_rfl
  | kernelChanged c => exact h.kernelChange fun hx => absurd hx (by simp)
  | guardPages c pages =>
    have hi : (s.setCpu c ((s.cpu c).invlpg pages)).Ok kernelCr3 :=
      h.setCpu fun hc => (h.cpu c hc).lose fun e he => (List.mem_filter.mp he).1
    refine hi.kernelChange fun _ hc e he => ?_
    have hcpu : (s.setCpu c ((s.cpu c).invlpg pages)).cpu c = (s.cpu c).invlpg pages := by
      simp [St.setCpu]
    rw [hcpu] at he
    exact (h.cpu c hc).invlpg_kern pages e he
  | cpuInit c pge pcid v id =>
    refine ⟨⟨h.g.kgen, h.g.gen, h.g.zero, h.g.page⟩, fun d hd => ?_⟩
    show Cpu.Ok kernelCr3 _ (Function.update s.cpu c _ d)
    by_cases hdc : d = c
    · subst hdc
      rw [Function.update_self]
      exact (h.cpu d hd).tlbCpuInit h.g pge pcid v id rfl rfl rfl
    · rw [Function.update_of_ne hdc]
      refine (h.cpu d hd).mono rfl rfl (fun _ => le_rfl) (fun _ => ?_) (fun hn hx => ?_)
      · simp [St.step]
      · simp only [St.step, gPcid, if_neg hn, Option.some.injEq, Bool.and_eq_true, beq_iff_eq] at hx
        exact hx.1

/-- Every state of a run is as it should be. -/
theorem Reach.ok (h : Reach kernelCr3 s) : s.Ok kernelCr3 := by
  induction h with
  | start h0 => exact Ok.start h0
  | step a _ ha ih => exact ih.step a ha

/-- **No stale translation is used after a load.**  In every run, what the core may use after
`tlb_load` of a space is: of the entries that are not global only such as were made with the space
loaded, after its last recorded change; and no entry from before the last change of the kernel's
tables but those that the core recorded itself with `others_only`, nor, for a page of the kernel's,
from before the last recorded change of that page. -/
theorem Reach.tlbLoad_fresh (h : Reach kernelCr3 s) {c cr3 : ℕ} {tag : Option ℕ}
    (hc : c < smpMaxCpus) (ha : s.Allowed (.load c cr3 tag)) {s' : St}
    (hs' : s' = s.step kernelCr3 (.load c cr3 tag)) (e : Entry) (he : e ∈ (s'.cpu c).tlb)
    (hu : (s'.cpu c).Uses e) :
    (e.glob = false → e.id = tag.getD 0 ∧ (tag = none → e.addr = cr3) ∧
      e.made = s'.g.changes (tag.getD 0)) ∧
    (s'.cpu c).owed ≤ e.kmade ∧ (e.kern = true → s'.g.pageAt e.page ≤ e.kmade) := by
  have hcpu : s'.cpu c = ((s.cpu c).loadOn s.g kernelCr3 cr3 tag).noteLoad s.g tag := by
    rw [hs']
    simp only [St.step, St.setCpu, Function.update_self]
    rw [Cpu.tlbLoad, if_pos hc]
  have hg : s'.g = s.g := by
    rw [hs']
    rfl
  rw [hcpu] at he hu ⊢
  rw [hg]
  obtain ⟨-, hkf, hf⟩ := (h.ok.cpu c hc).loadOn h.ok.g cr3 tag ha.1 ha.2
  refine ⟨fun hgl => ?_, hkf e he⟩
  have hp : e.pcid = Cpu.pcid _ := hu.resolve_left (by rw [hgl]; simp)
  obtain ⟨h1, h2, h3⟩ := hf e ⟨he, hgl, hp⟩
  exact ⟨h1, h3, h2⟩

/-! ## A change recorded with `others_only` -/

/-- The machine before anything ran. -/
def zero : St where
  g := { kgen := 0, gen := fun _ => 0, pcid := none, changes := fun _ => 0, kchanges := 0
         pageAt := fun _ => 0 }
  cpu := fun _ =>
    { cr3 := ⟨0, 0⟩, pge := false, pcide := false, tlb := []
      k := { slot := fun _ => ⟨0, 0⟩, next := 0, kgen := 0, id := some 0, gen := 0, dirty0 := false }
      loaded := 0, seen := fun _ => none, kseen := 0, owed := 0 }

theorem zero_start : zero.Start := by
  simp [Start, zero]

/-- The boot core loads space 1 and touches its page 7, and guards the kernel's page 9. -/
def guarded : St :=
  (((zero.step 4 (.cpuInit 0 true true ⟨4, 0⟩ 0)).step 4 (.load 0 8 (some 1))).step 4
    (.touch 0 7 false)).step 4 (.guardPages 0 [9])

theorem guarded_reach : Reach 4 guarded := by
  refine .step _ (.step _ (.step _ (.step _ (.start zero_start) trivial) ?_) trivial) trivial
  refine ⟨by decide, fun id hid => ?_⟩
  obtain rfl := Option.some.inj hid
  exact ⟨by decide, fun n hn => absurd hn (by simp [step, setCpu, zero, Cpu.tlbCpuInit])⟩

theorem guarded_allowed : guarded.Allowed (.load 0 8 (some 1)) := by
  refine ⟨by decide, fun id hid => ?_⟩
  obtain rfl := Option.some.inj hid
  refine ⟨by decide, fun n hn => ?_⟩
  have h0 : (guarded.cpu 0).seen 1 = some 0 := by decide
  obtain rfl := Option.some.inj (h0.symm.trans hn)
  decide

/-- The entry of the space's page 7 is kept and used when the space is loaded again, and is older
than the change of the kernel's tables that the core recorded. -/
theorem tlbLoad_keeps_older : ∃ s : St, Reach 4 s ∧ s.Allowed (.load 0 8 (some 1)) ∧
    ∃ e ∈ ((s.step 4 (.load 0 8 (some 1))).cpu 0).tlb,
      ((s.step 4 (.load 0 8 (some 1))).cpu 0).Uses e ∧ e.glob = false ∧
      e.kmade < (s.step 4 (.load 0 8 (some 1))).g.kchanges := by
  refine ⟨guarded, guarded_reach, guarded_allowed,
    { pcid := 1, glob := false, page := 7, kern := false, id := 1, addr := 8, made := 0, kmade := 0 },
    by decide, by decide, rfl, by decide⟩

/-- That entry. -/
def pageSeven : Entry :=
  { pcid := 1, glob := false, page := 7, kern := false, id := 1, addr := 8, made := 0, kmade := 0 }

/-- It is still of the space as it is. -/
theorem tlbLoad_fresh_guarded :
    pageSeven ∈ ((guarded.step 4 (.load 0 8 (some 1))).cpu 0).tlb ∧
      pageSeven.made = (guarded.step 4 (.load 0 8 (some 1))).g.changes 1 ∧
      ((guarded.step 4 (.load 0 8 (some 1))).cpu 0).owed ≤ pageSeven.kmade :=
  have he : pageSeven ∈ ((guarded.step 4 (.load 0 8 (some 1))).cpu 0).tlb := by decide
  have h := Reach.tlbLoad_fresh guarded_reach (by decide) guarded_allowed rfl pageSeven he (by decide)
  ⟨he, (h.1 rfl).2.2, h.2.1⟩

end St

end BananaOS.Tlb
