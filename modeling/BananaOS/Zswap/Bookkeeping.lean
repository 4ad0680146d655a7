import BananaOS.Zswap.Tables

/-!
# The swap keeps its books

`Sys.Inv` holds in every state that an interleaving of the sections leads to, for any number of
threads and whatever the transfers return.  The main result, `Reach.consistent`, reads it off.
-/

namespace BananaOS.Zswap

open Lib Function

/-! ## The invariant -/

variable {T : Type*} [DecidableEq T] [Fintype T]

/-- The lists hold what they are for, the books agree with the entries, and one thread at most
is inside `zswap_writeback`. -/
structure Sys.Inv (s : Sys T) : Prop where
  tables : s.z.Tables
  nslots_le : s.z.nslots ≤ 2 ^ 23
  hint_le : s.z.swHint ≤ s.z.nslots
  books : Books s.z.core s.pc s.z.slotMap s.z.slotsUsed s.z.st s.z.nslots
  busy : ∀ t, (s.pc t).Writes → s.wbBusy = true
  writer : ∀ t t', (s.pc t).Writes → (s.pc t').Writes → t = t'

/-- The swap after a section of thread `t`, which is at `p` then. -/
structure Sys.Next (s : Sys T) (t : T) (p : Pc) (z : Zs) : Prop where
  tables : z.Tables
  nslots_eq : z.nslots = s.z.nslots
  hint_le : z.swHint ≤ s.z.nslots
  books : Books z.core (update s.pc t p) z.slotMap z.slotsUsed z.st z.nslots

namespace Sys.Inv

variable {s : Sys T} {t : T} {p : Pc} {z' : Zs} {idx : ℕ} {c : Core}

/-- A thread that was not inside `zswap_writeback` and still is not, or was and may still be. -/
theorem move (h : s.Inv) (hw : p.Writes → (s.pc t).Writes) (hn : s.Next t p z') :
    ({ s with z := z' }.goto t p).Inv := by
  have hold : ∀ t', (update s.pc t p t').Writes → (s.pc t').Writes := by
    intro t' h'
    rcases eq_or_ne t' t with rfl | hne
    · rw [update_self] at h'
      exact hw h'
    · rwa [update_of_ne hne] at h'
  exact ⟨hn.tables, hn.nslots_eq ▸ h.nslots_le, hn.nslots_eq ▸ hn.hint_le, hn.books,
    fun t' h' => h.busy t' (hold t' h'),
    fun t₁ t₂ h1 h2 => h.writer t₁ t₂ (hold t₁ h1) (hold t₂ h2)⟩

theorem stay (h : s.Inv) (hn : s.Next t (s.pc t) z') : Sys.Inv { s with z := z' } := by
  have h' := h.move id hn
  rwa [Sys.goto, update_eq_self] at h'

/-- A thread leaves `zswap_writeback`. -/
theorem leave (h : s.Inv) (hw : (s.pc t).Writes) (hp : ¬ p.Writes) (hn : s.Next t p z') :
    ({ s with z := z', wbBusy := false }.goto t p).Inv := by
  have hold : ∀ t', ¬ (update s.pc t p t').Writes := by
    intro t' h'
    rcases eq_or_ne t' t with rfl | hne
    · rw [update_self] at h'
      exact hp h'
    · rw [update_of_ne hne] at h'
      exact hne (h.writer t' t h' hw)
  exact ⟨hn.tables, hn.nslots_eq ▸ h.nslots_le, hn.nslots_eq ▸ hn.hint_le, hn.books,
    fun t' h' => absurd h' (hold t'), fun t₁ t₂ h1 _ => absurd h1 (hold t₁)⟩

theorem goOn (h : s.Inv) (hpgood : p.Good s.z.nslots) (hpsects : p.sects = (s.pc t).sects)
    (hp : p.entry = (s.pc t).entry) (hfits : p.Fits s.z.core) : s.Next t p s.z :=
  ⟨h.tables, rfl, h.hint_le, h.books.goOn hpgood hpsects hp hfits⟩

/-- An entry that no thread has in hand changes, and the sectors stay where they are. -/
theorem idleEntry (h : s.Inv) (hb : (s.z.core idx).state.busy = false)
    (hcb : c.state.busy = false) (hgood : c.Good s.z.nslots) (hpgood : p.Good s.z.nslots)
    (hsects : c.sects = (s.z.core idx).sects) (hpsects : p.sects = (s.pc t).sects)
    (hst : Recount s.z.st z'.st (s.z.core idx) c) (hp : p.entry = (s.pc t).entry)
    (hfits : p.Fits s.z.core) (hhas : s.z.Has idx) (ht : z'.Tables)
    (hcore : z'.core = update s.z.core idx c) (harea : z'.area = s.z.area) : s.Next t p z' := by
  have hns : z'.nslots = s.z.nslots := congrArg Area.nslots harea
  have hmap : z'.slotMap = s.z.slotMap := congrArg Area.slotMap harea
  have hused : z'.slotsUsed = s.z.slotsUsed := congrArg Area.slotsUsed harea
  have hhint : z'.swHint = s.z.swHint := congrArg Area.swHint harea
  refine ⟨ht, hns, hhint ▸ h.hint_le, ?_⟩
  rw [hcore, hmap, hused, hns]
  exact h.books.idleEntry (hhas.mem_table h.tables.nblk_le) hb hcb hgood hpgood hsects hpsects hst
    hp hfits

/-- An entry that has no sectors and that nobody has in hand is freed. -/
theorem freeEntry (h : s.Inv) (t : T) (hfree : (s.z.core idx).state ≠ .free)
    (hb : (s.z.core idx).state.busy = false) (hs : (s.z.core idx).sects = ∅) {st : Stats}
    (hst : Recount s.z.st st (s.z.core idx) Zs.freeCore) :
    Sys.Inv { s with z := ({ s.z with st := st } : Zs).putEntry idx } := by
  refine h.stay (t := t) (h.idleEntry hb rfl ?_ (h.books.pcGood t) ?_ rfl ?_ rfl
    (h.books.fits t) (h.tables.has_of_ne_free hfree) ?_ (Zs.core_putEntry ..) ?_)
  · exact ⟨by simp [Zs.freeCore, ZState.owns], by simp [Zs.freeCore]⟩
  · rw [hs]
    rfl
  · rwa [Zs.st_putEntry]
  · exact (h.tables.withBooks st s.z.slotMap s.z.slotsUsed).putEntry hfree
  · rw [Zs.area_putEntry]
    rfl

theorem zswapFree (h : s.Inv) (t : T) (hhas : s.z.Has idx)
    (hst : (s.z.ent idx).state = .pending ∨ (s.z.ent idx).state = .cancelled) :
    Sys.Inv { s with z := s.z.zswapFree idx } := by
  have heq : s.z.zswapFree idx = ({ s.z with st := s.z.st } : Zs).putEntry idx := by
    rcases hst with hst | hst <;> simp [Zs.zswapFree, hhas, hst]
  have hst' : (s.z.core idx).state = .pending ∨ (s.z.core idx).state = .cancelled := hst
  rw [heq]
  refine h.freeEntry t ?_ ?_ ?_ (.of_eq ?_ ?_ ?_ ?_)
  all_goals
    rcases hst' with hst | hst <;>
      simp [hst, ZState.busy, ZState.owns, ZState.inRam, ZState.onDisk, Zs.freeCore, Core.sects,
        Core.pages, Core.zeroPages, Core.bytes, Core.diskPages]

/-- Data for a pending entry. -/
theorem zswapStore (h : s.Inv) (t : T) {data : Option (List UInt8)} {len : ℕ}
    (hhas : s.z.Has idx) (hst : (s.z.ent idx).state = .pending) (hlen : len ≤ 4096) :
    Sys.Inv { s with z := s.z.zswapStore idx data len } := by
  have hc : (s.z.core idx).state = .pending := hst
  have hle : Zs.storedLen data len ≤ 4096 := by
    rw [Zs.storedLen]
    split_ifs <;> omega
  rw [Zs.zswapStore, if_neg (not_not.mpr hhas)]
  dsimp only
  generalize Zs.storedLen data len = elen at hle
  have hgood : Core.Good s.z.nslots ⟨elen, .stored, (s.z.ent idx).slot⟩ :=
    ⟨by simp [ZState.owns], fun _ => hle⟩
  have hrecount : Recount s.z.st (s.z.count elen).st (s.z.core idx)
      ⟨elen, .stored, (s.z.ent idx).slot⟩ := by
    constructor
    all_goals simp [Zs.count, Core.pages, Core.zeroPages, Core.bytes, Core.diskPages, hc,
      ZState.inRam, ZState.onDisk]
    split_ifs <;> omega
  have hpend : ∀ st, st ≠ .pending → (s.z.core idx).state ≠ st :=
    fun st hne hf => hne (hf.symm.trans hc)
  have htab := h.tables.withBooks (s.z.count elen).st s.z.slotMap s.z.slotsUsed
  refine h.stay (t := t) (h.idleEntry (by rw [hc]; rfl) rfl hgood (h.books.pcGood t) ?_ rfl ?_ rfl
    (h.books.fits t) hhas ?_ ?_ ?_)
  · simp [Core.sects, hc, ZState.owns]
  · split_ifs <;> exact hrecount
  · split_ifs with h0
    · exact htab.addLru hhas (fun e => ⟨rfl, rfl, rfl⟩) (hpend _ (by decide))
        (fun hf => hpend _ (by decide) hf.1) ⟨rfl, h0⟩
    · rw [not_not] at h0
      refine Zs.Tables.withBooks ?_ _ s.z.slotMap s.z.slotsUsed
      refine h.tables.modify hhas (fun e => ⟨rfl, rfl, rfl⟩) (hpend _ (by decide)) ?_ ?_
      · exact ZState.noConfusion
      · exact ⟨fun hf => absurd h0 hf.2, fun hf => absurd hf.1 (hpend _ (by decide))⟩
  · split_ifs
    · rw [Zs.core_lruAdd]
      exact Zs.core_modify ..
    · exact Zs.core_modify ..
  · split_ifs <;> rfl

theorem cancel (h : s.Inv) (t : T) (hhas : s.z.Has idx)
    (hst : (s.z.ent idx).state = .pending) : Sys.Inv { s with z := s.z.cancel idx } := by
  have hc : (s.z.core idx).state = .pending := hst
  refine h.stay (t := t) (h.idleEntry (by rw [hc]; rfl) ?_ ?_ (h.books.pcGood t) ?_ rfl
    (.of_eq ?_ ?_ ?_ ?_) rfl (h.books.fits t) hhas ?_ (Zs.core_modify ..) rfl)
  · rfl
  · exact ⟨by simp [Zent.core, ZState.owns], by simp [Zent.core]⟩
  · simp [Core.sects, hc, ZState.owns, Zent.core]
  · simp [Core.pages, hc, ZState.inRam, Zent.core]
  · simp [Core.zeroPages, hc, Zent.core]
  · simp [Core.bytes, hc, ZState.inRam, Zent.core]
  · simp [Core.diskPages, hc, ZState.onDisk, Zent.core]
  · refine h.tables.modify hhas (fun e => ⟨rfl, rfl, rfl⟩) (by rw [hc]; decide) ?_ ?_
    · exact ZState.noConfusion
    · simp [hc]

/-! ## Entries with sectors -/

/-- An entry with sectors is freed: its sectors go back, and the thread that had it in hand has
nothing any more. -/
theorem freeRun (h : s.Inv) (st : Stats) (howns : (s.z.core idx).state.owns = true)
    (hst : Recount s.z.st st (s.z.core idx) Zs.freeCore)
    (hothers : ∀ t', t' ≠ t → (s.pc t').entry ≠ some idx) (hpgood : p.Good s.z.nslots)
    (hpsects : p.sects = (s.pc t).sects) (hfits : p.Fits s.z.core) (hent : p.entry ≠ some idx)
    (hold : ∀ i, i ≠ idx → ((s.pc t).entry = some i ↔ p.entry = some i)) :
    s.Next t p ((({ s.z with st := st } : Zs).slotPut (s.z.core idx).slot
      (nsect (s.z.core idx).len)).putEntry idx) := by
  have hfree : (s.z.core idx).state ≠ .free := fun hf => by simp [hf, ZState.owns] at howns
  have hsects : (s.z.core idx).sects = runOf (s.z.core idx).slot (s.z.core idx).len := if_pos howns
  obtain ⟨map', heq, hmap⟩ := Zs.slotPut_run (z := { s.z with st := st })
    ((h.books.good idx).1 howns) (h.books.taken howns)
  rw [heq]
  have htab := (h.tables.withBooks st map'
    (s.z.slotsUsed - (runOf (s.z.core idx).slot (s.z.core idx).len).card)).putEntry hfree
  refine ⟨htab, congrArg Area.nslots (Zs.area_putEntry ..), ?_, ?_⟩
  · rw [show ∀ z : Zs, (z.putEntry idx).swHint = z.swHint from
      fun z => congrArg Area.swHint (Zs.area_putEntry z idx)]
    exact h.hint_le
  · have hb : Books (update s.z.core idx Zs.freeCore) (update s.pc t p) map'
        (s.z.slotsUsed - (runOf (s.z.core idx).slot (s.z.core idx).len).card) st s.z.nslots := by
      refine h.books.revoke ((h.tables.has_of_ne_free hfree).mem_table h.tables.nblk_le) ?_ hpgood
        rfl hpsects ?_ ?_ hst hothers rfl hfits hent hold
      · exact ⟨by simp [Zs.freeCore, ZState.owns], by simp [Zs.freeCore]⟩
      · rwa [hsects]
      · rw [hsects]
    rw [Zs.core_putEntry, Zs.st_putEntry]
    have harea := fun z : Zs => Zs.area_putEntry z idx
    rw [show ∀ z : Zs, (z.putEntry idx).slotMap = z.slotMap from
        fun z => congrArg Area.slotMap (harea z),
      show ∀ z : Zs, (z.putEntry idx).slotsUsed = z.slotsUsed from
        fun z => congrArg Area.slotsUsed (harea z),
      show ∀ z : Zs, (z.putEntry idx).nslots = z.nslots from
        fun z => congrArg Area.nslots (harea z)]
    exact hb

/-- The page of an entry in a thread's hands was unmapped, or touched. -/
theorem mark (h : s.Inv) (t : T) {st : Stats} {zst : ZState}
    (hb : (s.z.core idx).state = .writing ∨ (s.z.core idx).state = .reading)
    (hs : zst = .dead ∨ zst = .taken ∧ (s.z.core idx).state = .writing)
    (hst : Recount s.z.st st (s.z.core idx) ⟨(s.z.core idx).len, zst, (s.z.core idx).slot⟩) :
    Sys.Inv { s with z :=
      ({ s.z with st := st } : Zs).modify idx fun e => { e with state := zst } } := by
  have hfree : (s.z.core idx).state ≠ .free := by
    rcases hb with hb | hb <;> rw [hb] <;> decide
  have hhas := h.tables.has_of_ne_free hfree
  refine h.stay (t := t) ⟨?_, rfl, h.hint_le, ?_⟩
  · refine (h.tables.withBooks st s.z.slotMap s.z.slotsUsed).modify hhas (fun e => ⟨rfl, rfl, rfl⟩) hfree
      ?_ ?_
    · rcases hs with rfl | ⟨rfl, -⟩ <;> exact ZState.noConfusion
    · constructor
      · rintro ⟨h1, -⟩
        rcases hs with rfl | ⟨rfl, -⟩ <;> cases h1
      · rintro ⟨h1, -⟩
        rcases hb with hb | hb <;> cases hb.symm.trans h1
  · rw [Zs.core_modify]
    exact h.books.mark (hhas.mem_table h.tables.nblk_le) t hb hs hst

theorem dropStored (h : s.Inv) (t : T) (hc : (s.z.core idx).state = .stored) {st : Stats}
    (hst : Recount s.z.st st (s.z.core idx) Zs.freeCore) :
    Sys.Inv { s with z := ({ s.z with st := st } : Zs).putEntry idx } := by
  refine h.freeEntry t ?_ ?_ ?_ hst
  · rw [hc]
    decide
  · rw [hc]
    rfl
  · simp [Core.sects, hc, ZState.owns]

theorem recount_uncount {z : Zs} (hc : (z.core idx).state = .stored) {st : Stats}
    (h1 : st.pages = z.st.pages - 1)
    (h2 : st.zeroPages = if (z.ent idx).len = 0 then z.st.zeroPages - 1 else z.st.zeroPages)
    (h3 : st.bytes = z.st.bytes - (z.ent idx).len) (h4 : st.diskPages = z.st.diskPages) :
    Recount z.st st (z.core idx) Zs.freeCore := by
  have hlen : (z.core idx).len = (z.ent idx).len := rfl
  constructor
  · simp [Core.pages, hc, ZState.inRam, Zs.freeCore, h1]
  · simp only [Core.zeroPages, hc, Zs.freeCore, h2, hlen]
    split_ifs <;> simp_all
  · simp [Core.bytes, hc, ZState.inRam, Zs.freeCore, h3, hlen]
  · simp [Core.diskPages, hc, ZState.onDisk, Zs.freeCore, h4]

/-- The page of an entry is unmapped. -/
theorem zswapRelease (h : s.Inv) (t : T) : Sys.Inv { s with z := s.z.zswapRelease idx } := by
  unfold Zs.zswapRelease
  by_cases hhas : ¬ s.z.Has idx
  · rw [if_pos hhas]
    exact h
  rw [if_neg hhas]
  dsimp only
  split
  next hst =>
    have hc : (s.z.core idx).state = .writing := hst
    refine h.mark t (Or.inl hc) (Or.inl rfl) ⟨?_, ?_, ?_, ?_⟩ <;>
      simp [Core.pages, Core.zeroPages, Core.bytes, Core.diskPages, hc,
        ZState.inRam, ZState.onDisk]
    rfl
  next hst =>
    have hc : (s.z.core idx).state = .reading := hst
    refine h.mark t (Or.inr hc) (Or.inl rfl) ⟨?_, ?_, ?_, ?_⟩ <;>
      simp [Core.pages, Core.zeroPages, Core.bytes, Core.diskPages, hc,
        ZState.inRam, ZState.onDisk]
  next hst => exact h.dropStored t hst (recount_uncount hst rfl rfl rfl rfl)
  next hst =>
    have hc : (s.z.core idx).state = .disk := hst
    refine h.stay (t := t) (h.freeRun s.z.uncountDisk.st (by rw [hc]; rfl) ⟨?_, ?_, ?_, ?_⟩ ?_ (h.books.pcGood t) rfl
      (h.books.fits t) ?_ fun i _ => Iff.rfl)
    · simp [Zs.uncountDisk, Core.pages, hc, ZState.inRam, Zs.freeCore]
    · simp [Zs.uncountDisk, Core.zeroPages, hc, Zs.freeCore]
    · simp [Zs.uncountDisk, Core.bytes, hc, ZState.inRam, Zs.freeCore]
    · simp [Zs.uncountDisk, Core.diskPages, hc, ZState.onDisk, Zs.freeCore]
    · exact fun t' _ => h.books.entry_ne (by rw [hc]; rfl) t'
    · exact h.books.entry_ne (by rw [hc]; rfl) t
  next => exact h

/-- The page of an entry is touched. -/
theorem zswapTake (h : s.Inv) (t : T) (page : List UInt8) :
    Sys.Inv { s with z := (s.z.zswapTake idx page).2 } := by
  unfold Zs.zswapTake
  by_cases hhas : ¬ s.z.Has idx
  · rw [if_pos hhas]
    exact h
  rw [if_neg hhas]
  dsimp only
  split
  next hst => exact h.dropStored t hst (recount_uncount hst rfl rfl rfl rfl)
  next hst =>
    have hc : (s.z.core idx).state = .writing := hst
    refine h.mark t (Or.inl hc) (Or.inr ⟨rfl, hc⟩) ⟨?_, ?_, ?_, ?_⟩ <;>
      simp [Core.pages, Core.zeroPages, Core.bytes, Core.diskPages, hc,
        ZState.inRam, ZState.onDisk]
    rfl
  next => exact h
  next => exact h
  next => exact h

/-! ## `zswap_writeback` and `zswap_disk_in` -/

/-- A thread takes the oldest entry in hand, with a slot for it. -/
theorem writebackTake (h : s.Inv) (hsects : (s.pc t).sects = ∅) (hentry : (s.pc t).entry = none) :
    s.z.writebackTake = (none, s.z) ∨ ∃ idx slot len buf z',
      s.z.writebackTake = (some (idx, slot, len, buf), z') ∧
        ∀ done max, s.Next t (.wbIo done max idx slot len buf) z' := by
  rcases h.tables.writebackTake h.nslots_le h.hint_le with
    heq | ⟨idx, start, hc, hlen, hle, hclear, buf, z', heq, ht, hcore, hst, harea⟩
  · exact Or.inl heq
  have hhas : s.z.Has idx := h.tables.has_of_ne_free (by rw [hc]; decide)
  have hns : z'.nslots = s.z.nslots := congrArg Area.nslots harea
  have hmap := congrArg Area.slotMap harea
  have hused : z'.slotsUsed = _ := congrArg Area.slotsUsed harea
  have hhint : z'.swHint = _ := congrArg Area.swHint harea
  refine Or.inr ⟨idx, _, _, buf, z', heq, fun done max => ⟨ht, hns, hhint.trans_le hle, ?_⟩⟩
  rw [hcore, hst, hused, hns]
  refine h.books.grant (hhas.mem_table h.tables.nblk_le) (by rw [hc]; rfl) ?_ hsects hentry
    ⟨hlen, (h.books.good idx).2 hc, by omega, by simpa using hle⟩ ?_ ?_ (.of_eq ?_ ?_ ?_ ?_)
  · simp [Core.sects, hc, ZState.owns]
  · intro a ha
    obtain ⟨h1, h2⟩ := Finset.mem_Ico.mp ha
    exact hclear a (by simpa using h1) (by simpa using h2)
  · intro a
    rw [show z'.slotMap = _ from hmap, Bool.or_eq_true, decide_eq_true_eq, runOf, Finset.mem_Ico]
    simp
  · simp [Core.pages, hc, ZState.inRam]
  · simp [Core.zeroPages, hc, hlen]
  · simp [Core.bytes, hc, ZState.inRam]
  · simp [Core.diskPages, hc, ZState.onDisk]

/-- The entry in a thread's hands is in the swap area now (or again): the thread lets it go. -/
theorem settle (h : s.Inv) (he : (s.pc t).entry = some idx)
    (hb : (s.z.core idx).state = .writing ∨ (s.z.core idx).state = .reading)
    (hps : (s.pc t).sects = ∅) (hp : p.entry = none) (hps' : p.sects = ∅)
    (hpg : p.Good s.z.nslots) (st : Stats) {f : Zent → Zent}
    (hf : ∀ e, (f e).prev = e.prev ∧ (f e).next = e.next ∧ (f e).inLru = e.inLru)
    (hcore : ∀ e, (f e).core = ⟨e.len, .disk, e.slot⟩)
    (hst : Recount s.z.st st (s.z.core idx) ⟨(s.z.core idx).len, .disk, (s.z.core idx).slot⟩) :
    s.Next t p (({ s.z with st := st } : Zs).modify idx f) := by
  have hfree : (s.z.core idx).state ≠ .free := by
    rcases hb with hb | hb <;> rw [hb] <;> decide
  have howns : (s.z.core idx).state.owns = true := by
    rcases hb with hb | hb <;> rw [hb] <;> rfl
  have hhas := h.tables.has_of_ne_free hfree
  have hstate : (f (s.z.ent idx)).state = .disk := congrArg Core.state (hcore (s.z.ent idx))
  refine ⟨?_, rfl, h.hint_le, ?_⟩
  · refine (h.tables.withBooks st s.z.slotMap s.z.slotsUsed).modify hhas hf hfree ?_ ?_
    · rw [hstate]
      decide
    · rw [hstate]
      constructor
      · rintro ⟨h1, -⟩
        cases h1
      · rintro ⟨h1, -⟩
        rcases hb with hb | hb <;> cases hb.symm.trans h1
  · rw [Zs.core_modify, hcore]
    refine h.books.same (hhas.mem_table h.tables.nblk_le)
      ⟨fun _ => (h.books.good idx).1 howns, fun h => ZState.noConfusion h⟩ hpg ?_
      (hps'.trans hps.symm) hst ?_ ?_ ?_ ?_ ?_
    · rw [Core.sects, Core.sects, if_pos howns]
      rfl
    · exact Pc.fits_of_none hp
    · exact fun t' hne he' => absurd he' (h.books.others_ne he t' hne)
    · intro i hi
      rw [hp] at hi
      cases hi
    · intro i hi he'
      rw [he, Option.some.injEq] at he'
      subst he'
      rw [update_self] at hi
      exact Bool.noConfusion hi
    · exact fun hbusy => Bool.noConfusion hbusy

/-- The entry in a thread's hands is in memory again: its sectors go back, and it goes to the end
of the list of what can go to the disk. -/
theorem storeBack (h : s.Inv) (he : (s.pc t).entry = some idx)
    (hb : (s.z.core idx).state = .writing ∨ (s.z.core idx).state = .reading)
    (hps : (s.pc t).sects = ∅) (hp : p.entry = none) (hps' : p.sects = ∅)
    (hpg : p.Good s.z.nslots) (st : Stats) {f : Zent → Zent}
    (hf : ∀ e, (f e).prev = e.prev ∧ (f e).next = e.next ∧ (f e).inLru = e.inLru)
    (hcore : ∀ e, (f e).core = ⟨e.len, .stored, 0⟩)
    (hst : Recount s.z.st st (s.z.core idx) ⟨(s.z.core idx).len, .stored, 0⟩)
    {map' : ℕ → Bool} (hmap : ∀ a, map' a = true ↔ s.z.slotMap a = true ∧
      a ∉ runOf (s.z.core idx).slot (s.z.core idx).len) :
    s.Next t p ((({ s.z with st := st, slotMap := map', slotsUsed := s.z.slotsUsed -
      (runOf (s.z.core idx).slot (s.z.core idx).len).card } : Zs).modify idx f).lruAdd idx) := by
  have hfree : (s.z.core idx).state ≠ .free := by
    rcases hb with hb | hb <;> rw [hb] <;> decide
  have hstored : (s.z.core idx).state ≠ .stored := by
    rcases hb with hb | hb <;> rw [hb] <;> decide
  have howns : (s.z.core idx).state.owns = true := by
    rcases hb with hb | hb <;> rw [hb] <;> rfl
  have hhas := h.tables.has_of_ne_free hfree
  obtain ⟨hlen, hle, -⟩ := (h.books.good idx).1 howns
  have hsects : (s.z.core idx).sects = runOf (s.z.core idx).slot (s.z.core idx).len := if_pos howns
  refine ⟨?_, rfl, h.hint_le, ?_⟩
  · refine (h.tables.withBooks st map' _).addLru hhas hf hfree (fun hs => hstored hs.1) ⟨?_, ?_⟩
    · exact congrArg Core.state (hcore (s.z.ent idx))
    · exact (congrArg Core.len (hcore (s.z.ent idx))).trans_ne hlen
  · rw [Zs.core_lruAdd, Zs.core_modify, hcore]
    refine h.books.revoke (hhas.mem_table h.tables.nblk_le)
      ⟨fun ho => Bool.noConfusion ho, fun _ => hle⟩ hpg rfl (hps'.trans hps.symm) ?_ ?_ hst
      (h.books.others_ne he) rfl ?_ ?_ ?_
    · rwa [hsects]
    · rw [hsects]
      rfl
    · exact Pc.fits_of_none hp
    · simp [hp]
    · intro i hi
      simp [he, hp, hi.symm]

omit [DecidableEq T] in
/-- `slot_put` of the sectors of an entry that has some. -/
theorem slotPut_entry (h : s.Inv) (st : Stats)
    (howns : (s.z.core idx).state.owns = true) :
    ∃ map', Zs.slotPut { s.z with st := st } (s.z.core idx).slot (nsect (s.z.core idx).len) =
        { s.z with st := st, slotMap := map', slotsUsed := s.z.slotsUsed -
          (runOf (s.z.core idx).slot (s.z.core idx).len).card } ∧
      ∀ a, map' a = true ↔ s.z.slotMap a = true ∧
        a ∉ runOf (s.z.core idx).slot (s.z.core idx).len :=
  Zs.slotPut_run (z := { s.z with st := st }) ((h.books.good idx).1 howns) (h.books.taken howns)

/-- The second section of `zswap_writeback`: the thread lets its entry go. -/
theorem writebackDone (h : s.Inv) {done max slot len : ℕ} {ok : Bool}
    (hpc : s.pc t = .wbEnd done max idx slot len ok) (hp : p.entry = none) (hps : p.sects = ∅)
    (hpg : p.Good s.z.nslots) : s.Next t p (s.z.writebackDone idx slot len ok).2 := by
  have hfits := h.books.fits t
  rw [hpc] at hfits
  obtain ⟨rfl, rfl, hstate⟩ := hfits
  have he : (s.pc t).entry = some idx := by rw [hpc]; rfl
  have hs : (s.pc t).sects = ∅ := by rw [hpc]; rfl
  have hent : ∀ i, i ≠ idx → ((s.pc t).entry = some i ↔ p.entry = some i) := by
    intro i hi
    simp [he, hp, hi.symm]
  unfold Zs.writebackDone
  rw [show (s.z.ent idx).state = (s.z.core idx).state from rfl]
  split_ifs with h1 h2
  · refine h.settle (f := fun e => { e with data := none, state := .disk }) he (Or.inl h1.1) hs hp
      hps hpg (s.z.countOut (s.z.core idx).len).st (fun e => ⟨rfl, rfl, rfl⟩) (fun e => rfl) ?_
    constructor <;> simp [Core.pages, Core.zeroPages, Core.bytes, Core.diskPages, h1.1,
      ZState.inRam, ZState.onDisk, Zs.countOut]
  · obtain ⟨map', heq, hmap⟩ := h.slotPut_entry s.z.st (show (s.z.core idx).state.owns = true by rw [h2]; rfl)
    rw [heq]
    have hlen := ((h.books.good idx).1 (by rw [h2]; rfl)).1
    refine h.storeBack (f := fun e => { e with slot := 0, state := .stored }) he (Or.inl h2) hs hp
      hps hpg s.z.st (fun e => ⟨rfl, rfl, rfl⟩) (fun e => rfl) (.of_eq ?_ ?_ ?_ ?_) hmap <;>
      simp [Core.pages, Core.zeroPages, Core.bytes, Core.diskPages, h2, ZState.inRam,
        ZState.onDisk, hlen]
  · have hdone : (s.z.core idx).state = .taken ∨ (s.z.core idx).state = .dead := by
      rcases hstate with h3 | h3
      · exact absurd h3 h2
      · exact h3
    have howns : (s.z.core idx).state.owns = true := by
      rcases hdone with h3 | h3 <;> rw [h3] <;> rfl
    refine h.freeRun s.z.st howns (.of_eq ?_ ?_ ?_ ?_) (h.books.others_ne he) hpg
      (hps.trans hs.symm) (Pc.fits_of_none hp) (by simp [hp]) hent <;>
      rcases hdone with h3 | h3 <;>
      simp [Core.pages, Core.zeroPages, Core.bytes, Core.diskPages, h3, ZState.inRam,
        ZState.onDisk, Zs.freeCore]

/-- The first section of `zswap_disk_in`: the thread takes an entry in the swap area in hand. -/
theorem diskInTake (h : s.Inv) (hps : (s.pc t).sects = ∅) (hpe : (s.pc t).entry = none)
    (hst : (s.z.ent idx).state = .disk) :
    s.Next t (.diAlloc idx (s.z.ent idx).slot (s.z.ent idx).len) (s.z.diskInTake idx) := by
  have hc : (s.z.core idx).state = .disk := hst
  have howns : (s.z.core idx).state.owns = true := by rw [hc]; rfl
  have hb : (s.z.core idx).state.busy = false := by rw [hc]; rfl
  have hfree : (s.z.core idx).state ≠ .free := by rw [hc]; decide
  have hhas := h.tables.has_of_ne_free hfree
  refine ⟨?_, rfl, h.hint_le, ?_⟩
  · refine h.tables.modify hhas (fun e => ⟨rfl, rfl, rfl⟩) hfree ?_ ?_
    · exact ZState.noConfusion
    · simp [hc]
  · rw [Zs.diskInTake, Zs.core_modify]
    refine h.books.same (hhas.mem_table h.tables.nblk_le)
      ⟨fun _ => (h.books.good idx).1 howns, fun h => ZState.noConfusion h⟩ trivial ?_ hps.symm
      (.of_eq ?_ ?_ ?_ ?_) ⟨?_, ?_, ?_⟩ ?_ ?_ ?_ ?_
    · rw [Core.sects, Core.sects, if_pos howns]
      rfl
    · simp [Core.pages, hc, ZState.inRam, Zent.core]
    · simp [Core.zeroPages, hc, Zent.core]
    · simp [Core.bytes, hc, ZState.inRam, Zent.core]
    · simp [Core.diskPages, hc, ZState.onDisk, Zent.core]
    · simp [Zent.core]
    · simp [Zent.core]
    · simp [Zent.core]
    · exact fun t' _ he => absurd he (h.books.entry_ne hb t')
    · intro i hi
      rw [Pc.entry, Option.some.injEq] at hi
      exact Or.inr ⟨hi.symm, by rw [hb]; exact Bool.false_ne_true⟩
    · intro i _ hi
      rw [hpe] at hi
      cases hi
    · exact fun _ => Or.inr rfl

/-- A reader finds its entry unmapped: the entry goes, and its sectors. -/
theorem readerFrees (h : s.Inv) (he : (s.pc t).entry = some idx) (hs : (s.pc t).sects = ∅)
    (hc : (s.z.core idx).state = .dead) :
    s.Next t .idle ((s.z.slotPut (s.z.core idx).slot (nsect (s.z.core idx).len)).putEntry idx) := by
  refine h.freeRun s.z.st (by rw [hc]; rfl) (.of_eq ?_ ?_ ?_ ?_) (h.books.others_ne he) trivial
    hs.symm trivial (by simp) fun i hi => by simp [he, hi.symm]
  all_goals simp [Core.pages, Core.zeroPages, Core.bytes, Core.diskPages, hc, ZState.inRam,
    ZState.onDisk, Zs.freeCore]

/-- `zswap_disk_in` without memory: the thread lets its entry go. -/
theorem diskInNoMem (h : s.Inv) {slot len : ℕ} (hpc : s.pc t = .diAlloc idx slot len) :
    s.Next t .idle (s.z.diskInNoMem idx slot len) := by
  have hfits := h.books.fits t
  rw [hpc] at hfits
  obtain ⟨rfl, rfl, hstate⟩ := hfits
  have he : (s.pc t).entry = some idx := by rw [hpc]; rfl
  have hs : (s.pc t).sects = ∅ := by rw [hpc]; rfl
  unfold Zs.diskInNoMem
  rw [show (s.z.ent idx).state = (s.z.core idx).state from rfl]
  split_ifs with h1
  · refine h.settle (f := fun e => { e with state := .disk }) (p := .idle) he (Or.inr h1) hs rfl
      rfl trivial s.z.st (fun e => ⟨rfl, rfl, rfl⟩) (fun e => rfl) (.of_eq ?_ ?_ ?_ ?_) <;>
      simp [Core.pages, Core.zeroPages, Core.bytes, Core.diskPages, h1, ZState.inRam,
        ZState.onDisk]
  · exact h.readerFrees he hs (hstate.resolve_left h1)

/-- The last section of `zswap_disk_in`: the thread lets its entry go. -/
theorem diskInDone (h : s.Inv) {slot len : ℕ} {data : Option (List UInt8)}
    (hpc : s.pc t = .diEnd idx slot len data) :
    s.Next t .idle (s.z.diskInDone idx slot len data) := by
  have hfits := h.books.fits t
  rw [hpc] at hfits
  obtain ⟨rfl, rfl, hstate⟩ := hfits
  have he : (s.pc t).entry = some idx := by rw [hpc]; rfl
  have hs : (s.pc t).sects = ∅ := by rw [hpc]; rfl
  unfold Zs.diskInDone
  rw [show (s.z.ent idx).state = (s.z.core idx).state from rfl]
  split_ifs with h1 h2
  · have hlen := ((h.books.good idx).1 (by rw [h1]; rfl)).1
    have howns : (s.z.core idx).state.owns = true := by rw [h1]; rfl
    obtain ⟨map', heq, hmap⟩ := Zs.slotPut_run
      (z := s.z.modify idx fun e => { e with data := data, state := .stored })
      ((h.books.good idx).1 howns) (h.books.taken howns)
    dsimp only
    rw [heq]
    have key := h.storeBack (f := fun e => { e with data := data, slot := 0, state := .stored }) he
      (Or.inr h1) hs (p := .idle) rfl rfl trivial (s.z.countIn (s.z.core idx).len).st
      (fun e => ⟨rfl, rfl, rfl⟩) (fun e => rfl) ?_ hmap
    · have hset : setAt (setAt s.z.ent idx fun e => { e with data := data, state := .stored }) idx
          (fun e => { e with slot := 0 }) =
          setAt s.z.ent idx fun e => { e with data := data, slot := 0, state := .stored } := by
        ext1 i
        rcases eq_or_ne i idx with rfl | hi
        · simp
        · simp [hi]
      simp only [Zs.modify, hset] at key ⊢
      exact key
    · constructor <;> simp [Core.pages, Core.zeroPages, Core.bytes, Core.diskPages, h1,
        ZState.inRam, ZState.onDisk, Zs.countIn, hlen]
  · refine h.settle (f := fun e => { e with state := .disk }) (p := .idle) he (Or.inr h1) hs rfl
      rfl trivial s.z.st (fun e => ⟨rfl, rfl, rfl⟩) (fun e => rfl) (.of_eq ?_ ?_ ?_ ?_) <;>
      simp [Core.pages, Core.zeroPages, Core.bytes, Core.diskPages, h1, ZState.inRam,
        ZState.onDisk]
  · exact h.readerFrees he hs (hstate.resolve_left h1)

/-! ## `zswap_disk_put`, `zswap_store_disk` and the others -/

/-- `zswap_disk_put` with a slot for the page. -/
theorem diskPut (h : s.Inv) (hpc : s.pc t = .idle) {len : ℕ} (hlen : len ≠ 0) (hle : len ≤ 4096)
    (buf : List UInt8) :
    s.z.slotGet (nsect len) = (0, s.z) ∨ (s.z.slotGet (nsect len)).1 ≠ 0 ∧
      s.Next t (.putIo (s.z.slotGet (nsect len)).1 len buf) (s.z.slotGet (nsect len)).2 := by
  rcases Zs.slotGet_spec h.nslots_le h.hint_le (Zs.nsect_pos len) with heq | ⟨start, hlast, hcl, heq⟩
  · exact Or.inl heq
  rw [heq]
  refine Or.inr ⟨by simp, ⟨h.tables.blank, h.tables.nblk_le, h.tables.free, h.tables.lru⟩, rfl, hlast,
    h.books.grantThread (by rw [hpc]; rfl) (by rw [hpc]; rfl)
      ⟨hlen, hle, by omega, by simpa using hlast⟩ ?_ ?_⟩
  · intro a ha
    obtain ⟨h1, h2⟩ := Finset.mem_Ico.mp ha
    exact hcl a (by simpa using h1) (by simpa using h2)
  · intro a
    rw [Bool.or_eq_true, decide_eq_true_eq, runOf, Finset.mem_Ico]
    simp

theorem slotBack (h : s.Inv) {slot len : ℕ} (hs : (s.pc t).sects = runOf slot len)
    (hg : Core.GoodRun s.z.nslots slot len) (he : (s.pc t).entry = none) :
    s.Next t .idle (s.z.slotPut slot (nsect len)) := by
  obtain ⟨map', heq, hmap⟩ := Zs.slotPut_run hg fun a ha =>
    (h.books.shares.mem a).mpr ⟨Sum.inr t, show a ∈ (s.pc t).sects by rwa [hs]⟩
  rw [heq]
  have hb := h.books.revokeThread (t := t) (by rwa [hs]) he
  rw [hs] at hb
  exact ⟨h.tables.withBooks _ _ _, rfl, h.hint_le, hb⟩

/-- A thread's slot goes to a pending entry. -/
theorem zswapStoreDisk (h : s.Inv) {slot len : ℕ} (hpc : s.pc t = .putDone slot len)
    (hhas : s.z.Has idx) (hst : (s.z.ent idx).state = .pending) :
    s.Next t .idle (s.z.zswapStoreDisk idx slot len) := by
  have hc : (s.z.core idx).state = .pending := hst
  have hg : Core.GoodRun s.z.nslots slot len := by
    have := h.books.pcGood t
    rwa [hpc] at this
  have hlen : len % 2 ^ 16 = len := Nat.mod_eq_of_lt (by have := hg.2.1; omega)
  rw [Zs.zswapStoreDisk, if_neg (not_not.mpr hhas), hlen]
  refine ⟨Zs.Tables.withBooks ?_ _ s.z.slotMap s.z.slotsUsed, rfl, h.hint_le, ?_⟩
  · refine h.tables.modify hhas (fun e => ⟨rfl, rfl, rfl⟩) (by rw [hc]; decide) ?_ ?_
    · exact ZState.noConfusion
    · simp [hc]
  · change Books (Zs.core (s.z.modify idx _)) _ _ _ _ _
    rw [Zs.core_modify]
    refine h.books.handOver (hhas.mem_table h.tables.nblk_le) (by rw [hc]; rfl) ?_ hpc ?_
    · simp [Core.sects, hc, ZState.owns]
    · constructor <;> simp [Core.pages, Core.zeroPages, Core.bytes, Core.diskPages, hc,
        ZState.inRam, ZState.onDisk, Zs.modify]

/-- `zswap_new` with a free entry. -/
theorem zswapNew (h : s.Inv) {frame : ℕ} (hpc : s.pc t = .newTop frame) (hne : s.z.freeHead ≠ 0) :
    s.Next t .idle (s.z.zswapNew frame).2 := by
  obtain ⟨hhas, hc, hcore, ht⟩ := h.tables.zswapNew hne frame
  refine h.idleEntry (by rw [hc]; rfl) rfl ?_ trivial ?_ (by rw [hpc]; rfl) (.of_eq ?_ ?_ ?_ ?_)
    (by rw [hpc]; rfl) trivial hhas ht hcore rfl
  · exact ⟨by simp [ZState.owns], by simp⟩
  · simp [Core.sects, hc, ZState.owns]
  · simp [Core.pages, hc, ZState.inRam]
  · simp [Core.zeroPages, hc]
  · simp [Core.bytes, hc, ZState.inRam]
  · simp [Core.diskPages, hc, ZState.onDisk]

/-- `add_block`, by a thread that goes to `p` and has nothing in hand. -/
theorem addBlock (h : s.Inv) (hps : p.sects = (s.pc t).sects) (hp : p.entry = (s.pc t).entry)
    (hpg : p.Good s.z.nslots) (hfits : p.Fits s.z.core) : s.Next t p s.z.addBlock.2 := by
  obtain ⟨⟨ent, n, hd, heq⟩, hcore, ht⟩ := h.tables.addBlock
  have hb := h.books.goOn hpg hps hp hfits
  rw [← hcore] at hb
  refine ⟨ht, by rw [heq], by rw [heq]; exact h.hint_le, ?_⟩
  rw [heq] at hb ⊢
  exact hb

omit [DecidableEq T] in
theorem zswapDiskInit (h : s.Inv) {n : ℕ} (hn : n ≤ 2 ^ 23) :
    Sys.Inv { s with z := s.z.zswapDiskInit n } := by
  unfold Zs.zswapDiskInit
  split_ifs with h0
  · exact h
  · rw [not_not] at h0
    have hb := h.books
    rw [h0] at hb
    have hh := h.hint_le
    rw [h0, Nat.le_zero] at hh
    exact ⟨⟨h.tables.blank, h.tables.nblk_le, h.tables.free, h.tables.lru⟩, hn,
      (Nat.le_of_eq hh).trans (Nat.zero_le n), hb.newArea n, h.busy, h.writer⟩

/-! ## Steps -/

theorem start (h : s.Inv) (hpc : s.pc t = .idle) {call : Call} (hc : s.Allowed call) :
    (s.start t call).Inv := by
  have quiet : ∀ p : Pc, ¬ p.Writes → p.Good s.z.nslots → p.sects = ∅ → p.entry = none →
      (s.goto t p).Inv := fun p hw hg hs he =>
    h.move (fun hw' => absurd hw' hw) (h.goOn hg (by rw [hs, hpc]; rfl) (by rw [he, hpc]; rfl)
      (Pc.fits_of_none he))
  cases call with
  | zswapNew frame => exact quiet _ id trivial rfl rfl
  | zswapFree idx => exact h.zswapFree t hc.1 hc.2
  | zswapRelease idx => exact h.zswapRelease t
  | zswapStore idx data len => exact h.zswapStore t hc.1 hc.2.1 hc.2.2.1
  | zswapTake idx page => exact h.zswapTake t page
  | zswapWriteback max =>
    rw [Sys.start]
    split_ifs with hb
    · exact h
    · push Not at hb
      have hno : ∀ t', ¬ (s.pc t').Writes := fun t' hw => hb.2 (h.busy t' hw)
      have hn := h.goOn (t := t) (p := .wbTop 0 max) trivial (by rw [hpc]; rfl) (by rw [hpc]; rfl)
        trivial
      have hold : ∀ t', (update s.pc t (.wbTop 0 max) t').Writes → t' = t := by
        intro t' hw
        by_contra hne
        rw [update_of_ne hne] at hw
        exact hno t' hw
      exact ⟨hn.tables, h.nslots_le, hn.hint_le, hn.books, fun _ _ => rfl,
        fun t₁ t₂ h1 h2 => (hold t₁ h1).trans (hold t₂ h2).symm⟩
  | zswapDiskIn idx =>
    rw [Sys.start]
    split_ifs
    · exact quiet _ id trivial rfl rfl
    · exact h
  | zswapDiskPut src len =>
    rw [Sys.start]
    split_ifs with h1
    · exact h
    · push Not at h1
      dsimp only
      rcases h.diskPut hpc h1.2.1 h1.2.2 (Zs.padded src len) with heq | ⟨hne, hn⟩
      · rw [heq, if_pos rfl]
        exact h
      · rw [if_neg hne]
        exact h.move False.elim hn
  | zswapStoreDisk idx => exact h
  | zswapSlotFree => exact h
  | addBlock => exact h.stay (t := t) (h.addBlock rfl rfl (h.books.pcGood t) (h.books.fits t))
  | cancel idx => exact h.cancel t hc.1 hc.2
  | zswapDiskInit n => exact h.zswapDiskInit hc

theorem holding (h : s.Inv) {slot len : ℕ} (hpc : s.pc t = .putDone slot len) {call : Call}
    (hc : s.Allowed call) : (s.holding t slot len call).Inv := by
  cases call with
  | zswapStoreDisk idx => exact h.move False.elim (h.zswapStoreDisk hpc hc.1 hc.2)
  | zswapSlotFree =>
    have hg := h.books.pcGood t
    rw [hpc] at hg
    exact h.move False.elim (h.slotBack (by rw [hpc]; rfl) hg (by rw [hpc]; rfl))
  | zswapFree idx => exact h.zswapFree t hc.1 hc.2
  | _ => exact h

theorem transfer (h : s.Inv) (hpgood : p.Good s.z.nslots) (hpsects : p.sects = (s.pc t).sects)
    (hp : p.entry = (s.pc t).entry) (hfits : p.Fits s.z.core) (slot ns : ℕ) (buf : List UInt8) :
    s.Next t p (s.z.diskWrite slot ns buf) :=
  ⟨⟨h.tables.blank, h.tables.nblk_le, h.tables.free, h.tables.lru⟩, rfl, h.hint_le,
    h.books.goOn hpgood hpsects hp hfits⟩

theorem resume (h : s.Inv) (ok : Bool) (junk : List UInt8) : (s.resume t ok junk (s.pc t)).Inv := by
  have hfits := h.books.fits t
  have hgood := h.books.pcGood t
  cases hpc : s.pc t with
  | newTop frame =>
    rw [Sys.resume]
    split_ifs with h0
    · exact h.move False.elim (h.goOn trivial (by rw [hpc]; rfl) (by rw [hpc]; rfl) trivial)
    · exact h.move False.elim (h.zswapNew hpc h0)
  | newGrow frame =>
    rw [Sys.resume]
    split_ifs
    · exact h.move False.elim (h.addBlock (by rw [hpc]; rfl) (by rw [hpc]; rfl) trivial trivial)
    · exact h.move False.elim (h.goOn trivial (by rw [hpc]; rfl) (by rw [hpc]; rfl) trivial)
  | wbTop done max =>
    have hw : (s.pc t).Writes := by rw [hpc]; trivial
    have hidle := h.goOn (t := t) (p := .idle) trivial (by rw [hpc]; rfl) (by rw [hpc]; rfl) trivial
    rw [Sys.resume]
    split_ifs
    · rcases h.writebackTake (t := t) (by rw [hpc]; rfl) (by rw [hpc]; rfl) with
        heq | ⟨idx, slot, len, buf, z', heq, hn⟩
      · rw [heq]
        exact h.leave hw id hidle
      · rw [heq]
        exact h.move (fun _ => hw) (hn done max)
    · exact h.leave hw id hidle
  | wbIo done max idx slot len buf =>
    rw [hpc] at hfits
    exact h.move (fun _ => by rw [hpc]; trivial)
      (h.transfer (p := .wbEnd done max idx slot len ok) trivial (by rw [hpc]; rfl)
        (by rw [hpc]; rfl) hfits _ _ _)
  | wbEnd done max idx slot len ok' =>
    have hw : (s.pc t).Writes := by rw [hpc]; trivial
    rw [Sys.resume]
    split_ifs
    · exact h.leave hw id (h.writebackDone hpc rfl rfl trivial)
    · exact h.move (fun _ => hw) (h.writebackDone hpc rfl rfl trivial)
    · exact h.move (fun _ => hw) (h.writebackDone hpc rfl rfl trivial)
  | diTop idx =>
    rw [Sys.resume]
    split_ifs with h1 h2
    · exact h
    · exact h.move False.elim (h.diskInTake (by rw [hpc]; rfl) (by rw [hpc]; rfl) h2)
    · exact h.move False.elim (h.goOn trivial (by rw [hpc]; rfl) (by rw [hpc]; rfl) trivial)
  | diAlloc idx slot len =>
    rw [hpc] at hfits
    rw [Sys.resume]
    split_ifs
    · exact h.move False.elim (h.goOn trivial (by rw [hpc]; rfl) (by rw [hpc]; rfl) hfits)
    · exact h.move False.elim (h.diskInNoMem hpc)
  | diIo idx slot len =>
    rw [hpc] at hfits
    exact h.move False.elim (h.goOn trivial (by rw [hpc]; rfl) (by rw [hpc]; rfl) hfits)
  | diEnd idx slot len data => exact h.move False.elim (h.diskInDone hpc)
  | putIo slot len buf =>
    rw [hpc] at hgood
    exact h.move False.elim (h.transfer (p := .putEnd slot len ok) hgood (by rw [hpc]; rfl)
      (by rw [hpc]; rfl) trivial _ _ _)
  | putEnd slot len ok' =>
    rw [hpc] at hgood
    rw [Sys.resume]
    split_ifs
    · exact h.move False.elim (h.goOn hgood (by rw [hpc]; rfl) (by rw [hpc]; rfl) trivial)
    · exact h.move False.elim (h.slotBack (by rw [hpc]; rfl) hgood (by rw [hpc]; rfl))
  | idle => exact h
  | putDone slot len => exact h

theorem step (h : s.Inv) (t : T) (call : Call) (ok : Bool) (junk : List UInt8)
    (hc : s.Allowed call) : (s.step t call ok junk).Inv := by
  unfold Sys.step
  split
  next hpc => exact h.start hpc hc
  next hpc => exact h.holding hpc hc
  next => exact h.resume ok junk

omit [DecidableEq T] in
theorem boot (disk : ℕ → UInt8) : (Sys.boot disk : Sys T).Inv := by
  have hzero : ∀ w : Core → ℤ, w Zs.freeCore = 0 →
      (0 : ℤ) = ∑ i ∈ table, w ((Sys.boot disk : Sys T).z.core i) :=
    fun w hw => (Finset.sum_eq_zero fun _ _ => hw).symm
  refine ⟨⟨fun _ _ => rfl, Nat.zero_le _, ⟨[], rfl, List.nodup_nil, fun i => ?_⟩,
    ⟨⟨[], ⟨rfl, rfl⟩, List.nodup_nil, fun i => ?_⟩, fun i => ?_⟩⟩, Nat.zero_le _, le_rfl,
    ⟨fun i => ?_, fun t => trivial, ⟨fun a => ?_, fun o o' _ => ?_⟩, ?_, hzero _ rfl, hzero _ rfl,
      hzero _ rfl, hzero _ rfl, fun t => trivial, fun t t' i h => ?_, fun i h => ?_⟩,
    fun t h => h.elim, fun t t' h => h.elim⟩
  · -- no entry exists
    simp only [List.not_mem_nil, false_iff]
    rintro ⟨⟨-, h⟩, -⟩
    exact absurd h (Nat.not_lt_zero _)
  · simp [Sys.boot, Zs.core, Zent.core, Zent.zeroed]
  · simp [Sys.boot, Zs.core, Zent.core, Zent.zeroed]
  · exact ⟨fun h => Bool.noConfusion h, fun h => ZState.noConfusion h⟩
  · constructor
    · exact fun h => Bool.noConfusion h
    · rintro ⟨i | t, ha⟩ <;> exact absurd ha (Finset.notMem_empty a)
  · rcases o with i | t <;> exact Finset.disjoint_empty_left _
  · have h2 : ∑ t : T, (((Sys.boot disk : Sys T).pc t).sects.card : ℤ) = 0 :=
      Finset.sum_eq_zero fun _ _ => rfl
    rw [h2, ← hzero (fun c => (c.sects.card : ℤ)) rfl]
    rfl
  · cases h
  · exact Bool.noConfusion h

/-- **The books hold in every interleaving.** -/
theorem of_reach {s : Sys T} (h : s.Reach) : s.Inv := by
  induction h with
  | boot disk => exact boot disk
  | step _ t call ok junk hc ih => exact ih.step t call ok junk hc

end Sys.Inv

/-! ## The result -/

/-- The entries there are. -/
def Zs.entries (z : Zs) : Finset ℕ := table.filter z.Has

theorem Zs.Tables.sum_table {z : Zs} (h : z.Tables) (p : ZState → ℕ → Prop)
    [∀ st len, Decidable (p st len)] (hp : ¬ p .free 0) (w : ℕ → ℤ) :
    ∑ i ∈ table, (if p (z.core i).state (z.core i).len then w i else 0) =
      ∑ i ∈ z.entries.filter (fun i => p (z.ent i).state (z.ent i).len), w i := by
  rw [← Finset.sum_filter]
  refine Finset.sum_congr ?_ fun _ _ => rfl
  ext i
  simp only [Zs.entries, Finset.mem_filter, and_assoc]
  refine and_congr_right fun _ => ⟨fun hi => ⟨?_, hi⟩, fun hi => hi.2⟩
  by_contra hn
  rw [h.blank i hn] at hi
  exact hp hi

/-- The bookkeeping of the swap in one state: each list holds the entries it is for, once each;
the map's set bits are shared out among the entries with a place in the swap area and the writes
in flight; the counters count; and each entry in the middle of a transfer is in the hands of
exactly one thread. -/
structure Sys.Consistent (s : Sys T) : Prop where
  freeList : ∃ L : List ℕ, L.Nodup ∧ Path (fun i => (s.z.ent i).frame) s.z.freeHead L 0 ∧
    ∀ i, i ∈ L ↔ s.z.Has i ∧ (s.z.ent i).state = .free
  lruList : ∃ L : List ℕ, L.Nodup ∧
    Seg (fun i => (s.z.ent i).next) (fun i => (s.z.ent i).prev) 0 L 0 s.z.lruHead s.z.lruTail ∧
    ∀ i, i ∈ L ↔ s.z.Has i ∧ (s.z.ent i).state = .stored ∧ (s.z.ent i).len ≠ 0
  slotMap : ∀ a, s.z.slotMap a = true ↔
    (∃ i, s.z.Has i ∧ (s.z.ent i).state.owns = true ∧
      a ∈ runOf (s.z.ent i).slot (s.z.ent i).len) ∨ ∃ t, a ∈ (s.pc t).sects
  disjoint : ∀ o o', o ≠ o' → Disjoint (owned s.z.core s.pc o) (owned s.z.core s.pc o')
  pages : s.z.st.pages = (s.z.entries.filter fun i =>
    (s.z.ent i).state = .stored ∨ (s.z.ent i).state = .writing).card
  zeroPages : s.z.st.zeroPages = (s.z.entries.filter fun i =>
    (s.z.ent i).state = .stored ∧ (s.z.ent i).len = 0).card
  bytes : s.z.st.bytes = ∑ i ∈ s.z.entries.filter (fun i =>
    (s.z.ent i).state = .stored ∨ (s.z.ent i).state = .writing), ((s.z.ent i).len : ℤ)
  diskPages : s.z.st.diskPages = (s.z.entries.filter fun i =>
    (s.z.ent i).state = .disk ∨ (s.z.ent i).state = .reading).card
  slotsUsed : s.z.slotsUsed =
    ∑ i ∈ s.z.entries.filter (fun i => (s.z.ent i).state.owns = true), (nsect (s.z.ent i).len : ℤ) +
      ∑ t, ((s.pc t).sects.card : ℤ)
  oneThread : ∀ i, (s.z.ent i).state.busy = true → ∃ t, (s.pc t).entry = some i ∧
    ∀ t', (s.pc t').entry = some i → t' = t

theorem inRam_iff {st : ZState} : st.inRam = true ↔ st = .stored ∨ st = .writing := by
  cases st <;> simp [ZState.inRam]

theorem onDisk_iff {st : ZState} : st.onDisk = true ↔ st = .disk ∨ st = .reading := by
  cases st <;> simp [ZState.onDisk]

/-- **The swap keeps its books.**  Whatever the threads call, in whatever order their sections
run and whatever the transfers and allocations return, the lists, the map of the swap area and
the counters agree with the entries in every state reached. -/
theorem Sys.Reach.consistent {s : Sys T} (h : s.Reach) : s.Consistent := by
  have hi := Sys.Inv.of_reach h
  obtain ⟨L, hp, hnd, hL⟩ := hi.tables.free
  obtain ⟨⟨M, hs, hndM, hM⟩, -⟩ := hi.tables.lru
  have hone : ∀ (p : ZState → ℕ → Prop) [∀ st len, Decidable (p st len)], ¬ p .free 0 →
      ∑ i ∈ table, (if p (s.z.core i).state (s.z.core i).len then (1 : ℤ) else 0) =
        (s.z.entries.filter fun i => p (s.z.ent i).state (s.z.ent i).len).card := by
    intro p _ hp
    rw [hi.tables.sum_table p hp, Finset.sum_const, nsmul_one]
  refine ⟨⟨L, hnd, hp, hL⟩, ⟨M, hndM, hs, fun i => ?_⟩, fun a => ?_, hi.books.shares.disjoint, ?_, ?_,
    ?_, ?_, ?_, fun i hb => ?_⟩
  · rw [hM]
    refine ⟨fun hm => ⟨hi.tables.has_of_ne_free (by rw [hm.1]; decide), hm⟩, fun hm => hm.2⟩
  · rw [hi.books.shares.mem]
    constructor
    · rintro ⟨i | t, ha⟩
      · by_cases ho : (s.z.core i).state.owns = true
        · have ha' : a ∈ runOf (s.z.core i).slot (s.z.core i).len := by
            change a ∈ (s.z.core i).sects at ha
            rwa [Core.sects, if_pos ho] at ha
          refine Or.inl ⟨i, hi.tables.has_of_ne_free ?_, ho, ha'⟩
          intro hf
          rw [hf] at ho
          exact Bool.noConfusion ho
        · change a ∈ (s.z.core i).sects at ha
          rw [Core.sects, if_neg ho] at ha
          exact absurd ha (Finset.notMem_empty a)
      · exact Or.inr ⟨t, ha⟩
    · rintro (⟨i, -, ho, ha⟩ | ⟨t, ha⟩)
      · refine ⟨Sum.inl i, ?_⟩
        change a ∈ (s.z.core i).sects
        rw [Core.sects, if_pos (show (s.z.core i).state.owns = true from ho)]
        exact ha
      · exact ⟨Sum.inr t, ha⟩
  · rw [hi.books.pages_eq, ← hone (fun st _ => st = .stored ∨ st = .writing) (by simp)]
    exact Finset.sum_congr rfl fun i _ => by simp only [Core.pages, inRam_iff]
  · rw [hi.books.zeroPages_eq, ← hone (fun st len => st = .stored ∧ len = 0) (by simp)]
    rfl
  · rw [hi.books.bytes_eq,
      ← hi.tables.sum_table (fun st _ => st = .stored ∨ st = .writing) (by simp)]
    exact Finset.sum_congr rfl fun i _ => by simp only [Core.bytes, inRam_iff]; rfl
  · rw [hi.books.diskPages_eq, ← hone (fun st _ => st = .disk ∨ st = .reading) (by simp)]
    exact Finset.sum_congr rfl fun i _ => by simp only [Core.diskPages, onDisk_iff]
  · have hcard : ∀ i ∈ table, ((s.z.core i).sects.card : ℤ) =
        if (s.z.core i).state.owns = true then (nsect (s.z.ent i).len : ℤ) else 0 := by
      intro i _
      rw [Core.sects]
      split_ifs
      · rw [card_runOf]
        rfl
      · rfl
    rw [hi.books.used_eq, Finset.sum_congr rfl hcard,
      hi.tables.sum_table (fun st _ => st.owns = true) (by simp [ZState.owns])]
  · obtain ⟨t, ht⟩ := hi.books.held i hb
    exact ⟨t, ht, fun t' ht' => hi.books.alone t' t i ht' ht⟩

/-- Two threads: one stores a page and touches it again while the other writes it out. -/
def touchedMeanwhile : Sys Bool :=
  [(false, .addBlock), (false, .zswapNew 7), (false, .zswapNew 7),
    (false, .zswapStore 1 (some [5, 6, 7]) 3), (false, .zswapDiskInit 64),
    (true, .zswapWriteback 1), (true, .zswapWriteback 1), (false, .zswapTake 1 [])].foldl (fun s a => s.step a.1 a.2 true []) (Sys.boot fun _ => 0)

theorem consistent_touchedMeanwhile :
    (touchedMeanwhile.z.ent 1).state = .taken ∧ touchedMeanwhile.z.slotMap 0 = true ∧
      touchedMeanwhile.Consistent := by
  refine ⟨by decide +kernel, by decide +kernel, Sys.Reach.consistent ?_⟩
  simp only [touchedMeanwhile, List.foldl_cons, List.foldl_nil]
  refine .step (.step (.step (.step (.step (.step (.step (.step (.boot _) false .addBlock true []
    trivial) false (.zswapNew 7) true [] trivial) false (.zswapNew 7) true [] trivial) false
    (.zswapStore 1 (some [5, 6, 7]) 3) true [] ?_) false (.zswapDiskInit 64) true [] ?_) true
    (.zswapWriteback 1) true [] trivial) true (.zswapWriteback 1) true [] trivial) false
    (.zswapTake 1 []) true [] trivial
  · refine ⟨by decide +kernel, by decide +kernel, by decide, ?_⟩
    rintro d ⟨⟩
    rfl
  · exact show 64 ≤ 2 ^ 23 by decide

end BananaOS.Zswap
