import BananaOS.Lib.Owners
import BananaOS.Zswap.Lists
import Mathlib.Order.Interval.Finset.Nat
import Mathlib.Tactic.Abel

/-!
# The books of the swap

What the swap must keep in step, apart from its lists: the map of the swap area with the sectors
that entries and writes in flight own, the counters, and the threads with the entries they have
in hand.  Of an entry only its state, its length and its slot matter here (`Core`), and a section
changes these at one entry.

* `Core.sects`, `Pc.sects`: the sectors an entry owns, and those a `zswap_disk_put` owns until
  they are an entry's.
* `Books`: the map and the counters agree with the entries; each entry that is being written or
  read (or was taken or unmapped meanwhile) is in the hands of exactly one thread, which knows
  its slot and length.
* `Books.change`: one entry and one thread change.  Everything a section does to the books is an
  instance of it.
-/

namespace BananaOS.Zswap

open Lib Function

/-! ## Entries -/

/-- What the books need of an entry. -/
structure Core where
  len : ℕ
  state : ZState
  slot : ℕ
  deriving DecidableEq, Repr

/-- What the books need of an entry. -/
def Zent.core (e : Zent) : Core := ⟨e.len, e.state, e.slot⟩

/-- The table as the books see it. -/
def Zs.core (s : Zs) (i : ℕ) : Core := (s.ent i).core

/-- The entry's page is in the swap area, on its way there or on its way back. -/
def ZState.owns : ZState → Bool
  | .disk | .reading | .writing | .taken | .dead => true
  | _ => false

/-- A thread has the entry in hand. -/
def ZState.busy : ZState → Bool
  | .reading | .writing | .taken | .dead => true
  | _ => false

/-- The entry's data is in memory and counted there. -/
def ZState.inRam : ZState → Bool
  | .stored | .writing => true
  | _ => false

/-- The entry's data is in the swap area and counted there. -/
def ZState.onDisk : ZState → Bool
  | .disk | .reading => true
  | _ => false

/-- The sectors of a slot with `len` bytes in it. -/
def runOf (slot len : ℕ) : Finset ℕ := Finset.Ico (slot - 1) (slot - 1 + nsect len)

theorem card_runOf (slot len : ℕ) : (runOf slot len).card = nsect len := by
  rw [runOf, Nat.card_Ico]
  omega

namespace Core

/-- The sectors the entry owns. -/
def sects (c : Core) : Finset ℕ := if c.state.owns then runOf c.slot c.len else ∅

/-- 1 for a page in memory. -/
def pages (c : Core) : ℤ := if c.state.inRam then 1 else 0

/-- 1 for a page of zeros. -/
def zeroPages (c : Core) : ℤ := if c.state = .stored ∧ c.len = 0 then 1 else 0

/-- The bytes of a page in memory. -/
def bytes (c : Core) : ℤ := if c.state.inRam then c.len else 0

/-- 1 for a page in the swap area. -/
def diskPages (c : Core) : ℤ := if c.state.onDisk then 1 else 0

end Core

/-- The counters after an entry went from `c` to `c'`. -/
structure Recount (st st' : Stats) (c c' : Core) : Prop where
  pages : st'.pages = st.pages - c.pages + c'.pages
  zeroPages : st'.zeroPages = st.zeroPages - c.zeroPages + c'.zeroPages
  bytes : st'.bytes = st.bytes - c.bytes + c'.bytes
  diskPages : st'.diskPages = st.diskPages - c.diskPages + c'.diskPages

theorem Recount.of_eq {st : Stats} {c c' : Core} (h1 : c'.pages = c.pages)
    (h2 : c'.zeroPages = c.zeroPages) (h3 : c'.bytes = c.bytes) (h4 : c'.diskPages = c.diskPages) :
    Recount st st c c' :=
  ⟨by omega, by omega, by omega, by omega⟩

namespace Core

/-- A slot and a length that can be in the swap area. -/
def GoodRun (nslots slot len : ℕ) : Prop :=
  len ≠ 0 ∧ len ≤ 4096 ∧ slot ≠ 0 ∧ slot - 1 + nsect len ≤ nslots

/-- Only pages with data go to the swap area, into it, and no page is longer than a page. -/
def Good (nslots : ℕ) (c : Core) : Prop :=
  (c.state.owns → GoodRun nslots c.slot c.len) ∧ (c.state = .stored → c.len ≤ 4096)

end Core

/-! ## Threads -/

namespace Pc

/-- The sectors of a `zswap_disk_put`, before they are an entry's. -/
def sects : Pc → Finset ℕ
  | .putIo slot len _ => runOf slot len
  | .putEnd slot len _ => runOf slot len
  | .putDone slot len => runOf slot len
  | _ => ∅

/-- The entry that the thread is to write or to read. -/
def entry : Pc → Option ℕ
  | .wbIo _ _ idx _ _ _ => some idx
  | .wbEnd _ _ idx _ _ _ => some idx
  | .diAlloc idx _ _ => some idx
  | .diIo idx _ _ => some idx
  | .diEnd idx _ _ _ => some idx
  | _ => none

@[simp] theorem entry_idle : Pc.idle.entry = none := rfl

/-- What a thread between its sections knows of its entry. -/
def Fits (core : ℕ → Core) : Pc → Prop
  | .wbIo _ _ idx slot len _ | .wbEnd _ _ idx slot len _ =>
    (core idx).slot = slot ∧ (core idx).len = len ∧
      ((core idx).state = .writing ∨ (core idx).state = .taken ∨ (core idx).state = .dead)
  | .diAlloc idx slot len | .diIo idx slot len | .diEnd idx slot len _ =>
    (core idx).slot = slot ∧ (core idx).len = len ∧
      ((core idx).state = .reading ∨ (core idx).state = .dead)
  | _ => True

/-- The slot in a thread's hands is one of the area. -/
def Good (nslots : ℕ) : Pc → Prop
  | .putIo slot len _ | .putEnd slot len _ | .putDone slot len => Core.GoodRun nslots slot len
  | _ => True

/-- The thread is inside `zswap_writeback`. -/
def Writes : Pc → Prop
  | .wbTop .. | .wbIo .. | .wbEnd .. => True
  | _ => False

theorem Fits.busy {core : ℕ → Core} {p : Pc} (h : p.Fits core) {i : ℕ} (hi : p.entry = some i) :
    (core i).state.busy := by
  cases p <;> simp only [entry, reduceCtorEq, Option.some.injEq] at hi
  all_goals
    subst hi
    obtain ⟨-, -, h⟩ := h
    first
      | rcases h with h | h | h <;> simp [h, ZState.busy]
      | rcases h with h | h <;> simp [h, ZState.busy]

/-- The entry of a thread was unmapped, or touched while it was being written. -/
theorem Fits.mark {core : ℕ → Core} {p : Pc} (h : p.Fits core) {i : ℕ} (hi : p.entry = some i)
    {st : ZState} (hst : st = .dead ∨ st = .taken ∧ (core i).state = .writing) :
    p.Fits (update core i ⟨(core i).len, st, (core i).slot⟩) := by
  cases p <;> simp only [entry, reduceCtorEq, Option.some.injEq] at hi
  all_goals
    subst hi
    obtain ⟨h1, h2, h3⟩ := h
    simp only [Fits, update_self]
    refine ⟨h1, h2, ?_⟩
    rcases hst with rfl | ⟨rfl, hw⟩
    · simp
    · simp_all

theorem fits_of_none {core : ℕ → Core} {p : Pc} (hp : p.entry = none) : p.Fits core := by
  cases p <;> trivial

theorem Fits.congr {core core' : ℕ → Core} {p : Pc} (h : p.Fits core)
    (heq : ∀ i, p.entry = some i → core' i = core i) : p.Fits core' := by
  cases p <;> first
    | trivial
    | (simp only [Fits] at h ⊢; rw [heq _ rfl]; exact h)

end Pc

/-! ## The books -/

/-- The numbers below which all entries are. -/
def table : Finset ℕ := Finset.range (nblkMax * eblk)

variable {T : Type*}

/-- What each owner has: the entries, and the threads. -/
def owned (core : ℕ → Core) (pc : T → Pc) : ℕ ⊕ T → Finset ℕ :=
  Sum.elim (fun i => (core i).sects) fun t => (pc t).sects

theorem owned_update [DecidableEq T] (core : ℕ → Core) (pc : T → Pc) (idx : ℕ) (c : Core) (t : T) (p : Pc) :
    owned (update core idx c) (update pc t p) =
      update (update (owned core pc) (Sum.inl idx) c.sects) (Sum.inr t) p.sects := by
  ext1 o
  rcases o with i | t'
  · rw [update_of_ne (by simp)]
    rcases eq_or_ne i idx with rfl | hi
    · simp [owned]
    · rw [update_of_ne (by simpa using hi)]
      simp [owned, hi]
  · rcases eq_or_ne t' t with rfl | ht
    · rw [update_self]
      exact congrArg Pc.sects (update_self t' p pc)
    · rw [update_of_ne (by simpa using ht), update_of_ne (by simp)]
      simp [owned, ht]

variable [Fintype T]

/-- The map, the counters and the threads agree with the entries. -/
structure Books (core : ℕ → Core) (pc : T → Pc) (map : ℕ → Bool) (used : ℤ) (st : Stats)
    (nslots : ℕ) : Prop where
  good : ∀ i, (core i).Good nslots
  pcGood : ∀ t, (pc t).Good nslots
  shares : Shares map (owned core pc)
  used_eq : used = ∑ i ∈ table, ((core i).sects.card : ℤ) + ∑ t, ((pc t).sects.card : ℤ)
  pages_eq : st.pages = ∑ i ∈ table, (core i).pages
  zeroPages_eq : st.zeroPages = ∑ i ∈ table, (core i).zeroPages
  bytes_eq : st.bytes = ∑ i ∈ table, (core i).bytes
  diskPages_eq : st.diskPages = ∑ i ∈ table, (core i).diskPages
  fits : ∀ t, (pc t).Fits core
  alone : ∀ t t' i, (pc t).entry = some i → (pc t').entry = some i → t = t'
  held : ∀ i, (core i).state.busy → ∃ t, (pc t).entry = some i

namespace Books

variable {core : ℕ → Core} {pc : T → Pc} {map map' : ℕ → Bool} {used used' : ℤ} {st st' : Stats}
  {nslots : ℕ} {idx : ℕ} {c : Core} {t : T} {p : Pc}

theorem taken (h : Books core pc map used st nslots) (ho : (core idx).state.owns = true) :
    ∀ a ∈ runOf (core idx).slot (core idx).len, map a = true := by
  intro a ha
  refine (h.shares.mem a).mpr ⟨Sum.inl idx, ?_⟩
  change a ∈ (core idx).sects
  rwa [Core.sects, if_pos ho]

theorem others_ne (h : Books core pc map used st nslots) (ht : (pc t).entry = some idx) :
    ∀ t', t' ≠ t → (pc t').entry ≠ some idx :=
  fun t' hne he => hne (h.alone t' t idx he ht)

theorem entry_ne (h : Books core pc map used st nslots) (hb : (core idx).state.busy = false)
    (t' : T) : (pc t').entry ≠ some idx := by
  intro he
  have := (h.fits t').busy he
  rw [hb] at this
  exact Bool.false_ne_true this

variable [DecidableEq T]

/-- **One entry and one thread change.**  The entry becomes `c`, the thread goes to `p`. -/
theorem change (h : Books core pc map used st nslots) (hidx : idx ∈ table)
    (hgood : c.Good nslots) (hpgood : p.Good nslots)
    (hshares : Shares map' (update (update (owned core pc) (Sum.inl idx) c.sects) (Sum.inr t) p.sects))
    (hused : used' = used - (core idx).sects.card + c.sects.card - (pc t).sects.card + p.sects.card)
    (hst : Recount st st' (core idx) c)
    (hfits : p.Fits (update core idx c))
    (hothers : ∀ t', t' ≠ t → (pc t').entry = some idx → (pc t').Fits (update core idx c))
    (hent : ∀ i, p.entry = some i → (pc t).entry = some i ∨ i = idx ∧ ¬ (core idx).state.busy)
    (hheld : ∀ i, (update core idx c i).state.busy → (pc t).entry = some i → p.entry = some i)
    (hnew : c.state.busy → (core idx).state.busy ∨ p.entry = some idx) :
    Books (update core idx c) (update pc t p) map' used' st' nslots := by
  refine ⟨fun i => ?_, fun t' => ?_, ?_, ?_, ?_, ?_, ?_, ?_, fun t' => ?_, fun t₁ t₂ i h1 h2 => ?_,
    fun i hi => ?_⟩
  · rcases eq_or_ne i idx with rfl | hi
    · rwa [update_self]
    · rw [update_of_ne hi]
      exact h.good i
  · rcases eq_or_ne t' t with rfl | ht
    · rwa [update_self]
    · rw [update_of_ne ht]
      exact h.pcGood t'
  · rwa [owned_update]
  · rw [sum_update hidx core c fun c => (c.sects.card : ℤ),
      sum_update (Finset.mem_univ t) pc p fun p => (p.sects.card : ℤ), hused, h.used_eq]
    abel
  · rw [sum_update hidx core c Core.pages, hst.pages, h.pages_eq]
  · rw [sum_update hidx core c Core.zeroPages, hst.zeroPages, h.zeroPages_eq]
  · rw [sum_update hidx core c Core.bytes, hst.bytes, h.bytes_eq]
  · rw [sum_update hidx core c Core.diskPages, hst.diskPages, h.diskPages_eq]
  · rcases eq_or_ne t' t with rfl | ht
    · rwa [update_self]
    · rw [update_of_ne ht]
      by_cases he : (pc t').entry = some idx
      · exact hothers t' ht he
      · refine (h.fits t').congr fun i hi => update_of_ne ?_ ..
        rintro rfl
        exact he hi
  · -- two threads with one entry: `t` can only have got it from a state in which nobody had it
    have key : ∀ t', t' ≠ t → p.entry = some i → (pc t').entry = some i → False := by
      intro t' ht hp ht'
      rcases hent i hp with hold | ⟨rfl, hbusy⟩
      · exact ht (h.alone t' t i ht' hold)
      · exact hbusy ((h.fits t').busy ht')
    rcases eq_or_ne t₁ t with rfl | ht1
    · rcases eq_or_ne t₂ t₁ with rfl | ht2
      · rfl
      · rw [update_self] at h1
        rw [update_of_ne ht2] at h2
        exact (key t₂ ht2 h1 h2).elim
    · rw [update_of_ne ht1] at h1
      rcases eq_or_ne t₂ t with rfl | ht2
      · rw [update_self] at h2
        exact (key t₁ ht1 h2 h1).elim
      · rw [update_of_ne ht2] at h2
        exact h.alone t₁ t₂ i h1 h2
  · have keep : (core i).state.busy → ∃ t', (update pc t p t').entry = some i := by
      intro hb
      obtain ⟨t', ht'⟩ := h.held i hb
      rcases eq_or_ne t' t with rfl | ht
      · exact ⟨t', by rw [update_self]; exact hheld i hi ht'⟩
      · exact ⟨t', by rwa [update_of_ne ht]⟩
    rcases eq_or_ne i idx with rfl | hidx'
    · rcases hnew (by rwa [update_self] at hi) with hb | hp
      · exact keep hb
      · exact ⟨t, by rwa [update_self]⟩
    · rw [update_of_ne hidx'] at hi
      exact keep hi

/-- One entry and one thread change, and the sectors stay where they are. -/
theorem same (h : Books core pc map used st nslots) (hidx : idx ∈ table)
    (hgood : c.Good nslots) (hpgood : p.Good nslots) (hsects : c.sects = (core idx).sects)
    (hpsects : p.sects = (pc t).sects)
    (hst : Recount st st' (core idx) c)
    (hfits : p.Fits (update core idx c))
    (hothers : ∀ t', t' ≠ t → (pc t').entry = some idx → (pc t').Fits (update core idx c))
    (hent : ∀ i, p.entry = some i → (pc t).entry = some i ∨ i = idx ∧ ¬ (core idx).state.busy)
    (hheld : ∀ i, (update core idx c i).state.busy → (pc t).entry = some i → p.entry = some i)
    (hnew : c.state.busy → (core idx).state.busy ∨ p.entry = some idx) :
    Books (update core idx c) (update pc t p) map used st' nslots := by
  refine h.change hidx hgood hpgood ?_ ?_ hst hfits hothers hent hheld hnew
  · have h1 : update (owned core pc) (Sum.inl idx) c.sects = owned core pc := by
      rw [hsects]
      exact update_eq_self ..
    have h2 : update (owned core pc) (Sum.inr t) p.sects = owned core pc := by
      rw [hpsects]
      exact update_eq_self ..
    rw [h1, h2]
    exact h.shares
  · rw [hsects, hpsects]
    omega

/-- An entry gives its sectors back. -/
theorem revoke (h : Books core pc map used st nslots) (hidx : idx ∈ table)
    (hgood : c.Good nslots) (hpgood : p.Good nslots) (hsects : c.sects = ∅)
    (hpsects : p.sects = (pc t).sects)
    (hmap : ∀ a, map' a = true ↔ map a = true ∧ a ∉ (core idx).sects)
    (hused : used' = used - (core idx).sects.card)
    (hst : Recount st st' (core idx) c)
    (hothers : ∀ t', t' ≠ t → (pc t').entry ≠ some idx)
    (hbusy : c.state.busy = false) (hfits : p.Fits core) (hent : p.entry ≠ some idx)
    (hold : ∀ i, i ≠ idx → ((pc t).entry = some i ↔ p.entry = some i)) :
    Books (update core idx c) (update pc t p) map' used' st' nslots := by
  refine h.change hidx hgood hpgood ?_ ?_ hst ?_ ?_ ?_ ?_ ?_
  · rw [hsects]
    have h1 : Shares map' (update (owned core pc) (Sum.inl idx) ∅) := h.shares.revoke hmap
    have h2 : p.sects = update (owned core pc) (Sum.inl idx) ∅ (Sum.inr t) := by
      rw [update_of_ne (by simp), hpsects]
      rfl
    rwa [h2, update_eq_self]
  · rw [hsects, hpsects, hused, Finset.card_empty]
    omega
  · refine hfits.congr fun i hi => update_of_ne ?_ ..
    rintro rfl
    exact hent hi
  · intro t' ht he
    exact absurd he (hothers t' ht)
  · intro i hi
    have hne : i ≠ idx := by
      rintro rfl
      exact hent hi
    exact Or.inl ((hold i hne).mpr hi)
  · intro i hi he
    rcases eq_or_ne i idx with rfl | hne
    · rw [update_self, hbusy] at hi
      exact absurd hi Bool.false_ne_true
    · exact (hold i hne).mp he
  · intro hb
    rw [hbusy] at hb
    exact absurd hb Bool.false_ne_true

/-- A thread that has nothing in hand changes an entry that nobody has in hand. -/
theorem idleEntry (h : Books core pc map used st nslots) (hidx : idx ∈ table)
    (hb : (core idx).state.busy = false) (hcb : c.state.busy = false)
    (hgood : c.Good nslots) (hpgood : p.Good nslots) (hsects : c.sects = (core idx).sects)
    (hpsects : p.sects = (pc t).sects)
    (hst : Recount st st' (core idx) c)
    (hp : p.entry = (pc t).entry) (hfits : p.Fits core) :
    Books (update core idx c) (update pc t p) map used st' nslots := by
  refine h.same hidx hgood hpgood hsects hpsects hst ?_ ?_ ?_ ?_ ?_
  · refine hfits.congr fun i hi => update_of_ne ?_ ..
    rintro rfl
    exact h.entry_ne hb t (hp ▸ hi)
  · exact fun t' _ he => absurd he (h.entry_ne hb t')
  · exact fun i hi => Or.inl (hp ▸ hi)
  · exact fun i _ hi => hp.trans hi
  · intro hb'
    rw [hcb] at hb'
    exact absurd hb' Bool.false_ne_true

/-- The page of an entry in a thread's hands was unmapped, or touched. -/
theorem mark (h : Books core pc map used st nslots) (hidx : idx ∈ table) (t : T) {s : ZState}
    (hb : (core idx).state = .writing ∨ (core idx).state = .reading)
    (hs : s = .dead ∨ s = .taken ∧ (core idx).state = .writing)
    (hst : Recount st st' (core idx) ⟨(core idx).len, s, (core idx).slot⟩) :
    Books (update core idx ⟨(core idx).len, s, (core idx).slot⟩) (update pc t (pc t)) map used st'
      nslots := by
  have howns : (core idx).state.owns = true := by
    rcases hb with hb | hb <;> simp [hb, ZState.owns]
  have hbusy : (core idx).state.busy = true := by
    rcases hb with hb | hb <;> simp [hb, ZState.busy]
  have hs' : s.owns = true := by
    rcases hs with rfl | ⟨rfl, -⟩ <;> rfl
  have fit : ∀ t', (pc t').Fits (update core idx ⟨(core idx).len, s, (core idx).slot⟩) := by
    intro t'
    by_cases he : (pc t').entry = some idx
    · exact (h.fits t').mark he hs
    · refine (h.fits t').congr fun i hi => update_of_ne ?_ ..
      rintro rfl
      exact he hi
  refine h.same hidx ⟨fun _ => (h.good idx).1 howns, ?_⟩ (h.pcGood t) ?_ rfl hst (fit t)
    (fun t' _ _ => fit t') (fun i hi => Or.inl hi) (fun i _ hi => hi) fun _ => Or.inl hbusy
  · rintro rfl
    rcases hs with hs | ⟨hs, -⟩ <;> cases hs
  · rw [Core.sects, Core.sects, if_pos howns, if_pos hs']

/-- A thread takes an entry in hand to write it, with sectors for it. -/
theorem grant (h : Books core pc map used st nslots) (hidx : idx ∈ table)
    (hb : (core idx).state.busy = false) (hs : (core idx).sects = ∅) (hps : (pc t).sects = ∅)
    (hpe : (pc t).entry = none) {slot len : ℕ} (hgood : Core.GoodRun nslots slot len)
    (hclear : ∀ a ∈ runOf slot len, map a = false)
    (hmap : ∀ a, map' a = true ↔ map a = true ∨ a ∈ runOf slot len)
    (hst : Recount st st' (core idx) ⟨len, .writing, slot⟩) {done max : ℕ} {buf : List UInt8} :
    Books (update core idx ⟨len, .writing, slot⟩)
      (update pc t (.wbIo done max idx slot len buf)) map' (used + nsect len) st' nslots := by
  refine h.change hidx ⟨fun _ => hgood, fun h => ZState.noConfusion h⟩ trivial ?_ ?_ hst ?_ ?_ ?_ ?_
    ?_
  · have h1 : Shares map' (update (owned core pc) (Sum.inl idx) (runOf slot len)) :=
      h.shares.grant (show owned core pc (Sum.inl idx) = ∅ from hs) hclear hmap
    have h2 : (∅ : Finset ℕ) =
        update (owned core pc) (Sum.inl idx) (runOf slot len) (Sum.inr t) := by
      rw [update_of_ne (by simp)]
      exact hps.symm
    change Shares map' (update (update (owned core pc) (Sum.inl idx) (runOf slot len)) (Sum.inr t) ∅)
    rwa [h2, update_eq_self]
  · rw [hs, hps]
    change _ = used - _ + ((runOf slot len).card : ℤ) - _ + ((∅ : Finset ℕ).card : ℤ)
    rw [card_runOf, Finset.card_empty]
    omega
  · simp [Pc.Fits]
  · exact fun t' _ he => absurd he (h.entry_ne hb t')
  · intro i hi
    rw [Pc.entry, Option.some.injEq] at hi
    exact Or.inr ⟨hi.symm, by rw [hb]; exact Bool.false_ne_true⟩
  · intro i _ hi
    rw [hpe] at hi
    cases hi
  · exact fun _ => Or.inr rfl

theorem goOn (h : Books core pc map used st nslots) (hpgood : p.Good nslots)
    (hpsects : p.sects = (pc t).sects) (hp : p.entry = (pc t).entry) (hfits : p.Fits core) :
    Books core (update pc t p) map used st nslots := by
  have h0 : 0 ∈ table := Finset.mem_range.mpr (by decide)
  have : Books (update core 0 (core 0)) (update pc t p) map used st nslots :=
    h.same h0 (h.good 0) hpgood rfl hpsects (.of_eq rfl rfl rfl rfl) (by rwa [update_eq_self])
    (fun t' _ _ => by rw [update_eq_self]; exact h.fits t') (fun i hi => Or.inl (hp ▸ hi))
    (fun i _ hi => hp.trans hi) Or.inl
  rwa [update_eq_self] at this

/-- Only a thread changes, and nothing that it has in hand but sectors. -/
theorem thread (h : Books core pc map used st nslots) (hpgood : p.Good nslots)
    (hshares : Shares map' (update (owned core pc) (Sum.inr t) p.sects))
    (hused : used' = used - (pc t).sects.card + p.sects.card) (hp : p.entry = none)
    (hpt : (pc t).entry = none) : Books core (update pc t p) map' used' st nslots := by
  have h0 : 0 ∈ table := Finset.mem_range.mpr (by decide)
  have : Books (update core 0 (core 0)) (update pc t p) map' used' st nslots := by
    refine h.change h0 (h.good 0) hpgood ?_ ?_ (.of_eq rfl rfl rfl rfl) (Pc.fits_of_none hp)
      (fun t' _ _ => ?_) (fun i hi => ?_) (fun i _ hi => ?_) Or.inl
    · have h1 : update (owned core pc) (Sum.inl 0) (core 0).sects = owned core pc :=
        update_eq_self ..
      rwa [h1]
    · omega
    · rw [update_eq_self]
      exact h.fits t'
    · rw [hp] at hi
      cases hi
    · rw [hpt] at hi
      cases hi
  rwa [update_eq_self] at this

theorem grantThread (h : Books core pc map used st nslots) (hps : (pc t).sects = ∅)
    (hpt : (pc t).entry = none) {slot len : ℕ} (hgood : Core.GoodRun nslots slot len)
    (hclear : ∀ a ∈ runOf slot len, map a = false)
    (hmap : ∀ a, map' a = true ↔ map a = true ∨ a ∈ runOf slot len) {buf : List UInt8} :
    Books core (update pc t (.putIo slot len buf)) map' (used + nsect len) st nslots := by
  refine h.thread hgood ?_ ?_ rfl hpt
  · exact h.shares.grant (show owned core pc (Sum.inr t) = ∅ from hps) hclear hmap
  · rw [hps, Pc.sects, card_runOf, Finset.card_empty]
    omega

theorem revokeThread (h : Books core pc map used st nslots)
    (hmap : ∀ a, map' a = true ↔ map a = true ∧ a ∉ (pc t).sects) (hpt : (pc t).entry = none) :
    Books core (update pc t .idle) map' (used - (pc t).sects.card) st nslots := by
  refine h.thread trivial (h.shares.revoke hmap) ?_ rfl hpt
  rw [show Pc.idle.sects = ∅ from rfl, Finset.card_empty]
  omega

/-- A thread's sectors become those of a pending entry. -/
theorem handOver (h : Books core pc map used st nslots) (hidx : idx ∈ table)
    (hb : (core idx).state.busy = false) (hs : (core idx).sects = ∅) {slot len : ℕ}
    (hpc : pc t = .putDone slot len) (hst : Recount st st' (core idx) ⟨len, .disk, slot⟩) :
    Books (update core idx ⟨len, .disk, slot⟩) (update pc t .idle) map used st' nslots := by
  have hgood : Core.GoodRun nslots slot len := by
    have := h.pcGood t
    rwa [hpc] at this
  have hps : (pc t).sects = runOf slot len := by rw [hpc]; rfl
  refine h.change hidx ⟨fun _ => hgood, fun h => ZState.noConfusion h⟩ trivial ?_ ?_ hst trivial ?_
    ?_ ?_ ?_
  · have hne : (Sum.inr t : ℕ ⊕ T) ≠ Sum.inl idx := by simp
    have := h.shares.move hne (show owned core pc (Sum.inl idx) = ∅ from hs)
    rw [show owned core pc (Sum.inr t) = runOf slot len from hps] at this
    rwa [update_comm hne] at this
  · rw [hs, hps]
    change _ = used - _ + ((runOf slot len).card : ℤ) - _ + ((∅ : Finset ℕ).card : ℤ)
    rw [Finset.card_empty]
    omega
  · exact fun t' _ he => absurd he (h.entry_ne hb t')
  · intro i hi
    cases hi
  · intro i _ hi
    rw [hpc] at hi
    cases hi
  · exact fun hbusy => Bool.noConfusion hbusy

omit [DecidableEq T] in
/-- A swap area is found: before it nobody had a sector. -/
theorem newArea (h : Books core pc map used st 0) (n : ℕ) :
    Books core pc (fun _ => false) used st n := by
  have none : ∀ {slot len : ℕ}, ¬ Core.GoodRun 0 slot len := by
    rintro slot len ⟨hlen, -, -, hle⟩
    unfold nsect at hle
    split_ifs at hle
    omega
  have hown : ∀ i, (core i).state.owns = false := fun i =>
    Bool.eq_false_of_not_eq_true fun ho => none ((h.good i).1 ho)
  have hpc : ∀ t, (pc t).sects = ∅ := by
    intro t
    have := h.pcGood t
    cases hp : pc t <;> rw [hp] at this <;> first
      | rfl
      | exact absurd this none
  refine ⟨fun i => ⟨fun ho => ?_, (h.good i).2⟩, fun t => ?_, ⟨fun a => ?_, h.shares.disjoint⟩,
    h.used_eq, h.pages_eq, h.zeroPages_eq, h.bytes_eq, h.diskPages_eq, h.fits, h.alone, h.held⟩
  · rw [hown i] at ho
    exact Bool.noConfusion ho
  · have := h.pcGood t
    cases hp : pc t <;> rw [hp] at this <;> first
      | trivial
      | exact absurd this none
  · constructor
    · exact fun ha => Bool.noConfusion ha
    · rintro ⟨i | t, ha⟩
      · change a ∈ (core i).sects at ha
        rw [Core.sects, hown i] at ha
        exact absurd ha (Finset.notMem_empty a)
      · change a ∈ (pc t).sects at ha
        rw [hpc t] at ha
        exact absurd ha (Finset.notMem_empty a)

end Books

end BananaOS.Zswap
