import BananaOS.Zswap.Books

/-!
# The lists and the sections

`Zs.Tables`: the free list holds exactly the free entries, and the list of what can go to the
disk exactly the stored ones that have data.  Each way in which a section changes an entry keeps
it, and changes the table the books see (`Zs.core`) at that entry only.
-/

namespace BananaOS.Zswap

open Lib Function

/-- The part of the state that belongs to the swap area. -/
structure Area where
  nslots : ℕ
  slotMap : ℕ → Bool
  slotsUsed : ℤ
  swHint : ℕ

namespace Zs

variable {z : Zs} {idx : ℕ} {f : Zent → Zent}

/-! ## What the operations do to the table the books see -/

theorem core_modify (z : Zs) (idx : ℕ) (f : Zent → Zent) :
    (z.modify idx f).core = update z.core idx (f (z.ent idx)).core := by
  ext1 i
  rcases eq_or_ne i idx with rfl | hi
  · simp [core, modify]
  · simp [core, modify, hi]

@[simp] theorem core_lruAdd (z : Zs) (idx : ℕ) : (z.lruAdd idx).core = z.core :=
  funext (lruAdd_same Zent.core fun _ _ _ _ => rfl)

@[simp] theorem core_lruDel (z : Zs) (idx : ℕ) : (z.lruDel idx).core = z.core :=
  funext (lruDel_same Zent.core fun _ _ _ _ => rfl)

theorem lruDel_shape (z : Zs) (idx : ℕ) :
    ∃ ent h t, z.lruDel idx = { z with ent := ent, lruHead := h, lruTail := t } := by
  unfold lruDel
  dsimp only
  split_ifs
  · exact ⟨z.ent, z.lruHead, z.lruTail, rfl⟩
  all_goals exact ⟨_, _, _, rfl⟩

theorem putEntry_shape (z : Zs) (idx : ℕ) :
    ∃ ent h t, z.putEntry idx =
      { z with ent := ent, lruHead := h, lruTail := t, freeHead := idx } := by
  obtain ⟨ent, h, t, heq⟩ := z.lruDel_shape idx
  exact ⟨_, h, t, by rw [putEntry, heq]; rfl⟩

/-- The books' view of a free entry. -/
def freeCore : Core := ⟨0, .free, 0⟩

theorem core_putEntry (z : Zs) (idx : ℕ) :
    (z.putEntry idx).core = update z.core idx freeCore := by
  change ((z.lruDel idx).modify idx _).core = _
  rw [core_modify, core_lruDel]
  rfl

/-! ## What they do to the swap area -/

/-- The part of the state that belongs to the swap area. -/
def area (z : Zs) : Area := ⟨z.nslots, z.slotMap, z.slotsUsed, z.swHint⟩

@[simp] theorem area_putEntry (z : Zs) (idx : ℕ) : (z.putEntry idx).area = z.area := by
  obtain ⟨ent, h, t, heq⟩ := z.putEntry_shape idx
  rw [heq]
  rfl

@[simp] theorem st_putEntry (z : Zs) (idx : ℕ) : (z.putEntry idx).st = z.st := by
  obtain ⟨ent, h, t, heq⟩ := z.putEntry_shape idx
  rw [heq]

@[simp] theorem area_lruDel (z : Zs) (idx : ℕ) : (z.lruDel idx).area = z.area := by
  obtain ⟨ent, h, t, heq⟩ := z.lruDel_shape idx
  rw [heq]
  rfl

@[simp] theorem st_lruDel (z : Zs) (idx : ℕ) : (z.lruDel idx).st = z.st := by
  obtain ⟨ent, h, t, heq⟩ := z.lruDel_shape idx
  rw [heq]

/-- `slot_put` of a run that is all taken. -/
theorem slotPut_run {z : Zs} {slot len : ℕ} (hgood : Core.GoodRun z.nslots slot len)
    (hset : ∀ a ∈ runOf slot len, z.slotMap a = true) :
    ∃ map', z.slotPut slot (nsect len) =
        { z with slotMap := map', slotsUsed := z.slotsUsed - (runOf slot len).card } ∧
      ∀ a, map' a = true ↔ z.slotMap a = true ∧ a ∉ runOf slot len := by
  refine ⟨fun j => z.slotMap j && !decide (slot - 1 ≤ j ∧ j < slot - 1 + nsect len), ?_, ?_⟩
  · rw [card_runOf]
    exact slotPut_eq hgood.2.2.1 hgood.2.2.2
      fun j h1 h2 => hset j (Finset.mem_Ico.mpr ⟨h1, h2⟩)
  · intro a
    rw [Bool.and_eq_true, Bool.not_eq_true', decide_eq_false_iff_not, runOf, Finset.mem_Ico]

/-! ## The lists -/

/-- The two lists hold the entries they are for. -/
structure Tables (z : Zs) : Prop where
  blank : ∀ i, ¬ z.Has i → z.core i = freeCore
  nblk_le : z.nblk ≤ nblkMax
  free : z.FreeIs {i | z.Has i ∧ (z.core i).state = .free}
  lru : z.LruIs {i | (z.core i).state = .stored ∧ (z.core i).len ≠ 0}

theorem Has.mem_table (h : z.Has idx) (hn : z.nblk ≤ nblkMax) : idx ∈ table := by
  refine Finset.mem_range.mpr ?_
  have h1 := h.2
  unfold eblk at *
  omega

namespace Tables

theorem withBooks (h : Tables z) (st : Stats) (map : ℕ → Bool) (used : ℤ) :
    Tables { z with st := st, slotMap := map, slotsUsed := used } :=
  ⟨h.blank, h.nblk_le, h.free, h.lru⟩

theorem has_of_ne_free (h : Tables z) (hi : (z.core idx).state ≠ .free) : z.Has idx := by
  by_contra hn
  rw [h.blank idx hn] at hi
  exact hi rfl

theorem zero_notMem (h : Tables z) :
    (0 : ℕ) ∉ {i | (z.core i).state = .stored ∧ (z.core i).len ≠ 0} := by
  rintro ⟨h0, -⟩
  have := h.has_of_ne_free (by rw [h0]; decide)
  exact this.1 rfl

/-- An entry that is in neither list changes, and is in neither after it. -/
theorem modify (h : Tables z) (hidx : z.Has idx) (hlinks : ∀ e, (f e).prev = e.prev ∧
      (f e).next = e.next ∧ (f e).inLru = e.inLru)
    (hfree : (z.core idx).state ≠ .free) (hfree' : (f (z.ent idx)).state ≠ .free)
    (hlru : (f (z.ent idx)).state = .stored ∧ (f (z.ent idx)).len ≠ 0 ↔
      (z.core idx).state = .stored ∧ (z.core idx).len ≠ 0) :
    Tables (z.modify idx f) := by
  refine ⟨fun i hi => ?_, h.nblk_le, ?_, ?_⟩
  · rw [core_modify, update_of_ne]
    · exact h.blank i hi
    · rintro rfl
      exact hi hidx
  · have hset : {i | (z.modify idx f).Has i ∧ ((z.modify idx f).core i).state = .free} =
        {i | z.Has i ∧ (z.core i).state = .free} := by
      ext i
      rw [core_modify]
      rcases eq_or_ne i idx with rfl | hi
      · simp [hfree, hfree', Zent.core]
      · simp [update_of_ne hi, Has, Zs.modify]
    rw [hset]
    refine h.free.congr (fun i hi => ?_) rfl
    have hne : i ≠ idx := by
      rintro rfl
      exact hfree hi.2
    simp [Zs.modify, hne]
  · have hset : {i | ((z.modify idx f).core i).state = .stored ∧
          ((z.modify idx f).core i).len ≠ 0} =
        {i | (z.core i).state = .stored ∧ (z.core i).len ≠ 0} := by
      ext i
      rw [core_modify]
      rcases eq_or_ne i idx with rfl | hi
      · simpa [Zent.core] using hlru
      · simp [update_of_ne hi]
    rw [hset]
    exact h.lru.congr (fun i _ => setAt_same Zent.next (fun e => (hlinks e).2.1) i)
      (fun i _ => setAt_same Zent.prev (fun e => (hlinks e).1) i)
      (setAt_same Zent.inLru fun e => (hlinks e).2.2) rfl rfl

/-- An entry that is in neither list gets data and goes to the end of the list of what can go to
the disk. -/
theorem addLru (h : Tables z) (hidx : z.Has idx) (hlinks : ∀ e, (f e).prev = e.prev ∧
      (f e).next = e.next ∧ (f e).inLru = e.inLru)
    (hfree : (z.core idx).state ≠ .free)
    (hlru : ¬ ((z.core idx).state = .stored ∧ (z.core idx).len ≠ 0))
    (hnew : (f (z.ent idx)).state = .stored ∧ (f (z.ent idx)).len ≠ 0) :
    Tables ((z.modify idx f).lruAdd idx) := by
  refine ⟨fun i hi => ?_, h.nblk_le, ?_, ?_⟩
  · rw [core_lruAdd, core_modify, update_of_ne]
    · exact h.blank i hi
    · rintro rfl
      exact hi hidx
  · rw [core_lruAdd]
    have hset : {i | ((z.modify idx f).lruAdd idx).Has i ∧
          ((z.modify idx f).core i).state = .free} =
        {i | z.Has i ∧ (z.core i).state = .free} := by
      ext i
      rw [core_modify]
      rcases eq_or_ne i idx with rfl | hi
      · simp [hfree, hnew.1, Zent.core]
      · simp [update_of_ne hi, Has, Zs.modify, lruAdd]
    rw [hset]
    refine h.free.congr (fun i hi => ?_) rfl
    rw [lruAdd_same Zent.frame fun _ _ _ _ => rfl]
    have hne : i ≠ idx := by
      rintro rfl
      exact hfree hi.2
    simp [Zs.modify, hne]
  · rw [core_lruAdd]
    have hset : {i | ((z.modify idx f).core i).state = .stored ∧
          ((z.modify idx f).core i).len ≠ 0} =
        insert idx {i | (z.core i).state = .stored ∧ (z.core i).len ≠ 0} := by
      ext i
      rw [core_modify]
      rcases eq_or_ne i idx with rfl | hi
      · simpa [Zent.core] using hnew
      · simp [hi]
    rw [hset]
    refine lruAdd_spec (h.lru.congr ?_ ?_ ?_ rfl rfl) h.zero_notMem hlru hidx.1
    · exact fun i _ => setAt_same Zent.next (fun e => (hlinks e).2.1) i
    · exact fun i _ => setAt_same Zent.prev (fun e => (hlinks e).1) i
    · exact setAt_same Zent.inLru fun e => (hlinks e).2.2

/-- An entry leaves the list of what can go to the disk, for a state in neither list. -/
theorem delLru (h : Tables z) (hidx : z.Has idx) (hlinks : ∀ e, (f e).prev = e.prev ∧
      (f e).next = e.next ∧ (f e).inLru = e.inLru)
    (hfree : (z.core idx).state ≠ .free)
    (hnew : (f ((z.lruDel idx).ent idx)).state ≠ .free ∧
      (f ((z.lruDel idx).ent idx)).state ≠ .stored) :
    Tables ((z.lruDel idx).modify idx f) := by
  obtain ⟨ent, hd, tl, heq⟩ := z.lruDel_shape idx
  refine ⟨fun i hi => ?_, ?_, ?_, ?_⟩
  · rw [core_modify, core_lruDel, update_of_ne]
    · exact h.blank i (by simpa [Has, Zs.modify, heq] using hi)
    · rintro rfl
      exact hi (by simpa [Has, Zs.modify, heq] using hidx)
  · simpa [Zs.modify, heq] using h.nblk_le
  · have hset : {i | ((z.lruDel idx).modify idx f).Has i ∧
          (((z.lruDel idx).modify idx f).core i).state = .free} =
        {i | z.Has i ∧ (z.core i).state = .free} := by
      ext i
      rw [core_modify, core_lruDel]
      rcases eq_or_ne i idx with rfl | hi
      · simp [hfree, hnew.1, Zent.core]
      · simp [update_of_ne hi, Has, Zs.modify, heq]
    rw [hset]
    refine h.free.congr (fun i hi => ?_) (by simp [Zs.modify, heq])
    have hne : i ≠ idx := by
      rintro rfl
      exact hfree hi.2
    simp only [Zs.modify, setAt_of_ne hne]
    exact lruDel_same Zent.frame (fun _ _ _ _ => rfl) i
  · have hset : {i | (((z.lruDel idx).modify idx f).core i).state = .stored ∧
          (((z.lruDel idx).modify idx f).core i).len ≠ 0} =
        {i | (z.core i).state = .stored ∧ (z.core i).len ≠ 0} \ {idx} := by
      ext i
      rw [core_modify, core_lruDel]
      rcases eq_or_ne i idx with rfl | hi
      · simp [Zent.core, hnew.2]
      · simp [hi]
    rw [hset]
    refine (lruDel_spec h.lru h.zero_notMem).congr ?_ ?_ ?_ rfl rfl
    · exact fun i _ => setAt_same Zent.next (fun e => (hlinks e).2.1) i
    · exact fun i _ => setAt_same Zent.prev (fun e => (hlinks e).1) i
    · exact setAt_same Zent.inLru fun e => (hlinks e).2.2

/-- `put_entry`, on an entry that is not free yet. -/
theorem putEntry (h : Tables z) (hfree : (z.core idx).state ≠ .free) :
    Tables (z.putEntry idx) := by
  have hidx := h.has_of_ne_free hfree
  obtain ⟨ent, hd, tl, heq⟩ := z.putEntry_shape idx
  have hent : ∀ i, (z.putEntry idx).ent i = if i = idx then
      { (z.lruDel idx).ent idx with
        state := .free, data := none, len := 0, slot := 0, frame := (z.lruDel idx).freeHead }
      else (z.lruDel idx).ent i := by
    intro i
    split_ifs with hi
    · subst hi
      simp [Zs.putEntry, Zs.modify]
    · simp [Zs.putEntry, Zs.modify, hi]
  have hhead : (z.lruDel idx).freeHead = z.freeHead := by
    obtain ⟨_, _, _, heq'⟩ := z.lruDel_shape idx
    rw [heq']
  refine ⟨fun i hi => ?_, ?_, ?_, ?_⟩
  · rw [core_putEntry, update_of_ne]
    · exact h.blank i (by simpa [Has, heq] using hi)
    · rintro rfl
      exact hi (by simpa [Has, heq] using hidx)
  · simpa [heq] using h.nblk_le
  · have hset : {i | (z.putEntry idx).Has i ∧ ((z.putEntry idx).core i).state = .free} =
        insert idx {i | z.Has i ∧ (z.core i).state = .free} := by
      ext i
      rw [core_putEntry]
      rcases eq_or_ne i idx with rfl | hi
      · simpa [freeCore, Has, heq] using hidx
      · simp [Has, heq, hi]
    rw [hset]
    refine h.free.push (fun hi => hfree hi.2) (fun i hi => ?_) ?_ rfl
    · have hne : i ≠ idx := by
        rintro rfl
        exact hfree hi.2
      rw [hent, if_neg hne]
      exact lruDel_same Zent.frame (fun _ _ _ _ => rfl) i
    · rw [hent, if_pos rfl]
      exact hhead
  · have hset : {i | ((z.putEntry idx).core i).state = .stored ∧
          ((z.putEntry idx).core i).len ≠ 0} =
        {i | (z.core i).state = .stored ∧ (z.core i).len ≠ 0} \ {idx} := by
      ext i
      rw [core_putEntry]
      rcases eq_or_ne i idx with rfl | hi
      · simp [freeCore]
      · simp [hi]
    rw [hset]
    refine (lruDel_spec h.lru h.zero_notMem).congr ?_ ?_ ?_ rfl rfl
    all_goals intro i
    · intro
      rw [hent]
      split_ifs with hi
      · rw [hi]
      · rfl
    · intro
      rw [hent]
      split_ifs with hi
      · rw [hi]
      · rfl
    · rw [hent]
      split_ifs with hi
      · rw [hi]
      · rfl

/-- `zswap_new`, with a free entry: it is pending after it. -/
theorem zswapNew (h : Tables z) (hne : z.freeHead ≠ 0) (frame : ℕ) :
    z.Has z.freeHead ∧ (z.core z.freeHead).state = .free ∧
      (z.zswapNew frame).2.core = update z.core z.freeHead ⟨0, .pending, 0⟩ ∧
      Tables (z.zswapNew frame).2 := by
  obtain ⟨hhas, hst⟩ := h.free.head_mem hne
  have hcore : (z.zswapNew frame).2.core = update z.core z.freeHead ⟨0, .pending, 0⟩ := by
    ext1 i
    rcases eq_or_ne i z.freeHead with rfl | hi
    · simp [core, Zs.zswapNew, Zent.core, Zent.zeroed]
    · simp [core, Zs.zswapNew, hi]
  have hnext : u32 (z.ent z.freeHead).frame = (z.ent z.freeHead).frame := by
    refine Nat.mod_eq_of_lt ?_
    rcases h.free.next_mem hne with h0 | ⟨h1, -⟩
    · rw [h0]
      decide
    · have := Finset.mem_range.mp (h1.mem_table h.nblk_le)
      exact this.trans (by decide)
  have hent : ∀ i, i ≠ z.freeHead → (z.zswapNew frame).2.ent i = z.ent i :=
    fun i hi => by simp [Zs.zswapNew, hi]
  refine ⟨hhas, hst, hcore, fun i hi => ?_, h.nblk_le, ?_, ?_⟩
  · rw [hcore, update_of_ne]
    · exact h.blank i hi
    · rintro rfl
      exact hi hhas
  · have hset : {i | (z.zswapNew frame).2.Has i ∧ ((z.zswapNew frame).2.core i).state = .free} =
        {i | z.Has i ∧ (z.core i).state = .free} \ {z.freeHead} := by
      ext i
      rw [hcore]
      rcases eq_or_ne i z.freeHead with rfl | hi
      · simp
      · simp [hi, Has, Zs.zswapNew]
    rw [hset]
    exact (h.free.pop hne (fun i _ hi => by rw [hent i hi]) hnext).2
  · have hset : {i | ((z.zswapNew frame).2.core i).state = .stored ∧
          ((z.zswapNew frame).2.core i).len ≠ 0} =
        {i | (z.core i).state = .stored ∧ (z.core i).len ≠ 0} := by
      ext i
      rw [hcore]
      rcases eq_or_ne i z.freeHead with rfl | hi
      · simp [hst]
      · simp [hi]
    rw [hset]
    have hnot : z.freeHead ∉ {i | (z.core i).state = .stored ∧ (z.core i).len ≠ 0} := by
      rintro ⟨h1, -⟩
      rw [hst] at h1
      cases h1
    have hmem : ∀ i ∈ {i | (z.core i).state = .stored ∧ (z.core i).len ≠ 0}, i ≠ z.freeHead := by
      rintro i hi rfl
      exact hnot hi
    refine h.lru.congr (fun i hi => by rw [hent i (hmem i hi)])
      (fun i hi => by rw [hent i (hmem i hi)]) (fun i => ?_) rfl rfl
    rcases eq_or_ne i z.freeHead with rfl | hi
    · have : (z.ent z.freeHead).inLru = false :=
        Bool.eq_false_of_not_eq_true fun ht => hnot ((h.lru.2 _).mp ht)
      rw [this]
      simp [Zs.zswapNew, Zent.zeroed]
    · rw [hent i hi]

end Tables

/-- The numbers of the first `i` entries of block `b`, less the number 0. -/
def blockNums (b i : ℕ) : Set ℕ := {j | b * eblk ≤ j ∧ j < b * eblk + i ∧ j ≠ 0}

theorem blockNums_succ (b i : ℕ) :
    blockNums b (i + 1) =
      if b * eblk + i = 0 then blockNums b i else insert (b * eblk + i) (blockNums b i) := by
  ext j
  split_ifs with h0 <;> simp only [blockNums, Set.mem_insert_iff, Set.mem_ofPred_eq] <;> omega

/-- The loop of `add_block` puts the block's entries on the free list. -/
theorem addEntries_spec (z : Zs) (b i : ℕ) {F : Set ℕ} (hF : z.FreeIs F)
    (hdis : ∀ j ∈ blockNums b i, j ∉ F) :
    (∃ ent h, z.addEntries b i = { z with ent := ent, freeHead := h }) ∧
      (z.addEntries b i).FreeIs (F ∪ blockNums b i) ∧
      (∀ j ∈ blockNums b i, ∃ fr, (z.addEntries b i).ent j = { Zent.zeroed with frame := fr }) ∧
      ∀ j, j ∉ blockNums b i → (z.addEntries b i).ent j = z.ent j := by
  induction i generalizing z F with
  | zero =>
    have hempty : blockNums b 0 = ∅ := by
      ext j
      simp only [blockNums, Set.mem_ofPred_eq, Set.mem_empty_iff_false, iff_false]
      omega
    rw [hempty, Set.union_empty]
    exact ⟨⟨z.ent, z.freeHead, rfl⟩, hF, by simp, fun j _ => rfl⟩
  | succ i ih =>
    rw [addEntries, blockNums_succ]
    rw [blockNums_succ] at hdis
    dsimp only
    split_ifs at hdis ⊢ with h0
    · exact ih z hF hdis
    · have hnew : b * eblk + i ∉ F := hdis _ (Set.mem_insert ..)
      set z₁ : Zs := { z with
        ent := update z.ent (b * eblk + i) { Zent.zeroed with frame := z.freeHead }
        freeHead := b * eblk + i } with hz₁
      have hF₁ : z₁.FreeIs (insert (b * eblk + i) F) := by
        refine hF.push hnew (fun j hj => ?_) ?_ rfl
        · have hne : j ≠ b * eblk + i := fun h => hnew (h ▸ hj)
          simp [hz₁, hne]
        · simp [hz₁]
      have hnot : b * eblk + i ∉ blockNums b i := fun h => by
        simp only [blockNums, Set.mem_ofPred_eq] at h
        omega
      obtain ⟨⟨ent, h, heq⟩, h2, h3, h4⟩ := ih z₁ hF₁ fun j hj hjF => by
        rcases Set.mem_insert_iff.mp hjF with rfl | hjF
        · exact hnot hj
        · exact hdis j (Set.mem_insert_of_mem _ hj) hjF
      refine ⟨⟨ent, h, heq⟩, ?_, fun j hj => ?_, fun j hj => ?_⟩
      · rwa [Set.insert_union, ← Set.union_insert] at h2
      · rcases Set.mem_insert_iff.mp hj with rfl | hj
        · exact ⟨z.freeHead, by rw [h4 _ hnot]; simp [hz₁]⟩
        · exact h3 j hj
      · rw [Set.mem_insert_iff, not_or] at hj
        rw [h4 j hj.2]
        simp [hz₁, hj.1]

/-- `add_block` makes free entries, and the books do not see it. -/
theorem Tables.addBlock (h : Tables z) :
    (∃ ent n hd, z.addBlock.2 = { z with ent := ent, nblk := n, freeHead := hd }) ∧
      z.addBlock.2.core = z.core ∧ Tables z.addBlock.2 := by
  unfold Zs.addBlock
  split_ifs with hn
  · exact ⟨⟨z.ent, z.nblk, z.freeHead, rfl⟩, rfl, h⟩
  have hlt : z.nblk < nblkMax := lt_of_le_of_ne h.nblk_le hn
  have hnum : ∀ j, j ∈ blockNums z.nblk eblk ↔ j ≠ 0 ∧ j / eblk = z.nblk := by
    intro j
    simp only [blockNums, Set.mem_ofPred_eq, eblk]
    omega
  have hold : ∀ j ∈ blockNums z.nblk eblk, ¬ z.Has j := by
    intro j hj hhas
    have h1 := ((hnum j).mp hj).2
    have h2 := hhas.2
    omega
  obtain ⟨⟨ent, hd, heq⟩, h2, h3, h4⟩ := addEntries_spec { z with nblk := z.nblk + 1 } z.nblk eblk
    (show FreeIs { z with nblk := z.nblk + 1 } {i | z.Has i ∧ (z.core i).state = .free} from h.free)
    fun j hj hjF => hold j hj hjF.1
  generalize addEntries { z with nblk := z.nblk + 1 } z.nblk eblk = w at heq h2 h3 h4 ⊢
  have hcore : w.core = z.core := by
    ext1 j
    by_cases hj : j ∈ blockNums z.nblk eblk
    · obtain ⟨fr, hfr⟩ := h3 j hj
      rw [h.blank j (hold j hj), core, hfr]
      rfl
    · exact congrArg Zent.core (h4 j hj)
  have hhas : ∀ j, w.Has j ↔
      z.Has j ∨ j ∈ blockNums z.nblk eblk := by
    intro j
    rw [hnum, heq]
    simp only [Has]
    omega
  refine ⟨⟨ent, z.nblk + 1, hd, heq⟩, hcore, fun j hj => ?_, ?_, ?_, ?_⟩
  · rw [hcore]
    exact h.blank j fun hz => hj ((hhas j).mpr (Or.inl hz))
  · dsimp only
    rw [heq]
    exact hlt
  · have hset : {i | w.Has i ∧
          (z.core i).state = .free} =
        {i | z.Has i ∧ (z.core i).state = .free} ∪ blockNums z.nblk eblk := by
      ext j
      simp only [Set.mem_ofPred_eq, Set.mem_union, hhas]
      constructor
      · rintro ⟨h1 | h1, h2⟩
        · exact Or.inl ⟨h1, h2⟩
        · exact Or.inr h1
      · rintro (⟨h1, h2⟩ | h1)
        · exact ⟨Or.inl h1, h2⟩
        · exact ⟨Or.inr h1, by rw [h.blank j (hold j h1)]; rfl⟩
    dsimp only
    rw [hcore, hset]
    exact h2
  · dsimp only
    rw [hcore]
    have hmem : ∀ i ∈ {i | (z.core i).state = .stored ∧ (z.core i).len ≠ 0},
        i ∉ blockNums z.nblk eblk := by
      rintro i ⟨hi, -⟩ hb
      rw [h.blank i (hold i hb)] at hi
      cases hi
    refine h.lru.congr (fun i hi => by rw [h4 i (hmem i hi)]) (fun i hi => by rw [h4 i (hmem i hi)])
      (fun i => ?_) (by rw [heq]) (by rw [heq])
    by_cases hb : i ∈ blockNums z.nblk eblk
    · obtain ⟨fr, hfr⟩ := h3 i hb
      have : (z.ent i).inLru = false :=
        Bool.eq_false_of_not_eq_true fun ht => hmem i ((h.lru.2 _).mp ht) hb
      rw [hfr, this]
      rfl
    · rw [h4 i hb]

/-- `zswap_writeback` takes the oldest entry and `n` clear sectors for it, or finds no entry or
no sectors. -/
theorem Tables.writebackTake (h : Tables z) (hns : z.nslots ≤ 2 ^ 23) (hh : z.swHint ≤ z.nslots) :
    z.writebackTake = (none, z) ∨ ∃ idx start, (z.core idx).state = .stored ∧
      (z.core idx).len ≠ 0 ∧ start + nsect (z.core idx).len ≤ z.nslots ∧
      (∀ j, start ≤ j → j < start + nsect (z.core idx).len → z.slotMap j = false) ∧
      ∃ buf z', z.writebackTake = (some (idx, start + 1, (z.core idx).len, buf), z') ∧
        Tables z' ∧ z'.core = update z.core idx ⟨(z.core idx).len, .writing, start + 1⟩ ∧
        z'.st = z.st ∧ z'.area =
          ⟨z.nslots,
            fun j => z.slotMap j || decide (start ≤ j ∧ j < start + nsect (z.core idx).len),
            z.slotsUsed + nsect (z.core idx).len, start + nsect (z.core idx).len⟩ := by
  unfold Zs.writebackTake
  dsimp only
  by_cases hne : z.lruHead = 0
  · left
    simp [hne]
  rw [if_pos hne]
  obtain ⟨hc, hlen⟩ := h.lru.head_mem hne
  generalize z.lruHead = idx at hc hlen hne
  have hhas : z.Has idx := h.has_of_ne_free (by rw [hc]; decide)
  rw [show (z.ent idx).len = (z.core idx).len from rfl]
  rcases slotGet_spec hns hh (nsect_pos (z.core idx).len) with heq | ⟨start, hle, hclear, heq⟩
  · left
    simp [heq]
  refine Or.inr ⟨idx, start, hc, hlen, hle, hclear, ?_⟩
  rw [heq, if_neg (by simp [hne])]
  dsimp only
  have ht : Tables { z with
      slotMap := fun j => z.slotMap j || decide (start ≤ j ∧ j < start + nsect (z.core idx).len)
      slotsUsed := z.slotsUsed + nsect (z.core idx).len
      swHint := start + nsect (z.core idx).len } := ⟨h.blank, h.nblk_le, h.free, h.lru⟩
  have hcore : z.core = Zs.core { z with
      slotMap := fun j => z.slotMap j || decide (start ≤ j ∧ j < start + nsect (z.core idx).len)
      slotsUsed := z.slotsUsed + nsect (z.core idx).len
      swHint := start + nsect (z.core idx).len } := rfl
  generalize hw : ({ z with
      slotMap := fun j => z.slotMap j || decide (start ≤ j ∧ j < start + nsect (z.core idx).len)
      slotsUsed := z.slotsUsed + nsect (z.core idx).len
      swHint := start + nsect (z.core idx).len } : Zs) = w at ht hcore
  have helen : ((w.lruDel idx).ent idx).len = (z.core idx).len := by
    rw [hcore]
    exact lruDel_same Zent.len (fun _ _ _ _ => rfl) idx
  have hhas' : w.Has idx := by
    rw [← hw]
    exact hhas
  have hmod : (((w.lruDel idx).modify idx fun e =>
      { e with state := .writing, slot := start + 1 }).ent idx).len = (z.core idx).len := by
    simp only [Zs.modify, setAt_self]
    exact helen
  rw [hmod]
  refine ⟨_, _, rfl, ht.delLru hhas' (fun e => ⟨rfl, rfl, rfl⟩) (by rw [← hcore, hc]; decide)
      ⟨ZState.noConfusion, ZState.noConfusion⟩, ?_, ?_, ?_⟩
  · rw [core_modify, core_lruDel, ← helen, ← hcore]
    rfl
  · exact (st_lruDel w idx).trans (by rw [← hw])
  · exact (area_lruDel w idx).trans (by rw [← hw]; rfl)

end Zs

end BananaOS.Zswap
