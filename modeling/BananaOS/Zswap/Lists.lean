import BananaOS.Lib.Links
import BananaOS.Zswap.Entries
import Mathlib.Order.BooleanAlgebra.Set

/-!
# The lists of the swap table

What the primitive operations of `Zswap.Entries` do to the two lists that are threaded through
the entries and to the map of the swap area.

* `FreeIs s F`: the free list spells the set `F`.
* `LruIs s M`: the list of what can go to the disk spells `M`, and `in_lru` marks its elements.
* `lruAdd_same`, `lruDel_same`: the list operations change links only.
* `slotGet_spec`: a slot that is found is a run of clear sectors of the area.
-/

namespace BananaOS.Zswap

open Lib Function

section SetAt

variable {ent : ℕ → Zent} {i : ℕ} {f : Zent → Zent}

@[simp] theorem setAt_self : setAt ent i f i = f (ent i) := update_self ..

@[simp] theorem setAt_of_ne {j : ℕ} (h : j ≠ i) : setAt ent i f j = ent j := update_of_ne h ..

theorem setAt_same {β : Type*} (g : Zent → β) (h : ∀ e, g (f e) = g e) (j : ℕ) :
    g (setAt ent i f j) = g (ent j) := by
  rcases eq_or_ne j i with rfl | hj
  · rw [setAt_self, h]
  · rw [setAt_of_ne hj]

end SetAt

namespace Zs

/-- The free list holds the elements of `F`, once each. -/
def FreeIs (s : Zs) (F : Set ℕ) : Prop :=
  ∃ L : List ℕ, Path (fun i => (s.ent i).frame) s.freeHead L 0 ∧ L.Nodup ∧ ∀ i, i ∈ L ↔ i ∈ F

/-- The list of what can go to the disk holds the elements of `M`, once each. -/
def LruIs (s : Zs) (M : Set ℕ) : Prop :=
  (∃ L : List ℕ, Seg (fun i => (s.ent i).next) (fun i => (s.ent i).prev) 0 L 0 s.lruHead s.lruTail ∧
    L.Nodup ∧ ∀ i, i ∈ L ↔ i ∈ M) ∧
  ∀ i, (s.ent i).inLru = true ↔ i ∈ M

variable {s s' : Zs} {F M : Set ℕ} {idx : ℕ}

/-! ## The free list -/

theorem FreeIs.congr (h : FreeIs s F) (hf : ∀ i ∈ F, (s'.ent i).frame = (s.ent i).frame)
    (hh : s'.freeHead = s.freeHead) : FreeIs s' F := by
  obtain ⟨L, hp, hnd, hL⟩ := h
  refine ⟨L, ?_, hnd, hL⟩
  rw [hh]
  exact hp.congr fun i hi => hf i ((hL i).mp hi)

theorem FreeIs.push (h : FreeIs s F) (hidx : idx ∉ F)
    (hf : ∀ i ∈ F, (s'.ent i).frame = (s.ent i).frame) (hx : (s'.ent idx).frame = s.freeHead)
    (hh : s'.freeHead = idx) : FreeIs s' (insert idx F) := by
  obtain ⟨L, hp, hnd, hL⟩ := h
  have hidxL : idx ∉ L := fun hi => hidx ((hL idx).mp hi)
  refine ⟨idx :: L, ?_, List.nodup_cons.mpr ⟨hidxL, hnd⟩, fun i => ?_⟩
  · rw [hh]
    exact hp.push hx fun i hi => hf i ((hL i).mp hi)
  · rw [List.mem_cons, hL, Set.mem_insert_iff]

/-- The first entry leaves a free list that has one. -/
theorem FreeIs.pop (h : FreeIs s F) (hne : s.freeHead ≠ 0)
    (hf : ∀ i ∈ F, i ≠ s.freeHead → (s'.ent i).frame = (s.ent i).frame)
    (hh : s'.freeHead = (s.ent s.freeHead).frame) :
    s.freeHead ∈ F ∧ FreeIs s' (F \ {s.freeHead}) := by
  obtain ⟨L, hp, hnd, hL⟩ := h
  obtain ⟨l, rfl, hp'⟩ := hp.uncons hne
  obtain ⟨hnot, hnd'⟩ := List.nodup_cons.mp hnd
  refine ⟨(hL _).mp (List.mem_cons_self ..), l, ?_, hnd', fun i => ?_⟩
  · rw [hh]
    exact hp'.congr fun i hi => hf i ((hL i).mp (List.mem_cons_of_mem _ hi))
      fun he => hnot (he ▸ hi)
  · rw [Set.mem_sdiff, ← hL, List.mem_cons, Set.mem_singleton_iff]
    constructor
    · intro hi
      exact ⟨Or.inr hi, fun he => hnot (he ▸ hi)⟩
    · rintro ⟨rfl | hi, hne⟩
      · exact absurd rfl hne
      · exact hi

theorem FreeIs.head_mem (h : FreeIs s F) (hne : s.freeHead ≠ 0) : s.freeHead ∈ F := by
  obtain ⟨L, hp, -, hL⟩ := h
  obtain ⟨l, rfl, -⟩ := hp.uncons hne
  exact (hL _).mp (List.mem_cons_self ..)

theorem FreeIs.next_mem (h : FreeIs s F) (hne : s.freeHead ≠ 0) :
    (s.ent s.freeHead).frame = 0 ∨ (s.ent s.freeHead).frame ∈ F := by
  obtain ⟨L, hp, -, hL⟩ := h
  obtain ⟨l, rfl, hp'⟩ := hp.uncons hne
  cases l with
  | nil => exact Or.inl hp'
  | cons x l =>
    refine Or.inr ((hL _).mp ?_)
    rw [hp'.1]
    exact List.mem_cons_of_mem _ (List.mem_cons_self ..)

/-! ## The list of what can go to the disk -/

theorem LruIs.congr (h : LruIs s M) (hn : ∀ i ∈ M, (s'.ent i).next = (s.ent i).next)
    (hp : ∀ i ∈ M, (s'.ent i).prev = (s.ent i).prev)
    (hin : ∀ i, (s'.ent i).inLru = (s.ent i).inLru)
    (hh : s'.lruHead = s.lruHead) (ht : s'.lruTail = s.lruTail) : LruIs s' M := by
  obtain ⟨⟨L, hs, hnd, hL⟩, hmark⟩ := h
  refine ⟨⟨L, ?_, hnd, hL⟩, fun i => by rw [hin, hmark]⟩
  rw [hh, ht]
  exact hs.congr (fun i hi => hn i ((hL i).mp hi)) fun i hi => hp i ((hL i).mp hi)

theorem LruIs.head_mem (h : LruIs s M) (hne : s.lruHead ≠ 0) : s.lruHead ∈ M := by
  obtain ⟨⟨L, hs, -, hL⟩, -⟩ := h
  have hLne : L ≠ [] := by
    rintro rfl
    exact hne hs.1
  exact (hL _).mp (hs.mem hLne).1

theorem lruAdd_spec (h : LruIs s M) (h0 : 0 ∉ M) (hidx : idx ∉ M) (hne : idx ≠ 0) :
    LruIs (s.lruAdd idx) (insert idx M) := by
  obtain ⟨⟨L, hs, hnd, hL⟩, hmark⟩ := h
  have hidxL : idx ∉ L := fun hi => hidx ((hL idx).mp hi)
  have h0L : 0 ∉ L := fun hi => h0 ((hL 0).mp hi)
  have htail : idx ≠ s.lruTail := by
    intro ht
    rcases eq_or_ne L [] with rfl | hLne
    · exact hne (ht.trans hs.2)
    · exact hidxL (ht ▸ (hs.mem hLne).2)
  refine ⟨⟨L ++ [idx], ?_, ?_, fun i => ?_⟩, fun i => ?_⟩
  · refine hs.pushBack hnd h0L ?_ ?_ ?_ ?_ ?_
    · intro y hy hyt
      have hyi : y ≠ idx := fun he => hidxL (he ▸ hy)
      simp only [lruAdd]
      split_ifs <;> simp [hyi, hyt]
    · intro ht
      simp [lruAdd, ht, htail.symm]
    · simp only [lruAdd]
      split_ifs <;> simp [htail]
    · intro y hy
      have hyi : y ≠ idx := fun he => hidxL (he ▸ hy)
      simp only [lruAdd]
      rw [setAt_of_ne hyi]
      split_ifs
      · rw [setAt_same Zent.prev (by intro; rfl), setAt_of_ne hyi]
      · rw [setAt_of_ne hyi]
    · simp only [lruAdd]
      split_ifs <;> simp [htail]
  · exact List.nodup_append.mpr ⟨hnd, List.nodup_singleton _, fun a ha b hb hab => by
      rw [List.mem_singleton] at hb
      exact hidxL (hb ▸ hab ▸ ha)⟩
  · rw [List.mem_append, List.mem_singleton, hL, Set.mem_insert_iff, or_comm]
  · rw [Set.mem_insert_iff, ← hmark]
    simp only [lruAdd]
    rcases eq_or_ne i idx with rfl | hi
    · simp
    · rw [setAt_of_ne hi]
      split_ifs
      · rw [setAt_same Zent.inLru (by intro; rfl), setAt_of_ne hi]
        simp [hi]
      · rw [setAt_of_ne hi]
        simp [hi]

section Same

variable {β : Type*} (g : Zent → β)
  (hg : ∀ (e : Zent) (p n : ℕ) (b : Bool), g { e with prev := p, next := n, inLru := b } = g e)

include hg

theorem lruAdd_same (i : ℕ) : g ((s.lruAdd idx).ent i) = g (s.ent i) := by
  simp only [lruAdd]
  rw [setAt_same g (by intro e; exact hg e _ _ _)]
  split_ifs
  · rw [setAt_same g (by intro e; exact hg e _ _ _), setAt_same g (by intro e; exact hg e _ _ _)]
  · rw [setAt_same g (by intro e; exact hg e _ _ _)]

/-- `lru_del` changes links only. -/
theorem lruDel_same (i : ℕ) : g ((s.lruDel idx).ent i) = g (s.ent i) := by
  simp only [lruDel]
  split_ifs with hin
  · rfl
  · dsimp only
    rw [setAt_same g (by intro e; exact hg e _ _ _), setAt_same g (by intro e; exact hg e _ _ _),
      setAt_same g (by intro e; exact hg e _ _ _)]
  · dsimp only
    rw [setAt_same g (by intro e; exact hg e _ _ _), setAt_same g (by intro e; exact hg e _ _ _)]
  · dsimp only
    rw [setAt_same g (by intro e; exact hg e _ _ _), setAt_same g (by intro e; exact hg e _ _ _)]
  · dsimp only
    rw [setAt_same g (by intro e; exact hg e _ _ _)]

end Same

theorem lruDel_of_not (h : (s.ent idx).inLru = false) : s.lruDel idx = s := if_pos h

theorem lruDel_spec (h : LruIs s M) (h0 : 0 ∉ M) : LruIs (s.lruDel idx) (M \ {idx}) := by
  by_cases hin : (s.ent idx).inLru = false
  · have hidx : idx ∉ M := fun hi => by simp [(h.2 idx).mpr hi] at hin
    rw [lruDel_of_not hin, Set.sdiff_singleton_eq_self hidx]
    exact h
  obtain ⟨⟨L, hs, hnd, hL⟩, hmark⟩ := h
  have hidxL : idx ∈ L := (hL idx).mpr ((hmark idx).mp (Bool.eq_true_of_not_eq_false hin))
  have h0L : 0 ∉ L := fun hi => h0 ((hL 0).mp hi)
  obtain ⟨hpne, hnne⟩ := hs.link_ne hnd h0L h0L hidxL
  simp only [lruDel, if_neg hin]
  refine ⟨⟨L.erase idx, ?_, hnd.erase idx, fun i => ?_⟩, fun i => ?_⟩
  · refine hs.unlink hnd h0L hidxL ?_ ?_ ?_ ?_
    · intro y _ hyx hya
      dsimp only
      rw [setAt_of_ne hyx]
      split_ifs
      · rw [setAt_same Zent.next (by intro; rfl), setAt_of_ne hya]
      · rw [setAt_same Zent.next (by intro; rfl)]
      · rw [setAt_of_ne hya]
      · rfl
    · intro ha
      dsimp only
      rw [setAt_of_ne hpne, if_pos ha]
      split_ifs
      · rw [setAt_same Zent.next (by intro; rfl), setAt_self]
      · rw [setAt_self]
    · intro y _ hyx hyb
      dsimp only
      rw [setAt_of_ne hyx]
      split_ifs
      · rw [setAt_of_ne hyb, setAt_same Zent.prev (by intro; rfl)]
      · rw [setAt_of_ne hyb]
      · rw [setAt_same Zent.prev (by intro; rfl)]
      · rfl
    · intro hb
      dsimp only
      rw [setAt_of_ne hnne, if_pos hb, setAt_self]
  · rw [hnd.mem_erase_iff, hL, Set.mem_sdiff, Set.mem_singleton_iff, and_comm]
  · rw [Set.mem_sdiff, Set.mem_singleton_iff, ← hmark]
    rcases eq_or_ne i idx with rfl | hi
    · simp
    · dsimp only
      rw [setAt_of_ne hi]
      simp only [hi, not_false_eq_true, and_true]
      split_ifs
      · rw [setAt_same Zent.inLru (by intro; rfl), setAt_same Zent.inLru (by intro; rfl)]
      · rw [setAt_same Zent.inLru (by intro; rfl)]
      · rw [setAt_same Zent.inLru (by intro; rfl)]
      · rfl

/-! ## The map of the swap area -/

/-- The sectors `[start, start + run)` are clear and end where the search is, `i`. -/
structure ClearRun (map : ℕ → Bool) (total i start run : ℕ) : Prop where
  le : start + run ≤ total
  place : (start + run) % total = i % total
  clear : ∀ j, start ≤ j → j < start + run → map j = false

/-- One more clear sector. -/
theorem ClearRun.extend {map : ℕ → Bool} {total i start run : ℕ} (ht : 0 < total)
    (h : (if i % total = 0 then 0 else run) ≠ 0 → ClearRun map total i start run)
    (hi : map (i % total) = false) :
    ClearRun map total (i + 1)
      (if (if i % total = 0 then 0 else run) = 0 then i % total else start)
      ((if i % total = 0 then 0 else run) + 1) := by
  have hlt := Nat.mod_lt i ht
  have hnext : (i % total + 1) % total = (i + 1) % total := Nat.mod_add_mod i total 1
  by_cases hr : (if i % total = 0 then 0 else run) = 0
  · rw [if_pos hr, hr]
    refine ⟨hlt, hnext, fun j h1 h2 => ?_⟩
    rwa [show j = i % total by omega]
  · have hrun := h hr
    rw [if_neg hr]
    have hi0 : i % total ≠ 0 := fun h0 => hr (if_pos h0)
    rw [if_neg hi0]
    -- the run has not reached the end of the area, where the place would be 0
    have hend : start + run ≠ total := by
      intro he
      have := hrun.place
      rw [he, Nat.mod_self] at this
      exact hi0 this.symm
    have hle := hrun.le
    have hplace : start + run = i % total := by
      rw [← hrun.place, Nat.mod_eq_of_lt (by omega)]
    refine ⟨by omega, by rw [← Nat.add_assoc, hplace, hnext], fun j h1 h2 => ?_⟩
    rcases eq_or_ne j (i % total) with rfl | hj
    · exact hi
    · exact hrun.clear j h1 (by omega)

/-- What `slot_get` finds is a run of `n` clear sectors of the area. -/
theorem slotSearch_spec {map : ℕ → Bool} {total hint n k run start st : ℕ} (hn : 0 < n)
    (hnt : n ≤ total) (ht : total ≤ 2 ^ 23) (hh : hint ≤ total) (hrun : run < n)
    (hinv : run ≠ 0 → ClearRun map total (hint + k) start run)
    (h : slotSearch map total hint n k run start = some st) :
    st + n ≤ total ∧ ∀ j, st ≤ j → j < st + n → map j = false := by
  have h32 : u32 (total + n) = total + n := Nat.mod_eq_of_lt (by omega)
  have next : ∀ k run start, k < u32 (total + n) → run < n →
      (run ≠ 0 → ClearRun map total (hint + k) start run) →
      ¬ map (u32 (hint + k) % total) = true →
      ClearRun map total (hint + (k + 1))
        (if (if u32 (hint + k) % total = 0 then 0 else run) = 0 then u32 (hint + k) % total
          else start)
        ((if u32 (hint + k) % total = 0 then 0 else run) + 1) := by
    intro k run start hk hr hinv hmap
    have hi : u32 (hint + k) = hint + k := Nat.mod_eq_of_lt (by omega)
    rw [hi] at hmap ⊢
    refine ClearRun.extend (by omega) (fun h0 => hinv ?_) (Bool.eq_false_of_not_eq_true hmap)
    rintro rfl
    simp at h0
  fun_induction slotSearch map total hint n k run start with
  | case1 k run start hk i hfull ih => exact ih hn (by simp) h
  | case2 k run start hk i hfull hmap ih => exact ih hn (by simp) h
  | case3 k run start hk i run' hfull hmap start' hlt ih =>
    exact ih hlt (fun _ => next k run start hk hrun hinv hmap) h
  | case4 k run start hk i run' hfull hmap start' hlt =>
    have hst : start' = st := Option.some.inj h
    have hc := next k run start hk hrun hinv hmap
    have hr' : run' + 1 = n := by
      have : run' ≤ run := by
        simp only [run']
        split_ifs <;> omega
      omega
    have hle := hc.le
    have hcl := hc.clear
    change start' + (run' + 1) ≤ total at hle
    change ∀ j, start' ≤ j → j < start' + (run' + 1) → map j = false at hcl
    rw [hr', hst] at hle hcl
    exact ⟨hle, hcl⟩
  | case5 => cases h

theorem nsect_pos (len : ℕ) : 0 < nsect len := by
  unfold nsect
  split_ifs <;> omega

/-- `slot_get`: either nothing was found and nothing changed, or `n` clear sectors are taken. -/
theorem slotGet_spec (hns : s.nslots ≤ 2 ^ 23) (hh : s.swHint ≤ s.nslots) {n : ℕ} (hn : 0 < n) :
    s.slotGet n = (0, s) ∨ ∃ start, start + n ≤ s.nslots ∧
      (∀ j, start ≤ j → j < start + n → s.slotMap j = false) ∧
      s.slotGet n = (start + 1, { s with
        slotMap := fun j => s.slotMap j || decide (start ≤ j ∧ j < start + n)
        slotsUsed := s.slotsUsed + n
        swHint := start + n }) := by
  unfold slotGet
  split_ifs with h1
  · exact Or.inl rfl
  · push Not at h1
    split
    next => exact Or.inl rfl
    next start hs =>
      obtain ⟨h2, h3⟩ := slotSearch_spec hn h1.2 hns hh hn (by simp) hs
      exact Or.inr ⟨start, h2, h3, rfl⟩

/-- `slot_put` of a run that is taken. -/
theorem slotPut_eq {slot n : ℕ} (h0 : slot ≠ 0) (hle : slot - 1 + n ≤ s.nslots)
    (hset : ∀ j, slot - 1 ≤ j → j < slot - 1 + n → s.slotMap j = true) :
    s.slotPut slot n = { s with
      slotMap := fun j => s.slotMap j && !decide (slot - 1 ≤ j ∧ j < slot - 1 + n)
      slotsUsed := s.slotsUsed - n } := by
  have hall : (List.range n).filter (fun j => s.slotMap (slot - 1 + j)) = List.range n := by
    refine List.filter_eq_self.mpr fun j hj => hset _ (by omega) ?_
    have := List.mem_range.mp hj
    omega
  unfold slotPut
  rw [if_neg (by omega), hall, List.length_range]

end Zs

end BananaOS.Zswap
