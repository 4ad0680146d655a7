import BananaOS.Ext4.Inodes

/-!
# Changing and storing a map

What `emap_add` makes of a list that `emap_push` built (`addMap_spec`): it is built by pushes again, so it
is `Neat`, and a load of what is stored gives the same list.

`emap_store` frees the blocks of the old tree in either case.  When it succeeds the new tree is in
blocks that were free, and nothing else is touched (`storeMap_filed`).  When it fails the root is
zeros, so that the file has no list at all (`storeMap_fails`).
-/

namespace BananaOS.Ext4

open Lib

variable {v w : Vol} {r r' : Blk} {e : List Ext} {m m' : EMap} {b : ℕ}

/-! ## Lists as `emap_push` leaves them -/

variable {mem : ℕ → Bool} {n lblk pblk len : ℕ} {unw : Bool} {x : Ext}

theorem Neat.nil : Neat n [] := ⟨List.isChain_nil, nofun⟩

theorem Ext.Fits.len_le (h : x.Fits n) : x.len ≤ extMaxLen := by
  have := h.len
  split_ifs at this <;> omega

theorem Neat.push (hm : Neat n m.e) (hn : n < 2 ^ 32) (hx : Ext.Fits ⟨lblk, pblk, len, unw⟩ n)
    (h : emapPush mem m lblk pblk len unw = some m') : Neat n m'.e := by
  obtain ⟨ht, hf⟩ := hm
  have hgrow : ∀ {y}, y.Fits n → (∀ z ∈ m.e.getLast?, ¬ z.Joins y.lblk y.pblk y.len y.unw) →
      emapGrow mem m y = some m' → Neat n m'.e := fun hy hlast h => by
    rw [emapGrow_e h]
    refine ⟨List.isChain_append.mpr ⟨ht, List.isChain_singleton _, fun z hz y' hy' => ?_⟩, ?_⟩
    · cases hy'
      exact hlast z hz
    · exact fun z hz => (List.mem_append.mp hz).elim (hf z) fun hz => List.mem_singleton.mp hz ▸ hy
  unfold emapPush at h
  split at h
  · next z hz =>
    split_ifs at h with hj
    · -- the last extent grows
      cases h
      obtain ⟨h1, h2, rfl, h4⟩ := hj
      have hze := List.dropLast_append_getLast? z hz
      have hzf := hf z (List.mem_of_getLast? hz)
      have hcap := hzf.len_le
      have hxcap := hx.len_le
      simp only at hxcap
      unfold extMaxLen at hcap hxcap
      have hsum : u32 (z.len + len) = z.len + len := u32_of_lt (by omega)
      have hpb : pblk = z.pblk + z.len := by
        rw [← h2, u32_of_lt]
        have := hzf.pend
        omega
      have hzf' : Ext.Fits { z with len := u32 (z.len + len) } n := by
        refine ⟨?_, hzf.lblk, by rwa [hsum] at h4 ⊢, ?_⟩
        · have := hzf.pos
          simp only
          omega
        · have := hx.pend
          simp only at this ⊢
          omega
      rw [← hze] at ht hf
      refine ⟨?_, fun u hu => ?_⟩
      · obtain ⟨hl, -, hjoin⟩ := List.isChain_append.mp ht
        refine List.isChain_append.mpr ⟨hl, List.isChain_singleton _, fun y hy y' hy' => ?_⟩
        cases hy'
        rintro ⟨h5, h6, h7, h8⟩
        refine hjoin y hy z rfl ⟨h5, h6, h7, ?_⟩
        have hyf := (hf y (List.mem_append_left _ (List.mem_of_getLast? hy))).len_le
        unfold extMaxLen at hyf h8 ⊢
        simp only at h8
        rw [hsum, u32_of_lt (by omega)] at h8
        rw [u32_of_lt (by omega)]
        split_ifs at h8 ⊢ <;> omega
      · rcases List.mem_append.mp hu with hu | hu
        · exact hf u (List.mem_append_left _ hu)
        · exact List.mem_singleton.mp hu ▸ hzf'
    · refine hgrow hx (fun u hu => ?_) h
      rw [hz] at hu
      cases hu
      exact hj
  · next hnone =>
    refine hgrow hx (fun u hu => ?_) h
    rw [hnone] at hu
    cases hu

theorem Neat.pushIf {c : Prop} [Decidable c] (hm : Neat n m.e) (hn : n < 2 ^ 32)
    (hx : c → Ext.Fits ⟨lblk, pblk, len, unw⟩ n)
    (h : emapPushIf mem c m lblk pblk len unw = some m') : Neat n m'.e := by
  unfold emapPushIf at h
  split_ifs at h with hc
  · exact hm.push hn (hx hc) h
  · cases h
    exact hm

theorem emapAddLoop_neat {done : Bool} (hn : n < 2 ^ 32) (he : ∀ x ∈ e, x.Fits n)
    (hx : Ext.Fits ⟨lblk, pblk, len, unw⟩ n) (hm : Neat n m.e)
    (h : emapAddLoop mem lblk pblk len unw e done m = some m') : Neat n m'.e := by
  induction e generalizing done m with
  | nil => exact hm.pushIf hn (fun _ => hx) h
  | cons x e ih =>
    rw [emapAddLoop] at h
    split at h
    · cases h
    · next m₁ h1 =>
      split at h
      · cases h
      · next m₂ h2 =>
        have hm₁ := hm.pushIf hn (fun _ => hx) h1
        have hm₂ := hm₁.push hn (he x (List.mem_cons_self ..)) h2
        exact ih (fun y hy => he y (List.mem_cons_of_mem _ hy)) hm₂ h

theorem Neat.add (hm : Neat n m.e) (hn : n < 2 ^ 32) (hx : Ext.Fits ⟨lblk, pblk, len, unw⟩ n)
    (h : emapAdd mem m lblk pblk len unw = some m') : Neat n m'.e := by
  unfold emapAdd at h
  split_ifs at h with hlast
  · exact hm.push hn hx h
  · obtain ⟨q, hq, rfl⟩ := Option.map_eq_some_iff.mp h
    exact @emapAddLoop_neat _ _ q _ _ _ _ _ _ _ hn hm.fits hx Neat.nil hq

/-! ## The list after an addition -/

theorem emapPush_tree (h : emapPush mem m lblk pblk len unw = some m') : m'.tree = m.tree := by
  unfold emapPush emapGrow at h
  simp only at h
  split at h
  · split_ifs at h <;> cases h <;> rfl
  · split_ifs at h <;> cases h <;> rfl

theorem emapAdd_tree (h : emapAdd mem m lblk pblk len unw = some m') : m'.tree = m.tree := by
  unfold emapAdd at h
  split_ifs at h with hlast
  · exact emapPush_tree h
  · obtain ⟨q, -, rfl⟩ := Option.map_eq_some_iff.mp h
    rfl

/-- What `emap_add` makes of a list with a hole for the run. -/
theorem addMap_spec (hm : Neat n m.e) (hs : Sorted m.e) (hn : n < 2 ^ 32)
    (hx : Ext.Fits ⟨lblk, pblk, len, unw⟩ n) (hend : lblk + len < 2 ^ 32)
    (hhole : ∀ l, lblk ≤ l → l < lblk + len → emapAt m.e l = none) :
    Neat n (addMap m lblk pblk len unw).e ∧ Sorted (addMap m lblk pblk len unw).e ∧
      (addMap m lblk pblk len unw).tree = m.tree ∧
      ∀ l, emapAt (addMap m lblk pblk len unw).e l =
        if lblk ≤ l ∧ l < lblk + len then some (pblk + (l - lblk), unw) else emapAt m.e l := by
  obtain ⟨m', hm'⟩ := Option.isSome_iff_exists.mp
    (emapAdd_isSome (m := m) (fun _ => rfl)
     )
  unfold addMap
  rw [hm', Option.getD_some]
  have hok : Ext.Ok ⟨lblk, pblk, len, unw⟩ := ⟨hx.pos, hend, by have := hx.pend; simp only at *; omega⟩
  obtain ⟨h1, h2⟩ := emapAdd_faithful (n := ⟨lblk, pblk, len, unw⟩) hs hok (fun l hl => hhole l hl.1 hl.2) hm'
  refine ⟨hm.add hn hx hm', h1, ?_, fun l => ?_⟩
  · exact emapAdd_tree hm'
  · rw [h2]
    simp only [emapAt, Ext.has_iff]
    split_ifs <;> rfl

/-! ## Blocks given to a file -/

/-- Free blocks given to a file where it has a hole. -/
theorem Mapped.add {t : List ℕ} {g : ℕ} (h : Mapped v m.e t) (hv : v.Ok)
    (ht : ∀ c ∈ t, v.used c = true) (hpos : 0 < len) (hlen : len ≤ extMaxLen)
    (hb : pblk + len ≤ v.nblocks) (hfree : ∀ c, pblk ≤ c → c < pblk + len → v.used c = false)
    (hend : lblk + len < 2 ^ 32) (hhole : ∀ l, lblk ≤ l → l < lblk + len → emapAt m.e l = none) :
    Mapped (v.take g pblk len) (addMap m lblk pblk len false).e t := by
  have hx : Ext.Fits ⟨lblk, pblk, len, false⟩ v.nblocks := ⟨hpos, by simp only; omega, hlen, hb⟩
  obtain ⟨h1, h2, -, h3⟩ := addMap_spec h.neat h.sorted hv.small hx hend hhole
  -- a block that the file had was in use
  have hold : ∀ {l c u}, emapAt m.e l = some (c, u) → ¬ (pblk ≤ c ∧ c < pblk + len) := fun hl hc => by
    have := (h.used _ _ _ hl).2.1
    rw [hfree _ hc.1 hc.2] at this
    cases this
  refine ⟨h1, h2, fun l c u hl => ?_, fun l l' c u u' hl hl' => ?_⟩
  · rw [h3] at hl
    split_ifs at hl with hin
    · cases hl
      have hf := hfree (pblk + (l - lblk)) (by omega) (by omega)
      refine ⟨fun h0 => ?_, (Vol.take_used _).mpr (.inr (by omega)), fun hct => ?_⟩
      · rw [h0, hv.zero] at hf
        cases hf
      · rw [ht _ hct] at hf
        cases hf
    · obtain ⟨h4, h5, h6⟩ := h.used l c u hl
      exact ⟨h4, (Vol.take_used c).mpr (.inl h5), h6⟩
  · rw [h3] at hl hl'
    split_ifs at hl hl' with hin hin' hin'
    · simp only [Option.some.injEq, Prod.mk.injEq] at hl hl'
      omega
    · simp only [Option.some.injEq, Prod.mk.injEq] at hl
      exact absurd (by omega) (hold hl')
    · simp only [Option.some.injEq, Prod.mk.injEq] at hl'
      exact absurd (by omega) (hold hl)
    · exact h.inj l l' c u u' hl hl'

/-! ## Storing a list -/

variable {goal want : ℕ}

theorem whole_all {n k : ℕ} : Whole StoreEnv.all goal n k v := by
  induction n generalizing k v with
  | zero => trivial
  | succ n ih => exact ⟨rfl, ih⟩

theorem bfree_all {had : ℕ → Bool} (hhad : ∀ g, had g = true) {c : ℕ} (hc : c + 1 < 2 ^ 32) :
    (v.bfree had c 1).used b = true ↔ v.used b = true ∧ b ≠ c := by
  rw [Vol.bfree_used hhad hc]
  simp only
  split_ifs with h
  · exact iff_of_false (by simp) fun hh => by omega
  · rw [and_iff_left (by omega)]

/-- What a `bfree` of each block of a list does, when each can be had. -/
theorem freeEach_all {l : List ℕ} {j : ℕ} (hl : ∀ c ∈ l, c + 1 < 2 ^ 32) :
    (freeEach (fun _ _ => true) j l v).used b = true ↔ v.used b = true ∧ b ∉ l := by
  induction l generalizing j v with
  | nil => simp [freeEach]
  | cons c l ih =>
    rw [freeEach, ih fun d hd => hl d (List.mem_cons_of_mem _ hd),
      bfree_all (fun _ => rfl) (hl c (List.mem_cons_self ..)), List.mem_cons, not_or, and_assoc]

/-- A list that was stored is no longer than three levels hold. -/
theorem storeBody_short {env : StoreEnv} (h : storeBody env r m v = (true, r', m', w)) :
    m.e.length ≤ 4 * leafMax * leafMax := by
  unfold storeBody at h
  unfold leafMax
  by_cases h4 : m.e.length ≤ 4
  · omega
  · rw [if_neg h4] at h
    simp only at h
    by_cases hbad : nidxOf (nleafOf m.e.length) > 4 ∨ env.kmalloc = false
    · rw [if_pos hbad] at h
      cases h
    · rw [not_or] at hbad
      have := hbad.1
      unfold nidxOf nleafOf leafMax at this
      split_ifs at this <;> omega

/-- **A store that succeeds**: the list is there, in a tree of free blocks; the old tree is free, and
nothing else is touched. -/
theorem storeMap_filed (h : storeMap r m v = (true, r', m', w)) (hv : v.Ok) (hm : Mapped v m.e m.tree)
    (hold : ∀ b ∈ m.tree, b < v.nblocks ∧ v.used b = true) (hflag : g32 r 0x20 &&& extentsFl ≠ 0) :
    ∃ t, Filed w r' m.e t ∧ w.nblocks = v.nblocks ∧ (∀ b ∈ t, b ≠ 0 ∧ v.used b = false) ∧
      (∀ b, w.used b = true ↔ v.used b = true ∧ b ∉ m.tree ∨ b ∈ t) ∧
      (∀ b, b ∉ t → b ∉ m.tree → w.data b = v.data b) ∧
      ∀ i, i < 0x28 ∨ 0x64 ≤ i → (i < 0x1C ∨ 0x20 ≤ i) → (i < 0x74 ∨ 0x76 ≤ i) → r' i = r i := by
  obtain ⟨r₁, w₁, hbody, rfl, rfl⟩ := emapStore_eq h
  obtain ⟨leaf, -, htaken, hwhole, -, -, hr, hdata, -, hholds⟩ :=
    storeBody_spec hbody ⟨hm.sorted.disjoint, hm.neat.tight, hm.neat.fits, storeBody_short hbody⟩
      hv.pos hv.small hv.zero rfl rfl
  have h0 : 0 ∉ leaf := hwhole.mpr whole_all
  obtain ⟨d, t, hh, ht⟩ := hholds h0
  have hold' : ∀ b ∈ m.tree, b + 1 < 2 ^ 32 := fun b hb => by
    have := (hold b hb).1
    have := hv.small
    omega
  have hnew : ∀ b ∈ t, b ≠ 0 ∧ b < v.nblocks ∧ v.used b = false := fun b hb => by
    have hb' := ht.mem_iff.mp hb
    have hb0 : b ≠ 0 := fun hb0 => h0 (hb0 ▸ hb')
    exact ⟨hb0, htaken.free b hb' hb0⟩
  -- no block of the new tree is one of the old tree
  have hapart : ∀ b ∈ t, b ∉ m.tree := fun b hb hbt => by
    have := (hnew b hb).2.2
    rw [(hold b hbt).2] at this
    cases this
  have hn : (freeEach StoreEnv.all.old 0 m.tree w₁).nblocks = v.nblocks :=
    freeEach_nblocks.trans htaken.nblocks
  have hused : ∀ b, (freeEach StoreEnv.all.old 0 m.tree w₁).used b = true ↔
      v.used b = true ∧ b ∉ m.tree ∨ b ∈ t := fun b => by
    rw [show StoreEnv.all.old = fun _ _ => true from rfl, freeEach_all hold', ht.mem_iff,
      show w₁.used b = true ↔ _ from htaken.used b]
    refine ⟨fun ⟨h1, h2⟩ => h1.imp (fun h => ⟨h, h2⟩) id, ?_⟩
    rintro (⟨h1, h2⟩ | h1)
    · exact ⟨.inl h1, h2⟩
    · exact ⟨.inr h1, hapart b (ht.mem_iff.mpr h1)⟩
  generalize hcnt : ((m.e.map Ext.len).sum + m'.tree.length) * spb = cnt
  have hroot : ∀ i, (i < 0x1C ∨ 0x20 ≤ i) ∧ (i < 0x74 ∨ 0x76 ≤ i) → setBlocks r₁ cnt i = r₁ i :=
    fun i hi => setBlocks_apart hi
  have hout : ∀ i, i < 0x28 ∨ 0x64 ≤ i → (i < 0x1C ∨ 0x20 ≤ i) → (i < 0x74 ∨ 0x76 ≤ i) →
      setBlocks r₁ cnt i = r i := fun i h1 h2 h3 => by
    rw [hroot i ⟨h2, h3⟩, hr i (by unfold rootAt; omega), blit_of_notMem (by unfold rootAt; omega)]
  have hmapped : Mapped (freeEach StoreEnv.all.old 0 m.tree w₁) m.e t := by
    refine ⟨hn.symm ▸ hm.neat, hm.sorted, fun l b u hb => ?_, hm.inj⟩
    obtain ⟨h1, h2, h3⟩ := hm.used l b u hb
    refine ⟨h1, (hused b).mpr (.inl ⟨h2, h3⟩), fun hbt => ?_⟩
    rw [(hnew b hbt).2.2] at h2
    cases h2
  refine ⟨t, ⟨hmapped, ?_, ⟨d, hh.congr freeEach_nblocks (fun i h1 h2 => ?_) fun b hb => ?_⟩,
    fun b hb => ?_⟩, hn, fun b hb => ⟨(hnew b hb).1, (hnew b hb).2.2⟩, hused, fun b h1 h2 => ?_, hout⟩
  · rw [g32_congr fun i h1 h2 => hout i (by omega) (by omega) (by omega)]
    exact hflag
  · exact (hroot i (by unfold rootAt at h1 h2; omega)).symm
  · exact (freeEach_apart hold' (hapart b hb)).2
  · exact ⟨(hnew b hb).1, hn ▸ (hnew b hb).2.1, (hused b).mpr (.inr hb)⟩
  · rw [(freeEach_apart hold' h2).2, hdata b fun hb => h1 (ht.mem_iff.mpr hb)]

/-- What `balloc` gives when it gives nothing. -/
theorem Vol.give_none (hv : 0 < v.nblocks) (hw : 0 < want) (h : (v.give goal want).1.2 = 0) :
    (v.give goal want) = ((0, 0), v) ∧
      ∀ g < v.groups, v.free g = 0 ∨ ∀ i < v.gblocks g, v.used (g * bpg + i) = true := by
  have hcases := @Vol.balloc_cases (fun _ => true) _ _ goal 0 hw hv
  unfold give at *
  generalize v.balloc (fun _ => true) 0 goal want = a at *
  cases hcases with
  | full hfull => exact ⟨rfl, hfull⟩
  | cut hcut => cases hcut
  | given hr => exact absurd h (by simp only; omega)

/-- What `balloc` gives. -/
theorem Vol.give_some (hv : 0 < v.nblocks) (hw : 0 < want) (h : (v.give goal want).1.2 ≠ 0) :
    ∃ b n, v.give goal want = ((b, n), v.take (b / bpg) b n) ∧ 0 < n ∧ n ≤ want ∧ b + n ≤ v.nblocks ∧
      b % bpg + n ≤ bpg ∧ ∀ c, b ≤ c → c < b + n → v.used c = false := by
  have hcases := @Vol.balloc_cases (fun _ => true) _ _ goal 0 hw hv
  unfold give at *
  generalize v.balloc (fun _ => true) 0 goal want = a at *
  cases hcases with
  | full hfull => exact absurd rfl h
  | cut hcut => cases hcut
  | given hr hw hb hg hclear => exact ⟨_, _, rfl, hr, hw, hb, hg, hclear⟩

/-- When the blocks for the tree are not to be had, those taken are given back. -/
theorem takeTree_none {n : ℕ} {leaf : List ℕ} {v₀ : Vol} {m : EMap}
    (h : takeTree StoreEnv.all goal n leaf m v = (none, m', w)) (hv : v₀.Ok) (ht : Taken v₀ leaf v)
    (h0 : 0 ∉ leaf) :
    w.nblocks = v₀.nblocks ∧ (∀ b, w.used b = true ↔ v₀.used b = true) ∧
      ∀ b, v₀.used b = true → w.data b = v₀.data b := by
  have hz : v.used 0 = true := (ht.used 0).mpr (.inl hv.zero)
  have hpos : 0 < v.nblocks := by
    rw [ht.nblocks]
    exact hv.pos
  induction n generalizing leaf m v with
  | zero => cases h
  | succ n ih =>
    rw [takeTree] at h
    simp only at h
    by_cases hgot : (v.give goal 1).1.2 = 0
    · rw [show (v.balloc (StoreEnv.all.had leaf.length) (StoreEnv.all.junk leaf.length) goal 1) =
        v.give goal 1 from rfl, if_pos hgot, (Vol.give_none hpos (by decide) hgot).1] at h
      simp only [Prod.mk.injEq, true_and] at h
      obtain ⟨-, rfl⟩ := h
      have hfree : ∀ b ∈ leaf, b < v₀.nblocks ∧ v₀.used b = false := fun b hb =>
        ht.free b hb fun hb0 => h0 (hb0 ▸ hb)
      have hlt : ∀ b ∈ leaf, b + 1 < 2 ^ 32 := fun b hb => by
        have := (hfree b hb).1
        have := hv.small
        omega
      refine ⟨freeEach_nblocks.trans ht.nblocks, fun b => ?_, fun b hb => ?_⟩
      · rw [show StoreEnv.all.undo = fun _ _ => true from rfl, freeEach_all hlt, ht.used]
        refine ⟨fun h1 => h1.1.resolve_right h1.2, fun h1 => ⟨.inl h1, fun h2 => ?_⟩⟩
        rw [(hfree b h2).2] at h1
        cases h1
      · have hbl : b ∉ leaf := fun h2 => by
          rw [(hfree b h2).2] at hb
          cases hb
        rw [(freeEach_apart hlt hbl).2, ht.data]
    · rw [show (v.balloc (StoreEnv.all.had leaf.length) (StoreEnv.all.junk leaf.length) goal 1) =
        v.give goal 1 from rfl, if_neg hgot] at h
      obtain ⟨h1, h2, h3, h4, h5⟩ := Vol.balloc_one hpos hz hgot
      have hb0 : (v.give goal 1).1.1 ≠ 0 := h5.mpr rfl
      refine ih h (ht.snoc h1 h2 h3 h4) ?_ ((h2 0).mpr (.inl hz)) (hpos.trans_eq h4.symm)
      rw [List.mem_append, List.mem_singleton, not_or]
      exact ⟨h0, Ne.symm hb0⟩

theorem storeNodes_all {fill : ℕ → Blk} {l : List ℕ} {k : ℕ} :
    (storeNodes (fun _ => true) fill k l v).1 = true := by
  induction l generalizing k v with
  | nil => rfl
  | cons b l ih =>
    rw [storeNodes, if_pos rfl]
    exact ih

/-- **A store that fails**: there is no list any more, and the old tree is free all the same. -/
theorem storeMap_fails (h : storeMap r m v = (false, r', m', w)) (hv : v.Ok)
    (hold : ∀ b ∈ m.tree, b < v.nblocks ∧ v.used b = true) :
    g16 r' rootAt = 0 ∧ w.nblocks = v.nblocks ∧
      (∀ b, w.used b = true ↔ v.used b = true ∧ b ∉ m.tree) ∧
      (∀ b, v.used b = true → b ∉ m.tree → w.data b = v.data b) ∧
      ∀ i, i < 0x28 ∨ 0x64 ≤ i → (i < 0x1C ∨ 0x20 ≤ i) → (i < 0x74 ∨ 0x76 ≤ i) → r' i = r i := by
  have hold' : ∀ b ∈ m.tree, b + 1 < 2 ^ 32 := fun b hb => by
    have := (hold b hb).1
    have := hv.small
    omega
  unfold storeMap emapStore at h
  cases hb : storeBody StoreEnv.all (blit r rootAt zeros 0 60) { m with tree := [], tcap := 0 } v with
  | mk rc rest =>
    obtain ⟨r₁, m₁, w₁⟩ := rest
    rw [hb] at h
    simp only [Prod.mk.injEq] at h
    obtain ⟨rfl, rfl, -, rfl⟩ := h
    -- the root was zeroed, and the volume is as it was
    have hbody : r₁ = blit r rootAt zeros 0 60 ∧ w₁.nblocks = v.nblocks ∧
        (∀ b, w₁.used b = true ↔ v.used b = true) ∧ ∀ b, v.used b = true → w₁.data b = v.data b := by
      unfold storeBody at hb
      simp only at hb
      split_ifs at hb with h4 h5
      · simp at hb
      · simp only [Prod.mk.injEq, true_and] at hb
        obtain ⟨rfl, -, rfl⟩ := hb
        exact ⟨rfl, rfl, fun _ => Iff.rfl, fun _ _ => rfl⟩
      · split at hb
        · next m₂ w₂ htake =>
          simp only [Prod.mk.injEq, true_and] at hb
          obtain ⟨rfl, -, rfl⟩ := hb
          exact ⟨rfl, takeTree_none htake hv (Taken.nil v) (by simp)⟩
        · next leaf m₂ w₂ htake =>
          exfalso
          simp only [Prod.mk.injEq] at hb
          obtain ⟨hb, -⟩ := hb
          unfold storeTree at hb
          simp only [show StoreEnv.all.node = fun _ => true from rfl] at hb
          split_ifs at hb
          · rw [storeNodes_all] at hb
            cases hb
          · simp only [storeNodes_all, Bool.and_self] at hb
            cases hb
    obtain ⟨rfl, hn, hused, hdata⟩ := hbody
    generalize ((m.e.map Ext.len).sum + m₁.tree.length) * spb = cnt
    refine ⟨?_, freeEach_nblocks.trans hn, fun b => ?_, fun b h1 h2 => ?_, fun i h1 h2 h3 => ?_⟩
    · have hzero : ∀ i, rootAt ≤ i → i < rootAt + 2 →
          setBlocks (blit r rootAt zeros 0 60) cnt i = zeros i := fun i h1 h2 => by
        rw [setBlocks_apart (by unfold rootAt at *; omega), blit, if_pos (by omega)]
        rfl
      rw [g16_congr hzero]
      rfl
    · rw [show StoreEnv.all.old = fun _ _ => true from rfl, freeEach_all hold', hused]
    · rw [(freeEach_apart hold' h2).2, hdata b h1]
    · rw [setBlocks_apart ⟨h2, h3⟩, blit_of_notMem (by unfold rootAt; omega)]

end BananaOS.Ext4
