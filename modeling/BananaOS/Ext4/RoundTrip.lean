import BananaOS.Ext4.Stored

/-!
# A list stored and loaded

`emap_load` of an inode that `emap_store` has written.  The root and the nodes hold the list
(`storeTree_holds`), and the freeing of the old tree's blocks does not touch those of the new one:
they were free while the others were in use.

`Stored` is all that is asked of a store that succeeds, and `Noted` when it comes true.
-/

namespace BananaOS.Ext4

open Lib

variable {v v' w : Vol} {env : StoreEnv} {lenv : LoadEnv} {leaf t : List ℕ} {m m' m₁ m₂ : EMap}
  {e : List Ext} {p r r' inode : Blk} {b d n o i room : ℕ}

/-! ## What any load collects -/

theorem loadLeaves_tree (h : loadLeaves lenv v p n o m = some m') : m'.tree = m.tree := by
  induction n generalizing o m with
  | zero =>
    cases h
    rfl
  | succ n ih =>
    rw [loadLeaves] at h
    split_ifs at h with hbad
    all_goals
      split at h
      · cases h
      · next m₁ hp =>
        rw [ih h]
        unfold emapPush emapGrow at hp
        simp only at hp
        split at hp <;> split_ifs at hp <;> cases hp <;> rfl

/-- The blocks that the index entries name are collected, and each was loaded. -/
theorem loadIdxs_tree {child : Blk → EMap → Option EMap}
    (hchild : ∀ q m₁ m₂, child q m₁ = some m₂ → m₁.tree ⊆ m₂.tree)
    (h : loadIdxs lenv v child p n o m = some m') :
    m.tree ⊆ m'.tree ∧ ∀ i < n, g32 p (o + 12 * i + 4) ∈ m'.tree ∧
      ∃ m₁ m₂, child (v.data (g32 p (o + 12 * i + 4))) m₁ = some m₂ ∧ m₂.tree ⊆ m'.tree := by
  induction n generalizing o m with
  | zero =>
    cases h
    exact ⟨List.Subset.refl _, fun i hi => absurd hi (Nat.not_lt_zero _)⟩
  | succ n ih =>
    rw [loadIdxs] at h
    by_cases hbad : g16 p (o + 8) ≠ 0 ∨ g32 p (o + 4) ≥ v.nblocks
    · rw [if_pos hbad] at h
      cases h
    rw [if_neg hbad] at h
    split at h
    · cases h
    · next m₁ hp =>
      obtain ⟨-, hp⟩ := treePush_some hp
      by_cases hnode : lenv.node (g32 p (o + 4)) = false
      · rw [if_pos hnode] at h
        cases h
      rw [if_neg hnode] at h
      split at h
      · cases h
      · next m₂ hc =>
        obtain ⟨h1, h2⟩ := ih h
        have h3 := hchild _ _ _ hc
        rw [hp] at h3
        refine ⟨fun c hc => h1 (h3 (List.mem_append_left _ hc)), fun i hi => ?_⟩
        cases i with
        | zero =>
          exact ⟨h1 (h3 (List.mem_append_right _ (List.mem_singleton.mpr rfl))), m₁, m₂, hc, h1⟩
        | succ i =>
          have := h2 i (by omega)
          rwa [show o + 12 + 12 * i + 4 = o + 12 * (i + 1) + 4 by omega] at this

theorem loadNode_tree (h : loadNode lenv v d p o room m = some m') : m.tree ⊆ m'.tree := by
  induction d generalizing p o room m m' with
  | zero =>
    rw [loadNode] at h
    split_ifs at h
    rw [loadLeaves_tree h]
    exact List.Subset.refl _
  | succ d ih =>
    rw [loadNode] at h
    split_ifs at h
    exact (loadIdxs_tree (fun q m₁ m₂ h => ih h) h).1

theorem IdxsAt.get {l : List ℕ} (h : IdxsAt p o l) (hi : l[i]? = some b) :
    g32 p (o + 12 * i + 4) = b := by
  induction l generalizing o i with
  | nil => simp at hi
  | cons c l ih =>
    cases i with
    | zero =>
      rw [List.getElem?_cons_zero, Option.some.injEq] at hi
      exact h.1.1.trans hi
    | succ i =>
      rw [List.getElem?_cons_succ] at hi
      have := ih h.2 hi
      rwa [show o + 12 + 12 * i + 4 = o + 12 * (i + 1) + 4 by omega] at this

/-- A node that is an index over `l` collects `l`, and loads each of these blocks. -/
theorem loadNode_idx {l : List ℕ} (h : loadNode lenv v (d + 1) p o room m = some m')
    (hp : IdxsAt p (o + 12) l) (hn : g16 p (o + 2) = l.length) (hb : b ∈ l) :
    b ∈ m'.tree ∧
      ∃ m₁ m₂, loadNode lenv v d (v.data b) 0 leafMax m₁ = some m₂ ∧ m₂.tree ⊆ m'.tree := by
  rw [loadNode] at h
  split_ifs at h
  obtain ⟨i, hi, hib⟩ := List.getElem_of_mem hb
  have hget := hp.get (List.getElem?_eq_some_iff.mpr ⟨hi, hib⟩)
  have := (loadIdxs_tree (fun q m₁ m₂ h => loadNode_tree h) h).2 i (by omega)
  rwa [hget] at this

/-- A block `0` in the tree is collected by any load of the root `r`, from the inode and from the
volume as they are but for block 0. -/
def Collects (v : Vol) (r : Blk) (leaf : List ℕ) : Prop :=
  ∀ (lenv : LoadEnv) (w : Vol) (q : Blk) (m m' : EMap), (∀ b ∈ leaf, b ≠ 0 → w.data b = v.data b) →
    (∀ i, rootAt ≤ i → i < rootAt + 60 → q i = r i) →
    loadNode lenv w (g16 q (rootAt + 6)) q rootAt 4 m = some m' → 0 ∈ m'.tree

/-- **A `balloc` that was cut short shows**: block 0 is in the tree. -/
theorem storeTree_collects (h : storeTree env r e leaf v = (true, r', v'))
    (hdist : leaf.Pairwise fun a b => a = b → a = 0) (hlt : ∀ b ∈ leaf, b < 2 ^ 32)
    (hlen : leaf.length = nleafOf e.length + nidxOf (nleafOf e.length)) (h4 : 4 < e.length)
    (hmax : e.length ≤ 4 * leafMax * leafMax) (h0 : 0 ∈ leaf) : Collects v' r' leaf := by
  intro lenv w q m m' hw hq hload
  obtain ⟨hpos, hcover, hle, hidx⟩ := nodes_le h4 hmax
  unfold storeTree at h
  simp only at h
  generalize nleafOf e.length = nleaf at *
  generalize nidxOf nleaf = nidx at *
  cases hs : storeNodes env.node (leafNode e) 0 (leaf.take nleaf) v with
  | mk rc v₁ =>
    rw [hs] at h
    simp only at h
    rcases hidx with ⟨hz, hle4⟩ | ⟨hnz, hle4, hcover2⟩
    · rw [if_pos hz, Prod.mk.injEq, Prod.mk.injEq] at h
      obtain ⟨rfl, rfl, rfl⟩ := h
      have hl : (leafIdxs e leaf nleaf).length = nleaf := by simp [leafIdxs]
      have hhdr : HdrAt q rootAt nleaf 1 := (hdrAt_putHdr (p := r) (o := rootAt)
        (by omega) (by decide)).congr fun i _ hi => by
          rw [hq i (by omega) (by omega), putIdxs_apart (by omega)]
      have hidxs : IdxsAt q (rootAt + 12) leaf := by
        have := idxsAt_putIdxs (p := putHdr r rootAt nleaf 4 1) (o := rootAt + 12)
          (l := leafIdxs e leaf nleaf) (fun c hc => hlt _ (by
            have := List.mem_map_of_mem (f := Prod.snd) hc
            rw [leafIdxs_snd (by omega)] at this
            exact List.mem_of_mem_take this))
        rw [leafIdxs_snd (by omega), List.take_of_length_le (by omega)] at this
        exact this.congr fun i hi hi' => (hq i (by omega) (by omega)).symm
      rw [hhdr.depth] at hload
      exact (loadNode_idx hload hidxs (by rw [hhdr.count]; omega) h0).1
    · rw [if_neg hnz] at h
      cases hs' : storeNodes env.node (fun k => idxNode e leaf nleaf (k - nleaf)) nleaf
        (leaf.drop nleaf) v₁ with
      | mk rc' v₂ =>
        rw [hs', Prod.mk.injEq, Prod.mk.injEq, Bool.and_eq_true] at h
        obtain ⟨⟨rfl, rfl⟩, rfl, rfl⟩ := h
        have hl : (idxIdxs e leaf nleaf nidx).length = nidx := by simp [idxIdxs]
        have hhdr : HdrAt q rootAt nidx 2 := (hdrAt_putHdr (p := r) (o := rootAt)
          (by omega) (by decide)).congr fun i _ hi => by
            rw [hq i (by omega) (by omega), putIdxs_apart (by omega)]
        have hidxs : IdxsAt q (rootAt + 12) (leaf.drop nleaf) := by
          have := idxsAt_putIdxs (p := putHdr r rootAt nidx 4 2) (o := rootAt + 12)
            (l := idxIdxs e leaf nleaf nidx) (fun c hc => hlt _ (by
              have := List.mem_map_of_mem (f := Prod.snd) hc
              rw [idxIdxs_snd hlen] at this
              exact List.mem_of_mem_drop this))
          rw [idxIdxs_snd hlen] at this
          exact this.congr fun i hi hi' =>
            (hq i (by omega) (by rw [List.length_drop] at hi'; omega)).symm
        rw [hhdr.depth] at hload
        have hcount : g16 q (rootAt + 2) = (leaf.drop nleaf).length := by
          rw [hhdr.count, List.length_drop]
          omega
        by_cases hd : 0 ∈ leaf.drop nleaf
        · exact (loadNode_idx hload hidxs hcount hd).1
        -- it is in a leaf's place, so an index block names it
        have ht : 0 ∈ leaf.take nleaf := by
          rw [← List.take_append_drop nleaf leaf, List.mem_append] at h0
          exact h0.resolve_right hd
        obtain ⟨i, hi, hi0⟩ := List.getElem_of_mem ht
        rw [List.length_take] at hi
        have hk : i / leafMax < (leaf.drop nleaf).length := by
          rw [List.length_drop, Nat.div_lt_iff_lt_mul (by decide)]
          have : leaf.length - nleaf = nidx := by omega
          rw [this]
          omega
        have hmem : (leaf.drop nleaf)[i / leafMax] ∈ leaf.drop nleaf := List.getElem_mem hk
        have hne : (leaf.drop nleaf)[i / leafMax] ≠ 0 := fun hz => hd (hz ▸ hmem)
        obtain ⟨-, m₁, m₂, hchild, hsub⟩ := loadNode_idx hload hidxs hcount hmem
        obtain ⟨-, -, -, hfill⟩ := storeNodes_spec hs' (hdist.sublist (List.drop_sublist ..))
        rw [hw _ (List.mem_of_mem_drop hmem) hne,
          hfill (i / leafMax) _ (List.getElem?_eq_getElem hk) hne] at hchild
        rw [Nat.add_sub_cancel_left] at hchild
        unfold idxNode at hchild
        simp only at hchild
        generalize hcdef : ((leafIdxs e leaf nleaf).drop (i / leafMax * leafMax)).take leafMax = c
          at hchild
        have hsnd : c.map Prod.snd = ((leaf.take nleaf).drop (i / leafMax * leafMax)).take leafMax := by
          rw [← hcdef, List.map_take, List.map_drop, leafIdxs_snd (by omega)]
        have hclen : c.length ≤ leafMax := by
          rw [← hcdef, List.length_take]
          exact Nat.min_le_left ..
        have hc0 : 0 ∈ c.map Prod.snd := by
          rw [hsnd]
          have hdm := Nat.div_add_mod' i leafMax
          have hml := Nat.mod_lt i (show 0 < leafMax by decide)
          refine List.mem_of_getElem? (i := i % leafMax) ?_
          rw [List.getElem?_take, if_pos hml, List.getElem?_drop, hdm,
            List.getElem?_eq_getElem (by rw [List.length_take]; omega), hi0]
        refine hsub (loadNode_idx hchild ?_ ?_ hc0).1
        · refine (idxsAt_putIdxs fun d hd => hlt _ ?_)
          have := List.mem_map_of_mem (f := Prod.snd) hd
          rw [hsnd] at this
          exact List.mem_of_mem_take (List.mem_of_mem_drop (List.mem_of_mem_take this))
        · rw [List.length_map]
          refine HdrAt.count (d := 1) ((hdrAt_putHdr (hclen.trans_lt (by decide)) (by decide)).congr
            fun i _ hi => (putIdxs_apart (by omega)).symm)

/-! ## The inode -/

theorem Holds.hdr (h : Holds v d p o room e t) : g16 p o = ehMagic ∧ g16 p (o + 6) = d := by
  cases d with
  | zero => exact ⟨h.1.magic, h.1.depth⟩
  | succ d =>
    obtain ⟨c, h1, -⟩ := h
    exact ⟨h1.magic, h1.depth⟩

/-- An inode whose root holds a list is loaded as that list. -/
theorem emapLoad_loads (hflag : g32 inode 0x20 &&& extentsFl ≠ 0) (hv : v.nblocks < 2 ^ 32)
    (h : Holds v d inode rootAt 4 e t) (hfit : ∀ x ∈ e, x.Fits v.nblocks) (ht : Tight e) :
    Loads lenv EMap.empty e t (emapLoad lenv v inode) := by
  obtain ⟨h1, h2⟩ := h.hdr
  unfold emapLoad
  rw [if_neg hflag, if_neg (fun hh => hh h1), h2]
  exact loadNode_loads hv h hfit (by rwa [EMap.empty, List.nil_append])

theorem setBlocks_apart (h : (i < 0x1C ∨ 0x20 ≤ i) ∧ (i < 0x74 ∨ 0x76 ≤ i)) :
    setBlocks r n i = r i := by
  unfold setBlocks p16 p32
  rw [putLE_of_notMem (by omega), putLE_of_notMem (by omega)]

theorem iBlocks_setBlocks (h : n < 2 ^ 48) : iBlocks (setBlocks r n) = n := by
  have hhi : n / 2 ^ 32 < 2 ^ 16 := by omega
  unfold iBlocks setBlocks
  rw [g32_p16_ne (by omega), g32_p32, g16_p16, Nat.mod_eq_of_lt hhi, u32]
  omega

/-- The extents of a list that is in order have at most `2 ^ 32` blocks and those of the last. -/
theorem sum_len_le {c : ℕ} (hd : e.Pairwise fun x y => x.lblk + x.len ≤ y.lblk)
    (hfit : ∀ x ∈ e, x.Fits n) (hc : ∀ x ∈ e, c ≤ x.lblk) (hc32 : c ≤ 2 ^ 32) :
    c + (e.map Ext.len).sum ≤ 2 ^ 32 + extMaxLen := by
  induction e generalizing c with
  | nil => simpa using hc32.trans (Nat.le_add_right ..)
  | cons x e ih =>
    obtain ⟨h1, h2⟩ := List.pairwise_cons.mp hd
    obtain ⟨h3, h4, h5, -⟩ := hfit x (List.mem_cons_self ..)
    have h6 := hc x (List.mem_cons_self ..)
    have h7 : x.len ≤ extMaxLen := by split_ifs at h5 <;> omega
    rw [List.map_cons, List.sum_cons]
    by_cases he : e = []
    · subst he
      simp only [List.map_nil, List.sum_nil]
      omega
    · obtain ⟨y, hy⟩ := List.exists_mem_of_ne_nil e he
      have h8 := h1 y hy
      have h9 := (hfit y (List.mem_cons_of_mem _ hy)).lblk
      have := ih (c := x.lblk + x.len) h2 (fun z hz => hfit z (List.mem_cons_of_mem _ hz)) h1 (by omega)
      omega

/-! ## The claim of `emap_store` -/

/-- How many blocks the tree of a list of `n` extents has. -/
def treeBlocks (n : ℕ) : ℕ := if n ≤ 4 then 0 else nleafOf n + nidxOf (nleafOf n)

/-- A list that can be stored on the volume: in order, merged as `emap_push` merges, and no more than
three levels hold. -/
structure Storable (v : Vol) (e : List Ext) : Prop where
  disjoint : e.Pairwise fun x y => x.lblk + x.len ≤ y.lblk
  tight : Tight e
  fits : ∀ x ∈ e, x.Fits v.nblocks
  short : e.length ≤ 4 * leafMax * leafMax

/-- The volume while the list `m` is in memory: block 0 and the old tree's blocks are in use. -/
structure Mounted (v : Vol) (m : EMap) : Prop where
  pos : 0 < v.nblocks
  small : v.nblocks < 2 ^ 32
  zero : v.used 0 = true
  tree : ∀ b ∈ m.tree, b < v.nblocks ∧ v.used b = true

/-- What is asked of a store: a load gives the same list, and collects the blocks that came into
use; `i_blocks` counts the data and them; the old tree's blocks are free. -/
structure Stored (v : Vol) (m : EMap) (inode : Blk) (v' : Vol) : Prop where
  same : ∀ lenv m', emapLoad lenv v' inode = some m' →
    m'.e = m.e ∧ m'.tree.Nodup ∧ (∀ b, b ∈ m'.tree ↔ v.used b = false ∧ v'.used b = true) ∧
      iBlocks inode = ((m.e.map Ext.len).sum + m'.tree.length) * spb
  loads : ∀ lenv : LoadEnv, lenv.Granted → (emapLoad lenv v' inode).isSome
  freed : ∀ b ∈ m.tree, v'.used b = false

/-- What `emap_store` does not look at goes well: no `balloc` misses a bitmap block, the list of the
tree's blocks has memory to grow, and each old block is freed. -/
structure Noted (env : StoreEnv) (v : Vol) (m : EMap) : Prop where
  whole : Whole env ((m.e.head?.map Ext.pblk).getD 0) (treeBlocks m.e.length) 0 v
  grown : ∀ k < treeBlocks m.e.length, Grows k → env.tree k = true
  freed : ∀ b ∈ m.tree, ∃ i, m.tree[i]? = some b ∧ env.old i (b / bpg) = true

/-- What a store that succeeds leaves before the old tree is freed: the blocks `leaf` are taken for
the tree, and if none of them is `0` the root holds the list. -/
theorem storeBody_spec (h : storeBody env r m v = (true, r', m', v')) (hs : Storable v m.e)
    (hm : 0 < v.nblocks) (hv : v.nblocks < 2 ^ 32) (hz : v.used 0 = true) (ht : m.tree = [])
    (hcap : m.tcap = 0) :
    ∃ leaf : List ℕ, leaf.length = treeBlocks m.e.length ∧ Taken v leaf { v' with data := v.data } ∧
      (0 ∉ leaf ↔ Whole env ((m.e.head?.map Ext.pblk).getD 0) (treeBlocks m.e.length) 0 v) ∧
      m'.tree.length ≤ leaf.length ∧
      (m'.tree.length = leaf.length ↔ ∀ k < treeBlocks m.e.length, Grows k → env.tree k = true) ∧
      (∀ i, i < rootAt ∨ rootAt + 60 ≤ i → r' i = r i) ∧ (∀ b ∉ leaf, v'.data b = v.data b) ∧
      (0 ∈ leaf → Collects v' r' leaf) ∧
      (0 ∉ leaf → ∃ d t, Holds v' d r' rootAt 4 m.e t ∧ t.Perm leaf) := by
  unfold storeBody at h
  by_cases h4 : m.e.length ≤ 4
  · rw [if_pos h4] at h
    cases h
    rw [treeBlocks, if_pos h4]
    refine ⟨[], rfl, Taken.nil v, by simp [Whole], by simp [ht], by simp [ht], fun i hi => ?_,
      fun _ _ => rfl, nofun, fun _ => ⟨0, [], holds_leaf hs.fits hv h4 (by omega), List.Perm.refl _⟩⟩
    rw [putLeaves_apart (by omega), putHdr_apart (by omega)]
  · rw [if_neg h4] at h
    rw [treeBlocks, if_neg h4]
    simp only at h
    by_cases hbad : nidxOf (nleafOf m.e.length) > 4 ∨ env.kmalloc = false
    · rw [if_pos hbad] at h
      cases h
    rw [if_neg hbad] at h
    split at h
    · cases h
    · next leaf m₁ v₁ htake =>
      obtain ⟨l, hl, hlen, htaken, he, hwhole, htree⟩ := takeTree_spec htake hm (Taken.nil v) hz
      rw [List.nil_append] at hl
      subst hl
      obtain ⟨h1, h2⟩ := htree (by simp [ht])
      have h2 := h2 (.inl ⟨by simp [ht], hcap⟩)
      simp only [List.length_nil, ht, true_and, Nat.zero_le, true_imp_iff] at h2
      rw [he] at h
      cases hst : storeTree env r m.e leaf v₁ with
      | mk rc rest =>
        obtain ⟨r₁, v₂⟩ := rest
        rw [hst, Prod.mk.injEq, Prod.mk.injEq, Prod.mk.injEq] at h
        obtain ⟨rfl, rfl, rfl, rfl⟩ := h
        obtain ⟨h5, h6, h7, h8⟩ := storeTree_frame hst hs.short (by omega)
        have hlt : ∀ b ∈ leaf, b < v.nblocks := fun b hb => by
          by_cases hb0 : b = 0
          · omega
          · exact (htaken.free b hb hb0).1
        refine ⟨leaf, hlen, ⟨htaken.free, htaken.distinct, fun b => ?_, rfl, h6.trans htaken.nblocks⟩,
          hwhole, h1, by rw [h2, hlen], h8, fun b hb => by rw [h7 b hb, htaken.data], fun h0 => ?_,
          fun h0 => ?_⟩
        · rw [show ({ v₂ with data := v.data } : Vol).used = v₂.used from rfl, h5]
          exact htaken.used b
        · exact storeTree_collects hst htaken.distinct (fun b hb => (hlt b hb).trans hv) hlen
            (by omega) hs.short h0
        · exact storeTree_holds hst h0 htaken.distinct (by rwa [htaken.nblocks]) hlen (by omega) hs.short
            (by rw [htaken.nblocks]; exact hs.fits) (by rwa [htaken.nblocks])

/-- `emap_store` up to the freeing of the old tree and the count. -/
theorem emapStore_eq (h : emapStore env inode m v = (true, r, m', v')) :
    ∃ r₁ w, storeBody env (blit inode rootAt zeros 0 60) { m with tree := [], tcap := 0 } v =
        (true, r₁, m', w) ∧ v' = freeEach env.old 0 m.tree w ∧
      r = setBlocks r₁ (((m.e.map Ext.len).sum + m'.tree.length) * spb) := by
  unfold emapStore at h
  cases hb : storeBody env (blit inode rootAt zeros 0 60) { m with tree := [], tcap := 0 } v with
  | mk rc rest =>
    obtain ⟨r₁, m₁, w⟩ := rest
    rw [hb] at h
    cases h
    exact ⟨r₁, w, rfl, rfl, rfl⟩

/-- **A store that succeeds does what is asked of it exactly when what it does not look at goes
well.** -/
theorem emapStore_stored_iff (hs : Storable v m.e) (hm : Mounted v m)
    (hflag : g32 inode 0x20 &&& extentsFl ≠ 0 ∨ m.e = [])
    (h : emapStore env inode m v = (true, r, m', v')) : Stored v m r v' ↔ Noted env v m := by
  obtain ⟨r₁, w, hbody, rfl, rfl⟩ := emapStore_eq h
  obtain ⟨hpos, hsmall, hzero, hold⟩ := hm
  obtain ⟨leaf, hlen, htaken, hwhole, hle, hgrown, hr, -, hcoll, hholds⟩ :=
    storeBody_spec hbody hs hpos hsmall hzero rfl rfl
  simp only at hlen hwhole hgrown hholds hle
  have hold' : ∀ b ∈ m.tree, b + 1 < 2 ^ 32 := fun b hb => by
    have := (hold b hb).1
    omega
  have hwn : w.nblocks = v.nblocks := htaken.nblocks
  have hwu : ∀ b, w.used b = true ↔ v.used b = true ∨ b ∈ leaf := htaken.used
  -- no block of the new tree is one of the old tree
  have hapart : ∀ b ∈ leaf, b ≠ 0 → b ∉ m.tree := fun b hb hb0 hbt => by
    have := (htaken.free b hb hb0).2
    rw [(hold b hbt).2] at this
    cases this
  generalize hcnt : ((m.e.map Ext.len).sum + m'.tree.length) * spb = cnt
  have hroot : ∀ i, rootAt ≤ i → i < rootAt + 60 → setBlocks r₁ cnt i = r₁ i := fun i h1 h2 =>
    setBlocks_apart (by unfold rootAt at *; omega)
  have hflags : g32 (setBlocks r₁ cnt) 0x20 = g32 inode 0x20 := g32_congr fun i h1 h2 => by
    have hi : i < rootAt := by
      unfold rootAt
      omega
    rw [setBlocks_apart (by omega), hr i (.inl hi), blit_of_notMem (.inl hi)]
  have hib : iBlocks (setBlocks r₁ cnt) = cnt := by
    have hsum := sum_len_le (c := 0) hs.disjoint hs.fits (fun _ _ => Nat.zero_le _) (by decide)
    have htb : treeBlocks m.e.length ≤ 2000 := by
      have := hs.short
      unfold treeBlocks nidxOf nleafOf leafMax at *
      split_ifs <;> omega
    refine iBlocks_setBlocks ?_
    rw [← hcnt]
    unfold extMaxLen spb at *
    omega
  -- what is loaded when block 0 is not in the tree
  have hload : 0 ∉ leaf → ∃ t, t.Perm leaf ∧ ∀ lenv : LoadEnv,
      Loads lenv EMap.empty m.e t
        (emapLoad lenv (freeEach env.old 0 m.tree w) (setBlocks r₁ cnt)) := by
    intro h0
    obtain ⟨d, t, hh, ht⟩ := hholds h0
    by_cases hf : g32 (setBlocks r₁ cnt) 0x20 &&& extentsFl = 0
    · -- an inode without extents, and so an empty list
      have he := hflag.resolve_left fun h => h (hflags ▸ hf)
      have hnil : leaf = [] := by
        rw [← List.length_eq_zero_iff, hlen, he]
        rfl
      refine ⟨[], by rw [hnil], fun lenv => ?_⟩
      unfold emapLoad
      rw [if_pos hf, he]
      exact ⟨fun m' h => by cases h; exact ⟨rfl, rfl⟩, fun _ => rfl⟩
    refine ⟨t, ht, fun lenv => emapLoad_loads hf ?_ (hh.congr freeEach_nblocks ?_ ?_) ?_ hs.tight⟩
    · rw [freeEach_nblocks, hwn]
      exact hsmall
    · exact fun i h1 h2 => (hroot i h1 (by omega)).symm
    · intro b hb
      have hbl := ht.mem_iff.mp hb
      exact (freeEach_apart hold' (hapart b hbl fun hb0 => h0 (hb0 ▸ hbl))).2
    · rw [freeEach_nblocks, hwn]
      exact hs.fits
  -- which blocks come into use
  have hnew : 0 ∉ leaf → ∀ b, b ∈ leaf ↔
      v.used b = false ∧ (freeEach env.old 0 m.tree w).used b = true := by
    intro h0 b
    constructor
    · intro hb
      have hb0 : b ≠ 0 := fun hb0 => h0 (hb0 ▸ hb)
      refine ⟨(htaken.free b hb hb0).2, ?_⟩
      rw [(freeEach_apart hold' (hapart b hb hb0)).1]
      exact (hwu b).mpr (.inr hb)
    · rintro ⟨h1, h2⟩
      have hbt : b ∉ m.tree := fun hbt => by
        rw [(hold b hbt).2] at h1
        cases h1
      rw [(freeEach_apart hold' hbt).1, hwu, h1] at h2
      exact h2.resolve_left nofun
  have hfreed : ∀ b ∈ m.tree, (freeEach env.old 0 m.tree w).used b = false ↔
      ∃ i, m.tree[i]? = some b ∧ env.old i (b / bpg) = true := fun b hb => by
    rw [freeEach_used hold' ((hwu b).mpr (.inl (hold b hb).2))]
    simp only [Nat.zero_add]
  constructor
  · rintro ⟨hsame, hloads, hfr⟩
    have hgranted : LoadEnv.Granted ⟨fun _ => true, fun _ => true, fun _ => true⟩ :=
      ⟨fun _ => rfl, fun _ => rfl, fun _ => rfl⟩
    obtain ⟨m'', hm''⟩ := Option.isSome_iff_exists.mp (hloads _ hgranted)
    obtain ⟨h1, h2, h3, h4⟩ := hsame _ _ hm''
    have h0 : 0 ∉ leaf := by
      intro h0
      have hcol : 0 ∈ m''.tree := by
        have hf : ¬ g32 (setBlocks r₁ cnt) 0x20 &&& extentsFl = 0 := fun hf => by
          have he := hflag.resolve_left fun h => h (hflags ▸ hf)
          rw [he] at hlen
          rw [List.length_eq_zero_iff.mp hlen] at h0
          cases h0
        unfold emapLoad at hm''
        rw [if_neg hf] at hm''
        split_ifs at hm''
        refine hcoll h0 _ _ _ _ _ (fun b hb hb0 => ?_) hroot hm''
        exact (freeEach_apart hold' (hapart b hb hb0)).2
      rw [h3, hzero] at hcol
      exact absurd hcol.1 nofun
    obtain ⟨t, ht, hl⟩ := hload h0
    have htree := ((hl _).some _ hm'').2
    rw [EMap.empty, List.nil_append] at htree
    refine ⟨hwhole.mp h0, hgrown.mp ?_, fun b hb => (hfreed b hb).mp (hfr b hb)⟩
    rw [hib, ← hcnt, htree, ht.length_eq] at h4
    unfold spb at h4
    omega
  · rintro ⟨h1, h2, h3⟩
    have h0 := hwhole.mpr h1
    obtain ⟨t, ht, hl⟩ := hload h0
    refine ⟨fun lenv m'' hm'' => ?_, fun lenv hg => (hl lenv).granted hg,
      fun b hb => (hfreed b hb).mpr (h3 b hb)⟩
    obtain ⟨he, htree⟩ := (hl lenv).some _ hm''
    rw [EMap.empty, List.nil_append] at he htree
    refine ⟨he, ?_, fun b => ?_, ?_⟩
    · rw [htree]
      refine ht.nodup_iff.mpr (htaken.distinct.imp_of_mem fun {a b} ha _ hab hne => ?_)
      exact h0 (hab hne ▸ ha)
    · rw [htree, ht.mem_iff, hnew h0]
    · rw [hib, ← hcnt, htree, ht.length_eq, hgrown.mpr h2]

/-- Five extents of one block each, on a volume of 100 blocks whose first 50 are in use. -/
def fiveList : EMap :=
  ⟨[⟨0, 10, 1, false⟩, ⟨2, 12, 1, false⟩, ⟨4, 14, 1, false⟩, ⟨6, 16, 1, false⟩, ⟨8, 18, 1, false⟩], 8, [],
    0⟩

@[inherit_doc fiveList]
def fiveVol : Vol := ⟨100, fun b => decide (b < 50), fun _ => 50, fun _ => zeros, fun _ => zeros⟩

/-- An inode with extents. -/
def fiveInode : Blk := p32 zeros 0x20 extentsFl

/-- Everything is to be had, but for what `krealloc` says to `tree_push`. -/
def fiveEnv (tree : Bool) : StoreEnv :=
  ⟨fun _ _ => true, fun _ => 0, fun _ => tree, true, fun _ => true, fun _ _ => true, fun _ _ => true⟩

theorem fiveList_storable : Storable fiveVol fiveList.e := by
  refine ⟨by decide, ?_, ?_, by decide⟩
  · unfold Tight fiveList
    simp only [List.isChain_cons_cons, List.isChain_singleton, and_true]
    decide
  · intro x hx
    simp only [fiveList, List.mem_cons, List.not_mem_nil, or_false] at hx
    rcases hx with rfl | rfl | rfl | rfl | rfl <;> exact ⟨by decide, by decide, by decide, by decide⟩

theorem fiveVol_mounted : Mounted fiveVol fiveList :=
  ⟨by decide, by decide, by decide, by simp [fiveList]⟩

theorem emapStore_five (tree : Bool) :
    emapStore (fiveEnv tree) fiveInode fiveList fiveVol =
      (true, (emapStore (fiveEnv tree) fiveInode fiveList fiveVol).2) :=
  Prod.ext (by cases tree <;> decide +kernel) rfl

/-- With everything to be had, five extents are stored and loaded. -/
theorem emapStore_stored_five :
    Stored fiveVol fiveList (emapStore (fiveEnv true) fiveInode fiveList fiveVol).2.1
        (emapStore (fiveEnv true) fiveInode fiveList fiveVol).2.2.2 ↔
      Noted (fiveEnv true) fiveVol fiveList :=
  emapStore_stored_iff fiveList_storable fiveVol_mounted (.inl (by decide +kernel)) (emapStore_five true)

/-- Without memory for the list of the tree's blocks, the store succeeds and `i_blocks` leaves the
tree out. -/
theorem emapStore_not_counted :
    ¬ ∀ env v inode m r m' v', Storable v m.e → Mounted v m →
      (g32 inode 0x20 &&& extentsFl ≠ 0 ∨ m.e = []) →
      emapStore env inode m v = (true, r, m', v') → Stored v m r v' := by
  intro hall
  obtain ⟨hsame, hloads, -⟩ := hall (fiveEnv false) fiveVol fiveInode fiveList
    (emapStore (fiveEnv false) fiveInode fiveList fiveVol).2.1 _
    (emapStore (fiveEnv false) fiveInode fiveList fiveVol).2.2.2 fiveList_storable fiveVol_mounted
    (.inl (by decide +kernel)) (emapStore_five false)
  obtain ⟨m', hm'⟩ := Option.isSome_iff_exists.mp
    (hloads ⟨fun _ => true, fun _ => true, fun _ => true⟩ ⟨fun _ => rfl, fun _ => rfl, fun _ => rfl⟩)
  obtain ⟨-, -, hmem, hcount⟩ := hsame _ _ hm'
  have h50 : 50 ∈ m'.tree := (hmem 50).mpr ⟨by decide, by decide +kernel⟩
  have hib : iBlocks (emapStore (fiveEnv false) fiveInode fiveList fiveVol).2.1 = 40 := by
    decide +kernel
  have hpos := List.length_pos_of_mem h50
  rw [hib, show (fiveList.e.map Ext.len).sum = 5 from rfl] at hcount
  unfold spb at hcount
  omega

end BananaOS.Ext4
