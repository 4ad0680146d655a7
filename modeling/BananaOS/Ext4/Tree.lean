import BananaOS.Ext4.Extents
import Mathlib.Data.List.Chain

/-!
# Extent trees

`emap_load` and `emap_store` of `kernel/ext4.c`: a file's extents are read from a tree whose root is
in the inode into a list, and the list is written back as a new tree.

Memory and the device may fail anywhere.  `LoadEnv` and `StoreEnv` say what each request gets; every
request of a call has a place of its own there, so that they are any run of answers.  Of what
`emap_store` asks for it looks at the answer everywhere but in two places: `tree_push` may have
failed to note a block, and `bfree` to free one.

`Holds v d p o room e t` says that the node at `o` in `p`, of depth `d`, has the extents `e` below
it, in blocks `t` of the volume.
-/

namespace BananaOS.Ext4

open Lib

/-- `SPB` -/
def spb : ℕ := 8

/-- `EXT4_EXTENTS_FL` -/
def extentsFl : ℕ := 0x00080000

/-- `EH_MAGIC` -/
def ehMagic : ℕ := 0xF30A

/-- `LEAF_MAX` -/
def leafMax : ℕ := 340

/-- Where the root is in an inode. -/
def rootAt : ℕ := 0x28

/-! ## Writing nodes -/

/-- `put_leaf` -/
def putLeaf (p : Blk) (o : ℕ) (x : Ext) : Blk :=
  p32 (p16 (p16 (p32 p o x.lblk) (o + 4) (x.len + if x.unw then extMaxLen else 0)) (o + 6) 0)
    (o + 8) x.pblk

/-- `put_hdr` -/
def putHdr (p : Blk) (o n max depth : ℕ) : Blk :=
  p32 (p16 (p16 (p16 (p16 p o ehMagic) (o + 2) n) (o + 4) max) (o + 6) depth) (o + 8) 0

/-- `put_idx` -/
def putIdx (p : Blk) (o lblk blk : ℕ) : Blk :=
  p16 (p16 (p32 (p32 p o lblk) (o + 4) blk) (o + 8) 0) (o + 10) 0

/-- `put_leaf` for each extent, from `o` on. -/
def putLeaves : Blk → ℕ → List Ext → Blk
  | p, _, [] => p
  | p, o, x :: e => putLeaves (putLeaf p o x) (o + 12) e

/-- `put_idx` for each block of the level below, with its first block of the file. -/
def putIdxs : Blk → ℕ → List (ℕ × ℕ) → Blk
  | p, _, [] => p
  | p, o, c :: cs => putIdxs (putIdx p o c.1 c.2) (o + 12) cs

/-- `i_blocks` -/
def iBlocks (r : Blk) : ℕ := g32 r 0x1C + g16 r 0x74 * 2 ^ 32

/-- `set_blocks` -/
def setBlocks (r : Blk) (b : ℕ) : Blk := p16 (p32 r 0x1C b) 0x74 (b / 2 ^ 32)

/-- `tree_push`; `mem` is what `krealloc` says. -/
def treePush (mem : Bool) (m : EMap) (blk : ℕ) : Option EMap :=
  if m.tree.length = m.tcap then
    if mem then some { m with tree := m.tree ++ [blk], tcap := if m.tcap = 0 then 4 else m.tcap * 2 }
    else none
  else some { m with tree := m.tree ++ [blk] }

/-! ## `emap_load` -/

/-- What `emap_load` gets: `krealloc` for so many extents, `krealloc` for one more than so many
blocks of the tree, and the blocks. -/
structure LoadEnv where
  ext : ℕ → Bool
  tree : ℕ → Bool
  node : ℕ → Bool

/-- The loop of `load_node` over the extents of a leaf, `n` of them from `o` on. -/
def loadLeaves (env : LoadEnv) (v : Vol) (h : Blk) : ℕ → ℕ → EMap → Option EMap
  | 0, _, m => some m
  | n + 1, o, m =>
    let unw := decide (g16 h (o + 4) > extMaxLen)
    let len := if unw then g16 h (o + 4) - extMaxLen else g16 h (o + 4)
    let pblk := g32 h (o + 8)
    if g16 h (o + 6) ≠ 0 ∨ len = 0 ∨ u32 (pblk + len) > v.nblocks then none
    else
      match emapPush env.ext m (g32 h o) pblk len unw with
      | none => none
      | some m => loadLeaves env v h n (o + 12) m

/-- The loop of `load_node` over the entries of an index; `child` loads a node of the level below. -/
def loadIdxs (env : LoadEnv) (v : Vol) (child : Blk → EMap → Option EMap) (h : Blk) :
    ℕ → ℕ → EMap → Option EMap
  | 0, _, m => some m
  | n + 1, o, m =>
    let leaf := g32 h (o + 4)
    if g16 h (o + 8) ≠ 0 ∨ leaf ≥ v.nblocks then none
    else
      match treePush (env.tree m.tree.length) m leaf with
      | none => none
      | some m =>
        if env.node leaf = false then none
        else
          match child (v.data leaf) m with
          | none => none
          | some m => loadIdxs env v child h n (o + 12) m

/-- `load_node`, by `depth_left`. -/
def loadNode (env : LoadEnv) (v : Vol) : ℕ → Blk → ℕ → ℕ → EMap → Option EMap
  | 0, h, o, room, m =>
    if g16 h o ≠ ehMagic ∨ g16 h (o + 2) > room ∨ g16 h (o + 6) ≠ 0 then none
    else loadLeaves env v h (g16 h (o + 2)) (o + 12) m
  | d + 1, h, o, room, m =>
    if g16 h o ≠ ehMagic ∨ g16 h (o + 2) > room ∨ g16 h (o + 6) ≠ d + 1 then none
    else loadIdxs env v (fun p m => loadNode env v d p 0 leafMax m) h (g16 h (o + 2)) (o + 12) m

/-- `emap_load`; `none` is `-1`. -/
def emapLoad (env : LoadEnv) (v : Vol) (inode : Blk) : Option EMap :=
  if g32 inode 0x20 &&& extentsFl = 0 then some EMap.empty
  else if g16 inode rootAt ≠ ehMagic then none
  else loadNode env v (g16 inode (rootAt + 6)) inode rootAt 4 EMap.empty

/-! ## `emap_store` -/

/-- What `emap_store` gets: the bitmap block of each group for the `k`-th `balloc`, what `*got` is
when that one is cut short, `krealloc` for the `k`-th `tree_push`, `kmalloc`, the `k`-th block of
the new tree in the cache; and the bitmap blocks when the blocks of the old tree are freed, or those
of the new one again. -/
structure StoreEnv where
  had : ℕ → ℕ → Bool
  junk : ℕ → ℕ
  tree : ℕ → Bool
  kmalloc : Bool
  node : ℕ → Bool
  old : ℕ → ℕ → Bool
  undo : ℕ → ℕ → Bool

/-- `bfree` of each block of a list. -/
def freeEach (had : ℕ → ℕ → Bool) : ℕ → List ℕ → Vol → Vol
  | _, [], v => v
  | j, b :: l, v => freeEach had (j + 1) l (v.bfree (had j) b 1)

/-- The blocks of the new tree: `n` more of them, after `leaf`. -/
def takeTree (env : StoreEnv) (goal : ℕ) : ℕ → List ℕ → EMap → Vol → Option (List ℕ) × EMap × Vol
  | 0, leaf, m, v => (some leaf, m, v)
  | n + 1, leaf, m, v =>
    let k := leaf.length
    let ((b, got), v) := v.balloc (env.had k) (env.junk k) goal 1
    if got = 0 then (none, { m with tree := [] }, freeEach env.undo 0 leaf v)
    else takeTree env goal n (leaf ++ [b]) ((treePush (env.tree k) m b).getD m) v

/-- A block of the cache set. -/
def Vol.set (v : Vol) (b : ℕ) (p : Blk) : Vol := { v with data := fun c => if c = b then p else v.data c }

/-- A loop that fills the blocks of the tree, from the `k`-th on: it stops where one is not to be
had, and then `rc` is `-1`. -/
def storeNodes (node : ℕ → Bool) (fill : ℕ → Blk) : ℕ → List ℕ → Vol → Bool × Vol
  | _, [], v => (true, v)
  | k, b :: l, v => if node k then storeNodes node fill (k + 1) l (v.set b (fill k)) else (false, v)

/-- The `k`-th leaf. -/
def leafNode (e : List Ext) (k : ℕ) : Blk :=
  let x := (e.drop (k * leafMax)).take leafMax
  putLeaves (putHdr zeros 0 x.length leafMax 0) 12 x

/-- An entry for each leaf: the first block of the file in it, and where it is. -/
def leafIdxs (e : List Ext) (leaf : List ℕ) (nleaf : ℕ) : List (ℕ × ℕ) :=
  (List.range nleaf).map fun k => ((e.getD (k * leafMax) default).lblk, leaf.getD k 0)

/-- The index block numbered `k` of a tree of two levels. -/
def idxNode (e : List Ext) (leaf : List ℕ) (nleaf k : ℕ) : Blk :=
  let c := ((leafIdxs e leaf nleaf).drop (k * leafMax)).take leafMax
  putIdxs (putHdr zeros 0 c.length leafMax 1) 12 c

/-- An entry for each index block. -/
def idxIdxs (e : List Ext) (leaf : List ℕ) (nleaf nidx : ℕ) : List (ℕ × ℕ) :=
  (List.range nidx).map fun k =>
    ((e.getD (k * leafMax * leafMax) default).lblk, leaf.getD (nleaf + k) 0)

/-- `nleaf` -/
def nleafOf (n : ℕ) : ℕ := (n + leafMax - 1) / leafMax

/-- `nidx` -/
def nidxOf (nleaf : ℕ) : ℕ := if nleaf ≤ 4 then 0 else (nleaf + leafMax - 1) / leafMax

/-- The nodes of the new tree and its root: `rc`, the inode and the volume. -/
def storeTree (env : StoreEnv) (r : Blk) (e : List Ext) (leaf : List ℕ) (v : Vol) :
    Bool × Blk × Vol :=
  let nleaf := nleafOf e.length
  let nidx := nidxOf nleaf
  let (rc, v) := storeNodes env.node (leafNode e) 0 (leaf.take nleaf) v
  if nidx = 0 then
    (rc, putIdxs (putHdr r rootAt nleaf 4 1) (rootAt + 12) (leafIdxs e leaf nleaf), v)
  else
    let (rc', v) := storeNodes env.node (fun k => idxNode e leaf nleaf (k - nleaf)) nleaf
      (leaf.drop nleaf) v
    (rc && rc', putIdxs (putHdr r rootAt nidx 4 2) (rootAt + 12) (idxIdxs e leaf nleaf nidx), v)

/-- `emap_store` up to its label `out`: `rc`, the inode, the list and the volume. -/
def storeBody (env : StoreEnv) (r : Blk) (m : EMap) (v : Vol) : Bool × Blk × EMap × Vol :=
  if m.e.length ≤ 4 then
    (true, putLeaves (putHdr r rootAt m.e.length 4 0) (rootAt + 12) m.e, m, v)
  else
    let nleaf := nleafOf m.e.length
    let nidx := nidxOf nleaf
    if nidx > 4 ∨ env.kmalloc = false then (false, r, m, v)
    else
      match takeTree env ((m.e.head?.map Ext.pblk).getD 0) (nleaf + nidx) [] m v with
      | (none, m, v) => (false, r, m, v)
      | (some leaf, m, v) =>
        let (rc, r, v) := storeTree env r m.e leaf v
        (rc, r, m, v)

/-- `emap_store`: `rc`, the inode, the list and the volume. -/
def emapStore (env : StoreEnv) (inode : Blk) (m : EMap) (v : Vol) : Bool × Blk × EMap × Vol :=
  let (rc, r, m', v) := storeBody env (blit inode rootAt zeros 0 60) { m with tree := [], tcap := 0 } v
  let v := freeEach env.old 0 m.tree v
  (rc, setBlocks r (((m.e.map Ext.len).sum + m'.tree.length) * spb), m', v)

/-! ## Reading nodes back -/

variable {p : Blk} {o o' a b : ℕ} {x : Ext} {e : List Ext}

theorem g16_p16 : g16 (p16 p o a) o = a % 2 ^ 16 := getLE_putLE

theorem g16_p16_ne (h : o' + 2 ≤ o ∨ o + 2 ≤ o') : g16 (p16 p o a) o' = g16 p o' :=
  getLE_congr fun _ _ _ => putLE_of_notMem (by omega)

theorem g16_p32_ne (h : o' + 2 ≤ o ∨ o + 4 ≤ o') : g16 (p32 p o a) o' = g16 p o' :=
  getLE_congr fun _ _ _ => putLE_of_notMem (by omega)

theorem g32_p16_ne (h : o' + 4 ≤ o ∨ o + 2 ≤ o') : g32 (p16 p o a) o' = g32 p o' :=
  getLE_congr fun _ _ _ => putLE_of_notMem (by omega)

theorem g32_p32_ne (h : o' + 4 ≤ o ∨ o + 4 ≤ o') : g32 (p32 p o a) o' = g32 p o' :=
  getLE_congr fun _ _ _ => putLE_of_notMem (by omega)

/-- The extent `x` is read at `o`. -/
structure LeafAt (p : Blk) (o : ℕ) (x : Ext) : Prop where
  lblk : g32 p o = x.lblk
  len : g16 p (o + 4) = x.len + if x.unw then extMaxLen else 0
  hi : g16 p (o + 6) = 0
  pblk : g32 p (o + 8) = x.pblk

/-- The extents `e` are read from `o` on. -/
def LeavesAt (p : Blk) : ℕ → List Ext → Prop
  | _, [] => True
  | o, x :: e => LeafAt p o x ∧ LeavesAt p (o + 12) e

/-- The blocks `c` are read from the index entries from `o` on. -/
def IdxsAt (p : Blk) : ℕ → List ℕ → Prop
  | _, [] => True
  | o, b :: c => (g32 p (o + 4) = b ∧ g16 p (o + 8) = 0) ∧ IdxsAt p (o + 12) c

/-- The header at `o` says `n` entries at depth `d`. -/
structure HdrAt (p : Blk) (o n d : ℕ) : Prop where
  magic : g16 p o = ehMagic
  count : g16 p (o + 2) = n
  depth : g16 p (o + 6) = d

/-- What one extent can say in the tree of a volume of `n` blocks. -/
structure Ext.Fits (x : Ext) (n : ℕ) : Prop where
  pos : 0 < x.len
  lblk : x.lblk < 2 ^ 32
  len : x.len ≤ if x.unw then extMaxLen - 1 else extMaxLen
  pend : x.pblk + x.len ≤ n

/-- No extent carries the one before it on in a way that a push would join. -/
def Tight (e : List Ext) : Prop :=
  e.IsChain fun x y => ¬ x.Joins y.lblk y.pblk y.len y.unw

/-- The node at `o` has the extents `e` below it, in the blocks `t`. -/
def Holds (v : Vol) : ℕ → Blk → ℕ → ℕ → List Ext → List ℕ → Prop
  | 0, p, o, room, e, t => HdrAt p o e.length 0 ∧ e.length ≤ room ∧ LeavesAt p (o + 12) e ∧ t = []
  | d + 1, p, o, room, e, t =>
    ∃ c : List (ℕ × List Ext × List ℕ), HdrAt p o c.length (d + 1) ∧ c.length ≤ room ∧
      IdxsAt p (o + 12) (c.map Prod.fst) ∧
      (∀ n ∈ c, n.1 < v.nblocks ∧ Holds v d (v.data n.1) 0 leafMax n.2.1 n.2.2) ∧
      e = c.flatMap (fun n => n.2.1) ∧ t = c.flatMap fun n => n.1 :: n.2.2

/-! ## What `emap_load` makes of it -/

variable {env : LoadEnv} {mem : ℕ → Bool} {v : Vol} {m m' : EMap} {t : List ℕ}

theorem emapPush_tight (ht : Tight (m.e ++ [x]))
    (h : emapPush mem m x.lblk x.pblk x.len x.unw = some m') :
    m'.e = m.e ++ [x] ∧ m'.tree = m.tree := by
  have hgrow : ∀ {y}, emapGrow mem m y = some m' → m'.tree = m.tree := fun h => by
    unfold emapGrow at h
    simp only at h
    split_ifs at h <;> cases h <;> rfl
  unfold emapPush at h
  split at h
  · next y hy =>
    rw [if_neg] at h
    · exact ⟨emapGrow_e h, hgrow h⟩
    · exact (List.isChain_append.mp ht).2.2 y hy x rfl
  · exact ⟨emapGrow_e h, hgrow h⟩

theorem treePush_some {mem : Bool} (h : treePush mem m b = some m') :
    m'.e = m.e ∧ m'.tree = m.tree ++ [b] := by
  unfold treePush at h
  split_ifs at h <;> cases h <;> exact ⟨rfl, rfl⟩

theorem treePush_isSome {mem : Bool} (hmem : mem = true) : (treePush mem m b).isSome := by
  unfold treePush
  rw [hmem]
  split_ifs <;> first | rfl | contradiction

/-- All that `emap_load` asks for is given. -/
structure LoadEnv.Granted (env : LoadEnv) : Prop where
  ext : ∀ n, env.ext n = true
  tree : ∀ n, env.tree n = true
  node : ∀ b, env.node b = true

/-- The result is the list with `e` and the blocks with `t` behind; without memory there is none. -/
structure Loads (env : LoadEnv) (m : EMap) (e : List Ext) (t : List ℕ) (r : Option EMap) : Prop where
  some : ∀ m', r = some m' → m'.e = m.e ++ e ∧ m'.tree = m.tree ++ t
  granted : env.Granted → r.isSome

theorem Tight.left {e' : List Ext} (h : Tight (e ++ e')) : Tight e := (List.isChain_append.mp h).1

theorem loadLeaves_loads (hv : v.nblocks < 2 ^ 32) (hp : LeavesAt p o e)
    (hfit : ∀ x ∈ e, x.Fits v.nblocks) (ht : Tight (m.e ++ e)) :
    Loads env m e [] (loadLeaves env v p e.length o m) := by
  induction e generalizing o m with
  | nil => exact ⟨fun m' h => by cases h; simp, fun _ => rfl⟩
  | cons x e ih =>
    obtain ⟨⟨h1, h2, h3, h4⟩, hrest⟩ := hp
    obtain ⟨hpos, -, hlen, hpend⟩ := hfit x (List.mem_cons_self ..)
    have hunw : decide (g16 p (o + 4) > extMaxLen) = x.unw := by
      rw [h2]
      cases hu : x.unw with
      | false =>
        simp only [hu, Bool.false_eq_true, if_false] at hlen ⊢
        exact decide_eq_false (by omega)
      | true =>
        simp only [if_true]
        exact decide_eq_true (by omega)
    have hlen' : (if x.unw = true then g16 p (o + 4) - extMaxLen else g16 p (o + 4)) = x.len := by
      rw [h2]
      cases x.unw <;> simp
    rw [List.length_cons, loadLeaves]
    simp only [hunw, hlen', h1, h3, h4]
    rw [if_neg (by rw [u32_of_lt (by omega)]; omega)]
    rw [← List.singleton_append, ← List.append_assoc] at ht
    split
    · next hnone =>
      refine ⟨nofun, fun hg => ?_⟩
      have := @emapPush_isSome _ m hg.ext x.lblk x.pblk x.len x.unw
      rw [hnone] at this
      cases this
    · next m₁ hsome =>
      obtain ⟨he, htree⟩ := emapPush_tight ht.left hsome
      obtain ⟨h5, h6⟩ := ih (m := m₁) hrest (fun y hy => hfit y (List.mem_cons_of_mem _ hy))
        (by rwa [he])
      refine ⟨fun m' hm' => ?_, h6⟩
      obtain ⟨h7, h8⟩ := h5 m' hm'
      rw [h7, h8, he, htree, List.append_assoc, List.singleton_append]
      exact ⟨rfl, rfl⟩

/-- The index entries one after the other, given what each node of the level below loads. -/
theorem loadIdxs_loads {child : Blk → EMap → Option EMap} {c : List (ℕ × List Ext × List ℕ)}
    (hp : IdxsAt p o (c.map Prod.fst)) (hc : ∀ n ∈ c, n.1 < v.nblocks)
    (hchild : ∀ n ∈ c, ∀ m, Tight (m.e ++ n.2.1) → Loads env m n.2.1 n.2.2 (child (v.data n.1) m))
    (ht : Tight (m.e ++ c.flatMap fun n => n.2.1)) :
    Loads env m (c.flatMap fun n => n.2.1) (c.flatMap fun n => n.1 :: n.2.2)
      (loadIdxs env v child p c.length o m) := by
  induction c generalizing o m with
  | nil => exact ⟨fun m' h => by cases h; simp, fun _ => rfl⟩
  | cons n c ih =>
    obtain ⟨⟨h1, h2⟩, hrest⟩ := hp
    have hn := hc n (List.mem_cons_self ..)
    rw [List.length_cons, loadIdxs]
    simp only [h1, h2]
    rw [if_neg (by omega)]
    rw [List.flatMap_cons, ← List.append_assoc] at ht
    split
    · next hnone =>
      refine ⟨nofun, fun hg => ?_⟩
      have := treePush_isSome (m := m) (b := n.1) (hg.tree m.tree.length)
      rw [hnone] at this
      cases this
    · next m₁ hpush =>
      obtain ⟨he1, ht1⟩ := treePush_some hpush
      split_ifs with hnode
      · exact ⟨nofun, fun hg => by rw [hg.node] at hnode; cases hnode⟩
      · obtain ⟨h3, h4⟩ := hchild n (List.mem_cons_self ..) m₁ (by rw [he1]; exact ht.left)
        split
        · next hnone =>
          refine ⟨nofun, fun hg => ?_⟩
          have := h4 hg
          rw [hnone] at this
          cases this
        · next m₂ hsome =>
          obtain ⟨he2, ht2⟩ := h3 m₂ hsome
          obtain ⟨h5, h6⟩ := ih (m := m₂) hrest (fun y hy => hc y (List.mem_cons_of_mem _ hy))
            (fun y hy => hchild y (List.mem_cons_of_mem _ hy)) (by rwa [he2, he1])
          refine ⟨fun m' hm' => ?_, h6⟩
          obtain ⟨h7, h8⟩ := h5 m' hm'
          rw [h7, h8, he2, ht2, he1, ht1]
          simp [List.flatMap_cons]

theorem loadNode_loads (hv : v.nblocks < 2 ^ 32) {d room : ℕ} (h : Holds v d p o room e t)
    (hfit : ∀ x ∈ e, x.Fits v.nblocks) (ht : Tight (m.e ++ e)) :
    Loads env m e t (loadNode env v d p o room m) := by
  induction d generalizing p o room e t m with
  | zero =>
    obtain ⟨⟨h1, h2, h3⟩, h4, h5, rfl⟩ := h
    rw [loadNode, if_neg (by omega), h2]
    exact loadLeaves_loads hv h5 hfit ht
  | succ d ih =>
    obtain ⟨c, ⟨h1, h2, h3⟩, h4, h5, h6, rfl, rfl⟩ := h
    rw [loadNode, if_neg (by omega), h2]
    refine loadIdxs_loads h5 (fun n hn => (h6 n hn).1) (fun n hn m ht => ?_) ht
    exact ih (h6 n hn).2 (fun x hx => hfit x (List.mem_flatMap.mpr ⟨n, hn, hx⟩)) ht

end BananaOS.Ext4
