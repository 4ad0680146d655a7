import BananaOS.Ext4.Nodes
import Mathlib.Data.List.Perm.Basic
import Mathlib.Data.List.Nodup
import Mathlib.Data.List.Flatten

/-!
# The tree that is stored

`emap_store` and then `emap_load`.  The blocks of the new tree come from `balloc` one at a time, each
of them free until then, so no two are the same and none is of the old tree or holds anything else
(`Taken`).  Each is filled once, and the nodes hold the list in chunks of `LEAF_MAX`, one or two
levels deep.

Three things may go wrong without a word.  `tree_push` may have no memory when it has to grow: the
block is in the tree, and `i_blocks` does not count it.  `bfree` may not get the bitmap block of a
block of the old tree: that one stays in use.  And a `balloc` that cannot get a bitmap block does not
set `*got`; where something other than zero is found there, block 0 is taken for the tree.
-/

namespace BananaOS.Ext4

open Lib

variable {v v' : Vol} {had : ℕ → ℕ → Bool} {env : StoreEnv} {l l' leaf : List ℕ} {m m' : EMap}
  {b j k n goal : ℕ}

/-! ## Chunks of a list -/

theorem flatMap_chunks {α : Type*} (l : List α) (n k : ℕ) :
    ((List.range k).flatMap fun i => (l.drop (i * n)).take n) = l.take (k * n) := by
  induction k with
  | zero => simp
  | succ k ih =>
    rw [List.range_succ, List.flatMap_append, ih, List.flatMap_singleton, Nat.succ_mul,
      List.take_add]

/-! ## Freeing blocks one by one -/

theorem Vol.bfree_nblocks {had : ℕ → Bool} {blk n : ℕ} : (v.bfree had blk n).nblocks = v.nblocks := by
  have : ∀ m blk n (v : Vol), (Vol.bfreeLoop had m blk n v).nblocks = v.nblocks := by
    intro m
    induction m with
    | zero => exact fun _ _ _ => rfl
    | succ m ih =>
      intro blk n v
      rw [Vol.bfreeLoop]
      by_cases hn : n = 0
      · rw [if_pos hn]
      · rw [if_neg hn]
        by_cases hg : had (blk / bpg) = false
        · simp only [hg, if_true]
        · simp only
          rw [if_neg hg, ih]
          rfl
  exact this n blk n v

theorem freeEach_nblocks : (freeEach had j l v).nblocks = v.nblocks := by
  induction l generalizing j v with
  | nil => rfl
  | cons b l ih => rw [freeEach, ih, Vol.bfree_nblocks]

theorem freeEach_apart (hl : ∀ c ∈ l, c + 1 < 2 ^ 32) (hb : b ∉ l) :
    (freeEach had j l v).used b = v.used b ∧ (freeEach had j l v).data b = v.data b := by
  induction l generalizing j v with
  | nil => exact ⟨rfl, rfl⟩
  | cons c l ih =>
    rw [List.mem_cons, not_or] at hb
    have hc := hl c (List.mem_cons_self ..)
    obtain ⟨h1, h2⟩ := ih (j := j + 1) (v := v.bfree (had j) c 1)
      (fun d hd => hl d (List.mem_cons_of_mem _ hd)) hb.2
    obtain ⟨h3, h4⟩ := Vol.bfree_apart (v := v) (n := 1) hc
      (b := b) (by have := hb.1; omega)
    rw [freeEach, h1, h2, h3, h4]
    exact ⟨rfl, rfl⟩

/-- One block is freed if its bitmap block is to be had. -/
theorem Vol.bfree_one {had : ℕ → Bool} :
    (v.bfree had b 1).used b = if had (b / bpg) then false else v.used b := by
  have hmod : b % bpg < bpg := Nat.mod_lt _ (by decide)
  unfold Vol.bfree
  rw [Vol.bfreeLoop, if_neg (by decide)]
  simp only
  cases had (b / bpg) with
  | false => rfl
  | true =>
    have hk : (if bpg - b % bpg < 1 then bpg - b % bpg else 1) = 1 := if_neg (by omega)
    rw [hk]
    simp [Vol.bfreeLoop, Vol.drop]

/-- Of the blocks freed one by one, those are free whose bitmap block was to be had once. -/
theorem freeEach_used (hl : ∀ c ∈ l, c + 1 < 2 ^ 32) (hused : v.used b = true) :
    (freeEach had j l v).used b = false ↔ ∃ i, l[i]? = some b ∧ had (j + i) (b / bpg) = true := by
  induction l generalizing j v with
  | nil => simp [freeEach, hused]
  | cons c l ih =>
    have hc := hl c (List.mem_cons_self ..)
    have hl' : ∀ d ∈ l, d + 1 < 2 ^ 32 := fun d hd => hl d (List.mem_cons_of_mem _ hd)
    have hshift : (∃ i, (c :: l)[i]? = some b ∧ had (j + i) (b / bpg) = true) ↔
        (c = b ∧ had j (b / bpg) = true) ∨ ∃ i, l[i]? = some b ∧ had (j + 1 + i) (b / bpg) = true := by
      constructor
      · rintro ⟨i, h1, h2⟩
        cases i with
        | zero =>
          rw [List.getElem?_cons_zero, Option.some.injEq] at h1
          exact .inl ⟨h1, h2⟩
        | succ i =>
          rw [List.getElem?_cons_succ] at h1
          exact .inr ⟨i, h1, by rwa [show j + 1 + i = j + (i + 1) by omega]⟩
      · rintro (⟨rfl, h⟩ | ⟨i, h1, h2⟩)
        · exact ⟨0, rfl, h⟩
        · exact ⟨i + 1, by rwa [List.getElem?_cons_succ], by rwa [show j + (i + 1) = j + 1 + i by omega]⟩
    rw [freeEach, hshift]
    by_cases hcb : c = b ∧ had j (b / bpg) = true
    · obtain ⟨rfl, hh⟩ := hcb
      refine iff_of_true ?_ (.inl ⟨rfl, hh⟩)
      have hfree : (v.bfree (had j) c 1).used c = false := by rw [Vol.bfree_one, if_pos hh]
      -- a block that is free stays so
      have hstay : ∀ (l : List ℕ) j (v : Vol), (∀ d ∈ l, d + 1 < 2 ^ 32) → v.used c = false →
          (freeEach had j l v).used c = false := by
        intro l
        induction l with
        | nil => exact fun _ _ _ h => h
        | cons d l ih' =>
          intro j v hl h
          have hd := hl d (List.mem_cons_self ..)
          refine ih' _ _ (fun e he => hl e (List.mem_cons_of_mem _ he)) ?_
          by_cases hdc : d = c
          · subst hdc
            rw [Vol.bfree_one, h, ite_self]
          · rw [(Vol.bfree_apart hd (by omega)).1, h]
      exact hstay _ _ _ hl' hfree
    · have hkeep : (v.bfree (had j) c 1).used b = true := by
        by_cases hcb' : c = b
        · subst hcb'
          rw [Vol.bfree_one, if_neg (fun h => hcb ⟨rfl, h⟩), hused]
        · rw [(Vol.bfree_apart hc (by omega)).1, hused]
      rw [ih hl' hkeep, or_iff_right hcb]

/-! ## The blocks of the new tree -/

/-- `tree_push` for the `k`-th block has to grow the list: at the 1st, 5th, 9th, 17th, .. -/
def Grows (k : ℕ) : Prop := k = 0 ∨ ∃ j, k = 4 * 2 ^ j

/-- The room of a list of tree blocks that was pushed from empty. -/
def Roomy (m : EMap) : Prop :=
  (m.tree.length = 0 ∧ m.tcap = 0) ∨
    ∃ j, m.tcap = 4 * 2 ^ j ∧ m.tree.length ≤ m.tcap ∧ (j = 0 ∨ m.tcap < 2 * m.tree.length)
      ∧ 0 < m.tree.length

theorem Roomy.grows (h : Roomy m) : m.tree.length = m.tcap ↔ Grows m.tree.length := by
  rcases h with ⟨h1, h2⟩ | ⟨j, h1, h2, h3, h4⟩
  · exact iff_of_true (h1.trans h2.symm) (.inl h1)
  · constructor
    · exact fun h => .inr ⟨j, h.trans h1⟩
    · rintro (h | ⟨i, hi⟩)
      · omega
      · have hle : i ≤ j := (Nat.pow_le_pow_iff_right (show 1 < 2 by decide)).mp (by omega)
        rcases h3 with rfl | h3
        · obtain rfl : i = 0 := by omega
          omega
        · have hlt : j < i + 1 := (Nat.pow_lt_pow_iff_right (show 1 < 2 by decide)).mp (by
            rw [pow_succ]
            omega)
          obtain rfl : i = j := by omega
          omega

theorem Roomy.push {mem : Bool} (h : Roomy m) (hp : treePush mem m b = some m') : Roomy m' := by
  unfold treePush at hp
  by_cases hfull : m.tree.length = m.tcap
  · rw [if_pos hfull] at hp
    cases mem with
    | false => cases hp
    | true =>
      cases hp
      right
      rcases h with ⟨h3, h4⟩ | ⟨j, h3, h4, h5, h6⟩
      · rw [if_pos h4]
        refine ⟨0, rfl, ?_, .inl rfl, ?_⟩ <;> simp [h3]
      · rw [if_neg (by omega)]
        refine ⟨j + 1, ?_, ?_, .inr ?_, ?_⟩ <;> simp only [List.length_append, List.length_singleton]
        · rw [h3, pow_succ, Nat.mul_assoc]
        all_goals omega
  · rw [if_neg hfull] at hp
    cases hp
    right
    rcases h with ⟨h3, h4⟩ | ⟨j, h3, h4, h5, h6⟩
    · omega
    · refine ⟨j, h3, ?_, h5.imp_right ?_, ?_⟩ <;> simp only [List.length_append, List.length_singleton]
      all_goals omega

theorem Roomy.push_none {mem : Bool} (h : Roomy m) :
    treePush mem m b = none ↔ Grows m.tree.length ∧ mem = false := by
  rw [← h.grows]
  unfold treePush
  cases mem <;> split_ifs with h1 <;> simp_all

/-- A `balloc` is as if every bitmap block were to be had, or it was cut short. -/
theorem Vol.ballocLoop_had {had : ℕ → Bool} {junk want m k : ℕ} :
    v.ballocLoop had junk goal want m k = v.ballocLoop (fun _ => true) junk goal want m k ∨
      v.ballocLoop had junk goal want m k = ((0, junk), v) := by
  induction m generalizing k with
  | zero => exact .inl rfl
  | succ m ih =>
    rw [ballocLoop_succ rfl rfl, ballocLoop_succ rfl rfl, if_neg Bool.true_eq_false.mp]
    by_cases hfree : v.free ((goal / bpg + k) % v.groups) = 0
    · rw [if_pos hfree, if_pos hfree]
      exact ih
    · rw [if_neg hfree, if_neg hfree]
      by_cases hhad : had ((goal / bpg + k) % v.groups) = false
      · rw [if_pos hhad]
        exact .inr rfl
      · rw [if_neg hhad]
        split
        · exact .inl rfl
        · exact ih

/-- No `balloc` of the tree's blocks misses a bitmap block on its way. -/
def Whole (env : StoreEnv) (goal : ℕ) : ℕ → ℕ → Vol → Prop
  | 0, _, _ => True
  | n + 1, k, v =>
    v.balloc (env.had k) (env.junk k) goal 1 = v.balloc (fun _ => true) (env.junk k) goal 1 ∧
      Whole env goal n (k + 1) (v.balloc (env.had k) (env.junk k) goal 1).2

theorem Vol.take_used {g r : ℕ} (c : ℕ) :
    (v.take g b r).used c = true ↔ v.used c = true ∨ (b ≤ c ∧ c < b + r) := by
  unfold Vol.take
  simp only
  split_ifs with h
  · simp [h]
  · simp [h]

/-- A `balloc` of one block that did not end with `*got` zero: the block is new, or `0` and the call
was cut short. -/
theorem Vol.balloc_one {had : ℕ → Bool} {junk : ℕ} (hv : 0 < v.nblocks) (hzero : v.used 0 = true)
    (hgot : (v.balloc had junk goal 1).1.2 ≠ 0) :
    let r := v.balloc had junk goal 1
    (r.1.1 ≠ 0 → r.1.1 < v.nblocks ∧ v.used r.1.1 = false) ∧
      (∀ c, r.2.used c = true ↔ v.used c = true ∨ c = r.1.1) ∧ r.2.data = v.data ∧
      r.2.nblocks = v.nblocks ∧
      (r.1.1 ≠ 0 ↔ r = v.balloc (fun _ => true) junk goal 1) := by
  have hcases := @balloc_cases had _ 1 goal junk (by decide) hv
  have hall := @balloc_cases (fun _ => true) _ 1 goal junk (by decide) hv
  have hhad : v.balloc had junk goal 1 = v.balloc (fun _ => true) junk goal 1 ∨
      v.balloc had junk goal 1 = ((0, junk), v) := ballocLoop_had
  -- block 0 is in use, so it is never the block that is given
  have hgiven : ∀ r, Balloc (fun _ => true) junk 1 v r → r.1.1 ≠ 0 ∨ r.1.2 = 0 := by
    intro r h
    cases h with
    | full => exact .inr rfl
    | cut h => cases h
    | @given b r hr _ _ _ hclear =>
      left
      rintro rfl
      rw [hclear 0 le_rfl (by omega)] at hzero
      cases hzero
  generalize v.balloc had junk goal 1 = r at *
  generalize v.balloc (fun _ => true) junk goal 1 = s at *
  cases hcases with
  | full => exact absurd rfl hgot
  | cut =>
    simp only [ne_eq, not_true_eq_false, false_imp_iff, true_and, false_iff]
    refine ⟨fun c => ⟨.inl, ?_⟩, ?_⟩
    · rintro (h | rfl)
      · exact h
      · exact hzero
    · intro heq
      rw [← heq] at hall
      exact (hgiven _ hall).elim (fun h => h rfl) hgot
  | @given b r hr hw hb hg hclear =>
    obtain rfl : r = 1 := by omega
    have hb0 : b ≠ 0 := by
      rintro rfl
      rw [hclear 0 le_rfl (by omega)] at hzero
      cases hzero
    refine ⟨fun _ => ⟨by simp only; omega, hclear b le_rfl (by omega)⟩, fun c => ?_, rfl, rfl,
      iff_of_true hb0 (hhad.resolve_right fun h => ?_)⟩
    · rw [take_used]
      exact or_congr_right (by simp only; omega)
    · exact hb0 (congrArg (fun r => r.1.1) h)

/-- The blocks `l` were taken, from a volume that has block 0 in use.  A block `0` among them is one
that was not given. -/
structure Taken (v : Vol) (l : List ℕ) (v' : Vol) : Prop where
  free : ∀ b ∈ l, b ≠ 0 → b < v.nblocks ∧ v.used b = false
  distinct : l.Pairwise fun a b => a = b → a = 0
  used : ∀ b, v'.used b = true ↔ v.used b = true ∨ b ∈ l
  data : v'.data = v.data
  nblocks : v'.nblocks = v.nblocks

theorem Taken.nil (v : Vol) : Taken v [] v :=
  ⟨by simp, List.Pairwise.nil, by simp, rfl, rfl⟩

/-- One more block is taken. -/
theorem Taken.snoc {b : ℕ} (h : Taken v l v')
    (hb : b ≠ 0 → b < v'.nblocks ∧ v'.used b = false) {w : Vol}
    (hw : ∀ c, w.used c = true ↔ v'.used c = true ∨ c = b) (hd : w.data = v'.data)
    (hn : w.nblocks = v'.nblocks) : Taken v (l ++ [b]) w := by
  obtain ⟨h1, h2, h3, h4, h5⟩ := h
  refine ⟨fun c hc hc0 => ?_, ?_, fun c => ?_, hd.trans h4, hn.trans h5⟩
  · rcases List.mem_append.mp hc with hc | hc
    · exact h1 c hc hc0
    · obtain rfl := List.mem_singleton.mp hc
      obtain ⟨h6, h7⟩ := hb hc0
      refine ⟨h5 ▸ h6, ?_⟩
      by_contra h8
      rw [(h3 c).mpr (.inl (by simpa using h8))] at h7
      cases h7
  · refine List.pairwise_append.mpr ⟨h2, List.pairwise_singleton .., fun a ha c hc hac => ?_⟩
    obtain rfl := List.mem_singleton.mp hc
    by_contra ha0
    have := (hb (hac ▸ ha0)).2
    rw [(h3 c).mpr (.inr (hac ▸ ha))] at this
    cases this
  · rw [hw, h3, List.mem_append, List.mem_singleton, or_assoc]

/-- **The blocks of the new tree.**  Each is given by a `balloc`, or is `0` where one was cut short;
and the pushes that had the memory to grow noted them. -/
theorem takeTree_spec (h : takeTree env goal n leaf m v = (some l', m', v'))
    {v₀ : Vol} (hv : 0 < v.nblocks) (ht : Taken v₀ leaf v) (hzero : v₀.used 0 = true) :
    ∃ l, l' = leaf ++ l ∧ l.length = n ∧ Taken v₀ l' v' ∧ m'.e = m.e ∧
      (0 ∉ l ↔ Whole env goal n leaf.length v) ∧
      (m.tree.length ≤ leaf.length → m'.tree.length ≤ l'.length ∧
        (Roomy m → (m'.tree.length = l'.length ↔ m.tree.length = leaf.length ∧
          ∀ k, leaf.length ≤ k → k < l'.length → Grows k → env.tree k = true))) := by
  induction n generalizing leaf m v with
  | zero =>
    cases h
    refine ⟨[], by simp, rfl, ht, rfl, by simp [Whole], fun hle => ⟨hle, fun _ => ?_⟩⟩
    exact ⟨fun h => ⟨h, fun k h1 h2 => by omega⟩, fun h => h.1⟩
  | succ n ih =>
    rw [takeTree] at h
    simp only at h
    by_cases hgot : (v.balloc (env.had leaf.length) (env.junk leaf.length) goal 1).1.2 = 0
    · rw [if_pos hgot] at h
      cases h
    rw [if_neg hgot] at h
    have hz : v.used 0 = true := (ht.used 0).mpr (.inl hzero)
    obtain ⟨h1, h2, h3, h4, h5⟩ := Vol.balloc_one hv hz hgot
    have ht' := ht.snoc h1 h2 h3 h4
    obtain ⟨l, rfl, hlen, htaken, he, hwhole, htree⟩ := ih h (by rw [h4]; exact hv) ht'
    refine ⟨_ :: l, by rw [List.append_assoc, List.singleton_append], by rw [List.length_cons, hlen],
      htaken, ?_, ?_, fun hle => ?_⟩
    · rw [he]
      cases hp : treePush (env.tree leaf.length) m
          (v.balloc (env.had leaf.length) (env.junk leaf.length) goal 1).1.1 with
      | none => rfl
      | some m₁ => exact (treePush_some hp).1
    · rw [List.mem_cons, not_or, hwhole, Whole, ← h5, List.length_append, List.length_singleton]
      exact and_congr_left' ne_comm
    · rw [List.length_append, List.length_singleton] at htree
      generalize (v.balloc (env.had leaf.length) (env.junk leaf.length) goal 1).1.1 = b at *
      cases hp : treePush (env.tree leaf.length) m b with
      | none =>
        rw [hp, Option.getD_none] at htree
        obtain ⟨h6, h7⟩ := htree (by omega)
        refine ⟨h6, fun hr => ?_⟩
        obtain ⟨hg, hmem⟩ := hr.push_none.mp hp
        rw [h7 hr]
        refine iff_of_false (fun h => by omega) fun ⟨h8, h9⟩ => ?_
        have := h9 leaf.length le_rfl (by simp) (h8 ▸ hg)
        rw [hmem] at this
        cases this
      | some m₁ =>
        rw [hp, Option.getD_some] at htree
        have hlen₁ : m₁.tree.length = m.tree.length + 1 := by simp [(treePush_some hp).2]
        obtain ⟨h6, h7⟩ := htree (by omega)
        refine ⟨h6, fun hr => ?_⟩
        rw [h7 (hr.push hp), hlen₁]
        constructor
        · rintro ⟨h8, h9⟩
          refine ⟨by omega, fun k hk1 hk2 hk3 => ?_⟩
          rcases Nat.eq_or_lt_of_le hk1 with rfl | hlt
          · by_contra hne
            have := hr.push_none (b := b).mpr ⟨by rwa [show m.tree.length = leaf.length by omega],
              by simpa using hne⟩
            rw [this] at hp
            cases hp
          · exact h9 k hlt hk2 hk3
        · rintro ⟨h8, h9⟩
          exact ⟨by omega, fun k hk1 hk2 => h9 k (by omega) hk2⟩

/-! ## The nodes of the new tree -/

variable {node : ℕ → Bool} {fill : ℕ → Blk} {e : List Ext} {r r' : Blk} {i : ℕ}

/-- Each block of a loop that came to its end is filled; blocks `0` may be filled again. -/
theorem storeNodes_spec (h : storeNodes node fill k l v = (true, v'))
    (hl : l.Pairwise fun a b => a = b → a = 0) :
    v'.used = v.used ∧ v'.nblocks = v.nblocks ∧ (∀ b ∉ l, v'.data b = v.data b) ∧
      ∀ i b, l[i]? = some b → b ≠ 0 → v'.data b = fill (k + i) := by
  induction l generalizing k v with
  | nil =>
    cases h
    exact ⟨rfl, rfl, fun _ _ => rfl, by simp⟩
  | cons b l ih =>
    rw [storeNodes] at h
    by_cases hk : node k = true
    · rw [if_pos hk] at h
      obtain ⟨hb, hl'⟩ := List.pairwise_cons.mp hl
      obtain ⟨h1, h2, h3, h4⟩ := ih h hl'
      refine ⟨h1, h2, fun c hc => ?_, fun i c hi hc => ?_⟩
      · rw [List.mem_cons, not_or] at hc
        rw [h3 c hc.2]
        exact if_neg hc.1
      · cases i with
        | zero =>
          rw [List.getElem?_cons_zero, Option.some.injEq] at hi
          subst hi
          rw [h3 b fun hmem => hc (hb b hmem rfl)]
          exact if_pos rfl
        | succ i =>
          rw [List.getElem?_cons_succ] at hi
          rw [h4 i c hi hc, show k + 1 + i = k + (i + 1) by omega]
    · rw [if_neg hk] at h
      cases h

/-- The leaves: where each is, and what it holds. -/
def leavesOf (e : List Ext) (leaf : List ℕ) (n : ℕ) : List (ℕ × List Ext × List ℕ) :=
  (List.range n).map fun i => (leaf.getD i 0, (e.drop (i * leafMax)).take leafMax, [])

/-- The index blocks of a tree of two levels: where each is, and what is below it. -/
def idxsOf (L : List (ℕ × List Ext × List ℕ)) (idx : List ℕ) (n : ℕ) :
    List (ℕ × List Ext × List ℕ) :=
  (List.range n).map fun k =>
    (idx.getD k 0, ((L.drop (k * leafMax)).take leafMax).flatMap (fun n => n.2.1),
      ((L.drop (k * leafMax)).take leafMax).flatMap fun n => n.1 :: n.2.2)

theorem map_getD_range {l : List ℕ} (h : n ≤ l.length) :
    (List.range n).map (fun i => l.getD i 0) = l.take n := by
  refine List.ext_getElem (by simp [h]) fun i h1 h2 => ?_
  rw [List.length_map, List.length_range] at h1
  rw [List.getElem_map, List.getElem_range, List.getElem_take, List.getD_eq_getElem?_getD,
    List.getElem?_eq_getElem (by omega), Option.getD_some]

theorem leavesOf_fst (h : n ≤ leaf.length) : (leavesOf e leaf n).map Prod.fst = leaf.take n := by
  rw [leavesOf, List.map_map, ← map_getD_range h]
  rfl

theorem leavesOf_exts (h : e.length ≤ n * leafMax) :
    (leavesOf e leaf n).flatMap (fun n => n.2.1) = e := by
  rw [leavesOf, List.flatMap_map, flatMap_chunks, List.take_of_length_le h]

theorem leavesOf_blocks (h : n ≤ leaf.length) :
    (leavesOf e leaf n).flatMap (fun n => n.1 :: n.2.2) = leaf.take n := by
  rw [leavesOf, List.flatMap_map, ← map_getD_range h]
  exact List.flatMap_pure_eq_map ..

theorem leafIdxs_snd (h : n ≤ leaf.length) : (leafIdxs e leaf n).map Prod.snd = leaf.take n := by
  rw [leafIdxs, List.map_map, ← map_getD_range h]
  rfl

theorem idxIdxs_snd (h : leaf.length = n + k) : (idxIdxs e leaf n k).map Prod.snd = leaf.drop n := by
  have hd : (List.range k).map (fun i => (leaf.drop n).getD i 0) = leaf.drop n := by
    rw [map_getD_range (by rw [List.length_drop]; omega), List.take_of_length_le]
    rw [List.length_drop]
    omega
  rw [idxIdxs, List.map_map, ← hd]
  refine List.map_congr_left fun i _ => ?_
  simp [List.getD_eq_getElem?_getD]

theorem idxsOf_exts {L : List (ℕ × List Ext × List ℕ)} {idx : List ℕ} (h : L.length ≤ n * leafMax) :
    (idxsOf L idx n).flatMap (fun n => n.2.1) = L.flatMap fun n => n.2.1 := by
  rw [idxsOf, List.flatMap_map, ← List.flatMap_assoc, flatMap_chunks, List.take_of_length_le h]

theorem idxsOf_blocks {L : List (ℕ × List Ext × List ℕ)} {idx : List ℕ} (h : L.length ≤ n * leafMax)
    (hn : idx.length = n) :
    ((idxsOf L idx n).flatMap fun n => n.1 :: n.2.2).Perm
      (idx ++ L.flatMap fun n => n.1 :: n.2.2) := by
  have hidx : (List.range n).flatMap (fun k => [idx.getD k 0]) = idx := by
    rw [show ((List.range n).flatMap fun k => [idx.getD k 0]) = (List.range n).map fun k => idx.getD k 0
      from List.flatMap_pure_eq_map .., map_getD_range hn.ge, List.take_of_length_le hn.le]
  have hL : (List.range n).flatMap (fun k => ((L.drop (k * leafMax)).take leafMax).flatMap
      fun n => n.1 :: n.2.2) = L.flatMap fun n => n.1 :: n.2.2 := by
    rw [← List.flatMap_assoc, flatMap_chunks, List.take_of_length_le h]
  rw [idxsOf, List.flatMap_map]
  conv_rhs => rw [← hL, ← hidx]
  exact (List.flatMap_append_perm (List.range n) (fun k => [idx.getD k 0]) _).symm

/-- How many leaves and index blocks a list of extents has. -/
theorem nodes_le (h4 : 4 < n) (hn : n ≤ 4 * leafMax * leafMax) :
    0 < nleafOf n ∧ n ≤ nleafOf n * leafMax ∧ nleafOf n ≤ 4 * leafMax ∧
      ((nidxOf (nleafOf n) = 0 ∧ nleafOf n ≤ 4) ∨
        (nidxOf (nleafOf n) ≠ 0 ∧ nidxOf (nleafOf n) ≤ 4 ∧
          nleafOf n ≤ nidxOf (nleafOf n) * leafMax)) := by
  unfold nidxOf nleafOf leafMax at *
  split_ifs <;> omega

theorem length_leavesOf : (leavesOf e leaf n).length = n := by simp [leavesOf]

/-- The leaves hold their chunks of the list. -/
theorem leaves_hold (hfit : ∀ x ∈ e, x.Fits v.nblocks) (hv : v.nblocks < 2 ^ 32)
    (hn : n ≤ leaf.length) (hlt : ∀ b ∈ leaf, b < v.nblocks)
    (hdata : ∀ i b, leaf[i]? = some b → i < n → v.data b = leafNode e i) :
    ∀ x ∈ leavesOf e leaf n, x.1 < v.nblocks ∧ Holds v 0 (v.data x.1) 0 leafMax x.2.1 x.2.2 := by
  intro x hx
  obtain ⟨i, hi, rfl⟩ := List.mem_map.mp hx
  rw [List.mem_range] at hi
  have hget : leaf[i]? = some (leaf.getD i 0) := by
    rw [List.getD_eq_getElem?_getD, List.getElem?_eq_getElem (by omega), Option.getD_some]
  have hlen : ((e.drop (i * leafMax)).take leafMax).length ≤ leafMax := by
    rw [List.length_take]
    exact Nat.min_le_left ..
  refine ⟨hlt _ (List.mem_of_getElem? hget), ?_⟩
  simp only
  rw [hdata i _ hget hi]
  exact holds_leaf (fun y hy => hfit y (List.mem_of_mem_drop (List.mem_of_mem_take hy))) hv hlen
    (hlen.trans_lt (by decide))

theorem getElem?_take_of_lt {α : Type*} {l : List α} (h : i < n) : (l.take n)[i]? = l[i]? := by
  rw [List.getElem?_take, if_pos h]

/-- What a loop over the tree's blocks leaves alone, whether it comes to its end or not. -/
theorem storeNodes_frame :
    (storeNodes node fill k l v).2.used = v.used ∧ (storeNodes node fill k l v).2.nblocks = v.nblocks ∧
      ∀ b ∉ l, (storeNodes node fill k l v).2.data b = v.data b := by
  induction l generalizing k v with
  | nil => exact ⟨rfl, rfl, fun _ _ => rfl⟩
  | cons c l ih =>
    rw [storeNodes]
    by_cases hk : node k = true
    · rw [if_pos hk]
      obtain ⟨h1, h2, h3⟩ := ih (k := k + 1) (v := v.set c (fill k))
      refine ⟨h1, h2, fun b hb => ?_⟩
      rw [List.mem_cons, not_or] at hb
      rw [h3 b hb.2]
      exact if_neg hb.1
    · rw [if_neg hk]
      exact ⟨rfl, rfl, fun _ _ => rfl⟩

/-- What the new tree leaves alone: the bitmaps, the blocks it was not given, and the inode around
the root. -/
theorem storeTree_frame {rc : Bool} (h : storeTree env r e leaf v = (rc, r', v'))
    (hmax : e.length ≤ 4 * leafMax * leafMax) (h4 : 4 < e.length) :
    v'.used = v.used ∧ v'.nblocks = v.nblocks ∧ (∀ b ∉ leaf, v'.data b = v.data b) ∧
      ∀ i, i < rootAt ∨ rootAt + 60 ≤ i → r' i = r i := by
  obtain ⟨-, -, -, hidx⟩ := nodes_le h4 hmax
  unfold storeTree at h
  simp only at h
  generalize nleafOf e.length = nleaf at *
  generalize nidxOf nleaf = nidx at *
  obtain ⟨h1, h2, h3⟩ := storeNodes_frame (k := 0)
    (l := leaf.take nleaf) (v := v)
  generalize storeNodes env.node (leafNode e) 0 (leaf.take nleaf) v = s at *
  by_cases hz : nidx = 0
  · rw [if_pos hz, Prod.mk.injEq, Prod.mk.injEq] at h
    obtain ⟨-, rfl, rfl⟩ := h
    refine ⟨h1, h2, fun b hb => h3 b fun hm => hb (List.mem_of_mem_take hm), fun i hi => ?_⟩
    have hl : (leafIdxs e leaf nleaf).length ≤ 4 := by
      rw [leafIdxs, List.length_map, List.length_range]
      omega
    rw [putIdxs_apart (by omega), putHdr_apart (by omega)]
  · rw [if_neg hz, Prod.mk.injEq, Prod.mk.injEq] at h
    obtain ⟨-, rfl, rfl⟩ := h
    obtain ⟨h4, h5, h6⟩ := storeNodes_frame
      (k := nleaf) (l := leaf.drop nleaf) (v := s.2)
    refine ⟨h4.trans h1, h5.trans h2, fun b hb => ?_, fun i hi => ?_⟩
    · rw [h6 b fun hm => hb (List.mem_of_mem_drop hm), h3 b fun hm => hb (List.mem_of_mem_take hm)]
    · have hl : (idxIdxs e leaf nleaf nidx).length ≤ 4 := by
        rw [idxIdxs, List.length_map, List.length_range]
        omega
      rw [putIdxs_apart (by omega), putHdr_apart (by omega)]

/-- **The tree that is stored holds the list**, in the blocks that were taken for it. -/
theorem storeTree_holds (h : storeTree env r e leaf v = (true, r', v')) (h0 : 0 ∉ leaf)
    (hdist : leaf.Pairwise fun a b => a = b → a = 0) (hlt : ∀ b ∈ leaf, b < v.nblocks)
    (hlen : leaf.length = nleafOf e.length + nidxOf (nleafOf e.length)) (h4 : 4 < e.length)
    (hmax : e.length ≤ 4 * leafMax * leafMax) (hfit : ∀ x ∈ e, x.Fits v.nblocks)
    (hv : v.nblocks < 2 ^ 32) :
    ∃ d t, Holds v' d r' rootAt 4 e t ∧ t.Perm leaf := by
  obtain ⟨hpos, hcover, hle, hidx⟩ := nodes_le h4 hmax
  unfold storeTree at h
  simp only at h
  generalize hnl : nleafOf e.length = nleaf at *
  generalize hni : nidxOf nleaf = nidx at *
  have hne : ∀ b ∈ leaf, b ≠ 0 := fun b hb hb0 => h0 (hb0 ▸ hb)
  cases hs : storeNodes env.node (leafNode e) 0 (leaf.take nleaf) v with
  | mk rc w =>
    rw [hs] at h
    simp only at h
    rcases hidx with ⟨hz, hle4⟩ | ⟨hnz, hle4, hcover2⟩
    · -- one level
      rw [if_pos hz, Prod.mk.injEq, Prod.mk.injEq] at h
      obtain ⟨rfl, rfl, rfl⟩ := h
      obtain ⟨h1, h2, h3, h5⟩ := storeNodes_spec hs (hdist.sublist (List.take_sublist ..))
      rw [List.take_of_length_le (by omega)] at h3 h5
      have hhold := @holds_idx r rootAt 0 4 (leafIdxs e leaf nleaf) w 4 (leavesOf e leaf nleaf)
        (by rw [leafIdxs_snd (by omega), leavesOf_fst (by omega)])
        (by rw [length_leavesOf]; omega) (by rw [length_leavesOf]; omega) (by decide)
        (by rw [h2]; exact hv)
        (leaves_hold (by rwa [h2]) (by rw [h2]; exact hv) (by omega) (by rwa [h2])
          fun i b hi _ => by rw [h5 i b hi (hne b (List.mem_of_getElem? hi)), Nat.zero_add])
      rw [length_leavesOf, leavesOf_exts hcover, leavesOf_blocks (by omega)] at hhold
      refine ⟨1, _, hhold, ?_⟩
      rw [List.take_of_length_le (by omega)]
    · -- two levels
      rw [if_neg hnz] at h
      cases hs' : storeNodes env.node (fun k => idxNode e leaf nleaf (k - nleaf)) nleaf
        (leaf.drop nleaf) w with
      | mk rc' w' =>
        rw [hs', Prod.mk.injEq, Prod.mk.injEq, Bool.and_eq_true] at h
        obtain ⟨⟨rfl, rfl⟩, rfl, rfl⟩ := h
        obtain ⟨h1, h2, h3, h5⟩ := storeNodes_spec hs (hdist.sublist (List.take_sublist ..))
        obtain ⟨h6, h7, h8, h9⟩ := storeNodes_spec hs' (hdist.sublist (List.drop_sublist ..))
        -- the index blocks are other blocks than the leaves
        have hleaf : ∀ i b, leaf[i]? = some b → i < nleaf → w'.data b = leafNode e i := by
          intro i b hi hin
          have hb := List.mem_of_getElem? hi
          rw [h8 b, h5 i b (by rwa [getElem?_take_of_lt hin]) (hne b hb), Nat.zero_add]
          intro hbd
          obtain ⟨j, hj, hbj⟩ := List.getElem_of_mem hbd
          rw [List.getElem_drop] at hbj
          rw [List.length_drop] at hj
          obtain ⟨hil, hbi⟩ := List.getElem?_eq_some_iff.mp hi
          refine hne b hb (hbi ▸ List.pairwise_iff_getElem.mp hdist i (nleaf + j) hil (by omega)
            (by omega) ?_)
          rw [hbi, hbj]
        have hidxn : ∀ k < nidx, w'.data ((leaf.drop nleaf).getD k 0) = idxNode e leaf nleaf k ∧
            (leaf.drop nleaf).getD k 0 ∈ leaf := by
          intro k hk
          have hget : (leaf.drop nleaf)[k]? = some ((leaf.drop nleaf).getD k 0) := by
            rw [List.getD_eq_getElem?_getD, List.getElem?_eq_getElem (by rw [List.length_drop]; omega),
              Option.getD_some]
          have hmem := List.mem_of_mem_drop (List.mem_of_getElem? hget)
          refine ⟨?_, hmem⟩
          rw [h9 k _ hget (hne _ hmem), show nleaf + k - nleaf = k by omega]
        have hleaves := leaves_hold (v := w') (n := nleaf) (e := e)
          (by rw [h7, h2]; exact hfit) (by rw [h7, h2]; exact hv) (by omega)
          (by rw [h7, h2]; exact hlt) hleaf
        have hhold := @holds_idx r rootAt 1 4 (idxIdxs e leaf nleaf nidx) w' 4
          (idxsOf (leavesOf e leaf nleaf) (leaf.drop nleaf) nidx)
          (by
            rw [idxIdxs_snd hlen, idxsOf, List.map_map]
            refine Eq.trans ?_ (map_getD_range (by rw [List.length_drop]; omega)).symm
            rw [List.take_of_length_le (by rw [List.length_drop]; omega)])
          (by simp [idxsOf, hle4]) (by simp [idxsOf]; omega) (by decide)
          (by rw [h7, h2]; exact hv) (by
            intro n hn
            obtain ⟨k, hk, rfl⟩ := List.mem_map.mp hn
            rw [List.mem_range] at hk
            obtain ⟨hdk, hmem⟩ := hidxn k hk
            refine ⟨by rw [h7, h2]; exact hlt _ hmem, ?_⟩
            simp only
            rw [hdk]
            have hclen : (((leavesOf e leaf nleaf).drop (k * leafMax)).take leafMax).length ≤ leafMax := by
              rw [List.length_take]
              exact Nat.min_le_left ..
            have := @holds_idx zeros 0 0 leafMax
              (((leafIdxs e leaf nleaf).drop (k * leafMax)).take leafMax) w' _
              (((leavesOf e leaf nleaf).drop (k * leafMax)).take leafMax)
              (by
                rw [List.map_take, List.map_drop, leafIdxs_snd (by omega), List.map_take,
                  List.map_drop, leavesOf_fst (by omega)])
              hclen (hclen.trans_lt (by decide)) (by decide) (by rw [h7, h2]; exact hv)
              (fun n hn => hleaves n (List.mem_of_mem_drop (List.mem_of_mem_take hn)))
            have hsame : (((leafIdxs e leaf nleaf).drop (k * leafMax)).take leafMax).length =
                (((leavesOf e leaf nleaf).drop (k * leafMax)).take leafMax).length := by
              simp [leafIdxs, leavesOf]
            unfold idxNode
            simp only
            rw [hsame]
            exact this)
        have hcov : (leavesOf e leaf nleaf).length ≤ nidx * leafMax := by
          rw [length_leavesOf]
          exact hcover2
        rw [idxsOf_exts hcov, leavesOf_exts hcover] at hhold
        have hcount : (idxsOf (leavesOf e leaf nleaf) (leaf.drop nleaf) nidx).length = nidx := by
          simp [idxsOf]
        rw [hcount] at hhold
        refine ⟨2, _, hhold, (idxsOf_blocks hcov (by rw [List.length_drop]; omega)).trans ?_⟩
        rw [leavesOf_blocks (by omega)]
        refine List.perm_append_comm.trans ?_
        rw [List.take_append_drop]

end BananaOS.Ext4
