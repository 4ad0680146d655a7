import BananaOS.Ext4.Extents

/-!
# An extent list is a map

What `emap_cut`, `emap_add` and `emap_find` do to the map `emapAt` that a sorted list stands for.

Each of the first two rebuilds the list from pieces that are plain to say: `cutPieces` of every
extent, and the list with the new run put in its place.  The pieces are sorted and give the map that
is wanted; that the list built from them by pushes, some of them merged, does so too is `Stands`.

`emap_find` looks for the first extent that ends past a block.  In a sorted list the ends are in
order, so the search has a boundary to find (`Sorted.find`), and either that extent has the block or
the block is in the hole before it.  Past the last extent there is nothing to measure the hole by:
`*run` is then `0xFFFFFFFF`, whatever the block.
-/

namespace BananaOS.Ext4

variable {mem : ℕ → Bool} {had : Ext → ℕ → Bool} {m r r' : EMap} {e p : List Ext} {x n : Ext}
  {v : Vol} {l stop b : ℕ} {free : Bool}

/-! ## The pieces of a cut -/

/-- What is left of an extent when the blocks from `l` up to `stop` go. -/
def cutPieces (l stop : ℕ) (x : Ext) : List Ext :=
  if x.lblk + x.len ≤ l ∨ stop ≤ x.lblk then [x]
  else
    (if x.lblk < l then [⟨x.lblk, x.pblk, l - x.lblk, x.unw⟩] else []) ++
      if stop < x.lblk + x.len then
        [⟨stop, x.pblk + (stop - x.lblk), x.lblk + x.len - stop, x.unw⟩] else []

/-- The pieces are inside the extent. -/
theorem cutPieces_within {y : Ext} (hy : y ∈ cutPieces l stop x) :
    x.lblk ≤ y.lblk ∧ y.lblk + y.len ≤ x.lblk + x.len := by
  unfold cutPieces at hy
  split_ifs at hy <;> simp only [List.mem_append, List.mem_singleton, List.not_mem_nil,
    List.append_nil, List.nil_append] at hy
  · rw [hy]
    omega
  · rcases hy with rfl | rfl
    · simp only
      omega
    · simp only
      omega
  · rw [hy]
    simp only
    omega
  · rw [hy]
    simp only
    omega

theorem cutPieces_sorted (hx : x.Ok) (hls : l ≤ stop) : Sorted (cutPieces l stop x) := by
  obtain ⟨h1, h2, h3⟩ := hx
  unfold cutPieces
  by_cases h4 : x.lblk + x.len ≤ l ∨ stop ≤ x.lblk
  · rw [if_pos h4]
    exact sorted_singleton.mpr ⟨h1, h2, h3⟩
  · rw [if_neg h4]
    refine sorted_append.mpr ⟨?_, ?_, fun y hy z hz => ?_⟩
    · by_cases h5 : x.lblk < l
      · rw [if_pos h5]
        exact sorted_singleton.mpr ⟨by simp only; omega, by simp only; omega, by simp only; omega⟩
      · rw [if_neg h5]
        exact sorted_nil
    · by_cases h5 : stop < x.lblk + x.len
      · rw [if_pos h5]
        exact sorted_singleton.mpr ⟨by simp only; omega, by simp only; omega, by simp only; omega⟩
      · rw [if_neg h5]
        exact sorted_nil
    · split_ifs at hy hz <;> simp only [List.mem_singleton, List.not_mem_nil] at hy hz
      rw [hy, hz]
      simp only
      omega

/-- The pieces have what the extent has outside the cut. -/
theorem emapAt_cutPieces :
    emapAt (cutPieces l stop x) b = if l ≤ b ∧ b < stop then none else emapAt [x] b := by
  by_cases hin : l ≤ b ∧ b < stop
  · rw [if_pos hin, emapAt_eq_none]
    intro y hy hyb
    rw [Ext.has_iff] at hyb
    unfold cutPieces at hy
    split_ifs at hy <;> simp only [List.mem_append, List.mem_singleton, List.not_mem_nil,
      List.append_nil, List.nil_append] at hy
    · rw [hy] at hyb
      omega
    · rcases hy with rfl | rfl <;> simp only at hyb <;> omega
    · rw [hy] at hyb
      simp only at hyb
      omega
    · rw [hy] at hyb
      simp only at hyb
      omega
  · rw [if_neg hin]
    unfold cutPieces
    by_cases h4 : x.lblk + x.len ≤ l ∨ stop ≤ x.lblk
    · rw [if_pos h4]
    · rw [if_neg h4, emapAt_append]
      simp only [emapAt]
      by_cases hx : x.Has b
      · rw [if_pos hx]
        rw [Ext.has_iff] at hx
        by_cases hb : b < l
        · rw [if_pos (by omega)]
          simp only [emapAt]
          rw [if_pos (by simp only [Ext.has_iff]; omega), Option.some_or]
        · have h5 : emapAt (if x.lblk < l then [⟨x.lblk, x.pblk, l - x.lblk, x.unw⟩] else []) b
              = none := by
            rw [emapAt_eq_none]
            intro y hy hyb
            split_ifs at hy <;> simp only [List.mem_singleton, List.not_mem_nil] at hy
            rw [hy, Ext.has_iff] at hyb
            simp only at hyb
            omega
          rw [h5, Option.none_or, if_pos (by omega)]
          simp only [emapAt]
          rw [if_pos (by simp only [Ext.has_iff]; omega),
            show x.pblk + (stop - x.lblk) + (b - stop) = x.pblk + (b - x.lblk) by omega]
      · rw [if_neg hx]
        have h5 : ∀ y ∈ cutPieces l stop x, ¬ y.Has b := fun y hy hyb => by
          have h6 := cutPieces_within hy
          rw [Ext.has_iff] at hyb hx
          omega
        rw [cutPieces, if_neg h4] at h5
        rw [← emapAt_append]
        exact emapAt_eq_none.mpr h5

/-- Sorted lists inside the extents of a sorted list are sorted together. -/
theorem Sorted.flatMap {f : Ext → List Ext} (he : Sorted e) (hf : ∀ x ∈ e, Sorted (f x))
    (hin : ∀ x ∈ e, ∀ y ∈ f x, x.lblk ≤ y.lblk ∧ y.lblk + y.len ≤ x.lblk + x.len) :
    Sorted (e.flatMap f) := by
  induction e with
  | nil => exact sorted_nil
  | cons x e ih =>
    obtain ⟨-, he', hlt⟩ := sorted_cons.mp he
    rw [List.flatMap_cons]
    refine sorted_append.mpr ⟨hf x (List.mem_cons_self ..), ih he'
      (fun y hy => hf y (List.mem_cons_of_mem _ hy))
      (fun y hy => hin y (List.mem_cons_of_mem _ hy)), fun y hy z hz => ?_⟩
    obtain ⟨w, hw, hz⟩ := List.mem_flatMap.mp hz
    have h1 := hin x (List.mem_cons_self ..) y hy
    have h2 := hin w (List.mem_cons_of_mem _ hw) z hz
    have h3 := hlt w hw
    omega

theorem Sorted.cutPieces (he : Sorted e) (hls : l ≤ stop) : Sorted (e.flatMap (cutPieces l stop)) :=
  he.flatMap (fun _ hx => cutPieces_sorted (he.ok _ hx) hls) fun _ _ _ hy => cutPieces_within hy

theorem emapAt_flatMap_cutPieces :
    emapAt (e.flatMap (cutPieces l stop)) b = if l ≤ b ∧ b < stop then none else emapAt e b := by
  induction e with
  | nil => simp [emapAt]
  | cons x e ih =>
    rw [List.flatMap_cons, emapAt_append, ih, emapAt_cutPieces]
    split_ifs with h
    · rfl
    · rw [← emapAt_append, List.singleton_append]

/-! ## `emap_cut` -/

theorem emapPushIf_stands {c : Prop} [Decidable c] (h : emapPushIf mem c m x.lblk x.pblk x.len x.unw = some r)
    (hs : Stands m.e p) (hp : Sorted (p ++ if c then [x] else [])) :
    Stands r.e (p ++ if c then [x] else []) := by
  unfold emapPushIf at h
  by_cases hc : c
  · rw [if_pos hc] at h hp ⊢
    exact emapPush_stands h hs hp
  · rw [if_neg hc] at h ⊢
    cases h
    rwa [List.append_nil]

theorem emapPushIf_ne_none (hmem : ∀ c, mem c = true) {c : Prop} [Decidable c] {lblk pblk len : ℕ}
    {unw : Bool} : emapPushIf mem c m lblk pblk len unw ≠ none := by
  unfold emapPushIf
  split_ifs
  · exact Option.isSome_iff_ne_none.mp (emapPush_isSome hmem)
  · exact Option.some_ne_none _

/-- The blocks on the disk that a cut takes out of a list. -/
def Removed (e : List Ext) (l stop b : ℕ) : Prop :=
  ∃ k, l ≤ k ∧ k < stop ∧ ∃ x ∈ e, x.Has k ∧ b = x.pblk + (k - x.lblk)

/-- The `bfree` of a cut for an extent. -/
def cutFree (had : Ext → ℕ → Bool) (l stop : ℕ) (free : Bool) (x : Ext) (v : Vol) : Vol :=
  let a := if x.lblk > l then x.lblk else l
  let b := if u32 (x.lblk + x.len) < stop then u32 (x.lblk + x.len) else stop
  if free then v.bfree (had x) (u32 (x.pblk + (a - x.lblk))) (b - a) else v

/-- An extent in the way of the cut frees its part of the blocks. -/
theorem cutFree_used (hx : x.Ok) (hin : ¬ (x.lblk + x.len ≤ l ∨ stop ≤ x.lblk)) (hls : l ≤ stop) :
    ((free = false ∨ ¬ Removed [x] l stop b) → (cutFree had l stop free x v).used b = v.used b) ∧
      (free = true → (∀ g, had x g = true) → Removed [x] l stop b →
        (cutFree had l stop free x v).used b = false) := by
  obtain ⟨h1, h2, h3⟩ := hx
  have hrem : ∀ a c, (if x.lblk > l then x.lblk else l) = a →
      (if x.lblk + x.len < stop then x.lblk + x.len else stop) = c →
      (Removed [x] l stop b ↔ x.pblk + (a - x.lblk) ≤ b ∧ b < x.pblk + (a - x.lblk) + (c - a)) := by
    intro a c ha hc
    unfold Removed
    simp only [List.mem_singleton, exists_eq_left, Ext.has_iff]
    constructor
    · rintro ⟨k, hk1, hk2, hk3, rfl⟩
      split_ifs at ha hc <;> omega
    · rintro ⟨hb1, hb2⟩
      refine ⟨x.lblk + (b - x.pblk), ?_⟩
      split_ifs at ha hc <;> omega
  unfold cutFree
  simp only
  rw [u32_of_lt h2]
  generalize ha : (if x.lblk > l then x.lblk else l) = a at hrem ⊢
  generalize hc : (if x.lblk + x.len < stop then x.lblk + x.len else stop) = c at hrem ⊢
  have hrem := hrem a c rfl rfl
  have hac : x.lblk ≤ a ∧ a - x.lblk + (c - a) ≤ x.len := by
    split_ifs at ha hc <;> omega
  rw [u32_of_lt (by omega), hrem]
  cases free with
  | false => exact ⟨fun _ => rfl, nofun⟩
  | true =>
    rw [if_pos rfl]
    refine ⟨fun h => (Vol.bfree_apart (by omega) ?_).1, fun _ hhad h => ?_⟩
    · have := h.resolve_left (by decide)
      omega
    · rw [Vol.bfree_used hhad (by omega)]
      exact if_pos h

theorem removed_cons : Removed (x :: e) l stop b ↔ Removed [x] l stop b ∨ Removed e l stop b := by
  unfold Removed
  constructor
  · rintro ⟨k, h1, h2, y, hy, h3⟩
    rcases List.mem_cons.mp hy with rfl | hy
    · exact .inl ⟨k, h1, h2, y, List.mem_singleton.mpr rfl, h3⟩
    · exact .inr ⟨k, h1, h2, y, hy, h3⟩
  · rintro (⟨k, h1, h2, y, hy, h3⟩ | ⟨k, h1, h2, y, hy, h3⟩)
    · exact ⟨k, h1, h2, y, List.mem_cons.mpr (.inl (List.mem_singleton.mp hy)), h3⟩
    · exact ⟨k, h1, h2, y, List.mem_cons_of_mem _ hy, h3⟩

theorem not_removed_singleton (h : x.lblk + x.len ≤ l ∨ stop ≤ x.lblk) : ¬ Removed [x] l stop b := by
  rintro ⟨k, h1, h2, y, hy, h3, -⟩
  rw [List.mem_singleton.mp hy, Ext.has_iff] at h3
  omega

/-- The two ends of a round of `emap_cut`: the extent goes in as it is, or its pieces do. -/
theorem emapCutLoop_cons (hx : x.Ok) :
    emapCutLoop mem had l stop free (x :: e) r v =
      if x.lblk + x.len ≤ l ∨ stop ≤ x.lblk then
        match emapPush mem r x.lblk x.pblk x.len x.unw with
        | none => (none, v)
        | some r => emapCutLoop mem had l stop free e r v
      else
        match emapPushIf mem (x.lblk < l) r x.lblk x.pblk (l - x.lblk) x.unw with
        | none => (none, v)
        | some r =>
          match emapPushIf mem (stop < x.lblk + x.len) r stop (u32 (x.pblk + (stop - x.lblk)))
            (x.lblk + x.len - stop) x.unw with
          | none => (none, cutFree had l stop free x v)
          | some r => emapCutLoop mem had l stop free e r (cutFree had l stop free x v) := by
  conv_lhs => rw [emapCutLoop]
  simp only [u32_of_lt hx.lend, ge_iff_le, gt_iff_lt, cutFree] <;> rfl

/-- A round of `emap_cut` that goes on. -/
theorem emapCutLoop_round (hx : x.Ok) (h : emapCutLoop mem had l stop free (x :: e) r v = (some r', v'))
    (hs : Stands r.e p) (hp : Sorted (p ++ cutPieces l stop x)) :
    ∃ r₁ v₁, Stands r₁.e (p ++ cutPieces l stop x) ∧
      emapCutLoop mem had l stop free e r₁ v₁ = (some r', v') ∧
      v₁ = if x.lblk + x.len ≤ l ∨ stop ≤ x.lblk then v else cutFree had l stop free x v := by
  rw [emapCutLoop_cons hx] at h
  unfold cutPieces at hp ⊢
  by_cases hc : x.lblk + x.len ≤ l ∨ stop ≤ x.lblk
  · rw [if_pos hc] at h hp ⊢
    cases h1 : emapPush mem r x.lblk x.pblk x.len x.unw with
    | none => simp [h1] at h
    | some r₁ =>
      rw [h1] at h
      exact ⟨r₁, v, emapPush_stands h1 hs hp, h, by rw [if_pos hc]⟩
  · rw [if_neg hc] at h hp ⊢
    rw [← List.append_assoc] at hp ⊢
    have hp1 := (sorted_append.mp hp).1
    cases h1 : emapPushIf mem (x.lblk < l) r x.lblk x.pblk (l - x.lblk) x.unw with
    | none => simp [h1] at h
    | some r₁ =>
      rw [h1] at h
      have hs1 := emapPushIf_stands (x := ⟨x.lblk, x.pblk, l - x.lblk, x.unw⟩) h1 hs hp1
      simp only at h
      cases h2 : emapPushIf mem (stop < x.lblk + x.len) r₁ stop (u32 (x.pblk + (stop - x.lblk)))
        (x.lblk + x.len - stop) x.unw with
      | none => simp [h2] at h
      | some r₂ =>
        rw [h2] at h
        by_cases hst : stop < x.lblk + x.len
        · rw [u32_of_lt (by have := hx.pend; omega)] at h2
          have hs2 := emapPushIf_stands
            (x := ⟨stop, x.pblk + (stop - x.lblk), x.lblk + x.len - stop, x.unw⟩) h2 hs1 hp
          exact ⟨r₂, _, hs2, h, by rw [if_neg hc]⟩
        · unfold emapPushIf at h2
          rw [if_neg hst] at h2
          cases h2
          rw [if_neg hst, List.append_nil]
          exact ⟨r₁, _, hs1, h, by rw [if_neg hc]⟩

/-- The loop of `emap_cut` builds the pieces of all extents and frees what is removed of them. -/
theorem emapCutLoop_stands (h : emapCutLoop mem had l stop free e r v = (some r', v'))
    (he : Sorted e) (hs : Stands r.e p) (hp : Sorted (p ++ e.flatMap (cutPieces l stop)))
    (hls : l ≤ stop) :
    Stands r'.e (p ++ e.flatMap (cutPieces l stop)) ∧
      ((free = false ∨ ¬ Removed e l stop b) → v'.used b = v.used b) ∧
      (free = true → (∀ x g, had x g = true) → Removed e l stop b → v'.used b = false) := by
  induction e generalizing r p v with
  | nil =>
    cases h
    rw [List.flatMap_nil, List.append_nil]
    exact ⟨hs, fun _ => rfl, fun _ _ hr => by simp [Removed] at hr⟩
  | cons x e ih =>
    obtain ⟨hx, he', -⟩ := sorted_cons.mp he
    rw [List.flatMap_cons, ← List.append_assoc] at hp ⊢
    obtain ⟨r₁, v₁, hs1, h1, hv⟩ := emapCutLoop_round hx h hs (sorted_append.mp hp).1
    obtain ⟨ih1, ih2, ih3⟩ := ih h1 he' hs1 hp
    rw [removed_cons]
    have hfirst : ((free = false ∨ ¬ Removed [x] l stop b) → v₁.used b = v.used b) ∧
        (free = true → (∀ g, had x g = true) → Removed [x] l stop b → v₁.used b = false) := by
      by_cases hc : x.lblk + x.len ≤ l ∨ stop ≤ x.lblk
      · rw [if_pos hc] at hv
        exact ⟨fun _ => by rw [hv], fun _ _ hr => absurd hr (not_removed_singleton hc)⟩
      · rw [if_neg hc] at hv
        rw [hv]
        exact cutFree_used hx hc hls
    refine ⟨ih1, fun hr => ?_, fun hf hhad hr => ?_⟩
    · rw [ih2 (hr.imp_right fun h h' => h (.inr h')), hfirst.1 (hr.imp_right fun h h' => h (.inl h'))]
    · by_cases hre : Removed e l stop b
      · exact ih3 hf hhad hre
      · rw [ih2 (.inr hre)]
        exact hfirst.2 hf (hhad x) (hr.resolve_right hre)

/-- With memory for its list, `emap_cut` comes to the end. -/
theorem emapCutLoop_isSome (hmem : ∀ c, mem c = true) :
    (emapCutLoop mem had l stop free e r v).1.isSome := by
  induction e generalizing r v with
  | nil => rfl
  | cons x e ih =>
    rw [emapCutLoop]
    simp only
    by_cases hc : u32 (x.lblk + x.len) ≤ l ∨ x.lblk ≥ stop
    · rw [if_pos hc]
      obtain ⟨r₁, hr⟩ := Option.isSome_iff_exists.mp (emapPush_isSome (m := r) hmem)
      rw [hr]
      exact ih
    · rw [if_neg hc]
      split
      · next hr => exact absurd hr (emapPushIf_ne_none hmem)
      · split
        · next hr => exact absurd hr (emapPushIf_ne_none hmem)
        · exact ih

/-- **`emap_cut` restricts the map.** -/
theorem emapCut_faithful {len : ℕ} (hm : Sorted m.e) (hend : l + len < 2 ^ 32)
    (h : emapCut mem had m l len free v = (some r', v')) :
    Sorted r'.e ∧ (∀ b, emapAt r'.e b = if l ≤ b ∧ b < l + len then none else emapAt m.e b) ∧
      (∀ b, free = false ∨ ¬ Removed m.e l (l + len) b → v'.used b = v.used b) ∧
      (free = true → (∀ x g, had x g = true) → ∀ b, Removed m.e l (l + len) b → v'.used b = false) := by
  unfold emapCut at h
  rw [u32_of_lt hend] at h
  cases h1 : emapCutLoop mem had l (l + len) free m.e EMap.empty v with
  | mk q w =>
    rw [h1] at h
    simp only [Prod.mk.injEq, Option.map_eq_some_iff] at h
    obtain ⟨⟨q, rfl, rfl⟩, rfl⟩ := h
    have hall : ∀ b, _ := fun b => emapCutLoop_stands (b := b) h1 hm Stands.nil
      (by rw [List.nil_append]; exact hm.cutPieces (by omega)) (by omega)
    refine ⟨(hall 0).1.sorted, fun b => ?_, fun b => (hall b).2.1, fun hf hh b => (hall b).2.2 hf hh⟩
    rw [(hall b).1.same, List.nil_append, emapAt_flatMap_cutPieces]

theorem emapCut_isSome (hmem : ∀ c, mem c = true) {len : ℕ} :
    (emapCut mem had m l len free v).1.isSome := by
  unfold emapCut
  simp only [Option.isSome_map]
  exact emapCutLoop_isSome hmem

/-! ## `emap_add` -/

/-- A run put before the first extent that starts after it. -/
def emapPut (n : Ext) : List Ext → List Ext
  | [] => [n]
  | x :: e => if n.lblk < x.lblk then n :: x :: e else x :: emapPut n e

theorem mem_emapPut : x ∈ emapPut n e ↔ x = n ∨ x ∈ e := by
  induction e with
  | nil => simp [emapPut]
  | cons y e ih =>
    rw [emapPut]
    split_ifs
    · exact List.mem_cons
    · rw [List.mem_cons, ih, List.mem_cons]
      tauto

/-- In a hole the run has its place. -/
theorem emapPut_sorted (he : Sorted e) (hn : n.Ok) (hhole : ∀ b, n.Has b → emapAt e b = none) :
    Sorted (emapPut n e) := by
  induction e with
  | nil => exact sorted_singleton.mpr hn
  | cons x e ih =>
    obtain ⟨hx, he', hlt⟩ := sorted_cons.mp he
    have h1 := hx.pos
    have h2 := hn.pos
    have hfree : ∀ b, n.Has b → ¬ x.Has b := fun b hb =>
      emapAt_eq_none.mp (hhole b hb) x (List.mem_cons_self ..)
    simp only [Ext.has_iff] at hfree
    rw [emapPut]
    split_ifs with hlt'
    · -- the run stops before `x` starts, or the first block of `x` would be in both
      have hstop : n.lblk + n.len ≤ x.lblk := by
        by_contra hcon
        exact hfree x.lblk (by omega) (by omega)
      refine sorted_cons.mpr ⟨hn, he, fun y hy => ?_⟩
      rcases List.mem_cons.mp hy with rfl | hy
      · exact hstop
      · have := hlt y hy
        omega
    · have hstop : x.lblk + x.len ≤ n.lblk := by
        by_contra hcon
        exact hfree n.lblk (by omega) (by omega)
      refine sorted_cons.mpr ⟨hx, ih he' fun b hb => ?_, fun y hy => ?_⟩
      · rw [emapAt_eq_none]
        exact fun y hy => emapAt_eq_none.mp (hhole b hb) y (List.mem_cons_of_mem _ hy)
      · rcases mem_emapPut.mp hy with rfl | hy
        · exact hstop
        · exact hlt y hy

theorem emapAt_emapPut (hhole : ∀ b, n.Has b → emapAt e b = none) :
    emapAt (emapPut n e) b = (emapAt [n] b).or (emapAt e b) := by
  induction e with
  | nil => rw [emapPut, emapAt, Option.or_none]
  | cons x e ih =>
    rw [emapPut]
    split_ifs with hlt
    · rw [← List.singleton_append, emapAt_append]
    · have hhole' : ∀ b, n.Has b → emapAt e b = none := fun b hb => by
        rw [emapAt_eq_none]
        exact fun y hy => emapAt_eq_none.mp (hhole b hb) y (List.mem_cons_of_mem _ hy)
      rw [emapAt, ih hhole']
      simp only [emapAt]
      by_cases hn : n.Has b
      · rw [if_pos hn, if_neg (emapAt_eq_none.mp (hhole b hn) x (List.mem_cons_self ..)),
          Option.some_or, Option.some_or]
      · rw [if_neg hn, Option.none_or, Option.none_or]

theorem emapAddLoop_done (h : emapAddLoop mem n.lblk n.pblk n.len n.unw e true r = some r')
    (hs : Stands r.e p) (hp : Sorted (p ++ e)) : Stands r'.e (p ++ e) := by
  induction e generalizing r p with
  | nil =>
    simp only [emapAddLoop, emapPushIf, Bool.true_eq_false, if_false, Option.some.injEq] at h
    rwa [List.append_nil, ← h]
  | cons x e ih =>
    simp only [emapAddLoop, emapPushIf, Bool.true_eq_false, false_and, if_false, Bool.true_or] at h
    rw [← List.singleton_append, ← List.append_assoc] at hp ⊢
    cases h1 : emapPush mem r x.lblk x.pblk x.len x.unw with
    | none => simp [h1] at h
    | some r₁ =>
      rw [h1] at h
      exact ih h (emapPush_stands h1 hs (sorted_append.mp hp).1) hp

/-- The loop of `emap_add` builds the list with the run in its place. -/
theorem emapAddLoop_stands (h : emapAddLoop mem n.lblk n.pblk n.len n.unw e false r = some r')
    (hs : Stands r.e p) (hp : Sorted (p ++ emapPut n e)) : Stands r'.e (p ++ emapPut n e) := by
  induction e generalizing r p with
  | nil =>
    simp only [emapAddLoop, emapPushIf, if_true] at h
    exact emapPush_stands h hs hp
  | cons x e ih =>
    rw [emapAddLoop] at h
    rw [emapPut] at hp ⊢
    by_cases hlt : n.lblk < x.lblk
    · rw [if_pos hlt] at hp ⊢
      simp only [emapPushIf, true_and, gt_iff_lt, hlt, if_true, decide_true, Bool.or_true] at h
      rw [← List.singleton_append, ← List.append_assoc] at hp ⊢
      cases h1 : emapPush mem r n.lblk n.pblk n.len n.unw with
      | none => simp [h1] at h
      | some r₁ =>
        rw [h1] at h
        have hs1 := emapPush_stands h1 hs (sorted_append.mp hp).1
        simp only at h
        rw [← List.singleton_append (l := e), ← List.append_assoc] at hp ⊢
        cases h2 : emapPush mem r₁ x.lblk x.pblk x.len x.unw with
        | none => simp [h2] at h
        | some r₂ =>
          rw [h2] at h
          exact emapAddLoop_done h (emapPush_stands h2 hs1 (sorted_append.mp hp).1) hp
    · rw [if_neg hlt] at hp ⊢
      simp only [emapPushIf, true_and, gt_iff_lt, hlt, if_false, decide_false, Bool.or_false] at h
      rw [← List.singleton_append, ← List.append_assoc] at hp ⊢
      cases h1 : emapPush mem r x.lblk x.pblk x.len x.unw with
      | none => simp [h1] at h
      | some r₁ =>
        rw [h1] at h
        exact ih h (emapPush_stands h1 hs (sorted_append.mp hp).1) hp

theorem emapAddLoop_isSome (hmem : ∀ c, mem c = true) {done : Bool} {lblk pblk len : ℕ}
    {unw : Bool} : (emapAddLoop mem lblk pblk len unw e done r).isSome := by
  induction e generalizing r done with
  | nil => exact Option.isSome_iff_ne_none.mpr (emapPushIf_ne_none hmem)
  | cons x e ih =>
    rw [emapAddLoop]
    split
    · next hr => exact absurd hr (emapPushIf_ne_none hmem)
    · next r₁ _ =>
      obtain ⟨r₂, hr⟩ := Option.isSome_iff_exists.mp (emapPush_isSome (m := r₁) hmem)
      rw [hr]
      exact ih

/-- A run past the last extent is put at the end. -/
theorem emapPut_eq_append (he : Sorted e)
    (h : e.getLast?.all (fun x => decide (u32 (x.lblk + x.len) ≤ n.lblk)) = true) :
    emapPut n e = e ++ [n] := by
  induction e with
  | nil => rfl
  | cons x e ih =>
    obtain ⟨hx, he', hlt⟩ := sorted_cons.mp he
    cases e with
    | nil =>
      simp only [List.getLast?_singleton, Option.all_some, decide_eq_true_eq] at h
      rw [u32_of_lt hx.lend] at h
      rw [emapPut, if_neg (by omega), emapPut, List.singleton_append]
    | cons y e =>
      rw [List.getLast?_cons_cons] at h
      have hlast := ih he' h
      obtain ⟨z, hz, hzn⟩ : ∃ z ∈ y :: e, z.lblk + z.len ≤ n.lblk := by
        obtain ⟨z, hz⟩ := List.getLast?_isSome.mpr (List.cons_ne_nil y e) |> Option.isSome_iff_exists.mp
        have hmem := List.mem_of_getLast? hz
        rw [hz, Option.all_some, decide_eq_true_eq, u32_of_lt (he'.ok z hmem).lend] at h
        exact ⟨z, hmem, h⟩
      have h1 := hlt z hz
      rw [emapPut, if_neg (by omega), hlast, ← List.cons_append]

/-- **`emap_add` over a hole gives the union.** -/
theorem emapAdd_faithful (hm : Sorted m.e) (hn : n.Ok) (hhole : ∀ b, n.Has b → emapAt m.e b = none)
    (h : emapAdd mem m n.lblk n.pblk n.len n.unw = some r') :
    Sorted r'.e ∧ ∀ b, emapAt r'.e b = (emapAt [n] b).or (emapAt m.e b) := by
  have hput := emapPut_sorted hm hn hhole
  have hst : Stands r'.e (emapPut n m.e) := by
    unfold emapAdd at h
    split_ifs at h with hlast
    · rw [emapPut_eq_append hm hlast] at hput ⊢
      exact emapPush_stands h (Stands.refl hm) hput
    · obtain ⟨q, hq, rfl⟩ := Option.map_eq_some_iff.mp h
      have := emapAddLoop_stands hq Stands.nil (by rwa [List.nil_append])
      rwa [List.nil_append] at this
  exact ⟨hst.sorted, fun b => by rw [hst.same, emapAt_emapPut hhole]⟩

theorem emapAdd_isSome (hmem : ∀ c, mem c = true) {lblk pblk len : ℕ} {unw : Bool} :
    (emapAdd mem m lblk pblk len unw).isSome := by
  unfold emapAdd
  split_ifs
  · exact emapPush_isSome hmem
  · rw [Option.isSome_map]
    exact emapAddLoop_isSome hmem

/-! ## `emap_find` -/

/-- The search ends at the first extent that ends past the block. -/
theorem emapFindLoop_spec (he : Sorted e) {k lo hi : ℕ} (hlo : lo ≤ hi) (hhi : hi ≤ e.length)
    (hk : hi - lo ≤ k) (hbelow : ∀ i (h : i < e.length), i < lo → e[i].lblk + e[i].len ≤ l)
    (habove : ∀ i (h : i < e.length), hi ≤ i → l < e[i].lblk + e[i].len) :
    ∃ j, emapFindLoop e l k lo hi = j ∧ j ≤ e.length ∧
      (∀ i (h : i < e.length), i < j → e[i].lblk + e[i].len ≤ l) ∧
      ∀ i (h : i < e.length), j ≤ i → l < e[i].lblk + e[i].len := by
  induction k generalizing lo hi with
  | zero =>
    obtain rfl : lo = hi := by omega
    exact ⟨lo, rfl, hhi, hbelow, habove⟩
  | succ k ih =>
    rw [emapFindLoop]
    split_ifs with hlt
    · simp only
      have hmid : (lo + hi) / 2 < e.length := by omega
      have hget : e.getD ((lo + hi) / 2) default = e[(lo + hi) / 2] := by
        rw [List.getD_eq_getElem?_getD, List.getElem?_eq_getElem hmid, Option.getD_some]
      have hend := (he.ok _ (List.getElem_mem hmid)).lend
      -- the ends are in order, so the middle one speaks for all on its side
      have hmono : ∀ i j (hi : i < e.length) (hj : j < e.length), i < j →
          e[i].lblk + e[i].len ≤ e[j].lblk := fun i j hi hj hij =>
        List.pairwise_iff_getElem.mp he.disjoint i j hi hj hij
      rw [hget, u32_of_lt hend]
      split_ifs with hle
      · refine ih (by omega) hhi (by omega) (fun i h' hil => ?_) habove
        rcases Nat.lt_or_ge i ((lo + hi) / 2) with h | h
        · have := hmono i _ h' hmid h
          omega
        · obtain rfl : i = (lo + hi) / 2 := by omega
          exact hle
      · refine ih (by omega) (by omega) (by omega) hbelow fun i h' hil => ?_
        rcases Nat.lt_or_ge ((lo + hi) / 2) i with h | h
        · have := hmono _ i hmid h' h
          omega
        · obtain rfl : i = (lo + hi) / 2 := by omega
          omega
    · obtain rfl : lo = hi := by omega
      exact ⟨lo, rfl, hhi, hbelow, habove⟩

theorem Sorted.find (he : Sorted e) (l : ℕ) :
    ∃ j, emapFindLoop e l e.length 0 e.length = j ∧ j ≤ e.length ∧
      (∀ i (h : i < e.length), i < j → e[i].lblk + e[i].len ≤ l) ∧
      ∀ i (h : i < e.length), j ≤ i → l < e[i].lblk + e[i].len :=
  emapFindLoop_spec he (Nat.zero_le _) le_rfl le_rfl (fun _ _ h => absurd h (Nat.not_lt_zero _))
    fun _ h h' => absurd h (Nat.not_lt.mpr h')

/-- **`emap_find` reads the map.**  A block is in an extent, in a hole with an extent after it, or
past the last extent. -/
theorem emapFind_faithful (he : Sorted e) (hl : l < 2 ^ 32) :
    (∃ x ∈ e, x.Has l ∧ emapAt e l = some (x.pblk + (l - x.lblk), x.unw) ∧
      emapFind e l = (x.pblk + (l - x.lblk), x.unw, x.lblk + x.len - l)) ∨
    (∃ run, emapFind e l = (0, false, run) ∧ (∀ k < run, emapAt e (l + k) = none) ∧ 0 < run ∧
      (emapAt e (l + run)).isSome) ∨
    (emapFind e l = (0, false, 2 ^ 32 - 1) ∧ ∀ k, l ≤ k → emapAt e k = none) := by
  obtain ⟨j, hj, -, hbelow, habove⟩ := he.find l
  unfold emapFind
  rw [hj]
  cases hget : e[j]? with
  | none =>
    refine .inr (.inr ⟨rfl, fun k hk => emapAt_eq_none.mpr fun x hx hxk => ?_⟩)
    obtain ⟨i, hi, rfl⟩ := List.getElem_of_mem hx
    have h1 := hbelow i hi (by have := List.getElem?_eq_none_iff.mp hget; omega)
    rw [Ext.has_iff] at hxk
    omega
  | some x =>
    obtain ⟨hjl, hx⟩ := List.getElem?_eq_some_iff.mp hget
    have hmem : x ∈ e := hx ▸ List.getElem_mem hjl
    obtain ⟨h1, h2, h3⟩ := he.ok x hmem
    have h4 := habove j hjl le_rfl
    rw [hx] at h4
    simp only
    split_ifs with hle
    · have hhas : x.Has l := ⟨hle, h4⟩
      refine .inl ⟨x, hmem, hhas, he.emapAt_of_mem hmem hhas, ?_⟩
      rw [u32_of_lt h2, u32_of_lt (show x.pblk + (l - x.lblk) < 2 ^ 32 by omega)]
      rw [show x.lblk + x.len + 2 ^ 32 - l = x.lblk + x.len - l + 2 ^ 32 by omega, u32,
        Nat.add_mod_right, Nat.mod_eq_of_lt (by omega)]
    · refine .inr (.inl ⟨x.lblk - l, rfl, fun k hk => ?_, by omega, ?_⟩)
      · refine emapAt_eq_none.mpr fun y hy hyk => ?_
        obtain ⟨i, hi, rfl⟩ := List.getElem_of_mem hy
        rw [Ext.has_iff] at hyk
        rcases Nat.lt_trichotomy i j with hij | rfl | hij
        · have := hbelow i hi hij
          omega
        · rw [hx] at hyk
          omega
        · have := List.pairwise_iff_getElem.mp he.disjoint j i hjl hi hij
          rw [hx] at this
          omega
      · rw [show l + (x.lblk - l) = x.lblk by omega,
          he.emapAt_of_mem hmem (l := x.lblk) ⟨le_rfl, by omega⟩]
        rfl

/-! ## The list as a map -/

/-- `run` is how many of the block numbers from `l` on, up to `2 ^ 32`, come before the next block
that is mapped. -/
def HoleRun (e : List Ext) (l run : ℕ) : Prop :=
  ∀ k, k < run ↔ l + k < 2 ^ 32 ∧ ∀ j ≤ k, emapAt e (l + j) = none

/-- Past the last extent `*run` is not the length of the hole. -/
theorem emapFind_past_end :
    ¬ ∀ e l, Sorted e → l < 2 ^ 32 → emapAt e l = none → HoleRun e l (emapFind e l).2.2 := by
  intro h
  have hrun := (h [] 7 sorted_nil (by decide) rfl (2 ^ 32 - 7)).mp (by decide)
  exact absurd hrun.1 (by decide)

/-- **An extent list is a partial map from the blocks of a file to blocks on the disk.**  For a list
that is sorted and disjoint, all ends below `2 ^ 32`: `emap_cut` restricts the map and frees the
blocks that go; `emap_add` over a hole is the union; `emap_find` reads the map, with a run that ends
where the extent or the hole does, and `0xFFFFFFFF` where no extent follows. -/
theorem emap_faithful (m : EMap) (hm : Sorted m.e) :
    (∀ mem had l n free v, l + n < 2 ^ 32 →
      ((∀ c, mem c = true) → (emapCut mem had m l n free v).1.isSome) ∧
      ∀ r v', emapCut mem had m l n free v = (some r, v') →
        Sorted r.e ∧
        (∀ b, emapAt r.e b = if l ≤ b ∧ b < l + n then none else emapAt m.e b) ∧
        (∀ b, free = false ∨ ¬ Removed m.e l (l + n) b → v'.used b = v.used b) ∧
        (free = true → (∀ x g, had x g = true) →
          ∀ b, Removed m.e l (l + n) b → v'.used b = false)) ∧
    (∀ mem x, x.Ok → (∀ b, x.Has b → emapAt m.e b = none) →
      ((∀ c, mem c = true) → (emapAdd mem m x.lblk x.pblk x.len x.unw).isSome) ∧
      ∀ r, emapAdd mem m x.lblk x.pblk x.len x.unw = some r →
        Sorted r.e ∧ ∀ b, emapAt r.e b = (emapAt [x] b).or (emapAt m.e b)) ∧
    ∀ l < 2 ^ 32,
      (∃ x ∈ m.e, x.Has l ∧ emapAt m.e l = some (x.pblk + (l - x.lblk), x.unw) ∧
        emapFind m.e l = (x.pblk + (l - x.lblk), x.unw, x.lblk + x.len - l)) ∨
      (∃ run, emapFind m.e l = (0, false, run) ∧ (∀ k < run, emapAt m.e (l + k) = none) ∧
        0 < run ∧ (emapAt m.e (l + run)).isSome) ∨
      (emapFind m.e l = (0, false, 2 ^ 32 - 1) ∧ ∀ k, l ≤ k → emapAt m.e k = none) :=
  ⟨fun _ _ _ _ _ _ hend => ⟨fun hmem => emapCut_isSome hmem, fun _ _ h => emapCut_faithful hm hend h⟩,
    fun _ _ hx hhole => ⟨fun hmem => emapAdd_isSome hmem, fun _ h => emapAdd_faithful hm hx hhole h⟩,
    fun _ hl => emapFind_faithful hm hl⟩

/-- A list of two extents: the second cut in the middle, and the hole between them filled. -/
theorem emap_faithful_two :
    Sorted [⟨0, 100, 5, false⟩, ⟨8, 200, 4, true⟩] ∧
      (∀ r v v', emapCut (fun _ => true) (fun _ _ => true)
          ⟨[⟨0, 100, 5, false⟩, ⟨8, 200, 4, true⟩], 8, [], 0⟩ 9 2 true v = (some r, v') →
        emapAt r.e 9 = none ∧ v'.used 201 = false) ∧
      ∀ r, emapAdd (fun _ => true) ⟨[⟨0, 100, 5, false⟩, ⟨8, 200, 4, true⟩], 8, [], 0⟩
          5 105 3 false = some r → emapAt r.e 7 = some (107, false) := by
  have hs : Sorted [⟨0, 100, 5, false⟩, ⟨8, 200, 4, true⟩] := by
    refine ⟨fun x hx => ?_, by simp⟩
    simp only [List.mem_cons, List.not_mem_nil, or_false] at hx
    rcases hx with rfl | rfl <;> exact ⟨by decide, by decide, by decide⟩
  obtain ⟨hcut, hadd, -⟩ := emap_faithful ⟨_, 8, [], 0⟩ hs
  refine ⟨hs, fun r v v' h => ?_, fun r h => ?_⟩
  · obtain ⟨-, h1, -, h2⟩ := (hcut _ _ 9 2 true v (by decide)).2 r v' h
    refine ⟨by rw [h1 9, if_pos (by decide)], h2 rfl (fun _ _ => rfl) 201 ?_⟩
    exact ⟨9, by decide, by decide, ⟨8, 200, 4, true⟩, by simp, by decide, rfl⟩
  · have hhole : ∀ b, Ext.Has ⟨5, 105, 3, false⟩ b →
        emapAt [⟨0, 100, 5, false⟩, ⟨8, 200, 4, true⟩] b = none := fun b hb => by
      rw [Ext.has_iff] at hb
      simp only at hb
      obtain rfl | rfl | rfl : b = 5 ∨ b = 6 ∨ b = 7 := by omega
      all_goals rfl
    have := ((hadd (fun _ => true) ⟨5, 105, 3, false⟩ ⟨by decide, by decide, by decide⟩ hhole).2 r h).2 7
    rw [this]
    rfl

end BananaOS.Ext4
