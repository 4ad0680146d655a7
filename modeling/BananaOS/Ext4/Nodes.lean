import BananaOS.Ext4.Tree

/-!
# Nodes as they are written

What is read from the nodes that `emap_store` writes: the header, and each entry at its place.  The
entries of a node are written one after the other, each into bytes of its own, so an entry is read as
it was written whatever follows; `Tree` says what `emap_load` makes of that.
-/

namespace BananaOS.Ext4

open Lib

variable {p q : Blk} {o i n d b c max : ℕ} {x : Ext} {e : List Ext} {l : List (ℕ × ℕ)}

theorem g16_congr (h : ∀ i, o ≤ i → i < o + 2 → p i = q i) : g16 p o = g16 q o := getLE_congr h

theorem g32_congr (h : ∀ i, o ≤ i → i < o + 4 → p i = q i) : g32 p o = g32 q o := getLE_congr h

theorem putLeaf_apart (h : i < o ∨ o + 12 ≤ i) : putLeaf p o x i = p i := by
  unfold putLeaf p32 p16
  rw [putLE_of_notMem (by omega), putLE_of_notMem (by omega), putLE_of_notMem (by omega),
    putLE_of_notMem (by omega)]

theorem putIdx_apart (h : i < o ∨ o + 12 ≤ i) : putIdx p o b c i = p i := by
  unfold putIdx p32 p16
  rw [putLE_of_notMem (by omega), putLE_of_notMem (by omega), putLE_of_notMem (by omega),
    putLE_of_notMem (by omega)]

theorem putHdr_apart (h : i < o ∨ o + 12 ≤ i) : putHdr p o n max d i = p i := by
  unfold putHdr p32 p16
  rw [putLE_of_notMem (by omega), putLE_of_notMem (by omega), putLE_of_notMem (by omega),
    putLE_of_notMem (by omega), putLE_of_notMem (by omega)]

theorem putLeaves_apart (h : i < o ∨ o + 12 * e.length ≤ i) : putLeaves p o e i = p i := by
  induction e generalizing p o with
  | nil => rfl
  | cons x e ih =>
    rw [List.length_cons] at h
    rw [putLeaves, ih (by omega), putLeaf_apart (by omega)]

theorem putIdxs_apart (h : i < o ∨ o + 12 * l.length ≤ i) : putIdxs p o l i = p i := by
  induction l generalizing p o with
  | nil => rfl
  | cons c l ih =>
    rw [List.length_cons] at h
    rw [putIdxs, ih (by omega), putIdx_apart (by omega)]

/-! ## What is read back -/

theorem leafAt_putLeaf (h : x.Fits c) (hc : c < 2 ^ 32) : LeafAt (putLeaf p o x) o x := by
  obtain ⟨h1, h2, h3, h4⟩ := h
  have hlen : x.len + (if x.unw then extMaxLen else 0) < 2 ^ 16 := by
    unfold extMaxLen at *
    split_ifs at h3 ⊢ <;> omega
  unfold putLeaf
  refine ⟨?_, ?_, ?_, ?_⟩
  · rw [g32_p32_ne (by omega), g32_p16_ne (by omega), g32_p16_ne (by omega), g32_p32, u32_of_lt h2]
  · rw [g16_p32_ne (by omega), g16_p16_ne (by omega), g16_p16, Nat.mod_eq_of_lt hlen]
  · rw [g16_p32_ne (by omega), g16_p16, Nat.zero_mod]
  · rw [g32_p32, u32_of_lt (by omega)]

theorem LeafAt.congr (h : LeafAt p o x) (hpq : ∀ i, o ≤ i → i < o + 12 → p i = q i) : LeafAt q o x := by
  obtain ⟨h1, h2, h3, h4⟩ := h
  refine ⟨?_, ?_, ?_, ?_⟩
  · rw [← h1]
    exact g32_congr fun i hi hi' => (hpq i (by omega) (by omega)).symm
  · rw [← h2]
    exact g16_congr fun i hi hi' => (hpq i (by omega) (by omega)).symm
  · rw [← h3]
    exact g16_congr fun i hi hi' => (hpq i (by omega) (by omega)).symm
  · rw [← h4]
    exact g32_congr fun i hi hi' => (hpq i (by omega) (by omega)).symm

theorem LeavesAt.congr (h : LeavesAt p o e) (hpq : ∀ i, o ≤ i → i < o + 12 * e.length → p i = q i) :
    LeavesAt q o e := by
  induction e generalizing o with
  | nil => trivial
  | cons x e ih =>
    obtain ⟨h1, h2⟩ := h
    rw [List.length_cons] at hpq
    exact ⟨h1.congr fun i hi hi' => hpq i hi (by omega),
      ih h2 fun i hi hi' => hpq i (by omega) (by omega)⟩

theorem leavesAt_putLeaves (h : ∀ x ∈ e, x.Fits c) (hc : c < 2 ^ 32) :
    LeavesAt (putLeaves p o e) o e := by
  induction e generalizing p o with
  | nil => trivial
  | cons x e ih =>
    rw [putLeaves]
    refine ⟨?_, ih fun y hy => h y (List.mem_cons_of_mem _ hy)⟩
    exact (leafAt_putLeaf (h x (List.mem_cons_self ..)) hc).congr fun i _ hi =>
      (putLeaves_apart (by omega)).symm

theorem IdxsAt.congr {l : List ℕ} (h : IdxsAt p o l)
    (hpq : ∀ i, o ≤ i → i < o + 12 * l.length → p i = q i) : IdxsAt q o l := by
  induction l generalizing o with
  | nil => trivial
  | cons b l ih =>
    obtain ⟨⟨h1, h2⟩, h3⟩ := h
    rw [List.length_cons] at hpq
    refine ⟨⟨?_, ?_⟩, ih h3 fun i hi hi' => hpq i (by omega) (by omega)⟩
    · rw [← h1]
      exact g32_congr fun i hi hi' => (hpq i (by omega) (by omega)).symm
    · rw [← h2]
      exact g16_congr fun i hi hi' => (hpq i (by omega) (by omega)).symm

theorem idxsAt_putIdxs (h : ∀ c ∈ l, c.2 < 2 ^ 32) : IdxsAt (putIdxs p o l) o (l.map Prod.snd) := by
  induction l generalizing p o with
  | nil => trivial
  | cons c l ih =>
    rw [putIdxs, List.map_cons]
    refine ⟨⟨?_, ?_⟩, ih fun d hd => h d (List.mem_cons_of_mem _ hd)⟩
    · rw [g32_congr fun i _ hi => putIdxs_apart (by omega)]
      unfold putIdx
      rw [g32_p16_ne (by omega), g32_p16_ne (by omega), g32_p32,
        u32_of_lt (h c (List.mem_cons_self ..))]
    · rw [g16_congr fun i _ hi => putIdxs_apart (by omega)]
      unfold putIdx
      rw [g16_p16_ne (by omega), g16_p16, Nat.zero_mod]

theorem hdrAt_putHdr (hn : n < 2 ^ 16) (hd : d < 2 ^ 16) : HdrAt (putHdr p o n max d) o n d := by
  unfold putHdr
  refine ⟨?_, ?_, ?_⟩
  · rw [g16_p32_ne (by omega), g16_p16_ne (by omega), g16_p16_ne (by omega), g16_p16_ne (by omega),
      g16_p16]
    rfl
  · rw [g16_p32_ne (by omega), g16_p16_ne (by omega), g16_p16_ne (by omega), g16_p16,
      Nat.mod_eq_of_lt hn]
  · rw [g16_p32_ne (by omega), g16_p16, Nat.mod_eq_of_lt hd]

theorem HdrAt.congr (h : HdrAt p o n d) (hpq : ∀ i, o ≤ i → i < o + 12 → p i = q i) :
    HdrAt q o n d := by
  obtain ⟨h1, h2, h3⟩ := h
  refine ⟨?_, ?_, ?_⟩
  · rw [← h1]
    exact g16_congr fun i hi hi' => (hpq i (by omega) (by omega)).symm
  · rw [← h2]
    exact g16_congr fun i hi hi' => (hpq i (by omega) (by omega)).symm
  · rw [← h3]
    exact g16_congr fun i hi hi' => (hpq i (by omega) (by omega)).symm

theorem holds_leaf {v : Vol} {room : ℕ} (h : ∀ x ∈ e, x.Fits c) (hc : c < 2 ^ 32)
    (hroom : e.length ≤ room) (h16 : e.length < 2 ^ 16) :
    Holds v 0 (putLeaves (putHdr p o e.length max 0) (o + 12) e) o room e [] := by
  refine ⟨?_, hroom, leavesAt_putLeaves h hc, rfl⟩
  exact (hdrAt_putHdr h16 (by decide)).congr fun i _ hi => (putLeaves_apart (by omega)).symm

/-- An index that was written, over nodes that hold what they should. -/
theorem holds_idx {v : Vol} {room : ℕ} {L : List (ℕ × List Ext × List ℕ)}
    (hl : l.map Prod.snd = L.map Prod.fst) (hroom : L.length ≤ room) (h16 : L.length < 2 ^ 16)
    (hd : d + 1 < 2 ^ 16) (hv : v.nblocks < 2 ^ 32)
    (h : ∀ n ∈ L, n.1 < v.nblocks ∧ Holds v d (v.data n.1) 0 leafMax n.2.1 n.2.2) :
    Holds v (d + 1) (putIdxs (putHdr p o L.length max (d + 1)) (o + 12) l) o room
      (L.flatMap fun n => n.2.1) (L.flatMap fun n => n.1 :: n.2.2) := by
  refine ⟨L, ?_, hroom, ?_, h, rfl, rfl⟩
  · exact (hdrAt_putHdr h16 hd).congr fun i _ hi => (putIdxs_apart (by omega)).symm
  · rw [← hl]
    refine idxsAt_putIdxs fun c hc => ?_
    have : c.2 ∈ L.map Prod.fst := hl ▸ List.mem_map_of_mem hc
    obtain ⟨n, hn, hnc⟩ := List.mem_map.mp this
    have := (h n hn).1
    omega

/-- What a node holds depends on the node and on the blocks below it. -/
theorem Holds.congr {v w : Vol} {room : ℕ} {t : List ℕ} (h : Holds v d p o room e t)
    (hn : w.nblocks = v.nblocks) (hpq : ∀ i, o ≤ i → i < o + 12 + 12 * room → p i = q i)
    (ht : ∀ b ∈ t, w.data b = v.data b) : Holds w d q o room e t := by
  induction d generalizing p q o room e t with
  | zero =>
    obtain ⟨h1, h2, h3, h4⟩ := h
    exact ⟨h1.congr fun i hi hi' => hpq i hi (by omega), h2,
      h3.congr fun i hi hi' => hpq i (by omega) (by omega), h4⟩
  | succ d ih =>
    obtain ⟨L, h1, h2, h3, h4, rfl, rfl⟩ := h
    refine ⟨L, h1.congr fun i hi hi' => hpq i hi (by omega), h2,
      h3.congr fun i hi hi' => hpq i (by omega) (by rw [List.length_map] at hi'; omega),
      fun n hmem => ?_, rfl, rfl⟩
    have hsub : ∀ b ∈ n.1 :: n.2.2, w.data b = v.data b := fun b hb =>
      ht b (List.mem_flatMap.mpr ⟨n, hmem, hb⟩)
    rw [hn, hsub n.1 (List.mem_cons_self ..)]
    exact ⟨(h4 n hmem).1, ih (h4 n hmem).2 (fun _ _ _ => rfl)
      fun b hb => hsub b (List.mem_cons_of_mem _ hb)⟩

end BananaOS.Ext4
