import BananaOS.Ext4.Bitmaps
import Mathlib.Data.List.Pairwise

/-!
# Extent lists

`emap_push`, `emap_cut` and `emap_add` of `kernel/ext4.c`: the list of a file's extents is rebuilt
one push at a time.  `mem c` says whether `krealloc` gives room for `c` entries; a list asks for
each size once, so this is any run of answers.  The blocks of each extent that is cut are freed by a
`bfree` of its own, and `had x` is what that call can have.

`emapAt e l` reads a list as a partial map from the file's blocks to disk blocks, each with its flag.
A push may merge what it is given into the last extent, so the list built is not the list of what
was pushed.  `Stands r p` says that `r` was built from the pieces `p`: the same map, and sorted.
-/

namespace BananaOS.Ext4

/-- `EXT_MAX_LEN` -/
def extMaxLen : ℕ := 32768

/-- `emap_t`: the extents, and the blocks of the tree they were read from. -/
structure EMap where
  e : List Ext
  cap : ℕ
  tree : List ℕ
  tcap : ℕ
  deriving Repr

/-- An `emap_t` after `memset`. -/
def EMap.empty : EMap := ⟨[], 0, [], 0⟩

/-- The test of `emap_push`: the run carries the last extent on, and both fit one extent. -/
def Ext.Joins (x : Ext) (lblk pblk len : ℕ) (unw : Bool) : Prop :=
  u32 (x.lblk + x.len) = lblk ∧ u32 (x.pblk + x.len) = pblk ∧ x.unw = unw ∧
    u32 (x.len + len) ≤ if unw then extMaxLen - 1 else extMaxLen

instance (x : Ext) (lblk pblk len : ℕ) (unw : Bool) : Decidable (x.Joins lblk pblk len unw) :=
  inferInstanceAs (Decidable (_ ∧ _ ∧ _ ∧ _))

/-- The end of `emap_push`: one more extent. -/
def emapGrow (mem : ℕ → Bool) (m : EMap) (x : Ext) : Option EMap :=
  if m.e.length = m.cap then
    let cap := if m.cap = 0 then 8 else m.cap * 2
    if mem cap then some { m with e := m.e ++ [x], cap := cap } else none
  else some { m with e := m.e ++ [x] }

/-- `emap_push`; `none` is `-1`. -/
def emapPush (mem : ℕ → Bool) (m : EMap) (lblk pblk len : ℕ) (unw : Bool) : Option EMap :=
  match m.e.getLast? with
  | some x =>
    if x.Joins lblk pblk len unw then
      some { m with e := m.e.dropLast ++ [{ x with len := u32 (x.len + len) }] }
    else emapGrow mem m ⟨lblk, pblk, len, unw⟩
  | none => emapGrow mem m ⟨lblk, pblk, len, unw⟩

/-- `emap_push` that is only made when `c` holds. -/
def emapPushIf (mem : ℕ → Bool) (c : Prop) [Decidable c] (m : EMap) (lblk pblk len : ℕ)
    (unw : Bool) : Option EMap :=
  if c then emapPush mem m lblk pblk len unw else some m

/-- The loop of `emap_cut`: `r` is built from what is left of the extents. -/
def emapCutLoop (mem : ℕ → Bool) (had : Ext → ℕ → Bool) (lblk stop : ℕ) (free : Bool) :
    List Ext → EMap → Vol → Option EMap × Vol
  | [], r, v => (some r, v)
  | x :: e, r, v =>
    let xe := u32 (x.lblk + x.len)
    if xe ≤ lblk ∨ x.lblk ≥ stop then
      match emapPush mem r x.lblk x.pblk x.len x.unw with
      | none => (none, v)
      | some r => emapCutLoop mem had lblk stop free e r v
    else
      match emapPushIf mem (x.lblk < lblk) r x.lblk x.pblk (lblk - x.lblk) x.unw with
      | none => (none, v)
      | some r =>
        let a := if x.lblk > lblk then x.lblk else lblk
        let b := if xe < stop then xe else stop
        let v := if free then v.bfree (had x) (u32 (x.pblk + (a - x.lblk))) (b - a) else v
        match emapPushIf mem (xe > stop) r stop (u32 (x.pblk + (stop - x.lblk))) (xe - stop) x.unw with
        | none => (none, v)
        | some r => emapCutLoop mem had lblk stop free e r v

/-- `emap_cut`: the blocks from `lblk` up to `lblk + len` out of the list; `none` is `-1`, and the
list as it was. -/
def emapCut (mem : ℕ → Bool) (had : Ext → ℕ → Bool) (m : EMap) (lblk len : ℕ) (free : Bool)
    (v : Vol) : Option EMap × Vol :=
  let (r, v) := emapCutLoop mem had lblk (u32 (lblk + len)) free m.e EMap.empty v
  (r.map fun r => { m with e := r.e, cap := r.cap }, v)

/-- The loop of `emap_add`; the run is still to be pushed while `done` is not set. -/
def emapAddLoop (mem : ℕ → Bool) (lblk pblk len : ℕ) (unw : Bool) :
    List Ext → Bool → EMap → Option EMap
  | [], done, r => emapPushIf mem (done = false) r lblk pblk len unw
  | x :: e, done, r =>
    match emapPushIf mem (done = false ∧ x.lblk > lblk) r lblk pblk len unw with
    | none => none
    | some r =>
      match emapPush mem r x.lblk x.pblk x.len x.unw with
      | none => none
      | some r => emapAddLoop mem lblk pblk len unw e (done || decide (x.lblk > lblk)) r

/-- `emap_add`: a run where the list has a hole; `none` is `-1`, and the list as it was. -/
def emapAdd (mem : ℕ → Bool) (m : EMap) (lblk pblk len : ℕ) (unw : Bool) : Option EMap :=
  if m.e.getLast?.all fun x => decide (u32 (x.lblk + x.len) ≤ lblk) then
    emapPush mem m lblk pblk len unw
  else (emapAddLoop mem lblk pblk len unw m.e false EMap.empty).map fun r =>
    { m with e := r.e, cap := r.cap }

/-! ## A list as a map -/

/-- Block `l` of the file is in the extent. -/
def Ext.Has (x : Ext) (l : ℕ) : Prop := x.lblk ≤ l ∧ l < x.lblk + x.len

instance (x : Ext) (l : ℕ) : Decidable (x.Has l) := inferInstanceAs (Decidable (_ ∧ _))

theorem Ext.has_iff {x : Ext} {l : ℕ} : x.Has l ↔ x.lblk ≤ l ∧ l < x.lblk + x.len := Iff.rfl

/-- Where block `l` of the file is on the disk, and whether it is unwritten. -/
def emapAt : List Ext → ℕ → Option (ℕ × Bool)
  | [], _ => none
  | x :: e, l => if x.Has l then some (x.pblk + (l - x.lblk), x.unw) else emapAt e l

/-- An extent that is not empty, its ends below `2 ^ 32` in the file and on the disk. -/
structure Ext.Ok (x : Ext) : Prop where
  pos : 0 < x.len
  lend : x.lblk + x.len < 2 ^ 32
  pend : x.pblk + x.len < 2 ^ 32

/-- A list of extents that is sorted and disjoint. -/
structure Sorted (e : List Ext) : Prop where
  ok : ∀ x ∈ e, x.Ok
  disjoint : e.Pairwise fun x y => x.lblk + x.len ≤ y.lblk

variable {e e' : List Ext} {x : Ext} {l c : ℕ}

theorem emapAt_append : emapAt (e ++ e') l = (emapAt e l).or (emapAt e' l) := by
  induction e with
  | nil => rfl
  | cons x e ih =>
    rw [List.cons_append, emapAt, emapAt, ih]
    split_ifs <;> rfl

theorem emapAt_eq_none : emapAt e l = none ↔ ∀ x ∈ e, ¬ x.Has l := by
  induction e with
  | nil => simp [emapAt]
  | cons x e ih =>
    rw [emapAt]
    split_ifs with h
    · simp [h]
    · simp [h, ih]

theorem sorted_nil : Sorted [] := ⟨by simp, List.Pairwise.nil⟩

theorem sorted_append :
    Sorted (e ++ e') ↔ Sorted e ∧ Sorted e' ∧ ∀ x ∈ e, ∀ y ∈ e', x.lblk + x.len ≤ y.lblk := by
  constructor
  · rintro ⟨h1, h2⟩
    obtain ⟨h3, h4, h5⟩ := List.pairwise_append.mp h2
    exact ⟨⟨fun x hx => h1 x (List.mem_append_left _ hx), h3⟩,
      ⟨fun x hx => h1 x (List.mem_append_right _ hx), h4⟩, h5⟩
  · rintro ⟨⟨h1, h2⟩, ⟨h3, h4⟩, h5⟩
    refine ⟨fun x hx => ?_, List.pairwise_append.mpr ⟨h2, h4, h5⟩⟩
    rcases List.mem_append.mp hx with hx | hx
    · exact h1 x hx
    · exact h3 x hx

theorem sorted_singleton : Sorted [x] ↔ x.Ok :=
  ⟨fun h => h.ok x (List.mem_singleton.mpr rfl), fun h => ⟨by simpa using h, List.pairwise_singleton ..⟩⟩

theorem sorted_cons :
    Sorted (x :: e) ↔ x.Ok ∧ Sorted e ∧ ∀ y ∈ e, x.lblk + x.len ≤ y.lblk := by
  rw [← List.singleton_append, sorted_append, sorted_singleton]
  simp

/-- In a sorted list a block is where any extent that has it says. -/
theorem Sorted.emapAt_of_mem (h : Sorted e) (hx : x ∈ e) (hl : x.Has l) :
    emapAt e l = some (x.pblk + (l - x.lblk), x.unw) := by
  induction e with
  | nil => simp at hx
  | cons y e ih =>
    obtain ⟨hy, he, hlt⟩ := sorted_cons.mp h
    rcases List.mem_cons.mp hx with rfl | hx
    · rw [emapAt, if_pos hl]
    · have h1 := hlt x hx
      have h2 := hl.1
      rw [emapAt, if_neg (fun hh => by have := hh.2; omega), ih he hx]

theorem exists_of_emapAt {p : ℕ × Bool} (h : emapAt e l = some p) :
    ∃ x ∈ e, x.Has l ∧ p = (x.pblk + (l - x.lblk), x.unw) := by
  induction e with
  | nil => simp [emapAt] at h
  | cons x e ih =>
    rw [emapAt] at h
    split_ifs at h with hx
    · exact ⟨x, List.mem_cons_self .., hx, (Option.some.inj h).symm⟩
    · obtain ⟨y, hy, hyl⟩ := ih h
      exact ⟨y, List.mem_cons_of_mem _ hy, hyl⟩

/-! ## What was pushed -/

/-- `r` was built from the pieces `p`. -/
structure Stands (r p : List Ext) : Prop where
  sorted : Sorted r
  pieces : Sorted p
  same : ∀ l, emapAt r l = emapAt p l
  /-- `r` ends where the pieces do -/
  ends : ∀ x ∈ r, ∃ y ∈ p, x.lblk + x.len = y.lblk + y.len

variable {mem : ℕ → Bool} {m r : EMap} {p : List Ext}

theorem Stands.nil : Stands EMap.empty.e [] := ⟨sorted_nil, sorted_nil, fun _ => rfl, by simp [EMap.empty]⟩

theorem Stands.refl (h : Sorted e) : Stands e e := ⟨h, h, fun _ => rfl, fun x hx => ⟨x, hx, rfl⟩⟩

/-- Two extents of which one carries the other on, read as one. -/
theorem emapAt_join {y : Ext} (h1 : y.lblk + y.len = x.lblk) (h2 : y.pblk + y.len = x.pblk)
    (h3 : y.unw = x.unw) :
    emapAt [{ y with len := y.len + x.len }] l = emapAt ([y] ++ [x]) l := by
  rw [emapAt_append]
  simp only [emapAt]
  by_cases hy : y.Has l
  · rw [if_pos hy, if_pos (by simp only [Ext.has_iff] at *; omega), Option.some_or]
  · by_cases hx : x.Has l
    · rw [if_neg hy, if_pos hx, if_pos (by simp only [Ext.has_iff] at *; omega), Option.none_or, h3,
        show y.pblk + (l - y.lblk) = x.pblk + (l - x.lblk) by simp only [Ext.has_iff] at *; omega]
    · rw [if_neg hy, if_neg hx, if_neg (by simp only [Ext.has_iff] at *; omega), Option.none_or]

/-- The last extent made longer by the piece that carries it on. -/
theorem Stands.join {y : Ext} (h : Stands (e ++ [y]) p) (hp : Sorted (p ++ [x]))
    (h1 : y.lblk + y.len = x.lblk) (h2 : y.pblk + y.len = x.pblk) (h3 : y.unw = x.unw) :
    Stands (e ++ [{ y with len := y.len + x.len }]) (p ++ [x]) := by
  obtain ⟨he, hy, hlt⟩ := sorted_append.mp h.sorted
  have hx := sorted_singleton.mp (sorted_append.mp hp).2.1
  have hyo := sorted_singleton.mp hy
  refine ⟨?_, hp, fun l => ?_, fun z hz => ?_⟩
  · refine sorted_append.mpr ⟨he, sorted_singleton.mpr ⟨?_, ?_, ?_⟩, ?_⟩
    · exact Nat.add_pos_left hyo.pos _
    · have := hx.lend
      simp only
      omega
    · have := hx.pend
      simp only
      omega
    · simpa using hlt
  · rw [emapAt_append, emapAt_append, ← h.same l, emapAt_append, emapAt_join h1 h2 h3,
      emapAt_append, Option.or_assoc]
  · rcases List.mem_append.mp hz with hz | hz
    · obtain ⟨w, hw, hzw⟩ := h.ends z (List.mem_append_left _ hz)
      exact ⟨w, List.mem_append_left _ hw, hzw⟩
    · rw [List.mem_singleton] at hz
      subst hz
      exact ⟨x, List.mem_append_right _ (List.mem_singleton.mpr rfl), by simp only; omega⟩

theorem Stands.push (h : Stands e p) (hp : Sorted (p ++ [x])) : Stands (e ++ [x]) (p ++ [x]) := by
  obtain ⟨-, hx, hlt⟩ := sorted_append.mp hp
  refine ⟨sorted_append.mpr ⟨h.sorted, hx, fun y hy z hz => ?_⟩, hp, fun l => ?_, fun y hy => ?_⟩
  · obtain ⟨w, hw, hyw⟩ := h.ends y hy
    rw [hyw]
    exact hlt w hw z hz
  · rw [emapAt_append, emapAt_append, h.same l]
  · rcases List.mem_append.mp hy with hy | hy
    · obtain ⟨w, hw, hyw⟩ := h.ends y hy
      exact ⟨w, List.mem_append_left _ hw, hyw⟩
    · exact ⟨y, List.mem_append_right _ hy, rfl⟩

theorem emapGrow_e (h : emapGrow mem m x = some r) : r.e = m.e ++ [x] := by
  unfold emapGrow at h
  simp only at h
  split_ifs at h <;> cases h <;> rfl

theorem emapGrow_isSome (hmem : ∀ c, mem c = true) : (emapGrow mem m x).isSome := by
  unfold emapGrow
  simp only [hmem, if_true]
  split_ifs <;> rfl

/-- What a push builds stands for one piece more. -/
theorem emapPush_stands (h : emapPush mem m x.lblk x.pblk x.len x.unw = some r)
    (hs : Stands m.e p) (hp : Sorted (p ++ [x])) : Stands r.e (p ++ [x]) := by
  unfold emapPush at h
  split at h
  · next y hy =>
    obtain ⟨e, he⟩ := List.getLast?_eq_some_iff.mp hy
    split_ifs at h with hj
    · cases h
      rw [he] at hs ⊢
      have hyo := (sorted_singleton.mp (sorted_append.mp hs.sorted).2.1)
      have hxo := sorted_singleton.mp (sorted_append.mp hp).2.1
      obtain ⟨h1, h2, h3, -⟩ := hj
      rw [u32_of_lt hyo.lend] at h1
      rw [u32_of_lt hyo.pend] at h2
      have hlen : u32 (y.len + x.len) = y.len + x.len := u32_of_lt (by have := hxo.lend; omega)
      simp only [List.dropLast_concat, hlen]
      exact hs.join hp h1 h2 h3
    · rw [emapGrow_e h]
      exact hs.push hp
  · rw [emapGrow_e h]
    exact hs.push hp

theorem emapPush_isSome (hmem : ∀ c, mem c = true) {lblk pblk len : ℕ} {unw : Bool} :
    (emapPush mem m lblk pblk len unw).isSome := by
  unfold emapPush
  split
  · split_ifs
    · rfl
    · exact emapGrow_isSome hmem
  · exact emapGrow_isSome hmem

end BananaOS.Ext4
