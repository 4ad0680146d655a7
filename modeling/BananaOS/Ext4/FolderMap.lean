import BananaOS.Ext4.FolderChanges

/-!
# A folder as a map from names

`Names L names` says that the entries `L` are those of the finite map `names`: each name that it has
in one live entry, with inode and type.  `FolderOf` is a folder on the volume with such entries.
`dir_find` reads the map, `dir_add` and `dir_remove` update it, `ext4_readdir` lists it without `.`
and `..`, and `dir_empty` says whether it has another name.
-/

namespace BananaOS.Ext4

open Lib Function

/-- A map from names to inodes and types. -/
abbrev NameMap := List UInt8 → Option (ℕ × ℕ)

/-- The entries are those of the map. -/
def Names (L : List (List Ent)) (names : NameMap) : Prop :=
  ∀ name x, names name = some x ↔ (name, x) ∈ L.flatMap items

/-- Inode `ino` is a folder, and `names` its map; its blocks are those of `e` and `t`. -/
def FolderOf (fs : Fsys) (ino : ℕ) (e : List Ext) (t : List ℕ) (names : NameMap) : Prop :=
  ∃ r L, Folder fs ino r e t L ∧ Names L names

variable {fs fs' : Fsys} {ino dino type now : ℕ} {r : Blk} {e : List Ext} {t : List ℕ}
  {L L₁ L₂ : List (List Ent)} {l l' : List Ent} {name : List UInt8} {names : NameMap} {x : ℕ × ℕ}

theorem Names.none_iff (h : Names L names) :
    names name = none ↔ ∀ l ∈ L, ∀ s ∈ l, ¬ s.Is name := by
  rw [Option.eq_none_iff_forall_ne_some]
  constructor
  · intro hn l hl s hs his
    refine hn (s.ino, s.type) ((h _ _).mpr (List.mem_flatMap.mpr ⟨l, hl, mem_items.mpr ⟨s, hs, his.1, ?_⟩⟩))
    rw [his.2]
  · intro hn x hx
    obtain ⟨l, hl, hm⟩ := List.mem_flatMap.mp ((h _ _).mp hx)
    obtain ⟨s, hs, hs0, heq⟩ := mem_items.mp hm
    exact hn l hl s hs ⟨hs0, congrArg Prod.fst heq⟩

theorem Names.of_is {s : Ent} (h : Names L names) (hl : l ∈ L) (hs : s ∈ l) (his : s.Is name) :
    names name = some (s.ino, s.type) :=
  (h _ _).mpr (List.mem_flatMap.mpr ⟨l, hl, mem_items.mpr ⟨s, hs, his.1, by rw [his.2]⟩⟩)

theorem Names.insert (h : Names L names) (hn : names name = none)
    (hp : (L₁.flatMap items).Perm ((name, x) :: L.flatMap items)) :
    Names L₁ (update names name (some x)) := by
  intro name' x'
  rw [hp.mem_iff, List.mem_cons, ← h, update_apply]
  split_ifs with heq
  · subst heq
    rw [hn]
    simp [eq_comm]
  · simp [heq]

theorem Names.erase (h : Names L names) (hd : ((L.flatMap items).map Prod.fst).Nodup)
    (hp : (L.flatMap items).Perm ((name, x) :: L₁.flatMap items)) :
    Names L₁ (update names name none) := by
  have hnot : name ∉ (L₁.flatMap items).map Prod.fst :=
    (List.nodup_cons.mp ((hp.map Prod.fst).nodup_iff.mp hd)).1
  intro name' x'
  rw [update_apply]
  split_ifs with heq
  · subst heq
    exact iff_of_false nofun fun hm => hnot (List.mem_map.mpr ⟨_, hm, rfl⟩)
  · rw [h, hp.mem_iff, List.mem_cons]
    simp [heq]

theorem FolderOf.beside {own : ℕ → Prop} {j : ℕ} (h : FolderOf fs j e t names)
    (hb : Beside fs fs' ino own) (hj : j ≠ ino) (hz : ¬ own 0) (hown : ∀ b, Owns e t b → ¬ own b) :
    FolderOf fs' j e t names := by
  obtain ⟨r, L, hf, hn⟩ := h
  exact ⟨r, L, hf.beside hb hj hz hown, hn⟩

theorem FolderOf.owns_used {b : ℕ} (h : FolderOf fs ino e t names) (hb : Owns e t b) :
    fs.vol.used b = true := by
  obtain ⟨r, L, hf, -⟩ := h
  exact hf.filed.owns_used hb

theorem FolderOf.not_owns_zero (h : FolderOf fs ino e t names) : ¬ Owns e t 0 := by
  obtain ⟨r, L, hf, -⟩ := h
  rintro (h0 | ⟨l, u, h0⟩)
  · exact (hf.filed.tree 0 h0).1 rfl
  · exact (hf.filed.used l 0 u h0).1 rfl

theorem FolderOf.iread (h : FolderOf fs ino e t names) : (fs.iread ino).isSome := by
  obtain ⟨r, L, hf, -⟩ := h
  rw [hf.inode]
  rfl

theorem FolderOf.vol (h : FolderOf fs ino e t names) : fs.vol.Ok := by
  obtain ⟨r, L, hf, -⟩ := h
  exact hf.vol

theorem items_middle (L₁ : List (List Ent)) (l : List Ent) (L₂ : List (List Ent)) :
    ((L₁ ++ l :: L₂).flatMap items).Perm (items l ++ (L₁ ++ L₂).flatMap items) := by
  rw [List.flatMap_append, List.flatMap_cons, List.flatMap_append]
  exact List.perm_append_comm_assoc _ _ _

/-! ## Reading the map -/

/-- `dir_find` reads the map. -/
theorem FolderOf.lookup (h : FolderOf fs ino e t names) : lookup fs ino name = names name := by
  obtain ⟨r, L, hf, hn⟩ := h
  obtain ⟨d, hd, -, he, -, hlen⟩ := hf.open
  unfold Ext4.lookup
  rw [hd]
  rcases @Folder.find _ _ _ _ _ _ name _ hf he hlen with ⟨L₁, l₁, s, l₂, L₂, b, u, rfl, -, -, his, -, hf'⟩ | ⟨hf', hnone⟩
  · simp only [hf', Option.map_some]
    exact (hn.of_is (l := l₁ ++ s :: l₂) (by simp) (by simp) his).symm
  · simp only [hf', Option.map_none]
    exact (hn.none_iff.mpr hnone).symm

/-- `dir_empty` is true when the map has no other name than `.` and `..`. -/
theorem FolderOf.dirEmpty (h : FolderOf fs ino e t names) :
    dirEmpty fs ino = true ↔ ∀ name, names name ≠ none → name = dot ∨ name = dotdot := by
  obtain ⟨r, L, hf, hn⟩ := h
  obtain ⟨d, hd, -, he, -, hlen⟩ := hf.open
  have hall : Ext4.dirEmpty fs ino = true ↔ ∀ l ∈ L, ∀ s ∈ l, ¬ s.Counts := by
    unfold Ext4.dirEmpty
    rw [hd]
    simp only [List.all_eq_true, List.mem_range, hlen]
    constructor
    · intro h l hl
      obtain ⟨k, hk, rfl⟩ := List.getElem_of_mem hl
      obtain ⟨b, u, -, h2, h3⟩ := hf.block (d := d) he (List.getElem?_eq_getElem hk)
      have := h k hk
      rw [h2, Option.map_some, Option.getD_some] at this
      exact (emptyIn_iff h3).mp this
    · intro h k hk
      obtain ⟨b, u, -, h2, h3⟩ := hf.block (d := d) he (List.getElem?_eq_getElem hk)
      rw [h2, Option.map_some, Option.getD_some]
      exact (emptyIn_iff h3).mpr (h _ (List.getElem_mem hk))
  rw [hall]
  constructor
  · intro h name hne
    by_contra hdots
    rw [not_or] at hdots
    refine hne (hn.none_iff.mpr fun l hl s hs his => h l hl s hs ⟨his.1, ?_⟩)
    rwa [his.2]
  · rintro h l hl s hs ⟨h0, h1, h2⟩
    refine (h s.name ?_).elim h1 h2
    rw [hn.of_is hl hs ⟨h0, rfl⟩]
    exact nofun

/-- The report of items that is just kept. -/
def collect (l : List (List UInt8 × ℕ × ℕ)) (name : List UInt8) (ino type : ℕ) :
    List (List UInt8 × ℕ × ℕ) × Bool := (l ++ [(name, ino, type)], false)

theorem report_append {σ : Type} {fn : σ → List UInt8 → ℕ → ℕ → σ × Bool} {a : σ}
    {l l' : List (List UInt8 × ℕ × ℕ)} :
    report fn (l ++ l') a =
      if (report fn l a).2 then ((report fn l a).1, true) else report fn l' (report fn l a).1 := by
  induction l generalizing a with
  | nil => simp [report]
  | cons x l ih =>
    rw [List.cons_append, report, report]
    split_ifs with h <;> simp_all

/-- `ext4_readdir` goes through the entries of all blocks. -/
theorem Folder.readdir_eq {σ : Type} {fn : σ → List UInt8 → ℕ → ℕ → σ × Bool} {a : σ}
    (h : Folder fs ino r e t L) : readdir fn fs ino a = some (report fn (L.flatMap shown) a).1 := by
  obtain ⟨d, hd, -, he, -, hlen⟩ := h.open
  have hks : ∀ n k (a : σ), k + n = L.length →
      readBlocks fn fs.vol d (List.range' k n) a = report fn ((L.drop k).flatMap shown) a := by
    intro n
    induction n with
    | zero =>
      intro k a hk
      rw [List.drop_of_length_le (by omega)]
      rfl
    | succ n ih =>
      intro k a hk
      have hlt : k < L.length := by omega
      obtain ⟨b, u, -, h2, h3⟩ := h.block (d := d) he (List.getElem?_eq_getElem hlt)
      rw [List.range'_succ, readBlocks, h2, List.drop_eq_getElem_cons hlt, List.flatMap_cons,
        report_append, ← readIn_eq h3]
      simp only [ih (k + 1) _ (by omega)]
  unfold readdir
  rw [hd, Option.map_some, hlen, List.range_eq_range', hks _ 0 _ (by omega), List.drop_zero]

theorem report_collect (l acc : List (List UInt8 × ℕ × ℕ)) :
    report collect l acc = (acc ++ l, false) := by
  induction l generalizing acc with
  | nil => simp [report]
  | cons x l ih =>
    rw [report]
    simp [collect, ih]

theorem shown_eq : shown l = (items l).filter fun x => x.1 ≠ dot ∧ x.1 ≠ dotdot := by
  unfold shown items
  rw [List.filter_map, List.filter_filter]
  congr 1
  refine List.filter_congr fun s _ => ?_
  simp [Ent.Counts, and_comm]

theorem flatMap_shown :
    L.flatMap shown = (L.flatMap items).filter fun x => x.1 ≠ dot ∧ x.1 ≠ dotdot := by
  rw [List.filter_flatMap]
  exact congrArg L.flatMap (funext fun l => shown_eq)

/-- `ext4_readdir` reports the map without `.` and `..`, each name once. -/
theorem FolderOf.readdir (h : FolderOf fs ino e t names) :
    ∃ l, readdir collect fs ino [] = some l ∧ (l.map Prod.fst).Nodup ∧
      ∀ name x, (name, x) ∈ l ↔ names name = some x ∧ name ≠ dot ∧ name ≠ dotdot := by
  obtain ⟨r, L, hf, hn⟩ := h
  refine ⟨L.flatMap shown, ?_, ?_, fun name x => ?_⟩
  · rw [hf.readdir_eq, report_collect, List.nil_append]
  · rw [flatMap_shown]
    exact hf.distinct.sublist (List.filter_sublist.map _)
  · rw [flatMap_shown, List.mem_filter, hn]
    simp

/-! ## Changing the map -/

/-- What `dir_add` does to a folder: nothing; a block is taken and its place is not stored; or the name
is there. -/
inductive Added (fs : Fsys) (dino : ℕ) (e : List Ext) (t : List ℕ) (names : NameMap) :
    Bool × Fsys → Prop
  | kept : Added fs dino e t names (false, fs)
  | lost {fs' : Fsys} {b : ℕ} : Beside fs fs' dino (Owns e t) → fs.vol.used b = false →
      fs'.vol.used b = true → Added fs dino e t names (false, fs')
  | done {fs' : Fsys} {e' : List Ext} {t' : List ℕ} : FolderOf fs' dino e' t' names →
      Beside fs fs' dino (Owns e t) → Added fs dino e t names (true, fs')

/-- **`dir_add` of a name that is not there.** -/
theorem FolderOf.dirAdd (h : FolderOf fs dino e t names) (hnone : names name = none)
    (hname : name ≠ []) (hname' : name.length ≤ 255) (hino : ino ≠ 0) (hino' : ino < 2 ^ 32)
    (htype : type < 256) :
    Added fs dino e t (update names name (some (ino, type))) (dirAdd fs dino name ino type now) := by
  obtain ⟨r, L, hf, hn⟩ := h
  obtain ⟨d, hd, hr, he, ht, hlen⟩ := hf.open
  have hpos := List.length_pos_iff.mpr hname
  have hnew := hn.none_iff.mp hnone
  unfold Ext4.dirAdd
  simp only
  rw [if_neg (by omega), hd]
  simp only
  rcases hf.findSome (f := fun _ p => (roomIn (fs.vol.data p) (deLen name.length)).map fun off => (p, off))
    he hlen with ⟨L₁, l, L₂, b, u, a, rfl, h1, h2, h3, h4, h5, -⟩ | ⟨h1, -⟩
  · -- there is room in a block
    unfold dirRoom
    rw [h5]
    obtain ⟨off, hoff, rfl⟩ := Option.map_eq_some_iff.mp h4
    have hroom := @roomIn_spec _ (deLen name.length) _ h3
    rw [hoff] at hroom
    cases hroom with
    | some l₁ s l₂ hl hneed =>
      subst hl
      have hnamed := hf.named (l₁ ++ s :: l₂) (by simp)
      have hput := entries_putIn h3 hneed (hnamed s (by simp)) hname hino' hname' htype
      have hitems : (items (l₁ ++ s.putBeside ino name type ++ l₂)).Perm
          ((name, ino, type) :: items (l₁ ++ s :: l₂)) := items_putBeside hino
      have hperm : ((L₁ ++ (l₁ ++ s.putBeside ino name type ++ l₂) :: L₂).flatMap items).Perm
          ((name, ino, type) :: (L₁ ++ (l₁ ++ s :: l₂) :: L₂).flatMap items) :=
        ((items_middle ..).trans (hitems.append_right _)).trans ((items_middle ..).symm.cons _)
      have hdist : (((L₁ ++ (l₁ ++ s.putBeside ino name type ++ l₂) :: L₂).flatMap items).map
          Prod.fst).Nodup := by
        refine ((hperm.map Prod.fst).nodup_iff).mpr (List.nodup_cons.mpr ⟨fun hm => ?_, hf.distinct⟩)
        obtain ⟨y, hy, hy'⟩ := List.mem_map.mp hm
        have hy := (hn y.1 y.2).mpr hy
        rw [hy', hnone] at hy
        cases hy
      -- the names of the block are those it had, and the new one
      have hnamed' : ∀ s' ∈ l₁ ++ s.putBeside ino name type ++ l₂, s'.ino ≠ 0 → s'.name ≠ [] := by
        intro s' hs' hs0
        have hmem := hitems.mem_iff.mp (mem_items.mpr ⟨s', hs', hs0, rfl⟩)
        rcases List.mem_cons.mp hmem with heq | hmem
        · rw [show s'.name = name from congrArg Prod.fst heq]
          exact hname
        · obtain ⟨s'', hs'', h0, heq⟩ := mem_items.mp hmem
          rw [← show s''.name = s'.name from congrArg Prod.fst heq]
          exact hnamed s'' hs'' h0
      obtain ⟨h6, h7⟩ := hf.setBlock h1 hput hnamed' hdist
      subst hr
      exact .done ⟨_, _, h6, hn.insert hnone hperm⟩ h7
  · unfold dirRoom
    rw [h1]
    have hgrow := @Folder.grow _ _ _ now _ _ _ _ _ _ _ hf hr he ht hlen hino hino' hname hname' htype hnew
    simp only
    generalize dirGrow fs d dino name ino type now = out at hgrow ⊢
    cases hgrow with
    | full => exact .kept
    | lost h2 h3 h4 => exact .lost h2 h3 h4
    | more h2 h3 =>
      refine .done ⟨_, _, h2, hn.insert hnone ?_⟩ h3
      rw [List.flatMap_append]
      refine List.perm_append_comm.trans ?_
      simp [items, hino]

/-- **`dir_remove`**: it fails when the name is not there. -/
theorem FolderOf.dirRemove (h : FolderOf fs dino e t names) :
    (names name = none ∧ dirRemove fs dino name now = (false, fs)) ∨
      ∃ x fs', names name = some x ∧ dirRemove fs dino name now = (true, fs') ∧
        FolderOf fs' dino e t (update names name none) ∧ Beside fs fs' dino (Owns e t) := by
  obtain ⟨r, L, hf, hn⟩ := h
  obtain ⟨d, hd, hr, he, ht, hlen⟩ := hf.open
  unfold Ext4.dirRemove
  rw [hd]
  simp only
  rcases hf.find he hlen with
    ⟨L₁, l₁, s, l₂, L₂, b, u, rfl, h1, h2, his, h3, h4⟩ | ⟨h1, h2⟩
  · right
    rw [h4]
    simp only
    rw [h2]
    subst hr
    have hitems : (items (l₁ ++ s :: l₂)).Perm ((name, s.ino, s.type) :: items (takenOut l₁ s l₂)) := by
      rw [← his.2]
      exact items_takenOut his.1
    have hperm : ((L₁ ++ (l₁ ++ s :: l₂) :: L₂).flatMap items).Perm
        ((name, s.ino, s.type) :: (L₁ ++ takenOut l₁ s l₂ :: L₂).flatMap items) :=
      ((items_middle ..).trans (hitems.append_right _)).trans ((items_middle ..).symm.cons _)
    have hdist : (((L₁ ++ takenOut l₁ s l₂ :: L₂).flatMap items).map Prod.fst).Nodup :=
      (List.nodup_cons.mp ((hperm.map Prod.fst).nodup_iff.mp hf.distinct)).2
    -- the names of the block are among those it had
    have hnamed : ∀ s' ∈ takenOut l₁ s l₂, s'.ino ≠ 0 → s'.name ≠ [] := by
      intro s' hs' hs0
      obtain ⟨s'', hs'', h0, heq⟩ := mem_items.mp
        (hitems.mem_iff.mpr (List.mem_cons_of_mem _ (mem_items.mpr ⟨s', hs', hs0, rfl⟩)))
      rw [← show s''.name = s'.name from congrArg Prod.fst heq]
      exact hf.named (l₁ ++ s :: l₂) (by simp) s'' hs'' h0
    obtain ⟨h5, h6⟩ := hf.setBlock h1 (entries_takeOut h3) hnamed hdist
    exact ⟨(s.ino, s.type), _, hn.of_is (l := l₁ ++ s :: l₂) (by simp) (by simp) his, rfl,
      ⟨_, _, h5, hn.erase hf.distinct hperm⟩, h6⟩
  · left
    rw [h1]
    exact ⟨hn.none_iff.mpr h2, rfl⟩

end BananaOS.Ext4
