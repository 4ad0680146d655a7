import BananaOS.Ext4.FolderMap

/-!
# A new folder

What `ext4_mkdir` makes: a folder with one block, in which are `.` and `..`.  Its block was free and
its inode was not taken, so that the name which it is given in the folder above does not touch it.
-/

namespace BananaOS.Ext4

open Lib Function

/-- The map of a new folder. -/
def newNames (ino dir : ℕ) : NameMap :=
  update (update (fun _ => none) dot (some (ino, ftDir))) dotdot (some (dir, ftDir))

/-- Inode `ino` is taken, in a group whose inodes are in use. -/
structure Fsys.Taken (fs : Fsys) (ino : ℕ) : Prop where
  taken : fs.taken ino = true
  group : fs.uninit ((ino - 1) / fs.ipg) = false

variable {fs fs' : Fsys} {ino dir b g k n now mode uid gid : ℕ} {r : Blk} {e : List Ext} {t : List ℕ}
  {name : List UInt8} {names : NameMap} {isDir : Bool}

/-! ## `ialloc` -/

theorem Fsys.iscan_some {i j : ℕ} (h : fs.iscan g n i = some j) :
    i ≤ j ∧ j < i + n ∧ fs.taken (g * fs.ipg + j + 1) = false := by
  induction n generalizing i with
  | zero => cases h
  | succ n ih =>
    rw [iscan] at h
    split_ifs at h with ht
    · obtain ⟨h1, h2, h3⟩ := ih h
      exact ⟨by omega, by omega, h3⟩
    · cases h
      exact ⟨le_rfl, by omega, by simpa using ht⟩

theorem Fsys.Taken.openGroup (h : fs.Taken ino) (hg : 0 < fs.ipg) :
    (fs.openGroup g).Taken ino := by
  unfold Fsys.openGroup
  split_ifs with hu
  · have hne : (ino - 1) / fs.ipg ≠ g := by
      rintro rfl
      rw [h.group] at hu
      cases hu
    refine ⟨?_, ?_⟩
    · simp only
      rw [if_neg, h.taken]
      rintro ⟨h1, h2⟩
      refine hne ?_
      rw [Nat.div_eq_iff hg]
      omega
    · simp only
      rw [update_of_ne hne, h.group]
  · exact h

theorem Fsys.openGroup_eq : (fs.openGroup g).vol = fs.vol ∧ (fs.openGroup g).ipg = fs.ipg ∧
    (fs.openGroup g).node = fs.node := by
  unfold openGroup
  split_ifs <;> exact ⟨rfl, rfl, rfl⟩

/-- What `ialloc` gives: an inode of the volume that is not `ino`, if `ino` is taken. -/
theorem Fsys.iallocLoop_spec (h : fs.Taken ino) (hpos : 0 < fs.ipg)
    (hgroups : 0 < fs.vol.groups) {near : ℕ} (hne : (fs.iallocLoop near isDir n k).1 ≠ 0) :
    let out := fs.iallocLoop near isDir n k
    out.2.vol = fs.vol ∧ out.2.ipg = fs.ipg ∧ out.2.node = fs.node ∧ out.1 ≠ ino ∧
      out.1 ≤ fs.vol.groups * fs.ipg := by
  induction n generalizing fs k with
  | zero => exact absurd rfl hne
  | succ n ih =>
    rw [iallocLoop] at hne ⊢
    simp only at hne ⊢
    have hg := Nat.mod_lt (near + k) hgroups
    generalize (near + k) % fs.vol.groups = g at hne hg ⊢
    split_ifs at hne ⊢ with hl
    · exact ih h hpos hgroups hne
    · obtain ⟨h1, h2, h3⟩ := fs.openGroup_eq (g := g)
      have ho := h.openGroup (g := g) hpos
      cases hi : (fs.openGroup g).iscan g (fs.openGroup g).ipg 0 with
      | some i =>
        simp only
        obtain ⟨-, h4, h5⟩ := iscan_some hi
        refine ⟨h1, h2, h3, ?_, ?_⟩
        · rintro rfl
          rw [ho.taken] at h5
          cases h5
        · rw [h2, Nat.zero_add] at *
          calc g * fs.ipg + i + 1 ≤ g * fs.ipg + fs.ipg := by omega
            _ = (g + 1) * fs.ipg := (Nat.succ_mul g fs.ipg).symm
            _ ≤ fs.vol.groups * fs.ipg := Nat.mul_le_mul_right _ hg
      | none =>
        simp only [hi] at hne
        simp only
        obtain ⟨h4, h5, h6, h7, h8⟩ := ih ho (h2 ▸ hpos) (h1 ▸ hgroups) hne
        exact ⟨h4.trans h1, h5.trans h2, h6.trans h3, h7, by rwa [h1, h2] at h8⟩

theorem Fsys.ialloc_spec (h : fs.Taken ino) (hpos : 0 < fs.ipg) (hgroups : 0 < fs.vol.groups)
    {near : ℕ} (hne : (fs.ialloc near isDir).1 ≠ 0) :
    (fs.ialloc near isDir).2.vol = fs.vol ∧ (fs.ialloc near isDir).2.ipg = fs.ipg ∧
      (fs.ialloc near isDir).2.node = fs.node ∧ (fs.ialloc near isDir).1 ≠ ino ∧
      (fs.ialloc near isDir).1 ≤ fs.vol.groups * fs.ipg :=
  iallocLoop_spec h hpos hgroups hne

/-! ## The new inode -/

/-- A short list is always stored. -/
theorem storeMap_short {m : EMap} {v : Vol} (h : m.e.length ≤ 4) : (storeMap r m v).1 = true := by
  unfold storeMap emapStore storeBody
  simp only [if_pos h]

theorem entries_folderBlock (hino : ino < 2 ^ 32) (hdir : dir < 2 ^ 32) :
    Entries (folderBlock ino dir) [⟨ino, 12, ftDir, dot⟩, ⟨dir, bs - 12, ftDir, dotdot⟩] := by
  have h1 := @deAt_putDe zeros _ 12 ftDir 0 dot hino (by decide)
    (by decide) (by decide) (by decide) (by decide) (by decide)
  have h2 := @deAt_putDe (putDe zeros 0 ino 12 dot ftDir) _ (bs - 12) ftDir 12 dotdot hdir (by decide) (by decide) (by decide) (by decide) (by decide) (by decide)
  refine ⟨h1.congr fun i _ hi => ?_, h2, rfl⟩
  exact (putDe_apart (by decide) (.inl (by simpa using hi))).symm

theorem names_new (hino : ino ≠ 0) (hdir : dir ≠ 0) :
    Names [[⟨ino, 12, ftDir, dot⟩, ⟨dir, bs - 12, ftDir, dotdot⟩]] (newNames ino dir) := by
  have hnil : Names [[]] fun _ => none := fun name x => by simp [items]
  have h1 : Names [[⟨ino, 12, ftDir, dot⟩]] (update (fun _ => none) dot (some (ino, ftDir))) :=
    hnil.insert rfl (by simp [items, hino])
  refine h1.insert (update_of_ne (by decide) ..) ?_
  simp only [items, List.flatMap_cons, List.flatMap_nil, List.append_nil]
  rw [List.filter_cons_of_pos (by simpa using hino), List.filter_cons_of_pos (by simpa using hdir),
    List.filter_cons_of_pos (by simpa using hino)]
  exact List.Perm.swap ..

theorem Mapped.nil {v : Vol} : Mapped v [] [] :=
  ⟨Neat.nil, sorted_nil, fun _ _ _ h => (nomatch h), fun _ _ _ _ _ h => (nomatch h)⟩

/-- The contents of a new folder: a block that was free, with `.` and `..`. -/
theorem nodeContents_folder {r' : Blk} {vol : Vol} (hv : fs.vol.Ok) (hread : (fs.iread ino).isSome)
    (hino : ino < 2 ^ 32) (hdir : dir < 2 ^ 32) (hdir0 : dir ≠ 0)
    (hflag : g32 r 0x20 &&& extentsFl ≠ 0) (hisDir : isDirI r = true)
    (h : nodeContents fs ino dir r true none = (true, r', vol)) :
    ∃ e t, FolderOf ({ fs with vol := vol }.iwrite ino r') ino e t (newNames ino dir) ∧
      Beside fs ({ fs with vol := vol }.iwrite ino r') ino (fun _ => False) ∧
      ∀ b, Owns e t b → fs.vol.used b = false := by
  obtain ⟨r₀, hr₀⟩ := Option.isSome_iff_exists.mp hread
  have hino0 : ino ≠ 0 := by
    rintro rfl
    cases hr₀
  unfold nodeContents at h
  simp only [if_true] at h
  generalize u32 ((ino - 1) / fs.ipg * bpg) = goal at h
  by_cases hgot : (fs.vol.give goal 1).1.2 = 0
  · rw [if_pos hgot] at h
    cases h
  rw [if_neg hgot] at h
  obtain ⟨b, n, hgive, h1, h2, h3, -, h5⟩ := Vol.give_some hv.pos (by decide) hgot
  obtain rfl : n = 1 := by omega
  rw [hgive] at h
  simp only at h
  generalize hvol₁ : (fs.vol.take (b / bpg) b 1).set b (folderBlock ino dir) = vol₁ at h
  have hfree : fs.vol.used b = false := h5 b le_rfl (by omega)
  have hused : ∀ c, vol₁.used c = true ↔ fs.vol.used c = true ∨ c = b := fun c => by
    rw [← hvol₁, show c = b ↔ b ≤ c ∧ c < b + 1 by omega]
    exact Vol.take_used (g := b / bpg) c
  have hnb : vol₁.nblocks = fs.vol.nblocks := by
    subst hvol₁
    rfl
  have hok : vol₁.Ok := ⟨hnb ▸ hv.pos, hnb ▸ hv.small, (hused 0).mpr (.inl hv.zero)⟩
  have hsmall := hv.small
  have hmapped : Mapped vol₁ (pushMap EMap.empty 0 b 1 false).e [] := by
    have := @Mapped.add _ EMap.empty 0 _ _ _ (b / bpg) Mapped.nil hv
      (fun _ he => absurd he List.not_mem_nil) (by decide) (by decide) h3 h5 (by decide) fun _ _ _ => rfl
    refine this.congr hnb fun c _ hc => ?_
    subst hvol₁
    exact hc
  have hat : ∀ l, emapAt (pushMap EMap.empty 0 b 1 false).e l = if l = 0 then some (b, false) else none :=
    fun l => by
      change emapAt [⟨0, b, 1, false⟩] l = _
      simp only [emapAt, Ext.has_iff]
      by_cases hl : l = 0
      · subst hl
        rfl
      · rw [if_neg (by omega), if_neg hl]
  cases hst : storeMap r (pushMap EMap.empty 0 b 1 false) vol₁ with
  | mk rc rest =>
  obtain ⟨r₁, m₁, w⟩ := rest
  have hrc : rc = true := by
    have := storeMap_short (r := r) (v := vol₁) (m := pushMap EMap.empty 0 b 1 false) (show 1 ≤ 4 by decide)
    rwa [hst] at this
  subst hrc
  rw [hst] at h
  simp only [Prod.mk.injEq, true_and] at h
  obtain ⟨rfl, rfl⟩ := h
  obtain ⟨t, g1, g2, g3, g4, g5, g6⟩ := storeMap_filed hst hok hmapped
    (fun _ hmem => absurd hmem List.not_mem_nil) hflag
  have hnew : ∀ {c}, c ∈ t → ¬ (fs.vol.used c = true ∨ c = b) := fun hct hc => by
    have := (g3 _ hct).2
    rw [(hused _).mpr hc] at this
    cases this
  have hsame : ∀ i, (i < 0x04 ∨ 0x08 ≤ i) → (i < 0x6C ∨ 0x70 ≤ i) → setSize r₁ bs i = r₁ i :=
    fun i i1 i2 => setSize_apart ⟨i1, i2⟩
  refine ⟨(pushMap EMap.empty 0 b 1 false).e, t, ⟨setSize r₁ bs, _, ?_, names_new hino0 hdir0⟩, ?_, ?_⟩
  · refine ⟨⟨g2 ▸ hok.pos, g2 ▸ hok.small, (g4 0).mpr (.inl ⟨hok.zero, List.not_mem_nil⟩)⟩, ?_, ?_, ?_, ?_,
      fun k l hk => ?_, fun k hk => ?_, fun l hl => ?_, ?_⟩
    · refine Fsys.iread_iwrite ?_ (r := r₀)
      rw [← hr₀]
      unfold Fsys.iread Vol.groups
      rw [g2, hnb]
    · refine (isDirI_congr fun i hi => ?_).trans hisDir
      exact (hsame i (by omega) (by omega)).trans (g6 i (by omega) (by omega) (by omega))
    · exact g1.congr rfl (fun _ _ hc => hc) (fun _ _ => rfl) fun i i1 i2 =>
        hsame i (by omega) (by unfold rootAt at i2; omega)
    · rw [iSize_setSize (by decide)]
      exact (Nat.one_mul bs).symm
    · have hk0 : k = 0 := by
        have := (List.getElem?_eq_some_iff.mp hk).1
        simp only [List.length_singleton] at this
        omega
      subst hk0
      rw [List.getElem?_cons_zero] at hk
      cases hk
      refine ⟨b, false, by rw [hat, if_pos rfl], ?_⟩
      change Entries (w.data b) _
      rw [g5 b (fun hbt => hnew hbt (.inr rfl)) List.not_mem_nil, ← hvol₁, Vol.set_data_self]
      exact entries_folderBlock hino hdir
    · rw [List.length_singleton] at hk
      rw [hat, if_neg (by omega)]
    · rw [List.mem_singleton.mp hl]
      intro s hs _
      rcases List.mem_cons.mp hs with rfl | hs
      · exact (List.cons_ne_nil _ _ : dot ≠ [])
      · rw [List.mem_singleton.mp hs]
        exact (List.cons_ne_nil _ _ : dotdot ≠ [])
    · simp only [List.flatMap_cons, List.flatMap_nil, List.append_nil, items]
      rw [List.filter_cons_of_pos (by simpa using hino0), List.filter_cons_of_pos (by simpa using hdir0)]
      exact (by decide : [dot, dotdot].Nodup)
  · refine ⟨g2.trans hnb, rfl, fun j hj => update_of_ne hj .., fun c hc _ => ?_, fun c hc _ => ?_⟩
    · exact (g4 c).mpr (.inl ⟨(hused c).mpr (.inl hc), List.not_mem_nil⟩)
    · refine (g5 c (fun hct => hnew hct (.inl hc)) List.not_mem_nil).trans ?_
      subst hvol₁
      refine Vol.set_data_ne fun hcb => ?_
      rw [hcb, hfree] at hc
      cases hc
  · rintro c (hct | ⟨l, u, hl⟩)
    · by_contra hc
      exact hnew hct (.inl (by simpa using hc))
    · rw [hat] at hl
      split_ifs at hl
      cases hl
      exact hfree

/-! ## `ext4_mkdir` -/

theorem mode_folder (mode : ℕ) :
    (sIfdir ||| (mode &&& 0o7777)) &&& sIfmt = sIfdir ∧ (sIfdir ||| (mode &&& 0o7777)) < 2 ^ 16 := by
  constructor
  · rw [Nat.and_or_distrib_right, Nat.and_assoc, show 0o7777 &&& sIfmt = 0 from rfl, Nat.and_zero]
    rfl
  · refine Nat.or_lt_two_pow (by decide) ?_
    exact Nat.lt_of_le_of_lt Nat.and_le_right (by decide)

theorem initInode_folder {mode links : ℕ} (hmode : mode &&& sIfmt = sIfdir) (hlt : mode < 2 ^ 16) :
    g32 (initInode now mode uid gid links) 0x20 &&& extentsFl ≠ 0 ∧
      isDirI (initInode now mode uid gid links) = true := by
  have hne : mode &&& sIfmt ≠ sIflnk := by
    rw [hmode]
    decide
  unfold initInode
  simp only [if_pos hne]
  constructor
  · rw [g32_p16_ne (by omega), g32_p16_ne (by omega), g32_p16_ne (by omega), g32_p16_ne (by omega),
      g32_p32]
    decide
  · unfold isDirI iMode
    simp only [g16_p16_ne, g16_p32_ne, g16_p16, Nat.mod_eq_of_lt hlt, hmode, decide_true, true_or,
      Nat.reduceAdd, Nat.reduceLeDiff]

theorem Fsys.iread_bounds (h : (fs.iread ino).isSome) :
    ino ≠ 0 ∧ ino < 2 ^ 32 ∧ 0 < fs.ipg ∧ 0 < fs.vol.groups := by
  unfold iread at h
  split_ifs at h with h0
  · cases h
  · rw [not_or, Nat.not_lt] at h0
    have hle : u32 (fs.vol.groups * fs.ipg) ≤ fs.vol.groups * fs.ipg := Nat.mod_le ..
    have hlt := u32_lt (fs.vol.groups * fs.ipg)
    have hpos : 0 < fs.vol.groups * fs.ipg := by omega
    exact ⟨h0.1, by omega, Nat.pos_of_mul_pos_left hpos, Nat.pos_of_mul_pos_right hpos⟩

/-- **What `ext4_mkdir` makes is a folder with `.` and `..`.** -/
theorem mkdir_folder (hp : FolderOf fs dir e t names) (ht : fs.Taken dir)
    (hsmall : fs.vol.groups * fs.ipg < 2 ^ 32) (h : mkdir fs dir name mode uid gid now = (ino, fs'))
    (hino : ino ≠ 0) : ∃ e' t', FolderOf fs' ino e' t' (newNames ino dir) := by
  obtain ⟨hdir0, hdir, hipg, hgroups⟩ := Fsys.iread_bounds hp.iread
  obtain ⟨hmode, hmode'⟩ := mode_folder mode
  unfold mkdir makeNode at h
  generalize sIfdir ||| (mode &&& 0o7777) = mode' at h hmode hmode'
  simp only [hmode, decide_true, if_true] at h
  by_cases hname : name = [] ∨ name.length > 255
  · rw [if_pos hname] at h
    cases h
    exact absurd rfl hino
  rw [if_neg hname] at h
  rw [not_or] at hname
  by_cases hthere : (lookup fs dir name).isSome
  · rw [if_pos hthere] at h
    cases h
    exact absurd rfl hino
  rw [if_neg hthere, hp.lookup] at *
  rw [Option.not_isSome_iff_eq_none] at hthere
  -- the inode
  have hialloc := @Fsys.ialloc_spec _ _ true ht hipg hgroups dir
  generalize fs.ialloc dir true = out at h hialloc
  obtain ⟨n, fs₁⟩ := out
  simp only at h hialloc
  by_cases hn : n = 0
  · rw [if_pos hn] at h
    cases h
    exact absurd rfl hino
  rw [if_neg hn] at h
  obtain ⟨g1, g2, g3, g4, g5⟩ := hialloc hn
  have hbeside₁ : Beside fs fs₁ n fun _ => False := by
    refine ⟨by rw [g1], g2, fun j _ => by rw [g3], fun b hb _ => by rwa [g1], fun b _ _ => by rw [g1]⟩
  have hp₁ : FolderOf fs₁ dir e t names := hp.beside hbeside₁ (Ne.symm g4) not_false fun _ _ => not_false
  have hn32 : n < 2 ^ 32 := by omega
  have hread : (fs₁.iread n).isSome := by
    unfold Fsys.iread
    rw [g1, g2, u32_of_lt hsmall, if_neg (by omega)]
    rfl
  -- its contents
  obtain ⟨hflag, hisDir⟩ := initInode_folder hmode hmode'
  generalize initInode now mode' uid gid 2 = r at h hflag hisDir
  cases hcont : nodeContents fs₁ n dir r true none with
  | mk rc rest =>
  obtain ⟨r', vol⟩ := rest
  rw [hcont] at h
  simp only at h
  cases rc with
  | false =>
    simp only [Bool.false_eq_true, if_false, if_true] at h
    cases h
    exact absurd rfl hino
  | true =>
    obtain ⟨e', t', hc, hbeside₂, hfree⟩ :=
      nodeContents_folder hp₁.vol hread hn32 hdir hdir0 hflag hisDir hcont
    have hp₂ := hp₁.beside hbeside₂ (Ne.symm g4) not_false fun _ _ => not_false
    -- its name in the folder above, whose blocks are none of its own
    have hadded := @FolderOf.dirAdd _ _ _ ftDir now _ _ _ _ hp₂ hthere hname.1 (by omega) hn hn32 (by decide)
    have hapart : ∀ b, Owns e' t' b → ¬ Owns e t b := fun b hb hb' => by
      have := hp₁.owns_used hb'
      rw [hfree b hb] at this
      cases this
    simp only [if_true, nodeNamed] at h
    generalize dirAdd ({ fs₁ with vol := vol }.iwrite n r') dir name n ftDir now = out at h hadded
    obtain ⟨rc, fs₃⟩ := out
    cases hadded with
    | kept =>
      simp only [if_true] at h
      cases h
      exact absurd rfl hino
    | lost =>
      simp only [if_true] at h
      cases h
      exact absurd rfl hino
    | done hp₃ hbeside₃ =>
      simp only [Bool.true_eq_false, if_false, Prod.mk.injEq] at h
      obtain ⟨rfl, rfl⟩ := h
      have hc₃ := hc.beside hbeside₃ g4 hp₁.not_owns_zero hapart
      refine ⟨e', t', hc₃.beside ?_ g4 not_false fun _ _ => not_false⟩
      unfold linksAdd
      split
      · exact Beside.refl
      · exact ⟨rfl, rfl, fun j hj => update_of_ne hj .., fun _ hb _ => hb, fun _ _ _ => rfl⟩

end BananaOS.Ext4
