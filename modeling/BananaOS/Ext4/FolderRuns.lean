import BananaOS.Ext4.MakeFolder

/-!
# Any run of additions and removals

A folder that `ext4_mkdir` made, and then `dir_add` and `dir_remove` in any order.  The map that the
calls describe is updated by each call that succeeds, and the folder stays the folder of that map
whatever its layout has become.

One way to fail is left out.  When the disk is full, `dir_add` may have got the last free block for
the new entry and then fail to store the folder's list, having freed the old tree on the way.  Such a
call is the one that fails and has changed the bitmap.
-/

namespace BananaOS.Ext4

open Lib Function

/-- Folder `dino` after a run of calls that makes its map `names`. -/
inductive FolderRun (dino : ℕ) : Fsys → NameMap → Prop
  | made {fs fs' : Fsys} {dir mode uid gid now : ℕ} {e : List Ext} {t : List ℕ} {above : NameMap}
      {name : List UInt8} (hp : FolderOf fs dir e t above) (ht : fs.Taken dir)
      (hsmall : fs.vol.groups * fs.ipg < 2 ^ 32)
      (h : mkdir fs dir name mode uid gid now = (dino, fs')) (hdino : dino ≠ 0) :
      FolderRun dino fs' (newNames dino dir)
  | add {fs fs' : Fsys} {names : NameMap} {name : List UInt8} {ino type now : ℕ} {rc : Bool}
      (run : FolderRun dino fs names) (hnew : names name = none) (hname : name ≠ [])
      (hname' : name.length ≤ 255) (hino : ino ≠ 0) (hino' : ino < 2 ^ 32) (htype : type < 256)
      (h : dirAdd fs dino name ino type now = (rc, fs'))
      (hlost : rc = false → fs'.vol.used = fs.vol.used) :
      FolderRun dino fs' (if rc then update names name (some (ino, type)) else names)
  | remove {fs fs' : Fsys} {names : NameMap} {name : List UInt8} {now : ℕ} {rc : Bool}
      (run : FolderRun dino fs names) (h : dirRemove fs dino name now = (rc, fs')) :
      FolderRun dino fs' (if rc then update names name none else names)

/-- What is asked of a folder with the map `names`. -/
structure IsMap (fs : Fsys) (dino : ℕ) (names : NameMap) : Prop where
  tiled : ∃ d, dirOpen fs dino = some d ∧
    ∀ k < d.nblk, ∃ p l, dirBlock d k = some p ∧ Entries (fs.vol.data p) l
  find : ∀ name, lookup fs dino name = names name
  readdir : ∃ l, readdir collect fs dino [] = some l ∧ (l.map Prod.fst).Nodup ∧
    ∀ name x, (name, x) ∈ l ↔ names name = some x ∧ name ≠ dot ∧ name ≠ dotdot
  empty : dirEmpty fs dino = true ↔ ∀ name, names name ≠ none → name = dot ∨ name = dotdot

variable {fs fs' : Fsys} {dino : ℕ} {names : NameMap} {e : List Ext} {t : List ℕ}

theorem FolderOf.isMap (h : FolderOf fs dino e t names) : IsMap fs dino names := by
  refine ⟨?_, fun name => h.lookup, h.readdir, h.dirEmpty⟩
  obtain ⟨r, L, hf, -⟩ := h
  obtain ⟨d, hd, -, he, -, hlen⟩ := hf.open
  refine ⟨d, hd, fun k hk => ?_⟩
  obtain ⟨b, u, -, h2, h3⟩ := hf.block (d := d) he (List.getElem?_eq_getElem (hlen ▸ hk))
  exact ⟨b, _, h2, h3⟩

/-- Every call of a run leaves a folder. -/
theorem FolderRun.folder (h : FolderRun dino fs names) : ∃ e t, FolderOf fs dino e t names := by
  induction h with
  | made hp ht hsmall h hdino => exact mkdir_folder hp ht hsmall h hdino
  | @add fs fs' names name ino type now rc _ hnew hname hname' hino hino' htype h hlost ih =>
    obtain ⟨e, t, hf⟩ := ih
    have hadded := @FolderOf.dirAdd _ _ _ _ now _ _ _ _ hf hnew hname hname' hino hino' htype
    rw [h] at hadded
    cases hadded with
    | kept => exact ⟨e, t, hf⟩
    | lost _ hfree hused =>
      -- the block that was lost is in use now
      rw [hlost rfl, hfree] at hused
      cases hused
    | done hf' _ => exact ⟨_, _, hf'⟩
  | @remove fs fs' names name now rc _ h ih =>
    obtain ⟨e, t, hf⟩ := ih
    rcases hf.dirRemove with ⟨-, h1⟩ | ⟨x, fs₁, -, h1, h2, -⟩
    · rw [h] at h1
      cases h1
      exact ⟨e, t, hf⟩
    · rw [h] at h1
      cases h1
      exact ⟨e, t, h2⟩

/-- **A folder is the finite map that the calls describe.** -/
theorem folder_is_map (h : FolderRun dino fs names) : IsMap fs dino names := by
  obtain ⟨e, t, hf⟩ := h.folder
  exact hf.isMap

/-! ## A folder on a small volume -/

/-- A volume of 100 blocks whose first 10 are in use, and the first 11 of its 32 inodes. -/
def bareFsys : Fsys where
  vol := ⟨100, fun b => decide (b < 10), fun _ => 90, fun _ => zeros, fun _ => zeros⟩
  ipg := 32
  node := fun _ => zeros
  taken := fun n => decide (n < 12)
  left := fun _ => 21
  dirs := fun _ => 1
  uninit := fun _ => false
  unused := fun _ => 21

/-- The contents of its root folder. -/
def rootContents : Bool × Blk × Vol :=
  nodeContents bareFsys 2 2 (initInode 0 0o40755 0 0 2) true none

/-- The volume with a root folder. -/
def rootFsys : Fsys := { bareFsys with vol := rootContents.2.2 }.iwrite 2 rootContents.2.1

theorem rootFsys_folder : ∃ e t, FolderOf rootFsys 2 e t (newNames 2 2) := by
  have hc : nodeContents bareFsys 2 2 (initInode 0 0o40755 0 0 2) true none =
      (true, rootContents.2.1, rootContents.2.2) := Prod.ext (by decide +kernel) rfl
  have hinit := @initInode_folder 0 0 0 0o40755 2 (by decide) (by decide)
  obtain ⟨e, t, hf, -⟩ := nodeContents_folder ⟨by decide, by decide, by decide⟩
    (by decide) (by decide) (by decide) (by decide) hinit.1 hinit.2 hc
  exact ⟨e, t, hf⟩

/-- Folder `a` in the root folder. -/
def madeFsys : ℕ × Fsys := mkdir rootFsys 2 [97] 0o755 0 0 0

theorem madeFsys_run : FolderRun madeFsys.1 madeFsys.2 (newNames madeFsys.1 2) := by
  obtain ⟨e, t, hf⟩ := rootFsys_folder
  have hmade : mkdir rootFsys 2 [97] 0o755 0 0 0 = (madeFsys.1, madeFsys.2) :=
    (Prod.mk.eta (p := madeFsys)).symm
  exact .made hf ⟨by decide, by decide⟩ (by decide) hmade (by decide +kernel)

/-- A file `b` in it. -/
theorem folder_is_map_one :
    IsMap (dirAdd madeFsys.2 madeFsys.1 [98] 13 ftReg 0).2 madeFsys.1
      (update (newNames madeFsys.1 2) [98] (some (13, ftReg))) :=
  folder_is_map (.add madeFsys_run (by decide +kernel) (by decide) (by decide) (by decide) (by decide)
    (by decide) (Prod.ext (show _ = true by decide +kernel) rfl) nofun)

/-- `ext4_readdir` leaves out `.` and `..`, which every folder has. -/
theorem readdir_without_dots :
    ¬ ∀ dino fs names, FolderRun dino fs names → ∃ l, readdir collect fs dino [] = some l ∧
      (l.map Prod.fst).Nodup ∧ ∀ name x, (name, x) ∈ l ↔ names name = some x := by
  intro hall
  obtain ⟨l, hl, -, hmem⟩ := hall _ _ _ madeFsys_run
  obtain ⟨e, t, hf⟩ := madeFsys_run.folder
  obtain ⟨l', hl', -, hmem'⟩ := hf.readdir
  rw [hl] at hl'
  cases hl'
  have hdot : newNames madeFsys.1 2 dot = some (madeFsys.1, ftDir) := by
    unfold newNames
    rw [update_of_ne (by decide), update_self]
  exact ((hmem' _ _).mp ((hmem _ _).mpr hdot)).2.1 rfl

end BananaOS.Ext4
