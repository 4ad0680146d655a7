import BananaOS.Ext4.ExtentMap
import BananaOS.Ext4.RoundTrip

/-!
# Inodes

The inodes of `kernel/ext4.c` over a mounted volume: their fields, their bitmap, and the map of a
file's blocks that is loaded from one and stored in it.  Like the bitmaps, the inode tables are kept
apart from the blocks of the volume: `node n` is inode `n`.

From here on a call has all the memory it asks for and the disk answers it, so that nothing fails but
for want of a free block or a free inode: `loadMap` and `storeMap` are `emapLoad` and `emapStore` with
every request granted.

`Filed v r e t` says that `r` is the inode of a file with extents `e`, in a tree of the blocks `t`, and
that the volume has these in use, and the file's own blocks each once.
-/

namespace BananaOS.Ext4

open Lib Function

/-- The mounted filesystem: the volume, `g_ipg`, the inodes, the bit of each in its bitmap; and of the
group descriptors `bg_free_inodes_count`, `bg_used_dirs_count`, the flag `BG_INODE_UNINIT` and
`bg_itable_unused`. -/
structure Fsys where
  vol : Vol
  ipg : ℕ
  node : ℕ → Blk
  taken : ℕ → Bool
  left : ℕ → ℕ
  dirs : ℕ → ℕ
  uninit : ℕ → Bool
  unused : ℕ → ℕ

namespace Fsys

/-- `iread`; `none` is `-1`. -/
def iread (fs : Fsys) (ino : ℕ) : Option Blk :=
  if ino = 0 ∨ ino > u32 (fs.vol.groups * fs.ipg) then none else some (fs.node ino)

/-- `iwrite` -/
def iwrite (fs : Fsys) (ino : ℕ) (r : Blk) : Fsys := { fs with node := update fs.node ino r }

/-- The first inode of group `g` from `i` on that is not taken. -/
def iscan (fs : Fsys) (g : ℕ) : ℕ → ℕ → Option ℕ
  | 0, _ => none
  | n + 1, i => if fs.taken (g * fs.ipg + i + 1) then iscan fs g n (i + 1) else some i

/-- The inode bitmap of a group as `ialloc` has it: one that was not used before starts empty. -/
def openGroup (fs : Fsys) (g : ℕ) : Fsys :=
  if fs.uninit g then
    { fs with
      uninit := update fs.uninit g false
      taken := fun n => if g * fs.ipg < n ∧ n ≤ g * fs.ipg + fs.ipg then false else fs.taken n }
  else fs

/-- Inode `i` of group `g` taken. -/
def itake (fs : Fsys) (g i : ℕ) (isDir : Bool) : Fsys :=
  { fs with
    taken := update fs.taken (g * fs.ipg + i + 1) true
    left := update fs.left g ((fs.left g + 2 ^ 16 - 1) % 2 ^ 16)
    dirs := if isDir then update fs.dirs g ((fs.dirs g + 1) % 2 ^ 16) else fs.dirs
    unused :=
      if fs.ipg - fs.unused g ≤ i then update fs.unused g ((fs.ipg - (i + 1)) % 2 ^ 16) else fs.unused }

/-- The loop of `ialloc` over the groups. -/
def iallocLoop (near : ℕ) (isDir : Bool) (fs : Fsys) : ℕ → ℕ → ℕ × Fsys
  | 0, _ => (0, fs)
  | n + 1, k =>
    let g := (near + k) % fs.vol.groups
    if fs.left g = 0 then iallocLoop near isDir fs n (k + 1)
    else
      let fs := fs.openGroup g
      match fs.iscan g fs.ipg 0 with
      | some i => (g * fs.ipg + i + 1, fs.itake g i isDir)
      | none => iallocLoop near isDir fs n (k + 1)

/-- `ialloc`: an inode, near inode `near`; `0`: there is none. -/
def ialloc (fs : Fsys) (near : ℕ) (isDir : Bool) : ℕ × Fsys :=
  iallocLoop (if near ≠ 0 then (near - 1) / fs.ipg else 0) isDir fs fs.vol.groups 0

/-- `ifree` -/
def ifree (fs : Fsys) (ino : ℕ) (isDir : Bool) : Fsys :=
  let g := (ino - 1) / fs.ipg
  { fs with
    taken := update fs.taken ino false
    left := update fs.left g ((fs.left g + 1) % 2 ^ 16)
    dirs := if isDir then update fs.dirs g ((fs.dirs g + 2 ^ 16 - 1) % 2 ^ 16) else fs.dirs }

end Fsys

/-! ## The fields of an inode -/

/-- `EXT4_S_IFMT` -/
def sIfmt : ℕ := 0o170000

/-- `EXT4_S_IFDIR` -/
def sIfdir : ℕ := 0o040000

/-- `EXT4_S_IFLNK` -/
def sIflnk : ℕ := 0o120000

/-- `i_mode` -/
def iMode (r : Blk) : ℕ := g16 r 0

/-- `i_size` -/
def iSize (r : Blk) : ℕ := g32 r 0x04 + g32 r 0x6C * 2 ^ 32

/-- `set_size` -/
def setSize (r : Blk) (s : ℕ) : Blk := p32 (p32 r 0x04 s) 0x6C (s / 2 ^ 32)

/-- `i_links` -/
def iLinks (r : Blk) : ℕ := g16 r 0x1A

/-- `is_dir_i` -/
def isDirI (r : Blk) : Bool := decide (iMode r &&& sIfmt = sIfdir)

/-- `fast_link` -/
def fastLink (r : Blk) : Bool :=
  decide (iMode r &&& sIfmt = sIflnk ∧ g32 r 0x20 &&& extentsFl = 0)

/-- `set_times`, at the time `now` -/
def setTimes (r : Blk) (now : ℕ) (a m c : Bool) : Blk :=
  let r := if a then p32 r 0x08 now else r
  let r := if c then p32 r 0x0C now else r
  if m then p32 r 0x10 now else r

/-- `init_inode`, at the time `now` -/
def initInode (now mode uid gid links : ℕ) : Blk :=
  let r := p16 (p16 (p16 (p16 (p16 zeros 0x00 mode) 0x02 uid) 0x78 (uid / 2 ^ 16)) 0x18 gid) 0x7A
    (gid / 2 ^ 16)
  let r := p32 (p32 (p32 (p32 r 0x08 now) 0x0C now) 0x10 now) 0x90 now
  let r := p32 (p16 (p16 r 0x1A links) 0x80 32) 0x64 (now ^^^ 0x5A5A5A5A)
  if mode &&& sIfmt ≠ sIflnk then
    p16 (p16 (p16 (p16 (p32 r 0x20 extentsFl) 0x28 ehMagic) 0x2A 0) 0x2C 4) 0x2E 0
  else r

/-! ## Loading and storing, with every request granted -/

/-- All that `emap_load` asks for is given. -/
def LoadEnv.all : LoadEnv := ⟨fun _ => true, fun _ => true, fun _ => true⟩

/-- All that `emap_store` asks for is given. -/
def StoreEnv.all : StoreEnv :=
  ⟨fun _ _ => true, fun _ => 0, fun _ => true, true, fun _ => true, fun _ _ => true, fun _ _ => true⟩

/-- `emap_load` -/
def loadMap (v : Vol) (r : Blk) : Option EMap := emapLoad LoadEnv.all v r

/-- `emap_store` -/
def storeMap (r : Blk) (m : EMap) (v : Vol) : Bool × Blk × EMap × Vol := emapStore StoreEnv.all r m v

/-- `emap_push`; it has the memory. -/
def pushMap (m : EMap) (lblk pblk len : ℕ) (unw : Bool) : EMap :=
  (emapPush (fun _ => true) m lblk pblk len unw).getD m

/-- `emap_add`; it has the memory. -/
def addMap (m : EMap) (lblk pblk len : ℕ) (unw : Bool) : EMap :=
  (emapAdd (fun _ => true) m lblk pblk len unw).getD m

/-- `emap_cut` without freeing blocks; it has the memory. -/
def cutMap (m : EMap) (lblk len : ℕ) (v : Vol) : EMap :=
  (emapCut (fun _ => true) (fun _ _ => true) m lblk len false v).1.getD m

/-- `balloc` -/
def Vol.give (v : Vol) (goal want : ℕ) : (ℕ × ℕ) × Vol := v.balloc (fun _ => true) 0 goal want

/-- `bfree` -/
def Vol.release (v : Vol) (blk n : ℕ) : Vol := v.bfree (fun _ => true) blk n

/-! ## Fields after writes -/

variable {v w : Vol} {r r' : Blk} {e : List Ext} {t : List ℕ} {m m' : EMap} {i b s now : ℕ}
  {fs : Fsys} {rc : Bool}

theorem setSize_apart (h : (i < 0x04 ∨ 0x08 ≤ i) ∧ (i < 0x6C ∨ 0x70 ≤ i)) : setSize r s i = r i := by
  unfold setSize p32
  rw [putLE_of_notMem (by omega), putLE_of_notMem (by omega)]

theorem iSize_setSize (h : s < 2 ^ 64) : iSize (setSize r s) = s := by
  have hhi : s / 2 ^ 32 < 2 ^ 32 := by omega
  unfold iSize setSize
  rw [g32_p32_ne (by omega), g32_p32, g32_p32, u32, u32, Nat.mod_eq_of_lt hhi]
  omega

theorem setTimes_apart {a m c : Bool} (h : i < 0x08 ∨ 0x14 ≤ i) : setTimes r now a m c i = r i := by
  have hp : ∀ (r : Blk) o, 0x08 ≤ o → o + 4 ≤ 0x14 → p32 r o now i = r i := fun r o h1 h2 =>
    putLE_of_notMem (by omega)
  unfold setTimes
  cases a <;> cases m <;> cases c <;>
    simp only [Bool.false_eq_true, if_false, if_true, hp, Nat.reduceLeDiff, Nat.reduceAdd]

theorem iSize_congr (h : ∀ i, 0x04 ≤ i → i < 0x70 → (i < 0x08 ∨ 0x6C ≤ i) → r' i = r i) :
    iSize r' = iSize r := by
  unfold iSize
  rw [g32_congr fun i h1 h2 => h i (by omega) (by omega) (by omega),
    g32_congr fun i h1 h2 => h i (by omega) (by omega) (by omega)]

theorem isDirI_congr (h : ∀ i < 2, r' i = r i) : isDirI r' = isDirI r := by
  unfold isDirI iMode
  rw [g16_congr fun i _ h2 => h i (by omega)]

/-! ## A file on the volume -/

/-- A mounted volume: block 0 is in use. -/
structure Vol.Ok (v : Vol) : Prop where
  pos : 0 < v.nblocks
  small : v.nblocks < 2 ^ 32
  zero : v.used 0 = true

/-- A block of a file with these extents and this tree. -/
def Owns (e : List Ext) (t : List ℕ) (b : ℕ) : Prop := b ∈ t ∨ ∃ l u, emapAt e l = some (b, u)

/-- A list of extents as `emap_push` leaves it, on a volume of `n` blocks. -/
structure Neat (n : ℕ) (e : List Ext) : Prop where
  tight : Tight e
  fits : ∀ x ∈ e, x.Fits n

/-- The blocks of a file's extents: in use, none of them twice, none of the tree. -/
structure Mapped (v : Vol) (e : List Ext) (t : List ℕ) : Prop where
  neat : Neat v.nblocks e
  sorted : Sorted e
  used : ∀ l b u, emapAt e l = some (b, u) → b ≠ 0 ∧ v.used b = true ∧ b ∉ t
  inj : ∀ l l' b u u', emapAt e l = some (b, u) → emapAt e l' = some (b, u') → l = l'

/-- The inode of a file with the extents `e`, in a tree of the blocks `t`. -/
structure Filed (v : Vol) (r : Blk) (e : List Ext) (t : List ℕ) : Prop extends Mapped v e t where
  flag : g32 r 0x20 &&& extentsFl ≠ 0
  holds : ∃ d, Holds v d r rootAt 4 e t
  tree : ∀ b ∈ t, b ≠ 0 ∧ b < v.nblocks ∧ v.used b = true

theorem loadEnv_all : LoadEnv.all.Granted := ⟨fun _ => rfl, fun _ => rfl, fun _ => rfl⟩

theorem Filed.load (h : Filed v r e t) (hv : v.Ok) :
    ∃ m, loadMap v r = some m ∧ m.e = e ∧ m.tree = t := by
  obtain ⟨d, hd⟩ := h.holds
  have hl := @emapLoad_loads _ LoadEnv.all _ _ _ _ h.flag hv.small hd h.neat.fits h.neat.tight
  obtain ⟨m, hm⟩ := Option.isSome_iff_exists.mp (hl.granted loadEnv_all)
  obtain ⟨h1, h2⟩ := hl.some m hm
  exact ⟨m, hm, h1, h2⟩

theorem Filed.owns_lt (h : Filed v r e t) (hb : Owns e t b) : b < v.nblocks := by
  rcases hb with hb | ⟨l, u, hb⟩
  · exact (h.tree b hb).2.1
  · obtain ⟨x, hx, hhas, hp⟩ := exists_of_emapAt hb
    have := (h.neat.fits x hx).pend
    have hl := Ext.has_iff.mp hhas
    cases hp
    omega

theorem Filed.owns_used (h : Filed v r e t) (hb : Owns e t b) : v.used b = true := by
  rcases hb with hb | ⟨l, u, hb⟩
  · exact (h.tree b hb).2.2
  · exact (h.used l b u hb).2.1

theorem Mapped.congr (h : Mapped v e t) (hn : w.nblocks = v.nblocks)
    (hu : ∀ b, Owns e t b → v.used b = true → w.used b = true) : Mapped w e t := by
  refine { h with neat := hn ▸ h.neat, used := fun l b u hb => ?_ }
  obtain ⟨h1, h2, h3⟩ := h.used l b u hb
  exact ⟨h1, hu b (.inr ⟨l, u, hb⟩) h2, h3⟩

/-- A file is still there where its blocks are still in use, those of its tree are as they were, and
its inode has the same root. -/
theorem Filed.congr (h : Filed v r e t) (hn : w.nblocks = v.nblocks)
    (hu : ∀ b, Owns e t b → v.used b = true → w.used b = true) (hd : ∀ b ∈ t, w.data b = v.data b)
    (hr : ∀ i, 0x20 ≤ i → i < rootAt + 60 → r' i = r i) : Filed w r' e t := by
  obtain ⟨d, hh⟩ := h.holds
  refine ⟨h.toMapped.congr hn hu, ?_, ⟨d, hh.congr hn (fun i h1 h2 => ?_) hd⟩, fun b hb => ?_⟩
  · rw [g32_congr fun i h1 h2 => hr i h1 (by unfold rootAt; omega)]
    exact h.flag
  · exact (hr i (by unfold rootAt at h1; omega) (by omega)).symm
  · obtain ⟨h1, h2, h3⟩ := h.tree b hb
    exact ⟨h1, hn ▸ h2, hu b (.inl hb) h3⟩

end BananaOS.Ext4
