import BananaOS.Ext4.Entries
import BananaOS.Ext4.FileData

/-!
# Folders

The folders of `kernel/ext4.c`: `dir_open`, `dir_find`, `dir_add`, `dir_remove`, `dir_empty` and
`ext4_readdir`, and the making of a node.  Every request for memory and every access to the disk is
granted, so a block of an open folder is to be had when the list of its extents has it.  A name is
the bytes of a C string before its end.
-/

namespace BananaOS.Ext4

open Lib

/-- `EXT4_FT_REG` -/
def ftReg : ℕ := 1

/-- `EXT4_FT_DIR` -/
def ftDir : ℕ := 2

/-- `EXT4_FT_LNK` -/
def ftLnk : ℕ := 7

/-- `dir_t` -/
structure Dir where
  r : Blk
  m : EMap
  nblk : ℕ

/-- `dir_open`; `none` is `-1`. -/
def dirOpen (fs : Fsys) (ino : ℕ) : Option Dir :=
  match fs.iread ino with
  | none => none
  | some r =>
    if isDirI r = false then none
    else (loadMap fs.vol r).map fun m => ⟨r, m, u32 (iSize r / bs)⟩

/-- `dir_block`: where block `k` of the folder is. -/
def dirBlock (d : Dir) (k : ℕ) : Option ℕ :=
  let p := (emapFind d.m.e k).1
  if p = 0 then none else some p

/-- `dir_find` -/
def dirFind (v : Vol) (d : Dir) (name : List UInt8) : Option Found :=
  (List.range d.nblk).findSome? fun k => (dirBlock d k).bind fun p => findIn (v.data p) k name

/-- The block in which `dir_add` finds room, and where. -/
def dirRoom (v : Vol) (d : Dir) (need : ℕ) : Option (ℕ × ℕ) :=
  (List.range d.nblk).findSome? fun k =>
    (dirBlock d k).bind fun p => (roomIn (v.data p) need).map fun off => (p, off)

/-- The end of `dir_add`: one more block. -/
def dirGrow (fs : Fsys) (d : Dir) (dino : ℕ) (name : List UInt8) (ino type now : ℕ) : Bool × Fsys :=
  let blk := putDe zeros 0 ino bs name type
  match doWrite fs.ipg d.r d.m dino (d.nblk * bs) blk bs fs.vol with
  | (false, _, _, _, vol) => (false, { fs with vol := vol })
  | (true, r, _, false, vol) => (true, { fs with vol := vol }.iwrite dino (setTimes r now false true true))
  | (true, r, m, true, vol) =>
    match storeMap r m vol with
    | (false, _, _, vol) => (false, { fs with vol := vol })
    | (true, r, _, vol) =>
      (true, { fs with vol := vol }.iwrite dino (setTimes r now false true true))

/-- `dir_add`, at the time `now`: `0` or `-1`, and the filesystem. -/
def dirAdd (fs : Fsys) (dino : ℕ) (name : List UInt8) (ino type now : ℕ) : Bool × Fsys :=
  let nl := name.length
  if nl = 0 ∨ nl > 255 then (false, fs)
  else
    match dirOpen fs dino with
    | none => (false, fs)
    | some d =>
      match dirRoom fs.vol d (deLen nl) with
      | some (p, off) =>
        let vol := fs.vol.set p (putIn (fs.vol.data p) off ino name type)
        (true, { fs with vol := vol }.iwrite dino (setTimes d.r now false true true))
      | none => dirGrow fs d dino name ino type now

/-- `dir_remove` -/
def dirRemove (fs : Fsys) (dino : ℕ) (name : List UInt8) (now : ℕ) : Bool × Fsys :=
  match dirOpen fs dino with
  | none => (false, fs)
  | some d =>
    match dirFind fs.vol d name with
    | none => (false, fs)
    | some f =>
      match dirBlock d f.bk with
      | none => (false, fs)
      | some p =>
        let vol := fs.vol.set p (takeOut (fs.vol.data p) f.boff f.bprev)
        (true, { fs with vol := vol }.iwrite dino (setTimes d.r now false true true))

/-- `dir_empty` -/
def dirEmpty (fs : Fsys) (dino : ℕ) : Bool :=
  match dirOpen fs dino with
  | none => false
  | some d => (List.range d.nblk).all fun k => ((dirBlock d k).map fun p => emptyIn (fs.vol.data p)).getD true

/-- `ext4_lookup` and `lookup_locked`: inode and type of a name. -/
def lookup (fs : Fsys) (dir : ℕ) (name : List UInt8) : Option (ℕ × ℕ) :=
  match dirOpen fs dir with
  | none => none
  | some d => (dirFind fs.vol d name).map fun f => (f.ino, f.type)

/-- The loop of `ext4_readdir` over the blocks `ks`. -/
def readBlocks {σ : Type} (fn : σ → List UInt8 → ℕ → ℕ → σ × Bool) (v : Vol) (d : Dir) :
    List ℕ → σ → σ × Bool
  | [], a => (a, false)
  | k :: ks, a =>
    match dirBlock d k with
    | none => readBlocks fn v d ks a
    | some p =>
      if (readIn fn (v.data p) a).2 then ((readIn fn (v.data p) a).1, true)
      else readBlocks fn v d ks (readIn fn (v.data p) a).1

/-- `ext4_readdir`; `none` is `-1`. -/
def readdir {σ : Type} (fn : σ → List UInt8 → ℕ → ℕ → σ × Bool) (fs : Fsys) (dir : ℕ) (a : σ) :
    Option σ :=
  (dirOpen fs dir).map fun d => (readBlocks fn fs.vol d (List.range d.nblk) a).1

/-! ## Nodes made and dropped -/

/-- `drop_inode`: the inode's blocks back, then the inode itself. -/
def dropInode (fs : Fsys) (ino : ℕ) (r : Blk) (now : ℕ) : Fsys :=
  let (r', vol) :=
    match loadMap fs.vol r with
    | none => (r, fs.vol)
    | some m =>
      let vol := m.e.foldl (fun v x => v.release x.pblk x.len) fs.vol
      let (_, r', _, vol) := storeMap r { m with e := [] } vol
      (r', vol)
  let r' := p32 (p16 (setSize r' 0) 0x1A 0) 0x14 now
  ({ fs with vol := vol }.iwrite ino r').ifree ino (isDirI r)

/-- `links_add` of `1` or `-1` -/
def linksAdd (fs : Fsys) (ino : ℕ) (up : Bool) (now : ℕ) : Fsys :=
  match fs.iread ino with
  | none => fs
  | some r =>
    let l := iLinks r
    let l := if up then if l < 65000 then l + 1 else l else if l > 1 ∧ l < 65000 then l - 1 else l
    fs.iwrite ino (setTimes (p16 r 0x1A l) now false false true)

/-- The first block of a new folder. -/
def folderBlock (ino dir : ℕ) : Blk := putDe (putDe zeros 0 ino 12 dot ftDir) 12 dir (bs - 12) dotdot ftDir

/-- The contents of a new node in `make_node`: `rc`, the inode and the volume. -/
def nodeContents (fs : Fsys) (ino dir : ℕ) (r : Blk) (isDir : Bool) (link : Option (List UInt8)) :
    Bool × Blk × Vol :=
  if isDir then
    match fs.vol.give (u32 ((ino - 1) / fs.ipg * bpg)) 1 with
    | ((blk, got), vol) =>
      if got = 0 then (false, r, vol)
      else
        let vol := vol.set blk (folderBlock ino dir)
        let (_, r, _, vol) := storeMap r (pushMap EMap.empty 0 blk 1 false) vol
        (true, setSize r bs, vol)
  else
    match link with
    | none => (true, r, fs.vol)
    | some link =>
      let n := link.length
      if n < 60 then (true, setSize (blit r 0x28 (fun i => link.getD i 0) 0 n) n, fs.vol)
      else
        let r := putHdr (p32 r 0x20 extentsFl) 0x28 0 4 0
        match doWrite fs.ipg r EMap.empty ino 0 (fun i => link.getD i 0) n fs.vol with
        | (false, r, _, _, vol) => (false, r, vol)
        | (true, r, m, _, vol) =>
          let (rc, r, _, vol) := storeMap r m vol
          (rc, r, vol)

/-- The end of `make_node`, with the inode `r` made: it gets its name in the folder. -/
def nodeNamed (fs : Fsys) (dir : ℕ) (name : List UInt8) (ino : ℕ) (r : Blk) (type now : ℕ) :
    Bool × Fsys :=
  dirAdd (fs.iwrite ino r) dir name ino type now

/-- `make_node` on a mounted filesystem, at the time `now`: the inode, `0` if there is none. -/
def makeNode (fs : Fsys) (dir : ℕ) (name : List UInt8) (mode uid gid : ℕ)
    (link : Option (List UInt8)) (now : ℕ) : ℕ × Fsys :=
  if name = [] ∨ name.length > 255 then (0, fs)
  else if (lookup fs dir name).isSome then (0, fs)
  else
    let isDir := decide (mode &&& sIfmt = sIfdir)
    let (ino, fs) := fs.ialloc dir isDir
    if ino = 0 then (0, fs)
    else
      let r := initInode now mode uid gid (if isDir then 2 else 1)
      let (rc, r, vol) := nodeContents fs ino dir r isDir link
      let fs := { fs with vol := vol }
      let type := if isDir then ftDir else if link.isSome then ftLnk else ftReg
      let (rc, fs) := if rc then nodeNamed fs dir name ino r type now else (false, fs)
      if rc = false then (0, dropInode fs ino r now)
      else (ino, if isDir then linksAdd fs dir true now else fs)

/-- `ext4_mkdir` -/
def mkdir (fs : Fsys) (dir : ℕ) (name : List UInt8) (mode uid gid now : ℕ) : ℕ × Fsys :=
  makeNode fs dir name (sIfdir ||| (mode &&& 0o7777)) uid gid none now

end BananaOS.Ext4
