import Mathlib.Algebra.Order.Ring.Nat
import Mathlib.Logic.Function.Basic
import Mathlib.Data.List.Basic
import Mathlib.Data.Nat.Notation

/-!
# The memory of the apps

`kernel/umem.c`, on the 64-bit kernel: the blocks of 2 MiB of an app's memory, the runs of pages and
the slabs cut out of them, and the pool that restricted apps share.

The objects that the source allocates for itself (`uchunk_t`, `uslab_t`) are numbered in the order
in which a memory makes them.  A block is named by its frame, and the bytes in it are not modelled.
What the rest of the kernel answers is an input of each call (`Env`): whether there is memory for an
object, where there is room for blocks in a row, whether they can be opened to the app.  Room is only
where no memory has its blocks; where a block comes from and goes back to (`alloc`, `high`) is
otherwise not looked at.
-/

namespace BananaOS.Umem

/-- `BLOCK` -/
def block : ℕ := 0x200000

/-- `PAGE` -/
def page : ℕ := 4096

/-- `PAGES` -/
def pages : ℕ := 512

/-- `FRAMES` -/
def frames : ℕ := 512 * 512

/-- `SMALL` -/
def small : ℕ := 2048

/-- `g_cls` -/
def gCls : List ℕ :=
  [16, 32, 48, 64, 80, 96, 128, 160, 192, 256, 320, 384, 512, 768, 1024, 1536, 2048]

/-- `g_cls[i]` -/
def clsSize (i : ℕ) : ℕ := gCls.getD i 0

/-- `a + b` of `uint32_t`. -/
def add32 (a b : ℕ) : ℕ := (a + b) % 2 ^ 32

/-- `a - b` of `uint32_t`. -/
def sub32 (a b : ℕ) : ℕ := (a + (2 ^ 32 - b % 2 ^ 32)) % 2 ^ 32

/-! ## The data -/

/-- `uslab_t`: `map k` says that the piece `k` is free. -/
structure Slab where
  base : ℕ
  cls : ℕ
  nobj : ℕ
  nfree : ℕ
  pages : ℕ
  map : ℕ → Bool
  listed : Bool

/-- `uchunk_t`: `frame` is `base / BLOCK`. -/
structure Chunk where
  frame : ℕ
  nframes : ℕ
  bigUsed : Bool
  broken : Bool
  pooled : Bool
  pinned : Bool
  pin : ℕ → Bool
  freePages : ℕ
  used : ℕ → Bool
  run : ℕ → ℕ
  slab : ℕ → Option ℕ

/-- `base` -/
def Chunk.base (c : Chunk) : ℕ := c.frame * block

/-- `struct umem`, and the objects it has made. -/
structure Mem where
  chunks : List ℕ
  partials : ℕ → List ℕ
  slabs : List ℕ
  used : ℕ
  limit : ℕ
  reserved : ℕ
  chunk : ℕ → Chunk
  slab : ℕ → Slab
  next : ℕ

/-- `g_pool_limit` and `g_pool_used` -/
structure Pool where
  limit : ℕ
  used : ℕ
  deriving DecidableEq, Repr

/-- What the rest of the kernel answers in a call. -/
structure Env where
  /-- `kheap_total_bytes() - kheap_used_bytes()` -/
  heapFree : ℕ
  /-- there is memory for a `uchunk_t` -/
  chunkMem : Bool
  /-- the first frame of the blocks that `hmem_alloc` or `kmalloc_aligned` found -/
  row : Option ℕ
  /-- there is memory for the tables of `g_dir` -/
  tables : Bool
  /-- `uspace_map` -/
  opened : Bool
  /-- there is memory for a `uslab_t` -/
  slabMem : Bool
  /-- there is memory for the `uchunk_t` of the block `k` of a row that is split -/
  splitMem : ℕ → Bool

/-- One memory, with what all share: `g_dir` and the pool. -/
structure Cfg where
  id : ℕ
  m : Mem
  dir : ℕ → Option (ℕ × ℕ)
  pool : Pool

/-! ## The pool -/

namespace Pool

/-- `pool_take` -/
def take (p : Pool) (bytes heapFree : ℕ) : Pool × Bool :=
  let limit := if p.limit = 0 then min (heapFree / 2) (1024 <<< 20) else p.limit
  if bytes ≤ sub32 limit p.used then (⟨limit, add32 p.used bytes⟩, true) else (⟨limit, p.used⟩, false)

/-- `pool_give` -/
def give (p : Pool) (bytes : ℕ) : Pool := { p with used := sub32 p.used bytes }

/-- The part of `chunk_release` that is about the pool. -/
def release (p : Pool) (c : Chunk) : Pool := if c.pooled then p.give (c.nframes * block) else p

end Pool

/-! ## Blocks -/

/-- A block in a row of `n`, as `new_chunk` makes it. -/
def Chunk.new (frame n : ℕ) (pooled : Bool) : Chunk where
  frame := frame
  nframes := n
  bigUsed := false
  broken := false
  pooled := pooled
  pinned := false
  pin := fun _ => false
  freePages := if n = 1 then pages else 0
  used := fun _ => false
  run := fun _ => 0
  slab := fun _ => none

namespace Cfg

variable (c : Cfg)

/-- `chunk_of` -/
def chunkOf (a : ℕ) : Option ℕ :=
  if frames ≤ a / block then none
  else match c.dir (a / block) with
    | some (id, k) => if id = c.id then some k else none
    | none => none

/-- A `uchunk_t` changed. -/
def setChunk (k : ℕ) (ch : Chunk) : Cfg :=
  { c with m := { c.m with chunk := Function.update c.m.chunk k ch } }

/-- A `uslab_t` changed. -/
def setSlab (k : ℕ) (s : Slab) : Cfg :=
  { c with m := { c.m with slab := Function.update c.m.slab k s } }

/-- `link_chunk`, with the tables there. -/
def linkChunk (k : ℕ) (ch : Chunk) : Cfg :=
  { c with
    m := { c.m with chunk := Function.update c.m.chunk k ch, chunks := k :: c.m.chunks }
    dir := fun f => if ch.frame ≤ f ∧ f < ch.frame + ch.nframes then some (c.id, k) else c.dir f }

/-- Where there is room for `n` blocks in a row: not at address 0, which is `NULL`. -/
def room (n : ℕ) (e : Env) : Option ℕ :=
  e.row.filter fun b => decide (b ≠ 0) && (List.range n).all fun k => (c.dir (b + k)).isNone

/-- `new_chunk` -/
def newChunk (n : ℕ) (e : Env) : Cfg × Option ℕ :=
  let restricted : Bool := c.m.limit ≠ 0
  if n = 0 ∨ (restricted ∧ c.m.limit < c.m.reserved + n * block) then (c, none)
  else
    let r := if restricted then c.pool.take (n * block) e.heapFree else (c.pool, true)
    let c := { c with pool := r.1 }
    if ¬r.2 then (c, none)
    else if ¬e.chunkMem then
      ({ c with pool := if restricted then c.pool.give (n * block) else c.pool }, none)
    else
      let ch := Chunk.new 0 n restricted
      match c.room n e with
      | none => ({ c with pool := c.pool.release ch }, none)
      | some b =>
        if frames < b + n ∨ ¬e.tables then ({ c with pool := c.pool.release ch }, none)
        else
          let k := c.m.next
          let ch := Chunk.new b n restricted
          let ch := if e.opened then ch else { ch with freePages := 0, broken := true }
          let c := { c.linkChunk k ch with
            m := { (c.linkChunk k ch).m with
              next := k + 1, reserved := add32 c.m.reserved (n * block) } }
          (c, if e.opened then some k else none)

/-! ## Runs of pages -/

end Cfg

/-- The loop of `find_run`: `left` pages from `i` on are to be looked at, the last `len` were
free. -/
def findRunFrom (used : ℕ → Bool) (n : ℕ) : (left i len : ℕ) → Option ℕ
  | 0, _, _ => none
  | left + 1, i, len =>
    if used i then findRunFrom used n left (i + 1) 0
    else if len + 1 = n then some (i + 1 - n)
    else findRunFrom used n left (i + 1) (len + 1)

namespace Chunk

variable (ch : Chunk)

/-- `find_run` -/
def findRun (n : ℕ) : Option ℕ := findRunFrom ch.used n pages 0 0

/-- `mark` -/
def mark (i n : ℕ) (used : Bool) : Chunk :=
  { ch with used := fun k => if i ≤ k ∧ k < i + n then used else ch.used k }

/-- `take_run` -/
def takeRun (i n : ℕ) : Chunk :=
  { ch.mark i n true with
    run := Function.update ch.run i n, freePages := sub32 ch.freePages n }

/-- `run_free` -/
def runFree (i : ℕ) : Chunk :=
  { ch.mark i (ch.run i) false with
    run := Function.update ch.run i 0, freePages := add32 ch.freePages (ch.run i) }

/-- The slab on the `n` pages from `i` on goes. -/
def emptied (i n : ℕ) : Chunk :=
  ({ ch with slab := fun j => if i ≤ j ∧ j < i + n then none else ch.slab j } : Chunk).runFree i

end Chunk

namespace Cfg

variable (c : Cfg)

/-- The loop of `pages_alloc` over the blocks. -/
def findPages (n : ℕ) : List ℕ → Option (ℕ × ℕ)
  | [] => none
  | k :: l =>
    if (c.m.chunk k).nframes ≠ 1 ∨ (c.m.chunk k).freePages < n then findPages n l
    else match (c.m.chunk k).findRun n with
      | some i => some (k, i)
      | none => findPages n l

/-- `take_run`, and the address of the run. -/
def takeRun (k i n : ℕ) : Cfg × ℕ :=
  (c.setChunk k ((c.m.chunk k).takeRun i n), (c.m.chunk k).base + i * page)

/-- `pages_alloc` -/
def pagesAlloc (n : ℕ) (e : Env) : Cfg × Option ℕ :=
  match c.findPages n c.m.chunks with
  | some (k, i) => ((c.takeRun k i n).1, some (c.takeRun k i n).2)
  | none =>
    match c.newChunk 1 e with
    | (c, some k) => ((c.takeRun k 0 n).1, some (c.takeRun k 0 n).2)
    | (c, none) => (c, none)

/-- The loop of `split_big`, from the block `k` of the row `big` on, with `left` blocks to go. -/
def splitFrom (big : Chunk) (b : ℕ) (e : Env) : (c : Cfg) → (k left : ℕ) → Cfg
  | c, _, 0 => c
  | c, k, left + 1 =>
    if e.splitMem k then
      let c' := c.linkChunk c.m.next (Chunk.new (big.frame + k) 1 false)
      splitFrom big b e { c' with m := { c'.m with next := c.m.next + 1 } } (k + 1) left
    else c.linkChunk b
      { big with frame := big.frame + k, nframes := big.nframes - k, bigUsed := true }

/-- `split_big` -/
def splitBig (b : ℕ) (e : Env) : Cfg :=
  splitFrom (c.m.chunk b) b e { c with m := { c.m with chunks := c.m.chunks.erase b } } 0
    (c.m.chunk b).nframes

/-! ## Slabs -/

/-- `cls_of`, of a size up to `SMALL` -/
def clsOf (size : ℕ) : ℕ := gCls.findIdx fun s => size ≤ s

/-- `slab_unlist` -/
def slabUnlist (s : ℕ) : Cfg :=
  let sl := c.m.slab s
  if sl.listed then
    let c := { c with m := { c.m with
      partials := Function.update c.m.partials sl.cls ((c.m.partials sl.cls).erase s) } }
    c.setSlab s { sl with listed := false }
  else c

/-- A slab that has room again goes first in its class's list. -/
def slabList (s : ℕ) : Cfg :=
  let sl := c.m.slab s
  let c := { c with m := { c.m with
    partials := Function.update c.m.partials sl.cls (s :: c.m.partials sl.cls) } }
  c.setSlab s { sl with listed := true }

/-- `m->used += n` -/
def addUsed (n : ℕ) : Cfg := { c with m := { c.m with used := add32 c.m.used n } }

/-- `m->used -= n` -/
def subUsed (n : ℕ) : Cfg := { c with m := { c.m with used := sub32 c.m.used n } }

/-- The end of `small_alloc`: the first free piece of the slab. -/
def takePiece (ci s : ℕ) : Cfg × Option ℕ :=
  let sl := c.m.slab s
  match (List.range 256).find? sl.map with
  | none => (c, none)
  | some k =>
    let sl' := { sl with map := Function.update sl.map k false, nfree := sl.nfree - 1 }
    let c := c.setSlab s sl'
    let c := if sl'.nfree = 0 then c.slabUnlist s else c
    (c.addUsed (clsSize ci), some (sl.base + k * clsSize ci))

/-- The page of its block that an address is in. -/
def pageOf (a : ℕ) : ℕ := a % block / page

/-- A new slab of the class `ci`, on the pages at `base`. -/
def makeSlab (ci n base k : ℕ) : Cfg :=
  let s := c.m.next
  let nobj := n * page / clsSize ci
  let sl : Slab := ⟨base, ci, nobj, nobj, n, fun j => decide (j < nobj), true⟩
  let ch := c.m.chunk k
  let pi := pageOf base
  let ch := { ch with slab := fun j => if pi ≤ j ∧ j < pi + n then some s else ch.slab j }
  { c with m := { c.m with
      chunk := Function.update c.m.chunk k ch, slab := Function.update c.m.slab s sl
      slabs := s :: c.m.slabs, partials := Function.update c.m.partials ci [s], next := s + 1 } }

/-- The middle of `small_alloc`: a slab on the pages at `base`, and its first piece. -/
def slabOn (ci n base : ℕ) (e : Env) : Cfg × Option ℕ :=
  match c.chunkOf base with
  | none => (c, none)
  | some k =>
    if ¬e.slabMem then (c.setChunk k ((c.m.chunk k).runFree (pageOf base)), none)
    else (c.makeSlab ci n base k).takePiece ci c.m.next

/-- `small_alloc` -/
def smallAlloc (ci : ℕ) (e : Env) : Cfg × Option ℕ :=
  match c.m.partials ci with
  | s :: _ => c.takePiece ci s
  | [] =>
    let n := if clsSize ci ≤ 256 then 1 else 4
    match c.pagesAlloc n e with
    | (c, none) => (c, none)
    | (c, some base) => c.slabOn ci n base e

/-! ## Allocating and freeing -/

/-- `alloc_l` of more than `SMALL` and no more than a block: `n` pages -/
def runAlloc (n : ℕ) (e : Env) : Cfg × Option ℕ :=
  match c.pagesAlloc n e with
  | (c, some p) => (c.addUsed (n * page), some p)
  | (c, none) => (c, none)

/-- `alloc_l` of more than a block: a row of `n` -/
def rowAlloc (n : ℕ) (e : Env) : Cfg × Option ℕ :=
  match c.newChunk n e with
  | (c, some k) =>
    let ch := c.m.chunk k
    ((c.setChunk k { ch with bigUsed := true }).addUsed (n * block), some ch.base)
  | (c, none) => (c, none)

/-- `alloc_l`, of a size that is not 0 -/
def sizedAlloc (size : ℕ) (e : Env) : Cfg × Option ℕ :=
  if size ≤ small then c.smallAlloc (clsOf size) e
  else if size ≤ block then c.runAlloc ((size + page - 1) / page) e
  else c.rowAlloc ((size + block - 1) / block) e

/-- `alloc_l` -/
def allocL (size : ℕ) (e : Env) : Cfg × Option ℕ :=
  if 2 ^ 30 < size then (c, none) else c.sizedAlloc (if size = 0 then 1 else size) e

/-- The piece of the slab at an address, if it is one in use. -/
def pieceAt (sl : Slab) (a : ℕ) : Option ℕ :=
  let off := a - sl.base
  let k := off / clsSize sl.cls
  if off % clsSize sl.cls ≠ 0 ∨ sl.nobj ≤ k ∨ sl.map k then none else some k

/-- `size_l`, of an address in the block -/
def sizeAt (slab : ℕ → Slab) (ch : Chunk) (a : ℕ) : ℕ :=
  if ch.broken then 0
  else if 1 < ch.nframes then
    if a = ch.base ∧ ch.bigUsed then ch.nframes * block else 0
  else match ch.slab (pageOf a) with
    | some s =>
      match pieceAt (slab s) a with
      | some _ => clsSize (slab s).cls
      | none => 0
    | none => if a % page ≠ 0 ∨ ch.run (pageOf a) = 0 then 0 else ch.run (pageOf a) * page

/-- `size_l` -/
def sizeL (a : ℕ) : ℕ :=
  match c.chunkOf a with
  | none => 0
  | some k => sizeAt c.m.slab (c.m.chunk k) a

/-- A slab with no piece in use goes: its pages back to the block `k`. -/
def dropSlab (k s : ℕ) : Cfg :=
  let c := c.slabUnlist s
  let sl := c.m.slab s
  { c with m := { c.m with
      slabs := c.m.slabs.erase s
      chunk := Function.update c.m.chunk k
        ((c.m.chunk k).emptied (pageOf sl.base) sl.pages) } }

/-- `free_l` of the piece `j` of the slab `s`, in the block `k`. -/
def freePiece (k s j : ℕ) : Cfg :=
  let sl := c.m.slab s
  let sl' := { sl with map := Function.update sl.map j true, nfree := sl.nfree + 1 }
  let c := (c.setSlab s sl').subUsed (clsSize sl.cls)
  let others := (c.m.partials sl.cls).head? ≠ some s ∨ (c.m.partials sl.cls).tail ≠ []
  if sl'.nfree = sl'.nobj ∧ others then c.dropSlab k s
  else if ¬sl'.listed then c.slabList s
  else c

/-- `free_l` -/
def freeL (a : ℕ) (e : Env) : Cfg :=
  match c.chunkOf a with
  | none => c
  | some k =>
    let ch := c.m.chunk k
    if ch.broken then c
    else if 1 < ch.nframes then
      if a ≠ ch.base ∨ ¬ch.bigUsed then c
      else ((c.subUsed (ch.nframes * block)).setChunk k { ch with bigUsed := false }).splitBig k e
    else match ch.slab (pageOf a) with
      | some s =>
        match pieceAt (c.m.slab s) a with
        | none => c
        | some j => c.freePiece k s j
      | none =>
        if a % page ≠ 0 ∨ ch.run (pageOf a) = 0 then c
        else (c.subUsed (ch.run (pageOf a) * page)).setChunk k (ch.runFree (pageOf a))

/-- `realloc_l` -/
def reallocL (a size : ℕ) (e : Env) : Cfg × Option ℕ :=
  if a = 0 then c.allocL size e
  else if size = 0 then (c.freeL a e, none)
  else
    let old := c.sizeL a
    if old = 0 then (c, none)
    else if size ≤ old ∧ (old ≤ small ∨ old / 2 < size) then (c, some a)
    else match c.allocL size e with
      | (c, none) => (c, none)
      | (c, some n) => (c.freeL a e, some n)

/-- `pinned` -/
def pinned (a : ℕ) : Bool :=
  match c.chunkOf a with
  | none => false
  | some k =>
    if 1 < (c.m.chunk k).nframes then (c.m.chunk k).pinned else (c.m.chunk k).pin (pageOf a)

/-- `set_pin` -/
def setPin (a : ℕ) (b : Bool) : Cfg :=
  match c.chunkOf a with
  | none => c
  | some k =>
    let ch := c.m.chunk k
    if 1 < ch.nframes then c.setChunk k { ch with pinned := b }
    else c.setChunk k { ch with pin := Function.update ch.pin (pageOf a) b }

/-! ## What the rest of the kernel calls -/

/-- `umem_alloc` -/
def umemAlloc (size : ℕ) (e : Env) : Cfg × Option ℕ := c.allocL size e

/-- `umem_free` -/
def umemFree (a : ℕ) (e : Env) : Cfg :=
  if a = 0 then c else if c.pinned a then c else c.freeL a e

/-- `umem_realloc` -/
def umemRealloc (a size : ℕ) (e : Env) : Cfg × Option ℕ :=
  if a ≠ 0 ∧ c.pinned a then (c, none) else c.reallocL a size e

/-- `umem_alloc_pages`, for a whole number of pages in all. -/
def umemAllocPages (total : ℕ) (e : Env) : Cfg × Option ℕ :=
  match c.allocL (if total < small + 1 then small + 1 else total) e with
  | (c, some p) => (c.setPin p true, some p)
  | (c, none) => (c, none)

/-- `umem_free_pages`, of the first address with its guard pages. -/
def umemFreePages (a : ℕ) (e : Env) : Cfg := (c.setPin a false).freeL a e

/-- `umem_vm_charge` -/
def umemVmCharge (bytes heapFree : ℕ) : Cfg × Bool :=
  if c.m.limit = 0 then (c, true)
  else if sub32 c.m.limit c.m.reserved < bytes then (c, false)
  else
    let r := c.pool.take bytes heapFree
    if ¬r.2 then ({ c with pool := r.1 }, false)
    else ({ c with
      pool := r.1, m := { c.m with reserved := add32 c.m.reserved bytes } }, true)

/-- `umem_vm_uncharge` -/
def umemVmUncharge (bytes : ℕ) : Cfg :=
  if c.m.limit = 0 ∨ bytes = 0 then c
  else { c with
    pool := c.pool.give bytes, m := { c.m with reserved := sub32 c.m.reserved bytes } }

/-- The loop of `umem_limit` over the blocks. -/
def poolAll (m : Mem) : List ℕ → Mem
  | [] => m
  | k :: l =>
    poolAll { m with chunk := Function.update m.chunk k { m.chunk k with pooled := true } } l

/-- `umem_limit` -/
def umemLimit (bytes heapFree : ℕ) : Cfg × Bool :=
  if c.m.limit ≠ 0 ∨ bytes = 0 ∨ bytes < c.m.reserved then (c, false)
  else
    let r := c.pool.take c.m.reserved heapFree
    if ¬r.2 then ({ c with pool := r.1 }, false)
    else ({ c with pool := r.1, m := poolAll { c.m with limit := bytes } c.m.chunks }, true)

/-- The loop of `umem_destroy` over the blocks. -/
def releaseAll : (c : Cfg) → List ℕ → Cfg
  | c, [] => c
  | c, k :: l =>
    let ch := c.m.chunk k
    releaseAll { c with
      dir := fun f => if ch.frame ≤ f ∧ f < ch.frame + ch.nframes then none else c.dir f
      pool := c.pool.release ch } l

end Cfg

/-- The calls on a memory.  A size is a `size_t`, an address a pointer, a count of bytes a
`uint32_t`. -/
inductive Call where
  | alloc (size : ℕ)
  | free (a : ℕ)
  | realloc (a size : ℕ)
  | allocPages (total : ℕ)
  | freePages (a : ℕ)
  | vmCharge (bytes : ℕ)
  | vmUncharge (bytes : ℕ)
  | limit (bytes : ℕ)
  deriving DecidableEq, Repr

/-- The state after a call. -/
def Cfg.call (c : Cfg) (e : Env) : Call → Cfg
  | .alloc size => (c.umemAlloc size e).1
  | .free a => c.umemFree a e
  | .realloc a size => (c.umemRealloc a size e).1
  | .allocPages total => (c.umemAllocPages total e).1
  | .freePages a => c.umemFreePages a e
  | .vmCharge bytes => (c.umemVmCharge bytes e.heapFree).1
  | .vmUncharge bytes => c.umemVmUncharge bytes
  | .limit bytes => (c.umemLimit bytes e.heapFree).1

/-- `umem_create`: `kzalloc`. -/
def umemCreate : Mem where
  chunks := []
  partials := fun _ => []
  slabs := []
  used := 0
  limit := 0
  reserved := 0
  chunk := fun _ => Chunk.new 0 0 false
  slab := fun _ => ⟨0, 0, 0, 0, 0, fun _ => false, false⟩
  next := 0

/-! ## All memories -/

/-- The memories of all apps, and what they share. -/
structure Sys where
  mem : ℕ → Option Mem
  dir : ℕ → Option (ℕ × ℕ)
  pool : Pool

namespace Sys

/-- The system before the first memory. -/
def boot : Sys := ⟨fun _ => none, fun _ => none, ⟨0, 0⟩⟩

/-- One memory, as its calls see it. -/
def cfg (s : Sys) (id : ℕ) (m : Mem) : Cfg := ⟨id, m, s.dir, s.pool⟩

/-- The system after a call on the memory `c.id`, that left it as `c`. -/
def put (s : Sys) (c : Cfg) : Sys := ⟨Function.update s.mem c.id (some c.m), c.dir, c.pool⟩

/-- `umem_create` -/
def create (s : Sys) (id : ℕ) : Sys := { s with mem := Function.update s.mem id (some umemCreate) }

/-- A call on the memory `id`. -/
def call (s : Sys) (id : ℕ) (e : Env) (f : Call) : Sys :=
  match s.mem id with
  | none => s
  | some m => s.put ((s.cfg id m).call e f)

/-- `umem_destroy` -/
def destroy (s : Sys) (id : ℕ) : Sys :=
  match s.mem id with
  | none => s
  | some m =>
    let c := (s.cfg id m).releaseAll m.chunks
    ⟨Function.update s.mem id none, c.dir, c.pool⟩

end Sys

end BananaOS.Umem
