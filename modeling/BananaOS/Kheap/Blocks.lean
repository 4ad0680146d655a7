import BananaOS.Kheap.Bins

/-!
# The kernel's heap

`kheap.c` of the 64-bit kernel: blocks, each with a header of 32 bytes before its payload, one after the
other in a list; the free ones also in the bins.  A pointer to a block is its place in the list: the
blocks before it, itself, the blocks after it, so that `prev` and `next` are the neighbours there.  Each
function is one section under the lock.

Sizes have 32 bits and are computed so.  Of the memory we keep the bytes that programs wrote: `none` is
what the heap itself put there, headers of new blocks and links of the bins.
-/

namespace BananaOS.Kheap

/-- `HDR`, with pointers of 8 bytes -/
def hdr : ℕ := 32

/-- `MIN_SPLIT` -/
def minSplit : ℕ := 64

/-- The largest size that `kmalloc` lets through. -/
def maxAlloc : ℕ := 0xF0000000

/-- `HEAP_MAX_ADDR` -/
def heapMax : ℕ := 0xE0000000

/-- A difference of 32 bits. -/
def sub32 (a b : ℕ) : ℕ := u32 (a + 2 ^ 32 - u32 b)

/-- Addresses have 64 bits. -/
def u64 (n : ℕ) : ℕ := n % 2 ^ 64

/-- A difference of addresses. -/
def sub64 (a b : ℕ) : ℕ := u64 (a + 2 ^ 64 - u64 b)

/-- `align_up` to `ALIGN` -/
def alignUp (v : ℕ) : ℕ := u32 (v + 15) / 16 * 16

/-- `v & ~m` -/
def clear (v m : ℕ) : ℕ := v - (v &&& m)

/-- `block_t` -/
structure Block where
  addr : ℕ
  size : ℕ
  used : Bool
  deriving DecidableEq

namespace Block

/-- Where the payload begins. -/
def payload (b : Block) : ℕ := b.addr + hdr

/-- The end of the payload. -/
def stop (b : Block) : ℕ := b.addr + hdr + b.size

end Block

/-- The heap. -/
structure Heap where
  blocks : List Block
  bins : Bins
  mem : ℕ → Option UInt8
  total : ℕ
  usedBytes : ℕ

/-- The block that begins at the address, with those before and after it. -/
def locate (a : ℕ) : List Block → Option (List Block × Block × List Block)
  | [] => none
  | b :: rest =>
    if b.addr = a then some ([], b, rest)
    else (locate a rest).map fun p => (b :: p.1, p.2.1, p.2.2)

/-- The elements next to `a` in a list. -/
def neighbours (a : ℕ) : List ℕ → List ℕ
  | p :: q :: rest =>
    if p = a then [q] else if q = a then p :: rest.head?.toList else neighbours a (q :: rest)
  | _ => []

namespace Heap

variable (h : Heap)

/-! ## The bins -/

/-- The heap writes to `n` bytes from `a` on. -/
def clobber (a n : ℕ) : Heap := { h with mem := fun x => if a ≤ x ∧ x < a + n then none else h.mem x }

/-- The heap writes to the links of these blocks. -/
def relink (as : List ℕ) : Heap :=
  { h with mem := fun x => if ∃ a ∈ as, a + hdr ≤ x ∧ x < a + hdr + 16 then none else h.mem x }

/-- `bin_insert` -/
def binInsert (b : Block) : Heap :=
  { h with bins := h.bins.insert b.size b.addr }.relink
    (b.addr :: (h.bins.bin (binOf b.size).1 (binOf b.size).2).head?.toList)

/-- `bin_remove` -/
def binRemove (b : Block) : Heap :=
  { h with bins := h.bins.remove b.size b.addr }.relink
    (neighbours b.addr (h.bins.bin (binOf b.size).1 (binOf b.size).2))

/-- `bin_take`: the block, in no bin any more. -/
def binTake (need : ℕ) : Option (Heap × List Block × Block × List Block) :=
  match h.bins.find need with
  | none => none
  | some (fl, sl) =>
    match (h.bins.bin fl sl).head?.bind (locate · h.blocks) with
    | none => none
    | some (pre, b, post) => some (h.binRemove b, pre, b, post)

/-! ## Splitting and merging

These take a block and the blocks after it and give back what has become of them; the blocks before it
stay as they are.  The caller puts the list together. -/

/-- `merge_next` -/
def mergeNext (b : Block) : List Block → Heap × Block × List Block
  | n :: rest =>
    if n.used then (h, b, n :: rest)
    else (h.binRemove n, { b with size := u32 (b.size + (hdr + n.size)) }, rest)
  | [] => (h, b, [])

/-- `split` -/
def split (b : Block) (post : List Block) (size : ℕ) : Heap × Block × List Block :=
  if b.size < u32 (size + hdr + minSplit) then (h, b, post)
  else
    let n : Block := ⟨b.addr + hdr + size, sub32 (sub32 b.size size) hdr, false⟩
    let m := (h.clobber n.addr hdr).mergeNext n post
    (m.1.binInsert m.2.1, { b with size := size }, m.2.1 :: m.2.2)

/-- A block is handed out: `split`, `HEAP_MAGIC`, and what the callers do after it. -/
def handOut (pre : List Block) (b : Block) (post : List Block) (need : ℕ) : Heap × Option ℕ :=
  let r := h.split b post need
  ({ r.1 with
      blocks := pre ++ { r.2.1 with used := true } :: r.2.2
      usedBytes := u32 (r.1.usedBytes + r.2.1.size) },
    some r.2.1.payload)

/-! ## Allocation -/

/-- `find_fit` -/
def findFit (need : ℕ) : Heap × Option ℕ :=
  match h.binTake need with
  | none => (h, none)
  | some (h1, pre, b, post) => h1.handOut pre b post need

/-- `kmalloc` without `g_reclaim` -/
def kmalloc (size : ℕ) : Heap × Option ℕ :=
  if h.blocks = [] ∨ size = 0 ∨ maxAlloc < size then (h, none) else h.findFit (alignUp (u32 size))

/-- `kmalloc`.  `reclaim` is what `g_reclaim` does to the heap, if it may be called. -/
def kmallocReclaim (reclaim : Option (Heap → Heap)) (size : ℕ) : Heap × Option ℕ :=
  if h.blocks = [] ∨ size = 0 ∨ maxAlloc < size then (h, none)
  else
    match h.findFit (alignUp (u32 size)), reclaim with
    | (h1, none), some f => (f h1).findFit (alignUp (u32 size))
    | r, _ => r

/-! ## Aligned allocation -/

/-- The loop of `aligned_spot`.  A step is 32 at least, so that few rounds are enough. -/
def spotLoop (s align : ℕ) : ℕ → ℕ → ℕ
  | 0, a => a
  | fuel + 1, a =>
    if a ≠ s ∧ sub64 a s < hdr + minSplit then spotLoop s align fuel (u64 (a + align)) else a

/-- `aligned_spot` -/
def alignedSpot (b : Block) (need align : ℕ) : ℕ :=
  let a := spotLoop b.payload align 4 (clear (sub64 (b.payload + align) 1) (sub32 align 1))
  if u64 (a + need) ≤ b.stop then a else 0

/-- `take_aligned` -/
def takeAligned (pre : List Block) (b : Block) (post : List Block) (a need : ℕ) : Heap × Option ℕ :=
  if a ≠ b.payload then
    let n : Block := ⟨sub64 a hdr, u32 (sub64 b.stop a), false⟩
    let front : Block := { b with size := u32 (sub64 n.addr b.payload) }
    ((h.clobber n.addr hdr).binInsert front).handOut (pre ++ [front]) n post need
  else h.handOut pre b post need

/-- The loop of `find_fit_aligned`: the first free block with a spot, and the spot. -/
def findSpot (need align : ℕ) : List Block → Option (List Block × Block × List Block × ℕ)
  | [] => none
  | b :: rest =>
    if b.used ∨ b.size < need ∨ alignedSpot b need align = 0 then
      (findSpot need align rest).map fun p => (b :: p.1, p.2)
    else some ([], b, rest, alignedSpot b need align)

/-- Every free block is looked at. -/
def scanAligned (need align : ℕ) : Heap × Option ℕ :=
  match findSpot need align h.blocks with
  | none => (h, none)
  | some (pre, b, post, a) => (h.binRemove b).takeAligned pre b post a need

/-- What `find_fit_aligned` asks the bins for. -/
def room (need align : ℕ) : ℕ := need + align + hdr + minSplit

/-- The block that `find_fit_aligned` takes from the bins. -/
def roomy (need align : ℕ) : Option (Heap × List Block × Block × List Block) :=
  if room need align < maxAlloc then h.binTake (room need align) else none

/-- `find_fit_aligned` -/
def findFitAligned (need align : ℕ) : Heap × Option ℕ :=
  match h.roomy need align with
  | some (h1, pre, b, post) =>
    if alignedSpot b need align ≠ 0 then
      h1.takeAligned pre b post (alignedSpot b need align) need
    else (h1.binInsert b).scanAligned need align
  | none => h.scanAligned need align

/-- `kmalloc_aligned` without `g_reclaim` -/
def kmallocAligned (size align : ℕ) : Heap × Option ℕ :=
  if align ≤ 16 then h.kmalloc size
  else if h.blocks = [] ∨ size = 0 ∨ maxAlloc < size ∨ align &&& (align - 1) ≠ 0 then (h, none)
  else h.findFitAligned (alignUp (u32 size)) (u32 align)

/-! ## Freeing -/

/-- `kfree` of a block in use. -/
def release (pre : List Block) (b : Block) (post : List Block) : Heap :=
  let m := { h with usedBytes := sub32 h.usedBytes b.size }.mergeNext { b with used := false } post
  match pre.getLast? with
  | some p =>
    if p.used then { m.1 with blocks := pre ++ m.2.1 :: m.2.2 }.binInsert m.2.1
    else
      let p' : Block := { p with size := u32 (p.size + (hdr + m.2.1.size)) }
      { m.1.binRemove p with blocks := pre.dropLast ++ p' :: m.2.2 }.binInsert p'
  | none => { m.1 with blocks := m.2.1 :: m.2.2 }.binInsert m.2.1

/-- `kfree` -/
def kfree (ptr : ℕ) : Heap :=
  if ptr < hdr then h
  else
    match locate (ptr - hdr) h.blocks with
    | some (pre, b, post) => if b.used then h.release pre b post else h
    | none => h

/-! ## Another size -/

/-- `memcpy` -/
def memcpy (dst src n : ℕ) : Heap :=
  { h with mem := fun x => if dst ≤ x ∧ x < dst + n then h.mem (src + (x - dst)) else h.mem x }

/-- The block after can be swallowed, and is enough. -/
def canGrow (b : Block) (post : List Block) (need : ℕ) : Bool :=
  match post with
  | n :: _ => !n.used && decide (need ≤ u32 (b.size + hdr + n.size))
  | [] => false

/-- The block grows in place. -/
def grow (pre : List Block) (b : Block) (post : List Block) (need : ℕ) : Heap :=
  let m := { h with usedBytes := sub32 h.usedBytes b.size }.mergeNext b post
  let r := m.1.split m.2.1 m.2.2 need
  { r.1 with blocks := pre ++ r.2.1 :: r.2.2, usedBytes := u32 (r.1.usedBytes + r.2.1.size) }

/-- The bytes move to a new block. -/
def move (reclaim : Option (Heap → Heap)) (ptr old size : ℕ) : Heap × Option ℕ :=
  match h.kmallocReclaim reclaim size with
  | (h1, none) => (h1, none)
  | (h1, some np) => ((h1.memcpy np ptr old).kfree ptr, some np)

/-- `krealloc` -/
def krealloc (reclaim : Option (Heap → Heap)) (ptr size : ℕ) : Heap × Option ℕ :=
  if ptr = 0 then h.kmallocReclaim reclaim size
  else if size = 0 then (h.kfree ptr, none)
  else
    match locate (ptr - hdr) h.blocks with
    | none => (h, none)
    | some (pre, b, post) =>
      if ¬ b.used then (h, none)
      else if alignUp (u32 size) ≤ b.size then (h, some ptr)
      else if canGrow b post (alignUp (u32 size)) then
        (h.grow pre b post (alignUp (u32 size)), some ptr)
      else h.move reclaim ptr b.size size

/-! ## Memory -/

/-- `kheap_init`, once the memory is chosen. -/
def init (lo hi : ℕ) (mem : ℕ → Option UInt8) : Heap :=
  let b : Block := ⟨lo, u32 (hi - lo - hdr), false⟩
  ({ blocks := [b], bins := Bins.empty, mem := mem, total := b.size, usedBytes := 0 } : Heap).binInsert b

/-- `kheap_add_region` -/
def addRegion (lo hi : ℕ) : Heap :=
  let lo := u64 (lo + 15) / 16 * 16
  let hi := hi / 16 * 16
  if h.blocks = [] ∨ hi ≤ lo ∨ hi - lo < 3 * hdr + minSplit ∨ maxAlloc < hi - lo then h
  else
    let lead : Block := ⟨lo, 0, true⟩
    let tail : Block := ⟨hi - hdr, 0, true⟩
    let b : Block := ⟨lo + hdr, u32 (tail.addr - (lo + hdr) - hdr), false⟩
    { h with
      blocks := h.blocks ++ [lead, b, tail]
      total := u32 (h.total + b.size) }.binInsert b

end Heap

/-! ## Runs -/

/-- The address is that of a payload that was handed out. -/
def Heap.Live (h : Heap) (p : ℕ) : Prop :=
  ∃ b ∈ h.blocks, b.payload = p ∧ b.used = true ∧ b.size ≠ 0

/-- The heaps there can be.  Memory is below `HEAP_MAX_ADDR`: that of `kheap_init` is chosen so, and what
`kheap_add_region` gets is a part of the kernel's image, which lies lower.  Between the calls programs
write to what they were given. -/
inductive Reach : Heap → Prop
  | init (lo hi : ℕ) (mem : ℕ → Option UInt8) : 16 ∣ lo → 16 ∣ hi → lo + hdr + 16 ≤ hi → hi ≤ heapMax →
      Reach (Heap.init lo hi mem)
  | kmalloc {h : Heap} (size : ℕ) : Reach h → Reach (h.kmalloc size).1
  | kmallocAligned {h : Heap} (size align : ℕ) : Reach h → Reach (h.kmallocAligned size align).1
  | kfree {h : Heap} {p : ℕ} : Reach h → h.Live p → Reach (h.kfree p)
  | krealloc {h : Heap} {p : ℕ} (size : ℕ) : Reach h → h.Live p → size ≠ 0 →
      Reach (h.krealloc none p size).1
  | addRegion {h : Heap} (lo hi : ℕ) : Reach h → lo ≤ hi → hi ≤ heapMax →
      (∀ b ∈ h.blocks, b.stop ≤ lo ∨ hi ≤ b.addr) → Reach (h.addRegion lo hi)
  | write {h : Heap} {b : Block} (mem : ℕ → Option UInt8) : Reach h → b ∈ h.blocks → b.used = true →
      (∀ x, ¬ (b.payload ≤ x ∧ x < b.stop) → mem x = h.mem x) → Reach { h with mem := mem }

end BananaOS.Kheap
