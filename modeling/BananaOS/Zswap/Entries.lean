import BananaOS.Zswap.Codec
import Mathlib.Logic.Function.Basic

/-!
# Swap entries

The entry table of `kernel/zswap.c`: a page taken out of an app's tables is an entry, which goes
through the states of `ZState` while the page is compressed, written to the swap area and read
back.  Three structures hang on the table.

* The free list, threaded through `frame` (a free entry's `frame` is the next free one).
* The list of the stored entries that have data, oldest first, threaded through `prev` and
  `next`: what `zswap_writeback` takes to the disk.
* The map of the swap area, a bit a sector.  A slot is a first sector plus one, so that 0 is no
  slot.

Each definition named after a function of the source with one section under `g_zlock` is that
section.  `zswap_new`, `zswap_writeback`, `zswap_disk_in` and `zswap_disk_put` give the lock up
on the way; they are cut at these places (`Pc`), and `step` runs one thread from one place to
the next, so that a run of `step` is an interleaving at the granularity of the sections.

The counters are integers; `Zswap.Bookkeeping` shows that they count entries, of which there are
at most `2 ^ 20`.  A `kmalloc`ed buffer belongs to its entry alone, so `data` is its contents.
The disk is the bytes of the swap area; `g_sw_lba` only says where that area lies.
-/

namespace BananaOS.Zswap

open Lib

/-! ## The table -/

/-- `ZS_FREE` .. `ZS_TAKEN` -/
inductive ZState where
  | free
  | pending
  | stored
  | cancelled
  | writing
  | disk
  | reading
  | dead
  | taken
  deriving DecidableEq, Repr

/-- `zent_t` -/
structure Zent where
  data : Option (List UInt8)
  frame : ℕ
  len : ℕ
  state : ZState
  inLru : Bool
  slot : ℕ
  prev : ℕ
  next : ℕ
  deriving DecidableEq, Repr

/-- An entry all of whose bytes are zero. -/
def Zent.zeroed : Zent := ⟨none, 0, 0, .free, false, 0, 0, 0⟩

/-- A table with one entry changed. -/
def setAt (ent : ℕ → Zent) (i : ℕ) (f : Zent → Zent) : ℕ → Zent :=
  Function.update ent i (f (ent i))

/-- The counters of `zswap_stats_t` that the sections change. -/
structure Stats where
  pages : ℤ
  zeroPages : ℤ
  bytes : ℤ
  diskPages : ℤ
  pagesOut : ℤ
  pagesIn : ℤ
  diskOut : ℤ
  diskIn : ℤ
  deriving DecidableEq, Repr

/-- The state under `g_zlock`, and the bytes of the swap area. -/
structure Zs where
  ent : ℕ → Zent
  nblk : ℕ
  freeHead : ℕ
  lruHead : ℕ
  lruTail : ℕ
  nslots : ℕ
  slotMap : ℕ → Bool
  slotsUsed : ℤ
  swHint : ℕ
  st : Stats
  disk : ℕ → UInt8

/-- `EBLK` -/
def eblk : ℕ := 128

/-- `NBLK` -/
def nblkMax : ℕ := 8192

/-- `nsect` -/
def nsect (len : ℕ) : ℕ := if len ≠ 0 then (len + 511) / 512 else 1

namespace Zs

/-- `zswap_ent(idx)` is not `NULL`. -/
def Has (s : Zs) (idx : ℕ) : Prop := idx ≠ 0 ∧ idx / eblk < s.nblk

instance (s : Zs) (idx : ℕ) : Decidable (s.Has idx) :=
  inferInstanceAs (Decidable (idx ≠ 0 ∧ idx / eblk < s.nblk))

/-- Some fields of an entry written over. -/
def modify (s : Zs) (idx : ℕ) (f : Zent → Zent) : Zs := { s with ent := setAt s.ent idx f }

/-! ## The list of what can go to the disk -/

/-- `lru_add` -/
def lruAdd (s : Zs) (idx : ℕ) : Zs :=
  let tail := s.lruTail
  let ent := setAt s.ent idx fun e => { e with prev := tail, next := 0 }
  let ent := if tail ≠ 0 then setAt ent tail fun e => { e with next := idx } else ent
  { s with
    ent := setAt ent idx fun e => { e with inLru := true }
    lruHead := if tail ≠ 0 then s.lruHead else idx
    lruTail := idx }

/-- `lru_del` -/
def lruDel (s : Zs) (idx : ℕ) : Zs :=
  let prev := (s.ent idx).prev
  let next := (s.ent idx).next
  if (s.ent idx).inLru = false then s
  else
    let ent := if prev ≠ 0 then setAt s.ent prev fun e => { e with next := next } else s.ent
    let ent := if next ≠ 0 then setAt ent next fun e => { e with prev := prev } else ent
    { s with
      ent := setAt ent idx fun e => { e with prev := 0, next := 0, inLru := false }
      lruHead := if prev ≠ 0 then s.lruHead else next
      lruTail := if next ≠ 0 then s.lruTail else prev }

/-! ## The map of the swap area -/

/-- `g_slot_map[i >> 3] == 0xFF` -/
def byteFull (map : ℕ → Bool) (i : ℕ) : Bool := (List.range 8).all fun b => map (i / 8 * 8 + b)

/-- The search of `slot_get`: `k` places after the hint, the last `run` sectors clear, from
`start` on. -/
def slotSearch (map : ℕ → Bool) (total hint n : ℕ) (k run start : ℕ) : Option ℕ :=
  if _h : k < u32 (total + n) then
    let i := u32 (hint + k) % total
    let run := if i = 0 then 0 else run
    if i % 8 = 0 ∧ byteFull map i = true then slotSearch map total hint n (k + 8) 0 start
    else if map i = true then slotSearch map total hint n (k + 1) 0 start
    else
      let start := if run = 0 then i else start
      if run + 1 < n then slotSearch map total hint n (k + 1) (run + 1) start
      else some start
  else none
termination_by u32 (total + n) - k

/-- `slot_get`: the slot, 0 when there is none. -/
def slotGet (s : Zs) (n : ℕ) : ℕ × Zs :=
  if s.nslots = 0 ∨ n > s.nslots then (0, s)
  else
    match slotSearch s.slotMap s.nslots s.swHint n 0 0 0 with
    | none => (0, s)
    | some start =>
      (start + 1, { s with
        slotMap := fun j => s.slotMap j || decide (start ≤ j ∧ j < start + n)
        slotsUsed := s.slotsUsed + n
        swHint := start + n })

/-- `slot_put` -/
def slotPut (s : Zs) (slot n : ℕ) : Zs :=
  if slot = 0 ∨ slot - 1 + n > s.nslots then s
  else
    { s with
      slotMap := fun j => s.slotMap j && !decide (slot - 1 ≤ j ∧ j < slot - 1 + n)
      slotsUsed := s.slotsUsed - ((List.range n).filter fun j => s.slotMap (slot - 1 + j)).length }

/-! ## Sections of one call -/

/-- The entries `[b * EBLK, b * EBLK + i)` of a new block onto the free list, the last first. -/
def addEntries (s : Zs) (b : ℕ) : ℕ → Zs
  | 0 => s
  | i + 1 =>
    let idx := b * eblk + i
    addEntries (if idx = 0 then s
      else { s with
        ent := Function.update s.ent idx { Zent.zeroed with frame := s.freeHead }
        freeHead := idx }) b i

/-- `add_block`, the section: the block, if there is room for its number. -/
def addBlock (s : Zs) : Bool × Zs :=
  if s.nblk = nblkMax then (false, s)
  else (true, addEntries { s with nblk := s.nblk + 1 } s.nblk eblk)

/-- `zswap_new`, its section with a free entry. -/
def zswapNew (s : Zs) (frame : ℕ) : ℕ × Zs :=
  let idx := s.freeHead
  let e := s.ent idx
  (idx, { s with
    freeHead := u32 e.frame
    ent := Function.update s.ent idx { Zent.zeroed with state := .pending, frame := frame } })

/-- `put_entry` -/
def putEntry (s : Zs) (idx : ℕ) : Zs :=
  let s := s.lruDel idx
  let s := s.modify idx fun e =>
    { e with state := .free, data := none, len := 0, slot := 0, frame := s.freeHead }
  { s with freeHead := idx }

/-- A stored entry's share of the counters goes. -/
def uncount (s : Zs) (len : ℕ) : Zs :=
  { s with st := { s.st with
      pages := s.st.pages - 1
      zeroPages := if len = 0 then s.st.zeroPages - 1 else s.st.zeroPages
      bytes := s.st.bytes - len } }

/-- The same for an entry that is being written: it is no page of zeros. -/
def uncountWriting (s : Zs) (len : ℕ) : Zs :=
  { s with st := { s.st with pages := s.st.pages - 1, bytes := s.st.bytes - len } }

/-- `g_st.disk_pages--` -/
def uncountDisk (s : Zs) : Zs := { s with st := { s.st with diskPages := s.st.diskPages - 1 } }

/-- `zswap_free` -/
def zswapFree (s : Zs) (idx : ℕ) : Zs :=
  if ¬ s.Has idx ∨ (s.ent idx).state = .free then s
  else
    let e := s.ent idx
    let s := match e.state with
      | .stored => s.uncount e.len
      | .disk => s.uncountDisk.slotPut e.slot (nsect e.len)
      | _ => s
    s.putEntry idx

/-- `zswap_release` -/
def zswapRelease (s : Zs) (idx : ℕ) : Zs :=
  if ¬ s.Has idx then s
  else
    let e := s.ent idx
    match e.state with
    | .writing => (s.uncountWriting e.len).modify idx fun e => { e with state := .dead }
    | .reading => s.uncountDisk.modify idx fun e => { e with state := .dead }
    | .stored => (s.uncount e.len).putEntry idx
    | .disk => (s.uncountDisk.slotPut e.slot (nsect e.len)).putEntry idx
    | _ => s

/-- `data ? len : 0`, in the 16 bits of `zent_t.len` -/
def storedLen (data : Option (List UInt8)) (len : ℕ) : ℕ := if data.isSome then len % 2 ^ 16 else 0

/-- A stored entry's share of the counters. -/
def count (s : Zs) (len : ℕ) : Zs :=
  { s with st := { s.st with
      pages := s.st.pages + 1
      zeroPages := if len = 0 then s.st.zeroPages + 1 else s.st.zeroPages
      bytes := s.st.bytes + len
      pagesOut := s.st.pagesOut + 1 } }

/-- `zswap_store` -/
def zswapStore (s : Zs) (idx : ℕ) (data : Option (List UInt8)) (len : ℕ) : Zs :=
  if ¬ s.Has idx then s
  else
    let s := s.modify idx fun e =>
      { e with data := data, len := storedLen data len, state := .stored, frame := 0 }
    let s := s.count (storedLen data len)
    if storedLen data len ≠ 0 then s.lruAdd idx else s

/-- `zswap_store_disk` -/
def zswapStoreDisk (s : Zs) (idx slot len : ℕ) : Zs :=
  if ¬ s.Has idx then s
  else
    let s := s.modify idx fun e =>
      { e with state := .disk, slot := slot, len := len % 2 ^ 16, data := none, frame := 0 }
    { s with st := { s.st with
      diskPages := s.st.diskPages + 1
      diskOut := s.st.diskOut + 1
      pagesOut := s.st.pagesOut + 1 } }

/-- The buffer of an entry, `NULL` read as no bytes. -/
def bytesOf (e : Zent) : List UInt8 := e.data.getD []

/-- `unpack_into`: the page, if the data is good. -/
def unpackInto (e : Zent) (page : List UInt8) : Option (List UInt8) :=
  if e.len = 0 then some (List.replicate 4096 0)
  else if e.len = 4096 then some ((bytesOf e).take 4096)
  else
    match zswapUnpack ((bytesOf e).take e.len) page with
    | .ok page => some page
    | _ => none

/-- What `zswap_take` returns: 0 with the page, 2 (on the disk) or -1. -/
inductive TakeRc where
  | page (p : List UInt8)
  | onDisk
  | bad
  deriving DecidableEq, Repr

/-- 0 with the page, or -1. -/
def TakeRc.ofUnpack : Option (List UInt8) → TakeRc
  | some p => .page p
  | none => .bad

/-- `zswap_take`, into a frame that holds `page` -/
def zswapTake (s : Zs) (idx : ℕ) (page : List UInt8) : TakeRc × Zs :=
  if ¬ s.Has idx then (.bad, s)
  else
    let e := s.ent idx
    let s' := { s with st := { s.st with pagesIn := s.st.pagesIn + 1 } }
    match e.state with
    | .stored => (.ofUnpack (unpackInto e page), (s'.uncount e.len).putEntry idx)
    | .writing =>
      (.ofUnpack (unpackInto e page),
        (s'.uncountWriting e.len).modify idx fun e => { e with state := .taken })
    | .disk => (.onDisk, s)
    | .reading => (.onDisk, s)
    | _ => (.bad, s)

/-- `z->state = ZS_CANCELLED`, as a fault or an unmap does to a pending entry. -/
def cancel (s : Zs) (idx : ℕ) : Zs := s.modify idx fun e => { e with state := .cancelled }

/-- `zswap_disk_init`, with a swap area of `n` sectors -/
def zswapDiskInit (s : Zs) (n : ℕ) : Zs :=
  if s.nslots ≠ 0 then s else { s with slotMap := fun _ => false, nslots := n }

/-! ## Transfers -/

/-- `len` bytes and zeros up to the end of their last sector. -/
def padded (data : List UInt8) (len : ℕ) : List UInt8 :=
  data.take len ++ List.replicate ((512 - len % 512) % 512) 0

/-- `fsdisk_swap_io(1, g_sw_lba + (slot - 1), ns, buf)` -/
def diskWrite (s : Zs) (slot ns : ℕ) (buf : List UInt8) : Zs :=
  { s with disk := fun a =>
      if (slot - 1) * 512 ≤ a ∧ a < (slot - 1 + ns) * 512 then buf.getD (a - (slot - 1) * 512) 0
      else s.disk a }

/-- `fsdisk_swap_io(0, g_sw_lba + (slot - 1), ns, data)` -/
def diskRead (s : Zs) (slot ns : ℕ) : List UInt8 :=
  (List.range (ns * 512)).map fun j => s.disk ((slot - 1) * 512 + j)

/-- `(len + 511) / 512` -/
def sectors (len : ℕ) : ℕ := (len + 511) / 512

/-! ## Sections of `zswap_writeback` and `zswap_disk_in` -/

/-- `zswap_writeback`, the first section: the oldest entry and a slot for it. -/
def writebackTake (s : Zs) : Option (ℕ × ℕ × ℕ × List UInt8) × Zs :=
  let idx := s.lruHead
  let r := if idx ≠ 0 then s.slotGet (nsect (s.ent idx).len) else (0, s)
  if idx = 0 ∨ r.1 = 0 then (none, r.2)
  else
    let s := (r.2.lruDel idx).modify idx fun e => { e with state := .writing, slot := r.1 }
    let e := s.ent idx
    (some (idx, r.1, e.len, padded (bytesOf e) e.len), s)

/-- The counters, for a page that went to the disk. -/
def countOut (s : Zs) (len : ℕ) : Zs :=
  { s with st := { s.st with
      pages := s.st.pages - 1
      bytes := s.st.bytes - len
      diskPages := s.st.diskPages + 1
      diskOut := s.st.diskOut + 1 } }

/-- The counters, for a page that came back from the disk. -/
def countIn (s : Zs) (len : ℕ) : Zs :=
  { s with st := { s.st with
      diskPages := s.st.diskPages - 1
      pages := s.st.pages + 1
      bytes := s.st.bytes + len
      diskIn := s.st.diskIn + 1 } }

/-- `zswap_writeback`, the second section; `true`: the page went to the disk. -/
def writebackDone (s : Zs) (idx slot len : ℕ) (ok : Bool) : Bool × Zs :=
  if (s.ent idx).state = .writing ∧ ok = true then
    (true, (s.modify idx fun e => { e with data := none, state := .disk }).countOut len)
  else if (s.ent idx).state = .writing then
    let s := s.slotPut slot (nsect len)
    let s := s.modify idx fun e => { e with slot := 0, state := .stored }
    (false, s.lruAdd idx)
  else (false, (s.slotPut slot (nsect len)).putEntry idx)

/-- `zswap_disk_in`, the first section, on an entry in the swap area. -/
def diskInTake (s : Zs) (idx : ℕ) : Zs := s.modify idx fun e => { e with state := .reading }

/-- `zswap_disk_in`, the section after `kmalloc` failed. -/
def diskInNoMem (s : Zs) (idx slot len : ℕ) : Zs :=
  if (s.ent idx).state = .reading then s.modify idx fun e => { e with state := .disk }
  else (s.slotPut slot (nsect len)).putEntry idx

/-- `zswap_disk_in`, the last section; `none`: the disk failed. -/
def diskInDone (s : Zs) (idx slot len : ℕ) (data : Option (List UInt8)) : Zs :=
  if (s.ent idx).state = .reading then
    if data.isSome then
      let s := s.modify idx fun e => { e with data := data, state := .stored }
      let s := s.slotPut slot (nsect len)
      let s := s.modify idx fun e => { e with slot := 0 }
      (s.countIn len).lruAdd idx
    else s.modify idx fun e => { e with state := .disk }
  else (s.slotPut slot (nsect len)).putEntry idx

end Zs

/-! ## Threads -/

/-- Where a thread is, between two sections. -/
inductive Pc where
  | idle
  /-- `zswap_new`, at the head of its loop; the free list empty, on to `add_block` -/
  | newTop (frame : ℕ)
  | newGrow (frame : ℕ)
  /-- `zswap_writeback`, holding `g_wb_busy`: at the head of its loop; about to write; written -/
  | wbTop (done max : ℕ)
  | wbIo (done max idx slot len : ℕ) (buf : List UInt8)
  | wbEnd (done max idx slot len : ℕ) (ok : Bool)
  /-- `zswap_disk_in`: at the head of its loop; the entry taken; about to read; read -/
  | diTop (idx : ℕ)
  | diAlloc (idx slot len : ℕ)
  | diIo (idx slot len : ℕ)
  | diEnd (idx slot len : ℕ) (data : Option (List UInt8))
  /-- `zswap_disk_put`: about to write; written; its slot in `page_out`'s hands -/
  | putIo (slot len : ℕ) (buf : List UInt8)
  | putEnd (slot len : ℕ) (ok : Bool)
  | putDone (slot len : ℕ)
  deriving DecidableEq, Repr

/-- What a thread may call. -/
inductive Call where
  | zswapNew (frame : ℕ)
  | zswapFree (idx : ℕ)
  | zswapRelease (idx : ℕ)
  | zswapStore (idx : ℕ) (data : Option (List UInt8)) (len : ℕ)
  | zswapTake (idx : ℕ) (page : List UInt8)
  | zswapWriteback (max : ℕ)
  | zswapDiskIn (idx : ℕ)
  | zswapDiskPut (src : List UInt8) (len : ℕ)
  | zswapStoreDisk (idx : ℕ)
  | zswapSlotFree
  | addBlock
  | cancel (idx : ℕ)
  | zswapDiskInit (n : ℕ)
  deriving DecidableEq, Repr

/-- The swap with the threads that use it. -/
structure Sys (T : Type*) where
  z : Zs
  wbBusy : Bool
  pc : T → Pc

namespace Sys

variable {T : Type*} [DecidableEq T]

/-- Thread `t` goes to `p`. -/
def goto (s : Sys T) (t : T) (p : Pc) : Sys T := { s with pc := Function.update s.pc t p }

/-- A thread with nothing to do makes a call. -/
def start (s : Sys T) (t : T) : Call → Sys T
  | .zswapNew frame => s.goto t (.newTop frame)
  | .zswapFree idx => { s with z := s.z.zswapFree idx }
  | .zswapRelease idx => { s with z := s.z.zswapRelease idx }
  | .zswapStore idx data len => { s with z := s.z.zswapStore idx data len }
  | .zswapTake idx page => { s with z := (s.z.zswapTake idx page).2 }
  | .zswapWriteback max =>
    if s.z.nslots = 0 ∨ s.wbBusy = true then s
    else { s with wbBusy := true }.goto t (.wbTop 0 max)
  | .zswapDiskIn idx => if s.z.Has idx then s.goto t (.diTop idx) else s
  | .zswapDiskPut src len =>
    if s.z.nslots = 0 ∨ len = 0 ∨ len > 4096 then s
    else
      let r := s.z.slotGet (nsect len)
      if r.1 = 0 then { s with z := r.2 }
      else { s with z := r.2 }.goto t (.putIo r.1 len (Zs.padded src len))
  | .zswapStoreDisk _ => s
  | .zswapSlotFree => s
  | .addBlock => { s with z := s.z.addBlock.2 }
  | .cancel idx => { s with z := s.z.cancel idx }
  | .zswapDiskInit n => { s with z := s.z.zswapDiskInit n }

/-- `page_out` with a written slot in its hands: the slot goes to its entry, or the entry is
freed and the slot given back. -/
def holding (s : Sys T) (t : T) (slot len : ℕ) : Call → Sys T
  | .zswapStoreDisk idx => { s with z := s.z.zswapStoreDisk idx slot len }.goto t .idle
  | .zswapSlotFree => { s with z := s.z.slotPut slot (nsect len) }.goto t .idle
  | .zswapFree idx => { s with z := s.z.zswapFree idx }
  | _ => s

/-- A thread inside a call runs its next section or transfer.  `ok` says whether the allocation
or the transfer of this part succeeds; a write that fails leaves any bytes (`junk`) in its
sectors. -/
def resume (s : Sys T) (t : T) (ok : Bool) (junk : List UInt8) : Pc → Sys T
  | .newTop frame =>
    if s.z.freeHead = 0 then s.goto t (.newGrow frame)
    else { s with z := (s.z.zswapNew frame).2 }.goto t .idle
  | .newGrow frame =>
    if ok = true ∧ s.z.addBlock.1 = true then { s with z := s.z.addBlock.2 }.goto t (.newTop frame)
    else s.goto t .idle
  | .wbTop done max =>
    if done < max then
      match s.z.writebackTake with
      | (none, z) => { s with z := z, wbBusy := false }.goto t .idle
      | (some (idx, slot, len, buf), z) =>
        { s with z := z }.goto t (.wbIo done max idx slot len buf)
    else { s with wbBusy := false }.goto t .idle
  | .wbIo done max idx slot len buf =>
    { s with z := s.z.diskWrite slot (Zs.sectors len) (if ok then buf else junk) }.goto t
      (.wbEnd done max idx slot len ok)
  | .wbEnd done max idx slot len ok =>
    let r := s.z.writebackDone idx slot len ok
    if (s.z.ent idx).state = .writing ∧ ok = false then
      { s with z := r.2, wbBusy := false }.goto t .idle
    else { s with z := r.2 }.goto t (.wbTop (if r.1 then done + 1 else done) max)
  | .diTop idx =>
    if (s.z.ent idx).state = .reading then s
    else if (s.z.ent idx).state = .disk then
      { s with z := s.z.diskInTake idx }.goto t
        (.diAlloc idx (s.z.ent idx).slot (s.z.ent idx).len)
    else s.goto t .idle
  | .diAlloc idx slot len =>
    if ok then s.goto t (.diIo idx slot len)
    else { s with z := s.z.diskInNoMem idx slot len }.goto t .idle
  | .diIo idx slot len =>
    s.goto t (.diEnd idx slot len (if ok then some (s.z.diskRead slot (Zs.sectors len)) else none))
  | .diEnd idx slot len data => { s with z := s.z.diskInDone idx slot len data }.goto t .idle
  | .putIo slot len buf =>
    { s with z := s.z.diskWrite slot (Zs.sectors len) (if ok then buf else junk) }.goto t
      (.putEnd slot len ok)
  | .putEnd slot len ok =>
    if ok then s.goto t (.putDone slot len)
    else { s with z := s.z.slotPut slot (nsect len) }.goto t .idle
  | .idle => s
  | .putDone _ _ => s

/-- One thread's next part: `call` is what it calls when it has nothing to do. -/
def step (s : Sys T) (t : T) (call : Call) (ok : Bool) (junk : List UInt8) : Sys T :=
  match s.pc t with
  | .idle => s.start t call
  | .putDone slot len => s.holding t slot len call
  | p => s.resume t ok junk p

/-- What the callers of the swap keep to: data goes to pending entries only, only pending or
cancelled ones are freed, only pending ones cancelled; a page's data is at most a page and a
swap area at most 4 GiB. -/
def Allowed (s : Sys T) : Call → Prop
  | .zswapFree idx => s.z.Has idx ∧
      ((s.z.ent idx).state = .pending ∨ (s.z.ent idx).state = .cancelled)
  | .zswapStore idx data len => s.z.Has idx ∧ (s.z.ent idx).state = .pending ∧ len ≤ 4096 ∧
      ∀ d, data = some d → d.length = len
  | .zswapStoreDisk idx => s.z.Has idx ∧ (s.z.ent idx).state = .pending
  | .cancel idx => s.z.Has idx ∧ (s.z.ent idx).state = .pending
  | .zswapDiskInit n => n ≤ 2 ^ 23
  | _ => True

/-- At the start of the system: no entries, no swap area, every thread idle. -/
def boot (disk : ℕ → UInt8) : Sys T :=
  ⟨⟨fun _ => Zent.zeroed, 0, 0, 0, 0, 0, fun _ => false, 0, 0, ⟨0, 0, 0, 0, 0, 0, 0, 0⟩, disk⟩,
    false, fun _ => .idle⟩

/-- The states that an interleaving of the threads' sections leads to. -/
inductive Reach : Sys T → Prop
  | boot (disk : ℕ → UInt8) : Reach (boot disk)
  | step {s : Sys T} (h : Reach s) (t : T) (call : Call) (ok : Bool) (junk : List UInt8)
      (hc : s.Allowed call) : Reach (s.step t call ok junk)

end Sys

end BananaOS.Zswap
