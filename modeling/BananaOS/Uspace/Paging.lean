import BananaOS.Uspace.Ranges
import BananaOS.Zswap.Entries

/-!
# The pages of the mmap region

What `kernel/uspace.c` does to the page tables of the apps: `uvm_fault`, `vm_release` (for
`uvm_unmap`) and `page_out`, over the pool of frames of `kernel/upage.c` and the swap of
`Zswap.Entries`.

A page is an app with a page number, `A × ℕ`.  The entry of a page that has no page table is `0`.
Where the pool finds a frame (`upage_alloc`) is an input of each step, and so is whether there is
memory for a page table, for a buffer, or for the charge; a frame is free when it has no
references.

The functions that give `vm_lock` up on the way are cut there, and `St.step` runs one of them to
the next place.  The order in which `page_out` comes to the pages, and where its batches end, is
free, and `vm_release` may be interrupted between any two pages: every order that the loops and
limits of the source can give is among these.  A core forgets a page with the step that takes it
out of the tables (`shootdown` comes before anything is done with its frame).  The counters
(`vm_pages`, `vm_zpages`, the budget) only say how much there is and are left out.
-/

namespace BananaOS.Uspace

open Lib Lib.Range Zswap

/-! ## Page-table entries -/

/-- A page-table entry: its address bits (a frame's number, or a swap entry's) and its flags. -/
structure Pte where
  addr : ℕ
  present : Bool
  write : Bool
  user : Bool
  accessed : Bool
  kept : Bool
  zsw : Bool
  dev : Bool
  cow : Bool
  deriving DecidableEq, Repr

/-- `UVM_READ | UVM_WRITE` -/
def uvmRW : ℕ := 3

/-- `UVM_WRITE` -/
def uvmWrite : ℕ := 2

namespace Pte

/-- The entry `0`. -/
def zero : Pte := ⟨0, false, false, false, false, false, false, false, false⟩

/-- `frame | prot_bits(prot)` -/
def page (frame prot : ℕ) : Pte :=
  if prot &&& uvmRWX = 0 then { zero with addr := frame, kept := true }
  else { zero with
    addr := frame, present := true, user := true, write := decide (prot &&& uvmWrite ≠ 0) }

/-- `(idx << 12) | P_ZSW` -/
def out (idx : ℕ) : Pte := { zero with addr := idx, zsw := true }

end Pte

/-! ## The state -/

/-- `outpg_t` -/
structure OutPg where
  va : ℕ
  idx : ℕ
  frame : ℕ
  deriving DecidableEq, Repr

/-- Where `page_out` is; `g_po_busy` lets one thread at a time in. -/
inductive Po (A T : Type*) where
  | idle
  /-- collecting pages of an app -/
  | scan (t : T) (a : A) (force : Bool) (b : List OutPg)
  /-- in `zswap_new` for the page `va`, with `vm_lock` held -/
  | new (t : T) (a : A) (force : Bool) (b : List OutPg) (va frame : ℕ)
  /-- about to compress the next page -/
  | pack (t : T) (a : A) (b : List OutPg)
  /-- no memory for the copy of page `k`: about to try the swap area -/
  | full (t : T) (a : A) (k : OutPg) (b : List OutPg)
  /-- about to lock again, with `data` of `len` bytes (`keep`), or with what `zswap_disk_put` is
  doing -/
  | store (t : T) (a : A) (k : OutPg) (b : List OutPg) (keep : Bool) (data : Option (List UInt8))
      (len : ℕ)
  /-- unlocked, with a slot or a frame to give back -/
  | give (t : T) (a : A) (b : List OutPg) (frame : Option ℕ)
  deriving DecidableEq, Repr

/-- A `vm_release` on its way: the pages from `cur` up to `stop` are left, and the frames in `pg`
are out of the tables but not yet free. -/
structure Unmap (A : Type*) where
  app : A
  cur : ℕ
  stop : ℕ
  pg : List ℕ

/-- The apps' address spaces, the frames and the swap. -/
structure St (A T : Type*) where
  sys : Sys T
  us : A → Us
  pte : A × ℕ → Pte
  mem : ℕ → List UInt8
  refs : ℕ → ℕ
  po : Po A T
  unmaps : T → Option (Unmap A)

/-- The ranges of an app: sorted, of whole pages, with no protection bits but those of
`uvm_map`. -/
structure AppRanges (l : List Uvma) : Prop where
  sorted : Sorted l
  aligned : ∀ v ∈ l, v.start % 4096 = 0 ∧ v.stop % 4096 = 0
  tag : ∀ v ∈ l, v.tag &&& uvmRWX = v.tag

/-- `OUT_BATCH` -/
def outBatch : ℕ := 64

/-- `OUT_MAX` -/
def outMax : ℕ := 3584

/-- `REL_BATCH` -/
def relBatch : ℕ := 256

/-- What `uvm_fault` returns: 0 to 4. -/
inductive FaultRc where
  | no
  | ok
  | onDisk (idx : ℕ)
  | noMem
  | quota
  deriving DecidableEq, Repr

namespace St

variable {A T : Type*} [DecidableEq A] [DecidableEq T]

/-- `*pte = e` -/
def setPte (s : St A T) (q : A × ℕ) (e : Pte) : St A T :=
  { s with pte := Function.update s.pte q e }

/-- The bytes of a frame written over. -/
def setMem (s : St A T) (f : ℕ) (b : List UInt8) : St A T :=
  { s with mem := Function.update s.mem f b }

/-- The swap after a section. -/
def setZ (s : St A T) (z : Zs) : St A T := { s with sys := { s.sys with z := z } }

/-- `upage_alloc`, where the pool answers with `pg`: only a free frame is given out. -/
def upageAlloc (s : St A T) (pg : Option ℕ) : Option ℕ := pg.filter fun f => s.refs f = 0

/-- The first reference to a frame that `upage_alloc` gave. -/
def take (s : St A T) (f : ℕ) : St A T := { s with refs := Function.update s.refs f 1 }

/-- `upage_free` -/
def upageFree (s : St A T) (f : ℕ) : St A T :=
  { s with refs := Function.update s.refs f (s.refs f - 1) }

/-- `vm_lock` is held by `page_out`, in the middle of `zswap_new`. -/
def locked (s : St A T) (a : A) : Bool :=
  match s.po with
  | .new _ a' _ _ _ _ => decide (a = a')
  | _ => false

/-- `i >= 0 ? us->vma[i].prot : d` for `i = vma_at(us, addr)` -/
def protAt (s : St A T) (a : A) (addr d : ℕ) : ℕ :=
  match rangeAt (s.us a) addr with
  | some v => v.tag
  | none => d

/-! ## `uvm_fault` -/

/-- `ok = 3`, where the caller asked for it. -/
def noMem (od : Bool) : FaultRc := if od then .noMem else .no

/-- `uvm_fault` on a page that is compressed, or being compressed. -/
def faultOut (s : St A T) (q : A × ℕ) (prot : ℕ) (od : Bool) (pg : Option ℕ) : FaultRc × St A T :=
  let idx := (s.pte q).addr
  let st := (s.sys.z.ent idx).state
  if s.sys.z.Has idx ∧ st = .pending then
    (.ok, (s.setPte q (.page (s.sys.z.ent idx).frame prot)).setZ (s.sys.z.cancel idx))
  else if s.sys.z.Has idx ∧ st ≠ .free ∧ st ≠ .cancelled then
    match s.upageAlloc pg with
    | none => (noMem od, s)
    | some f =>
      match s.sys.z.zswapTake idx (s.mem f) with
      | (.page b, z) => (.ok, (((s.setZ z).take f).setMem f b).setPte q (.page f prot))
      | (.onDisk, z) => (if od then .onDisk idx else .no, s.setZ z)
      | (.bad, z) => (.no, s.setZ z)
  else (.no, s)

/-- `uvm_fault`: `write` is bit 1 of `err`, `od` says whether `on_disk` is given, `tbl` whether
there is memory for the page table, `charged` whether the charge is granted, `pg` the pool's
answer. -/
def uvmFault (s : St A T) (a : A) (addr : ℕ) (write od tbl charged : Bool) (pg : Option ℕ) :
    FaultRc × St A T :=
  let q := (a, addr / 4096)
  let prot := s.protAt a addr 0
  let e := s.pte q
  if ¬ inRegion addr 1 then (.no, s)
  else if prot = 0 ∨ write ∧ prot &&& uvmWrite = 0 then (.no, s)
  else if ¬ tbl then (noMem od, s)
  else if e.present ∧ write ∧ e.cow then
    if s.refs e.addr ≤ 1 then (.ok, s.setPte q (.page e.addr prot))
    else
      match s.upageAlloc pg with
      | none => (noMem od, s)
      | some f =>
        (.ok, (((s.take f).setMem f (s.mem e.addr)).setPte q (.page f prot)).upageFree e.addr)
  else if e.present then (.ok, s)
  else if e.zsw then s.faultOut q prot od pg
  else if ¬ e.kept ∧ prot &&& uvmDev = 0 then
    if ¬ charged then (.quota, s)
    else
      match s.upageAlloc pg with
      | none => (noMem od, s)
      | some f => (.ok, ((s.take f).setMem f (List.replicate 4096 0)).setPte q (.page f prot))
  else (.no, s)

/-! ## `uvm_unmap` -/

/-- `vm_release`, one page: its entry cleared, its frame (if it has one) to `pg`. -/
def releasePage (s : St A T) (q : A × ℕ) : List ℕ × St A T :=
  let e := s.pte q
  let st := (s.sys.z.ent e.addr).state
  let s' := s.setPte q .zero
  if e.dev then ([], s')
  else if e.present ∨ e.kept then ([e.addr], s')
  else if e.zsw then
    if s.sys.z.Has e.addr ∧ st = .pending then
      ([(s.sys.z.ent e.addr).frame], s'.setZ (s.sys.z.cancel e.addr))
    else if s.sys.z.Has e.addr ∧ st ≠ .free ∧ st ≠ .cancelled then
      ([], s'.setZ (s.sys.z.zswapRelease e.addr))
    else ([], s')
  else ([], s)

/-! ## `page_out` -/

/-- The bytes that `page_out` reads in the frame of page `k`: the frame's, as long as the entry
is pending; else another page's, or some of each (`src`). -/
def readFrame (s : St A T) (k : OutPg) (src : List UInt8) : List UInt8 :=
  if (s.sys.z.ent k.idx).state = .pending then s.mem k.frame else src

/-- `page_out`, the page `va` in its first section. -/
def scanPage (s : St A T) (t : T) (a : A) (force : Bool) (b : List OutPg) (va : ℕ) : St A T :=
  let e := s.pte (a, va)
  if e.present ∧ e.user ∧ ¬ (e.dev ∨ e.cow) then
    if force = false ∧ e.accessed then s.setPte (a, va) { e with accessed := false }
    else { s with
      sys := s.sys.step t (.zswapNew e.addr) true []
      po := .new t a force b va e.addr }
  else s

/-- `zswap_new` for the page `va`: the next of its sections, and what follows it. -/
def newStep (s : St A T) (t : T) (a : A) (force : Bool) (b : List OutPg) (va frame : ℕ)
    (ok : Bool) : St A T :=
  let idx := s.sys.z.freeHead
  let sys := s.sys.resume t ok [] (s.sys.pc t)
  match s.sys.pc t with
  | .newTop _ =>
    if idx = 0 then { s with sys := sys }
    else { s.setPte (a, va) (.out idx) with
      sys := sys, po := .scan t a force (b ++ [⟨va, idx, frame⟩]) }
  | .newGrow _ =>
    match sys.pc t with
    | .idle => { s with sys := sys, po := .pack t a b }
    | _ => { s with sys := sys }
  | _ => s

/-- `page_out`, page `k` compressed: `buf` is what `g_po_buf` held, `mem` says whether there is
memory for the copy. -/
def packPage (s : St A T) (t : T) (a : A) (k : OutPg) (b : List OutPg) (src buf : List UInt8)
    (mem : Bool) : St A T :=
  match zswapPack (s.readFrame k src) buf outMax with
  | .ok .zero => { s with po := .store t a k b true none 0 }
  | .ok (.packed n out) =>
    if n ≠ 0 then
      if mem then { s with po := .store t a k b true (some (out.take n)) n }
      else { s with po := .full t a k b }
    else if mem then { s with po := .store t a k b true (some (s.readFrame k src)) 4096 }
    else { s with po := .full t a k b }
  | .ok .unfit =>
    if mem then { s with po := .store t a k b true (some (s.readFrame k src)) 4096 }
    else { s with po := .full t a k b }
  | _ => s

/-- `page_out`, the second section for page `k`, with a slot or without. -/
def storePage (s : St A T) (t : T) (a : A) (k : OutPg) (b : List OutPg) (keep : Bool)
    (data : Option (List UInt8)) (len : ℕ) (slot : Bool) : St A T :=
  let q := (a, k.va)
  if s.sys.z.Has k.idx ∧ (s.sys.z.ent k.idx).state = .pending ∧ s.pte q = .out k.idx then
    if keep then { s with
      sys := s.sys.step t (.zswapStore k.idx data len) true []
      po := .give t a b (some k.frame) }
    else if slot then { s with
      sys := s.sys.step t (.zswapStoreDisk k.idx) true []
      po := .give t a b (some k.frame) }
    else { s.setPte q (.page k.frame (s.protAt a (k.va * 4096) uvmRW)) with
      sys := s.sys.step t (.zswapFree k.idx) true []
      po := .give t a b none }
  else { s with
    sys := s.sys.step t (.zswapFree k.idx) true []
    po := .give t a b none }

end St

/-! ## Steps -/

/-- What can happen next. -/
inductive Act (A T : Type*) where
  /-- an app reads a byte, or stores one -/
  | load (a : A) (addr : ℕ)
  | store (a : A) (addr : ℕ) (x : UInt8)
  /-- thread `t` faults -/
  | fault (t : T) (a : A) (addr : ℕ) (write od tbl charged : Bool) (pg : Option ℕ)
  /-- thread `t` calls `uvm_unmap`, releases its next page, frees its next frame -/
  | unmap (t : T) (a : A) (addr len : ℕ) (mem : Bool)
  | release (t : T)
  | free (t : T)
  /-- thread `t` starts `page_out` on an app, which goes on from place to place -/
  | pageOut (t : T) (a : A) (force : Bool)
  | scan (va : ℕ)
  | scanned
  | new (ok : Bool)
  | pack (src buf : List UInt8) (mem : Bool)
  | diskPut (src : List UInt8) (may : Bool)
  | put (ok : Bool) (junk : List UInt8)
  | second
  | give
  /-- another thread is in `zswap_writeback` or `zswap_disk_in`, or calls one -/
  | swap (t : T) (call : Zswap.Call) (ok : Bool) (junk : List UInt8)

/-- What threads outside `page_out` and `uvm_fault` call in the swap. -/
def swapCall : Zswap.Call → Bool
  | .zswapWriteback _ | .zswapDiskIn _ | .addBlock => true
  | .zswapDiskInit n => decide (n ≤ 2 ^ 23)
  | _ => false

namespace Po

variable {A T : Type*}

/-- The thread inside `page_out`. -/
def thread : Po A T → Option T
  | .idle => none
  | .scan t .. | .new t .. | .pack t .. | .full t .. | .store t .. | .give t .. => some t

end Po

namespace St

variable {A T : Type*} [DecidableEq A] [DecidableEq T]

/-- One step of `vm_release` by thread `t`. -/
def releaseStep (s : St A T) (t : T) (u : Unmap A) : St A T :=
  if s.locked u.app = false ∧ u.cur < u.stop ∧ u.pg.length < relBatch then
    let r := s.releasePage (u.app, u.cur)
    let u' := { u with cur := u.cur + 1, pg := u.pg ++ r.1 }
    { r.2 with unmaps := Function.update s.unmaps t (some u') }
  else s

/-- `upage_free(pg[k])`, and the end of `vm_release`. -/
def freeStep (s : St A T) (t : T) (u : Unmap A) : St A T :=
  match u.pg with
  | f :: pg =>
    { s.upageFree f with unmaps := Function.update s.unmaps t (some { u with pg := pg }) }
  | [] =>
    if u.cur < u.stop then s else { s with unmaps := Function.update s.unmaps t none }

/-- The next step of `page_out`, from where it is. -/
def poStep (s : St A T) : Act A T → St A T
  | .scan va =>
    match s.po with
    | .scan t a force b => if b.length < outBatch then s.scanPage t a force b va else s
    | _ => s
  | .scanned =>
    match s.po with
    | .scan t a _ b => { s with po := .pack t a b }
    | _ => s
  | .new ok =>
    match s.po with
    | .new t a force b va frame => s.newStep t a force b va frame ok
    | _ => s
  | .pack src buf mem =>
    match s.po with
    | .pack t a (k :: b) =>
      if src.length = 4096 ∧ buf.length = outMax then s.packPage t a k b src buf mem else s
    | .pack _ _ [] => { s with po := .idle }
    | _ => s
  | .diskPut src may =>
    match s.po with
    | .full t a k b =>
      { s with
        sys := if may then s.sys.step t (.zswapDiskPut (s.readFrame k src) 4096) true [] else s.sys
        po := .store t a k b false none 0 }
    | _ => s
  | .put ok junk =>
    match s.po with
    | .store t _ _ _ _ _ _ =>
      match s.sys.pc t with
      | .putIo .. | .putEnd .. => { s with sys := s.sys.resume t ok junk (s.sys.pc t) }
      | _ => s
    | _ => s
  | .second =>
    match s.po with
    | .store t a k b keep data len =>
      match s.sys.pc t with
      | .idle => s.storePage t a k b keep data len false
      | .putDone .. => s.storePage t a k b keep data len true
      | _ => s
    | _ => s
  | .give =>
    match s.po with
    | .give t a b frame =>
      match s.sys.pc t with
      | .putDone .. => { s with sys := s.sys.step t .zswapSlotFree true [] }
      | _ =>
        match frame with
        | some f => { s.upageFree f with po := .pack t a b }
        | none => { s with po := .pack t a b }
    | _ => s
  | _ => s

/-- A store to `addr` goes through. -/
def Writable (s : St A T) (a : A) (addr : ℕ) : Prop :=
  let e := s.pte (a, addr / 4096)
  e.present ∧ e.user ∧ e.write

instance (s : St A T) (a : A) (addr : ℕ) : Decidable (s.Writable a addr) :=
  inferInstanceAs (Decidable (_ ∧ _ ∧ _))

/-- One step; what cannot happen now changes nothing. -/
def step (s : St A T) : Act A T → St A T
  | .load a addr =>
    let e := s.pte (a, addr / 4096)
    if e.present ∧ e.user then s.setPte (a, addr / 4096) { e with accessed := true } else s
  | .store a addr x =>
    let e := s.pte (a, addr / 4096)
    if s.Writable a addr then
      (s.setMem e.addr ((s.mem e.addr).set (addr % 4096) x)).setPte (a, addr / 4096)
        { e with accessed := true }
    else s
  | .fault t a addr write od tbl charged pg =>
    match s.sys.pc t with
    | .idle => if s.locked a then s else (s.uvmFault a addr write od tbl charged pg).2
    | _ => s
  | .unmap t a addr len mem =>
    if s.locked a ∨ (s.unmaps t).isSome then s
    else
      let r := uvmUnmap (s.us a) addr len mem
      { s with
        us := Function.update s.us a r.2
        unmaps := if r.1 then Function.update s.unmaps t
            (some ⟨a, addr / 4096, u64 (addr + roundPages len) / 4096, []⟩) else s.unmaps }
  | .release t =>
    match s.unmaps t with
    | some u => if s.sys.pc t = .idle then s.releaseStep t u else s
    | none => s
  | .free t =>
    match s.unmaps t with
    | some u => s.freeStep t u
    | none => s
  | .pageOut t a force =>
    match s.po, s.sys.pc t with
    | .idle, .idle => { s with po := .scan t a force [] }
    | _, _ => s
  | .swap t call ok junk =>
    if s.po.thread = some t ∨ swapCall call = false then s
    else { s with sys := s.sys.step t call ok junk }
  | act => s.poStep act

/-- The bytes last stored in each page, after a step. -/
def stored (s : St A T) (last : A × ℕ → List UInt8) : Act A T → A × ℕ → List UInt8
  | .store a addr x =>
    if s.Writable a addr then
      Function.update last (a, addr / 4096) ((last (a, addr / 4096)).set (addr % 4096) x)
    else last
  | _ => last

/-- At the start: the apps have their ranges and no page. -/
def boot (disk : ℕ → UInt8) (us : A → Us) (mem : ℕ → List UInt8) : St A T :=
  ⟨.boot disk, us, fun _ => .zero, mem, fun _ => 0, .idle, fun _ => none⟩

/-- The states that any interleaving leads to, with the bytes last stored in each page. -/
inductive Reach : St A T → (A × ℕ → List UInt8) → Prop
  | boot (disk : ℕ → UInt8) (us : A → Us) (mem : ℕ → List UInt8)
      (hus : ∀ a, AppRanges (us a).vma) (hmem : ∀ f, (mem f).length = 4096) :
      Reach (boot disk us mem) fun _ => List.replicate 4096 0
  | step {s : St A T} {last : A × ℕ → List UInt8} (h : Reach s last) (act : Act A T) :
      Reach (s.step act) (s.stored last act)

end St

end BananaOS.Uspace
