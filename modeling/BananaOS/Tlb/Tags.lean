import Mathlib.Algebra.Order.Ring.Nat
import Mathlib.Data.Nat.ModEq
import Mathlib.Logic.Function.Basic
import Mathlib.Data.List.Basic

/-!
# Tags and generations

`kernel/tlb.c`: what a core does with its TLB when it loads an address space, when a space loses
rights and when the kernel's tables change, with and without PCIDs.

The TLB of a core is a list of entries.  An entry carries the PCID it is kept under, whether it is
global, and when it was made: how many changes of its space and of the kernel's tables had been
recorded until then.  The processor may make an entry of what is loaded at any time
(`Act.touch`), and may lose any entries at any time (`Act.lose`, which also covers `invlpg` and
the reloads of `reload_cr3` and `smp_tlb_service`).

The counters of the source are 32 bits wide.  The counts they stand for are kept beside them
(`Cpu.seen`, `Shared.changes` and so on), and nothing of the source reads those.
-/

namespace BananaOS.Tlb

/-- `NSLOT` -/
def nSlot : ℕ := 63

/-- `SMP_MAX_CPUS` -/
def smpMaxCpus : ℕ := 64

/-- A `uint32_t`. -/
def u32 (n : ℕ) : ℕ := n % 2 ^ 32

/-! ## The processor -/

/-- An entry of the TLB.  `id` and `addr` are the space that was loaded when it was made, `kern`
says that it comes from the kernel's part of the tables. -/
structure Entry where
  pcid : ℕ
  glob : Bool
  page : ℕ
  kern : Bool
  id : ℕ
  addr : ℕ
  made : ℕ
  kmade : ℕ
  deriving DecidableEq, Repr

/-- The register CR3: the address of the tables (`CR3_ADDR`) and the low bits. -/
structure Cr3 where
  addr : ℕ
  low : ℕ
  deriving DecidableEq, Repr

/-- `slot_t` -/
structure Slot where
  id : ℕ
  gen : ℕ
  deriving DecidableEq, Repr

/-- `core_t`, less its statistics.  `id` is `none` for `(uint64_t)-1`, which no space has; the
kernel's tables have `0`. -/
structure Core where
  slot : ℕ → Slot
  next : ℕ
  kgen : ℕ
  id : Option ℕ
  gen : ℕ
  dirty0 : Bool

/-- A core: its registers, its TLB and its `core_t`; and of the history, which space is loaded,
how many changes of each space had been recorded when it loaded that space last (`seen`), how many
of the kernel's when it loaded anything last (`kseen`), and which change of the kernel's tables
is the last that it did not forget by itself (`owed`). -/
structure Cpu where
  cr3 : Cr3
  pge : Bool
  pcide : Bool
  tlb : List Entry
  k : Core
  loaded : ℕ
  seen : ℕ → Option ℕ
  kseen : ℕ
  owed : ℕ

/-- What the cores share: `g_kgen`, the generation of every space's tag, `g_pcid` (`none` for
`-1`), and the changes recorded. -/
structure Shared where
  kgen : ℕ
  gen : ℕ → ℕ
  pcid : Option Bool
  changes : ℕ → ℕ
  kchanges : ℕ
  pageAt : ℕ → ℕ

/-- `g_pcid` after a core that has PCIDs or not looked. -/
def gPcid (g : Shared) (has : Bool) : Bool :=
  if g.pcid = none then has else g.pcid == some true && has

namespace Cpu

variable (p : Cpu)

/-- The PCID that is in use. -/
def pcid : ℕ := if p.pcide then p.cr3.low else 0

/-- The entries that an access may use now. -/
def Uses (e : Entry) : Prop := e.glob = true ∨ e.pcid = p.pcid

instance (e : Entry) : Decidable (p.Uses e) := by unfold Uses; infer_instance

/-- `wr_cr3`: without `CR3_NOFLUSH` what the PCID held goes, all but the global entries. -/
def wrCr3 (v : Cr3) (noflush : Bool) : Cpu :=
  let q := { p with cr3 := v }
  if noflush then q
  else { q with tlb := p.tlb.filter fun e => e.glob || decide (e.pcid ≠ q.pcid) }

/-- `tlb_flush_all` -/
def tlbFlushAll : Cpu :=
  if p.pge then { p with tlb := [] } else p.wrCr3 p.cr3 false

/-- `tlb_has_pcid` -/
def tlbHasPcid (g : Shared) : Bool := g.pcid == some true && p.pcide

/-- `invlpg`, for each of the pages. -/
def invlpg (pages : List ℕ) : Cpu :=
  { p with tlb := p.tlb.filter fun e => !(decide (p.Uses e) && pages.contains e.page) }

/-! ## Loading a space -/

/-- The changes of the kernel's tables that the core has not forgotten everything for. -/
def catchUp (g : Shared) : Cpu :=
  if p.k.kgen ≠ g.kgen then { p with k := { p.k with kgen := g.kgen } }.tlbFlushAll else p

/-- Without PCIDs. -/
def loadPlain (g : Shared) (cr3 : ℕ) (tag : Option ℕ) : Cpu :=
  let id := tag.getD 0
  let gen := (tag.map g.gen).getD 0
  if p.cr3.addr = cr3 ∧ p.k.id = some id ∧ p.k.gen = gen then p
  else
    let q := p.wrCr3 ⟨cr3, 0⟩ false
    { q with k := { q.k with id := some id, gen := gen } }

/-- With PCIDs, no tag: PCID 0. -/
def loadKernel (kernelCr3 cr3 : ℕ) : Cpu :=
  if p.k.dirty0 ∨ cr3 ≠ kernelCr3 then
    { p with k := { p.k with dirty0 := decide (cr3 ≠ kernelCr3) } }.wrCr3 ⟨cr3, 0⟩ false
  else if p.cr3 ≠ ⟨cr3, 0⟩ then p.wrCr3 ⟨cr3, 0⟩ true
  else p

/-- The slot of a space: the first that has its id. -/
def findSlot (k : Core) (id : ℕ) : Option ℕ :=
  (List.range nSlot).find? fun i => (k.slot i).id == id

/-- With PCIDs, the space `id`. -/
def loadTagged (g : Shared) (cr3 id : ℕ) : Cpu :=
  let gen := g.gen id
  match findSlot p.k id with
  | some i =>
    let fresh := (p.k.slot i).gen == gen
    let q := { p with k := { p.k with slot := Function.update p.k.slot i ⟨id, gen⟩ } }
    if fresh then (if p.cr3 ≠ ⟨cr3, i + 1⟩ then q.wrCr3 ⟨cr3, i + 1⟩ true else q)
    else q.wrCr3 ⟨cr3, i + 1⟩ false
  | none =>
    let i := p.k.next
    let q := { p with k := { p.k with
      next := (p.k.next + 1) % nSlot, slot := Function.update p.k.slot i ⟨id, gen⟩ } }
    q.wrCr3 ⟨cr3, i + 1⟩ false

/-- `load` on a core that has its `core_t`. -/
def loadOn (g : Shared) (kernelCr3 cr3 : ℕ) (tag : Option ℕ) : Cpu :=
  let q := p.catchUp g
  if ¬q.tlbHasPcid g then q.loadPlain g cr3 tag
  else match tag with
    | none => q.loadKernel kernelCr3 cr3
    | some id => q.loadTagged g cr3 id

/-- What the history says after a load. -/
def noteLoad (g : Shared) (tag : Option ℕ) : Cpu :=
  { p with
    loaded := tag.getD 0
    seen := Function.update p.seen (tag.getD 0) (some (g.changes (tag.getD 0)))
    kseen := g.kchanges }

/-- `tlb_load` on the core `cpu`. -/
def tlbLoad (g : Shared) (cpu kernelCr3 cr3 : ℕ) (tag : Option ℕ) : Cpu :=
  if cpu < smpMaxCpus then (p.loadOn g kernelCr3 cr3 tag).noteLoad g tag
  else
    (if p.cr3.addr ≠ cr3 then p.wrCr3 ⟨cr3, 0⟩ false else p).noteLoad g tag

/-- This core's part of `tlb_kernel_changed`, on the core that calls it. -/
def kernelChanged (g : Shared) (cpu : ℕ) (othersOnly : Bool) : Cpu :=
  let q := if othersOnly then p else p.tlbFlushAll
  let q := if cpu < smpMaxCpus ∧ q.k.kgen = g.kgen
    then { q with k := { q.k with kgen := u32 (g.kgen + 1) } } else q
  if othersOnly then q else { q with owed := g.kchanges + 1 }

/-- `tlb_cpu_init` after the core was started or woken: its TLB is empty, CR4 has neither PGE nor
PCIDE, and CR3 is what the trampoline or the resume code loaded.  `pge` and `pcid` are what CPUID
says. -/
def tlbCpuInit (g : Shared) (pge pcid : Bool) (v : Cr3) (id : ℕ) : Cpu :=
  { cr3 := v, pge := pge, pcide := gPcid g (pcid && pge) && decide (v.low = 0), tlb := []
    k := { p.k with
      slot := fun i => { p.k.slot i with id := 0 }, id := none, dirty0 := true, kgen := g.kgen }
    loaded := id, seen := p.seen, kseen := g.kchanges, owed := g.kchanges }

end Cpu

/-! ## The system -/

/-- The state of the machine. -/
structure St where
  g : Shared
  cpu : ℕ → Cpu

/-- One step of one core. -/
inductive Act where
  /-- the processor makes an entry -/
  | touch (cpu page : ℕ) (kern : Bool)
  /-- the processor loses entries -/
  | lose (cpu : ℕ) (keeps : Entry → Bool)
  /-- `tlb_load` -/
  | load (cpu cr3 : ℕ) (tag : Option ℕ)
  /-- `tlb_space_changed` -/
  | spaceChanged (id : ℕ)
  /-- the kernel's tables change anywhere, `tlb_kernel_changed(0)` -/
  | kernelChanged (cpu : ℕ)
  /-- `paging_guard`: the pages change, `invlpg` for each, `tlb_kernel_changed(1)` -/
  | guardPages (cpu : ℕ) (pages : List ℕ)
  /-- the core is started, or wakes from sleep -/
  | cpuInit (cpu : ℕ) (pge pcid : Bool) (v : Cr3) (id : ℕ)

namespace St

variable (s : St)

/-- The entry that a core makes of a page. -/
def entryOf (c page : ℕ) (kern : Bool) : Entry :=
  { pcid := (s.cpu c).pcid, glob := kern && (s.cpu c).pge, page := page, kern := kern
    id := (s.cpu c).loaded, addr := (s.cpu c).cr3.addr
    made := s.g.changes (s.cpu c).loaded, kmade := s.g.kchanges }

/-- A change of the kernel's tables, recorded by the core `c`. -/
def kernelChange (c : ℕ) (othersOnly : Bool) (touched : ℕ → Bool) : St where
  g := { s.g with
    kgen := u32 (s.g.kgen + 1), kchanges := s.g.kchanges + 1
    pageAt := fun p => if touched p then s.g.kchanges + 1 else s.g.pageAt p }
  cpu := fun d => if d = c then (s.cpu c).kernelChanged s.g c othersOnly
    else { s.cpu d with owed := s.g.kchanges + 1 }

/-- The core `c` is in the state `p`. -/
def setCpu (c : ℕ) (p : Cpu) : St := { s with cpu := Function.update s.cpu c p }

/-- One step.  `kernelCr3` is `paging_kernel_cr3()`. -/
def step (kernelCr3 : ℕ) : Act → St
  | .touch c page kern =>
    s.setCpu c { s.cpu c with tlb := s.entryOf c page kern :: (s.cpu c).tlb }
  | .lose c keeps => s.setCpu c { s.cpu c with tlb := (s.cpu c).tlb.filter keeps }
  | .load c cr3 tag => s.setCpu c ((s.cpu c).tlbLoad s.g c kernelCr3 cr3 tag)
  | .spaceChanged id =>
    { s with g := { s.g with
        gen := Function.update s.g.gen id (u32 (s.g.gen id + 1))
        changes := Function.update s.g.changes id (s.g.changes id + 1) } }
  | .kernelChanged c => s.kernelChange c false fun _ => true
  | .guardPages c pages =>
    (s.setCpu c ((s.cpu c).invlpg pages)).kernelChange c true pages.contains
  | .cpuInit c pge pcid v id =>
    { s.setCpu c ((s.cpu c).tlbCpuInit s.g pge pcid v id) with
      g := { s.g with pcid := some (gPcid s.g (pcid && pge)) } }

/-- What a run keeps to: a tag's id is never `0` (`g_next_id` starts at 1), and there are fewer than
`2^32` changes of a space between two loads of it on a core, and fewer than `2^32` of the kernel's
tables between two loads on a core (the one that starts it counts). -/
def Allowed : Act → Prop
  | .load c _ tag =>
    s.g.kchanges - (s.cpu c).kseen < 2 ^ 32 ∧
      ∀ id, tag = some id →
        0 < id ∧ ∀ n, (s.cpu c).seen id = some n → s.g.changes id - n < 2 ^ 32
  | .spaceChanged id => 0 < id
  | _ => True

/-- Nothing has happened: everything the source declares is zero, every TLB is empty. -/
def Start : Prop :=
  s.g.kgen = 0 ∧ (∀ id, s.g.gen id = 0) ∧ s.g.pcid = none ∧ (∀ id, s.g.changes id = 0) ∧
    s.g.kchanges = 0 ∧ (∀ p, s.g.pageAt p = 0) ∧
    ∀ c, (s.cpu c).pge = false ∧ (s.cpu c).pcide = false ∧ (s.cpu c).tlb = [] ∧
      (∀ i, (s.cpu c).k.slot i = ⟨0, 0⟩) ∧ (s.cpu c).k.next = 0 ∧ (s.cpu c).k.kgen = 0 ∧
      (s.cpu c).k.id = some 0 ∧ (s.cpu c).k.gen = 0 ∧ (s.cpu c).k.dirty0 = false ∧
      (s.cpu c).loaded = 0 ∧ (∀ id, (s.cpu c).seen id = none) ∧ (s.cpu c).kseen = 0 ∧
      (s.cpu c).owed = 0

/-- The states that any steps of any cores lead to. -/
inductive Reach (kernelCr3 : ℕ) : St → Prop
  | start {s : St} : s.Start → Reach kernelCr3 s
  | step {s : St} (a : Act) : Reach kernelCr3 s → s.Allowed a → Reach kernelCr3 (s.step kernelCr3 a)

end St

end BananaOS.Tlb
