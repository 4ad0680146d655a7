import BananaOS.Lib.Ranges

/-!
# The ranges of an address space

The range list of `kernel/uspace.c`: the part of `struct uspace` that says which pages of the
mmap region are mapped and with what protection (`vma`, `nvma`, `vcap` and the two limits), and
the operations on it.  `uvm_map`, `uvm_unmap` and `uvm_protect` are here as far as they read and
change the ranges; what they do to the page tables is the subject of `Uspace.Paging`.

Addresses and lengths are 64-bit numbers: every sum the code forms is taken modulo `2 ^ 64`
(`u64`).  Whether `kmalloc` finds memory for a longer array is an input of each call (`mem`).

A range is a `Range` whose label is the protection; the array `vma[0 .. nvma)` is a list.
-/

namespace BananaOS.Uspace

open Lib

/-- What a 64-bit register keeps of a number. -/
def u64 (n : ℕ) : ℕ := n % 2 ^ 64

/-- `UVM_BASE` -/
def uvmBase : ℕ := 0x0000640000000000

/-- `UVM_SIZE`: `UVM_SLOTS << 39` -/
def uvmSize : ℕ := 4 * 2 ^ 39

/-- `UVM_READ | UVM_WRITE | UVM_EXEC` -/
def uvmRWX : ℕ := 7

/-- `UVM_DEV` -/
def uvmDev : ℕ := 8

/-- `uvma_t`: a range of the mmap region, its label the `UVM_*` protection. -/
abbrev Uvma := Range ℕ

/-- The fields of `struct uspace` the ranges live in.  `vmLimit` and `vmaLimit` are `0` until
`uvm_limit` attaches a budget. -/
structure Us where
  vma : List Uvma
  vcap : ℕ
  vmLimit : ℕ
  vmaLimit : ℕ
  deriving DecidableEq, Repr

/-- `nvma` -/
def Us.nvma (us : Us) : ℕ := us.vma.length

/-- `in_region` -/
def inRegion (a n : ℕ) : Bool :=
  decide (a ≥ uvmBase) && decide (n ≤ uvmSize) && decide (a - uvmBase ≤ uvmSize - n)

/-- The loop of `vma_at`: the indexes from `lo` up to (not including) `hi` are left. -/
def vmaAtLoop (v : List Uvma) (a lo hi : ℕ) : Option ℕ :=
  if _h : lo < hi then
    let mid := (lo + (hi - 1)) / 2
    match v[mid]? with
    | none => none
    | some x =>
      if a < x.start then vmaAtLoop v a lo mid
      else if a ≥ x.stop then vmaAtLoop v a (mid + 1) hi
      else some mid
  else none
termination_by hi - lo

/-- `vma_at`: the index of the range containing `a`. -/
def vmaAt (us : Us) (a : ℕ) : Option ℕ := vmaAtLoop us.vma a 0 us.nvma

/-- `while (cap < need) cap *= 2`, from a capacity that is not zero. -/
def growCap (cap need : ℕ) : ℕ :=
  if h : cap < need ∧ 0 < cap then growCap (cap * 2) need else cap
termination_by need - cap

/-- `vma_room`: the array made long enough for `extra` more ranges, or `none` (`-1`): too many
ranges, or no memory. -/
def vmaRoom (us : Us) (extra : ℕ) (mem : Bool) : Option Us :=
  if us.vmaLimit ≠ 0 ∧ us.nvma + extra > us.vmaLimit then none
  else if us.nvma + extra ≤ us.vcap then some us
  else if mem then
    some { us with vcap := growCap (if us.vcap ≠ 0 then us.vcap * 2 else 64) (us.nvma + extra) }
  else none

/-- The loop of `vma_cut`, from the range at hand on. -/
def cutList (s e : ℕ) : List Uvma → List Uvma
  | [] => []
  | v :: l =>
    if v.stop ≤ s ∨ v.start ≥ e then v :: cutList s e l
    else if v.start < s ∧ v.stop > e then
      { v with stop := s } :: { v with start := e } :: l
    else if v.start < s then { v with stop := s } :: cutList s e l
    else if v.stop > e then { v with start := e } :: cutList s e l
    else cutList s e l

/-- `vma_cut`: `[s, e)` out of the ranges (one may split in two). -/
def vmaCut (us : Us) (s e : ℕ) (mem : Bool) : Option Us :=
  (vmaRoom us 1 mem).map fun us => { us with vma := cutList s e us.vma }

/-- The end of `vma_add`: the new range joined to the neighbours of its protection, where `l`
are the ranges that start before `s` and `r` the others. -/
def addAt (s e prot : ℕ) (l r : List Uvma) : List Uvma :=
  match l.getLast? with
  | some p =>
    if p.stop = s ∧ p.tag = prot then
      match r with
      | q :: r' =>
        if q.start = e ∧ q.tag = prot then l.dropLast ++ { p with stop := q.stop } :: r'
        else l.dropLast ++ { p with stop := e } :: r
      | [] => l.dropLast ++ [{ p with stop := e }]
    else addRight s e prot l r
  | none => addRight s e prot l r
where
  /-- No neighbour on the left to join. -/
  addRight (s e prot : ℕ) (l r : List Uvma) : List Uvma :=
    match r with
    | q :: r' =>
      if q.start = e ∧ q.tag = prot then l ++ { q with start := s } :: r'
      else l ++ ⟨s, e, prot⟩ :: r
    | [] => l ++ [⟨s, e, prot⟩]

/-- The length of all ranges: the sum `vma_add` holds against `vm_limit`. -/
def totalLen (us : Us) (s e : ℕ) : ℕ :=
  us.vma.foldl (fun t v => u64 (t + u64 (v.stop + 2 ^ 64 - v.start))) (u64 (e + 2 ^ 64 - s))

/-- `vma_add`: a range where nothing is, joined to its neighbours of the same protection. -/
def vmaAdd (us : Us) (s e prot : ℕ) (mem : Bool) : Option Us :=
  if us.vmLimit ≠ 0 ∧ (totalLen us s e > us.vmLimit ∨ us.nvma ≥ us.vmaLimit) then none
  else
    (vmaRoom us 1 mem).map fun us =>
      { us with vma := addAt s e prot (us.vma.takeWhile fun v => decide (v.start < s))
                          (us.vma.dropWhile fun v => decide (v.start < s)) }

theorem vmaAtLoop_some {v : List Uvma} {a lo hi i : ℕ} (h : vmaAtLoop v a lo hi = some i) :
    ∃ x, v[i]? = some x ∧ x.Has a := by
  fun_induction vmaAtLoop v a lo hi with
  | case1 => exact absurd h (by simp)
  | case2 _ _ _ _ _ _ _ ih => exact ih h
  | case3 _ _ _ _ _ _ _ _ ih => exact ih h
  | case4 lo hi _ mid x hx h1 h2 =>
    obtain rfl : mid = i := Option.some_inj.mp h
    exact ⟨x, hx, by unfold Range.Has; omega⟩
  | case5 => exact absurd h (by simp)

/-- The range `us->vma[vma_at(us, a)]`. -/
def rangeAt (us : Us) (a : ℕ) : Option Uvma := (vmaAt us a).bind fun i => us.vma[i]?

theorem rangeAt_has {us : Us} {a : ℕ} {x : Uvma} (h : rangeAt us a = some x) :
    x ∈ us.vma ∧ x.Has a := by
  obtain ⟨i, hi, hx⟩ := Option.bind_eq_some_iff.mp h
  obtain ⟨y, hy, hya⟩ := vmaAtLoop_some hi
  obtain rfl : x = y := Option.some_inj.mp (hx.symm.trans hy)
  exact ⟨List.mem_of_getElem? hx, hya⟩

/-- The loop of `vma_covers`, from address `a` on. -/
def vmaCoversFrom (us : Us) (a e need : ℕ) : Bool :=
  if _h : a < e then
    match _hx : rangeAt us a with
    | none => false
    | some x => if x.tag &&& need ≠ need then false else vmaCoversFrom us x.stop e need
  else true
termination_by e - a
decreasing_by
  have h2 := (rangeAt_has _hx).2.2
  omega

/-- `vma_covers`: every byte of `[s, e)` is mapped, with all of `need`'s protection bits. -/
def vmaCovers (us : Us) (s e need : ℕ) : Bool := vmaCoversFrom us s e need

/-- `vma_overlaps` -/
def vmaOverlaps (us : Us) (s e : ℕ) : Bool :=
  us.vma.any fun v => decide (v.start < e) && decide (v.stop > s)

/-- The loop of `vm_find`: the first address from `a` on with `len` free bytes before the next
range. -/
def findGap (len : ℕ) : List Uvma → ℕ → ℕ
  | [], a => a
  | v :: l, a =>
    if v.start ≥ a ∧ v.start - a ≥ len then a
    else findGap len l (if v.stop > a then v.stop else a)

/-- `vm_find`: free addresses for `len` bytes, the hint if it is free, else the first gap;
`0` if there is none. -/
def vmFind (us : Us) (len hint : ℕ) : ℕ :=
  if hint ≠ 0 ∧ hint % 4096 = 0 ∧ inRegion hint len ∧ ¬ vmaOverlaps us hint (u64 (hint + len)) then
    hint
  else
    let a := findGap len us.vma uvmBase
    if inRegion a len then a else 0

/-- `(len + 4095) & ~4095ull` -/
def roundPages (len : ℕ) : ℕ := u64 (len + 4095) / 4096 * 4096

/-- `uvm_map`, its ranges: the address (`0`: failed) and the address space after it.  `mem`
says for each growth of the array, first in `vma_cut` and then in `vma_add`, whether there is
memory for it. -/
def uvmMap (us : Us) (addr len prot : ℕ) (fixed : Bool) (mem : Bool × Bool) : ℕ × Us :=
  if len = 0 ∨ len > uvmSize then (0, us)
  else
    let len := roundPages len
    let prot := prot &&& uvmRWX
    if fixed then
      if addr % 4096 = 0 ∧ inRegion addr len then
        match vmaCut us addr (u64 (addr + len)) mem.1 with
        | none => (0, us)
        | some us =>
          match vmaAdd us addr (u64 (addr + len)) prot mem.2 with
          | none => (0, us)
          | some us => (addr, us)
      else (0, us)
    else
      let a := vmFind us len addr
      if a = 0 then (0, us)
      else
        match vmaAdd us a (u64 (a + len)) prot mem.2 with
        | none => (0, us)
        | some us => (a, us)

/-- `uvm_unmap`, its ranges: whether it returned `0`, and the address space after it. -/
def uvmUnmap (us : Us) (addr len : ℕ) (mem : Bool) : Bool × Us :=
  if addr % 4096 ≠ 0 ∨ len = 0 then (false, us)
  else
    let len := roundPages len
    if ¬ inRegion addr len then (false, us)
    else
      match vmaCut us addr (u64 (addr + len)) mem with
      | none => (false, us)
      | some us => (true, us)

/-- The first loop of `uvm_protect`: whether a range of device pages is met from `a` on. -/
def devFrom (us : Us) (a e : ℕ) : Bool :=
  if _h : a < e then
    match _hx : rangeAt us a with
    | none => false
    | some x => if x.tag &&& uvmDev ≠ 0 then true else devFrom us x.stop e
  else false
termination_by e - a
decreasing_by
  have h2 := (rangeAt_has _hx).2.2
  omega

/-- `uvm_protect`, its ranges: whether it returned `0`, and the address space after it. -/
def uvmProtect (us : Us) (addr len prot : ℕ) (mem : Bool × Bool) : Bool × Us :=
  if addr % 4096 ≠ 0 ∨ len = 0 then (false, us)
  else
    let len := roundPages len
    let prot := prot &&& uvmRWX
    if ¬ inRegion addr len then (false, us)
    else if ¬ devFrom us addr (u64 (addr + len)) ∧ vmaCovers us addr (u64 (addr + len)) 0 then
      match vmaCut us addr (u64 (addr + len)) mem.1 with
      | none => (false, us)
      | some us =>
        match vmaAdd us addr (u64 (addr + len)) prot mem.2 with
        | none => (false, us)
        | some us => (true, us)
    else (false, us)

end BananaOS.Uspace
