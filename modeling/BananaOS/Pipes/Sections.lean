import Mathlib.Algebra.Order.Ring.Nat
import Mathlib.Data.Fintype.Card
import Mathlib.Logic.Function.Basic

/-!
# Kernel pipes and socket pairs

`kernel/kfile.c`.  A description (`Kfile`) is what descriptors point at, counted by `refs`; an end
of a pipe reads from one direction and writes into another, and a direction (`Kpipe`) counts the
descriptions on either side of it.  The two counts are independent: `kpipe_shutdown` takes an end
off a direction while the description lives on, and closing one takes it off both.

Each section under `g_lock` is one definition.  Two calls leave the lock in the middle: the first
write into a direction allocates the ring outside it (`Pc.writeAlloc`), and `kfile_put` counts down
before it takes the lock (`Pc.putDrop`).  `step` runs one task from one of these places to the
next, so that a run of `step` is an interleaving at the granularity of the sections.

Addresses are handed out by the allocator and may be handed out again after `kfree`, so nothing
here assumes that two directions at different times differ.  Touching memory that is not allocated,
or freeing it again, sets `fault`.  Beside the memory stands a log for each direction of what
happened to it since it was made: what was written and read, the ends that left, and its `kfree`.

The waiting (`g_gen`, `g_waiter`, `kpipe_wait`) moves no bytes and is left out, and so are the
fields of a description that only other kinds of it use.
-/

namespace BananaOS.Pipes

/-- `KPIPE_SIZE` -/
def kpipeSize : ℕ := 65536

/-- `KPIPE_ATOMIC` -/
def kpipeAtomic : ℕ := 4096

/-- `-EBADF`, `-EAGAIN`, `-ENOMEM`, `-EINVAL`, `-EPIPE`, `-ENOTSOCK` -/
def ebadf : ℤ := -9
def eagain : ℤ := -11
def enomem : ℤ := -12
def einval : ℤ := -22
def epipe : ℤ := -32
def enotsock : ℤ := -88

/-- `KF_FILE` .. `KF_DIR` -/
inductive KfType where
  | file
  | sock
  | pipe
  | cons
  | ptm
  | pts
  | dev
  | dir
  deriving DecidableEq, Repr

/-- The two sides of a direction: a description reads from its `in` and writes into its `out`. -/
inductive Side where
  | reading
  | writing
  deriving DecidableEq, Repr

/-- `kfile_t`, with `in` and `out` as `dir .reading` and `dir .writing` -/
structure Kfile where
  type : KfType
  refs : ℤ
  dir : Side → Option ℕ
  isSock : Bool

/-- `struct kpipe`, with `readers` and `writers` as `count .reading` and `count .writing` -/
structure Kpipe where
  buf : Option (ℕ → UInt8)
  head : ℕ
  len : ℕ
  count : Side → ℤ

/-- What happened to a direction. -/
inductive Ev where
  | read (n : ℕ) (bytes : List UInt8) (ret : ℤ)
  | write (data : List UInt8) (ret : ℤ)
  | left (side : Side)
  | freed
  deriving DecidableEq, Repr

/-- The memory of the descriptions and directions, with the log of each direction. -/
structure Kst where
  file : ℕ → Option Kfile
  pipe : ℕ → Option Kpipe
  log : ℕ → List Ev
  fault : Bool

/-! ## The ring -/

/-- `memcpy` of `n` bytes out of the ring -/
def copyOut (c : ℕ → UInt8) (o n : ℕ) : List UInt8 := (List.range n).map fun i => c (o + i)

/-- `memcpy` into the ring -/
def copyIn (c : ℕ → UInt8) (o : ℕ) (src : List UInt8) : ℕ → UInt8 := fun i =>
  if o ≤ i ∧ i < o + src.length then src.getD (i - o) 0 else c i

namespace Kpipe

/-- The bytes of the ring; a direction without one is never asked for any. -/
def cells (p : Kpipe) : ℕ → UInt8 := p.buf.getD fun _ => 0

/-- `kpipe_read`, once there is something: the bytes, and the ring without them. -/
def take (p : Kpipe) (n : ℕ) : List UInt8 × Kpipe :=
  let take := if p.len < n then p.len else n
  let first := if kpipeSize - p.head > take then take else kpipeSize - p.head
  (copyOut p.cells p.head first ++ if take > first then copyOut p.cells 0 (take - first) else [],
    { p with head := (p.head + take) % kpipeSize, len := p.len - take })

/-- `kpipe_write`, once there is a ring: how many bytes went in (or `-EAGAIN`), and the ring. -/
def put (p : Kpipe) (data : List UInt8) : ℤ × Kpipe :=
  let n := data.length
  let room := kpipeSize - p.len
  if room = 0 ∨ (n ≤ kpipeAtomic ∧ room < n) then (eagain, p)
  else
    let put := if room < n then room else n
    let pos := (p.head + p.len) % kpipeSize
    let first := if kpipeSize - pos > put then put else kpipeSize - pos
    let c := copyIn p.cells pos (data.take first)
    let c := if put > first then copyIn c 0 ((data.drop first).take (put - first)) else c
    (put, { p with buf := some c, len := p.len + put })

end Kpipe

namespace Kst

def setFile (s : Kst) (f : ℕ) (k : Option Kfile) : Kst :=
  { s with file := Function.update s.file f k }

def setPipe (s : Kst) (p : ℕ) (q : Option Kpipe) : Kst :=
  { s with pipe := Function.update s.pipe p q }

def emit (s : Kst) (p : ℕ) (e : Ev) : Kst :=
  { s with log := Function.update s.log p (s.log p ++ [e]) }

/-- Memory was touched that is not allocated. -/
def crash (s : Kst) : Kst := { s with fault := true }

/-- `kfree(p->buf); kfree(p)` -/
def kfreePipe (s : Kst) (p : ℕ) : Kst :=
  if (s.pipe p).isNone then s.crash else (s.setPipe p none).emit p .freed

/-- `kfree(f)` -/
def kfreeFile (s : Kst) (f : ℕ) : Kst :=
  if (s.file f).isNone then s.crash else s.setFile f none

/-! ## Sections -/

/-- An end lets go of a direction; a direction nobody holds goes. -/
def dropSide (s : Kst) (f : ℕ) (side : Side) : Kst :=
  match s.file f with
  | none => s.crash
  | some k =>
    match k.dir side with
    | none => s
    | some p =>
      match s.pipe p with
      | none => s.crash
      | some q =>
        let q := { q with count := Function.update q.count side (q.count side - 1) }
        let s := s.setFile f (some { k with dir := Function.update k.dir side none })
        let s := (s.setPipe p (some q)).emit p (.left side)
        if q.count .reading ≤ 0 ∧ q.count .writing ≤ 0 then s.kfreePipe p else s

/-- `drop_in` -/
def dropIn (s : Kst) (f : ℕ) : Kst := s.dropSide f .reading

/-- `drop_out` -/
def dropOut (s : Kst) (f : ℕ) : Kst := s.dropSide f .writing

/-- `kfile_put` of the last reference to an end, from the lock on -/
def putLast (s : Kst) (f : ℕ) : Kst := ((s.dropIn f).dropOut f).kfreeFile f

/-- `make_pair`, on memory for the descriptions `x`, `y` and the directions `p`, `q` -/
def makePair (s : Kst) (sock : Bool) (x y p q : ℕ) : Kst :=
  let fresh : Kpipe := ⟨none, 0, 0, fun _ => 1⟩
  let other := if sock then some q else none
  let end1 : Kfile := ⟨.pipe, 1, fun | .reading => some p | .writing => other, sock⟩
  let end2 : Kfile := ⟨.pipe, 1, fun | .reading => other | .writing => some p, sock⟩
  let s := (s.setFile x (some end1)).setFile y (some end2)
  let s := { s.setPipe p (some fresh) with log := Function.update s.log p [] }
  if sock then { s.setPipe q (some fresh) with log := Function.update s.log q [] } else s

/-- `kpipe_read`: the result, the bytes -/
def kpipeRead (s : Kst) (f n : ℕ) : ℤ × List UInt8 × Kst :=
  match s.file f with
  | none => (0, [], s.crash)
  | some k =>
    if k.type ≠ .pipe then (ebadf, [], s)
    else
      match k.dir .reading with
      | none => (if k.isSock then 0 else ebadf, [], s)
      | some p =>
        match s.pipe p with
        | none => (0, [], s.crash)
        | some q =>
          if q.len = 0 then
            let ret := if q.count .writing ≠ 0 then (if n ≠ 0 then eagain else 0) else 0
            (ret, [], s.emit p (.read n [] ret))
          else
            let (bytes, q) := q.take n
            (bytes.length, bytes, (s.setPipe p (some q)).emit p (.read n bytes bytes.length))

/-- What a write's first section comes to: a result, or the ring is to be allocated for `p`. -/
inductive WriteRc where
  | ret (r : ℤ)
  | alloc (p : ℕ)
  deriving DecidableEq, Repr

/-- The bytes go into the ring, which the direction has. -/
def writeRing (s : Kst) (p : ℕ) (q : Kpipe) (data : List UInt8) : ℤ × Kst :=
  let (r, q) := q.put data
  (r, (s.setPipe p (some q)).emit p (.write data r))

/-- `kpipe_write`, up to its end or to where it leaves the lock to allocate the ring -/
def kpipeWrite (s : Kst) (f : ℕ) (data : List UInt8) : WriteRc × Kst :=
  match s.file f with
  | none => (.ret 0, s.crash)
  | some k =>
    if k.type ≠ .pipe then (.ret ebadf, s)
    else if data = [] then (.ret 0, s)
    else
      match k.dir .writing with
      | none => (.ret (if k.isSock then epipe else ebadf), s)
      | some p =>
        match s.pipe p with
        | none => (.ret 0, s.crash)
        | some q =>
          if q.count .reading ≤ 0 then (.ret epipe, s.emit p (.write data epipe))
          else if q.buf.isNone then (.alloc p, s)
          else
            let (r, s) := s.writeRing p q data
            (.ret r, s)

/-- `kpipe_write` after the allocation, which gave a ring if `ok` -/
def writeGoOn (s : Kst) (f p : ℕ) (data : List UInt8) (ok : Bool) : ℤ × Kst :=
  if ok = false then (enomem, s)
  else
    match s.file f with
    | none => (0, s.crash)
    | some k =>
      if k.dir .writing ≠ some p then (epipe, s)
      else
        match s.pipe p with
        | none => (0, s.crash)
        | some q => s.writeRing p { q with buf := some q.cells } data

/-- `kpipe_shutdown` -/
def kpipeShutdown (s : Kst) (f : ℕ) (how : ℤ) : ℤ × Kst :=
  match s.file f with
  | none => (0, s.crash)
  | some k =>
    if k.type ≠ .pipe then (ebadf, s)
    else if k.isSock = false then (enotsock, s)
    else if how < 0 ∨ how > 2 then (einval, s)
    else
      let s := if how ≠ 1 then s.dropIn f else s
      let s := if how ≠ 0 then s.dropOut f else s
      (0, s)

/-- A reference more or less: `__sync_fetch_and_add(&f->refs, d)` -/
def addRefs (s : Kst) (f : ℕ) (d : ℤ) : Kst :=
  match s.file f with
  | none => s.crash
  | some k => s.setFile f (some { k with refs := k.refs + d })

end Kst

/-! ## Tasks -/

/-- Where a task is, between two sections. -/
inductive Pc where
  | idle
  /-- `kpipe_write`, allocating the ring of the direction `p` -/
  | writeAlloc (f p : ℕ) (data : List UInt8)
  /-- `kfile_put`, having given up the last reference to an end -/
  | putDrop (f : ℕ)
  deriving DecidableEq, Repr

/-- The description that a call in the middle holds a reference to. -/
def Pc.holds : Pc → Option ℕ
  | .writeAlloc f _ _ => some f
  | _ => none

/-- What a task may call.  A creation comes with the memory it gets, `none` where there is none. -/
inductive Call where
  | kfileNew (type : KfType) (f : Option ℕ)
  | kfilePipe (mem : Option (ℕ × ℕ × ℕ))
  | kfileSocketpair (mem : Option (ℕ × ℕ × ℕ × ℕ))
  | kfileRef (f : ℕ)
  | kfilePut (f : ℕ)
  | kpipeRead (f n : ℕ)
  | kpipeWrite (f : ℕ) (data : List UInt8)
  | kpipeShutdown (f : ℕ) (how : ℤ)

/-- The descriptions and the tasks that use them. -/
structure Sys (T : Type*) where
  st : Kst
  pc : T → Pc

namespace Sys

variable {T : Type*} [DecidableEq T]

/-- Task `t` goes to `p`. -/
def goto (s : Sys T) (t : T) (p : Pc) : Sys T := { s with pc := Function.update s.pc t p }

/-- `kfile_put`, up to the lock: the last reference to an end leaves its section to be run, the
last one to a description of another kind ends it. -/
def startPut (s : Sys T) (t : T) (f : ℕ) : Sys T :=
  let st := s.st.addRefs f (-1)
  match st.file f with
  | none => { s with st := st }
  | some k =>
    if k.refs > 0 then { s with st := st }
    else if k.type = .pipe then { s with st := st }.goto t (.putDrop f)
    else { s with st := st.kfreeFile f }

/-- A task with nothing to do makes a call. -/
def start (s : Sys T) (t : T) : Call → Sys T
  | .kfileNew type (some f) =>
    { s with st := s.st.setFile f (some ⟨type, 1, fun _ => none, false⟩) }
  | .kfileNew _ none => s
  | .kfilePipe (some (x, y, p)) => { s with st := s.st.makePair false x y p 0 }
  | .kfilePipe none => s
  | .kfileSocketpair (some (x, y, p, q)) => { s with st := s.st.makePair true x y p q }
  | .kfileSocketpair none => s
  | .kfileRef f => { s with st := s.st.addRefs f 1 }
  | .kfilePut f => s.startPut t f
  | .kpipeRead f n => { s with st := (s.st.kpipeRead f n).2.2 }
  | .kpipeWrite f data =>
    match s.st.kpipeWrite f data with
    | (.ret _, st) => { s with st := st }
    | (.alloc p, st) => { s with st := st }.goto t (.writeAlloc f p data)
  | .kpipeShutdown f how => { s with st := (s.st.kpipeShutdown f how).2 }

/-- One task's next section: `call` is what it calls when it has nothing to do, `ok` whether the
allocation it is in succeeds. -/
def step (s : Sys T) (t : T) (call : Call) (ok : Bool) : Sys T :=
  match s.pc t with
  | .idle => s.start t call
  | .writeAlloc f p data => { s with st := (s.st.writeGoOn f p data ok).2 }.goto t .idle
  | .putDrop f => { s with st := s.st.putLast f }.goto t .idle

/-- The references to `f` that calls in the middle hold. -/
def busy [Fintype T] (pc : T → Pc) (f : ℕ) : ℕ :=
  (Finset.univ.filter fun t => (pc t).holds = some f).card

/-- The caller holds a reference to `f` while the call runs (`HOLD` in `kernel/app.c`): one that
no call in the middle holds. -/
def Held [Fintype T] (s : Sys T) (f : ℕ) : Prop :=
  ∃ k, s.st.file f = some k ∧ (busy s.pc f : ℤ) < k.refs

/-- What the callers keep to, and the allocator: a call is on a description the caller holds a
reference to, and new memory is not in use. -/
def Allowed [Fintype T] (s : Sys T) : Call → Prop
  | .kfileNew _ f => ∀ x, f = some x → s.st.file x = none
  | .kfilePipe mem => ∀ x y p, mem = some (x, y, p) →
      s.st.file x = none ∧ s.st.file y = none ∧ x ≠ y ∧ s.st.pipe p = none
  | .kfileSocketpair mem => ∀ x y p q, mem = some (x, y, p, q) →
      s.st.file x = none ∧ s.st.file y = none ∧ x ≠ y ∧
        s.st.pipe p = none ∧ s.st.pipe q = none ∧ p ≠ q
  | .kfileRef f => s.Held f
  | .kfilePut f => s.Held f
  | .kpipeRead f _ => s.Held f
  | .kpipeWrite f _ => s.Held f
  | .kpipeShutdown f _ => s.Held f

/-- A write comes back from allocating the ring, its own end still open for writing, and the last
reader of the direction has gone meanwhile. -/
def Late (s : Sys T) (t : T) : Prop :=
  ∃ f p data k q, s.pc t = .writeAlloc f p data ∧ s.st.file f = some k ∧
    k.dir .writing = some p ∧ s.st.pipe p = some q ∧ q.count .reading ≤ 0

/-- No descriptions, every task idle. -/
def boot : Sys T := ⟨⟨fun _ => none, fun _ => none, fun _ => [], false⟩, fun _ => .idle⟩

/-- The states that an interleaving of the tasks' sections leads to, when every step keeps to `P`. -/
inductive Reach [Fintype T] (P : Sys T → T → Prop) : Sys T → Prop
  | boot : Reach P boot
  | step {s : Sys T} (h : Reach P s) (t : T) (call : Call) (ok : Bool) (hc : s.Allowed call)
      (hp : P s t) : Reach P (s.step t call ok)

end Sys

end BananaOS.Pipes
