import BananaOS.Textbuf.Utf8

/-!
# The text buffer

`kernel/textbuf.c`: the lines of a text, a cursor (a byte in a line) and an optional selection.
A `tb_line_t` is the list of its bytes, without the terminating zero, and the line table the list
of its lines.  The coordinates are C ints that are never negative between two calls; a call that
takes one from outside (`tb_goto`) or computes one (`tb_move`) brings it into the text with
`clamp`, which takes it as an integer.

Capacities are left out.  Whether a line or the table has room for what it shall hold, or gets it
from `kmalloc`, is the next answer of the `Heap`; what `line_reserve` and `lines_reserve` refuse
without asking (a line of `2 ^ 31` bytes, more than `MAX_LINES` lines) they refuse here too.
Every call comes with its own answers.
-/

namespace BananaOS.Textbuf

/-- `'\n'` -/
def nl : UInt8 := 10

/-- `'\r'` -/
def cr : UInt8 := 13

/-- `MAX_LINES` -/
def maxLines : ℕ := 200000

/-- `textbuf_t` -/
structure Buf where
  lines : List (List UInt8)
  cx : ℕ
  cy : ℕ
  wantX : ℕ
  sel : Bool
  ax : ℕ
  ay : ℕ
  dirty : Bool
  deriving DecidableEq, Repr

/-- `t->lines[y]` -/
def Buf.line (t : Buf) (y : ℕ) : List UInt8 := t.lines.getD y []

/-- `t->n` -/
def Buf.n (t : Buf) : ℕ := t.lines.length

/-- What the heap answers to the requests of a call, one after the other. -/
abbrev Heap := ℕ → Bool

/-- The answers that are left after the first. -/
def Heap.rest (h : Heap) : Heap := fun i => h (i + 1)

/-- A heap that grants everything. -/
def Heap.full : Heap := fun _ => true

/-- `line_reserve`; `need` is an unsigned 32-bit number -/
def lineReserve (h : Heap) (need : ℕ) : Bool × Heap :=
  if need % 2 ^ 32 ≥ 0x80000000 then (false, h) else (h 0, h.rest)

/-- `lines_reserve` -/
def linesReserve (h : Heap) (need : ℕ) : Bool × Heap :=
  if need > maxLines then (false, h) else (h 0, h.rest)

/-- `insert_line`: a new empty line at index `i` -/
def insertLine (h : Heap) (lines : List (List UInt8)) (i : ℕ) :
    Option (List (List UInt8)) × Heap :=
  match linesReserve h (lines.length + 1) with
  | (false, h) => (none, h)
  | (true, h) =>
    match lineReserve h 0 with
    | (false, h) => (none, h)
    | (true, h) => (some (lines.take i ++ [] :: lines.drop i), h)

/-- `remove_line` -/
def removeLine (lines : List (List UInt8)) (i : ℕ) : List (List UInt8) :=
  lines.take i ++ lines.drop (i + 1)

/-- All fields zero. -/
def Buf.zero : Buf := ⟨[], 0, 0, 0, false, 0, 0, false⟩

/-- `clamp`, of the cursor `(x, y)` -/
def clamp (t : Buf) (x y : ℤ) : Buf :=
  let y := if y < 0 then 0 else y
  let y := if y ≥ t.n then (t.n : ℤ) - 1 else y
  let l := t.line y.toNat
  let x := if x < 0 then 0 else x
  let x := if x > l.length then (l.length : ℤ) else x
  { t with cx := u8Back l x.toNat, cy := y.toNat }

/-- `tb_col` -/
def tbCol (t : Buf) (y x : ℕ) : ℕ :=
  if y ≥ t.n then x else u8Width ((t.line y).take x)

/-- `tb_byte` -/
def tbByte (t : Buf) (y col : ℕ) : ℕ :=
  if y ≥ t.n then col else u8ByteAtCol (t.line y) col

/-- A line of the text as `tb_load` keeps it: without a carriage return at its end. -/
def dropCr (l : List UInt8) : List UInt8 :=
  if l.getLast? = some cr then l.dropLast else l

/-- The loop of `tb_load`: the lines done (the last of them is still empty), the bytes of the text
from `start` to `i`, and those from `i` on. -/
def tbLoadLoop (h : Heap) (done : List (List UInt8)) (l : List UInt8) :
    List UInt8 → Option (List (List UInt8))
  | [] =>
    match lineReserve h (dropCr l).length with
    | (false, _) => none
    | (true, _) => some (done.dropLast ++ [dropCr l])
  | b :: text =>
    if b = nl then
      match lineReserve h (dropCr l).length with
      | (false, _) => none
      | (true, h) =>
        let done := done.dropLast ++ [dropCr l]
        match insertLine h done done.length with
        | (none, _) => none
        | (some done, h) => tbLoadLoop h done [] text
    else tbLoadLoop h done (l ++ [b]) text

/-- `tb_load`: the buffer after it, and whether it returned 0.  `text` is `none` where C has the
null pointer, with the length `len`. -/
def tbLoad (h : Heap) (t : Buf) (text : Option (List UInt8)) (len : ℕ) : Buf × Bool :=
  if len ≥ 0x80000000 ∨ (text = none ∧ len ≠ 0) then (t, false)
  else
    match insertLine h [] 0 with
    | (none, _) => (t, false)
    | (some done, h) =>
      match tbLoadLoop h done [] (text.getD []) with
      | none => (t, false)
      | some ls => ({ Buf.zero with lines := ls }, true)

/-- `tb_sel_bounds`: `x0`, `y0`, `x1`, `y1` -/
def tbSelBounds (t : Buf) : Option (ℕ × ℕ × ℕ × ℕ) :=
  if t.sel = false ∨ (t.ax = t.cx ∧ t.ay = t.cy) then none
  else if t.ay < t.cy ∨ (t.ay = t.cy ∧ t.ax < t.cx) then some (t.ax, t.ay, t.cx, t.cy)
  else some (t.cx, t.cy, t.ax, t.ay)

/-- `for (int y = y1; y > y0; y--) remove_line(t, y)`, with `k = y1 - y0` -/
def removeLines (lines : List (List UInt8)) (y0 : ℕ) : ℕ → List (List UInt8)
  | 0 => lines
  | k + 1 => removeLines (removeLine lines (y0 + (k + 1))) y0 k

/-- `tb_sel_delete`, and the answers left -/
def tbSelDelete (h : Heap) (t : Buf) : Buf × Heap :=
  match tbSelBounds t with
  | none => ({ t with sel := false }, h)
  | some (x0, y0, x1, y1) =>
    let a := t.line y0
    let tail := (t.line y1).drop x1
    let (ok, h) := lineReserve h (x0 + tail.length)
    let ls := if ok then t.lines.set y0 (a.take x0 ++ tail) else t.lines
    ({ t with
        lines := removeLines ls y0 (y1 - y0), cx := x0, cy := y0, sel := false, dirty := true }, h)

/-- The loop of `tb_insert`, with the first `skip` bytes of the text behind it (`i = j - 1`):
the buffer, and whether the loop ran to its end. -/
def tbInsertLoop (h : Heap) (t : Buf) : ℕ → List UInt8 → Buf × Bool
  | _, [] => (t, true)
  | skip + 1, _ :: s => tbInsertLoop h t skip s
  | 0, c :: s =>
    if c = cr then tbInsertLoop h t 0 s
    else if c = nl then
      match insertLine h t.lines (t.cy + 1) with
      | (none, _) => (t, false)
      | (some ls, h) =>
        let l := t.line t.cy
        let rest := l.drop t.cx
        let (ok, h) := lineReserve h rest.length
        let ls := if ok then (ls.set (t.cy + 1) rest).set t.cy (l.take t.cx) else ls
        tbInsertLoop h { t with lines := ls, cy := t.cy + 1, cx := 0 } 0 s
    else
      -- a run of ordinary characters at once
      let l := t.line t.cy
      let run := c :: s.takeWhile fun b => b ≠ nl ∧ b ≠ cr
      match lineReserve h (l.length + run.length) with
      | (false, _) => (t, false)
      | (true, h) =>
        let l := l.take t.cx ++ run ++ l.drop t.cx
        tbInsertLoop h { t with lines := t.lines.set t.cy l, cx := t.cx + run.length }
          (run.length - 1) s

/-- `tb_insert` -/
def tbInsert (h : Heap) (t : Buf) (s : List UInt8) : Buf :=
  let (t, h) := if t.sel then tbSelDelete h t else (t, h)
  match tbInsertLoop h { t with sel := false } 0 s with
  | (t, false) => t
  | (t, true) => { t with wantX := tbCol t t.cy t.cx, dirty := true }

/-- `tb_backspace` -/
def tbBackspace (h : Heap) (t : Buf) : Buf :=
  if (tbSelBounds t).isSome then (tbSelDelete h t).1
  else
    let t := { t with sel := false }
    if t.cx > 0 then
      let l := t.line t.cy
      let pv := u8Prev l t.cx
      let t := { t with lines := t.lines.set t.cy (l.take pv ++ l.drop t.cx), cx := pv }
      { t with wantX := tbCol t t.cy t.cx, dirty := true }
    else if t.cy > 0 then
      let p := t.line (t.cy - 1)
      let l := t.line t.cy
      match lineReserve h (p.length + l.length) with
      | (false, _) => t
      | (true, _) =>
        let ls := removeLine (t.lines.set (t.cy - 1) (p ++ l)) t.cy
        let t := { t with lines := ls, cy := t.cy - 1, cx := p.length }
        { t with wantX := tbCol t t.cy t.cx, dirty := true }
    else t

/-- `tb_delete` -/
def tbDelete (h : Heap) (t : Buf) : Buf :=
  if (tbSelBounds t).isSome then (tbSelDelete h t).1
  else
    let t := { t with sel := false }
    let l := t.line t.cy
    if t.cx < l.length then
      let d := u8Next l t.cx - t.cx
      { t with lines := t.lines.set t.cy (l.take t.cx ++ l.drop (t.cx + d)), dirty := true }
    else if t.cy < t.n - 1 then tbBackspace h { t with cy := t.cy + 1, cx := 0 }
    else t

/-- `start_sel` -/
def startSel (t : Buf) (select : Bool) : Buf :=
  let t := if select = true ∧ t.sel = false then { t with sel := true, ax := t.cx, ay := t.cy }
    else t
  if select = false then { t with sel := false } else t

/-- `tb_move` -/
def tbMove (t : Buf) (dx dy : ℤ) (select : Bool) : Buf :=
  let t := startSel t select
  if dy ≠ 0 then
    let cy : ℤ := t.cy + dy
    let (cy, t) := if cy < 0 then ((0 : ℤ), { t with wantX := 0 }) else (cy, t)
    let (cy, t) := if cy ≥ t.n then
        ((t.n : ℤ) - 1, { t with wantX := (t.line (t.n - 1)).length })
      else (cy, t)
    clamp t (tbByte t cy.toNat t.wantX) cy
  else
    let l := t.line t.cy
    let t :=
      if dx < 0 then
        if t.cx > 0 then { t with cx := u8Prev l t.cx }
        else if t.cy > 0 then { t with cy := t.cy - 1, cx := (t.line (t.cy - 1)).length }
        else t
      else if dx > 0 then
        if t.cx < l.length then { t with cx := u8Next l t.cx }
        else if t.cy < t.n - 1 then { t with cy := t.cy + 1, cx := 0 }
        else t
      else t
    { t with wantX := tbCol t t.cy t.cx }

/-- `tb_home` -/
def tbHome (t : Buf) (select : Bool) : Buf :=
  { startSel t select with cx := 0, wantX := 0 }

/-- `tb_end` -/
def tbEnd (t : Buf) (select : Bool) : Buf :=
  let t := startSel t select
  let t := { t with cx := (t.line t.cy).length }
  { t with wantX := tbCol t t.cy t.cx }

/-- `tb_goto` -/
def tbGoto (t : Buf) (x y : ℤ) (select : Bool) : Buf :=
  let t := clamp (startSel t select) x y
  { t with wantX := tbCol t t.cy t.cx }

/-- `tb_select_all` -/
def tbSelectAll (t : Buf) : Buf :=
  { t with sel := true, ax := 0, ay := 0, cy := t.n - 1, cx := (t.line (t.n - 1)).length }

/-- `tb_cut_line`: the buffer after it, and the line it returns. -/
def tbCutLine (h : Heap) (t : Buf) : Buf × Option (List UInt8) :=
  if h 0 then
    let out := t.line t.cy ++ [nl]
    let ls := if t.n > 1 then removeLine t.lines t.cy else t.lines.set t.cy []
    let t := clamp { t with lines := ls, sel := false } t.cx t.cy
    ({ t with cx := 0, dirty := true }, some out)
  else (t, none)

/-- A call on the buffer that may change its text, its cursor or its selection. -/
inductive Op where
  | load (text : List UInt8)
  | insert (s : List UInt8)
  | backspace
  | delete
  | selDelete
  | cutLine
  | move (dx dy : ℤ) (select : Bool)
  | home (select : Bool)
  | «end» (select : Bool)
  | goto (x y : ℤ) (select : Bool)
  | selectAll
  deriving DecidableEq, Repr

/-- The buffer after a call. -/
def step (h : Heap) (t : Buf) : Op → Buf
  | .load text => (tbLoad h t (some text) text.length).1
  | .insert s => tbInsert h t s
  | .backspace => tbBackspace h t
  | .delete => tbDelete h t
  | .selDelete => (tbSelDelete h t).1
  | .cutLine => (tbCutLine h t).1
  | .move dx dy select => tbMove t dx dy select
  | .home select => tbHome t select
  | .end select => tbEnd t select
  | .goto x y select => tbGoto t x y select
  | .selectAll => tbSelectAll t

end BananaOS.Textbuf
