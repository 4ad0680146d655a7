import BananaOS.Lib.Checked
import BananaOS.Lib.RingBuf
import BananaOS.Emulator.Widths
import Mathlib.Data.List.DropRight

/-!
# The emulator's screens

What a terminal shows is two screens of lines of cells, the scrollback the main screen's lines go
into, and three cursors.  A line owns a block of cells.  Blocks are told apart by a number
(`Line.id`): `malloc` hands out the next number, `free` writes the number down in `freed`, and
`realloc` does both, so that a line that is used after its block went shows.

All accesses to lines and cells are checked: a function that would touch a cell outside its line, or
a line outside its screen, is `none`.  Allocations succeed.  Sizes and positions are integers without
a bound; the sums the source forms leave an `int` only for a screen of more than `2 ^ 31 - 10 ^ 6`
columns or rows.  What only the drawing reads (the dirty rows, `scrolled`) is left out.
-/

namespace BananaOS.Emulator

open BananaOS.Lib BananaOS.Lib.Checked

/-! ## The data -/

/-- The flags of an attribute word that a program can set. -/
structure Attr where
  bold : Bool := false
  faint : Bool := false
  italic : Bool := false
  underline : Bool := false
  blink : Bool := false
  reverse : Bool := false
  invisible : Bool := false
  strike : Bool := false
  deriving DecidableEq, Repr

/-- A cell.  `wide` and `cont` are the two flags `VT_WIDE` and `VT_WIDE_CONT` of its attribute
word. -/
structure Cell where
  ch : ℕ
  fg : ℕ
  bg : ℕ
  attr : Attr
  wide : Bool
  cont : Bool
  deriving DecidableEq, Repr

/-- A line; `len` is the number of its cells. -/
structure Line where
  id : ℕ
  c : List Cell
  wrapped : Bool

def Line.len (l : Line) : ℤ := l.c.length

structure Cursor where
  x : ℤ
  y : ℤ
  pending : Bool
  fg : ℕ
  bg : ℕ
  attr : Attr
  origin : Bool
  g0Lines : Bool
  g1Lines : Bool
  gl1 : Bool

inductive Screen where
  | pri
  | alt
  deriving DecidableEq

/-- The scrollback, and the blocks handed out and given back. -/
structure Store where
  sbMax : ℤ
  sb : RingBuf Line
  next : ℕ
  freed : List ℕ

/-- The screens, the cursors and the scrolling region. -/
structure Grid extends Store where
  cols : ℤ
  rows : ℤ
  pri : List Line
  alt : List Line
  scr : Screen
  altOn : Bool
  cur : Cursor
  savedPri : Cursor
  savedAlt : Cursor
  top : ℤ
  bot : ℤ
  tabs : List Bool

def vtDefault : ℕ := 0
def vtPal : ℕ := 0x01000000
def vtRgb : ℕ := 0x02000000

namespace Grid

variable (g : Grid)

def linesOf : Screen → List Line
  | .pri => g.pri
  | .alt => g.alt

def setLinesOf (w : Screen) (ls : List Line) : Grid :=
  match w with
  | .pri => { g with pri := ls }
  | .alt => { g with alt := ls }

/-- The lines of the screen that is shown. -/
def lines : List Line := g.linesOf g.scr

/-- A line of a screen is read, changed and put back. -/
def editLine (w : Screen) (y : ℤ) (f : Line → Option Line) : Option Grid := do
  let l ← get (g.linesOf w) y
  let l' ← f l
  let ls ← set (g.linesOf w) y l'
  some (g.setLinesOf w ls)

end Grid

/-! ## Lines -/

/-- `free` of a line's cells. -/
def Store.free (st : Store) (id : ℕ) : Store := { st with freed := id :: st.freed }

/-- `realloc` of a line's cells, which are then `c`. -/
def Store.realloc (st : Store) (l : Line) (c : List Cell) : Line × Store :=
  ({ l with id := st.next, c := c }, { st with next := st.next + 1, freed := l.id :: st.freed })

/-- A cell as `blank` leaves it. -/
def blankCell (bg : ℕ) : Cell :=
  { ch := 0, fg := vtDefault, bg := bg, attr := {}, wide := false, cont := false }

/-- A cell of the alignment test. -/
def letterE : Cell :=
  { ch := 0x45, fg := vtDefault, bg := vtDefault, attr := {}, wide := false, cont := false }

/-- `n` cells from `i` on are erased; they take the current background. -/
def blank (g : Grid) (c : List Cell) (i n : ℤ) : Option (List Cell) :=
  fill c i n (blankCell g.cur.bg)

def lineInit (st : Store) (cols : ℤ) : Line × Store :=
  ({ id := st.next, c := List.replicate cols.toNat (blankCell vtDefault), wrapped := false },
    { st with next := st.next + 1 })

/-- `n` fresh lines. -/
def freshLines (cols : ℤ) : ℕ → Store → List Line × Store
  | 0, st => ([], st)
  | n + 1, st =>
    let (l, st) := lineInit st cols
    let (ls, st) := freshLines cols n st
    (l :: ls, st)

/-- A trailing cell the scrollback does not keep. -/
def unused (c : Cell) : Bool :=
  c.ch == 0 && c.bg == vtDefault && (c.attr == {} && !c.wide && !c.cont)

/-- A line without its unused end. -/
def trimLine (st : Store) (l : Line) : Line × Store :=
  if (l.c.rdropWhile unused).length < l.c.length then st.realloc l (l.c.rdropWhile unused)
  else (l, st)

/-- A line is kept as the newest of the scrollback; when it is full the oldest goes. -/
def sbKeep (st : Store) (keep : Line) : Store :=
  if (st.sb.len : ℤ) = st.sbMax then
    { st.free (st.sb.cell st.sb.head).id with
      sb := (st.sb.setFirst keep).skipFull st.sbMax.toNat }
  else { st with sb := st.sb.put st.sbMax.toNat keep }

/-- The scrollback takes a line of the main screen; its cells move there. -/
def sbPush (st : Store) (l : Line) : Store :=
  if st.sbMax ≤ 0 then st.free l.id else sbKeep (trimLine st l).2 (trimLine st l).1

/-- Rows `top` to `bot` move up one line. -/
def scrollUpOne (top bot : ℤ) (g : Grid) : Option Grid := do
  let gone ← get g.lines top
  let ls ← slide g.lines (top + 1) top (bot - top)
  let (new, st) :=
    if !g.altOn && top = 0 then lineInit (sbPush g.toStore gone) g.cols
    else (gone, g.toStore)
  let g := { g with toStore := st }
  let c ← blank g new.c 0 new.len
  let ls ← set ls bot { new with c := c, wrapped := false }
  some (g.setLinesOf g.scr ls)

def scrollUp (g : Grid) (top bot n : ℤ) : Option Grid :=
  if n ≤ 0 then some g
  else
    let h := bot - top + 1
    times (scrollUpOne top bot) (min n h).toNat g

/-- Rows `top` to `bot` move down one line. -/
def scrollDownOne (top bot : ℤ) (g : Grid) : Option Grid := do
  let gone ← get g.lines bot
  let ls ← slide g.lines top (top + 1) (bot - top)
  let c ← blank g gone.c 0 gone.len
  let ls ← set ls top { gone with c := c, wrapped := false }
  some (g.setLinesOf g.scr ls)

def scrollDown (g : Grid) (top bot n : ℤ) : Option Grid :=
  if n ≤ 0 then some g
  else
    let h := bot - top + 1
    times (scrollDownOne top bot) (min n h).toNat g

/-! ## Setting up -/

def resetTabs (cols : ℤ) : List Bool :=
  (List.range cols.toNat).map fun i => i != 0 && i % 8 == 0

/-- A cursor of zeros. -/
def Cursor.zero : Cursor :=
  { x := 0, y := 0, pending := false, fg := 0, bg := 0, attr := {}, origin := false,
    g0Lines := false, g1Lines := false, gl1 := false }

def clearScreen (g : Grid) (w : Screen) : Option Grid :=
  upto (fun y g => g.editLine w y fun l => do
    let c ← blank g l.c 0 l.len
    some { l with c := c, wrapped := false }) g.rows.toNat g

/-! ## Resizing -/

/-- The cells of a line at another width.  Half of a double-width character at the end becomes a
space. -/
def fitCells (c : List Cell) (cols : ℤ) : Option (List Cell) :=
  if cols > c.length then
    some (c ++ List.replicate (cols - c.length).toNat (blankCell vtDefault))
  else
    let c := c.take cols.toNat
    if cols > 0 then do
      let last ← get c (cols - 1)
      if last.wide then set c (cols - 1) { last with ch := 0x20, wide := false } else some c
    else some c

/-- A line of a screen to `cols` cells. -/
def lineFit (st : Store) (l : Line) (cols : ℤ) : Option (Line × Store) :=
  if l.len = cols then some (l, st)
  else do
    let c ← fitCells l.c cols
    some (st.realloc l c)

/-- The blank rows at the bottom, from `y` upwards, down to below the cursor; at most `n`. -/
def blankBottom (ls : List Line) (cy : ℤ) : ℕ → ℤ → Option ℤ
  | 0, _ => some 0
  | n + 1, y =>
    if y > cy then do
      let l ← get ls y
      if l.c.all (·.ch == 0) then do
        let k ← blankBottom ls cy n (y - 1)
        some (k + 1)
      else some 0
    else some 0

/-- The lines that go off the top. -/
def dropLines (keepInSb : Bool) : List Line → Store → Store
  | [], st => st
  | l :: ls, st => dropLines keepInSb ls (if keepInSb then sbPush st l else st.free l.id)

/-- The lines that stay, at most `rows`, at their new width; the others go. -/
def fitLines (cols : ℤ) : ℕ → List Line → Store → Option (List Line × Store)
  | _, [], st => some ([], st)
  | 0, l :: ls, st => fitLines cols 0 ls (st.free l.id)
  | rows + 1, l :: ls, st => do
    let (l, st) ← lineFit st l cols
    let (ls, st) ← fitLines cols rows ls st
    some (l :: ls, st)

/-- How many rows go off the top: those that the blank ones at the bottom do not make room for, and
none at or below the cursor. -/
def dropTop (g : Grid) (s : List Line) (rows cy : ℤ) : Option ℤ :=
  if rows < g.rows then do
    let excess := g.rows - rows
    let blanks ← blankBottom s cy excess.toNat (g.rows - 1)
    some (min (excess - blanks) cy)
  else some 0

/-- A screen with its new lines, and the row its cursor is then on. -/
def screenResize (g : Grid) (w : Screen) (cols rows cy : ℤ) (keepInSb : Bool) :
    Option (Grid × ℤ) := do
  let s := g.linesOf w
  let drop ← dropTop g s rows cy
  -- the rows are taken from `drop` on
  guard (0 ≤ drop ∧ drop ≤ s.length)
  let st := dropLines keepInSb (s.take drop.toNat) g.toStore
  let (kept, st) ← fitLines cols rows.toNat (s.drop drop.toNat) st
  let (fresh, st) := freshLines cols (rows.toNat - kept.length) st
  some ({ g with toStore := st }.setLinesOf w (kept ++ fresh), cy - drop)

/-- A cursor after the size changed. -/
def Cursor.fit (c : Cursor) (cols rows : ℤ) : Cursor :=
  let x := if c.x ≥ cols then cols - 1 else c.x
  let y := if c.y ≥ rows then rows - 1 else c.y
  let y := if y < 0 then 0 else y
  { c with x := x, y := y, pending := false }

def gridResize (g : Grid) (cols rows : ℤ) : Option Grid :=
  let cols := if cols < 1 then 1 else cols
  let rows := if rows < 1 then 1 else rows
  if cols = g.cols ∧ rows = g.rows then some g
  else do
    let cyPri := if g.altOn then g.savedPri.y else g.cur.y
    let cyAlt := if g.altOn then g.cur.y else g.savedAlt.y
    let (g, cyPri) ← screenResize g .pri cols rows cyPri true
    let (g, cyAlt) ← screenResize g .alt cols rows cyAlt false
    let g := { g with scr := if g.altOn then .alt else .pri }
    let g :=
      if g.altOn then
        { g with savedPri := { g.savedPri with y := cyPri }, cur := { g.cur with y := cyAlt } }
      else
        { g with cur := { g.cur with y := cyPri }, savedAlt := { g.savedAlt with y := cyAlt } }
    some { g with
      cols := cols, rows := rows, tabs := resetTabs cols, top := 0, bot := rows - 1,
      cur := g.cur.fit cols rows, savedPri := g.savedPri.fit cols rows,
      savedAlt := g.savedAlt.fit cols rows }

/-! ## The cursor -/

def cursorTo (g : Grid) (x y : ℤ) : Grid :=
  let top := if g.cur.origin then g.top else 0
  let bot := if g.cur.origin then g.bot else g.rows - 1
  let x := if x < 0 then 0 else x
  let x := if x ≥ g.cols then g.cols - 1 else x
  let y := if y < top then top else y
  let y := if y > bot then bot else y
  { g with cur := { g.cur with x := x, y := y, pending := false } }

/-- The cursor down a line, scrolling at the region's bottom. -/
def indexDown (g : Grid) : Option Grid :=
  let g := { g with cur := { g.cur with pending := false } }
  if g.cur.y = g.bot then scrollUp g g.top g.bot 1
  else if g.cur.y < g.rows - 1 then some { g with cur := { g.cur with y := g.cur.y + 1 } }
  else some g

def indexUp (g : Grid) : Option Grid :=
  let g := { g with cur := { g.cur with pending := false } }
  if g.cur.y = g.top then scrollDown g g.top g.bot 1
  else if g.cur.y > 0 then some { g with cur := { g.cur with y := g.cur.y - 1 } }
  else some g

def saveCursor (g : Grid) : Grid :=
  if g.altOn then { g with savedAlt := g.cur } else { g with savedPri := g.cur }

def restoreCursor (g : Grid) : Grid :=
  let c := if g.altOn then g.savedAlt else g.savedPri
  let x := if c.x ≥ g.cols then g.cols - 1 else c.x
  let y := if c.y ≥ g.rows then g.rows - 1 else c.y
  { g with cur := { c with x := x, y := y } }

def setAlt (g : Grid) (on clear : Bool) : Option Grid :=
  if on = g.altOn then some g
  else
    let g := { g with altOn := on, scr := if on then .alt else .pri }
    if on && clear then clearScreen g .alt else some g

/-! ## Erasing -/

/-- Where erasing from `x0` on starts: a double-width character cut in half goes whole. -/
def leftEdge (c : List Cell) (x0 : ℤ) : Option ℤ :=
  if x0 > 0 then do
    let a ← get c x0
    some (if a.cont then x0 - 1 else x0)
  else some x0

/-- Where erasing to before `x1` ends. -/
def rightEdge (c : List Cell) (cols x1 : ℤ) : Option ℤ :=
  if x1 < cols then do
    let a ← get c x1
    some (if a.cont then x1 + 1 else x1)
  else some x1

/-- The cells of a line from `x0` to before `x1` are erased. -/
def eraseSpan (g : Grid) (x0 x1 : ℤ) (l : Line) : Option Line := do
  let x0 ← leftEdge l.c x0
  let x1 ← rightEdge l.c g.cols x1
  let c ← blank g l.c x0 (x1 - x0)
  some { l with c := c, wrapped := if x1 ≥ g.cols then false else l.wrapped }

def eraseCells (g : Grid) (y x0 x1 : ℤ) : Option Grid :=
  if y < 0 ∨ y ≥ g.rows then some g
  else
    let x0 := if x0 < 0 then 0 else x0
    let x1 := if x1 > g.cols then g.cols else x1
    if x0 ≥ x1 then some g else g.editLine g.scr y (eraseSpan g x0 x1)

/-- ICH: `n` blank cells at the cursor, the ones after it move right. -/
def insertCells (g : Grid) (n : ℤ) : Option Grid := do
  let x := g.cur.x
  let n := if n > g.cols - x then g.cols - x else n
  let g ← g.editLine g.scr g.cur.y fun l => do
    let c ← slide l.c x (x + n) (g.cols - x - n)
    let c ← blank g c x n
    some { l with c := c }
  some { g with cur := { g.cur with pending := false } }

/-- DCH: `n` cells at the cursor go, the ones after them move left. -/
def deleteCells (g : Grid) (n : ℤ) : Option Grid := do
  let x := g.cur.x
  let n := if n > g.cols - x then g.cols - x else n
  let g ← g.editLine g.scr g.cur.y fun l => do
    let c ← slide l.c (x + n) x (g.cols - x - n)
    let c ← blank g c (g.cols - n) n
    some { l with c := c }
  some { g with cur := { g.cur with pending := false } }

end BananaOS.Emulator
