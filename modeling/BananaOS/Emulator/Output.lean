import BananaOS.Emulator.Screen

/-!
# What a terminal does with the bytes it is given

The parser of escape sequences and the functions it calls, for the bytes given to `vt_write`.  The
state is the screens (`Grid`) with the modes and the parser's own.  What no function of the screens
reads is left out: the answers for the program, the title, the bell, and the modes that only decide
which bytes a key or the mouse sends.

The functions that only touch the screens are functions of `Grid`; `Vt.onGrid` lifts them.
-/

namespace BananaOS.Emulator

open BananaOS.Lib BananaOS.Lib.Checked

/-- The parser's states. -/
inductive State where
  | ground
  | esc
  | escInter
  | csi
  | osc
  | oscEsc
  | string
  | stringEsc
  deriving DecidableEq

structure Vt extends Grid where
  autowrap : Bool
  insert : Bool
  newlineMode : Bool
  state : State
  params : List ℕ
  nparams : ℕ
  sub : List Bool
  priv : Char
  inter : Char
  utf8Cp : ℕ
  utf8Left : ℕ
  lastCh : ℕ

/-- The parameters a sequence can have. -/
def maxParams : ℕ := 24

namespace Vt

/-- A function of the screens. -/
def onGrid (s : Vt) (f : Grid → Option Grid) : Option Vt := do
  let g ← f s.toGrid
  some { s with toGrid := g }

/-- Another cursor. -/
def setCur (s : Vt) (c : Cursor) : Vt := { s with cur := c }

end Vt

/-! ## Setting up -/

def resetModes (s : Vt) : Vt :=
  { s with
    cur := .zero, savedPri := .zero, savedAlt := .zero, top := 0, bot := s.rows - 1,
    autowrap := true, insert := false, newlineMode := false, state := .ground, utf8Left := 0 }

/-- No block handed out, and nothing in the scrollback. -/
def Store.empty (scrollback : ℤ) : Store :=
  { sbMax := scrollback
    sb := { cell := fun _ => { id := 0, c := [], wrapped := false }, head := 0, len := 0 }
    next := 0
    freed := [] }

def vtNew (cols rows scrollback : ℤ) : Vt :=
  let cols := if cols < 1 then 1 else cols
  let rows := if rows < 1 then 1 else rows
  let (pri, st) := freshLines cols rows.toNat (Store.empty scrollback)
  let (alt, st) := freshLines cols rows.toNat st
  let g : Grid :=
    { toStore := st, cols := cols, rows := rows, pri := pri, alt := alt, scr := .pri,
      altOn := false, cur := .zero, savedPri := .zero, savedAlt := .zero, top := 0,
      bot := rows - 1, tabs := resetTabs cols }
  resetModes
    { toGrid := g
      autowrap := false, insert := false, newlineMode := false, state := .ground
      params := List.replicate maxParams 0, nparams := 0, sub := List.replicate maxParams false
      priv := '\x00', inter := '\x00', utf8Cp := 0, utf8Left := 0, lastCh := 0 }

def vtReset (s : Vt) : Option Vt := do
  let s := { s with altOn := false, scr := .pri }
  let s := resetModes s
  let s := { s with tabs := resetTabs s.cols }
  let s ← s.onGrid (clearScreen · .pri)
  s.onGrid (clearScreen · .alt)

def vtResize (s : Vt) (cols rows : ℤ) : Option Vt := s.onGrid (gridResize · cols rows)

/-! ## Printing -/

/-- DEC special graphics: the line-drawing characters. -/
def decMap : List ℕ :=
  [0x25C6, 0x2592, 0x2409, 0x240C, 0x240D, 0x240A, 0x00B0, 0x00B1,
   0x2424, 0x240B, 0x2518, 0x2510, 0x250C, 0x2514, 0x253C, 0x23BA,
   0x23BB, 0x2500, 0x23BC, 0x23BD, 0x251C, 0x2524, 0x2534, 0x252C,
   0x2502, 0x2264, 0x2265, 0x03C0, 0x2260, 0x00A3, 0x00B7, 0x0020]

def decGraphics (c : ℕ) : ℕ := if 0x60 ≤ c ∧ c ≤ 0x7E then decMap.getD (c - 0x60) 0 else c

/-- The character `put_char` prints for `c`. -/
def glyph (s : Vt) (c : ℕ) : ℕ :=
  if (if s.cur.gl1 then s.cur.g1Lines else s.cur.g0Lines) then decGraphics c else c

/-- The line goes on in the next one, and so does the cursor. -/
def wrapLine (s : Vt) : Option Vt := do
  let s ← s.onGrid fun g => g.editLine g.scr g.cur.y fun l => some { l with wrapped := true }
  let s := s.setCur { s.cur with x := 0 }
  s.onGrid indexDown

/-- Insert mode: the cells from `x` on make room for `w` more. -/
def makeRoom (g : Grid) (insert : Bool) (w x : ℤ) (l : List Cell) : Option (List Cell) :=
  if insert then
    let n := g.cols - x - w
    if n > 0 then slide l x (x + w) n else some l
  else some l

/-- Writing over the second half of a double-width character blanks the first. -/
def blankFirst (g : Grid) (x : ℤ) (l : List Cell) : Option (List Cell) := do
  let a ← get l x
  if a.cont && x > 0 then blank g l (x - 1) 1 else some l

/-- Writing over the first half of a double-width character, in the last of `w` cells, blanks the
second. -/
def blankSecond (g : Grid) (w x : ℤ) (l : List Cell) : Option (List Cell) :=
  if x + w < g.cols then do
    let b ← get l (x + w - 1)
    if b.wide then blank g l (x + w) 1 else some l
  else some l

/-- The cell, or the two cells, of a character. -/
def writeChar (g : Grid) (c : ℕ) (w x : ℤ) (l : List Cell) : Option (List Cell) := do
  let l ← set l x
    { ch := c, fg := g.cur.fg, bg := g.cur.bg, attr := g.cur.attr, wide := w == 2, cont := false }
  if w = 2 then
    set l (x + 1)
      { ch := 0, fg := g.cur.fg, bg := g.cur.bg, attr := g.cur.attr, wide := false, cont := true }
  else some l

/-- The cells of a line after `c`, `w` columns wide, is printed at `x`. -/
def printCells (g : Grid) (insert : Bool) (c : ℕ) (w x : ℤ) (l : List Cell) :
    Option (List Cell) := do
  let l ← makeRoom g insert w x l
  let l ← blankFirst g x l
  let l ← blankSecond g w x l
  writeChar g c w x l

/-- A character in its place: the part of `put_char` after the wrapping. -/
def placeChar (s : Vt) (c : ℕ) (w : ℤ) : Option Vt := do
  let x := s.cur.x
  let s ← s.onGrid fun g => g.editLine g.scr g.cur.y fun l => do
    let cells ← printCells g s.insert c w x l.c
    some { l with c := cells }
  let s := { s with lastCh := c }
  if x + w ≥ s.cols then some (s.setCur { s.cur with x := s.cols - 1, pending := true })
  else some (s.setCur { s.cur with x := x + w })

/-- A pending wrap is made. -/
def wrapPending (s : Vt) : Option Vt :=
  if s.cur.pending && s.autowrap then wrapLine s else some s

/-- No room for both halves at the last column: the cell there is erased, and the character goes to
the next line. -/
def wrapWide (s : Vt) : Option Vt := do
  let s ← s.onGrid fun g => g.editLine g.scr g.cur.y fun l => do
    let c ← blank g l.c g.cur.x 1
    some { l with c := c }
  wrapLine s

/-- A character at the cursor. -/
def putChar (W : Widths) (s : Vt) (c : ℕ) : Option Vt :=
  let c := glyph s c
  let w := charWidth W c
  if w = 0 then some s
  else do
    let s ← wrapPending s
    if w = 2 ∧ s.cur.x = s.cols - 1 then
      if !s.autowrap then some s
      else do
        let s ← wrapWide s
        placeChar s c w
    else placeChar s c w

/-! ## Control characters -/

/-- The next tab stop from `x` on, or the last column; `n` bounds the steps. -/
def nextTab (g : Grid) : ℕ → ℤ → Option ℤ
  | 0, x => some x
  | n + 1, x =>
    if x < g.cols - 1 then do
      let t ← get g.tabs x
      if t then some x else nextTab g n (x + 1)
    else some x

/-- The tab stop at or before `x`, or the first column; `n` bounds the steps. -/
def prevTab (g : Grid) : ℕ → ℤ → Option ℤ
  | 0, x => some x
  | n + 1, x =>
    if x > 0 then do
      let t ← get g.tabs x
      if t then some x else prevTab g n (x - 1)
    else some x

def horizontalTab (g : Grid) : Option Grid := do
  let x ← nextTab g g.cols.toNat (g.cur.x + 1)
  some { g with cur := { g.cur with x := if x < g.cols then x else g.cols - 1, pending := false } }

def backTab (g : Grid) : Option Grid :=
  if g.cur.x > 0 then do
    let x ← prevTab g g.cols.toNat (g.cur.x - 1)
    some { g with cur := { g.cur with x := x } }
  else some g

/-- LF. -/
def lineFeed (s : Vt) : Option Vt := do
  let s ← s.onGrid indexDown
  some (if s.newlineMode then s.setCur { s.cur with x := 0 } else s)

def control (s : Vt) (c : ℕ) : Option Vt :=
  match c with
  | 8 =>
    let x := if s.cur.x > 0 then s.cur.x - (if s.cur.pending then 0 else 1) else s.cur.x
    some (s.setCur { s.cur with x := x, pending := false })
  | 9 => s.onGrid horizontalTab
  | 10 | 11 | 12 => lineFeed s
  | 13 => some (s.setCur { s.cur with x := 0, pending := false })
  | 14 => some (s.setCur { s.cur with gl1 := true })
  | 15 => some (s.setCur { s.cur with gl1 := false })
  | _ => some s

/-! ## Control sequences -/

/-- Parameter `i`, or `d` when it is not given or `0`. -/
def param (s : Vt) (i : ℕ) (d : ℤ) : ℤ :=
  if i < s.nparams ∧ s.params.getD i 0 > 0 then s.params.getD i 0 else d

/-- How many parameters from `j` on belong to a colour; `n` bounds the steps. -/
def colourParams (s : Vt) (colon : Bool) : ℕ → ℕ → ℕ
  | 0, _ => 0
  | n + 1, j =>
    if j < s.nparams ∧ (!colon || s.sub.getD j false) then colourParams s colon n (j + 1) + 1 else 0

/-- A colour after parameter `i`, as `5;n` or `2;r;g;b` or with colons, and the parameter after
it. -/
def sgrColour (s : Vt) (i : ℕ) : ℕ × ℕ :=
  let p := fun j => s.params.getD j 0
  let colon := decide (i + 1 < s.nparams) && s.sub.getD (i + 1) false
  let k := i + 1
  if k < s.nparams ∧ p k = 5 ∧ k + 1 < s.nparams then (vtPal ||| (p (k + 1) &&& 255), k + 2)
  else if k < s.nparams ∧ p k = 2 then
    let n := colourParams s colon s.nparams (k + 1)
    let n := if !colon then (if n > 3 then 3 else n) else n
    -- with colons a colour space may come first
    let at' := k + 1 + (if colon ∧ n ≥ 4 then n - 3 else 0)
    let col :=
      if at' + 2 < s.nparams then
        vtRgb ||| (p at' &&& 255) <<< 16 ||| (p (at' + 1) &&& 255) <<< 8 ||| (p (at' + 2) &&& 255)
      else vtDefault
    (col, at' + 3)
  else (vtDefault, i + 1)

/-- One parameter of SGR: the cursor after it, and the next parameter. -/
def sgrOne (s : Vt) (i : ℕ) (c : Cursor) : Cursor × ℕ :=
  let p := s.params.getD i 0
  match p with
  | 0 => ({ c with attr := {}, fg := vtDefault, bg := vtDefault }, i + 1)
  | 1 => ({ c with attr := { c.attr with bold := true } }, i + 1)
  | 2 => ({ c with attr := { c.attr with faint := true } }, i + 1)
  | 3 => ({ c with attr := { c.attr with italic := true } }, i + 1)
  | 4 =>
    if i + 1 < s.nparams ∧ s.sub.getD (i + 1) false then
      ({ c with attr := { c.attr with underline := s.params.getD (i + 1) 0 != 0 } }, i + 2)
    else ({ c with attr := { c.attr with underline := true } }, i + 1)
  | 5 | 6 => ({ c with attr := { c.attr with blink := true } }, i + 1)
  | 7 => ({ c with attr := { c.attr with reverse := true } }, i + 1)
  | 8 => ({ c with attr := { c.attr with invisible := true } }, i + 1)
  | 9 => ({ c with attr := { c.attr with strike := true } }, i + 1)
  | 21 => ({ c with attr := { c.attr with underline := true } }, i + 1)
  | 22 => ({ c with attr := { c.attr with bold := false, faint := false } }, i + 1)
  | 23 => ({ c with attr := { c.attr with italic := false } }, i + 1)
  | 24 => ({ c with attr := { c.attr with underline := false } }, i + 1)
  | 25 => ({ c with attr := { c.attr with blink := false } }, i + 1)
  | 27 => ({ c with attr := { c.attr with reverse := false } }, i + 1)
  | 28 => ({ c with attr := { c.attr with invisible := false } }, i + 1)
  | 29 => ({ c with attr := { c.attr with strike := false } }, i + 1)
  | 39 => ({ c with fg := vtDefault }, i + 1)
  | 49 => ({ c with bg := vtDefault }, i + 1)
  | 38 => ({ c with fg := (sgrColour s i).1 }, (sgrColour s i).2)
  | 48 => ({ c with bg := (sgrColour s i).1 }, (sgrColour s i).2)
  | 58 => (c, (sgrColour s i).2)
  | _ =>
    if 30 ≤ p ∧ p ≤ 37 then ({ c with fg := vtPal ||| (p - 30) }, i + 1)
    else if 40 ≤ p ∧ p ≤ 47 then ({ c with bg := vtPal ||| (p - 40) }, i + 1)
    else if 90 ≤ p ∧ p ≤ 97 then ({ c with fg := vtPal ||| (p - 90 + 8) }, i + 1)
    else if 100 ≤ p ∧ p ≤ 107 then ({ c with bg := vtPal ||| (p - 100 + 8) }, i + 1)
    else (c, i + 1)

/-- The parameters of SGR from `i` on; `n` bounds the steps. -/
def sgrFrom (s : Vt) : ℕ → ℕ → Cursor → Cursor
  | 0, _, c => c
  | n + 1, i, c =>
    if i < s.nparams then sgrFrom s n (sgrOne s i c).2 (sgrOne s i c).1 else c

def sgr (s : Vt) : Vt :=
  let s := if s.nparams = 0 then { s with nparams := 1, params := s.params.set 0 0 } else s
  s.setCur (sgrFrom s s.nparams 0 s.cur)

def decMode (s : Vt) (mode : ℕ) (on : Bool) : Option Vt :=
  match mode with
  | 6 =>
    let s := s.setCur { s.cur with origin := on }
    some { s with toGrid := cursorTo s.toGrid 0 (if on then s.top else 0) }
  | 7 => some { s with autowrap := on }
  | 47 => s.onGrid (setAlt · on false)
  | 1047 => s.onGrid (setAlt · on true)
  | 1048 => some { s with toGrid := if on then saveCursor s.toGrid else restoreCursor s.toGrid }
  | 1049 =>
    if on then do
      let s ← s.onGrid fun g => setAlt (saveCursor g) true true
      some (s.setCur s.savedPri)
    else do
      let s ← s.onGrid (setAlt · false false)
      some { s with toGrid := restoreCursor s.toGrid }
  | _ => some s

/-- REP: the last character again, `n` times. -/
def repeatChar (W : Widths) : ℕ → Vt → Option Vt
  | 0, s => some s
  | n + 1, s =>
    if s.lastCh = 0 then some s
    else do
      let s ← putChar W s s.lastCh
      repeatChar W n s

/-- ED. -/
def eraseDisplay (g : Grid) (m : ℤ) : Option Grid :=
  if m = 0 then do
    let y := g.cur.y
    let g ← eraseCells g y g.cur.x g.cols
    upto (fun i g => eraseCells g (y + 1 + i) 0 g.cols) (g.rows - (y + 1)).toNat g
  else if m = 1 then do
    let y := g.cur.y
    let g ← upto (fun i g => eraseCells g i 0 g.cols) y.toNat g
    eraseCells g y 0 (g.cur.x + 1)
  else if m = 2 then upto (fun i g => eraseCells g i 0 g.cols) g.rows.toNat g
  else if m = 3 ∧ !g.altOn then
    let ids := (g.sb.list g.sbMax.toNat).map Line.id
    some { g with sb := g.sb.clear, freed := ids.reverse ++ g.freed }
  else some g

/-- EL. -/
def eraseInLine (g : Grid) (m : ℤ) : Option Grid :=
  if m = 0 then eraseCells g g.cur.y g.cur.x g.cols
  else if m = 1 then eraseCells g g.cur.y 0 (g.cur.x + 1)
  else eraseCells g g.cur.y 0 g.cols

/-- IL. -/
def insertLines (g : Grid) (n : ℤ) : Option Grid :=
  if g.cur.y ≥ g.top ∧ g.cur.y ≤ g.bot then do
    let g ← scrollDown g g.cur.y g.bot n
    some { g with cur := { g.cur with x := 0, pending := false } }
  else some g

/-- DL.  The deleted lines do not go to the scrollback. -/
def deleteLines (g : Grid) (n : ℤ) : Option Grid :=
  if g.cur.y ≥ g.top ∧ g.cur.y ≤ g.bot then do
    let keep := g.altOn
    let g := { g with altOn := true }
    let g ← scrollUp g g.cur.y g.bot n
    let g := { g with altOn := keep }
    some { g with cur := { g.cur with x := 0, pending := false } }
  else some g

/-- SU. -/
def scrollRegionUp (g : Grid) (n : ℤ) : Option Grid := do
  let keep := g.altOn
  let g := if g.top ≠ 0 then { g with altOn := true } else g
  let g ← scrollUp g g.top g.bot n
  some { g with altOn := keep }

/-- DECSTBM. -/
def setRegion (g : Grid) (p0 p1 : ℤ) : Grid :=
  let t := p0 - 1
  let b := p1 - 1
  let b := if b ≥ g.rows then g.rows - 1 else b
  if t < b then
    let g := { g with top := t, bot := b }
    cursorTo g 0 (if g.cur.origin then t else 0)
  else g

/-- TBC. -/
def clearTabs (g : Grid) (m : ℤ) : Option Grid :=
  if m = 0 then do
    let tabs ← set g.tabs g.cur.x false
    some { g with tabs := tabs }
  else if m = 3 then do
    let tabs ← fill g.tabs 0 g.cols false
    some { g with tabs := tabs }
  else some g

/-- SM and RM. -/
def ansiModes (s : Vt) (on : Bool) (i : ℕ) (t : Vt) : Option Vt :=
  let p := s.params.getD i 0
  some (if p = 4 then { t with insert := on }
    else if p = 20 then { t with newlineMode := on } else t)

/-- A sequence without a private marker. -/
def csiAnsi (W : Widths) (s : Vt) (f : Char) : Option Vt :=
  if s.inter = '!' ∧ f = 'p' then
    some { s with
      insert := false, autowrap := true, top := 0, bot := s.rows - 1,
      cur := { s.cur with origin := false, attr := {}, fg := vtDefault, bg := vtDefault } }
  else if s.inter ≠ '\x00' then some s
  else
    let c := s.cur
    let top := if c.origin then s.top else 0
    let p0 := param s 0 1
    let m := param s 0 0
    match f with
    | 'A' =>
      let y := c.y - p0
      let y := if c.y ≥ s.top ∧ y < s.top then s.top else y
      some { s with toGrid := cursorTo s.toGrid c.x y }
    | 'B' | 'e' =>
      let y := c.y + p0
      let y := if c.y ≤ s.bot ∧ y > s.bot then s.bot else y
      some { s with toGrid := cursorTo s.toGrid c.x y }
    | 'C' | 'a' => some { s with toGrid := cursorTo s.toGrid (c.x + p0) c.y }
    | 'D' => some { s with toGrid := cursorTo s.toGrid (c.x - p0) c.y }
    | 'E' => some { s with toGrid := cursorTo s.toGrid 0 (c.y + p0) }
    | 'F' => some { s with toGrid := cursorTo s.toGrid 0 (c.y - p0) }
    | 'G' | '`' => some { s with toGrid := cursorTo s.toGrid (p0 - 1) c.y }
    | 'H' | 'f' => some { s with toGrid := cursorTo s.toGrid (param s 1 1 - 1) (top + p0 - 1) }
    | 'd' => some { s with toGrid := cursorTo s.toGrid c.x (top + p0 - 1) }
    | 'I' => s.onGrid (times horizontalTab p0.toNat)
    | 'Z' => do
      let s ← s.onGrid (times backTab p0.toNat)
      some (s.setCur { s.cur with pending := false })
    | 'J' => s.onGrid (eraseDisplay · m)
    | 'K' => s.onGrid (eraseInLine · m)
    | 'X' => do
      let s ← s.onGrid (eraseCells · c.y c.x (c.x + p0))
      some (s.setCur { s.cur with pending := false })
    | 'L' => s.onGrid (insertLines · p0)
    | 'M' => s.onGrid (deleteLines · p0)
    | 'S' => s.onGrid (scrollRegionUp · p0)
    | 'T' => s.onGrid fun g => scrollDown g g.top g.bot p0
    | '@' => s.onGrid (insertCells · p0)
    | 'P' => s.onGrid (deleteCells · p0)
    | 'b' => repeatChar W p0.toNat s
    | 'm' => some (sgr s)
    | 'r' => some { s with toGrid := setRegion s.toGrid p0 (param s 1 s.rows) }
    | 's' => some { s with toGrid := saveCursor s.toGrid }
    | 'u' => some { s with toGrid := restoreCursor s.toGrid }
    | 'h' => upto (ansiModes s true) s.nparams s
    | 'l' => upto (ansiModes s false) s.nparams s
    | 'g' => s.onGrid (clearTabs · m)
    | _ => some s

def csi (W : Widths) (s : Vt) (f : Char) : Option Vt :=
  if s.priv = '?' then
    if f = 'h' ∨ f = 'l' then
      upto (fun i t => decMode t (s.params.getD i 0) (f = 'h')) s.nparams s
    else if f = 'J' ∨ f = 'K' then csiAnsi W { s with priv := '\x00' } f
    else some s
  else if s.priv ≠ '\x00' then some s
  else csiAnsi W s f

/-! ## Escapes -/

/-- DECALN: the screen full of `E`. -/
def alignmentTest (g : Grid) : Option Grid :=
  upto (fun y g => g.editLine g.scr y fun l => do
    let c ← fill l.c 0 g.cols letterE
    some { l with c := c }) g.rows.toNat g

/-- HTS. -/
def setTab (g : Grid) : Option Grid := do
  let tabs ← set g.tabs g.cur.x true
  some { g with tabs := tabs }

def esc (s : Vt) (f : Char) : Option Vt :=
  if s.inter = '(' then some (s.setCur { s.cur with g0Lines := f == '0' })
  else if s.inter = ')' then some (s.setCur { s.cur with g1Lines := f == '0' })
  else if s.inter = '#' ∧ f = '8' then s.onGrid alignmentTest
  else if s.inter ≠ '\x00' then some s
  else
    match f with
    | '7' => some { s with toGrid := saveCursor s.toGrid }
    | '8' => some { s with toGrid := restoreCursor s.toGrid }
    | 'D' => s.onGrid indexDown
    | 'E' => (s.setCur { s.cur with x := 0 }).onGrid indexDown
    | 'M' => s.onGrid indexUp
    | 'H' => s.onGrid setTab
    | 'c' => vtReset s
    | _ => some s

/-! ## The parser -/

/-- A byte as a character of a sequence. -/
def chr (b : ℕ) : Char := Char.ofNat b

/-- A byte of a control sequence. -/
def csiByte (W : Widths) (s : Vt) (b : ℕ) : Option Vt :=
  if 0x30 ≤ b ∧ b ≤ 0x39 then
    let n := if s.nparams = 0 then 1 else s.nparams
    let p := s.params.getD (n - 1) 0
    let p := if p < 100000 then p * 10 + (b - 0x30) else p
    some { s with nparams := n, params := s.params.set (n - 1) p }
  else if chr b = ';' ∨ chr b = ':' then
    let n := if s.nparams = 0 then 1 else s.nparams
    if n < maxParams then
      some { s with nparams := n + 1, sub := s.sub.set n (chr b == ':'),
                    params := s.params.set n 0 }
    else some { s with nparams := n }
  else if 0x3C ≤ b ∧ b ≤ 0x3F then some { s with priv := chr b }
  else if 0x20 ≤ b ∧ b ≤ 0x2F then some { s with inter := chr b }
  else if 0x40 ≤ b ∧ b ≤ 0x7E then csi W { s with state := .ground } (chr b)
  else if b < 0x20 then control s b
  else some { s with state := .ground }

/-- What is cut short of a character is shown as one replacement character. -/
def cutShort (W : Widths) (s : Vt) : Option Vt :=
  if s.utf8Left ≠ 0 then putChar W s 0xFFFD else some s

/-- A byte that starts a character of several bytes, or is out of place. -/
def utf8Start (W : Widths) (s : Vt) (b : ℕ) : Option Vt :=
  if 0xC2 ≤ b ∧ b ≤ 0xDF then some { s with utf8Cp := b &&& 0x1F, utf8Left := 1 }
  else if 0xE0 ≤ b ∧ b ≤ 0xEF then some { s with utf8Cp := b &&& 0x0F, utf8Left := 2 }
  else if 0xF0 ≤ b ∧ b ≤ 0xF4 then some { s with utf8Cp := b &&& 0x07, utf8Left := 3 }
  else putChar W { s with utf8Left := 0 } 0xFFFD

/-- A byte outside a sequence. -/
def groundByte (W : Widths) (s : Vt) (b : ℕ) : Option Vt :=
  if b = 0x1B then some { s with state := .esc, inter := '\x00', utf8Left := 0 }
  else if b < 0x20 then do
    let s ← control s b
    some { s with utf8Left := 0 }
  else if b = 0x7F then some { s with utf8Left := 0 }
  else if b < 0x80 then putChar W { s with utf8Left := 0 } b
  else if s.utf8Left ≠ 0 ∧ b &&& 0xC0 = 0x80 then
    let s := { s with utf8Cp := s.utf8Cp <<< 6 ||| (b &&& 0x3F), utf8Left := s.utf8Left - 1 }
    if s.utf8Left = 0 then putChar W s s.utf8Cp else some s
  else do
    let s ← cutShort W s
    utf8Start W s b

def byte (W : Widths) (s : Vt) (b : UInt8) : Option Vt :=
  let b := b.toNat
  match s.state with
  | .esc =>
    if chr b = '[' then
      some { s with state := .csi, nparams := 0, priv := '\x00', inter := '\x00',
                    sub := List.replicate maxParams false, params := s.params.set 0 0 }
    else if chr b = ']' then some { s with state := .osc }
    else if chr b = 'P' ∨ chr b = '_' ∨ chr b = '^' ∨ chr b = 'X' then
      some { s with state := .string }
    else if 0x20 ≤ b ∧ b ≤ 0x2F then some { s with inter := chr b, state := .escInter }
    else esc { s with state := .ground } (chr b)
  | .escInter =>
    if 0x20 ≤ b ∧ b ≤ 0x2F then some s else esc { s with state := .ground } (chr b)
  | .csi => csiByte W s b
  | .osc =>
    if b = 7 then some { s with state := .ground }
    else if b = 0x1B then some { s with state := .oscEsc }
    else some s
  | .oscEsc =>
    let s := { s with state := .ground }
    if chr b = '\\' then some s else groundByte W s b
  | .string =>
    if b = 7 then some { s with state := .ground }
    else if b = 0x1B then some { s with state := .stringEsc }
    else some s
  | .stringEsc => some { s with state := if chr b = '\\' then .ground else .string }
  | .ground => groundByte W s b

def vtWrite (W : Widths) (s : Vt) (data : List UInt8) : Option Vt := data.foldlM (byte W) s

end BananaOS.Emulator
